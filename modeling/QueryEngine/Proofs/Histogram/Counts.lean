import Mathlib.Algebra.Group.Nat.Defs
import Mathlib.Data.List.Perm.Basic
import QueryEngine.Histogram.Column

/-!
# What a histogram has counted

A histogram forgets the values it counts and keeps their number by bucket. `IntHistogram.Counts`
relates the two: the heights of the buckets are those of a given list of values. Counting one value
more adds it to the list, and the order of the list is of no account.

Together with the range and the number of buckets (`IntHistogram.Spans`) the list determines the
histogram (`IntHistogram.Counts.ext_of_perm`).

## Columns

The histogram of a column counts a value under a key: a number moved into the range, or the number
that a text begins with. `ColumnHistogram.key?` reads the key off the histogram, which does not
change it when it counts, so that a column is counted through its keys.
-/

namespace QueryEngine

/-! ## Histograms of integers -/

namespace IntHistogram

/-- The histograms divide the same range into the same buckets. -/
structure SameBuckets (h h' : IntHistogram) : Prop where
  buckets_eq : h'.buckets = h.buckets
  min_eq : h'.min = h.min
  max_eq : h'.max = h.max
  width_eq : h'.width = h.width

/-- The histogram divides the range into so many buckets of one width, rounded up. -/
structure Spans (h : IntHistogram) (buckets : Nat) (low high : Int64) : Prop where
  buckets_eq : h.buckets = buckets
  min_eq : h.min = low
  max_eq : h.max = high
  width_eq : h.width = (high.toInt - low.toInt + 1 + buckets - 1) / buckets

/-- The heights of the buckets are those of the given values. -/
structure Counts (h : IntHistogram) (values : List Int64) : Prop where
  buckets_pos : 0 < h.buckets
  height_eq : ∀ j, h.height j = values.countP fun v ↦ h.indexOf v = j
  total_eq : h.total = values.length

variable {h h' : IntHistogram} {buckets : Nat} {low high : Int64} {values values' : List Int64}

theorem SameBuckets.refl (h : IntHistogram) : h.SameBuckets h := ⟨rfl, rfl, rfl, rfl⟩

theorem SameBuckets.symm (same : h.SameBuckets h') : h'.SameBuckets h :=
  ⟨same.buckets_eq.symm, same.min_eq.symm, same.max_eq.symm, same.width_eq.symm⟩

theorem SameBuckets.trans {h'' : IntHistogram} (same : h.SameBuckets h')
    (same' : h'.SameBuckets h'') : h.SameBuckets h'' :=
  ⟨same'.buckets_eq.trans same.buckets_eq, same'.min_eq.trans same.min_eq,
    same'.max_eq.trans same.max_eq, same'.width_eq.trans same.width_eq⟩

theorem SameBuckets.indexOf_eq (same : h.SameBuckets h') : h'.indexOf = h.indexOf := by
  funext v
  rw [indexOf, indexOf, same.buckets_eq, same.min_eq, same.max_eq, same.width_eq]

theorem Spans.of_same (spans : h.Spans buckets low high) (same : h.SameBuckets h') :
    h'.Spans buckets low high :=
  ⟨same.buckets_eq.trans spans.buckets_eq, same.min_eq.trans spans.min_eq,
    same.max_eq.trans spans.max_eq, same.width_eq.trans spans.width_eq⟩

theorem Spans.same (spans : h.Spans buckets low high) (spans' : h'.Spans buckets low high) :
    h.SameBuckets h' :=
  ⟨spans'.buckets_eq.trans spans.buckets_eq.symm, spans'.min_eq.trans spans.min_eq.symm,
    spans'.max_eq.trans spans.max_eq.symm, spans'.width_eq.trans spans.width_eq.symm⟩

theorem ofRange_eq_ok (pos : 0 < buckets) (range : low ≤ high) :
    ∃ h, ofRange buckets low high = .ok h ∧ h.Spans buckets low high ∧ h.Counts [] := by
  have hnew : ofRange buckets low high = .ok ⟨.replicate buckets 0, low, high,
      (high.toInt - low.toInt + 1 + buckets - 1) / buckets, 0⟩ := by
    rw [ofRange, if_neg (Nat.ne_of_gt pos), if_neg (Int64.not_lt.mpr range)]
  refine ⟨_, hnew, ⟨?_, rfl, rfl, rfl⟩, ⟨?_, ?_, rfl⟩⟩
  · exact List.length_replicate
  · exact Nat.lt_of_lt_of_eq pos List.length_replicate.symm
  · intro j
    rw [height, List.getElem?_replicate]
    split <;> rfl

theorem spans_of_ofRange (hnew : ofRange buckets low high = .ok h) :
    0 < buckets ∧ low ≤ high ∧ h.Spans buckets low high ∧ h.Counts [] := by
  have hpos : 0 < buckets := by
    by_contra hzero
    rw [ofRange, if_pos (Nat.eq_zero_of_not_pos hzero)] at hnew
    cases hnew
  have hrange : low ≤ high := by
    by_contra hempty
    rw [ofRange, if_neg (Nat.ne_of_gt hpos), if_pos (Int64.not_le.mp hempty)] at hnew
    cases hnew
  obtain ⟨h', hnew', spans, counts⟩ := ofRange_eq_ok hpos hrange
  obtain rfl : h = h' := Except.ok.inj (hnew.symm.trans hnew')
  exact ⟨hpos, hrange, spans, counts⟩

theorem indexOf_lt (pos : 0 < h.buckets) (v : Int64) : h.indexOf v < h.buckets := by
  have hlast : h.buckets - 1 < h.buckets := Nat.sub_lt pos Nat.zero_lt_one
  rw [indexOf]
  split
  · exact hlast
  · exact Nat.lt_of_le_of_lt (Nat.min_le_right _ _) hlast

theorem Counts.add (counts : h.Counts values) {v : Int64} (covers : h.Covers v) :
    ∃ h', h.add v = .ok h' ∧ h'.Counts (values ++ [v]) ∧ h.SameBuckets h' := by
  have same : h.SameBuckets
      { h with counts := h.counts.modify (h.indexOf v) (· + 1), total := h.total + 1 } :=
    ⟨List.length_modify .., rfl, rfl, rfl⟩
  refine ⟨_, if_pos covers, ⟨?_, ?_, ?_⟩, same⟩
  · rw [same.buckets_eq]
    exact counts.buckets_pos
  · intro j
    have hheight := counts.height_eq j
    rw [same.indexOf_eq, List.countP_append, List.countP_singleton, ← hheight, height, height,
      List.getElem?_modify]
    by_cases hj : h.indexOf v = j
    · subst hj
      have hlt : h.indexOf v < h.counts.length := indexOf_lt counts.buckets_pos v
      simp [List.getElem?_eq_getElem hlt]
    · simp [hj]
  · rw [List.length_append, ← counts.total_eq]
    rfl

/-! ### Runs of values -/

theorem same_of_add {v : Int64} (hadd : h.add v = .ok h') : h.SameBuckets h' := by
  rw [add] at hadd
  split at hadd
  · cases hadd
    exact ⟨List.length_modify .., rfl, rfl, rfl⟩
  · cases hadd

theorem covers_of_add {v : Int64} (hadd : h.add v = .ok h') : h.Covers v := by
  rw [add] at hadd
  split at hadd
  · assumption
  · cases hadd

def accepted (h : IntHistogram) : List Int64 → List Int64
  | [] => []
  | v :: rest =>
    match h.add v with
    | .ok h' => v :: h'.accepted rest
    | .error _ => h.accepted rest

theorem same_feed (h : IntHistogram) (values : List Int64) :
    h.SameBuckets (h.feed values).2 := by
  induction values generalizing h with
  | nil => exact .refl h
  | cons v rest ih =>
    rw [feed]
    cases hadd : h.add v with
    | ok h' => exact (same_of_add hadd).trans (ih h')
    | error e => exact ih h

theorem SameBuckets.covers_iff (same : h.SameBuckets h') {v : Int64} :
    h'.Covers v ↔ h.Covers v := by
  rw [Covers, Covers, same.min_eq, same.max_eq]

theorem covers_of_mem_accepted {v : Int64} (hv : v ∈ h.accepted values) : h.Covers v := by
  induction values generalizing h with
  | nil => exact absurd hv List.not_mem_nil
  | cons w rest ih =>
    rw [accepted] at hv
    cases hadd : h.add w with
    | ok h' =>
      rw [hadd] at hv
      rcases List.mem_cons.mp hv with rfl | hv
      · exact covers_of_add hadd
      · exact (same_of_add hadd).covers_iff.mp (ih hv)
    | error e =>
      rw [hadd] at hv
      exact ih hv

theorem Counts.feed {before : List Int64} (counts : h.Counts before) (values : List Int64) :
    (h.feed values).2.Counts (before ++ h.accepted values) := by
  induction values generalizing h before with
  | nil => simpa [IntHistogram.feed, accepted] using counts
  | cons v rest ih =>
    rw [IntHistogram.feed, accepted]
    cases hadd : h.add v with
    | ok h' =>
      obtain ⟨h'', hadd', counts', -⟩ := counts.add (covers_of_add hadd)
      obtain rfl : h' = h'' := Except.ok.inj (hadd.symm.trans hadd')
      simpa using ih counts'
    | error e => exact ih counts

theorem accepted_eq_self (covers : ∀ v ∈ values, h.Covers v) : h.accepted values = values := by
  induction values generalizing h with
  | nil => rfl
  | cons v rest ih =>
    have hadd : h.add v = .ok _ := if_pos (covers v List.mem_cons_self)
    rw [accepted, hadd]
    refine congrArg (v :: ·) (ih fun w hw ↦ ?_)
    exact (same_of_add hadd).covers_iff.mpr (covers w (List.mem_cons_of_mem v hw))

/-- The values in any order determine the histogram, given its buckets. -/
theorem Counts.ext_of_perm (counts : h.Counts values) (counts' : h'.Counts values')
    (same : h.SameBuckets h') (perm : values.Perm values') : h = h' := by
  have hheights : h.counts = h'.counts := by
    apply List.ext_getElem
    · exact same.buckets_eq.symm
    · intro j hj hj'
      have hheight : h.height j = h'.height j := by
        rw [counts.height_eq, counts'.height_eq, same.indexOf_eq, perm.countP_eq]
      rwa [height, height, List.getElem?_eq_getElem hj, List.getElem?_eq_getElem hj'] at hheight
  have htotal : h.total = h'.total := by rw [counts.total_eq, counts'.total_eq, perm.length_eq]
  obtain ⟨heights, min, max, width, total⟩ := h
  obtain ⟨-, rfl, rfl, rfl⟩ := same.symm
  obtain rfl : heights = h'.counts := hheights
  obtain rfl : total = h'.total := htotal
  rfl

end IntHistogram

/-! ## Numbers moved into a range -/

theorem clampTo_of_covers {h : IntHistogram} {v : Int64} (covers : h.Covers v) :
    clampTo h.min h.max v = v := by
  rw [clampTo, if_neg (Int64.not_lt.mpr covers.1), if_neg (Int64.not_lt.mpr covers.2)]

theorem covers_clampTo {h : IntHistogram} (range : h.min ≤ h.max) (v : Int64) :
    h.Covers (clampTo h.min h.max v) := by
  rw [clampTo]
  split
  · exact ⟨Int64.le_refl _, range⟩
  · next hlow =>
    split
    · exact ⟨range, Int64.le_refl _⟩
    · next hhigh => exact ⟨Int64.not_lt.mp hlow, Int64.not_lt.mp hhigh⟩

/-! ## Keys of texts -/

theorem lastKey_lt : lastKey < 2 ^ 63 := by decide

theorem clampedKey_bounds (s : String) :
    Int64.ofNat (textKey "") ≤ clampedKey s ∧ clampedKey s ≤ Int64.ofNat lastKey := by
  have hle : Nat.min (textKey s) lastKey ≤ lastKey := Nat.min_le_right _ _
  have hlt := lastKey_lt
  have hfirst : textKey "" = 0 := by decide
  rw [clampedKey, Int64.le_iff_toInt_le, Int64.le_iff_toInt_le, hfirst,
    Int64.toInt_ofNat_of_lt (by omega), Int64.toInt_ofNat_of_lt hlt,
    Int64.toInt_ofNat_of_lt (by omega)]
  omega

/-! ## Histograms of columns -/

namespace ColumnHistogram

def keys : ColumnHistogram → IntHistogram
  | integer h => h
  | text h => h.keys

def key? : ColumnHistogram → Value → Option Int64
  | integer h, .integer v => some (clampTo h.min h.max v)
  | text _, .text s => some (clampedKey s)
  | _, _ => none

/-- The heights of the buckets are those of the given values, which are of the type of the column
and all of whose keys are in range. -/
structure Counts (h : ColumnHistogram) (values : List Value) : Prop where
  counts : h.keys.Counts (values.filterMap h.key?)
  types : ∀ v ∈ values, v.type = h.type
  covers : ∀ v k, h.key? v = some k → h.keys.Covers k

variable {h : ColumnHistogram} {values : List Value}

theorem key?_isSome {v : Value} (type : v.type = h.type) : ∃ k, h.key? v = some k := by
  rcases h with h | h <;> rcases v with n | s
  · exact ⟨_, rfl⟩
  · cases type
  · cases type
  · exact ⟨_, rfl⟩

/-- The key of a value depends on the type and the range of the column only. -/
theorem key?_eq_of_same {h' : ColumnHistogram} (type : h'.type = h.type)
    (same : h.keys.SameBuckets h'.keys) : h'.key? = h.key? := by
  funext v
  rcases h with h | h <;> rcases h' with h' | h'
  · have hmin : h'.min = h.min := same.min_eq
    have hmax : h'.max = h.max := same.max_eq
    rcases v with n | s
    · rw [key?, key?, hmin, hmax]
    · rfl
  · cases type
  · cases type
  · rcases v with n | s <;> rfl

theorem add_of_key? {v : Value} {k : Int64} (hk : h.key? v = some k) {keys : IntHistogram}
    (hadd : h.keys.add k = .ok keys) :
    ∃ h', h.add v = .ok h' ∧ h'.keys = keys ∧ h'.type = h.type := by
  rcases h with h | h <;> rcases v with n | s
  · obtain rfl : clampTo h.min h.max n = k := Option.some.inj hk
    exact ⟨integer keys, congrArg (Except.map integer) hadd, rfl, rfl⟩
  · cases hk
  · cases hk
  · obtain rfl : clampedKey s = k := Option.some.inj hk
    exact ⟨text ⟨keys⟩, congrArg (Except.map text ∘ Except.map TextHistogram.mk) hadd, rfl, rfl⟩

theorem Counts.total_eq (counts : h.Counts values) : h.total = values.length := by
  have htotal : h.total = h.keys.total := by cases h <;> rfl
  rw [htotal, counts.counts.total_eq, List.length_filterMap_eq_countP, List.countP_eq_length]
  intro v hv
  obtain ⟨k, hk⟩ := key?_isSome (counts.types v hv)
  rw [hk]
  rfl

theorem Counts.add (counts : h.Counts values) {v : Value} (type : v.type = h.type) :
    ∃ h', h.add v = .ok h' ∧ h'.Counts (values ++ [v]) ∧ h'.type = h.type
      ∧ h.keys.SameBuckets h'.keys := by
  obtain ⟨k, hk⟩ := key?_isSome type
  obtain ⟨keys, hadd, hcounts, same⟩ := counts.counts.add (counts.covers v k hk)
  obtain ⟨h', hadd', rfl, htype⟩ := add_of_key? hk hadd
  have hkey : h'.key? = h.key? := key?_eq_of_same htype same
  refine ⟨h', hadd', ⟨?_, ?_, ?_⟩, htype, same⟩
  · rw [hkey, List.filterMap_append, List.filterMap_cons_some hk]
    exact hcounts
  · intro w hw
    rw [htype]
    rcases List.mem_append.mp hw with hold | hnew
    · exact counts.types w hold
    · rwa [List.mem_singleton.mp hnew]
  · intro w k hw
    rw [IntHistogram.Covers, same.min_eq, same.max_eq]
    exact counts.covers w k (hkey ▸ hw)

/-- An empty histogram is ready to count, as the keys of all values lie in its range. -/
theorem counts_nil_integer {h : IntHistogram} (counts : h.Counts []) (range : h.min ≤ h.max) :
    (integer h).Counts [] where
  counts := counts
  types := fun _ hv ↦ absurd hv List.not_mem_nil
  covers := by
    rintro (n | s) k hk
    · obtain rfl : clampTo h.min h.max n = k := Option.some.inj hk
      exact covers_clampTo range n
    · cases hk

theorem counts_nil_text {h : TextHistogram} {buckets : Nat} (counts : h.keys.Counts [])
    (spans : h.keys.Spans buckets (Int64.ofNat (textKey "")) (Int64.ofNat lastKey)) :
    (text h).Counts [] where
  counts := counts
  types := fun _ hv ↦ absurd hv List.not_mem_nil
  covers := by
    rintro (n | s) k hk
    · cases hk
    · obtain rfl : clampedKey s = k := Option.some.inj hk
      rw [IntHistogram.Covers, keys, spans.min_eq, spans.max_eq]
      exact clampedKey_bounds s

/-! ## The histogram of all values of a column -/

/-- The histogram is that of the given values. The range of numbers ends with the least and the
greatest of them; that of texts is always the one of all keys. -/
inductive Describes (buckets : Nat) : ColumnHistogram → List Value → Prop
  | integer {h : IntHistogram} {numbers : List Int64} {low high : Int64}
    (least : low ∈ numbers ∧ ∀ n ∈ numbers, low ≤ n)
    (greatest : high ∈ numbers ∧ ∀ n ∈ numbers, n ≤ high)
    (spans : h.Spans buckets low high) (counts : h.Counts numbers) :
    Describes buckets (integer h) (numbers.map .integer)
  | text {h : TextHistogram} {texts : List String}
    (spans : h.keys.Spans buckets (Int64.ofNat (textKey "")) (Int64.ofNat lastKey))
    (counts : h.keys.Counts (texts.map clampedKey)) :
    Describes buckets (text h) (texts.map .text)

/-- The histogram has the range of some values and has counted others; a number outside the range
is counted at the nearest end. -/
inductive Records (buckets : Nat) : ColumnHistogram → List Value → List Value → Prop
  | integer {h : IntHistogram} {numbers counted : List Int64} {low high : Int64}
    (least : low ∈ numbers ∧ ∀ n ∈ numbers, low ≤ n)
    (greatest : high ∈ numbers ∧ ∀ n ∈ numbers, n ≤ high)
    (spans : h.Spans buckets low high) (counts : h.Counts (counted.map (clampTo low high))) :
    Records buckets (integer h) (numbers.map .integer) (counted.map .integer)
  | text {h : TextHistogram} {texts counted : List String}
    (spans : h.keys.Spans buckets (Int64.ofNat (textKey "")) (Int64.ofNat lastKey))
    (counts : h.keys.Counts (counted.map clampedKey)) :
    Records buckets (text h) (texts.map .text) (counted.map .text)

theorem Counts.records_integer {buckets : Nat} {h : IntHistogram} {numbers counted : List Int64}
    {low high : Int64} (counts : (integer h).Counts (counted.map .integer))
    (least : low ∈ numbers ∧ ∀ n ∈ numbers, low ≤ n)
    (greatest : high ∈ numbers ∧ ∀ n ∈ numbers, n ≤ high) (spans : h.Spans buckets low high) :
    (integer h).Records buckets (numbers.map .integer) (counted.map .integer) := by
  have hkeys : (counted.map Value.integer).filterMap (integer h).key?
      = counted.map (clampTo low high) := by
    rw [List.filterMap_map, ← List.filterMap_eq_map, ← spans.min_eq, ← spans.max_eq]
    rfl
  exact .integer least greatest spans (hkeys ▸ counts.counts)

theorem Counts.records_text {buckets : Nat} {h : TextHistogram} {counted : List String}
    (counts : (text h).Counts (counted.map .text))
    (spans : h.keys.Spans buckets (Int64.ofNat (textKey "")) (Int64.ofNat lastKey))
    (texts : List String) :
    (text h).Records buckets (texts.map .text) (counted.map .text) := by
  have hkeys : (counted.map Value.text).filterMap (text h).key? = counted.map clampedKey := by
    rw [List.filterMap_map, ← List.filterMap_eq_map]
    rfl
  exact .text spans (hkeys ▸ counts.counts)

/-- A histogram that has counted the values whose range it has is the histogram of these values:
numbers between the ends of the range are not moved. -/
theorem Records.describes {buckets : Nat} {counted : List Value}
    (records : h.Records buckets values counted) (same : counted = values) :
    h.Describes buckets values := by
  rcases records with ⟨least, greatest, spans, counts⟩ | ⟨spans, counts⟩
  · next h numbers counted low high =>
    have hsame : counted = numbers :=
      List.map_injective_iff.mpr (fun _ _ ↦ Value.integer.inj) same
    subst hsame
    have hclamp : counted.map (clampTo low high) = counted := by
      refine (List.map_congr_left fun n hn ↦ ?_).trans (List.map_id _)
      have covers : h.Covers n := by
        rw [IntHistogram.Covers, spans.min_eq, spans.max_eq]
        exact ⟨least.2 n hn, greatest.2 n hn⟩
      rw [← spans.min_eq, ← spans.max_eq]
      exact clampTo_of_covers covers
    exact .integer least greatest spans (hclamp ▸ counts)
  · have hsame := List.map_injective_iff.mpr (fun _ _ ↦ Value.text.inj) same
    subst hsame
    exact .text spans counts

theorem Describes.eq_of_perm {buckets : Nat} {h h' : ColumnHistogram} {values values' : List Value}
    (describes : h.Describes buckets values) (describes' : h'.Describes buckets values')
    (perm : values.Perm values') : h = h' := by
  have hinteger : Function.Injective Value.integer := fun _ _ ↦ Value.integer.inj
  have htext : Function.Injective Value.text := fun _ _ ↦ Value.text.inj
  rcases describes with ⟨least, greatest, spans, counts⟩ | ⟨spans, counts⟩
  · rcases describes' with ⟨least', greatest', spans', counts'⟩ | ⟨spans', counts'⟩
    · have hperm := (List.map_perm_map_iff hinteger).mp perm
      have hlow := Int64.le_antisymm (least.2 _ (hperm.mem_iff.mpr least'.1))
        (least'.2 _ (hperm.mem_iff.mp least.1))
      have hhigh := Int64.le_antisymm (greatest'.2 _ (hperm.mem_iff.mp greatest.1))
        (greatest.2 _ (hperm.mem_iff.mpr greatest'.1))
      subst hlow hhigh
      rw [counts.ext_of_perm counts' (spans.same spans') hperm]
    · -- A range of numbers has a number in it, which is no text.
      obtain ⟨s, -, hs⟩ := List.mem_map.mp (perm.mem_iff.mp (List.mem_map_of_mem least.1))
      cases hs
  · rcases describes' with ⟨least', greatest', spans', counts'⟩ | ⟨spans', counts'⟩
    · obtain ⟨s, -, hs⟩ := List.mem_map.mp (perm.mem_iff.mpr (List.mem_map_of_mem least'.1))
      cases hs
    · have hperm := (List.map_perm_map_iff htext).mp perm
      have hkeys := counts.ext_of_perm counts' (spans.same spans') (hperm.map clampedKey)
      exact congrArg (fun keys ↦ ColumnHistogram.text ⟨keys⟩) hkeys

end ColumnHistogram

end QueryEngine
