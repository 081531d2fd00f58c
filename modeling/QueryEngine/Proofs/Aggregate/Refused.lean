import QueryEngine.Proofs.Aggregate.Summary
import QueryEngine.Proofs.InPlace

/-!
# Refused rows

A grouping that refuses a row answers with an error and no grouping, so whoever holds it goes on
with the one from before. This rests on the order of the writes. Here a row is merged in place, one
write after the other, and a failure keeps what was written before it: the sum behind a mean and its
count are two writes, and so are the fields of an accumulator and the list of the groups. Every
check comes before the first write, so a failure finds the grouping as it was
(`mergeInPlace_outcome`).

## Which rows are refused

A field is missing, a field has the wrong type, or a sum leaves its range. The values reach the
accumulators only after their type was compared with that of the column, and the column was
compared with the function when the grouping was made; so no accumulator is ever asked for the sum
of texts (`Uniform.kind_of_merge`).
-/

namespace QueryEngine

/-! ## Merging in place -/

/-- Takes one more value, write by write. -/
def Accumulator.addInPlace (v : Value) : InPlace Accumulator Unit := do
  match ← get, v with
  | count n, _ => set (count (n + 1))
  | min n, .integer v => set (min (Min.min n v))
  | max n, .integer v => set (max (Max.max n v))
  | sum n, .integer v =>
    match int64? (n.toInt + v.toInt) with
    | some total => set (sum total)
    | none => throw .numericOverflow
  | avg total n, .integer v =>
    match int128? (total + v.toInt) with
    | some total' =>
      set (avg total' n)
      set (avg total' (n + 1))
    | none => throw .numericOverflow
  | _, .text _ => throw .textValue

/-- Work on the accumulator of a group, if there is such a group. -/
def Groups.onGroup? (key : Option Value) (work : InPlace Accumulator Unit) :
    Groups → Option (Except QueryError Unit × Groups)
  | [] => none
  | (k, a) :: rest =>
    if k = key then
      let (answer, a') := work.outcome a
      some (answer, (k, a') :: rest)
    else (onGroup? key work rest).map fun (answer, rest') ↦ (answer, (k, a) :: rest')

namespace Grouping

/-- A value joins its group, write by write. A known group is changed where it stands, and a new one
is put behind the others. -/
def joinInPlace (key : Option Value) (v : Value) : InPlace Grouping Unit := do
  let g ← get
  match g.groups.onGroup? key (Accumulator.addInPlace v) with
  | some (answer, groups) =>
    set { g with groups }
    answer
  | none =>
    let a ← Accumulator.start g.function v
    set { g with groups := g.groups ++ [(key, a)] }

/-- Takes one more row, write by write. The row is read before anything is written. -/
def mergeInPlace (r : Row) : InPlace Grouping Unit := do
  let g ← get
  let key ← g.key r
  let v ← typedField r g.field g.type
  joinInPlace key v

end Grouping

theorem Accumulator.addInPlace_outcome (a : Accumulator) (v : Value) :
    (addInPlace v).outcome a = InPlace.allOrNothing (a.add v) a := by
  rcases v with m | s
  · cases a with
    | min n => rfl
    | max n => rfl
    | count n => rfl
    | sum n =>
      have hrun : (addInPlace (.integer m)).outcome (sum n)
          = (match int64? (n.toInt + m.toInt) with
            | some total => set (sum total)
            | none => throw QueryError.numericOverflow : InPlace Accumulator Unit).outcome
              (sum n) := rfl
      rw [hrun, add]
      cases int64? (n.toInt + m.toInt) <;> rfl
    | avg total n =>
      have hrun : (addInPlace (.integer m)).outcome (avg total n)
          = (match int128? (total + m.toInt) with
            | some total' => do
              set (avg total' n)
              set (avg total' (n + 1))
            | none => throw QueryError.numericOverflow : InPlace Accumulator Unit).outcome
              (avg total n) := rfl
      rw [hrun, add]
      cases int128? (total + m.toInt) <;> rfl
  · cases a <;> rfl

namespace Groups

variable {f : AggregateFunction} {key : Option Value} {v : Value} {groups : Groups}

theorem onGroup?_of_mem (h : key ∈ groups.map Prod.fst) :
    groups.onGroup? key (Accumulator.addInPlace v)
      = some (InPlace.allOrNothing (groups.absorb f key v) groups) := by
  induction groups with
  | nil => exact absurd h List.not_mem_nil
  | cons p rest ih =>
    obtain ⟨k, a⟩ := p
    rw [onGroup?, absorb]
    by_cases hk : k = key
    · rw [if_pos hk, if_pos hk, Accumulator.addInPlace_outcome]
      cases a.add v <;> rfl
    · rw [if_neg hk, if_neg hk, ih ((List.mem_cons.mp h).resolve_left (Ne.symm hk))]
      cases absorb f key v rest <;> rfl

theorem onGroup?_of_not_mem (h : key ∉ groups.map Prod.fst) :
    groups.onGroup? key (Accumulator.addInPlace v) = none
      ∧ groups.absorb f key v
        = (Accumulator.start f v).map fun a ↦ groups ++ [(key, a)] := by
  induction groups with
  | nil => exact ⟨rfl, rfl⟩
  | cons p rest ih =>
    obtain ⟨k, a⟩ := p
    rw [List.map_cons, List.mem_cons, not_or] at h
    obtain ⟨hnone, habsorb⟩ := ih h.2
    rw [onGroup?, absorb, if_neg (Ne.symm h.1), if_neg (Ne.symm h.1), hnone, habsorb]
    exact ⟨rfl, by cases Accumulator.start f v <;> rfl⟩

end Groups

namespace Grouping

theorem joinInPlace_outcome (g : Grouping) (key : Option Value) (v : Value) :
    (joinInPlace key v).outcome g
      = InPlace.allOrNothing
          ((g.groups.absorb g.function key v).map fun groups ↦ { g with groups }) g := by
  have hrun : (joinInPlace key v).outcome g
      = (match g.groups.onGroup? key (Accumulator.addInPlace v) with
        | some (answer, groups) => do
          set { g with groups }
          answer
        | none => do
          let a ← Accumulator.start g.function v
          set { g with groups := g.groups ++ [(key, a)] } : InPlace Grouping Unit).outcome g := rfl
  rw [hrun]
  by_cases hkey : key ∈ g.groups.map Prod.fst
  · rw [Groups.onGroup?_of_mem hkey (f := g.function)]
    cases g.groups.absorb g.function key v <;> rfl
  · obtain ⟨hnone, habsorb⟩ := Groups.onGroup?_of_not_mem hkey (f := g.function) (v := v)
    rw [hnone, habsorb]
    cases Accumulator.start g.function v <;> rfl

theorem mergeInPlace_outcome (g : Grouping) (r : Row) :
    (mergeInPlace r).outcome g = InPlace.allOrNothing (g.merge r) g := by
  have hrun : (mergeInPlace r).outcome g = (do
      let key ← g.key r
      let v ← typedField r g.field g.type
      joinInPlace key v : InPlace Grouping Unit).outcome g := rfl
  rw [hrun, merge]
  cases g.key r with
  | error e => rfl
  | ok key =>
    cases typedField r g.field g.type with
    | error e => rfl
    | ok v => exact joinInPlace_outcome g key v

end Grouping

/-! ## Why a row is refused -/

namespace Accumulator

theorem function_start {f : AggregateFunction} {v : Value} {a : Accumulator}
    (h : start f v = .ok a) : a.function = f := by
  cases f <;> cases v <;> cases h <;> rfl

theorem function_add {v : Value} {a a' : Accumulator} (h : a.add v = .ok a') :
    a'.function = a.function := by
  rcases v with n | s
  · cases a with
    | min m => cases h; rfl
    | max m => cases h; rfl
    | count m => cases h; rfl
    | sum m =>
      rw [add] at h
      split at h <;> cases h
      rfl
    | avg total m =>
      rw [add] at h
      split at h <;> cases h
      rfl
  · cases a <;> cases h
    rfl

/-- A value that the function takes is refused only for want of room. -/
theorem add_eq_error {a : Accumulator} {v : Value} {e : QueryError} (takes : a.function.Takes v)
    (h : a.add v = .error e) : e = .numericOverflow := by
  cases a with
  | count m => cases v <;> cases h
  | min m =>
    obtain ⟨n, rfl⟩ := takes.eq_integer (by rintro ⟨⟩)
    cases h
  | max m =>
    obtain ⟨n, rfl⟩ := takes.eq_integer (by rintro ⟨⟩)
    cases h
  | sum m =>
    obtain ⟨n, rfl⟩ := takes.eq_integer (by rintro ⟨⟩)
    rw [add] at h
    split at h <;> cases h
    rfl
  | avg total m =>
    obtain ⟨n, rfl⟩ := takes.eq_integer (by rintro ⟨⟩)
    rw [add] at h
    split at h <;> cases h
    rfl

end Accumulator

namespace Groups

variable {f : AggregateFunction} {key : Option Value} {v : Value} {groups groups' : Groups}

def Alike (f : AggregateFunction) (groups : Groups) : Prop :=
  ∀ p ∈ groups, p.2.function = f

theorem Alike.absorb (alike : groups.Alike f) (h : groups.absorb f key v = .ok groups') :
    groups'.Alike f := by
  induction groups generalizing groups' with
  | nil =>
    rw [Groups.absorb] at h
    obtain ⟨a, hstart, rfl⟩ := exists_of_map_eq_ok h
    exact List.forall_mem_singleton.mpr (Accumulator.function_start hstart)
  | cons p rest ih =>
    obtain ⟨k, a⟩ := p
    obtain ⟨ha, hrest⟩ := List.forall_mem_cons.mp alike
    rw [Groups.absorb] at h
    split at h
    · obtain ⟨a', hadd, rfl⟩ := exists_of_map_eq_ok h
      exact List.forall_mem_cons.mpr ⟨(Accumulator.function_add hadd).trans ha, hrest⟩
    · obtain ⟨rest', habsorb, rfl⟩ := exists_of_map_eq_ok h
      exact List.forall_mem_cons.mpr ⟨ha, ih hrest habsorb⟩

theorem Alike.absorb_eq_error (alike : groups.Alike f) (takes : f.Takes v) {e : QueryError}
    (h : groups.absorb f key v = .error e) : e = .numericOverflow := by
  induction groups with
  | nil =>
    rw [Groups.absorb, Accumulator.start_eq takes] at h
    cases h
  | cons p rest ih =>
    obtain ⟨k, a⟩ := p
    obtain ⟨ha, hrest⟩ := List.forall_mem_cons.mp alike
    rw [Groups.absorb] at h
    split at h
    · exact Accumulator.add_eq_error (ha.symm ▸ takes) (of_map_eq_error h)
    · exact ih hrest (of_map_eq_error h)

end Groups

namespace Grouping

variable {a : Aggregation} {input : Schema} {g g' g₀ : Grouping} {r : Row}

/-- Every accumulator computes the function of the grouping, and this takes the values of the
column. -/
structure Uniform (g : Grouping) : Prop where
  takes : g.function = .count ∨ g.type = .integer
  alike : g.groups.Alike g.function

theorem uniform_of_ofSchema (h : ofSchema input a = .ok g) : g.Uniform := by
  obtain ⟨serves, hgroups⟩ := serves_of_ofSchema h
  refine ⟨serves.function_eq ▸ serves.takes, ?_⟩
  rw [hgroups]
  exact List.forall_mem_nil _

theorem Uniform.clear (uniform : g.Uniform) : g.clear.Uniform :=
  ⟨uniform.takes, List.forall_mem_nil _⟩

theorem typedField_eq_error {i : Nat} {type : ColumnType} {e : QueryError}
    (h : typedField r i type = .error e) :
    e = .columnOutOfRange i r.width ∨ ∃ found, e = .typeMismatch type found := by
  rw [typedField, Row.get] at h
  cases hv : r.values[i]? with
  | none =>
    rw [hv] at h
    cases h
    exact Or.inl rfl
  | some v =>
    simp only [hv, Value.expect] at h
    split at h <;> cases h
    exact Or.inr ⟨v.type, rfl⟩

theorem type_of_typedField {i : Nat} {type : ColumnType} {v : Value}
    (h : typedField r i type = .ok v) : v.type = type := by
  rw [typedField] at h
  split at h
  · cases h
  · obtain ⟨_, hexpect, rfl⟩ := exists_of_map_eq_ok h
    exact Value.expect_eq_ok_iff.mp hexpect

theorem merge_eq_ok (h : g.merge r = .ok g') :
    ∃ key v groups, g.groups.absorb g.function key v = .ok groups ∧ g' = { g with groups } := by
  rw [merge] at h
  split at h
  · cases h
  · next key _ =>
    split at h
    · cases h
    · next v _ =>
      obtain ⟨groups, habsorb, rfl⟩ := exists_of_map_eq_ok h
      exact ⟨key, v, groups, habsorb, rfl⟩

/-- A row is refused for one of its fields, or by the accumulator of its group. -/
theorem merge_eq_error {e : QueryError} (h : g.merge r = .error e) :
    (∃ i type, typedField r i type = .error e)
      ∨ ∃ key v, v.type = g.type ∧ g.groups.absorb g.function key v = .error e := by
  rw [merge] at h
  split at h
  · next hkey =>
    cases h
    rw [key] at hkey
    split at hkey
    · cases hkey
    · next i type _ => exact Or.inl ⟨i, type, of_map_eq_error hkey⟩
  · next key _ =>
    split at h
    · next hfield =>
      cases h
      exact Or.inl ⟨_, _, hfield⟩
    · next v hfield => exact Or.inr ⟨key, v, type_of_typedField hfield, of_map_eq_error h⟩

theorem Uniform.merge (uniform : g.Uniform) (h : g.merge r = .ok g') : g'.Uniform := by
  obtain ⟨key, v, groups, habsorb, rfl⟩ := merge_eq_ok h
  exact ⟨uniform.takes, uniform.alike.absorb habsorb⟩

theorem Uniform.kind_of_merge (uniform : g.Uniform) {e : QueryError} (h : g.merge r = .error e) :
    e.kind ∈ [.columnOutOfRange, .typeMismatch, .numericOverflow] := by
  rcases merge_eq_error h with ⟨i, type, hfield⟩ | ⟨key, v, htype, habsorb⟩
  · rcases typedField_eq_error hfield with rfl | ⟨found, rfl⟩
    · exact List.mem_cons_self
    · exact List.mem_cons_of_mem _ List.mem_cons_self
  · have takes : g.function.Takes v := uniform.takes.imp_right htype.trans
    rw [uniform.alike.absorb_eq_error takes habsorb]
    decide

/-! ## Calls -/

/-- What can be asked of a grouping. -/
inductive Call where
  | merge (r : Row)
  | clear
deriving DecidableEq

def call (g : Grouping) : Call → Except QueryError Unit × Grouping
  | .merge r => (mergeInPlace r).outcome g
  | .clear => (.ok (), g.clear)

/-- Serves calls one after the other, and goes on after a refused one. -/
def run (g : Grouping) : List Call → List (Except QueryError Unit) × Grouping
  | [] => ([], g)
  | c :: rest =>
    let (answer, g') := g.call c
    let (answers, last) := g'.run rest
    (answer :: answers, last)

/-- The rows taken since the groups were last dropped, after those taken before. -/
def standing (g : Grouping) (before : List Row) : List Call → List Row
  | [] => before
  | .clear :: rest => g.clear.standing [] rest
  | .merge r :: rest =>
    match (mergeInPlace r).outcome g with
    | (.ok (), g') => g'.standing (before ++ [r]) rest
    | (.error _, g') => g'.standing before rest

theorem feed_concat {rows : List Row} (hfeed : g₀.feed rows = (rows.map fun _ ↦ .ok (), g))
    (hmerge : g.merge r = .ok g') :
    g₀.feed (rows ++ [r]) = ((rows ++ [r]).map fun _ ↦ .ok (), g') := by
  induction rows generalizing g₀ with
  | nil =>
    cases hfeed
    rw [List.nil_append, feed, hmerge]
    rfl
  | cons r' rest ih =>
    rw [feed] at hfeed
    rw [List.cons_append, feed]
    cases hfirst : g₀.merge r' with
    | error e =>
      rw [hfirst] at hfeed
      cases hfeed
    | ok g₁ =>
      rw [hfirst] at hfeed
      have hrest : g₁.feed rest = (rest.map fun _ ↦ .ok (), g) := by
        simpa [Prod.ext_iff] using hfeed
      dsimp only
      rw [ih hrest]
      rfl

/-- After any calls the grouping is the new one that was given the rows still standing. -/
theorem feed_standing {before : List Row} (calls : List Call) (hclear : g.clear = g₀)
    (hfeed : g₀.feed before = (before.map fun _ ↦ .ok (), g)) :
    g₀.feed (g.standing before calls)
      = ((g.standing before calls).map fun _ ↦ .ok (), (g.run calls).2) := by
  induction calls generalizing g before with
  | nil => exact hfeed
  | cons c rest ih =>
    cases c with
    | clear =>
      have hempty : g₀.feed [] = (([] : List Row).map fun _ ↦ .ok (), g.clear) := hclear ▸ rfl
      exact ih hclear hempty
    | merge r =>
      rw [standing, run, call, mergeInPlace_outcome]
      cases hmerge : g.merge r with
      | error e => exact ih hclear hfeed
      | ok g' =>
        have hclear' : g'.clear = g₀ := by
          obtain ⟨key, v, groups, -, rfl⟩ := merge_eq_ok hmerge
          exact hclear
        exact ih hclear' (feed_concat hfeed hmerge)

theorem Uniform.run (uniform : g.Uniform) (calls : List Call) : (g.run calls).2.Uniform := by
  induction calls generalizing g with
  | nil => exact uniform
  | cons c rest ih =>
    cases c with
    | clear => exact ih uniform.clear
    | merge r =>
      rw [Grouping.run, call, mergeInPlace_outcome]
      cases hmerge : g.merge r with
      | error e => exact ih uniform
      | ok g' => exact ih (uniform.merge hmerge)

/-- **A refused row leaves no trace.** In every state that a new grouping comes to by merging rows
in place and by dropping its groups, a row that is refused leaves the grouping as it was: the
groups, their order and their accumulators. It is refused for a missing field, a field of the wrong
type or a sum out of range, and for nothing else. So the grouping is at any time the new one that
was given, since the groups were last dropped, only the rows that were taken, in their order; it
takes all of them again, and its results and the number of its groups are the same. -/
theorem refused_leaves_no_trace (hg : ofSchema input a = .ok g₀) (calls : List Call) :
    (∀ r e, ((mergeInPlace r).outcome (g₀.run calls).2).1 = .error e →
      ((mergeInPlace r).outcome (g₀.run calls).2).2 = (g₀.run calls).2
        ∧ e.kind ∈ [.columnOutOfRange, .typeMismatch, .numericOverflow])
      ∧ g₀.feed (g₀.standing [] calls)
        = ((g₀.standing [] calls).map fun _ ↦ .ok (), (g₀.run calls).2) := by
  obtain ⟨-, hgroups⟩ := serves_of_ofSchema hg
  have hclear : g₀.clear = g₀ := by rw [clear, ← hgroups]
  refine ⟨fun r e h ↦ ?_, feed_standing calls hclear rfl⟩
  rw [mergeInPlace_outcome] at h ⊢
  cases hmerge : (g₀.run calls).2.merge r with
  | ok g' =>
    rw [hmerge] at h
    cases h
  | error e' =>
    rw [hmerge] at h
    cases h
    exact ⟨rfl, ((uniform_of_ofSchema hg).run calls).kind_of_merge hmerge⟩

/-- Sums by name, where rows are refused before and after the groups are dropped. -/
def sumsWithRefusals : List Call :=
  [.merge (.ofValues [.text "a", .integer 5]), .clear,
    .merge (.ofValues [.text "a", .integer Int64.maxValue]),
    .merge (.ofValues [.text "a", .integer 1]), .merge (.ofValues [.text "b", .text "c"]),
    .merge (.ofValues [.text "c"]), .merge (.ofValues [.integer 4, .integer 4]),
    .merge (.ofValues [.text "a", .integer (-1)])]

theorem refused_leaves_no_trace_sums :
    ∃ g₀, ofSchema ⟨[⟨"k", .text⟩, ⟨"n", .integer⟩]⟩ ⟨.sum, 1, some 0⟩ = .ok g₀
      ∧ (g₀.run sumsWithRefusals).1
        = [.ok (), .ok (), .ok (), .error .numericOverflow, .error (.typeMismatch .integer .text),
          .error (.columnOutOfRange 1 1), .error (.typeMismatch .text .integer), .ok ()]
      ∧ g₀.feed [.ofValues [.text "a", .integer Int64.maxValue],
          .ofValues [.text "a", .integer (-1)]]
        = ([.ok (), .ok ()], (g₀.run sumsWithRefusals).2) := by
  have hg : ofSchema ⟨[⟨"k", .text⟩, ⟨"n", .integer⟩]⟩ ⟨.sum, 1, some 0⟩
      = .ok ⟨.sum, 1, .integer, some (0, .text), []⟩ := rfl
  have hlast := (refused_leaves_no_trace hg sumsWithRefusals).2
  have hstanding : standing ⟨.sum, 1, .integer, some (0, .text), []⟩ [] sumsWithRefusals
      = [.ofValues [.text "a", .integer Int64.maxValue], .ofValues [.text "a", .integer (-1)]] := by
    decide
  rw [hstanding] at hlast
  exact ⟨_, hg, by decide, hlast⟩

end Grouping

end QueryEngine
