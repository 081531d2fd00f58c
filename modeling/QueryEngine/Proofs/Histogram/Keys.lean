import QueryEngine.Proofs.Histogram.Buckets
import QueryEngine.Proofs.Text.Order

/-!
# The order of keys

The key of a text is a number made of its first bytes. Texts with different keys are in the order of
their keys, whatever follows those bytes, and whether the keys are cut off at the last one or not.
Texts with one key can be in any order.

Every key is in the range of a histogram of texts, which therefore refuses no text.
-/

namespace QueryEngine

@[simp] theorem leadingNumber_zero (bytes : List UInt8) : leadingNumber 0 bytes = 0 :=
  rfl

@[simp] theorem leadingNumber_nil (n : Nat) : leadingNumber n [] = 0 := by
  cases n <;> rfl

theorem leadingNumber_cons (n : Nat) (b : UInt8) (rest : List UInt8) :
    leadingNumber (n + 1) (b :: rest) = b.toNat * 256 ^ n + leadingNumber n rest :=
  rfl

theorem leadingNumber_lt (n : Nat) (bytes : List UInt8) : leadingNumber n bytes < 256 ^ n := by
  induction n generalizing bytes with
  | zero => exact Nat.one_pos
  | succ n ih =>
    match bytes with
    | [] => exact Nat.pow_pos (by decide)
    | b :: rest =>
      have hrest := ih rest
      have hb : b.toNat * 256 ^ n ≤ 255 * 256 ^ n :=
        Nat.mul_le_mul_right _ (Nat.le_of_lt_succ b.toNat_lt)
      rw [leadingNumber_cons, Nat.pow_succ]
      omega

theorem compare_of_leadingNumber_lt {n : Nat} {l l' : List UInt8}
    (h : leadingNumber n l < leadingNumber n l') : compare l l' = .lt := by
  induction n generalizing l l' with
  | zero => exact absurd h (Nat.lt_irrefl 0)
  | succ n ih =>
    match l, l' with
    | _, [] => exact absurd h (Nat.not_lt_zero _)
    | [], b :: rest => exact List.compare_nil_cons
    | b :: rest, b' :: rest' =>
      rw [leadingNumber_cons, leadingNumber_cons] at h
      rw [List.compare_cons_cons]
      rcases Nat.lt_trichotomy b.toNat b'.toNat with hlt | heq | hgt
      · rw [Std.compare_eq_lt.mpr (UInt8.lt_iff_toNat_lt.mpr hlt)]
        rfl
      · obtain rfl := UInt8.toNat_inj.mp heq
        rw [Std.compare_eq_iff_eq.mpr rfl]
        exact ih (Nat.lt_of_add_lt_add_left h)
      · -- What follows the first byte cannot make up for it.
        have hrest := leadingNumber_lt n rest'
        have hle : (b'.toNat + 1) * 256 ^ n ≤ b.toNat * 256 ^ n := Nat.mul_le_mul_right _ hgt
        rw [Nat.succ_mul] at hle
        omega

theorem toInt_clampedKey (s : String) : (clampedKey s).toInt = min (textKey s) lastKey := by
  have hlt := lastKey_lt
  have hle : Nat.min (textKey s) lastKey ≤ lastKey := Nat.min_le_right _ _
  rw [clampedKey, Int64.toInt_ofNat_of_lt (by omega)]

theorem compareBytes_of_clampedKey_lt {s t : String} (h : clampedKey s < clampedKey t) :
    Text.compareBytes s t = .lt := by
  rw [Int64.lt_iff_toInt_lt, toInt_clampedKey, toInt_clampedKey] at h
  have hkeys : textKey s < textKey t := by omega
  exact compare_of_leadingNumber_lt hkeys

theorem clampedKey_mono {s t : String} (h : Text.compareBytes s t ≠ .gt) :
    clampedKey s ≤ clampedKey t := by
  by_contra hgt
  have hlt := compareBytes_of_clampedKey_lt (Int64.not_le.mp hgt)
  rw [← Text.swap_compareBytes, hlt] at h
  exact h rfl

/-! ## Keys in a histogram -/

namespace TextHistogram

variable {h : TextHistogram} {buckets : Nat}

theorem ofBuckets_eq_ok (pos : 0 < buckets) : ∃ h, ofBuckets buckets = .ok h := by
  obtain ⟨keys, hkeys, -⟩ := IntHistogram.ofRange_eq_ok pos
    (show Int64.ofNat (textKey "") ≤ Int64.ofNat lastKey by decide)
  exact ⟨⟨keys⟩, congrArg (Except.map mk) hkeys⟩

/-- Whatever a histogram of texts is fed, it has counted the keys of all texts, and it has a bucket
for the key of any text. -/
theorem summarizes_feed (hnew : ofBuckets buckets = .ok h) (texts : List String) :
    (h.feed texts).2.keys.Summarizes (texts.map clampedKey)
      ∧ ∀ s, (h.feed texts).2.keys.Covers (clampedKey s) := by
  have hkeys : IntHistogram.ofRange buckets (Int64.ofNat (textKey "")) (Int64.ofNat lastKey)
      = .ok h.keys := by
    rw [ofBuckets] at hnew
    match hrange : IntHistogram.ofRange buckets (Int64.ofNat (textKey "")) (Int64.ofNat lastKey) with
    | .ok keys =>
      rw [hrange] at hnew
      exact Except.ok.inj hnew ▸ rfl
    | .error e =>
      rw [hrange] at hnew
      cases hnew
  have spans := (IntHistogram.spans_of_ofRange hkeys).2.2.1
  have hcovers : ∀ s, h.keys.Covers (clampedKey s) := by
    intro s
    rw [IntHistogram.Covers, spans.min_eq, spans.max_eq]
    exact clampedKey_bounds s
  have hall : ∀ k ∈ texts.map clampedKey, h.keys.Covers k := by
    intro k hk
    obtain ⟨s, -, rfl⟩ := List.mem_map.mp hk
    exact hcovers s
  constructor
  · have summarizes := IntHistogram.summarizes_feed hkeys (texts.map clampedKey)
    rwa [IntHistogram.accepted_eq_self hall] at summarizes
  · exact fun s ↦ (IntHistogram.same_feed h.keys _).covers_iff.mpr (hcovers s)

end TextHistogram

end QueryEngine
