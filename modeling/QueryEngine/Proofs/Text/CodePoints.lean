import Mathlib.Tactic.SplitIfs
import QueryEngine.Proofs.Histogram.Keys

/-!
# The order of code points

Texts are ordered by their bytes. That is the dictionary order of their code points: of two texts
that differ, the one with the smaller code point in the first place where they differ comes first.

## Four bytes at a time

A character has one byte or up to four, and other characters follow it. Read as a number in base
256, the first four bytes from a character on begin with those of the character. `encodedNumber`
is that number with zeros for all other bytes, and `followers` bounds what the other bytes add to
it. The encoding is made so that a greater code point begins beyond that
(`encodedNumber_add_followers_le`), and then nothing that follows can make up for it.
-/

namespace QueryEngine.Text

def codePoints (s : String) : List Nat :=
  s.toList.map Char.toNat

theorem toNat_lt (c : Char) : c.toNat < 0x110000 := by
  rcases c.valid with hlt | hbetween
  · exact Nat.lt_trans hlt (by decide)
  · exact hbetween.2

/-! ## The encoding as a number -/

/-- The number that the bytes of a code point write, as the first ones of four. -/
def encodedNumber (n : Nat) : Nat :=
  if n ≤ 0x7f then n * 256 ^ 3
  else if n ≤ 0x7ff then (n / 64 + 0xc0) * 256 ^ 3 + (n % 64 + 0x80) * 256 ^ 2
  else if n ≤ 0xffff then
    (n / 4096 + 0xe0) * 256 ^ 3 + (n / 64 % 64 + 0x80) * 256 ^ 2 + (n % 64 + 0x80) * 256
  else
    (n / 262144 + 0xf0) * 256 ^ 3 + (n / 4096 % 64 + 0x80) * 256 ^ 2
      + (n / 64 % 64 + 0x80) * 256 + (n % 64 + 0x80)

/-- The number of ways to go on after the bytes of a code point, up to four bytes. -/
def followers (n : Nat) : Nat :=
  if n ≤ 0x7f then 256 ^ 3 else if n ≤ 0x7ff then 256 ^ 2 else if n ≤ 0xffff then 256 else 1

/-- The next code point is encoded beyond everything that can follow this one. -/
theorem encodedNumber_add_followers_le {n m : Nat} (hlt : n < m) :
    encodedNumber n + followers n ≤ encodedNumber m := by
  have hle := Nat.le_of_lt hlt
  have hsix : n / 64 ≤ m / 64 := Nat.div_le_div_right hle
  have htwelve : n / 4096 ≤ m / 4096 := Nat.div_le_div_right hle
  have heighteen : n / 262144 ≤ m / 262144 := Nat.div_le_div_right hle
  unfold encodedNumber followers
  split_ifs <;> omega

theorem leadingNumber_encode_append (c : Char) (rest : List UInt8) :
    encodedNumber c.toNat ≤ leadingNumber 4 (String.utf8EncodeChar c ++ rest)
      ∧ leadingNumber 4 (String.utf8EncodeChar c ++ rest)
        < encodedNumber c.toNat + followers c.toNat := by
  have hc := toNat_lt c
  have hthree := leadingNumber_lt 3 rest
  have htwo := leadingNumber_lt 2 rest
  have hone := leadingNumber_lt 1 rest
  unfold Char.toNat at hc ⊢
  unfold String.utf8EncodeChar encodedNumber followers
  generalize c.val.toNat = n at *
  dsimp only
  split_ifs <;>
    simp only [List.cons_append, List.nil_append, leadingNumber_cons, leadingNumber_zero,
      UInt8.toNat_ofNat'] <;>
    omega

/-- The smaller of two code points decides, whatever comes after them. -/
theorem compare_encode_append {c d : Char} (hlt : c.toNat < d.toNat) (rest rest' : List UInt8) :
    compare (String.utf8EncodeChar c ++ rest) (String.utf8EncodeChar d ++ rest') = .lt := by
  apply compare_of_leadingNumber_lt (n := 4)
  have hc := (leadingNumber_encode_append c rest).2
  have hd := (leadingNumber_encode_append d rest').1
  have hbeyond := encodedNumber_add_followers_le hlt
  omega

/-! ## Texts -/

theorem compare_append_append (first : List UInt8) (rest rest' : List UInt8) :
    compare (first ++ rest) (first ++ rest') = compare rest rest' := by
  induction first with
  | nil => rfl
  | cons b first ih =>
    rw [List.cons_append, List.cons_append, List.compare_cons_cons, Std.compare_eq_iff_eq.mpr rfl]
    exact ih

theorem compare_encode (cs ds : List Char) :
    compare (cs.flatMap String.utf8EncodeChar) (ds.flatMap String.utf8EncodeChar)
      = compare (cs.map Char.toNat) (ds.map Char.toNat) := by
  induction cs generalizing ds with
  | nil =>
    cases ds with
    | nil => rfl
    | cons d ds =>
      obtain ⟨b, bs, hb⟩ := List.exists_cons_of_ne_nil (String.utf8EncodeChar_ne_nil (c := d))
      rw [List.flatMap_cons, hb]
      exact List.compare_nil_cons.trans List.compare_nil_cons.symm
  | cons c cs ih =>
    cases ds with
    | nil =>
      obtain ⟨b, bs, hb⟩ := List.exists_cons_of_ne_nil (String.utf8EncodeChar_ne_nil (c := c))
      rw [List.flatMap_cons, hb]
      exact List.compare_cons_nil.trans List.compare_cons_nil.symm
    | cons d ds =>
      rw [List.flatMap_cons, List.flatMap_cons, List.map_cons, List.map_cons,
        List.compare_cons_cons]
      rcases Nat.lt_trichotomy c.toNat d.toNat with hlt | heq | hgt
      · rw [compare_encode_append hlt, Nat.compare_eq_lt.mpr hlt]
        rfl
      · obtain rfl := Char.toNat_inj.mp heq
        rw [compare_append_append, ih, Nat.compare_eq_eq.mpr rfl]
        rfl
      · rw [Std.OrientedOrd.eq_swap, compare_encode_append hgt, Nat.compare_eq_gt.mpr hgt]
        rfl

theorem compare_numbers_eq_lt_iff {l l' : List Nat} : compare l l' = .lt ↔ l < l' := by
  induction l generalizing l' with
  | nil => cases l' <;> simp
  | cons n l ih =>
    cases l' with
    | nil => simp
    | cons m l' =>
      rw [List.compare_cons_cons, Ordering.then_eq_lt, Nat.compare_eq_lt, Nat.compare_eq_eq, ih,
        List.cons_lt_cons_iff]

/-- The byte order of texts is the dictionary order of their code points. -/
theorem compareBytes_eq_lt_iff {a b : String} :
    compareBytes a b = .lt ↔ codePoints a < codePoints b := by
  have hcompare : compareBytes a b = compare (codePoints a) (codePoints b) :=
    compare_encode a.toList b.toList
  rw [hcompare, compare_numbers_eq_lt_iff]

end QueryEngine.Text
