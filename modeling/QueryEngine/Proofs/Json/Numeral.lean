import QueryEngine.Json.Numeral

/-!
# Integers as numerals

The numeral of an integer is read back from its characters, wherever they end
(`read?_render_ofInt`), and it is that integer (`int64?_ofInt`). It has no zero before other digits,
and zero has no sign.
-/

namespace QueryEngine.Numeral

variable {n : Nat} {rest : List Char}

/-- The characters do not go on with what could belong to a numeral. -/
def Ends : List Char → Prop
  | [] => True
  | c :: _ => c.isDigit = false ∧ c ≠ '.' ∧ c ≠ 'e' ∧ c ≠ 'E'

/-! ## Digits -/

theorem isDigit_of_mem_toDigits {c : Char} (hc : c ∈ Nat.toDigits 10 n) : c.isDigit :=
  Nat.isDigit_of_mem_toDigits (by decide) (by decide) hc

theorem exists_toDigits_eq_cons (n : Nat) :
    ∃ d ds, Nat.toDigits 10 n = d :: ds ∧ (0 < n → d ≠ '0') := by
  induction n using Nat.strongRecOn with
  | _ n ih =>
    by_cases hlt : n < 10
    · refine ⟨n.digitChar, [], Nat.toDigits_of_lt_base hlt, fun pos hzero ↦ ?_⟩
      have hdigit := Nat.toNat_digitChar_of_lt_ten hlt
      rw [hzero] at hdigit
      have hchar : '0'.toNat = 48 := rfl
      omega
    · obtain ⟨d, ds, hds, hd⟩ := ih (n / 10) (by omega)
      refine ⟨d, ds ++ [Nat.digitChar (n % 10)], ?_, fun _ ↦ hd (by omega)⟩
      rw [Nat.toDigits_of_base_le (by decide) (Nat.le_of_not_lt hlt), hds, List.cons_append]

theorem digits_append {ds : List Char} (hds : ∀ c ∈ ds, c.isDigit) (ends : Ends rest) :
    digits (ds ++ rest) = (ds, rest) := by
  have hrest : rest.takeWhile Char.isDigit = [] ∧ rest.dropWhile Char.isDigit = rest := by
    cases rest with
    | nil => exact ⟨rfl, rfl⟩
    | cons c rest => simp [ends.1]
  rw [digits, List.takeWhile_append_of_pos hds, List.dropWhile_append_of_pos hds, hrest.1, hrest.2,
    List.append_nil]

/-! ## Parts -/

theorem wholePart_toDigits (n : Nat) (ends : Ends rest) :
    wholePart (Nat.toDigits 10 n ++ rest) = some (Nat.toDigits 10 n, rest) := by
  rw [wholePart, digits_append (fun _ ↦ isDigit_of_mem_toDigits) ends]
  rcases Nat.eq_zero_or_pos n with rfl | pos
  · rw [Nat.toDigits_zero]
    rfl
  · obtain ⟨d, ds, hds, hd⟩ := exists_toDigits_eq_cons n
    rw [hds]
    split
    · next h => cases h
    · next h =>
      cases h
      exact absurd rfl (hd pos)
    · next h => rw [h]

theorem fractionPart_of_ends (ends : Ends rest) : fractionPart rest = some ([], rest) := by
  cases rest with
  | nil => rfl
  | cons c rest =>
    rw [fractionPart]
    rintro _ h
    exact ends.2.1 (List.cons.inj h).1

theorem exponentPart_of_ends (ends : Ends rest) : exponentPart rest = some (none, rest) := by
  cases rest with
  | nil => rfl
  | cons c rest =>
    rw [exponentPart]
    · rintro _ h
      exact ends.2.2.1 (List.cons.inj h).1
    · rintro _ h
      exact ends.2.2.2 (List.cons.inj h).1

/-! ## Integers -/

theorem render_ofInt (i : Int) :
    (ofInt i).render = (if i < 0 then ['-'] else []) ++ Nat.toDigits 10 i.natAbs := by
  simp [render, ofInt]

theorem exists_render_ofInt_eq_cons (i : Int) :
    ∃ c cs, (ofInt i).render = c :: cs ∧ (c = '-' ∨ c.isDigit) := by
  obtain ⟨d, ds, hds, -⟩ := exists_toDigits_eq_cons i.natAbs
  have hd : d.isDigit := isDigit_of_mem_toDigits (n := i.natAbs) (hds ▸ List.mem_cons_self)
  rw [render_ofInt, hds]
  split
  · exact ⟨'-', d :: ds, rfl, .inl rfl⟩
  · exact ⟨d, ds, rfl, .inr hd⟩

theorem sign_render_ofInt (i : Int) (rest : List Char) :
    sign ((ofInt i).render ++ rest) = (decide (i < 0), Nat.toDigits 10 i.natAbs ++ rest) := by
  rw [render_ofInt]
  by_cases negative : i < 0
  · rw [if_pos negative, decide_eq_true negative]
    rfl
  · obtain ⟨d, ds, hds, -⟩ := exists_toDigits_eq_cons i.natAbs
    have hd : d.isDigit := isDigit_of_mem_toDigits (n := i.natAbs) (hds ▸ List.mem_cons_self)
    rw [if_neg negative, decide_eq_false negative, List.nil_append, hds, List.cons_append, sign]
    rintro _ h
    rw [(List.cons.inj h).1] at hd
    cases hd

/-- An integer is read back up to where its characters end. -/
theorem read?_render_ofInt (i : Int) (ends : Ends rest) :
    read? ((ofInt i).render ++ rest) = some (ofInt i, rest) := by
  simp only [read?, sign_render_ofInt, wholePart_toDigits _ ends, fractionPart_of_ends ends,
    exponentPart_of_ends ends]
  rfl

theorem int?_ofInt (i : Int) : (ofInt i).int? = some i := by
  have hmagnitude : (ofInt i).magnitude = i.natAbs := Nat.ofDigitChars_ten_toDigits
  have hplain : ¬((ofInt i).fraction ≠ [] ∨ (ofInt i).exponent.isSome) := by simp [ofInt]
  have hnegative : (ofInt i).negative = decide (i < 0) := rfl
  rw [int?, if_neg hplain, hnegative, hmagnitude]
  by_cases negative : i < 0
  · rw [if_pos (decide_eq_true negative), if_neg (by omega)]
    exact congrArg some (by omega)
  · rw [if_neg (by simpa using negative)]
    exact congrArg some (by omega)

theorem int64?_ofInt (m : Int64) : (ofInt m.toInt).int64? = some m := by
  rw [int64?, int?_ofInt]
  exact int64?_toInt m

end QueryEngine.Numeral
