import QueryEngine.Json.Quoted

/-!
# Quoting and reading back

What is written between quotes is read back as it was, whatever follows the closing quote
(`decode_escape`). A character is written in one of three ways (`Written`), each of which makes one
piece, and the piece stands for the character. Only control characters are written as units. They
are below the surrogates, so that no piece waits for the next one.
-/

namespace QueryEngine.Quoted

variable {c e : Char} {n : Nat} {ps : List Piece} {rest rest' : List Char}

/-! ## Characters -/

/-- What a character may look like between quotes: a backslash and a letter, its number, or the
character itself. -/
inductive Written (c : Char) : List Char → Prop
  | named {e : Char} (names : named? e = some c) : Written c ['\\', e]
  | numbered {x y z w : Char} (control : c.toNat < 0x20) (hex : hexUnit? x y z w = some c.toNat) :
    Written c ['\\', 'u', x, y, z, w]
  | plain (control : ¬c.toNat < 0x20) (quote : c ≠ '\"') (backslash : c ≠ '\\') : Written c [c]

theorem hexDigit?_digitChar : ∀ n < 16, hexDigit? (Nat.digitChar n) = some n := by
  decide

theorem written_escape (c : Char) : Written c (escape c) := by
  unfold escape
  split
  case h_8 hquote hbackslash _ _ _ _ _ =>
    split
    · next control =>
      refine .numbered control ?_
      rw [hexUnit?, hexDigit?_digitChar _ (by omega), hexDigit?_digitChar _ (by omega)]
      exact congrArg some (by omega)
    · next control => exact .plain control hquote hbackslash
  all_goals exact .named rfl

/-! ## Pieces -/

theorem assemble_unit (hn : n < 0xd800) (ps : List Piece) :
    assemble (.unit n :: ps) = (assemble ps).map (Char.ofNat n :: ·) := by
  have hhigh : isHigh n = false := by
    rw [isHigh, decide_eq_false (by omega), Bool.false_and]
  have hlow : isLow n = false := by
    rw [isLow, decide_eq_false (by omega), Bool.false_and]
  match ps with
  | [] => simp [assemble, hhigh, hlow]
  | .char d :: ps => simp [assemble, hhigh, hlow]
  | .unit m :: ps => simp [assemble, hhigh, hlow]

/-- A written character makes one piece, which stands for it in front of all others. -/
theorem Written.pieces_append {cs : List Char} (written : Written c cs)
    (hpieces : pieces rest = some (ps, rest')) :
    ∃ p, pieces (cs ++ rest) = some (p :: ps, rest')
      ∧ assemble (p :: ps) = (assemble ps).map (c :: ·) := by
  cases written with
  | named names =>
    refine ⟨.char c, ?_, rfl⟩
    rw [List.cons_append, List.cons_append, List.nil_append, pieces, names, hpieces]
    -- The letter of a number names no character.
    rintro x y z w rest rfl
    cases names
  | numbered control hex =>
    refine ⟨.unit c.toNat, ?_, ?_⟩
    · simp only [List.cons_append, List.nil_append]
      rw [pieces, hex, hpieces]
    · rw [assemble_unit (by omega), Char.ofNat_toNat]
  | plain control quote backslash =>
    refine ⟨.char c, ?_, rfl⟩
    rw [List.cons_append, List.nil_append, pieces, if_neg (not_or.mpr ⟨control, backslash⟩),
      hpieces]
    · rfl
    · exact quote
    · exact fun _ _ _ _ _ h ↦ absurd h backslash
    · exact fun _ _ h ↦ absurd h backslash

theorem pieces_escape (s rest : List Char) :
    ∃ ps, pieces (s.flatMap escape ++ '\"' :: rest) = some (ps, rest) ∧ assemble ps = some s := by
  induction s with
  | nil => exact ⟨[], by rw [List.flatMap_nil, List.nil_append, pieces], rfl⟩
  | cons c s ih =>
    obtain ⟨ps, hps, hs⟩ := ih
    obtain ⟨p, hp, hassemble⟩ := (written_escape c).pieces_append hps
    refine ⟨p :: ps, ?_, ?_⟩
    · rwa [List.flatMap_cons, List.append_assoc]
    · rw [hassemble, hs]
      rfl

/-- A quoted text is read back, up to its closing quote. -/
theorem decode_escape (s : String) (rest : List Char) :
    decode (s.toList.flatMap escape ++ '\"' :: rest) = some (some s, rest) := by
  obtain ⟨ps, hpieces, hassemble⟩ := pieces_escape s.toList rest
  simp only [decode, hpieces, Option.map_some, hassemble, String.ofList_toList]

end QueryEngine.Quoted
