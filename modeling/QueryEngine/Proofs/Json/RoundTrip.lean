import QueryEngine.Json.Parser
import QueryEngine.Json.Printer
import QueryEngine.Proofs.Json.Numeral
import QueryEngine.Proofs.Json.Quoted
import QueryEngine.Proofs.Json.Record

/-!
# Printing and reading back

A value of JSON whose numbers are integers and whose strings and names are texts is read back from
its printed form (`parse?_render`). The induction is on the value, and its statement is about the
characters of the value with anything after them that can follow a value, so that it covers the
items of an array and the fields of an object.

## Calls

The reader counts its calls down, and each step of the induction has to find enough of them left.
Two for every printed character are enough for a value. The items of an array or the fields of an
object, with the commas between them, need one more.
-/

namespace QueryEngine.Json

variable {v : Json} {c : Char} {cs rest : List Char} {calls : Nat} {items : List Json}
  {fields : List (String × Json)}

/-- A value in which all numbers are integers and all strings and names are texts. -/
inductive Plain : Json → Prop
  | null : Plain null
  | bool (b : Bool) : Plain (bool b)
  | integer (i : Int) : Plain (integer i)
  | text (s : String) : Plain (text s)
  | array {items : List Json} (items_plain : ∀ v ∈ items, v.Plain) : Plain (array items)
  | record {fields : List (String × Json)} (fields_plain : ∀ f ∈ fields, f.2.Plain) :
    Plain (record fields)

/-! ## What the first character tells -/

theorem skipBlanks_cons (hc : isBlank c = false) (rest : List Char) :
    skipBlanks (c :: rest) = c :: rest :=
  List.dropWhile_cons_of_neg (by simp [hc])

theorem encode_append (s : String) (rest : List Char) :
    Quoted.encode s.toList ++ rest = '\"' :: (s.toList.flatMap Quoted.escape ++ '\"' :: rest) := by
  simp [Quoted.encode]

theorem readValue_quote (s : String) (rest : List Char) :
    readValue (calls + 1) (Quoted.encode s.toList ++ rest) = some (text s, rest) := by
  rw [encode_append]
  change (Quoted.decode _).map _ = _
  rw [Quoted.decode_escape]
  rfl

theorem isBlank_of_numeral (hc : c = '-' ∨ c.isDigit) : isBlank c = false := by
  simp only [isBlank, Bool.or_eq_false_iff, beq_eq_false_iff_ne]
  refine ⟨⟨⟨?_, ?_⟩, ?_⟩, ?_⟩ <;> (rintro rfl; revert hc; decide)

/-- Neither a minus sign nor a digit begins anything but a number. -/
theorem readValue_numeral (hc : c = '-' ∨ c.isDigit) (cs : List Char) :
    readValue (calls + 1) (c :: cs)
      = (Numeral.read? (c :: cs)).map fun (n, rest) ↦ (number n, rest) := by
  rw [readValue, skipBlanks_cons (isBlank_of_numeral hc)]
  split
  case h_7 => rfl
  all_goals
    obtain ⟨rfl, -⟩ := List.cons.inj ‹c :: cs = _›
    exact absurd hc (by decide)

theorem readValue_items (hblank : isBlank c = false) (hc : c ≠ ']') (cs : List Char) :
    readValue (calls + 1) ('[' :: c :: cs)
      = (readItems calls (c :: cs)).map fun (items, rest) ↦ (array items, rest) := by
  rw [readValue, skipBlanks_cons rfl]
  simp only [skipBlanks_cons hblank]
  split
  · next h => exact absurd (List.cons.inj h).1 hc
  · rfl

theorem readValue_fields (cs : List Char) :
    readValue (calls + 1) ('\x7b' :: '\"' :: cs)
      = (readFields calls ('\"' :: cs)).map fun (fields, rest) ↦ (object fields, rest) :=
  rfl

/-! ## Items and fields -/

theorem readItems_comma (hread : readValue calls cs = some (v, ',' :: rest)) :
    readItems (calls + 1) cs
      = (readItems calls rest).map fun (items, rest) ↦ (v :: items, rest) := by
  rw [readItems, hread]
  rfl

theorem readItems_bracket (hread : readValue calls cs = some (v, ']' :: rest)) :
    readItems (calls + 1) cs = some ([v], rest) := by
  rw [readItems, hread]
  rfl

theorem readFields_comma (name : String) (hread : readValue calls cs = some (v, ',' :: rest)) :
    readFields (calls + 1) (Quoted.encode name.toList ++ ':' :: cs)
      = (readFields calls rest).map fun (fields, rest) ↦ ((some name, v) :: fields, rest) := by
  have hcolon : skipBlanks (':' :: cs) = ':' :: cs := skipBlanks_cons rfl cs
  have hcomma : skipBlanks (',' :: rest) = ',' :: rest := skipBlanks_cons rfl rest
  rw [encode_append, readFields, skipBlanks_cons rfl]
  simp only [Quoted.decode_escape, hcolon, hread, hcomma]

theorem readFields_bracket (name : String)
    (hread : readValue calls cs = some (v, '\x7d' :: rest)) :
    readFields (calls + 1) (Quoted.encode name.toList ++ ':' :: cs)
      = some ([(some name, v)], rest) := by
  have hcolon : skipBlanks (':' :: cs) = ':' :: cs := skipBlanks_cons rfl cs
  have hbracket : skipBlanks ('\x7d' :: rest) = '\x7d' :: rest := skipBlanks_cons rfl rest
  rw [encode_append, readFields, skipBlanks_cons rfl]
  simp only [Quoted.decode_escape, hcolon, hread, hbracket]

/-! ## Reading what was printed -/

/-- What can come after a value: nothing, a comma or a closing bracket. -/
def Closes : List Char → Prop
  | [] => True
  | c :: _ => c = ',' ∨ c = ']' ∨ c = '\x7d'

theorem Closes.ends (closes : Closes rest) : Numeral.Ends rest := by
  cases rest with
  | nil => trivial
  | cons c rest => rcases closes with rfl | rfl | rfl <;> simp [Numeral.Ends]

@[simp] theorem closes_comma : Closes (',' :: rest) := .inl rfl

@[simp] theorem closes_bracket : Closes (']' :: rest) := .inr (.inl rfl)

@[simp] theorem closes_brace : Closes ('\x7d' :: rest) := .inr (.inr rfl)

/-- The characters of a value are read as this value, whatever comes after them, and are not
mistaken for the end of an array. -/
structure ReadsBack (v : Json) : Prop where
  begins : ∃ c cs, print v = c :: cs ∧ isBlank c = false ∧ c ≠ ']'
  reads : ∀ rest calls, Closes rest → 2 * (print v).length ≤ calls + 1 →
    readValue (calls + 1) (print v ++ rest) = some (v, rest)

theorem ReadsBack.readValue_print (back : v.ReadsBack) (closes : Closes rest)
    (hcalls : 2 * (print v).length ≤ calls) :
    readValue calls (print v ++ rest) = some (v, rest) := by
  obtain ⟨c, cs, hprint, -⟩ := back.begins
  have pos : 0 < (print v).length := by simp [hprint]
  obtain ⟨calls, rfl⟩ := Nat.exists_eq_add_one_of_ne_zero (show calls ≠ 0 by omega)
  exact back.reads rest calls closes hcalls

/-! ### Values without parts -/

theorem readsBack_null : null.ReadsBack where
  begins := ⟨'n', _, rfl, rfl, by decide⟩
  reads _ _ _ _ := rfl

theorem readsBack_bool (b : Bool) : (bool b).ReadsBack where
  begins := by cases b <;> exact ⟨_, _, rfl, rfl, by decide⟩
  reads _ _ _ _ := by cases b <;> rfl

theorem readsBack_text (s : String) : (text s).ReadsBack where
  begins := ⟨'\"', _, rfl, rfl, by decide⟩
  reads rest _ _ _ := readValue_quote s rest

theorem readsBack_integer (i : Int) : (integer i).ReadsBack := by
  obtain ⟨c, cs, hrender, hc⟩ := Numeral.exists_render_ofInt_eq_cons i
  have hprint : print (integer i) = c :: cs := hrender
  refine ⟨⟨c, cs, hprint, isBlank_of_numeral hc, ?_⟩, fun rest calls closes _ ↦ ?_⟩
  · rintro rfl
    exact absurd hc (by decide)
  · rw [hprint, List.cons_append, readValue_numeral hc, ← List.cons_append, ← hrender,
      Numeral.read?_render_ofInt i closes.ends]
    rfl

/-! ### Arrays -/

theorem readItems_print (back : ∀ v ∈ items, v.ReadsBack) (nonempty : items ≠ [])
    (hcalls : 2 * (separated (printItems items)).length + 1 ≤ calls) :
    readItems calls (separated (printItems items) ++ ']' :: rest) = some (items, rest) := by
  induction items generalizing calls with
  | nil => exact absurd rfl nonempty
  | cons v items ih =>
    obtain ⟨hv, hitems⟩ := List.forall_mem_cons.mp back
    obtain ⟨calls, rfl⟩ := Nat.exists_eq_add_one_of_ne_zero (show calls ≠ 0 by omega)
    cases items with
    | nil =>
      rw [printItems, printItems, separated] at hcalls ⊢
      exact readItems_bracket (hv.readValue_print closes_bracket (by omega))
    | cons w items =>
      have hprint : separated (printItems (v :: w :: items))
          = print v ++ ',' :: separated (printItems (w :: items)) := rfl
      rw [hprint, List.length_append, List.length_cons] at hcalls
      -- The comma, with its two calls, pays for the one call that is taken here.
      rw [hprint, List.append_assoc, List.cons_append,
        readItems_comma (hv.readValue_print closes_comma (by omega)),
        ih hitems (List.cons_ne_nil w items) (by omega)]
      rfl

theorem readsBack_array (back : ∀ v ∈ items, v.ReadsBack) : (array items).ReadsBack where
  begins := ⟨'[', _, rfl, rfl, by decide⟩
  reads rest calls _ hcalls := by
    cases items with
    | nil => rfl
    | cons v items =>
      obtain ⟨c, cs, hprint, hblank, hc⟩ := (back v List.mem_cons_self).begins
      obtain ⟨cs, hbegins⟩ : ∃ cs, separated (printItems (v :: items)) = c :: cs := by
        cases items <;> simp [printItems, separated, hprint]
      have hlength : (print (array (v :: items))).length
          = (separated (printItems (v :: items))).length + 2 := by
        simp [print]
      rw [print, List.append_assoc, List.cons_append, hbegins, List.cons_append,
        readValue_items hblank hc, ← List.cons_append, ← hbegins, List.cons_append, List.nil_append,
        readItems_print back (List.cons_ne_nil v items) (by omega)]
      rfl

/-! ### Objects -/

theorem readFields_print (back : ∀ f ∈ fields, f.2.ReadsBack) (nonempty : fields ≠ [])
    (hcalls : 2 * (separated (printFields (named fields))).length + 1 ≤ calls) :
    readFields calls (separated (printFields (named fields)) ++ '\x7d' :: rest)
      = some (named fields, rest) := by
  induction fields generalizing calls with
  | nil => exact absurd rfl nonempty
  | cons f fields ih =>
    obtain ⟨name, v⟩ := f
    have hv : v.ReadsBack := back (name, v) List.mem_cons_self
    have hfields : ∀ f ∈ fields, f.2.ReadsBack := fun f hf ↦ back f (List.mem_cons_of_mem _ hf)
    obtain ⟨calls, rfl⟩ := Nat.exists_eq_add_one_of_ne_zero (show calls ≠ 0 by omega)
    cases fields with
    | nil =>
      have hprint : separated (printFields (named [(name, v)]))
          = Quoted.encode name.toList ++ ':' :: print v := rfl
      rw [hprint, List.length_append, List.length_cons] at hcalls
      rw [hprint, List.append_assoc, List.cons_append,
        readFields_bracket name (hv.readValue_print closes_brace (by omega))]
      rfl
    | cons g fields =>
      have hprint : separated (printFields (named ((name, v) :: g :: fields)))
          = Quoted.encode name.toList ++ ':' :: print v ++
            ',' :: separated (printFields (named (g :: fields))) := rfl
      rw [hprint, List.length_append, List.length_append, List.length_cons, List.length_cons]
        at hcalls
      rw [hprint, List.append_assoc, List.append_assoc, List.cons_append, List.cons_append,
        readFields_comma name (hv.readValue_print closes_comma (by omega)),
        ih hfields (List.cons_ne_nil g fields) (by omega)]
      rfl

theorem readsBack_record (back : ∀ f ∈ fields, f.2.ReadsBack) : (record fields).ReadsBack where
  begins := ⟨'\x7b', _, rfl, rfl, by decide⟩
  reads rest calls _ hcalls := by
    cases fields with
    | nil => rfl
    | cons f fields =>
      obtain ⟨cs, hbegins⟩ : ∃ cs, separated (printFields (named (f :: fields))) = '\"' :: cs := by
        cases fields <;> exact ⟨_, rfl⟩
      have hlength : (print (record (f :: fields))).length
          = (separated (printFields (named (f :: fields)))).length + 2 := by
        simp [print, record, named]
      change readValue (calls + 1)
        ('\x7b' :: separated (printFields (named (f :: fields))) ++ ['\x7d'] ++ rest) = _
      rw [List.append_assoc, List.cons_append, hbegins, List.cons_append, readValue_fields,
        ← List.cons_append, ← hbegins, List.cons_append, List.nil_append,
        readFields_print back (List.cons_ne_nil f fields) (by omega)]
      rfl

/-! ## Documents -/

/-- What is written of a plain value is read back, in front of anything that can follow it. -/
theorem Plain.readsBack (plain : v.Plain) : v.ReadsBack := by
  induction plain with
  | null => exact readsBack_null
  | bool b => exact readsBack_bool b
  | integer i => exact readsBack_integer i
  | text s => exact readsBack_text s
  | array _ ih => exact readsBack_array ih
  | record _ ih => exact readsBack_record ih

/-- A plain value is what its printed form is read as. -/
theorem parse?_render (plain : v.Plain) : parse? (render v) = some v := by
  have hread : readValue (2 * (print v).length + 2) (print v ++ []) = some (v, []) :=
    plain.readsBack.readValue_print trivial (by omega)
  rw [List.append_nil] at hread
  simp only [parse?, render, String.toList_ofList, hread]
  rfl

end QueryEngine.Json
