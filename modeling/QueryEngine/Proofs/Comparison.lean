import QueryEngine.Predicate
import QueryEngine.Proofs.Text.CodePoints

/-!
# The order of values

The values of one type stand in one order: numbers by size, texts by the dictionary order of their
code points. Every operator but LIKE says where two values stand in it (`Comparison.Says`), and LIKE
asks whether one text has the other in it. So a comparison can be turned around, a join predicate
can look at its rows from the other side, and for a given row on the right it is a predicate on the
row on the left.
-/

namespace QueryEngine

/-! ## The order -/

namespace Value

variable {a b c : Value} {o : Ordering}

def Precedes : Value → Value → Prop
  | integer n, integer m => n < m
  | text s, text t => Text.codePoints s < Text.codePoints t
  | _, _ => False

instance (a b : Value) : Decidable (a.Precedes b) :=
  match a, b with
  | integer n, integer m => inferInstanceAs (Decidable (n < m))
  | text s, text t => inferInstanceAs (Decidable (Text.codePoints s < Text.codePoints t))
  | integer _, text _ => isFalse id
  | text _, integer _ => isFalse id

/-- A comparison puts the values of each type in one order, and refuses values of different
types. -/
structure TotalOrder (compare : Value → Value → Except QueryError Ordering) : Prop where
  total : ∀ a b, a.type = b.type → ∃ o, compare a b = .ok o
  refuses : ∀ a b, a.type ≠ b.type → compare a b = .error (.typeMismatch a.type b.type)
  eq_iff : ∀ a b, compare a b = .ok .eq ↔ a = b
  lt_iff : ∀ a b, compare a b = .ok .lt ↔ a.Precedes b
  swap : ∀ a b o, compare a b = .ok o → compare b a = .ok o.swap
  trans : ∀ a b c, (∃ o, compare a b = .ok o ∧ o.isLE) → (∃ o, compare b c = .ok o ∧ o.isLE) →
    ∃ o, compare a c = .ok o ∧ o.isLE

theorem compare_eq_ok_iff :
    a.compare b = .ok o ↔
      (∃ n m, a = integer n ∧ b = integer m ∧ o = Ord.compare n.toInt m.toInt)
        ∨ ∃ s t, a = text s ∧ b = text t ∧ o = Text.compareBytes s t := by
  constructor
  · intro h
    rcases a with n | s <;> rcases b with m | t
    · exact .inl ⟨n, m, rfl, rfl, (Except.ok.inj h).symm⟩
    · cases h
    · cases h
    · exact .inr ⟨s, t, rfl, rfl, (Except.ok.inj h).symm⟩
  · rintro (⟨n, m, rfl, rfl, rfl⟩ | ⟨s, t, rfl, rfl, rfl⟩) <;> rfl

theorem exists_compare_eq_ok (type : a.type = b.type) : ∃ o, a.compare b = .ok o := by
  rcases a with n | s <;> rcases b with m | t
  · exact ⟨_, rfl⟩
  · cases type
  · cases type
  · exact ⟨_, rfl⟩

theorem compare_eq_error (ne : a.type ≠ b.type) :
    a.compare b = .error (.typeMismatch a.type b.type) := by
  rcases a with n | s <;> rcases b with m | t
  · exact absurd rfl ne
  · rfl
  · rfl
  · exact absurd rfl ne

theorem compare_eq_eq_iff : a.compare b = .ok .eq ↔ a = b := by
  rw [compare_eq_ok_iff]
  constructor
  · rintro (⟨n, m, rfl, rfl, h⟩ | ⟨s, t, rfl, rfl, h⟩)
    · exact congrArg integer (Int64.toInt_inj.mp (Std.compare_eq_iff_eq.mp h.symm))
    · exact congrArg text (Text.compareBytes_eq_eq_iff.mp h.symm)
  · rintro rfl
    rcases a with n | s
    · exact .inl ⟨n, n, rfl, rfl, (Std.compare_eq_iff_eq.mpr rfl).symm⟩
    · exact .inr ⟨s, s, rfl, rfl, (Text.compareBytes_self s).symm⟩

theorem compare_eq_lt_iff : a.compare b = .ok .lt ↔ a.Precedes b := by
  rw [compare_eq_ok_iff]
  rcases a with n | s <;> rcases b with m | t
  · simp [Precedes, Int64.lt_iff_toInt_lt, eq_comm (a := Ordering.lt), Std.compare_eq_lt]
  · simp [Precedes]
  · simp [Precedes]
  · simp [Precedes, Text.compareBytes_eq_lt_iff, eq_comm (a := Ordering.lt)]

theorem compare_swap (h : a.compare b = .ok o) : b.compare a = .ok o.swap := by
  rcases compare_eq_ok_iff.mp h with ⟨n, m, rfl, rfl, rfl⟩ | ⟨s, t, rfl, rfl, rfl⟩
  · exact congrArg Except.ok Std.OrientedOrd.eq_swap
  · exact congrArg Except.ok (Text.swap_compareBytes s t).symm

theorem compare_isLE_trans (h : ∃ o, a.compare b = .ok o ∧ o.isLE)
    (h' : ∃ o, b.compare c = .ok o ∧ o.isLE) : ∃ o, a.compare c = .ok o ∧ o.isLE := by
  obtain ⟨o, hab, hle⟩ := h
  obtain ⟨o', hbc, hle'⟩ := h'
  rcases compare_eq_ok_iff.mp hab with ⟨n, m, rfl, rfl, rfl⟩ | ⟨s, t, rfl, rfl, rfl⟩
  · rcases c with k | u
    · cases hbc
      exact ⟨_, rfl, Std.TransOrd.isLE_trans hle hle'⟩
    · cases hbc
  · rcases c with k | u
    · cases hbc
    · cases hbc
      exact ⟨_, rfl, Std.TransOrd.isLE_trans hle hle'⟩

theorem totalOrder_compare : TotalOrder compare where
  total := fun _ _ ↦ exists_compare_eq_ok
  refuses := fun _ _ ↦ compare_eq_error
  eq_iff := fun _ _ ↦ compare_eq_eq_iff
  lt_iff := fun _ _ ↦ compare_eq_lt_iff
  swap := fun _ _ _ ↦ compare_swap
  trans := fun _ _ _ ↦ compare_isLE_trans

end Value

/-! ## Operators -/

namespace Comparison

variable {op : Comparison} {a b : Value} {o : Ordering}

/-- What an operator says of two values of one type. -/
def Says : Comparison → Value → Value → Prop
  | eq, a, b => a = b
  | ne, a, b => a ≠ b
  | lt, a, b => a.Precedes b
  | gt, a, b => b.Precedes a
  | le, a, b => a.Precedes b ∨ a = b
  | ge, a, b => b.Precedes a ∨ a = b
  | like, .text s, .text t => ∃ before after, s = before ++ t ++ after
  | like, a, b => a = b

theorem evaluate_of_ne_like (ne : op ≠ like) (a b : Value) :
    op.evaluate a b = (a.compare b).map op.admits := by
  cases op
  case like => exact absurd rfl ne
  all_goals rfl

theorem evaluate_integer (op : Comparison) (x v : Int64) :
    op.evaluate (.integer x) (.integer v) = .ok (op.admits (compare x.toInt v.toInt)) := by
  cases op <;> rfl

theorem evaluate_text {op : Comparison} (ne : op ≠ .like) (x v : String) :
    op.evaluate (.text x) (.text v) = .ok (op.admits (Text.compareBytes x v)) :=
  evaluate_of_ne_like ne _ _

theorem evaluate_eq_error (op : Comparison) (ne : a.type ≠ b.type) :
    op.evaluate a b = .error (.typeMismatch a.type b.type) := by
  have hcompare : op.evaluate a b = (a.compare b).map op.admits := by
    rcases a with n | s <;> rcases b with m | t
    · exact absurd rfl ne
    · cases op <;> rfl
    · cases op <;> rfl
    · exact absurd rfl ne
  rw [hcompare, Value.compare_eq_error ne]
  rfl

/-- What an operator reads off the order is what it says. -/
theorem admits_iff_says (h : a.compare b = .ok o) (ne : op ≠ like) :
    op.admits o = true ↔ op.Says a b := by
  have heq : o = .eq ↔ a = b := by rw [← Value.compare_eq_eq_iff, h, Except.ok.injEq]
  have hlt : o = .lt ↔ a.Precedes b := by rw [← Value.compare_eq_lt_iff, h, Except.ok.injEq]
  have hgt : o = .gt ↔ b.Precedes a := by
    rw [← Value.compare_eq_lt_iff, Value.compare_swap h, Except.ok.injEq]
    cases o <;> simp
  cases op
  case like => exact absurd rfl ne
  all_goals
    simp only [Says, ne_eq, ← heq, ← hlt, ← hgt]
    cases o <;> simp [admits]

theorem occursIn_iff_append {s t : String} :
    Text.occursIn t.toList s.toList = true ↔ ∃ before after, s = before ++ t ++ after := by
  rw [Text.occursIn_iff]
  constructor
  · rintro ⟨before, after, h⟩
    refine ⟨String.ofList before, String.ofList after, String.toList_inj.mp ?_⟩
    simpa [String.toList_append] using h
  · rintro ⟨before, after, rfl⟩
    exact ⟨before.toList, after.toList, by simp [String.toList_append]⟩

/-- Between values of one type an operator always has an answer, and it is what the operator
says. -/
theorem evaluate_iff_says (op : Comparison) (type : a.type = b.type) :
    ∃ answer, op.evaluate a b = .ok answer ∧ (answer = true ↔ op.Says a b) := by
  obtain ⟨o, ho⟩ := Value.exists_compare_eq_ok type
  by_cases hop : op = like
  · subst hop
    rcases a with n | s <;> rcases b with m | t
    · -- Of numbers LIKE asks what the operator of equality asks.
      have hequal : eq.admits (compare n.toInt m.toInt) = true
          ↔ eq.Says (.integer n) (.integer m) :=
        admits_iff_says rfl (by rintro ⟨⟩)
      exact ⟨_, evaluate_integer like n m, hequal⟩
    · cases type
    · cases type
    · exact ⟨_, rfl, occursIn_iff_append⟩
  · refine ⟨op.admits o, ?_, admits_iff_says ho hop⟩
    rw [evaluate_of_ne_like hop, ho]
    rfl

/-- Exchanging the values and the sides of the operator leaves the answer as it is. -/
theorem evaluate_converse (type : a.type = b.type) (ne : op ≠ like) :
    op.converse.evaluate b a = op.evaluate a b := by
  obtain ⟨o, ho⟩ := Value.exists_compare_eq_ok type
  have hne : op.converse ≠ like := by
    cases op <;> simp_all [converse]
  rw [evaluate_of_ne_like hne, evaluate_of_ne_like ne, ho, Value.compare_swap ho]
  exact congrArg Except.ok (admits_converse op o)

end Comparison

/-! ## Predicates on two rows -/

/-- The predicate that looks at the rows from the other side. -/
def JoinPredicate.converse (p : JoinPredicate) : JoinPredicate :=
  ⟨p.right, p.op.converse, p.left⟩

theorem JoinPredicate.holds_eq {p : JoinPredicate} {l r : Row} {a b : Value}
    (left : l.get p.left = .ok a) (right : r.get p.right = .ok b) :
    p.holds l r = p.op.evaluate a b := by
  rw [holds, left, right]

/-- **Values are compared by one order.** The values of each type are in a total order, in which
different values have different places; that of texts is the dictionary order of their code points.
An operator has an answer for any two values of one type, which is what it says of their places, and
for LIKE between texts whether the right one occurs in the left one. Values of different types are
refused by every operator. If the fields that a join predicate compares are there and of one type,
its answer is that of the predicate on the left row with the right field as its constant, and, LIKE
apart, that of the join predicate with its sides exchanged. -/
theorem comparisons_follow_order :
    Value.TotalOrder Value.compare
      ∧ (∀ (op : Comparison) (a b : Value), a.type = b.type →
        ∃ answer, op.evaluate a b = .ok answer ∧ (answer = true ↔ op.Says a b))
      ∧ (∀ (op : Comparison) (a b : Value), a.type ≠ b.type →
        op.evaluate a b = .error (.typeMismatch a.type b.type))
      ∧ ∀ (p : JoinPredicate) (l r : Row) (a b : Value),
        l.get p.left = .ok a → r.get p.right = .ok b → a.type = b.type →
          ∃ answer, p.holds l r = .ok answer
            ∧ (Predicate.mk p.left p.op b).holds l = .ok answer
            ∧ (p.op ≠ .like → p.converse.holds r l = .ok answer) := by
  refine ⟨Value.totalOrder_compare, fun op _ _ ↦ Comparison.evaluate_iff_says op,
    fun op _ _ ↦ Comparison.evaluate_eq_error op, fun p l r a b left right type ↦ ?_⟩
  obtain ⟨answer, hanswer, -⟩ := Comparison.evaluate_iff_says p.op type
  refine ⟨answer, ?_, ?_, fun ne ↦ ?_⟩
  · rw [JoinPredicate.holds_eq left right, hanswer]
  · rw [Predicate.holds, left]
    exact hanswer
  · have hholds : p.converse.holds r l = p.op.converse.evaluate b a :=
      JoinPredicate.holds_eq right left
    rw [hholds, Comparison.evaluate_converse type ne, hanswer]

/-- U+FFFF comes before a character that is beyond it, from whichever side it is looked at. -/
theorem comparisons_follow_order_beyond :
    (Value.text "\uffff").compare (.text "😀") = .ok .lt
      ∧ (Row.ofValues [.text "\uffff"]).get 0 = .ok (.text "\uffff")
      ∧ (Row.ofValues [.integer 1, .text "😀"]).get 1 = .ok (.text "😀")
      ∧ (JoinPredicate.mk 0 .lt 1).holds (.ofValues [.text "\uffff"])
        (.ofValues [.integer 1, .text "😀"]) = .ok true
      ∧ (Predicate.mk 0 .lt (.text "😀")).holds (.ofValues [.text "\uffff"]) = .ok true
      ∧ (JoinPredicate.mk 1 .gt 0).holds (.ofValues [.integer 1, .text "😀"])
        (.ofValues [.text "\uffff"]) = .ok true := by
  obtain ⟨order, -, -, join⟩ := comparisons_follow_order
  have hlt : (Value.text "\uffff").compare (.text "😀") = .ok .lt :=
    (order.lt_iff _ _).mpr (by decide)
  obtain ⟨answer, hjoin, hpredicate, hconverse⟩ := join ⟨0, .lt, 1⟩
    (.ofValues [.text "\uffff"]) (.ofValues [.integer 1, .text "😀"]) _ _ rfl rfl rfl
  have hanswer : Except.ok true = Except.ok answer :=
    (congrArg (Except.map Comparison.lt.admits) hlt).symm.trans hjoin
  obtain rfl := Except.ok.inj hanswer
  exact ⟨hlt, rfl, rfl, hjoin, hpredicate, hconverse (by decide)⟩

end QueryEngine
