/-!
# Occurrence of a text in a text

The test behind the text form of LIKE: a needle occurs in a haystack when it can be read off from
some position of the haystack on. There are no wildcards, and the empty needle occurs everywhere.

`occursIn_iff` states the test as a relation: the haystack is the needle with something before and
something after it.
-/

namespace QueryEngine.Text

/-- Whether the haystack has the needle as a run of consecutive characters. -/
def occursIn (needle : List Char) : List Char → Bool
  | [] => needle.isEmpty
  | c :: rest => needle.isPrefixOf (c :: rest) || occursIn needle rest

theorem occursIn_iff {needle haystack : List Char} :
    occursIn needle haystack = true ↔ ∃ before after, haystack = before ++ needle ++ after := by
  induction haystack with
  | nil =>
    rw [occursIn, List.isEmpty_iff]
    constructor
    · rintro rfl
      exact ⟨[], [], rfl⟩
    · rintro ⟨before, after, h⟩
      have h' := congrArg List.length h
      simp only [List.length_nil, List.length_append] at h'
      exact List.eq_nil_of_length_eq_zero (by omega)
  | cons c rest ih =>
    rw [occursIn, Bool.or_eq_true, List.isPrefixOf_iff_prefix, ih]
    constructor
    · rintro (⟨after, h⟩ | ⟨before, after, h⟩)
      · exact ⟨[], after, h.symm⟩
      · exact ⟨c :: before, after, by rw [h]; rfl⟩
    · rintro ⟨before, after, h⟩
      cases before with
      | nil => exact Or.inl ⟨after, h.symm⟩
      | cons b before =>
        rw [List.cons_append, List.cons_append, List.cons.injEq] at h
        exact Or.inr ⟨before, after, h.2⟩

end QueryEngine.Text
