import QueryEngine.Storage.Heap

/-!
# Packed pages

Appending fills the last page before it opens another one, and nothing ever shortens a page. The
pages of a table are therefore its log cut into pieces of one size: every page but the last is full,
and the last one has at least one slot.

## Places

In packed pages a slot is found by division. Slot `k` of the log is slot `k % capacity` of page
`k / capacity`, so the next row goes to the quotient and the remainder of the length of the log
(`Packed.nextPlace_eq`), and the number of pages is that length divided by the capacity, rounded up
(`Packed.length_eq`).
-/

namespace QueryEngine

/-- Every page but the last is full, and the last one is not empty. -/
def Packed (capacity : Nat) : List Page → Prop
  | [] => True
  | [last] => 0 < last.length ∧ last.length ≤ capacity
  | page :: next :: rest => page.length = capacity ∧ Packed capacity (next :: rest)

namespace Packed

variable {capacity : Nat} {pages : List Page}

/-! ## What keeps pages packed -/

theorem appendSlot (pos : 0 < capacity) (slot : Option Row) (h : Packed capacity pages) :
    Packed capacity (appendSlot capacity slot pages) := by
  fun_induction QueryEngine.appendSlot capacity slot pages with
  | case1 => exact ⟨Nat.zero_lt_one, pos⟩
  | case2 last room =>
    rw [Packed, List.length_append, List.length_singleton]
    omega
  | case3 last full =>
    have hlast : last.length = capacity := by
      rw [Packed] at h
      omega
    exact ⟨hlast, Nat.zero_lt_one, pos⟩
  | case4 page next rest ih =>
    obtain ⟨hpage, hrest⟩ := h
    -- Appending leaves at least one page, so the first page is still followed by another one.
    obtain ⟨page', rest', happ⟩ : ∃ page' rest',
        QueryEngine.appendSlot capacity slot (next :: rest) = page' :: rest' := by
      cases rest with
      | nil =>
        rw [QueryEngine.appendSlot]
        split <;> exact ⟨_, _, rfl⟩
      | cons => exact ⟨_, _, rfl⟩
    rw [happ] at ih ⊢
    exact ⟨hpage, ih hrest⟩

/-- Whether pages are packed is decided by their lengths. -/
theorem modify_set (h : Packed capacity pages) (p s : Nat) (slot : Option Row) :
    Packed capacity (pages.modify p fun page ↦ page.set s slot) := by
  induction pages generalizing p with
  | nil => cases p <;> trivial
  | cons page rest ih =>
    cases rest with
    | nil =>
      cases p with
      | zero => simpa [Packed] using h
      | succ p => simpa [Packed] using h
    | cons next rest =>
      obtain ⟨hpage, hrest⟩ := h
      cases p with
      | zero => exact ⟨by rw [List.length_set, hpage], hrest⟩
      | succ p =>
        have hstep := ih hrest p
        cases p with
        | zero => exact ⟨hpage, hstep⟩
        | succ p => exact ⟨hpage, hstep⟩

/-! ## Places by division -/

theorem nextPlace_eq (pos : 0 < capacity) (h : Packed capacity pages) :
    nextPlace capacity pages
      = (pages.flatten.length / capacity, pages.flatten.length % capacity) := by
  fun_induction nextPlace capacity pages with
  | case1 => simp
  | case2 last room =>
    simp [Nat.div_eq_of_lt room, Nat.mod_eq_of_lt room]
  | case3 last full =>
    have hlast : last.length = capacity := by
      rw [Packed] at h
      omega
    simp [hlast, Nat.div_self pos]
  | case4 page next rest ihPage ihSlot hplace ih =>
    obtain ⟨hpage, hrest⟩ := h
    have hih := hplace ▸ ih hrest
    rw [Prod.mk.injEq] at hih
    rw [List.flatten_cons, List.length_append, hpage, Nat.add_div_left _ pos, Nat.add_mod_left,
      hih.1, hih.2]

/-- The number of pages is the number of slots divided by the capacity, rounded up. -/
theorem length_eq (pos : 0 < capacity) (h : Packed capacity pages) :
    pages.length = (pages.flatten.length + capacity - 1) / capacity := by
  induction pages with
  | nil => simp [Nat.div_eq_of_lt (Nat.sub_lt pos Nat.zero_lt_one)]
  | cons page rest ih =>
    cases rest with
    | nil =>
      rw [Packed] at h
      have hsplit : page.length + capacity - 1 = (page.length - 1) + capacity := by omega
      rw [List.flatten_cons, List.flatten_nil, List.append_nil, hsplit, Nat.add_div_right _ pos,
        Nat.div_eq_of_lt (by omega)]
      rfl
    | cons next rest =>
      obtain ⟨hpage, hrest⟩ := h
      have hsplit : (page :: next :: rest).flatten.length + capacity - 1
          = capacity + ((next :: rest).flatten.length + capacity - 1) := by
        rw [List.flatten_cons, List.length_append]
        omega
      rw [List.length_cons, ih hrest, hsplit, Nat.add_div_left _ pos]

theorem getElem?_eq (h : Packed capacity pages) (p : Nat) :
    pages[p]? = if p < pages.length
      then some ((pages.flatten.drop (p * capacity)).take capacity) else none := by
  induction pages generalizing p with
  | nil => simp
  | cons page rest ih =>
    have hle : page.length ≤ capacity := by
      cases rest with
      | nil => exact h.2
      | cons next rest => exact Nat.le_of_eq h.1
    cases p with
    | zero =>
      cases rest with
      | nil => simp [List.take_of_length_le hle]
      | cons next rest =>
        rw [List.flatten_cons, Nat.zero_mul, List.drop_zero, ← h.1, List.take_left]
        simp
    | succ p =>
      cases rest with
      | nil => simp
      | cons next rest =>
        obtain ⟨hpage, hrest⟩ := h
        have hdrop : (page :: next :: rest).flatten.drop ((p + 1) * capacity)
            = (next :: rest).flatten.drop (p * capacity) := by
          rw [List.flatten_cons, Nat.succ_mul, Nat.add_comm, ← List.drop_drop, ← hpage,
            List.drop_left]
        rw [List.getElem?_cons_succ, ih hrest, hdrop]
        simp only [List.length_cons, Nat.add_lt_add_iff_right]

theorem length_flatten_le (h : Packed capacity pages) :
    pages.flatten.length ≤ pages.length * capacity := by
  induction pages with
  | nil => exact Nat.zero_le _
  | cons page rest ih =>
    rw [List.flatten_cons, List.length_append, List.length_cons, Nat.succ_mul]
    cases rest with
    | nil =>
      rw [Packed] at h
      simpa using h.2
    | cons next rest =>
      have hrest := ih h.2
      have hpage := h.1
      omega

theorem slot_eq (h : Packed capacity pages) (p s : Nat) :
    (pages[p]?).bind (·[s]?)
      = if s < capacity then pages.flatten[p * capacity + s]? else none := by
  rw [h.getElem?_eq]
  by_cases hp : p < pages.length
  · rw [if_pos hp, Option.bind_some, List.getElem?_take, List.getElem?_drop]
  · rw [if_neg hp, Option.bind_none]
    have hle : pages.length * capacity ≤ p * capacity :=
      Nat.mul_le_mul_right capacity (Nat.le_of_not_lt hp)
    have hlength := h.length_flatten_le
    rw [List.getElem?_eq_none (by omega)]
    split <;> rfl

theorem flatten_modify_set (h : Packed capacity pages) (p : Nat) {s : Nat} (hs : s < capacity)
    (slot : Option Row) :
    (pages.modify p fun page ↦ page.set s slot).flatten
      = pages.flatten.set (p * capacity + s) slot := by
  induction pages generalizing p with
  | nil => cases p <;> rfl
  | cons page rest ih =>
    cases p with
    | zero =>
      rw [Nat.zero_mul, Nat.zero_add, List.modify_zero_cons, List.flatten_cons, List.flatten_cons]
      cases rest with
      | nil => simp
      | cons next rest => rw [List.set_append_left _ _ (h.1 ▸ hs)]
    | succ p =>
      rw [List.modify_succ_cons, List.flatten_cons, List.flatten_cons]
      cases rest with
      | nil =>
        have hlong : page.length ≤ (p + 1) * capacity + s := by
          rw [Packed] at h
          rw [Nat.succ_mul]
          omega
        simp [List.set_eq_of_length_le hlong]
      | cons next rest =>
        obtain ⟨hpage, hrest⟩ := h
        have hplace : (p + 1) * capacity + s - page.length = p * capacity + s := by
          rw [Nat.succ_mul, hpage]
          omega
        have hlong : page.length ≤ (p + 1) * capacity + s := by
          rw [Nat.succ_mul, hpage]
          omega
        rw [ih hrest, List.set_append_right _ _ hlong, hplace]

end Packed

end QueryEngine
