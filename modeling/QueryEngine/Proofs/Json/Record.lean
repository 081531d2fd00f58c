import QueryEngine.Json.Basic

/-!
# Records, variants and what they hold

What a value of JSON is if something was found in it. A record of given fields
(`record?_eq_some_iff`) is an object of them, in any order and among others of other names, or an
array of their values in order. An object that repeats one of the fields is neither.
-/

namespace QueryEngine.Json

variable {name : String} {v : Json} {fields others : List (Option String × Json)}
  {parts : List (String × Json)}

def named (parts : List (String × Json)) : List (Option String × Json) :=
  parts.map fun (name, v) ↦ (some name, v)

/-- Fields that have names, but none of the given ones. -/
def Besides (names : List String) (others : List (Option String × Json)) : Prop :=
  ∀ f ∈ others, ∃ name, f.1 = some name ∧ name ∉ names

/-- Whether a value is a record of the given fields. -/
def IsRecordOf (parts : List (String × Json)) : Json → Prop
  | object fields => ∃ others, fields.Perm (named parts ++ others) ∧
      Besides (parts.map Prod.fst) others
  | array items => items = parts.map Prod.snd
  | _ => False

theorem isRecordOf_record (parts : List (String × Json)) : (record parts).IsRecordOf parts :=
  ⟨[], .of_eq (List.append_nil _).symm, fun _ hf ↦ absurd hf List.not_mem_nil⟩

/-! ## Fields of an object -/

theorem field?_eq_some_iff :
    field? fields name = some (some v)
      ↔ (fields.filter fun f ↦ f.1 == some name) = [(some name, v)] := by
  rw [field?]
  split
  · next hfilter => simp [hfilter]
  · next n w hfilter =>
    have hmem : (n, w) ∈ fields.filter fun f ↦ f.1 == some name := by simp [hfilter]
    have hname : n = some name := by simpa using (List.mem_filter.mp hmem).2
    simp [hfilter, hname]
  · next hnone hone =>
    simp only [reduceCtorEq, false_iff]
    exact hone _ _

/-- An object with one field of each name consists of these fields and others. -/
theorem exists_others (nodup : (parts.map Prod.fst).Nodup) (texts : ∀ f ∈ fields, f.1.isSome)
    (once : ∀ p ∈ parts, (fields.filter fun f ↦ f.1 == some p.1) = [(some p.1, p.2)]) :
    ∃ others, fields.Perm (named parts ++ others) ∧ Besides (parts.map Prod.fst) others := by
  induction parts generalizing fields with
  | nil =>
    refine ⟨fields, .refl _, fun f hf ↦ ?_⟩
    obtain ⟨name, hname⟩ := Option.isSome_iff_exists.mp (texts f hf)
    exact ⟨name, hname, List.not_mem_nil⟩
  | cons p parts ih =>
    obtain ⟨name, v⟩ := p
    obtain ⟨hname, hparts⟩ := List.nodup_cons.mp nodup
    let rest := fields.filter fun f ↦ !(f.1 == some name)
    have hmem : ∀ f ∈ rest, f ∈ fields ∧ f.1 ≠ some name := by simp [rest]
    have hrest : ∀ q ∈ parts, (rest.filter fun f ↦ f.1 == some q.1) = [(some q.1, q.2)] := by
      intro q hq
      have hne : q.1 ≠ name := fun h ↦ hname (h ▸ List.mem_map.mpr ⟨q, hq, rfl⟩)
      rw [List.filter_filter, ← once q (List.mem_cons_of_mem _ hq)]
      refine List.filter_congr fun f _ ↦ ?_
      by_cases hf : f.1 = some q.1 <;> simp [hf, hne]
    obtain ⟨others, hperm, hothers⟩ := ih hparts (fun f hf ↦ texts f (hmem f hf).1) hrest
    refine ⟨others, ?_, fun f hf ↦ ?_⟩
    · have hsplit := List.filter_append_perm (fun f ↦ f.1 == some name) fields
      rw [once (name, v) List.mem_cons_self] at hsplit
      exact hsplit.symm.trans (hperm.cons _)
    · obtain ⟨other, hother, hnot⟩ := hothers f hf
      have hfield : f ∈ rest := hperm.mem_iff.mpr (List.mem_append_right _ hf)
      refine ⟨other, hother, List.not_mem_cons_of_ne_of_not_mem ?_ hnot⟩
      rintro rfl
      exact (hmem f hfield).2 hother

theorem filter_named (nodup : (parts.map Prod.fst).Nodup) {p : String × Json} (hp : p ∈ parts) :
    ((named parts).filter fun f ↦ f.1 == some p.1) = [(some p.1, p.2)] := by
  induction parts with
  | nil => cases hp
  | cons q parts ih =>
    obtain ⟨hq, hparts⟩ := List.nodup_cons.mp nodup
    have hcons : named (q :: parts) = (some q.1, q.2) :: named parts := rfl
    rw [hcons]
    rcases List.mem_cons.mp hp with rfl | hp
    · have hnone : ((named parts).filter fun f ↦ f.1 == some p.1) = [] := by
        simp only [named, List.filter_eq_nil_iff, List.forall_mem_map]
        intro r hr h
        have hname : r.1 = p.1 := by simpa using h
        exact hq (List.mem_map.mpr ⟨r, hr, hname⟩)
      rw [List.filter_cons_of_pos (by simp), hnone]
    · have hne : q.1 ≠ p.1 := fun h ↦ hq (List.mem_map.mpr ⟨p, hp, h.symm⟩)
      rw [List.filter_cons_of_neg (by simpa using hne), ih hparts hp]

theorem filter_of_perm (nodup : (parts.map Prod.fst).Nodup)
    (hperm : fields.Perm (named parts ++ others)) (hothers : Besides (parts.map Prod.fst) others)
    {p : String × Json} (hp : p ∈ parts) :
    (fields.filter fun f ↦ f.1 == some p.1) = [(some p.1, p.2)] := by
  have hnone : (others.filter fun f ↦ f.1 == some p.1) = [] := by
    refine List.filter_eq_nil_iff.mpr fun f hf ↦ ?_
    obtain ⟨name, hname, hnot⟩ := hothers f hf
    have hne : name ≠ p.1 := fun h ↦ hnot (h ▸ List.mem_map_of_mem hp)
    simp [hname, hne]
  have hfilter := hperm.filter fun f ↦ f.1 == some p.1
  rw [List.filter_append, hnone, filter_named nodup hp, List.append_nil] at hfilter
  exact List.perm_singleton.mp hfilter

/-! ## Records -/

theorem mapM_field?_eq_some_iff :
    (parts.map Prod.fst).mapM (field? fields) = some (parts.map fun p ↦ some p.2)
      ↔ ∀ p ∈ parts, field? fields p.1 = some (some p.2) := by
  induction parts with
  | nil => simp
  | cons p parts ih =>
    rw [List.map_cons, List.mapM_cons, List.map_cons, List.forall_mem_cons, ← ih]
    simp [Option.bind_eq_some_iff]

theorem array_record?_eq_some_iff {items : List Json} :
    (array items).record? (parts.map Prod.fst) = some (parts.map fun p ↦ some p.2)
      ↔ items = parts.map Prod.snd := by
  have hmap : (parts.map fun p ↦ some p.2) = (parts.map Prod.snd).map some := by
    rw [List.map_map]
    rfl
  rw [record?, Option.ite_none_right_eq_some, Option.some.injEq, List.length_map, hmap]
  constructor
  · rintro ⟨-, hitems⟩
    cases hmissing : parts.length - items.length with
    | zero =>
      rw [hmissing, List.replicate_zero, List.append_nil] at hitems
      exact (List.map_inj_right fun _ _ ↦ Option.some.inj).mp hitems
    | succ n =>
      have hnone : (none : Option Json) ∈ (parts.map Prod.snd).map some := by
        simp [← hitems, hmissing]
      simp at hnone
  · rintro rfl
    simp

/-- A record is looked up as what it consists of. -/
theorem record?_eq_some_iff (parts : List (String × Json)) (nodup : (parts.map Prod.fst).Nodup) :
    v.record? (parts.map Prod.fst) = some (parts.map fun p ↦ some p.2) ↔ v.IsRecordOf parts := by
  cases v with
  | object fields =>
    simp only [record?, Option.ite_none_right_eq_some, List.all_eq_true, mapM_field?_eq_some_iff,
      field?_eq_some_iff, IsRecordOf]
    constructor
    · rintro ⟨texts, once⟩
      exact exists_others nodup texts once
    · rintro ⟨others, hperm, hothers⟩
      refine ⟨fun f hf ↦ ?_, fun p ↦ filter_of_perm nodup hperm hothers⟩
      rcases List.mem_append.mp (hperm.mem_iff.mp hf) with hf | hf
      · obtain ⟨p, -, rfl⟩ := List.mem_map.mp hf
        rfl
      · obtain ⟨name, hname, -⟩ := hothers f hf
        rw [hname]
        rfl
  | array items => exact array_record?_eq_some_iff
  | _ => simp [record?, IsRecordOf]

/-! ## Other values -/

theorem text?_eq_some_iff {s : String} : v.text? = some s ↔ v = text s := by
  cases v <;> simp [text?, text]

theorem int64?_eq_some_iff {m : Int64} :
    v.int64? = some m ↔ ∃ n : Numeral, v = number n ∧ n.int64? = some m := by
  cases v <;> simp [int64?]

theorem items?_eq_some_iff {items : List Json} : v.items? = some items ↔ v = array items := by
  cases v <;> simp [items?]

theorem variant?_eq_name_iff : v.variant? = some (name, none) ↔ v = text name := by
  constructor
  · intro h
    unfold variant? at h
    split at h
    all_goals cases h
    rfl
  · rintro rfl
    rfl

theorem variant?_eq_content_iff {content : Json} :
    v.variant? = some (name, some content) ↔ v = record [(name, content)] := by
  constructor
  · intro h
    unfold variant? at h
    split at h
    all_goals cases h
    rfl
  · rintro rfl
    rfl

end QueryEngine.Json
