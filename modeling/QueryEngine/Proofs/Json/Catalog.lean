import Mathlib.Data.List.Forall2
import QueryEngine.Json.Catalog
import QueryEngine.Proofs.Json.RoundTrip

/-!
# The catalog written and read back

Whatever the catalog writes, it reads back, the names of columns included, which decide nothing else
about a schema. It also reads what it never writes: a record may have its fields in any order and
among others, or be an array of their values, and a type may be a variant with a null in it.
`Spelling` says for each kind of data which values of JSON stand for it. It is what reading accepts
(`ofJson?_eq_some_iff`) and what writing chooses from (`spelling_toJson`).
-/

namespace QueryEngine

/-! ## Column types -/

/-- The name of a type, with or without a null in it. -/
def ColumnType.Spelling (t : ColumnType) (v : Json) : Prop :=
  v = .text t.variantName ∨ v = .record [(t.variantName, .null)]

theorem ColumnType.ofVariantName?_eq_some_iff {t : ColumnType} {name : String} :
    ofVariantName? name = some t ↔ name = t.variantName := by
  constructor
  · intro h
    unfold ofVariantName? at h
    split at h
    all_goals cases h
    all_goals rfl
  · rintro rfl
    cases t <;> rfl

theorem ColumnType.ofJson?_eq_some_iff {t : ColumnType} {v : Json} :
    ofJson? v = some t ↔ t.Spelling v := by
  constructor
  · intro h
    unfold ofJson? at h
    split at h
    · next hvariant =>
      rw [ofVariantName?_eq_some_iff] at h
      exact .inl (h ▸ Json.variant?_eq_name_iff.mp hvariant)
    · next hvariant =>
      rw [ofVariantName?_eq_some_iff] at h
      exact .inr (h ▸ Json.variant?_eq_content_iff.mp hvariant)
    · cases h
  · rintro (rfl | rfl)
    all_goals exact ofVariantName?_eq_some_iff.mpr rfl

theorem ColumnType.spelling_toJson (t : ColumnType) : t.Spelling t.toJson :=
  .inl rfl

theorem ColumnType.plain_toJson (t : ColumnType) : t.toJson.Plain :=
  .text _

/-! ## Columns and schemas -/

/-- A record of the name and of the type. -/
def Column.Spelling (c : Column) (v : Json) : Prop :=
  ∃ type, v.IsRecordOf [("name", .text c.name), ("data_type", type)] ∧ c.type.Spelling type

theorem Column.ofJson?_eq_some_iff {c : Column} {v : Json} :
    ofJson? v = some c ↔ c.Spelling v := by
  have hrecord (name type : Json) : v.record? ["name", "data_type"] = some [some name, some type]
      ↔ v.IsRecordOf [("name", name), ("data_type", type)] :=
    Json.record?_eq_some_iff [("name", name), ("data_type", type)] (by simp)
  constructor
  · intro h
    unfold ofJson? at h
    split at h
    · next name type hparts =>
      split at h
      · next n t hname htype =>
        cases h
        rw [Json.text?_eq_some_iff.mp hname] at hparts
        exact ⟨type, (hrecord _ _).mp hparts, ColumnType.ofJson?_eq_some_iff.mp htype⟩
      · cases h
    · cases h
  · rintro ⟨type, hparts, htype⟩
    rw [ofJson?, (hrecord _ _).mpr hparts]
    dsimp only
    rw [ColumnType.ofJson?_eq_some_iff.mpr htype]
    rfl

theorem Column.spelling_toJson (c : Column) : c.Spelling c.toJson :=
  ⟨c.type.toJson, Json.isRecordOf_record _, c.type.spelling_toJson⟩

theorem Column.plain_toJson (c : Column) : c.toJson.Plain :=
  .record (by simpa using ⟨.text c.name, c.type.plain_toJson⟩)

theorem Column.mapM_ofJson?_eq_some_iff {items : List Json} {columns : List Column} :
    items.mapM ofJson? = some columns ↔ List.Forall₂ Spelling columns items := by
  induction items generalizing columns with
  | nil => cases columns <;> simp
  | cons v items ih =>
    cases columns <;> simp [Option.bind_eq_some_iff, ofJson?_eq_some_iff, ih]

/-- A record of the columns, as an array. -/
def Schema.Spelling (s : Schema) (v : Json) : Prop :=
  ∃ items, v.IsRecordOf [("columns", .array items)] ∧ List.Forall₂ Column.Spelling s.columns items

theorem Schema.ofJson?_eq_some_iff {s : Schema} {v : Json} :
    ofJson? v = some s ↔ s.Spelling v := by
  have hrecord (columns : Json) : v.record? ["columns"] = some [some columns]
      ↔ v.IsRecordOf [("columns", columns)] :=
    Json.record?_eq_some_iff [("columns", columns)] (by simp)
  constructor
  · intro h
    unfold ofJson? at h
    split at h
    · next columns hparts =>
      obtain ⟨cs, hcs, rfl⟩ := Option.map_eq_some_iff.mp h
      obtain ⟨items, hitems, hcolumns⟩ := Option.bind_eq_some_iff.mp hcs
      rw [Json.items?_eq_some_iff.mp hitems] at hparts
      exact ⟨items, (hrecord _).mp hparts, Column.mapM_ofJson?_eq_some_iff.mp hcolumns⟩
    · cases h
  · rintro ⟨items, hparts, hcolumns⟩
    rw [ofJson?, (hrecord _).mpr hparts]
    dsimp only
    rw [Json.items?_eq_some_iff.mpr rfl, Option.bind_some,
      Column.mapM_ofJson?_eq_some_iff.mpr hcolumns]
    rfl

theorem Schema.spelling_toJson (s : Schema) : s.Spelling s.toJson :=
  ⟨_, Json.isRecordOf_record _,
    List.forall₂_map_right_iff.mpr (List.forall₂_same.mpr fun c _ ↦ c.spelling_toJson)⟩

theorem Schema.plain_toJson (s : Schema) : s.toJson.Plain :=
  .record (List.forall_mem_singleton.mpr
    (.array (List.forall_mem_map.mpr fun c _ ↦ c.plain_toJson)))

/-! ## Values -/

/-- A variant with the number or the text in it. -/
def Value.Spelling : Value → Json → Prop
  | .integer m, v => ∃ n : Numeral, n.int64? = some m ∧ v = .record [("Integer", .number n)]
  | .text s, v => v = .record [("Text", .text s)]

theorem Value.ofJson?_eq_some_iff {a : Value} {v : Json} : ofJson? v = some a ↔ a.Spelling v := by
  constructor
  · intro h
    unfold ofJson? at h
    split at h
    · next content hvariant =>
      obtain ⟨m, hm, rfl⟩ := Option.map_eq_some_iff.mp h
      obtain ⟨n, rfl, hn⟩ := Json.int64?_eq_some_iff.mp hm
      exact ⟨n, hn, Json.variant?_eq_content_iff.mp hvariant⟩
    · next content hvariant =>
      obtain ⟨s, hs, rfl⟩ := Option.map_eq_some_iff.mp h
      obtain rfl := Json.text?_eq_some_iff.mp hs
      exact Json.variant?_eq_content_iff.mp hvariant
    · cases h
  · cases a with
    | integer m =>
      rintro ⟨n, hn, rfl⟩
      exact Option.map_eq_some_iff.mpr ⟨m, hn, rfl⟩
    | text s =>
      rintro rfl
      rfl

theorem Value.spelling_toJson (a : Value) : a.Spelling a.toJson := by
  cases a with
  | integer m => exact ⟨.ofInt m.toInt, Numeral.int64?_ofInt m, rfl⟩
  | text s => rfl

theorem Value.plain_toJson (a : Value) : a.toJson.Plain := by
  cases a with
  | integer m => exact .record (List.forall_mem_singleton.mpr (.integer m.toInt))
  | text s => exact .record (List.forall_mem_singleton.mpr (.text s))

/-! ## Round trips -/

/-- Data of some kind come back from JSON as they were. -/
structure RoundTrips {α : Type} (toJson : α → Json) (ofJson? : Json → Option α)
    (Spelling : α → Json → Prop) : Prop where
  /-- What was written is read back. -/
  write_read : ∀ a, (Json.parse? (toJson a).render).bind ofJson? = some a
  /-- The documents that are read are those that hold a spelling. -/
  read_iff : ∀ document a, (Json.parse? document).bind ofJson? = some a
    ↔ ∃ v, Json.parse? document = some v ∧ Spelling a v
  /-- A spelling is read from its printed form. -/
  spelling_read : ∀ a v, Spelling a v → v.Plain → (Json.parse? v.render).bind ofJson? = some a
  /-- Writing what was read changes nothing. -/
  settled : ∀ document a, (Json.parse? document).bind ofJson? = some a →
    (Json.parse? (toJson a).render).bind ofJson? = (Json.parse? document).bind ofJson?

theorem RoundTrips.of_spelling {α : Type} {toJson : α → Json} {ofJson? : Json → Option α}
    {Spelling : α → Json → Prop} (reads : ∀ {a v}, ofJson? v = some a ↔ Spelling a v)
    (spells : ∀ a, Spelling a (toJson a)) (plain : ∀ a, (toJson a).Plain) :
    RoundTrips toJson ofJson? Spelling := by
  have hread (a v) (hv : Spelling a v) (plain : v.Plain) :
      (Json.parse? v.render).bind ofJson? = some a := by
    rw [Json.parse?_render plain, Option.bind_some, reads.mpr hv]
  have hwrite (a) : (Json.parse? (toJson a).render).bind ofJson? = some a :=
    hread a (toJson a) (spells a) (plain a)
  exact ⟨hwrite, fun document a ↦ by simp only [Option.bind_eq_some_iff, reads], hread,
    fun document a hdocument ↦ by rw [hwrite, hdocument]⟩

/-- **What the catalog writes, it reads back.** Every value, type, column and schema comes back from
its document as it was, and the columns of a schema come back with their names. The documents that
are read are those that hold a spelling, and whatever was read from one of them is read again from
what is written of it. -/
theorem catalog_round_trips :
    RoundTrips Value.toJson Value.ofJson? Value.Spelling ∧
    RoundTrips ColumnType.toJson ColumnType.ofJson? ColumnType.Spelling ∧
    RoundTrips Column.toJson Column.ofJson? Column.Spelling ∧
    RoundTrips Schema.toJson Schema.ofJson? Schema.Spelling :=
  ⟨.of_spelling Value.ofJson?_eq_some_iff Value.spelling_toJson Value.plain_toJson,
    .of_spelling ColumnType.ofJson?_eq_some_iff ColumnType.spelling_toJson ColumnType.plain_toJson,
    .of_spelling Column.ofJson?_eq_some_iff Column.spelling_toJson Column.plain_toJson,
    .of_spelling Schema.ofJson?_eq_some_iff Schema.spelling_toJson Schema.plain_toJson⟩

/-- A schema as an array of its only field. The first of its columns is an array as well, and the
second one is an object with its fields in reverse and another one between them. -/
def shuffled : String :=
  "[[ [\"\\u0041\", \"Integer\"], \x7b\"data_type\": \x7b\"Text\": null\x7d, " ++
    "\"size\": -0, \"name\": \"\\ud83d\\ude00\"\x7d ]]"

/-- The schema is not written as it was read, but it is read the same again. -/
theorem catalog_round_trips_shuffled :
    (Json.parse? shuffled).bind Schema.ofJson? = some ⟨[⟨"A", .integer⟩, ⟨"😀", .text⟩]⟩ ∧
    (Json.parse? (Schema.toJson ⟨[⟨"A", .integer⟩, ⟨"😀", .text⟩]⟩).render).bind Schema.ofJson?
      = some ⟨[⟨"A", .integer⟩, ⟨"😀", .text⟩]⟩ := by
  have hread : (Json.parse? shuffled).bind Schema.ofJson?
      = some ⟨[⟨"A", .integer⟩, ⟨"😀", .text⟩]⟩ := by
    decide +kernel
  exact ⟨hread, (catalog_round_trips.2.2.2.settled shuffled _ hread).trans hread⟩

end QueryEngine
