import QueryEngine.Json.Basic
import QueryEngine.Row
import QueryEngine.Statistics.Config

/-!
# The catalog in JSON

How types, columns, schemas, values and settings are written as JSON, and how they are read back.
Columns, schemas and settings are records; types and values are variants, named after what they are.
Settings may leave out fields, which then are the standard ones.
-/

namespace QueryEngine

/-! ## Column types -/

/-- The name of a type as a variant. -/
def ColumnType.variantName : ColumnType → String
  | .integer => "Integer"
  | .text => "Text"

def ColumnType.ofVariantName? : String → Option ColumnType
  | "Integer" => some .integer
  | "Text" => some .text
  | _ => none

def ColumnType.toJson (t : ColumnType) : Json :=
  .text t.variantName

/-- The type that a JSON value holds, a variant whose content is nothing or null. -/
def ColumnType.ofJson? (v : Json) : Option ColumnType :=
  match v.variant? with
  | some (name, none) | some (name, some .null) => ofVariantName? name
  | _ => none

/-! ## Columns and schemas -/

def Column.toJson (c : Column) : Json :=
  .record [("name", .text c.name), ("data_type", c.type.toJson)]

def Column.ofJson? (v : Json) : Option Column :=
  match v.record? ["name", "data_type"] with
  | some [some name, some type] =>
    match name.text?, ColumnType.ofJson? type with
    | some name, some type => some ⟨name, type⟩
    | _, _ => none
  | _ => none

def Schema.toJson (s : Schema) : Json :=
  .record [("columns", .array (s.columns.map Column.toJson))]

def Schema.ofJson? (v : Json) : Option Schema :=
  match v.record? ["columns"] with
  | some [some columns] => (columns.items?.bind fun items ↦ items.mapM Column.ofJson?).map .mk
  | _ => none

/-! ## Values -/

def Value.toJson : Value → Json
  | .integer n => .record [("Integer", .integer n.toInt)]
  | .text s => .record [("Text", .text s)]

/-- The value that a JSON value holds, a variant with content. -/
def Value.ofJson? (v : Json) : Option Value :=
  match v.variant? with
  | some ("Integer", some content) => content.int64?.map .integer
  | some ("Text", some content) => content.text?.map .text
  | _ => none

/-! ## Settings -/

def StatisticsConfig.ofJson? (v : Json) : Option StatisticsConfig :=
  match v.record? ["io_cost_per_page", "histogram_buckets"] with
  | some [cost, buckets] =>
    let cost? := match cost with
      | some cost => cost.float?
      | none => some standard.ioCostPerPage
    let buckets? := match buckets with
      | some buckets => buckets.count?
      | none => some standard.histogramBuckets
    match cost?, buckets? with
    | some cost, some buckets => some ⟨cost, buckets⟩
    | _, _ => none
  | _ => none

end QueryEngine
