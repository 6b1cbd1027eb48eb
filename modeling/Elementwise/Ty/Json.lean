import Elementwise.Json.Basic
import Elementwise.Ty.Basic

/-!
# Types as structured data

A type is stored as the name of its shape with the kind of its scalars and its size.
-/

namespace Elementwise

/-- The stored name of a kind. -/
def ScalarKind.tag : ScalarKind → String
  | bool => "Bool"
  | int16 => "Int16"
  | int32 => "Int32"
  | int64 => "Int64"
  | float => "Float"
  | double => "Double"

/-- A kind as structured data. -/
def ScalarKind.toJson (kind : ScalarKind) : Json := .ofString kind.tag

/-- The kind that is stored, if one is. -/
def ScalarKind.ofJson? (json : Json) : Option ScalarKind := do
  let (tag, content) ← json.variant?
  if Json.isUnit content then ScalarKind.all.find? fun kind => kind.tag == tag else none

namespace Ty

/-- A type as structured data. -/
def toJson : Ty → Json
  | scalar kind => .record [("Scalar", kind.toJson)]
  | vector kind n => .record [("Vector", .array [kind.toJson, .ofNat n.toNat])]
  | matrix kind n => .record [("Matrix", .array [kind.toJson, .ofNat n.toNat])]
  | string => .ofString "Str"
  | void => .ofString "Void"

/-- The kind and size of a stored array type. -/
def arrayOfJson? (json : Json) : Option (ScalarKind × UInt8) := do
  let items ← json.array?
  match items with
  | [kind, size] => do
    let kind ← ScalarKind.ofJson? kind
    let size ← size.natBelow? 256
    some (kind, UInt8.ofNat size)
  | _ => none

/-- The type that is stored, if one is. -/
def ofJson? (json : Json) : Option Ty :=
  match json.variant? with
  | some ("Scalar", some content) => (ScalarKind.ofJson? content).map scalar
  | some ("Vector", some content) => (arrayOfJson? content).map fun (kind, n) => vector kind n
  | some ("Matrix", some content) => (arrayOfJson? content).map fun (kind, n) => matrix kind n
  | some ("Str", content) => if Json.isUnit content then some string else none
  | some ("Void", content) => if Json.isUnit content then some void else none
  | _ => none

end Ty

end Elementwise
