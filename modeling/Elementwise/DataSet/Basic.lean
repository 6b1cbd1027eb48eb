import Elementwise.Element.Basic
import Elementwise.Table

/-!
# Data sets

What a host keeps its elements in: named fields of one type each. A program reaches a field by its
handle, the position among the fields, which stays what it is.
-/

namespace Elementwise

/-- Why a field cannot be reached. -/
inductive AccessError where
  | missing (name : String)
  | typeMismatch (name : String) (expected found : Ty)
  | unsupported (name : String) (ty : Ty) (reason : String)
  deriving DecidableEq, Repr

/-- The text of an error. -/
def AccessError.message : AccessError → String
  | missing name => "'" ++ name ++ "' does not exist"
  | typeMismatch name expected found =>
    "'" ++ name ++ "' holds " ++ found.text ++ ", expected " ++ expected.text
  | unsupported name ty reason =>
    "'" ++ name ++ "' cannot be created as " ++ ty.text ++ ": " ++ reason

/-- A position among the fields of a data set. -/
abbrev Handle := Nat

/-- The handle of a field of a type, in a table of fields. -/
def Table.handle {F : Type} (tyOf : F → Ty) (t : Table F) (name : String) (ty : Ty) : Except AccessError Handle :=
  match t.index? name, t.get? name with
  | some i, some field => if tyOf field = ty then .ok i else .error (.typeMismatch name ty (tyOf field))
  | _, _ => .error (.missing name)

/-- A data set `D` with elements `E`. -/
class DataSet (D : Type) (E : outParam Type) where
  /-- The handle of a field of a type. -/
  handle : D → String → Ty → Except AccessError Handle
  /-- The handle of a field of a type; one that is missing is created with a value everywhere. -/
  create : D → String → Ty → Value → Except AccessError (Handle × D)
  /-- The value of a field at an element. -/
  read : D → Handle → E → Value
  /-- Change the value of a field at an element. -/
  write : D → Handle → E → Value → D
  /-- The voxel of an element, if it is one. -/
  coord : E → Option Coord

end Elementwise
