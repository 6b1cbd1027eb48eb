import Elementwise.DataSet.Basic
import Elementwise.Registry.Basic

/-!
# Binding

The fields of a program and the fields of a data set: every entry of the registry gets a handle. A
field that is missing is created if the program writes it. What was created before an entry failed
to bind stays created.
-/

namespace Elementwise

/-- Why a field of a program cannot be bound. -/
inductive BindingError where
  | missingReadOnly (target : Target) (name : String) (ty : Ty)
  | typeMismatch (target : Target) (name : String) (expected found : Ty)
  | create (target : Target) (name : String) (cause : AccessError)
  deriving DecidableEq, Repr

/-- The text of an error. -/
def BindingError.message : BindingError → String
  | missingReadOnly target name ty =>
    "required read-only " ++ target.fieldName ++ " '" ++ name ++ "' (" ++ ty.text ++ ") is missing"
  | typeMismatch target name expected found =>
    target.fieldName ++ " '" ++ name ++ "' is " ++ found.text ++ " in the data set but the program uses " ++
      expected.text
  | create target name cause =>
    "could not create " ++ target.fieldName ++ " '" ++ name ++ "': " ++ cause.message

/-- A data set with the handles of the entries bound so far and the names that were created. -/
structure Binding (D : Type) where
  data : D
  handles : List Handle := []
  created : List String := []

namespace Binding

variable {D E : Type} [DataSet D E]

/-- Bind one entry. -/
def entry (target : Target) (b : Binding D) (e : Entry) : Except BindingError (Binding D) :=
  match DataSet.handle b.data e.name e.ty with
  | .ok handle => .ok { b with handles := b.handles ++ [handle] }
  | .error (.missing _) =>
    if e.writable then
      match DataSet.create b.data e.name e.ty (.zero e.ty) with
      | .ok (handle, data) =>
        .ok { data, handles := b.handles ++ [handle], created := b.created ++ [e.name] }
      | .error cause => .error (.create target e.name cause)
    else .error (.missingReadOnly target e.name e.ty)
  | .error (.typeMismatch _ _ found) => .error (.typeMismatch target e.name e.ty found)
  | .error (.unsupported name ty reason) => .error (.create target e.name (.unsupported name ty reason))

/-- Bind entries one after another, up to the first that fails. -/
def entries (target : Target) (b : Binding D) : List Entry → Binding D × Option BindingError
  | [] => (b, none)
  | e :: rest =>
    match b.entry target e with
    | .ok b => b.entries target rest
    | .error err => (b, some err)

/-- Bind every entry of a registry. -/
def ofRegistry (r : Registry) (data : D) : Binding D × Option BindingError :=
  entries r.target { data } r.list

end Binding

/-- For each slot the handle to write back to, if the program writes it. -/
def Registry.writeTargets (r : Registry) (handles : List Handle) : List (Option Handle) :=
  (r.list.zip handles).map fun (e, handle) => if e.writable then some handle else none

end Elementwise
