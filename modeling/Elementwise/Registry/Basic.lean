import Elementwise.Element.Basic
import Elementwise.Ty.Json

/-!
# Registries

The fields a program uses: each name once, in the order of first use, with the type of its first
use, whether any use writes it, and the slot it has in the code.
-/

namespace Elementwise

/-- One field of a program. -/
structure Entry where
  name : String
  ty : Ty
  writable : Bool
  /-- The slot, in order of first use. -/
  index : Nat
  deriving DecidableEq, Repr

/-- The fields of a program. -/
structure Registry where
  target : Target
  entries : Table Entry := {}

namespace Registry

/-- The entry of a name. -/
def get? (r : Registry) (name : String) : Option Entry := r.entries.get? name

/-- The entry at a position. -/
def at? (r : Registry) (i : Nat) : Option Entry := (r.entries.at? i).map Prod.snd

/-- The entries, in order. -/
def list (r : Registry) : List Entry := r.entries.values

/-- The entries that are written, in order. -/
def writable (r : Registry) : List Entry := r.list.filter Entry.writable

/-- The number of entries. -/
def size (r : Registry) : Nat := r.entries.size

/-- Record one use of a field. A written field stays written; a use with another type than the
first is answered with that type. -/
def register (r : Registry) (name : String) (ty : Ty) (writable : Bool) : Except Ty Nat × Registry :=
  let entry := (r.get? name).getD ⟨name, ty, false, r.size⟩
  let entry := { entry with writable := entry.writable || writable }
  (if entry.ty = ty then .ok entry.index else .error entry.ty,
    { r with entries := r.entries.insert name entry })

end Registry

/-- An entry as structured data. -/
def Entry.toJson (e : Entry) : Json :=
  .record [
    ("name", .ofString e.name),
    ("ty", e.ty.toJson),
    ("writable", .bool e.writable),
    ("index", .ofNat e.index)]

/-- The entry that is stored, if one is. -/
def Entry.ofJson? (json : Json) : Option Entry := do
  match ← json.record? ["name", "ty", "writable", "index"] with
  | [name, ty, writable, index] => do
    let name ← name.string?
    let ty ← Ty.ofJson? ty
    let writable ← writable.bool?
    let index ← index.natBelow? 18446744073709551616
    some ⟨name, ty, writable, index⟩
  | _ => none

/-- The target that is stored, if one is. -/
def Target.ofJson? (json : Json) : Option Target := do
  let (tag, content) ← json.variant?
  if Json.isUnit content then [points, volumes].find? fun target => target.tag == tag else none

namespace Registry

/-- A registry as structured data. -/
def toJson (r : Registry) : Json :=
  .record [
    ("target", .ofString r.target.tag),
    ("entries", .record (r.entries.entries.map fun (name, e) => (name, e.toJson)))]

/-- The registry that is stored, if one is. -/
def ofJson? (json : Json) : Option Registry := do
  match ← json.record? ["target", "entries"] with
  | [target, entries] => do
    let target ← Target.ofJson? target
    let fields ← entries.fields?
    let entries ← fields.mapM fun (name, value) => (Entry.ofJson? value).map fun e => (name, e)
    some { target, entries := Table.ofList entries }
  | _ => none

end Registry

end Elementwise
