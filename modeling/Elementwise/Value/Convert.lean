import Elementwise.Value.Basic

/-!
# Conversion of values

A scalar converts to every scalar type, fills a vector, or stands on the diagonal of a matrix;
arrays convert component by component to arrays of their size.
-/

namespace Elementwise.Value

/-- A component converted to a kind. -/
def castItem (kind : ScalarKind) (v : Value) : Value := scalar (v.number.cast kind)

/-- The square matrix with one entry on the diagonal and another elsewhere. -/
def diagonal (size : Nat) (entry other : Value) : Value :=
  matrix ((List.range (size * size)).map fun i => if i / size = i % size then entry else other)

/-- The value converted to a type, if its shape allows it. -/
def convert? (v : Value) (goal : Ty) : Option Value :=
  if v.ty = goal then some v else
  match v, goal with
  | vector items, .vector kind n =>
    if items.length = n.toNat then some (vector (items.map (castItem kind))) else none
  | matrix items, .matrix kind n =>
    if items.length = n.toNat * n.toNat then some (matrix (items.map (castItem kind))) else none
  | scalar s, .scalar kind => some (scalar (s.cast kind))
  | scalar s, .vector kind n => some (vector (List.replicate n.toNat (scalar (s.cast kind))))
  | scalar s, .matrix kind n => some (diagonal n.toNat (scalar (s.cast kind)) (scalar kind.zero))
  | _, _ => none

/-- The value converted to a type, or the zero of the type if its shape does not allow it. -/
def convert (v : Value) (goal : Ty) : Value := (v.convert? goal).getD (zero goal)

end Elementwise.Value
