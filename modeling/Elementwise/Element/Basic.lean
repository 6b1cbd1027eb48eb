import Elementwise.Table
import Elementwise.Value.Basic

/-!
# Elements

What a program runs on: a point or a voxel, with one value for every field that the program uses,
and the named values that the host supplies at compile time.
-/

namespace Elementwise

/-- What a program runs over. -/
inductive Target where
  /-- Once per point; fields are point attributes. -/
  | points
  /-- Once per voxel; fields are grids. -/
  | volumes
  deriving DecidableEq, Repr

/-- The name of a target. -/
def Target.name : Target → String
  | .points => "points"
  | .volumes => "volumes"

/-- The stored name of a target. -/
def Target.tag : Target → String
  | .points => "Points"
  | .volumes => "Volumes"

/-- What a field is called for a target. -/
def Target.fieldName : Target → String
  | .points => "attribute"
  | .volumes => "volume"

/-- A voxel coordinate. -/
structure Coord where
  x : Int32
  y : Int32
  z : Int32
  deriving DecidableEq, Repr

/-- Lexicographic order of coordinates. -/
def Coord.before (a b : Coord) : Bool :=
  a.x < b.x || (a.x == b.x && (a.y < b.y || (a.y == b.y && a.z < b.z)))

/-- The values one element sees: one slot for each field, which slots were written, and the voxel
for an element of a volume. -/
structure ElementState where
  values : Array Value
  written : Array Bool
  coord : Option Coord

namespace ElementState

/-- An element with nothing written yet. -/
def start (values : Array Value) (coord : Option Coord) : ElementState :=
  ⟨values, Array.replicate values.size false, coord⟩

/-- The value of a slot. -/
def read? (s : ElementState) (slot : Nat) : Option Value := s.values[slot]?

/-- Write a slot; there is nothing to write beyond the last one. -/
def write (s : ElementState) (slot : Nat) (v : Value) : ElementState :=
  if slot < s.values.size then
    { s with values := s.values.setIfInBounds slot v, written := s.written.setIfInBounds slot true }
  else s

/-- The slots that were written, with their values. -/
def changes (s : ElementState) : List (Nat × Value) :=
  (s.values.toList.zip s.written.toList).zipIdx.filterMap fun ((v, written), slot) =>
    if written then some (slot, v) else none

end ElementState

/-- Named values of the host that programs read at compile time. -/
abbrev CustomData := Table Value

end Elementwise
