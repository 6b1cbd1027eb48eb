import Elementwise.DataSet.Basic

/-!
# Volumes

Sparse grids: a value for each active voxel, and a background value everywhere else. The active
voxels are kept in the order of their coordinates.
-/

namespace Elementwise

/-- A sparse grid. -/
structure Grid where
  ty : Ty
  background : Value
  voxels : List (Coord × Value) := []

namespace Grid

/-- Put a value at a coordinate of an ordered list of voxels. -/
def insertVoxel (coord : Coord) (value : Value) : List (Coord × Value) → List (Coord × Value)
  | [] => [(coord, value)]
  | (c, v) :: rest =>
    if c.before coord then (c, v) :: insertVoxel coord value rest
    else if c = coord then (coord, value) :: rest
    else (coord, value) :: (c, v) :: rest

/-- Give a voxel a value, which makes it active. -/
def set (g : Grid) (coord : Coord) (value : Value) : Grid :=
  { g with voxels := insertVoxel coord value g.voxels }

/-- The value of a voxel. -/
def get (g : Grid) (coord : Coord) : Value := (g.voxels.lookup coord).getD g.background

/-- The active voxels, in order. -/
def active (g : Grid) : List Coord := g.voxels.map Prod.fst

end Grid

/-- Named sparse grids. -/
structure VolumeSet where
  grids : Table Grid := {}

namespace VolumeSet

/-- Put an empty grid. -/
def setGrid (d : VolumeSet) (name : String) (background : Value) : VolumeSet :=
  ⟨d.grids.insert name { ty := background.ty, background }⟩

/-- A grid by its name. -/
def grid? (d : VolumeSet) (name : String) : Option Grid := d.grids.get? name

/-- Give a voxel of a grid a value, and tell whether there is such a grid. -/
def setVoxel (d : VolumeSet) (name : String) (coord : Coord) (value : Value) : Bool × VolumeSet :=
  match d.grids.index? name with
  | some i => (true, ⟨d.grids.modifyAt i fun g => g.set coord value⟩)
  | none => (false, d)

/-- The handle of a grid of a type. -/
def handle (d : VolumeSet) (name : String) (ty : Ty) : Except AccessError Handle := d.grids.handle Grid.ty name ty

/-- The handle of a grid of a type; one that is missing is created empty. -/
def create (d : VolumeSet) (name : String) (ty : Ty) (background : Value) :
    Except AccessError (Handle × VolumeSet) :=
  if !ty.isNumeric then .error (.unsupported name ty "grids hold numeric values only")
  else
    let d := if d.grids.contains name then d else ⟨d.grids.insert name { ty, background }⟩
    (d.handle name ty).map fun i => (i, d)

/-- The active voxels of a grid, in order. -/
def active (d : VolumeSet) (i : Handle) : List Coord :=
  match d.grids.at? i with
  | some (_, grid) => grid.active
  | none => []

/-- The value of a grid at a voxel; there is none beyond the last grid. -/
def read (d : VolumeSet) (i : Handle) (coord : Coord) : Value :=
  match d.grids.at? i with
  | some (_, grid) => grid.get coord
  | none => .void

/-- Change the value of a grid at a voxel, which makes it active. -/
def write (d : VolumeSet) (i : Handle) (coord : Coord) (value : Value) : VolumeSet :=
  ⟨d.grids.modifyAt i fun g => g.set coord value⟩

instance : DataSet VolumeSet Coord := ⟨handle, create, read, write, some⟩

end VolumeSet

end Elementwise
