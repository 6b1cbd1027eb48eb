import Elementwise.DataSet.Basic

/-!
# Points

A fixed number of points with attributes, each a column of one value per point.
-/

namespace Elementwise

/-- The values of an attribute. -/
structure Column where
  ty : Ty
  values : Array Value

/-- A fixed number of points with attributes. -/
structure PointSet where
  size : Nat
  columns : Table Column := {}

namespace PointSet

/-- Whether there is no point. -/
def isEmpty (d : PointSet) : Bool := d.size == 0

/-- Put an attribute that is the same everywhere. -/
def setUniform (d : PointSet) (name : String) (value : Value) : PointSet :=
  { d with columns := d.columns.insert name ⟨value.ty, Array.replicate d.size value⟩ }

/-- Put an attribute with a value for each point; the rest is zero, and values beyond the last
point are dropped. -/
def setValues (d : PointSet) (name : String) (ty : Ty) (values : List Value) : PointSet :=
  let column := values.take d.size ++ List.replicate (d.size - values.length) (.zero ty)
  { d with columns := d.columns.insert name ⟨ty, column.toArray⟩ }

/-- The column of an attribute. -/
def column? (d : PointSet) (name : String) : Option Column := d.columns.get? name

/-- The handle of an attribute of a type. -/
def handle (d : PointSet) (name : String) (ty : Ty) : Except AccessError Handle :=
  d.columns.handle Column.ty name ty

/-- The handle of an attribute of a type; one that is missing is created. -/
def create (d : PointSet) (name : String) (ty : Ty) (value : Value) : Except AccessError (Handle × PointSet) :=
  if ty = .void then .error (.unsupported name ty "attributes cannot be void")
  else
    let d := if d.columns.contains name then d
      else { d with columns := d.columns.insert name ⟨ty, Array.replicate d.size value⟩ }
    (d.handle name ty).map fun i => (i, d)

/-- The value of an attribute at a point; there is none beyond the last attribute or point. -/
def read (d : PointSet) (i : Handle) (point : Nat) : Value :=
  ((d.columns.at? i).bind fun (_, column) => column.values[point]?).getD .void

/-- Change the value of an attribute at a point. -/
def write (d : PointSet) (i : Handle) (point : Nat) (value : Value) : PointSet :=
  { d with columns := d.columns.modifyAt i fun column =>
      { column with values := column.values.setIfInBounds point value } }

instance : DataSet PointSet Nat := ⟨handle, create, read, write, fun _ => none⟩

end PointSet

end Elementwise
