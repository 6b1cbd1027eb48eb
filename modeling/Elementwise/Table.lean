/-!
# Tables in insertion order

Named entries that keep the order in which their names were first inserted. Inserting under a name
that is already there replaces the entry in its place, so positions never change.
-/

namespace Elementwise

/-- Named entries in the order in which their names were first inserted. -/
structure Table (α : Type) where
  entries : List (String × α) := []

namespace Table

variable {α : Type}

/-- The entry of a name. -/
def get? (t : Table α) (name : String) : Option α :=
  t.entries.lookup name

/-- The position of a name. -/
def index? (t : Table α) (name : String) : Option Nat :=
  t.entries.findIdx? fun entry => entry.1 == name

/-- The entry at a position, with its name. -/
def at? (t : Table α) (i : Nat) : Option (String × α) :=
  t.entries[i]?

/-- The number of entries. -/
def size (t : Table α) : Nat :=
  t.entries.length

/-- Whether there is no entry. -/
def isEmpty (t : Table α) : Bool :=
  t.entries.isEmpty

/-- The names, in order. -/
def names (t : Table α) : List String :=
  t.entries.map Prod.fst

/-- The entries without their names, in order. -/
def values (t : Table α) : List α :=
  t.entries.map Prod.snd

/-- Whether a name has an entry. -/
def contains (t : Table α) (name : String) : Bool :=
  (t.get? name).isSome

/-- Change the entry at a position; nothing changes beyond the end. -/
def modifyAt (t : Table α) (i : Nat) (f : α → α) : Table α :=
  ⟨t.entries.modify i fun (name, a) => (name, f a)⟩

/-- Put an entry in the place of its name, or at the end if the name is new. -/
def insert (t : Table α) (name : String) (a : α) : Table α :=
  match t.index? name with
  | some i => t.modifyAt i fun _ => a
  | none => ⟨t.entries ++ [(name, a)]⟩

/-- The table of a list of named entries, inserted one after another. -/
def ofList (entries : List (String × α)) : Table α :=
  entries.foldl (fun t (name, a) => t.insert name a) {}

end Table

end Elementwise
