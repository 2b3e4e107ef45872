import Betweenness.Error
import Std.Data.HashMap

/-!
# Numberings of vertices

Searches run on the indices `0, …, n - 1`; callers speak of ids. A `Numbering` relates the two:
either every index is its own id, or an `IdTable` translates.
-/

namespace Betweenness

/-! ### Tables of identifiers

An `IdTable` numbers vertex ids `0, 1, 2, …` in the order in which they are registered. It keeps
both directions: a hash map from ids to indices and the array of ids by index. -/

/-- A numbering of ids by order of registration, with look-up in both directions. -/
structure IdTable where
  /-- The index of each registered id. -/
  indices : Std.HashMap Nat Nat
  /-- The registered ids by index. -/
  ids : Array Nat

namespace IdTable

/-- The table without ids. -/
def empty : IdTable := ⟨∅, #[]⟩

/-- The number of registered ids. -/
def size (t : IdTable) : Nat := t.ids.size

/-- Whether no id is registered. -/
def isEmpty (t : IdTable) : Bool := t.ids.isEmpty

/-- The index of an id, if it is registered. -/
def indexOf? (t : IdTable) (id : Nat) : Option Nat := t.indices[id]?

/-- The id at an index, if there is one. -/
def idAt? (t : IdTable) (index : Nat) : Option Nat := t.ids[index]?

/-- A change of a table that may fail. What has been written before it fails stays written. -/
abbrev Change := ExceptT Error (StateM IdTable)

/-- The next free index, unless the indices are used up. -/
def nextIndex : Change Nat := do
  let t ← get
  if maxIndex < t.size then throw .tooManyVertices else return t.size

/-- Register a new id under the next free index, in both directions. An id that is registered
already is refused. -/
def registerNew (id : Nat) : Change Nat := do
  let index ← nextIndex
  if (← get).indices.contains id then throw (.duplicateVertex id)
  modify fun t => { t with indices := t.indices.insert id index }
  modify fun t => { t with ids := t.ids.push id }
  return index

/-- The index of an id, which is registered first if it is new. -/
def register (id : Nat) : Change Nat := do
  match (← get).indexOf? id with
  | some index => return index
  | none => registerNew id

/-- The answer to a change, and the table that it leaves, also where it fails. -/
def apply {α : Type} (t : IdTable) (change : Change α) : Except Error α × IdTable :=
  change.run.run t

/-- A table with one more id, which must be new, and the index of the id. -/
def insertNew (t : IdTable) (id : Nat) : Except Error (Nat × IdTable) :=
  let (answer, t) := t.apply (registerNew id)
  (·, t) <$> answer

/-- A table with an id, which may be there already, and the index of the id. -/
def insert (t : IdTable) (id : Nat) : Except Error (Nat × IdTable) :=
  let (answer, t) := t.apply (register id)
  (·, t) <$> answer

/-- Register new ids in turn; the first repeated one is refused. -/
def insertAllNew (t : IdTable) (ids : List Nat) : Except Error IdTable :=
  ids.foldlM (fun t id => return (← t.insertNew id).2) t

/-- Register those of the ids that are new, in turn. -/
def insertAll (t : IdTable) (ids : List Nat) : Except Error IdTable :=
  ids.foldlM (fun t id => return (← t.insert id).2) t

/-- The table of a list of distinct ids; the first repeated one is refused. -/
def ofIds (ids : List Nat) : Except Error IdTable := empty.insertAllNew ids

end IdTable

/-! ### Numberings

Indices are 32 bits wide. An identity numbering of more than `2 ^ 32` vertices can be written
down, and then `indexOf` keeps the low 32 bits of an id; no graph has such a numbering. -/

/-- How vertex ids and indices correspond. -/
inductive Numbering where
  /-- Every index below the count is its own id. -/
  | identity (vertexCount : Nat)
  /-- A table gives the index of each id. -/
  | table (ids : IdTable)

namespace Numbering

/-- The number of vertices. -/
def vertexCount : Numbering → Nat
  | identity count => count
  | table ids => ids.size

/-- Whether ids differ from indices. -/
def isTable : Numbering → Bool
  | identity _ => false
  | table _ => true

/-- The index of an id. -/
def indexOf (n : Numbering) (id : Nat) : Except Error Nat :=
  match n with
  | identity count => if id < count then .ok (id % (maxIndex + 1)) else .error (.vertexNotFound id)
  | table ids =>
    match ids.indexOf? id with
    | some index => .ok index
    | none => .error (.vertexNotFound id)

/-- The id of an index. An identity numbering gives every index its own, also beyond the count. -/
def idOf? (n : Numbering) (index : Nat) : Option Nat :=
  match n with
  | identity _ => some index
  | table ids => ids.idAt? index

/-- The indices of a list of ids in the same order, repeats included. The first id that is not a
vertex is reported. -/
def translate (n : Numbering) (ids : List Nat) : Except Error (List Nat) := ids.mapM n.indexOf

end Numbering

end Betweenness
