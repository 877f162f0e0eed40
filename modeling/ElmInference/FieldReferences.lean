import ElmInference.Assoc

/-!
# Where record fields were seen

Every record type remembers, field by field, the source positions that contributed to it. Fields
stand in order of first sighting, and so do the positions of one field; a position is kept once.
-/

namespace ElmInference

/-- Source positions of the fields of a record. -/
structure FieldReferences where
  entries : Assoc Name (List Nat) := []
deriving DecidableEq, Inhabited

namespace FieldReferences

def empty : FieldReferences := ⟨[]⟩

def isEmpty (r : FieldReferences) : Bool := r.entries.isEmpty

/-- The positions at which a field was seen. -/
def get (r : FieldReferences) (field : Name) : List Nat :=
  (Assoc.get? r.entries field).getD []

/-- A list of positions with one more sighting. -/
def see (positions : List Nat) (pos : Nat) : List Nat :=
  if pos ∈ positions then positions else positions ++ [pos]

/-- Entries with one more sighting of a field. -/
def addEntry : Assoc Name (List Nat) → Name → Nat → Assoc Name (List Nat)
  | [], field, pos => [(field, [pos])]
  | (name, positions) :: rest, field, pos =>
    if name = field then (name, see positions pos) :: rest
    else (name, positions) :: addEntry rest field pos

/-- Records that a field was seen at a position. -/
def add (r : FieldReferences) (field : Name) (pos : Nat) : FieldReferences :=
  ⟨addEntry r.entries field pos⟩

def extend (r other : FieldReferences) : FieldReferences :=
  other.entries.foldl (fun acc entry => entry.2.foldl (fun acc pos => acc.add entry.1 pos) acc) r

/-- The sightings of the first table followed by those of the second. An empty side leaves the other
one untouched. -/
def merge (r other : FieldReferences) : FieldReferences :=
  if other.isEmpty then r
  else if r.isEmpty then other
  else r.extend other

@[simp] theorem merge_empty (r : FieldReferences) : r.merge empty = r := by
  simp [merge, empty, isEmpty]

@[simp] theorem empty_merge (r : FieldReferences) : empty.merge r = r := by
  unfold merge
  split
  · next h =>
    obtain ⟨entries⟩ := r
    simp_all [isEmpty, empty]
  · rfl

end FieldReferences

end ElmInference
