import ElmInference.Store.Solutions
import ElmInference.Ty.Subst

/-!
# The store of an inference pass

A store owns the variables of one pass with their solutions, and its growing records. Reading a type
means reading it through the store, and the walks that do so share one scheme: a walk is structural
inside a type and spends one crossing whenever it goes on behind a solved variable or inside a
growing record. A walk that never comes back to where it was makes at most as many crossings as
there are variables and records, so `Store.crossings` is all that an acyclic store needs.
-/

namespace ElmInference

/-- A record that can still gain fields. -/
structure GrowingRecord where
  fields : List (Name × Ty)
  base : Ty
  refs : FieldReferences := .empty
deriving Inhabited

/-- The variables and growing records of one pass. -/
structure Store where
  solutions : Solutions Ty := {}
  records : Array GrowingRecord := #[]
deriving Inhabited

namespace Store

def size (s : Store) : Nat := s.solutions.size

def isEmpty (s : Store) : Bool := s.solutions.isEmpty

def solution (s : Store) (id : VarId) : Except Fault (Option Ty) :=
  s.solutions.get id

def record (s : Store) (id : RecordId) : Except Fault GrowingRecord :=
  match s.records[id]? with
  | some r => .ok r
  | none => .error (.missingRecord id)

def setRecord (s : Store) (id : RecordId) (r : GrowingRecord) : Store :=
  { s with records := s.records.setIfInBounds id r }

def fresh (s : Store) (name : Name) (rigid : Bool) : TyVar × Store :=
  let (id, solutions) := s.solutions.fresh
  (⟨id, name, rigid⟩, { s with solutions })

def bind (s : Store) (v : TyVar) (t : Ty) : Except Fault Store :=
  (s.solutions.set v.id t).map (fun solutions => { s with solutions })

/-- Allocates a growing record with known references. -/
def allocate (s : Store) (r : GrowingRecord) : Ty × Store :=
  (.growing s.records.size, { s with records := s.records.push r })

/-- Allocates a growing record that has not been seen anywhere yet. -/
def newRecord (s : Store) (fields : List (Name × Ty)) (base : Ty) : Ty × Store :=
  s.allocate { fields, base }

def addReference (s : Store) (id : RecordId) (field : Name) (pos : Nat) : Except Fault Store :=
  (s.record id).map (fun r => s.setRecord id { r with refs := r.refs.add field pos })

/-- How many crossings a walk through an acyclic store can make. -/
def crossings (s : Store) : Nat :=
  s.size + s.records.size

/-- How many nodes the types of a store have. -/
def weight (s : Store) : Nat :=
  s.solutions.entries.foldl (fun acc t => acc + 1 + Ty.sizeBase t) 0 +
    s.records.foldl (fun acc r => acc + 1 + Ty.sizeFields r.fields + r.base.size) 0

end Store

end ElmInference
