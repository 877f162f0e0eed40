import ElmInference.Store.Zonk

/-!
# Records as a list of fields

A record may be spread over a chain of bases: written records, growing records and solved variables.
`flatten` reads the chain as one list of fields and what comes after it.
-/

namespace ElmInference

/-- What a record ends in. -/
inductive Tail where
  | closed
  | opened (v : TyVar)
  | unknown
deriving Inhabited

namespace Tail

def canGrow : Tail → Bool
  | .closed => false
  | .opened v => !v.rigid
  | .unknown => true

/-- The end as the base of a record. -/
def toTy : Tail → Ty
  | .closed => .emptyRecord
  | .opened v => .var v
  | .unknown => .unknown

end Tail

/-- Every known field of a record and what it ends in. -/
structure Flattened where
  fields : List (Name × Ty)
  tail : Tail
deriving Inhabited

def Flattened.field? (f : Flattened) (name : Name) : Option Ty :=
  Assoc.get? f.fields name

namespace Store

/-- Collects fields down the chain of bases, outer fields first. -/
def flattenWith (s : Store) (follow : Ty → List (Name × Ty) → Except Fault Flattened) :
    Ty → List (Name × Ty) → Except Fault Flattened
  | .record fields none _ _, above => .ok ⟨Ty.addFields above fields, .closed⟩
  | .record fields (some base) _ _, above => flattenWith s follow base (Ty.addFields above fields)
  | .growing id, above => do
    let r ← s.record id
    follow r.base (Ty.addFields above r.fields)
  | .var v, above => do
    match ← s.solution v.id with
    | none => return ⟨above, .opened v⟩
    | some t => follow t above
  | .unknown, above => .ok ⟨above, .unknown⟩
  | _, above => .ok ⟨above, .closed⟩

def flattenAt (s : Store) : Nat → Ty → List (Name × Ty) → Except Fault Flattened
  | 0 => s.flattenWith (fun _ _ => .error .diverged)
  | n + 1 => s.flattenWith (flattenAt s n)

/-- The known fields of a record and what it ends in. A field hides fields of the same name further
down. -/
def flatten (s : Store) (t : Ty) : Except Fault Flattened :=
  s.flattenAt s.crossings t []

/-- The flexible variable a growing record's own base is, when it is one. -/
def openBase (s : Store) (id : RecordId) : Except Fault (Option TyVar) := do
  let r ← s.record id
  match ← s.resolve r.base with
  | .var v => return if v.rigid then none else some v
  | _ => return none

end Store

end ElmInference
