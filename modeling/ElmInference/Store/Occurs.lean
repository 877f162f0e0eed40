import ElmInference.Store.Basic

/-!
# Looking for a node behind the solutions

A variable that occurs in its own solution would stand for an infinite type, and so would a record
with a field that holds the record itself. `anyNode` finds such occurrences, looking through
solutions and growing records.
-/

namespace ElmInference

namespace Store

mutual

/-- Looks for a node; `follow` goes on behind solved variables and inside growing records. -/
def anyNodeWith (s : Store) (p : Ty → Bool) (follow : Ty → Except Fault Bool) :
    Ty → Except Fault Bool
  | .unit => .ok (p .unit)
  | .unknown => .ok (p .unknown)
  | .inProgress => .ok (p .inProgress)
  | .var v => do
    if p (.var v) then return true
    match ← s.solution v.id with
    | none => return false
    | some t => follow t
  | .union m n args w => do
    if p (.union m n args w) then return true
    anyNodeList s p follow args
  | .tuple items => do
    if p (.tuple items) then return true
    anyNodeList s p follow items
  | .record fields base w refs => do
    if p (.record fields base w refs) then return true
    if ← anyNodeFields s p follow fields then return true
    anyNodeBase s p follow base
  | .growing id => do
    if p (.growing id) then return true
    let r ← s.record id
    if ← r.fields.anyM (fun field => follow field.2) then return true
    follow r.base
  | .arrow params ret w => do
    if p (.arrow params ret w) then return true
    if ← anyNodeList s p follow params then return true
    anyNodeWith s p follow ret

def anyNodeList (s : Store) (p : Ty → Bool) (follow : Ty → Except Fault Bool) :
    List Ty → Except Fault Bool
  | [] => .ok false
  | t :: ts => do
    if ← anyNodeWith s p follow t then return true
    anyNodeList s p follow ts

def anyNodeFields (s : Store) (p : Ty → Bool) (follow : Ty → Except Fault Bool) :
    List (Name × Ty) → Except Fault Bool
  | [] => .ok false
  | (_, t) :: rest => do
    if ← anyNodeWith s p follow t then return true
    anyNodeFields s p follow rest

def anyNodeBase (s : Store) (p : Ty → Bool) (follow : Ty → Except Fault Bool) :
    Option Ty → Except Fault Bool
  | none => .ok false
  | some t => anyNodeWith s p follow t

end

def anyNodeAt (s : Store) (p : Ty → Bool) : Nat → Ty → Except Fault Bool
  | 0 => s.anyNodeWith p (fun _ => .error .diverged)
  | n + 1 => s.anyNodeWith p (anyNodeAt s p n)

/-- Whether some node of a type satisfies `p`. Solutions and growing records are looked into, alias
arguments are not. -/
def anyNode (s : Store) (p : Ty → Bool) (t : Ty) : Except Fault Bool :=
  s.anyNodeAt p s.crossings t

def occurs (s : Store) (id : VarId) (t : Ty) : Except Fault Bool :=
  s.anyNode (fun node => match node with | .var v => v.id == id | _ => false) t

def mentionsRecord (s : Store) (id : RecordId) (t : Ty) : Except Fault Bool :=
  s.anyNode (fun node => match node with | .growing other => other == id | _ => false) t

end Store

end ElmInference
