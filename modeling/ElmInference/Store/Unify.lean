import ElmInference.Store.Constrain
import ElmInference.Store.Flatten

/-!
# Unification

`StoreM.unify actual expected` makes two types equal by solving variables. Components are all
visited, also after one of them failed, so that everything that can be learned is learned. Functions
are curried: the shorter parameter list is matched first, and what it returns is unified with the
function of the parameters left over. Records are compared field by field after flattening; what one
side lacks is added at the end of its chain of bases.

Unification does not recurse on the types it is given but on what the store makes of them, and what
it learns on the way can make types deeper that are still to be visited. Its recursion therefore runs
in rounds. A round may go as deep as the types are when it begins; when that is not enough, something
has been learned in the meantime and a new round begins. What can be learned bounds the number of
rounds, so that only a cyclic store uses them up.
-/

namespace ElmInference

namespace StoreM

/-- Unifies pairs from left to right and reports the first failure. -/
def unifyPairs (unify : Ty → Ty → StoreM Outcome) : List (Ty × Ty) → StoreM Outcome
  | [] => return .ok ()
  | (actual, expected) :: rest => do
    let first ← unify actual expected
    let others ← unifyPairs unify rest
    return first.nested.andThen others

/-- Unifies two functions: the shared parameters, then what is left of both. -/
def unifyArrows (unify : Ty → Ty → StoreM Outcome) (params params' : List Ty) (ret ret' : Ty) :
    StoreM Outcome := do
  let shared := min params.length params'.length
  let first ← unifyPairs unify (params.zip params')
  let tail ← unify (Ty.dropParams params ret shared) (Ty.dropParams params' ret' shared)
  return first.andThen tail.nested

def constrainLike (v : TyVar) (t : Ty) : StoreM Outcome :=
  match v.typeclass with
  | some c => constrain c t
  | none => return .ok ()

/-- Solves a variable by a type that does not hold it. An extension record is copied into a growing
one, so that later uses can extend it. -/
def solveBy (v : TyVar) (t : Ty) : StoreM Outcome := do
  if ← read (fun s => s.occurs v.id t) then return .error .infiniteType
  else
    match t with
    | .record fields (some base) _ refs => do
      let copy ← modifyGet (fun s => s.allocate { fields, base, refs })
      solve v copy
    | _ => solve v t

/-- Unifies an unsolved variable with a type that is not a variable. -/
def unifyVar (v : TyVar) (t : Ty) : StoreM Outcome := do
  if v.rigid then return .mismatch
  else
    match ← constrainLike v t with
    | .error e => return .error e
    | .ok () => solveBy v t

/-- Extends a record that ends in `tail` by fields, after which it ends in `rest`. -/
def grow (tail : Tail) (fields : List (Name × Ty)) (rest : Ty) : StoreM Outcome :=
  match tail with
  | .unknown => return .ok ()
  | .closed => return .mismatch
  | .opened v => do
    if v.rigid then return .mismatch
    else if ← read (fun s => s.occurs v.id (Ty.extension rest fields)) then
      return .error .infiniteType
    else solve v (Ty.extension rest fields)

/-- Unifies what two records with the same fields end in. -/
def unifyTails (unify : Ty → Ty → StoreM Outcome) : Tail → Tail → StoreM Outcome
  | .closed, .closed => return .ok ()
  | .unknown, _ => return .ok ()
  | _, .unknown => return .ok ()
  | .opened a, .opened b => unify (.var a) (.var b)
  | .opened v, .closed => if v.rigid then return .mismatch else solve v .emptyRecord
  | .closed, .opened v => if v.rigid then return .mismatch else solve v .emptyRecord

/-- The fields of two records that both have, with both types. -/
def commonFields (actual expected : Flattened) : List (Name × Ty × Ty) :=
  actual.fields.filterMap (fun field =>
    (expected.field? field.1).map (fun required => (field.1, field.2, required)))

/-- The fields of the first record that the second one lacks. -/
def fieldsMissingIn (here there : Flattened) : List (Name × Ty) :=
  here.fields.filter (fun field => (there.field? field.1).isNone)

/-- Unifies common fields. Yields those that disagree, and whether one is infinite. -/
def unifyFields (unify : Ty → Ty → StoreM Outcome) :
    List (Name × Ty × Ty) → StoreM (List (Name × Ty × Ty) × Bool)
  | [] => return ([], false)
  | (name, found, required) :: rest => do
    let outcome ← unify found required
    let (mismatched, infinite) ← unifyFields unify rest
    match outcome with
    | .ok () => return (mismatched, infinite)
    | .error .infiniteType => return (mismatched, true)
    | .error _ => return ((name, found, required) :: mismatched, infinite)

def sameEnd : Tail → Tail → Bool
  | .opened a, .opened b => a.id == b.id
  | _, _ => false

/-- How two records differ, given the common fields that disagree. -/
def recordDiff (actual expected : Flattened) (mismatched : List (Name × Ty × Ty)) : RecordDiff :=
  { extra := if expected.tail.canGrow then [] else fieldsMissingIn actual expected
    missing := if actual.tail.canGrow then [] else fieldsMissingIn expected actual
    mismatched }

/-- Extends both of two records by what the other one has, after which they end alike. -/
def growBoth (actual expected : Tail) (onlyActual onlyExpected : List (Name × Ty)) :
    StoreM Outcome := do
  if sameEnd actual expected then return .mismatch
  else
    let shared ← freshVar "a"
    match ← grow actual onlyExpected shared with
    | .error e => return .error e
    | .ok () => grow expected onlyActual shared

/-- Gives two records whose common fields agree the same fields and the same end. -/
def joinEnds (unify : Ty → Ty → StoreM Outcome) (actual expected : Flattened) : StoreM Outcome :=
  let onlyActual := fieldsMissingIn actual expected
  let onlyExpected := fieldsMissingIn expected actual
  match onlyExpected.isEmpty, onlyActual.isEmpty with
  | true, true => unifyTails unify actual.tail expected.tail
  | false, true => grow actual.tail onlyExpected expected.tail.toTy
  | true, false => grow expected.tail onlyActual actual.tail.toTy
  | false, false => growBoth actual.tail expected.tail onlyActual onlyExpected

def unifyFlattened (unify : Ty → Ty → StoreM Outcome) (actual expected : Flattened) :
    StoreM Outcome := do
  let (mismatched, infinite) ← unifyFields unify (commonFields actual expected)
  if infinite then return .error .infiniteType
  else if !(recordDiff actual expected mismatched).isEmpty then
    return .error (.record (recordDiff actual expected mismatched))
  else joinEnds unify actual expected

def unifyRecords (unify : Ty → Ty → StoreM Outcome) (actual expected : Ty) : StoreM Outcome := do
  let actual ← read (fun s => s.flatten actual)
  let expected ← read (fun s => s.flatten expected)
  unifyFlattened unify actual expected

/-- Whether every use of a type is accepted. -/
def acceptsAll : Ty → Bool
  | .unknown | .inProgress => true
  | _ => false

/-- Whether a type is a record, growing or not. -/
def isRecord : Ty → Bool
  | .record _ _ _ _ | .growing _ => true
  | _ => false

/-- Unifies two types that are not solved variables; `unify` is for their parts. -/
def unifyResolved (unify : Ty → Ty → StoreM Outcome) (actual expected : Ty) : StoreM Outcome :=
  if acceptsAll actual || acceptsAll expected then return .ok ()
  else
    match actual, expected with
    | .var a, .var b => if a.id = b.id then return .ok () else unifyVars a b
    | .var v, other => unifyVar v other
    | other, .var v => unifyVar v other
    | .unit, .unit => return .ok ()
    | .tuple items, .tuple items' =>
      if items.length = items'.length then unifyPairs unify (items.zip items') else return .mismatch
    | .union m n args _, .union m' n' args' _ =>
      if m = m' ∧ n = n' ∧ args.length = args'.length then unifyPairs unify (args.zip args')
      else return .mismatch
    | .arrow params ret _, .arrow params' ret' _ => unifyArrows unify params params' ret ret'
    | actual, expected =>
      if isRecord actual && isRecord expected then unifyRecords unify actual expected
      else return .mismatch

/-- Unifies two types; `unify` is for their parts. -/
def unifyStep (unify : Ty → Ty → StoreM Outcome) (actual expected : Ty) : StoreM Outcome := do
  let actual ← read (fun s => s.resolve actual)
  let expected ← read (fun s => s.resolve expected)
  unifyResolved unify actual expected

/-- Unifies two types with recursion of depth at most `n`; `beyond` goes on below that. -/
def unifyWithin (beyond : Ty → Ty → StoreM Outcome) : Nat → Ty → Ty → StoreM Outcome
  | 0 => beyond
  | n + 1 => unifyStep (unifyWithin beyond n)

/-- More than the sum of the depths of two types in an acyclic store. -/
def roundDepth (s : Store) (actual expected : Ty) : Nat :=
  2 * s.weight + actual.size + expected.size + 1

def unifyRounds : Nat → Ty → Ty → StoreM Outcome
  | 0, _, _ => throw .diverged
  | n + 1, actual, expected => do
    unifyWithin (unifyRounds n) (roundDepth (← get) actual expected) actual expected

/-- More rounds than unification in an acyclic store needs. -/
def roundLimit (s : Store) (actual expected : Ty) : Nat :=
  let n := s.weight + actual.size + expected.size + 1
  n * n * n

/-- Makes `actual`, the type something has, equal to `expected`, the type it must have. -/
def unify (actual expected : Ty) : StoreM Outcome := do
  unifyRounds (roundLimit (← get) actual expected) actual expected

/-- Adds a field to a growing record, unless its type holds that record. A field that is already
there keeps its type. -/
def insertField (id : RecordId) (field : Name) (t : Ty) (pos? : Option Nat) : StoreM Outcome := do
  if ← read (fun s => s.mentionsRecord id t) then return .error .infiniteType
  let r ← read (fun s => s.record id)
  let refs := match pos? with
    | some pos => r.refs.add field pos
    | none => r.refs
  modify (fun s => s.setRecord id { r with fields := Ty.addFields r.fields [(field, t)], refs })
  return .ok ()

end StoreM

end ElmInference
