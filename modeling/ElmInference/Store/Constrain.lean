import ElmInference.Store.Occurs
import ElmInference.Store.Zonk

/-!
# Joining variables and constraining types

Two unsolved variables become one, under the stronger of their constraints; a rigid variable stays
itself, so it must already admit no more than the other one does. A class constraint on a type that
is not a variable is decided by a fixed table, and comparable tuples and lists pass it on to their
parts.
-/

namespace ElmInference

/-- How two record types differ; types stand as found and as required. -/
structure RecordDiff where
  extra : List (Name × Ty) := []
  missing : List (Name × Ty) := []
  mismatched : List (Name × Ty × Ty) := []
deriving Inhabited

namespace RecordDiff

def isEmpty (d : RecordDiff) : Bool :=
  d.extra.isEmpty && d.missing.isEmpty && d.mismatched.isEmpty

/-- Applies a function that may fail to every type, in reading order. -/
def mapTypesM {m : Type → Type} [Monad m] (f : Ty → m Ty) (d : RecordDiff) : m RecordDiff := do
  let extra ← d.extra.mapM (fun field => do return (field.1, ← f field.2))
  let missing ← d.missing.mapM (fun field => do return (field.1, ← f field.2))
  let mismatched ← d.mismatched.mapM (fun field => do
    let found ← f field.2.1
    return (field.1, found, ← f field.2.2))
  return { extra, missing, mismatched }

end RecordDiff

/-- Why two types cannot be made equal. -/
inductive UnifyError where
  | mismatch
  /-- A type would have to contain itself. -/
  | infiniteType
  /-- Both sides are records and their fields disagree. -/
  | record (diff : RecordDiff)
deriving Inhabited

/-- The error to report when this one happened inside a larger type. -/
def UnifyError.nested : UnifyError → UnifyError
  | .record _ => .mismatch
  | e => e

/-- Whether types could be made equal. A failure is an answer and keeps what has been learned. -/
abbrev Outcome := Except UnifyError Unit

namespace Outcome

/-- The outcome as part of a larger type. -/
def nested : Outcome → Outcome
  | .ok () => .ok ()
  | .error e => .error e.nested

/-- The first failure of two, if there is one. -/
def andThen : Outcome → Outcome → Outcome
  | .ok (), second => second
  | .error e, _ => .error e

/-- Applies a function that may fail to every type of a failure. -/
def mapTypesM {m : Type → Type} [Monad m] (f : Ty → m Ty) : Outcome → m Outcome
  | .error (.record diff) => do return .error (.record (← diff.mapTypesM f))
  | outcome => return outcome

def mismatch : Outcome := .error .mismatch

end Outcome

/-- Work on a store that may fault. -/
abbrev StoreM := StateT Store (Except Fault)

namespace StoreM

def read {α : Type} (f : Store → Except Fault α) : StoreM α :=
  fun s => (f s).map (fun a => (a, s))

def change (f : Store → Except Fault Store) : StoreM Unit :=
  fun s => (f s).map (fun s => ((), s))

def fresh (name : Name) (rigid : Bool) : StoreM TyVar :=
  fun s => .ok (s.fresh name rigid)

def freshVar (name : Name) : StoreM Ty := do
  return .var (← fresh name false)

def bind (v : TyVar) (t : Ty) : StoreM Unit :=
  change (fun s => s.bind v t)

/-- Solves a variable as the last step of a success. -/
def solve (v : TyVar) (t : Ty) : StoreM Outcome := do
  bind v t
  return .ok ()

/-! ### Variables -/

/-- Lets a flexible variable become a rigid one. A rigid variable stands for any type it admits, and
each of these has to meet the flexible variable's constraint. -/
def unifyFlexRigid (flex rigid : TyVar) : StoreM Outcome :=
  match flex.typeclass with
  | none => solve flex (.var rigid)
  | some c =>
    match rigid.typeclass with
    | none => return .mismatch
    | some d =>
      if Typeclass.join c d = some d then solve flex (.var rigid) else return .mismatch

/-- Unifies two distinct unsolved variables. A constrained variable wins over an unconstrained one;
otherwise `actual` becomes `expected`. -/
def unifyVars (actual expected : TyVar) : StoreM Outcome :=
  match actual.rigid, expected.rigid with
  | true, true => return .mismatch
  | false, true => unifyFlexRigid actual expected
  | true, false => unifyFlexRigid expected actual
  | false, false =>
    match actual.typeclass, expected.typeclass with
    | none, _ => solve actual (.var expected)
    | some _, none => solve expected (.var actual)
    | some a, some b =>
      match Typeclass.join a b with
      | none => return .mismatch
      | some joined =>
        if joined = a then solve expected (.var actual)
        else if joined = b then solve actual (.var expected)
        else do
          let v ← freshVar joined.name
          bind actual v
          solve expected v

end StoreM

/-! ### Constraints -/

def isListType (moduleName name : Name) (args : List Ty) : Bool :=
  moduleName == "List" && name == "List" && args.length == 1

namespace Typeclass

/-- The classes whose lists are those with comparable elements. -/
def needsComparableItems (c : Typeclass) : Bool :=
  c == .comparable || c == .compAppend

/-- Whether a union type that passes no constraint on belongs to a class. -/
def admits (c : Typeclass) (moduleName name : Name) (args : List Ty) : Bool :=
  match c with
  | .number => moduleName == "Basics" && (name == "Int" || name == "Float")
  | .appendable => (moduleName == "String" && name == "String") || isListType moduleName name args
  | .comparable =>
    (moduleName == "Basics" && (name == "Int" || name == "Float")) ||
      (moduleName == "Char" && name == "Char") || (moduleName == "String" && name == "String")
  | .compAppend => moduleName == "String" && name == "String"

end Typeclass

namespace StoreM

mutual

/-- Requires a type to belong to a class; `follow` goes on behind solved variables. -/
def constrainWith (follow : Typeclass → Ty → StoreM Outcome) :
    Typeclass → Ty → StoreM Outcome
  | _, .unknown => return .ok ()
  | c, .var v => do
    match ← read (fun s => s.solution v.id) with
    | some t => follow c t
    | none => unifyVars v (← fresh c.name false)
  | c, .tuple items =>
    if c = .comparable then constrainItems follow items else return .mismatch
  | c, .union m n args _ =>
    if c.needsComparableItems && isListType m n args then constrainItems follow args
    else if c.admits m n args then return .ok ()
    else return .mismatch
  | _, _ => return .mismatch

/-- Requires every type of a list to be comparable, up to the first that is not. -/
def constrainItems (follow : Typeclass → Ty → StoreM Outcome) : List Ty → StoreM Outcome
  | [] => return .ok ()
  | t :: ts => do
    match ← constrainWith follow .comparable t with
    | .ok () => constrainItems follow ts
    | .error _ => return .mismatch

end

def constrainAt : Nat → Typeclass → Ty → StoreM Outcome
  | 0 => constrainWith (fun _ _ => throw .diverged)
  | n + 1 => constrainWith (constrainAt n)

/-- Requires a type to belong to a class, constraining the variables it holds. -/
def constrain (c : Typeclass) (t : Ty) : StoreM Outcome := do
  constrainAt (← get).crossings c t

end StoreM

end ElmInference
