import ElmInference.FieldReferences
import ElmInference.Typeclass

/-!
# Types

Types as inference sees them, between source and result. Function types are kept uncurried and
record types flat: `Ty.function` folds a returned function into its parameter list, and
`Ty.recordWith` folds a base that is itself a record into the field list. A type that was written
through an alias remembers that alias, which is used for display only.

Two shapes exist only while a declaration is being inferred: `growing`, a handle to a record of the
store that can still gain fields, and `inProgress`, the type of a name whose definition is being
read.
-/

namespace ElmInference

/-- Index of a type variable in the store it was allocated in. -/
abbrev VarId := Nat

/-- Index of a growing record in the store it was allocated in. -/
abbrev RecordId := Nat

/-- A type variable. Its identity is `id`; `name` is for display and carries the class constraint.
Rigid variables stand for an unknown but fixed type. -/
structure TyVar where
  id : VarId
  name : Name
  rigid : Bool := false
deriving DecidableEq, Inhabited

def TyVar.typeclass (v : TyVar) : Option Typeclass :=
  Typeclass.ofName v.name

/-- The alias a type was written with. -/
structure AliasUse (τ : Type) where
  moduleName : Name
  name : Name
  args : List τ
deriving Inhabited

inductive Ty where
  | unit
  /-- Nothing is known, and every use is accepted. -/
  | unknown
  /-- A name whose definition is being read. -/
  | inProgress
  | var (v : TyVar)
  | union (moduleName name : Name) (args : List Ty) (written : Option (AliasUse Ty))
  | tuple (items : List Ty)
  /-- A record; without `base` it has exactly these fields. -/
  | record (fields : List (Name × Ty)) (base : Option Ty) (written : Option (AliasUse Ty))
      (refs : FieldReferences)
  /-- A record of the store that can still gain fields. -/
  | growing (id : RecordId)
  | arrow (params : List Ty) (ret : Ty) (written : Option (AliasUse Ty))
deriving Inhabited

namespace Ty

def named (moduleName name : Name) (args : List Ty) : Ty :=
  .union moduleName name args none

def int : Ty := named "Basics" "Int" []

def float : Ty := named "Basics" "Float" []

def bool : Ty := named "Basics" "Bool" []

def string : Ty := named "String" "String" []

def char : Ty := named "Char" "Char" []

def list (item : Ty) : Ty := named "List" "List" [item]

/-- The function from `params` to `ret`. A returned function is folded into the parameter list
unless it was written through an alias, and without parameters the function is its result. -/
def function (params : List Ty) (ret : Ty) : Ty :=
  match params with
  | [] => ret
  | _ :: _ =>
    match ret with
    | .arrow more last none => .arrow (params ++ more) last none
    | _ => .arrow params ret none

/-- What is left of a function after `count` arguments. -/
def dropParams (params : List Ty) (ret : Ty) (count : Nat) : Ty :=
  if count < params.length then function (params.drop count) ret else ret

/-- What is left of a function type after `count` arguments. -/
def partiallyApply? : Ty → Nat → Option Ty
  | .arrow params ret _, count => some (dropParams params ret count)
  | _, _ => none

/-- Adds the fields whose names are not there yet. -/
def addFields (fields more : List (Name × Ty)) : List (Name × Ty) :=
  more.foldl (fun acc field => if acc.any (·.1 == field.1) then acc else acc ++ [field]) fields

/-- The record with the given fields on top of a base. A base that is a record is merged: its fields
follow, unless a field of that name stands above them. -/
def recordWith (fields : List (Name × Ty)) (base : Option Ty) (refs : FieldReferences) : Ty :=
  match base with
  | some (.record inner innerBase _ innerRefs) =>
    .record (addFields fields inner) innerBase none (refs.merge innerRefs)
  | _ => .record fields base none refs

def emptyRecord : Ty := .record [] none none .empty

/-- A record with the given fields on top of a base. -/
def extension (base : Ty) (fields : List (Name × Ty)) : Ty :=
  recordWith fields (some base) .empty

def closedRecord (fields : List (Name × Ty)) : Ty :=
  recordWith fields none .empty

/-- The alias a type was written with. -/
def written? : Ty → Option (AliasUse Ty)
  | .union _ _ _ w => w
  | .record _ _ w _ => w
  | .arrow _ _ w => w
  | _ => none

/-- Remembers the alias a type was written with; shapes that cannot carry one are unchanged. -/
def writtenAs (t : Ty) (use : AliasUse Ty) : Ty :=
  match t with
  | .union m n args _ => .union m n args (some use)
  | .record fields base _ refs => .record fields base (some use) refs
  | .arrow params ret _ => .arrow params ret (some use)
  | other => other

/-- Remembers the alias, if any, that a type was written with. -/
def writtenAs? (t : Ty) : Option (AliasUse Ty) → Ty
  | none => t
  | some use => t.writtenAs use

def var? : Ty → Option TyVar
  | .var v => some v
  | _ => none

def isUnknown : Ty → Bool
  | .unknown => true
  | _ => false

/-- Whether a type is a list, whatever its arguments. -/
def isList : Ty → Bool
  | .union m n _ _ => m == "List" && n == "List"
  | _ => false

/-- Whether a type is a function that would need parentheses inside another one. -/
def isBareArrow : Ty → Bool
  | .arrow _ _ none => true
  | _ => false

def fields? : Ty → Option (List (Name × Ty))
  | .record fields _ _ _ => some fields
  | _ => none

def field? (t : Ty) (name : Name) : Option Ty :=
  t.fields?.bind (fun fields => Assoc.get? fields name)

/-- Whether a record has a base; only records answer. -/
def isExtension? : Ty → Option Bool
  | .record _ base _ _ => some base.isSome
  | _ => none

/-- The parameters of a function type, and of the functions it returns. -/
def allParams : Ty → List Ty
  | .arrow params ret _ => params ++ ret.allParams
  | _ => []

/-- Applies `count` arguments to a type, through as many returned functions as it takes. -/
def applyParams : Ty → Nat → Ty
  | t, 0 => t
  | .arrow params ret w, count + 1 =>
    if params.isEmpty then .arrow params ret w
    else if count + 1 < params.length then function (params.drop (count + 1)) ret
    else ret.applyParams (count + 1 - params.length)
  | t, _ + 1 => t

mutual

/-- How many nodes a type has, alias arguments included. -/
def size : Ty → Nat
  | .unit | .unknown | .inProgress | .var _ | .growing _ => 1
  | .union _ _ args w => 1 + sizeList args + sizeAlias w
  | .tuple items => 1 + sizeList items
  | .record fields base w _ => 1 + sizeFields fields + sizeBase base + sizeAlias w
  | .arrow params ret w => 1 + sizeList params + ret.size + sizeAlias w

def sizeList : List Ty → Nat
  | [] => 0
  | t :: ts => t.size + sizeList ts

def sizeFields : List (Name × Ty) → Nat
  | [] => 0
  | (_, t) :: rest => t.size + sizeFields rest

def sizeBase : Option Ty → Nat
  | none => 0
  | some t => t.size

def sizeAlias : Option (AliasUse Ty) → Nat
  | none => 0
  | some ⟨_, _, args⟩ => sizeList args

end

mutual

/-- Equality of types, which does not look at field references. -/
def beq : Ty → Ty → Bool
  | .unit, .unit => true
  | .unknown, .unknown => true
  | .inProgress, .inProgress => true
  | .var v, .var w => v == w
  | .union m n args w, .union m' n' args' w' =>
    m == m' && n == n' && beqList args args' && beqAlias w w'
  | .tuple items, .tuple items' => beqList items items'
  | .record fields base w _, .record fields' base' w' _ =>
    beqFields fields fields' && beqBase base base' && beqAlias w w'
  | .growing id, .growing id' => id == id'
  | .arrow params ret w, .arrow params' ret' w' =>
    beqList params params' && beq ret ret' && beqAlias w w'
  | _, _ => false

def beqList : List Ty → List Ty → Bool
  | [], [] => true
  | t :: ts, u :: us => beq t u && beqList ts us
  | _, _ => false

def beqFields : List (Name × Ty) → List (Name × Ty) → Bool
  | [], [] => true
  | (n, t) :: ts, (m, u) :: us => n == m && beq t u && beqFields ts us
  | _, _ => false

def beqBase : Option Ty → Option Ty → Bool
  | none, none => true
  | some t, some u => beq t u
  | _, _ => false

def beqAlias : Option (AliasUse Ty) → Option (AliasUse Ty) → Bool
  | none, none => true
  | some ⟨m, n, args⟩, some ⟨m', n', args'⟩ => m == m' && n == n' && beqList args args'
  | _, _ => false

end

instance : BEq Ty := ⟨beq⟩

end Ty

end ElmInference
