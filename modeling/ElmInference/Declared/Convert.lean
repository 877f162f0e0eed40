import ElmInference.Declared.Basic
import ElmInference.Problem
import ElmInference.Scope.Basic

/-!
# From type expressions to types

A type expression is converted in a scope of type variables: every occurrence of a name is the same
variable, and a name not seen before becomes a new one. References to aliases are replaced by what
the alias stands for. Aliases are converted on first use and kept; an alias whose conversion is
already going on is defined in terms of itself, which is a problem of the reference, and an alias
whose body has that problem has no meaning.

Conversions of aliases nest at most as deep as there are aliases, since each nested one is of
another alias; `Conversion.convert` allows one level more than that.
-/

namespace ElmInference

/-- Aliases and union types are known by module and name. -/
abbrev TypeKey := Name × Name

/-- What is known about the declared types of a program. -/
structure TypeTable where
  declared : Assoc TypeKey DeclaredType := []
  /-- Aliases whose bodies are being converted. -/
  converting : List TypeKey := []
deriving Inhabited

/-- The state of conversions that share their type variables. -/
structure Conversion where
  table : TypeTable := {}
  store : Store := {}
  /-- The type variables in scope. -/
  vars : Assoc Name Ty := []
  problems : List Problem := []
deriving Inhabited

namespace Conversion

/-- Conversion of the body of an alias, kept apart because it has a scope of its own. -/
abbrev Expand := Name → AliasDecl → StateM TypeTable (Option DeclaredType)

def report (pos : Nat) (kind : ProblemKind) : StateM Conversion Unit :=
  modify (fun c => { c with problems := c.problems ++ [⟨pos, kind⟩] })

def typeVar (rigid : Bool) (name : Name) : StateM Conversion Ty := fun c =>
  match Assoc.get? c.vars name with
  | some t => (t, c)
  | none =>
    let (v, store) := c.store.fresh name rigid
    (.var v, { c with store, vars := Assoc.set c.vars name (.var v) })

/-- The variable a record type extends. -/
def base (rigid : Bool) : Option Name → StateM Conversion (Option Ty)
  | none => pure none
  | some name => do return some (← Conversion.typeVar rigid name)

/-- The function with the given segments, the last of which is the result. -/
def ofSegments (segments : List Ty) : Ty :=
  match segments.getLast? with
  | none => .unknown
  | some ret => .function segments.dropLast ret

/-- Where the fields of a written record stand. -/
def fieldPositions (fields : List (FieldDecl TypeExpr)) : FieldReferences :=
  fields.foldl (fun refs field => refs.add field.name field.pos) .empty

/-- A union type with the right number of arguments; any other number is a problem. -/
def saturated (pos : Nat) (moduleName name : Name) (args : List Ty) (arity : Nat) :
    StateM Conversion Ty := do
  if args.length = arity then return .named moduleName name args
  report pos (.typeArgumentCount args.length arity)
  return .unknown

/-- An alias applied to the right number of arguments. -/
def expanded (expand : Expand) (pos : Nat) (moduleName : Name) (decl : AliasDecl)
    (args : List Ty) : StateM Conversion Ty := do
  if args.length ≠ decl.params.length then
    report pos (.typeArgumentCount args.length decl.params.length)
    return .unknown
  let found ← modifyGet (fun c =>
    let (found, table) := expand moduleName decl c.table
    (found, { c with table }))
  match found with
  | some declared =>
    modifyGet (fun c =>
      let (t, store) := declared.instantiate args c.store
      (t, { c with store }))
  | none =>
    report pos .infiniteRecursion
    return .unknown

def reference (scope : ModuleScope) (expand : Expand) (pos : Nat) (name : Ref) (args : List Ty) :
    StateM Conversion Ty :=
  match scope.findType? name with
  | none => pure .unknown
  | some (.external m n arity) => saturated pos m n args arity
  | some (.unionType m decl) => saturated pos m decl.name args decl.params.length
  | some (.typeAlias m decl) => expanded expand pos m decl args

mutual

def convertWith (scope : ModuleScope) (expand : Expand) (rigid : Bool) :
    TypeExpr → StateM Conversion Ty
  | .mk _ (.var name) => Conversion.typeVar rigid name
  | .mk _ .unit => pure .unit
  | .mk _ (.tuple items) => do
    return .tuple (← convertList scope expand rigid items)
  | .mk _ (.record baseName fields) => do
    let under ← base rigid baseName
    let converted ← convertFields scope expand rigid fields
    return Ty.recordWith converted under (fieldPositions fields)
  | .mk _ (.function segments) => do
    return ofSegments (← convertList scope expand rigid segments)
  | .mk pos (.ref name args) => do
    reference scope expand pos name (← convertList scope expand rigid args)

def convertList (scope : ModuleScope) (expand : Expand) (rigid : Bool) :
    List TypeExpr → StateM Conversion (List Ty)
  | [] => pure []
  | t :: ts => do
    let t ← convertWith scope expand rigid t
    return t :: (← convertList scope expand rigid ts)

def convertFields (scope : ModuleScope) (expand : Expand) (rigid : Bool) :
    List (FieldDecl TypeExpr) → StateM Conversion (List (Name × Ty))
  | [] => pure []
  | ⟨_, name, t⟩ :: rest => do
    let t ← convertWith scope expand rigid t
    return (name, t) :: (← convertFields scope expand rigid rest)

end

/-- A scope with the parameters of a declaration, in order. Of two parameters with one name the
later one is meant. -/
def paramScope (table : TypeTable) (params : List Name) : List TyVar × Conversion :=
  params.foldl
    (fun (vars, c) name =>
      let (v, store) := c.store.fresh name false
      (vars ++ [v], { c with store, vars := Assoc.set c.vars name (.var v) }))
    ([], { table })

end Conversion

namespace TypeTable

def remember (table : TypeTable) (key : TypeKey) (d : DeclaredType) : TypeTable :=
  { table with declared := Assoc.set table.declared key d }

/-- The meaning of an alias, with nested conversions of depth at most `n`. -/
def expandAt (scope : ModuleScope) : Nat → Conversion.Expand
  | 0, _, _ => pure none
  | n + 1, moduleName, decl => fun table =>
    let key := (moduleName, decl.name)
    match Assoc.get? table.declared key with
    | some d => (some d, table)
    | none =>
      if key ∈ table.converting then (none, table)
      else
        let (params, start) :=
          Conversion.paramScope { table with converting := key :: table.converting } decl.params
        let (body, c) := Conversion.convertWith scope (expandAt scope n) false decl.body start
        let table := { c.table with converting := c.table.converting.erase key }
        if c.problems.any (fun p => p.kind.isInfiniteRecursion) then (none, table)
        else
          let d := .typeAlias params (body.writtenAs ⟨moduleName, decl.name, params.map .var⟩)
          (some d, table.remember key d)

/-- The meaning of an alias; none when it is defined in terms of itself. -/
def expand (scope : ModuleScope) : Conversion.Expand :=
  expandAt scope (scope.module.aliasCount + 1)

def unionType (scope : ModuleScope) (moduleName : Name) (decl : UnionDecl) :
    StateM TypeTable DeclaredType := fun table =>
  let key := (moduleName, decl.name)
  match Assoc.get? table.declared key with
  | some d => (d, table)
  | none =>
    let (params, start) := Conversion.paramScope table decl.params
    let (variants, c) :=
      decl.variants.mapM
        (fun variant => Conversion.convertList scope (expand scope) false variant.args) start
    let d := .unionType params (.named moduleName decl.name (params.map .var)) variants
    (d, c.table.remember key d)

end TypeTable

/-- Converts a type expression; variables first seen are rigid when asked for. -/
def Conversion.convert (scope : ModuleScope) (rigid : Bool) (t : TypeExpr) : StateM Conversion Ty :=
  Conversion.convertWith scope (TypeTable.expand scope) rigid t

end ElmInference
