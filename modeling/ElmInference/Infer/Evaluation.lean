import ElmInference.Scope.Basic

/-!
# Values that are evaluated while they are being defined

Evaluating a value evaluates the values it refers to outside of lambdas and function bodies.
`Evaluation.searchAt` follows such references between the values of a module, depth first and the
last reference first, and tells whether it comes by a given one. Each value is expanded once, so a
search never needs more expansions than there are values.
-/

namespace ElmInference

namespace Evaluation

/-- A reference, unless a local name captures it. -/
def unlessLocal (locals : List Name) (name : Ref) : List Ref :=
  if name.qualifier.isNone && locals.contains name.name then [] else [name]

mutual

/-- The references that evaluating an expression evaluates, in reading order; `locals` are names
bound on the way. -/
def references (locals : List Name) : Expr → List Ref
  | .mk _ _ .unit => []
  | .mk _ _ (.literal _) => []
  | .mk _ _ (.operator _) => []
  | .mk _ _ (.accessor _) => []
  | .mk _ _ (.lambda _ _) => []
  | .mk _ _ (.var name) => unlessLocal locals name
  | .mk _ _ (.call target args) => references locals target ++ referencesList locals args
  | .mk _ _ (.binary operands _) => referencesList locals operands
  | .mk _ _ (.negate operand) => references locals operand
  | .mk _ _ (.tuple items) => referencesList locals items
  | .mk _ _ (.list items) => referencesList locals items
  | .mk _ _ (.record fields) => referencesFields locals fields
  | .mk _ _ (.update base fields) =>
    unlessLocal locals (Ref.plain base.name) ++ referencesFields locals fields
  | .mk _ _ (.access target _) => references locals target
  | .mk _ _ (.conditional branches otherwise) =>
    referencesBranches locals branches ++ references locals otherwise
  | .mk _ _ (.caseOf scrutinee branches) =>
    references locals scrutinee ++ referencesCases locals branches
  | .mk _ _ (.letIn definitions body) =>
    let inner := locals ++ definitions.flatMap (fun d => d.head.boundNames.map NameAt.name)
    referencesDefinitions inner definitions ++ references inner body

def referencesList (locals : List Name) : List Expr → List Ref
  | [] => []
  | e :: es => references locals e ++ referencesList locals es

def referencesFields (locals : List Name) : List (NameAt × Expr) → List Ref
  | [] => []
  | (_, e) :: rest => references locals e ++ referencesFields locals rest

def referencesBranches (locals : List Name) : List (Expr × Expr) → List Ref
  | [] => []
  | (c, e) :: rest => references locals c ++ references locals e ++ referencesBranches locals rest

def referencesCases (locals : List Name) : List (Pattern × Expr) → List Ref
  | [] => []
  | (p, e) :: rest =>
    references (locals ++ p.boundNames.map NameAt.name) e ++ referencesCases locals rest

/-- Only definitions without parameters are evaluated where they stand. -/
def referencesDefinitions (locals : List Name) : List (Definition Expr) → List Ref
  | [] => []
  | d :: rest =>
    (if d.head.params.isEmpty then references locals d.body else []) ++
      referencesDefinitions locals rest

end

/-- The references that evaluating a declaration evaluates. -/
def referencesOf (decl : ValueDecl) : List Ref :=
  references [] decl.body

/-- The value without parameters that a reference means, when it means one. -/
def valueOf? (scope : ModuleScope) (name : Ref) : Option (Nat × ValueDecl) :=
  match scope.findValues name with
  | [.value index decl] => if decl.head.params.isEmpty then some (index, decl) else none
  | _ => none

/-- The values that evaluating a declaration evaluates directly. -/
def successors (scope : ModuleScope) (decl : ValueDecl) : List (Nat × ValueDecl) :=
  (referencesOf decl).filterMap (valueOf? scope)

/-- Looks for `target` among the values on the stack. `expand` goes on with what a value evaluates that is still among
the `unvisited` places. -/
def searchWith (scope : ModuleScope) (target : Nat)
    (expand : List Nat → List Ref → List (Nat × ValueDecl) → Bool × List Ref) (unvisited : List Nat)
    (lookups : List Ref) : List (Nat × ValueDecl) → Bool × List Ref
  | [] => (false, lookups)
  | (index, decl) :: rest =>
    if index = target then (true, lookups)
    else if decl.head.params.isEmpty && unvisited.contains index then
      expand (unvisited.erase index) (lookups ++ referencesOf decl)
        ((successors scope decl).reverse ++ rest)
    else searchWith scope target expand unvisited lookups rest

/-- Searches for `target` from the values on the stack, expanding at most `n` values. `unvisited` holds the places that
have not been expanded yet. Yields whether the target was found, and every reference looked up on the way. -/
def searchAt (scope : ModuleScope) (target : Nat) :
    Nat → List Nat → List Ref → List (Nat × ValueDecl) → Bool × List Ref
  | 0 => searchWith scope target (fun _ lookups _ => (false, lookups))
  | n + 1 => searchWith scope target (searchAt scope target n)

/-- Whether evaluating a declaration evaluates the one at place `target`, and the references looked
up to find out. -/
def reaches (scope : ModuleScope) (start : Nat × ValueDecl) (target : Nat) : Bool × List Ref :=
  let places := scope.module.values.map Prod.fst
  searchAt scope target places.length places [] [start]

end Evaluation

end ElmInference
