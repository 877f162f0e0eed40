import ElmInference.Infer.Pattern

/-!
# Definitions and references

A `let` definition without signature is inferred when it is first needed, in the scope it was
written in, and then generalized. A reference to another top-level declaration infers that
declaration in a pass of its own and uses its type at fresh variables; one that is already being
inferred is left unknown and noted, because the result then depends on who asked first.

What lies elsewhere than below the current expression is reached through `Elsewhere`, the inference
of definition bodies and of other declarations, which the engine supplies.
-/

namespace ElmInference

/-- Inference of what does not lie below the current expression. -/
structure Elsewhere where
  /-- The body of a local definition. -/
  body : Expr → InferM Ty
  /-- A top-level declaration, given by its place. -/
  declaration : Nat → ValueDecl → SessionM (Except InferError Inferred)

namespace InferM

/-- The types a signature gives to the parameters; too many parameters are a problem. -/
def expectedParams (name : NameAt) (params : List Pattern) :
    Option Ty → InferM (Option (List Ty))
  | none => return none
  | some signature => do
    let expected := signature.allParams
    if params.length > expected.length then do
      report name.pos (.parameterCount params.length expected.length)
      return none
    return some (expected.take params.length)

def inferParams : List Pattern → List Ty → InferM Bound
  | p :: ps, t :: ts => do
    let bound ← inferPattern .parameter p t
    return bound ++ (← inferParams ps ts)
  | _, _ => return []

/-- Runs work that lies inside so many more lambdas. -/
def deeper {α : Type} (levels : Nat) (work : InferM α) : InferM α := do
  modifyPass (fun pass => { pass with depth := pass.depth + levels })
  let a ← work
  modifyPass (fun pass => { pass with depth := pass.depth - levels })
  return a

/-- Infers a function or value from its parameters and body. With a signature its type is that
signature, whatever the body is. -/
def inferFunction (inferBody : Expr → InferM Ty) (name : NameAt) (params : List Pattern)
    (body : Expr) (signature : Option Ty) : InferM Ty := do
  let expected ← expectedParams name params signature
  let types ← match expected with
    | some types => pure types
    | none => freshVars "a" params
  pushScope []
  let bound ← inferParams params types
  bindAll [name.name] bound
  let bodyType ← deeper (if params.isEmpty then 0 else 1) (inferBody body)
  popScope
  match signature, expected with
  | some signature, some _ =>
    let _ ← check body.pos bodyType (signature.applyParams params.length)
    return signature
  | some signature, none => return signature
  | none, _ => return Ty.function types bodyType

/-- Infers a destructuring: the body, then the pattern against its type. -/
def inferDestructuring (inferBody : Expr → InferM Ty) (pattern : Pattern) (body : Expr) :
    InferM (Ty × Bound) := do
  let t ← inferBody body
  return (t, ← inferPattern .declaration pattern t)

/-- Runs work in an outer scope, hiding the `inner` scopes inside of it. -/
def hidingScopes {α : Type} (inner : Nat) (work : InferM α) : InferM α := do
  let hidden := (← getPass).scopes.take inner
  modifyPass (fun pass => { pass with scopes := pass.scopes.drop inner })
  let a ← work
  modifyPass (fun pass => { pass with scopes := hidden ++ pass.scopes })
  return a

/-- Generalizes and binds names one after the other. -/
def bindGeneralized : Bound → InferM Unit
  | [] => pure ()
  | (name, t) :: rest => do
    bind name.name (.poly (← generalize t))
    bindGeneralized rest

/-- Infers and generalizes the `let` definition of the innermost scope. -/
def inferDefinition (inferBody : Expr → InferM Ty) (definition : ValueDecl) (depth : Nat) :
    InferM Unit := do
  match definition.head with
  | .function name params =>
    let self ← freshVar "a"
    bind name.name (.active self (!params.isEmpty) depth)
    let t ← inferFunction inferBody name params definition.body none
    let _ ← check name.pos t self
    unbind name.name
    bind name.name (.poly (← generalize t))
  | .pattern pattern =>
    let names := pattern.boundNames
    names.forM (fun name => bind name.name (.mono .inProgress))
    let (_, bound) ← inferDestructuring inferBody pattern definition.body
    names.forM (fun name => unbind name.name)
    bindGeneralized bound

/-- Infers a `let` definition that has been waiting, under as many lambdas as it was written under.
-/
def inferPending (inferBody : Expr → InferM Ty) (inner : Nat) (definition : ValueDecl)
    (depth : Nat) : InferM Unit :=
  hidingScopes inner do
    let outside := (← getPass).depth
    modifyPass (fun pass => { pass with depth })
    inferDefinition inferBody definition depth
    modifyPass (fun pass => { pass with depth := outside })

/-- The type of a binding at one use. A value that is being defined can only be used under a lambda.
-/
def useBinding (pos : Nat) : Binding → InferM Ty
  | .mono .inProgress => do
    report pos .cyclicDefinition
    return .unknown
  | .mono t => return t
  | .poly scheme => instantiate scheme
  | .checking scheme hasParams depth => do
    if !hasParams && (← getPass).depth == depth then
      report pos .infiniteRecursion
      return .unknown
    instantiate scheme
  | .active t hasParams depth => do
    if !hasParams && (← getPass).depth == depth then
      report pos .infiniteRecursion
      return .unknown
    return t
  | .pending _ _ _ => return .unknown

/-- The type of a local name, when it is one. -/
def localReference (elsewhere : Elsewhere) (pos : Nat) (name : Name) : InferM (Option Ty) := do
  match ← lookup name with
  | none => return none
  | some (inner, .pending _ definition depth) =>
    inferPending elsewhere.body inner definition depth
    match ← lookup name with
    | some (_, binding) => return some (← useBinding pos binding)
    | none => return some .unknown
  | some (_, binding) => return some (← useBinding pos binding)

/-- Whether evaluating another declaration evaluates the current one. -/
def isEvaluatedCycle (index : Nat) (decl : ValueDecl) : InferM Bool := do
  if (← getPass).depth == 0 && decl.head.params.isEmpty then
    let (found, lookups) :=
      Evaluation.reaches (← engine).scope (index, decl) (← read).current
    lookups.forM (fun name => session (SessionM.trip name))
    return found
  return false

/-- Reports a reference that makes the current declaration need itself. -/
def checkCycle (pos : Nat) (index : Nat) (decl : ValueDecl) : InferM Unit := do
  if index == (← read).current then
    match decl.head with
    | .pattern _ => report pos .cyclicDefinition
    | .function _ params =>
      if params.isEmpty && (← getPass).depth == 0 then report pos .infiniteRecursion
  else if ← isEvaluatedCycle index decl then
    report pos .infiniteRecursion

/-- The signature of a function or value; that of a pattern is not looked at. -/
def functionSignature? (decl : ValueDecl) : Option TypeExpr :=
  match decl.head with
  | .function _ _ => decl.signature
  | .pattern _ => none

/-- The type a finished declaration gives to one of its names. -/
def resultType (decl : ValueDecl) (name : Name) (result : InferenceResult) : Ty :=
  match decl.head with
  | .function _ _ => result.ty
  | .pattern pattern => (result.boundType? name pattern).getD .unknown

/-- The type of a top-level declaration at one use. -/
def declarationType (elsewhere : Elsewhere) (pos : Nat) (name : Name) (index : Nat)
    (decl : ValueDecl) : InferM Ty := do
  checkCycle pos index decl
  match functionSignature? decl with
  | some signature => convertForeign signature
  | none =>
    let key := decl.head.label
    if (← get).session.active.contains key then
      modifyPass (fun pass => { pass with recursive := pass.recursive ++ [key] })
      return .unknown
    match ← session (elsewhere.declaration index decl) with
    | .ok (result, recursive) =>
      modifyPass (fun pass => { pass with recursive := pass.recursive ++ recursive })
      instantiate (Scheme.closed (resultType decl name result))
    | .error .cancelled =>
      modifyPass (fun pass => { pass with cancelled := true })
      return .unknown
    | .error (.notTopLevel _) => return .unknown

/-- The function that builds the record of an alias. -/
def recordConstructorType (m : Name) (decl : AliasDecl) : InferM Ty := do
  let scope := (← engine).scope
  match ← session (SessionM.withTypes (TypeTable.expand scope m decl)) with
  | none => return .unknown
  | some declared =>
    let t ← allocate (declared.instantiate [])
    match t with
    | .record fields _ _ _ => return Ty.function (fields.map Prod.snd) t
    | _ => return .unknown

def targetType (elsewhere : Elsewhere) (pos : Nat) (name : Name) : ValueTarget → InferM Ty
  | .value index decl => declarationType elsewhere pos name index decl
  | .variant m decl index => do
    let scope := (← engine).scope
    let declared ← session (SessionM.withTypes (TypeTable.unionType scope m decl))
    match ← allocate (declared.variant? index) with
    | some (args, t) => return Ty.function args t
    | none => return .unknown
  | .recordConstructor m decl => recordConstructorType m decl
  | .hostValue decl => convertForeign decl.type
  | .external type => instantiate (Scheme.closed type)

/-- The type of a name that is no local one; unresolved and ambiguous names are unknown. -/
def globalReference (elsewhere : Elsewhere) (pos : Nat) (name : Ref) : InferM Ty := do
  match ← session (SessionM.findValues name) with
  | [target] => targetType elsewhere pos name.name target
  | _ => return .unknown

def reference (elsewhere : Elsewhere) (pos : Nat) (name : Ref) : InferM Ty := do
  match name.qualifier with
  | some _ => globalReference elsewhere pos name
  | none =>
    match ← localReference elsewhere pos name.name with
    | some t => return t
    | none => globalReference elsewhere pos name

/-- The precedence and type of an operator, when it is unambiguous. -/
def operatorType (elsewhere : Elsewhere) (pos : Nat) (name : Name) :
    InferM (Option (Precedence × Ty)) := do
  match (← engine).scope.findOperators name with
  | [target] => return some (target.precedence, ← targetType elsewhere pos name target.function)
  | _ => return none

/-! ### Entering a `let` -/

/-- A `let` function with signature, ready to be checked. -/
structure SignedDefinition where
  name : NameAt
  params : List Pattern
  body : Expr
  scheme : Scheme
  /-- The type variables of its signature and of those around it. -/
  vars : Assoc Name Ty

/-- The scope of a `let` while its definitions are being read. -/
structure LetScope where
  /-- Names declared so far. -/
  names : List Name := []
  scope : Scope := []
  signed : List SignedDefinition := []

def declareAll : List Name → List NameAt → InferM (List Name)
  | names, [] => return names
  | names, name :: rest => do
    declareAll (← declare names name) rest

/-- The scheme of a signature: its own type variables are quantified, those of the surroundings are
not. -/
def signatureScheme (surroundings : Assoc Name Ty) (t : Ty) : Scheme :=
  let outer := surroundings.filterMap (fun entry => entry.2.var?.map TyVar.id)
  ⟨t.vars.filter (fun v => !outer.contains v.id), t⟩

/-- Reads one definition: with a signature it can be used at once, without one it waits until it is
needed. -/
def readDefinition (slot : Nat) (definition : ValueDecl) (l : LetScope) : InferM LetScope := do
  let names ← declareAll l.names definition.head.boundNames
  let pass ← getPass
  match definition.head, definition.signature with
  | .function name params, some signature =>
    let (t, vars) ← convertSignature pass.typeVars signature
    let scheme := signatureScheme pass.typeVars t
    return { names
             scope := Assoc.set l.scope name.name (.poly scheme)
             signed := l.signed ++ [⟨name, params, definition.body, scheme, vars⟩] }
  | _, _ =>
    let scope := definition.head.boundNames.foldl
      (fun scope name => Assoc.set scope name.name (.pending slot definition pass.depth)) l.scope
    return { l with names, scope }

/-- Reads the definitions of a `let` in order. -/
def readDefinitions (slot : Nat) : List ValueDecl → LetScope → InferM LetScope
  | [], l => return l
  | definition :: rest, l => do
    readDefinitions (slot + 1) rest (← readDefinition slot definition l)

/-- Whether a definition of the innermost scope is still waiting. -/
def isPending (slot : Nat) : InferM Bool := do
  match (← getPass).scopes with
  | [] => return false
  | scope :: _ =>
    return scope.any (fun entry =>
      match entry.2 with
      | .pending other _ _ => other == slot
      | _ => false)

/-- Infers the definitions that nobody needed so far. -/
def inferWaiting (inferBody : Expr → InferM Ty) (slot : Nat) : List ValueDecl → InferM Unit
  | [] => pure ()
  | definition :: rest => do
    if ← isPending slot then
      inferPending inferBody 0 definition (← getPass).depth
    inferWaiting inferBody (slot + 1) rest

def checkSigned (inferBody : Expr → InferM Ty) (d : SignedDefinition) : InferM Unit := do
  let pass ← getPass
  bind d.name.name (.checking d.scheme (!d.params.isEmpty) pass.depth)
  modifyPass (fun pass => { pass with typeVars := d.vars })
  let _ ← inferFunction inferBody d.name d.params d.body (some d.scheme.ty)
  modifyPass (fun after => { after with typeVars := pass.typeVars })
  bind d.name.name (.poly d.scheme)

/-- Opens the scope of a `let` and infers its definitions. -/
def enterLet (inferBody : Expr → InferM Ty) (definitions : List ValueDecl) : InferM Unit := do
  let l ← readDefinitions 0 definitions {}
  pushScope l.scope
  inferWaiting inferBody 0 definitions
  l.signed.forM (checkSigned inferBody)

end InferM

end ElmInference
