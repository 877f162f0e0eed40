import ElmInference.Cache
import ElmInference.Infer.Evaluation

/-!
# The state of inference

An engine infers the declarations of one file. Its `Session` outlives a single declaration: the kept
results, the declarations and aliases that are being worked on, and the flag by which someone else
can call the work off. A `Pass` infers one top-level declaration with everything nested in it, and
is dropped when that declaration is done.

Faults end the work at once and keep the state, so that what has been inserted into the cache before
stays there.
-/

namespace ElmInference

/-- Which reuse of a name is a problem. -/
inductive Shadowing where
  /-- Only names bound twice by one pattern, parameter list or `let`. -/
  | sameScope
  /-- Also names that hide a local or top-level name. -/
  | allScopes
deriving DecidableEq, Inhabited

/-- A flag that someone else may set while inference runs. -/
structure CancelFlag where
  raised : Bool := false
  /-- What the next reads see when others change the flag in between; later reads see `raised`. -/
  upcoming : List Bool := []
deriving Inhabited

def CancelFlag.read (flag : CancelFlag) : Bool × CancelFlag :=
  match flag.upcoming with
  | [] => (flag.raised, flag)
  | seen :: later => (seen, { flag with upcoming := later })

/-- What stays the same for all work on one file. -/
structure Engine where
  file : FileId
  scope : ModuleScope
  shadowing : Shadowing := .sameScope
  /-- Looking up this plain value name raises the flag. -/
  tripwire : Option Name := none
deriving Inhabited

/-- What outlives the inference of one declaration. -/
structure Session where
  cache : Cache := {}
  /-- Top-level declarations that are being inferred. -/
  active : List Name := []
  /-- Aliases whose bodies are being converted. -/
  converting : List TypeKey := []
  /-- Without a flag inference cannot be called off. -/
  flag : Option CancelFlag := none
deriving Inhabited

inductive InferError where
  | cancelled
  | notTopLevel (name : Name)
deriving DecidableEq, Inhabited

def InferError.message : InferError → String
  | .cancelled => "inference was cancelled"
  | .notTopLevel name => name ++ " is not a top-level declaration of this module"

/-- A result, and the declarations in progress that it was inferred against. -/
abbrev Inferred := InferenceResult × List Name

abbrev SessionM := ReaderT Engine (ExceptT Fault (StateM Session))

/-- What a local name stands for. -/
inductive Binding where
  | mono (type : Ty)
  | poly (scheme : Scheme)
  /-- A `let` definition without signature that has not been inferred yet, with its place in the
  `let` and the number of lambdas around it. -/
  | pending (slot : Nat) (definition : ValueDecl) (depth : Nat)
  /-- A function with signature whose body is being inferred. -/
  | checking (scheme : Scheme) (hasParams : Bool) (depth : Nat)
  /-- A function without signature whose body is being inferred. -/
  | active (type : Ty) (hasParams : Bool) (depth : Nat)
deriving Inhabited

abbrev Scope := Assoc Name Binding

/-- The state of one pass. -/
structure Pass where
  store : Store := {}
  /-- Types of nodes, the latest first. -/
  nodeTypes : List (NodeId × Ty) := []
  problems : List Problem := []
  /-- Local names, the innermost scope first. -/
  scopes : List Scope := []
  /-- Variables of the signatures around the current expression. -/
  typeVars : Assoc Name Ty := []
  /-- How many lambdas and function bodies are around the current expression. -/
  depth : Nat := 0
  /-- Declarations in progress that were referred to. -/
  recursive : List Name := []
  cancelled : Bool := false
deriving Inhabited

structure Work where
  session : Session
  pass : Pass
deriving Inhabited

/-- The engine, and the place of the declaration being inferred. -/
structure Context where
  engine : Engine
  current : Nat
deriving Inhabited

abbrev InferM := ReaderT Context (ExceptT Fault (StateM Work))

namespace SessionM

/-- Reads the flag; without one nothing is ever called off. -/
def isCancelled : SessionM Bool := do
  let session ← get
  match session.flag with
  | none => return false
  | some flag =>
    let (seen, flag) := flag.read
    set { session with flag := some flag }
    return seen

/-- Raises the flag when a lookup hits the tripwire. -/
def trip (name : Ref) : SessionM Unit := do
  if name.qualifier.isNone && (← read).tripwire == some name.name then
    modify (fun session =>
      { session with flag := session.flag.map (fun flag => { flag with raised := true }) })

def findValues (name : Ref) : SessionM (List ValueTarget) := do
  trip name
  return (← read).scope.findValues name

def withTypes {α : Type} (work : StateM TypeTable α) : SessionM α :=
  modifyGet (fun session =>
    let (a, table) := work ⟨session.cache.declared, session.converting⟩
    (a, { session with
      cache := { session.cache with declared := table.declared }
      converting := table.converting }))

def runPass {α : Type} (current : Nat) (work : InferM α) : SessionM α := fun engine session =>
  let (a, after) := work ⟨engine, current⟩ ⟨session, {}⟩
  (a, after.session)

end SessionM

namespace InferM

def session {α : Type} (work : SessionM α) : InferM α := fun context w =>
  let (a, session) := work context.engine w.session
  (a, { w with session })

def getPass : InferM Pass := do
  return (← get).pass

def modifyPass (f : Pass → Pass) : InferM Unit :=
  modify (fun w => { w with pass := f w.pass })

def store {α : Type} (work : StoreM α) : InferM α := do
  let pass ← getPass
  match work pass.store with
  | .ok (a, store) =>
    modifyPass (fun pass => { pass with store })
    return a
  | .error fault => throw fault

/-- Works on the store without faults. -/
def allocate {α : Type} (work : Store → α × Store) : InferM α :=
  modifyGet (fun w =>
    let (a, store) := work w.pass.store
    (a, { w with pass := { w.pass with store } }))

def zonk (t : Ty) : InferM Ty :=
  store (StoreM.read (fun s => s.zonk t))

def freshVar (name : Name) : InferM Ty :=
  store (StoreM.freshVar name)

/-- As many fresh variables as a list is long. -/
def freshVars {α : Type} (name : Name) (xs : List α) : InferM (List Ty) :=
  xs.mapM (fun _ => freshVar name)

def engine : InferM Engine := do
  return (← read).engine

/-- Whether the work has been called off. Once seen, the flag is not read again. -/
def isCancelled : InferM Bool := do
  if (← getPass).cancelled then return true
  if ← session SessionM.isCancelled then
    modifyPass (fun pass => { pass with cancelled := true })
    return true
  return false

def report (pos : Nat) (kind : ProblemKind) : InferM Unit :=
  modifyPass (fun pass => { pass with problems := pass.problems ++ [⟨pos, kind⟩] })

def record (id : NodeId) (t : Ty) : InferM Unit :=
  modifyPass (fun pass => { pass with nodeTypes := (id, t) :: pass.nodeTypes })

/-- Requires `actual` to be `expected`, reporting at `pos` when it is not. -/
def check (pos : Nat) (actual expected : Ty) : InferM Bool := do
  match ← store (StoreM.unify actual expected) with
  | .ok () => return true
  | .error .infiniteType =>
    report pos .infiniteType
    return false
  | .error .mismatch =>
    let found ← zonk actual
    let required ← zonk expected
    report pos (.typeMismatch found required none)
    return false
  | .error (.record diff) =>
    let found ← zonk actual
    let required ← zonk expected
    report pos (.typeMismatch found required (some (← diff.mapTypesM zonk)))
    return false

/-- Converts a type expression with the given type variables in scope. Yields the type, the type
variables afterwards, and the problems found. -/
def convert (rigid : Bool) (vars : Assoc Name Ty) (t : TypeExpr) :
    InferM (Ty × Assoc Name Ty × List Problem) := do
  let scope := (← engine).scope
  let pass ← getPass
  let (type, c) ← session (SessionM.withTypes (fun table =>
    let (type, c) := Conversion.convert scope rigid t { table, store := pass.store, vars }
    ((type, c), c.table)))
  modifyPass (fun pass => { pass with store := c.store })
  return (type, c.vars, c.problems)

/-- Converts the signature of a definition; type variables first seen here are rigid. -/
def convertSignature (vars : Assoc Name Ty) (t : TypeExpr) : InferM (Ty × Assoc Name Ty) := do
  let (type, vars, problems) ← convert true vars t
  modifyPass (fun pass => { pass with problems := pass.problems ++ problems })
  return (type, vars)

/-- Converts the signature of another declaration, whose problems are reported over there. -/
def convertForeign (t : TypeExpr) : InferM Ty := do
  let (type, _, _) ← convert false [] t
  return type

def instantiate (scheme : Scheme) : InferM Ty :=
  allocate scheme.instantiate

/-! ### Scopes -/

def pushScope (scope : Scope) : InferM Unit :=
  modifyPass (fun pass => { pass with scopes := scope :: pass.scopes })

def popScope : InferM Unit :=
  modifyPass (fun pass => { pass with scopes := pass.scopes.tail })

def modifyScope (f : Scope → Scope) : InferM Unit :=
  modifyPass (fun pass =>
    match pass.scopes with
    | [] => pass
    | scope :: outer => { pass with scopes := f scope :: outer })

def bind (name : Name) (binding : Binding) : InferM Unit :=
  modifyScope (fun scope => Assoc.set scope name binding)

def unbind (name : Name) : InferM Unit :=
  modifyScope (fun scope => Assoc.remove scope name)

/-- The innermost binding of a name, with the number of scopes inside of its own. -/
def lookupIn (name : Name) : List Scope → Option (Nat × Binding)
  | [] => none
  | scope :: outer =>
    match Assoc.get? scope name with
    | some binding => some (0, binding)
    | none => (lookupIn name outer).map (fun found => (found.1 + 1, found.2))

def lookup (name : Name) : InferM (Option (Nat × Binding)) := do
  return lookupIn name (← getPass).scopes

/-- Whether a top-level declaration other than the current one has a name. -/
def hidesDeclaration (name : Name) : InferM Bool := do
  let targets ← session (SessionM.findValues (Ref.plain name))
  let current := (← read).current
  return targets.any (fun target =>
    match target with
    | .value index _ => index != current
    | _ => false)

/-- Whether binding a name would hide another one. -/
def shadows (name : Name) : InferM Bool := do
  if (← getPass).scopes.any (fun scope => Assoc.has scope name) then return true
  hidesDeclaration name

/-- Adds a name to those declared together, and reports it when it is taken. -/
def declare (names : List Name) (name : NameAt) : InferM (List Name) := do
  let hidden ← match (← engine).shadowing with
    | .sameScope => pure false
    | .allScopes => shadows name.name
  if names.contains name.name || hidden then report name.pos .conflictingName
  return name.name :: names

/-- Names bound by a pattern, with their types. -/
abbrev Bound := List (NameAt × Ty)

def bindAll (names : List Name) : Bound → InferM Unit
  | [] => pure ()
  | (name, t) :: rest => do
    let names ← declare names name
    bind name.name (.mono t)
    bindAll names rest

/-- The variables that a binding keeps from being generalized. -/
def bindingVars (s : Store) : Binding → Except Fault (List VarId)
  | .mono t => Scheme.freeVars s [t]
  | .active t _ _ => Scheme.freeVars s [t]
  | .poly scheme => schemeVars scheme
  | .checking scheme _ _ => schemeVars scheme
  | .pending _ _ _ => .ok []
where
  schemeVars (scheme : Scheme) : Except Fault (List VarId) := do
    let free ← Scheme.freeVars s [scheme.ty]
    return free.filter (fun id => !scheme.vars.any (·.id == id))

/-- The variables that the surroundings mention. -/
def environmentVars (pass : Pass) : Except Fault (List VarId) := do
  let signatures ← Scheme.freeVars pass.store (pass.typeVars.map Prod.snd)
  let bindings ← (pass.scopes.flatten).mapM (fun entry => bindingVars pass.store entry.2)
  return signatures ++ bindings.flatten

/-- Quantifies the variables of a type that the surroundings do not mention. -/
def generalize (t : Ty) : InferM Scheme := do
  let pass ← getPass
  match environmentVars pass with
  | .error fault => throw fault
  | .ok environment =>
    match Scheme.generalize pass.store t environment with
    | .error fault => throw fault
    | .ok scheme => return scheme

end InferM

end ElmInference
