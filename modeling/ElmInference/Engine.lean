import ElmInference.Infer.Expr

/-!
# Inferring declarations

`Engine.infer` answers for one declaration of a module: from the cache when it has been inferred
before, and by a pass of its own otherwise. Results that were inferred against a declaration in
progress depend on the order of requests and are not kept.

Bodies of definitions and declarations are entered one inside the other, and none is entered again
while it is being worked on. So the number of all definitions of the module bounds how deep this
goes, and `Engine.budget` is one more than that.
-/

namespace ElmInference

namespace InferM

/-- The latest type recorded for each node, by node. -/
def latestTypes : List (NodeId × Ty) → Assoc NodeId Ty
  | [] => []
  | (id, t) :: earlier =>
    (id, t) :: (latestTypes earlier).filter (fun entry => entry.1 != id)

/-- Puts an element before the first one that does not come earlier. -/
def insertBy {α : Type} (rank : α → Nat) (a : α) : List α → List α
  | [] => [a]
  | b :: rest => if rank a ≤ rank b then a :: b :: rest else b :: insertBy rank a rest

/-- Sorts by rank; elements of one rank stay in their order. -/
def sortBy {α : Type} (rank : α → Nat) (xs : List α) : List α :=
  xs.foldr (insertBy rank) []

/-- Problems by position; those of one position stay in the order in which they were found. -/
def sortProblems (problems : List Problem) : List Problem :=
  sortBy Problem.pos problems

/-- Freezes the types of a pass into a result. -/
def finish (t : Ty) : InferM Inferred := do
  let pass ← getPass
  let problems ← pass.problems.mapM (fun problem => do
    return { problem with kind := ← problem.kind.mapTypesM zonk })
  let ty ← zonk t
  let latest := sortBy Prod.fst (latestTypes pass.nodeTypes)
  let nodeTypes ← latest.mapM (fun entry => do return (entry.1, ← zonk entry.2))
  return ({ ty, nodeTypes, problems := sortProblems problems }, pass.recursive)

/-- Infers a top-level function or value, which may refer to itself. -/
def inferTopFunction (inferBody : Expr → InferM Ty) (name : NameAt) (params : List Pattern)
    (body : Expr) : Option TypeExpr → InferM Ty
  | some signature => do
    let (t, vars) ← convertSignature [] signature
    modifyPass (fun pass => { pass with typeVars := vars })
    pushScope [(name.name, .checking (Scheme.closed t) (!params.isEmpty) 0)]
    let t ← inferFunction inferBody name params body (some t)
    popScope
    return t
  | none => do
    let self ← freshVar "a"
    pushScope [(name.name, .active self (!params.isEmpty) 0)]
    let t ← inferFunction inferBody name params body none
    popScope
    let _ ← check name.pos t self
    return t

def inferTopPattern (inferBody : Expr → InferM Ty) (pattern : Pattern) (body : Expr) :
    InferM Ty := do
  pushScope []
  let (t, bound) ← inferDestructuring inferBody pattern body
  bindAll [] bound
  popScope
  return t

def inferDeclaration (inferBody : Expr → InferM Ty) (decl : ValueDecl) :
    InferM (Except InferError Inferred) := do
  let t ← match decl.head with
    | .function name params => inferTopFunction inferBody name params decl.body decl.signature
    | .pattern pattern => inferTopPattern inferBody pattern decl.body
  if (← getPass).cancelled then return .error .cancelled
  return .ok (← finish t)

end InferM

namespace SessionM

/-- Infers a declaration that has no kept result, and keeps its result if it depends on no
declaration in progress. -/
def compute (inferBody : Expr → InferM Ty) (key : DeclKey) (index : Nat) (decl : ValueDecl) :
    SessionM (Except InferError Inferred) := do
  modify (fun session => { session with active := key.name :: session.active })
  let outcome ← runPass index (InferM.inferDeclaration inferBody decl)
  modify (fun session => { session with active := session.active.filter (· != key.name) })
  match outcome with
  | .error e => return .error e
  | .ok (result, recursive) =>
    let others := recursive.filter (· != key.name)
    if others.isEmpty then
      modify (fun session => { session with cache := session.cache.insert key result })
    return .ok (result, others)

/-- The result of a top-level declaration, from the cache when it is kept there. -/
def inferTopLevel (inferBody : Expr → InferM Ty) (index : Nat) (decl : ValueDecl) :
    SessionM (Except InferError Inferred) := do
  let key := DeclKey.ofDecl (← read).file decl
  match (← get).cache.get? key with
  | some result => return .ok (result, [])
  | none =>
    if ← isCancelled then return .error .cancelled
    compute inferBody key index decl

end SessionM

/-- Infers an expression, entering definitions and declarations to a depth of at most `n`. -/
def InferM.exprAt : Nat → Expr → InferM Ty
  | 0 => fun _ => throw .diverged
  | n + 1 => InferM.inferExpr ⟨exprAt n, SessionM.inferTopLevel (exprAt n)⟩

/-- What to infer: a declaration of the module by its place, or one that is no part of it. -/
inductive Request where
  | declared (index : Nat)
  | detached (decl : ValueDecl)
deriving Inhabited

namespace Engine

/-- How deep definitions and declarations of a module can be entered one inside the other. -/
def budget (engine : Engine) : Nat :=
  engine.scope.module.definitionCount + 1

/-- The declaration that a request is about. -/
def decl? (engine : Engine) : Request → Option ValueDecl
  | .declared index => engine.scope.module.valueAt? index
  | .detached decl => some decl

/-- The place of the requested declaration among the candidates of its name. -/
def place? (request : Request) (targets : List ValueTarget) : Option (Nat × ValueDecl) :=
  targets.findSome? (fun target =>
    match target, request with
    | .value index decl, .declared wanted => if index = wanted then some (index, decl) else none
    | _, _ => none)

/-- Infers a top-level declaration. Only what the first of its names can refer to is accepted. -/
def inferDecl (engine : Engine) (request : Request) (decl : ValueDecl) :
    SessionM (Except InferError InferenceResult) := do
  let notTopLevel := InferError.notTopLevel decl.head.label
  match decl.head.boundNames with
  | [] => return .error notTopLevel
  | name :: _ =>
    match place? request (← SessionM.findValues (Ref.plain name.name)) with
    | none => return .error notTopLevel
    | some (index, decl) =>
      match ← SessionM.inferTopLevel (InferM.exprAt engine.budget) index decl with
      | .ok (result, _) => return .ok result
      | .error e => return .error e

def infer (engine : Engine) (request : Request) (session : Session) :
    Except Fault (Except InferError InferenceResult) × Session :=
  match engine.decl? request with
  | none => (.ok (.error (.notTopLevel "")), session)
  | some decl => engine.inferDecl request decl engine session

/-- Answers requests for declarations in order, up to the first fault. -/
def inferEach (engine : Engine) : List (Nat × ValueDecl) → Session →
    List (Name × Except Fault (Except InferError InferenceResult)) × Session
  | [], session => ([], session)
  | (index, decl) :: rest, session =>
    match engine.infer (.declared index) session with
    | (.error fault, session) => ([(decl.head.label, .error fault)], session)
    | (.ok answer, session) =>
      let (answers, session) := inferEach engine rest session
      ((decl.head.label, .ok answer) :: answers, session)

/-- Answers for every value declaration of the module, in order. -/
def inferAll (engine : Engine) (session : Session) :
    List (Name × Except Fault (Except InferError InferenceResult)) × Session :=
  engine.inferEach engine.scope.module.values session

end Engine

end ElmInference
