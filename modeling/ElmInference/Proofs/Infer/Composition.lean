import ElmInference.Proofs.Infer.Concord

/-!
# What inference is made of

Inference is put together from contained work, changes of its own pass, work on the declared types of the module, and
calls of other declarations of the module that have no signature. One look at the whole of it is enough to see this,
and what holds of the parts and is passed on from step to step then holds of every run. The look is at two computations
at once, which may enter definitions and declarations to different depths and are otherwise the same. The first facts
that follow are here: inference never takes back a problem, nor a note, nor that the work was called off.
-/

namespace ElmInference

namespace InferM

variable {α β : Type}

/-- The use of a declaration that is called; nothing is known of one whose call fails. -/
def called (call : SessionM (Except InferError Inferred)) (use : InferenceResult → InferM α) (nothing : α) :
    InferM α := do
  match ← session call with
  | .ok (result, recursive) =>
    modifyPass (fun pass => { pass with recursive := pass.recursive ++ recursive })
    use result
  | .error .cancelled =>
    modifyPass (fun pass => { pass with cancelled := true })
    return nothing
  | .error (.notTopLevel _) => return nothing

/-- A reference to a declaration without signature. Nothing is known of one that is in progress, which is noted. -/
def awaited (label : Name) (call : SessionM (Except InferError Inferred)) (use : InferenceResult → InferM α)
    (nothing : α) : InferM α := do
  if (← get).session.active.contains label then
    modifyPass (fun pass => { pass with recursive := pass.recursive ++ [label] })
    return nothing
  else
    called call use nothing

/-- The same work twice, where the second may go deeper than the first. It is made of contained work, changes of the pass
that take nothing back, work on declared types, and calls of declarations without signature. `calls` tells by which
computations the declarations may be called. -/
inductive Composed (engine : Engine)
    (calls : Nat → ValueDecl → SessionM (Except InferError Inferred) → SessionM (Except InferError Inferred) → Prop) :
    {α : Type} → InferM α → InferM α → Prop where
  | contained {α : Type} {x : InferM α} (h : Contained True True x) : Composed engine calls x x
  | diverged {α : Type} (x : InferM α) : Composed engine calls (throw .diverged) x
  | bind {α β : Type} {x x' : InferM α} {f f' : α → InferM β} (hx : Composed engine calls x x')
      (hf : ∀ a, Composed engine calls (f a) (f' a)) : Composed engine calls (x >>= f) (x' >>= f')
  | engine {α : Type} {f f' : Engine → InferM α} (h : Composed engine calls (f engine) (f' engine)) :
      Composed engine calls (InferM.engine >>= f) (InferM.engine >>= f')
  | find {α : Type} (name : Ref) {f f' : List ValueTarget → InferM α}
      (h : Composed engine calls (f (engine.scope.findValues name)) (f' (engine.scope.findValues name))) :
      Composed engine calls (session (SessionM.findValues name) >>= f) (session (SessionM.findValues name) >>= f')
  | getPass : Composed engine calls getPass getPass
  | modify {f : Pass → Pass}
      (h : ∀ pass : Pass, pass.problems <+: (f pass).problems ∧ (f pass).cancelled = pass.cancelled ∧
        (f pass).recursive = pass.recursive) : Composed engine calls (modifyPass f) (modifyPass f)
  | unionType {m : Name} {decl : UnionDecl} {index : Nat} (h : engine.scope.Offers (.variant m decl index)) :
      Composed engine calls (session (SessionM.withTypes (TypeTable.unionType engine.scope m decl)))
        (session (SessionM.withTypes (TypeTable.unionType engine.scope m decl)))
  | expand {m : Name} {decl : AliasDecl} (h : engine.scope.Offers (.recordConstructor m decl)) :
      Composed engine calls (session (SessionM.withTypes (TypeTable.expand engine.scope m decl)))
        (session (SessionM.withTypes (TypeTable.expand engine.scope m decl)))
  | awaited {α : Type} {index : Nat} {decl : ValueDecl} {call call' : SessionM (Except InferError Inferred)}
      {use use' : InferenceResult → InferM α} (nothing : α) (h : engine.scope.Offers (.value index decl))
      (hsignature : functionSignature? decl = none) (hcall : calls index decl call call')
      (huse : ∀ result, Composed engine calls (use result) (use' result)) :
      Composed engine calls (awaited decl.head.label call use nothing) (awaited decl.head.label call' use' nothing)

variable {engine : Engine}
  {calls : Nat → ValueDecl → SessionM (Except InferError Inferred) → SessionM (Except InferError Inferred) → Prop}

theorem composed_pure (a : α) : Composed engine calls (pure a) (pure a) :=
  .contained (.pure a)

/-! ### Scopes -/

/-- A change that concerns neither problems nor notes nor calling off takes nothing back. -/
theorem composed_modifyRest {f : Pass → Pass}
    (h : ∀ pass, (f pass).problems = pass.problems ∧ (f pass).cancelled = pass.cancelled ∧
      (f pass).recursive = pass.recursive) :
    Composed engine calls (modifyPass f) (modifyPass f) := by
  refine .modify fun pass => ⟨?_, (h pass).2⟩
  rw [(h pass).1]

theorem composed_pushScope (scope : Scope) : Composed engine calls (pushScope scope) (pushScope scope) :=
  composed_modifyRest fun _ => ⟨rfl, rfl, rfl⟩

theorem composed_popScope : Composed engine calls popScope popScope :=
  composed_modifyRest fun _ => ⟨rfl, rfl, rfl⟩

theorem composed_modifyScope (f : Scope → Scope) : Composed engine calls (modifyScope f) (modifyScope f) := by
  refine composed_modifyRest fun pass => ?_
  split <;> exact ⟨rfl, rfl, rfl⟩

theorem composed_forM {f f' : α → InferM PUnit} (h : ∀ a, Composed engine calls (f a) (f' a)) (xs : List α) :
    Composed engine calls (xs.forM f) (xs.forM f') := by
  induction xs with
  | nil => exact composed_pure _
  | cons x xs ih => exact (h x).bind fun _ => ih

theorem composed_bindAll (taken : List Name) (bound : Bound) :
    Composed engine calls (bindAll taken bound) (bindAll taken bound) := by
  induction bound generalizing taken with
  | nil => exact composed_pure _
  | cons entry rest ih =>
    rw [bindAll]
    exact .bind (.contained (contained_declare _ _)) fun taken => (composed_modifyScope _).bind fun _ => ih taken

theorem composed_bindGeneralized (bound : Bound) :
    Composed engine calls (bindGeneralized bound) (bindGeneralized bound) := by
  induction bound with
  | nil => exact composed_pure _
  | cons entry rest ih =>
    rw [bindGeneralized]
    exact .bind (.contained (contained_generalize _)) fun _ => (composed_modifyScope _).bind fun _ => ih

theorem composed_deeper (levels : Nat) {work work' : InferM α} (h : Composed engine calls work work') :
    Composed engine calls (deeper levels work) (deeper levels work') := by
  refine .bind (composed_modifyRest fun _ => ⟨rfl, rfl, rfl⟩) fun _ => h.bind fun _ => .bind ?_ fun _ => composed_pure _
  exact composed_modifyRest fun _ => ⟨rfl, rfl, rfl⟩

theorem composed_hidingScopes (inner : Nat) {work work' : InferM α} (h : Composed engine calls work work') :
    Composed engine calls (hidingScopes inner work) (hidingScopes inner work') := by
  refine .bind .getPass fun _ => .bind (composed_modifyRest fun _ => ⟨rfl, rfl, rfl⟩) fun _ => h.bind fun _ => ?_
  exact .bind (composed_modifyRest fun _ => ⟨rfl, rfl, rfl⟩) fun _ => composed_pure _

/-! ### Definitions -/

section Bodies

variable {inferBody inferBody' : Expr → InferM Ty} (hbody : ∀ e, Composed engine calls (inferBody e) (inferBody' e))

include hbody

theorem composed_inferFunction (name : NameAt) (params : List Pattern) (body : Expr) (signature : Option Ty) :
    Composed engine calls (inferFunction inferBody name params body signature)
      (inferFunction inferBody' name params body signature) := by
  have hrest : ∀ (last : Ty → InferM Ty) (types : List Ty), (∀ t, Contained True True (last t)) →
      Composed engine calls (do
        pushScope []
        let bound ← inferParams params types
        bindAll [name.name] bound
        let bodyType ← deeper (if params.isEmpty then 0 else 1) (inferBody body)
        popScope
        last bodyType) (do
        pushScope []
        let bound ← inferParams params types
        bindAll [name.name] bound
        let bodyType ← deeper (if params.isEmpty then 0 else 1) (inferBody' body)
        popScope
        last bodyType) := by
    intro last types hlast
    refine (composed_pushScope []).bind fun _ => .bind (.contained (contained_inferParams params types)) fun bound => ?_
    refine (composed_bindAll _ bound).bind fun _ => (composed_deeper _ (hbody body)).bind fun t => ?_
    exact composed_popScope.bind fun _ => .contained (hlast t)
  refine .bind (.contained (contained_expectedParams name params signature)) fun expected => ?_
  cases expected with
  | some types =>
    refine (composed_pure types).bind fun types => hrest _ types fun t => ?_
    cases signature with
    | some signature => exact (contained_check _ _ _).bind fun _ => .pure _
    | none => exact .pure _
  | none =>
    refine .bind (.contained (contained_freshVars _ _)) fun types => hrest _ types fun t => ?_
    cases signature <;> exact .pure _

theorem composed_inferDestructuring (pattern : Pattern) (body : Expr) :
    Composed engine calls (inferDestructuring inferBody pattern body) (inferDestructuring inferBody' pattern body) :=
  (hbody body).bind fun t => .bind (.contained (contained_inferPattern .declaration pattern t)) fun _ => composed_pure _

theorem composed_inferDefinition (definition : ValueDecl) (depth : Nat) :
    Composed engine calls (inferDefinition inferBody definition depth)
      (inferDefinition inferBody' definition depth) := by
  unfold inferDefinition
  split
  · refine .bind (.contained (contained_freshVar "a")) fun self => (composed_modifyScope _).bind fun _ => ?_
    refine (composed_inferFunction hbody _ _ _ none).bind fun t => .bind (.contained (contained_check _ _ _)) fun _ => ?_
    refine (composed_modifyScope _).bind fun _ => .bind (.contained (contained_generalize t)) fun _ => ?_
    exact composed_modifyScope _
  · refine (composed_forM (fun _ => composed_modifyScope _) _).bind fun _ => ?_
    refine (composed_inferDestructuring hbody _ _).bind fun out => ?_
    exact (composed_forM (fun _ => composed_modifyScope _) _).bind fun _ => composed_bindGeneralized _

theorem composed_inferPending (inner : Nat) (definition : ValueDecl) (depth : Nat) :
    Composed engine calls (inferPending inferBody inner definition depth)
      (inferPending inferBody' inner definition depth) := by
  refine composed_hidingScopes inner (.bind .getPass fun pass => .bind ?_ fun _ => ?_)
  · exact composed_modifyRest fun _ => ⟨rfl, rfl, rfl⟩
  · exact (composed_inferDefinition hbody definition depth).bind fun _ => composed_modifyRest fun _ => ⟨rfl, rfl, rfl⟩

theorem composed_inferWaiting (slot : Nat) (definitions : List ValueDecl) :
    Composed engine calls (inferWaiting inferBody slot definitions) (inferWaiting inferBody' slot definitions) := by
  induction definitions generalizing slot with
  | nil => exact composed_pure _
  | cons definition rest ih =>
    refine .bind (.contained (contained_isPending slot)) fun pending => ?_
    split
    · exact .bind .getPass fun pass => (composed_inferPending hbody 0 definition pass.depth).bind fun _ => ih (slot + 1)
    · exact ih (slot + 1)

theorem composed_checkSigned (d : SignedDefinition) :
    Composed engine calls (checkSigned inferBody d) (checkSigned inferBody' d) := by
  refine .bind .getPass fun pass => (composed_modifyScope _).bind fun _ => .bind ?_ fun _ => ?_
  · exact composed_modifyRest fun _ => ⟨rfl, rfl, rfl⟩
  · refine (composed_inferFunction hbody _ _ _ _).bind fun _ => .bind ?_ fun _ => composed_modifyScope _
    exact composed_modifyRest fun _ => ⟨rfl, rfl, rfl⟩

theorem composed_enterLet (definitions : List ValueDecl) :
    Composed engine calls (enterLet inferBody definitions) (enterLet inferBody' definitions) := by
  refine .bind (.contained (contained_readDefinitions 0 definitions {})) fun l => (composed_pushScope _).bind fun _ => ?_
  exact (composed_inferWaiting hbody 0 definitions).bind fun _ => composed_forM (composed_checkSigned hbody) _

end Bodies

/-! ### References -/

section Elsewhere

variable {elsewhere elsewhere' : Elsewhere}
  (hcalls : ∀ index decl, calls index decl (elsewhere.declaration index decl) (elsewhere'.declaration index decl))

include hcalls

omit hcalls in
/-- A declaration without signature is awaited, once the cycles through it have been looked for. -/
theorem declarationType_of_unsigned (elsewhere : Elsewhere) (pos : Nat) (name : Name) (index : Nat) {decl : ValueDecl}
    (h : functionSignature? decl = none) : declarationType elsewhere pos name index decl = (do
      checkCycle pos index decl
      awaited decl.head.label (elsewhere.declaration index decl)
        (fun result => instantiate (Scheme.closed (resultType decl name result))) .unknown) := by
  unfold declarationType
  rw [h]
  rfl

theorem composed_declarationType (pos : Nat) (name : Name) {index : Nat} {decl : ValueDecl}
    (h : engine.scope.Offers (.value index decl)) :
    Composed engine calls (declarationType elsewhere pos name index decl)
      (declarationType elsewhere' pos name index decl) := by
  cases hsignature : functionSignature? decl with
  | some signature =>
    unfold declarationType
    rw [hsignature]
    exact .bind (.contained (contained_checkCycle pos index decl)) fun _ => .contained (contained_convertForeign signature)
  | none =>
    rw [declarationType_of_unsigned elsewhere pos name index hsignature,
      declarationType_of_unsigned elsewhere' pos name index hsignature]
    refine .bind (.contained (contained_checkCycle pos index decl)) fun _ => ?_
    exact .awaited Ty.unknown h hsignature (hcalls index decl) fun _ => .contained (contained_instantiate _)

theorem composed_targetType (pos : Nat) (name : Name) {target : ValueTarget}
    (h : engine.scope.Offers target) :
    Composed engine calls (targetType elsewhere pos name target) (targetType elsewhere' pos name target) := by
  cases target with
  | value index decl => exact composed_declarationType hcalls pos name h
  | variant m decl index =>
    refine .engine (.bind (.unionType h) fun _ => .bind (.contained (.allocate _)) fun found => ?_)
    split <;> exact composed_pure _
  | recordConstructor m decl =>
    refine .engine (.bind (.expand h) fun found => ?_)
    split
    · exact composed_pure _
    · refine .bind (.contained (.allocate _)) fun t => ?_
      split <;> exact composed_pure _
  | hostValue decl => exact .contained (contained_convertForeign _)
  | external t => exact .contained (contained_instantiate _)

theorem composed_globalReference (pos : Nat) (name : Ref) :
    Composed engine calls (globalReference elsewhere pos name) (globalReference elsewhere' pos name) := by
  refine .find name ?_
  split
  · next target heq => exact composed_targetType hcalls pos _ (ModuleScope.offers_of_mem_findValues (heq ▸ List.mem_singleton_self _))
  · exact composed_pure _

theorem composed_operatorType (pos : Nat) (name : Name) :
    Composed engine calls (operatorType elsewhere pos name) (operatorType elsewhere' pos name) := by
  refine .engine ?_
  split
  · next target heq =>
    refine (composed_targetType hcalls pos name ?_).bind fun _ => composed_pure _
    exact ModuleScope.offers_of_mem_findOperators (heq ▸ List.mem_singleton_self _)
  · exact composed_pure _

theorem composed_operatorTypes (operators : List NameAt) :
    Composed engine calls (operatorTypes elsewhere operators) (operatorTypes elsewhere' operators) := by
  induction operators with
  | nil => exact composed_pure _
  | cons operator rest ih =>
    rw [operatorTypes]
    refine (composed_operatorType hcalls _ _).bind fun found => ?_
    split
    · exact composed_pure _
    · refine ih.bind fun more => ?_
      split <;> exact composed_pure _

theorem composed_inferChain (operands : List (Nat × Ty)) (operators : List NameAt) :
    Composed engine calls (inferChain elsewhere operands operators) (inferChain elsewhere' operands operators) := by
  refine (composed_operatorTypes hcalls operators).bind fun found => ?_
  split
  · exact composed_pure _
  · split
    · exact .bind (.contained (contained_applyTree _ _ _)) fun _ => composed_pure _
    · exact .contained (contained_reported _ _ _)
    · exact .contained (contained_reported _ _ _)

omit hcalls in
theorem composed_localReference (hbody : ∀ e, Composed engine calls (elsewhere.body e) (elsewhere'.body e)) (pos : Nat)
    (name : Name) :
    Composed engine calls (localReference elsewhere pos name) (localReference elsewhere' pos name) := by
  have huse : ∀ binding, Composed engine calls (do return some (← useBinding pos binding) : InferM (Option Ty))
      (do return some (← useBinding pos binding)) := fun binding =>
    .bind (.contained (contained_useBinding pos binding)) fun _ => composed_pure _
  refine .bind (.contained (contained_lookup name)) fun found => ?_
  split
  · exact composed_pure _
  · refine (composed_inferPending hbody _ _ _).bind fun _ => .bind (.contained (contained_lookup name)) fun again => ?_
    split
    · exact huse _
    · exact composed_pure _
  · exact huse _

theorem composed_reference (hbody : ∀ e, Composed engine calls (elsewhere.body e) (elsewhere'.body e)) (pos : Nat)
    (name : Ref) :
    Composed engine calls (reference elsewhere pos name) (reference elsewhere' pos name) := by
  unfold reference
  split
  · exact composed_globalReference hcalls pos name
  · refine (composed_localReference hbody pos name.name).bind fun found => ?_
    split
    · exact composed_pure _
    · exact composed_globalReference hcalls pos name

end Elsewhere

/-! ### Expressions -/

section Expressions

variable {elsewhere elsewhere' : Elsewhere}
  (hcalls : ∀ index decl, calls index decl (elsewhere.declaration index decl) (elsewhere'.declaration index decl))
  (hbody : ∀ e, Composed engine calls (elsewhere.body e) (elsewhere'.body e))

include hcalls hbody

set_option linter.unusedSectionVars false

mutual

theorem composed_inferExpr (e : Expr) : Composed engine calls (inferExpr elsewhere e) (inferExpr elsewhere' e) := by
  match e with
  | .mk id pos kind =>
    rw [inferExpr]
    refine .bind (.contained .isCancelled) fun cancelled => ?_
    split
    · exact composed_pure _
    · refine (composed_inferKind pos kind).bind fun t => .bind (.contained (.record trivial id t)) fun _ => ?_
      exact composed_pure _

theorem composed_inferKind (pos : Nat) (kind : ExprKind Expr) :
    Composed engine calls (inferKind elsewhere pos kind) (inferKind elsewhere' pos kind) := by
  match kind with
  | .unit =>
    rw [inferKind]
    exact composed_pure _
  | .literal kind =>
    rw [inferKind]
    exact .contained (contained_literalType kind)
  | .var name =>
    rw [inferKind]
    exact composed_reference hcalls hbody pos name
  | .operator name =>
    rw [inferKind]
    refine (composed_operatorType hcalls pos name).bind fun found => ?_
    split <;> exact composed_pure _
  | .call target args =>
    rw [inferKind]
    refine (composed_inferExpr target).bind fun t => (composed_inferAll args).bind fun types => ?_
    exact .contained (contained_apply _ _ _)
  | .binary operands operators =>
    rw [inferKind]
    exact (composed_inferAll operands).bind fun types => composed_inferChain hcalls _ _
  | .negate operand =>
    rw [inferKind]
    refine (composed_inferExpr operand).bind fun t => .bind (.contained (contained_freshVar _)) fun number => ?_
    exact .bind (.contained (contained_check _ _ _)) fun _ => composed_pure _
  | .tuple items =>
    rw [inferKind]
    exact (composed_inferAll items).bind fun types => composed_pure _
  | .list items =>
    rw [inferKind]
    refine (composed_inferItems none items).bind fun found => ?_
    split
    · exact composed_pure _
    · exact .bind (.contained (contained_freshVar _)) fun _ => composed_pure _
  | .record fields =>
    rw [inferKind]
    exact (composed_inferFields fields).bind fun _ => composed_pure _
  | .update base fields =>
    rw [inferKind]
    refine (composed_reference hcalls hbody _ _).bind fun t => ?_
    exact (composed_inferUpdates _ t true fields).bind fun _ => composed_pure _
  | .access target field =>
    rw [inferKind]
    exact (composed_inferExpr target).bind fun t => .contained (contained_accessType _ _ _)
  | .accessor field =>
    rw [inferKind]
    refine .bind (.contained (contained_freshVar _)) fun _ => .bind (.contained (contained_freshVar _)) fun _ => ?_
    exact composed_pure _
  | .conditional branches otherwise =>
    rw [inferKind]
    refine (composed_inferBranches none branches).bind fun found => ?_
    exact (composed_inferExpr otherwise).bind fun t => .contained (contained_joinType _ _ _)
  | .caseOf scrutinee branches =>
    rw [inferKind]
    refine (composed_inferExpr scrutinee).bind fun t => ?_
    exact (composed_inferCases t none branches).bind fun _ => composed_pure _
  | .lambda params body =>
    rw [inferKind]
    refine .bind (.contained (contained_freshVars _ _)) fun types => (composed_pushScope []).bind fun _ => ?_
    refine .bind (.contained (contained_inferParams params types)) fun bound => (composed_bindAll _ bound).bind fun _ => ?_
    refine (composed_deeper 1 (composed_inferExpr body)).bind fun t => ?_
    exact composed_popScope.bind fun _ => composed_pure _
  | .letIn definitions body =>
    rw [inferKind]
    refine (composed_enterLet hbody definitions).bind fun _ => (composed_inferExpr body).bind fun t => ?_
    exact composed_popScope.bind fun _ => composed_pure _

theorem composed_inferAll (es : List Expr) :
    Composed engine calls (inferAll elsewhere es) (inferAll elsewhere' es) := by
  match es with
  | [] =>
    rw [inferAll]
    exact composed_pure _
  | e :: es =>
    rw [inferAll]
    exact (composed_inferExpr e).bind fun t => (composed_inferAll es).bind fun _ => composed_pure _

theorem composed_inferItems (first : Option Ty) (es : List Expr) :
    Composed engine calls (inferItems elsewhere first es) (inferItems elsewhere' first es) := by
  match es with
  | [] =>
    rw [inferItems]
    exact composed_pure _
  | e :: es =>
    rw [inferItems]
    refine (composed_inferExpr e).bind fun t => .bind (.contained (contained_joinType _ _ _)) fun first => ?_
    exact composed_inferItems (some first) es

theorem composed_inferFields (fields : List (NameAt × Expr)) :
    Composed engine calls (inferFields elsewhere fields) (inferFields elsewhere' fields) := by
  match fields with
  | [] =>
    rw [inferFields]
    exact composed_pure _
  | (name, e) :: rest =>
    rw [inferFields]
    exact (composed_inferExpr e).bind fun t => (composed_inferFields rest).bind fun _ => composed_pure _

theorem composed_inferUpdates (basePos : Nat) (base : Ty) (isRecord : Bool) (fields : List (NameAt × Expr)) :
    Composed engine calls (inferUpdates elsewhere basePos base isRecord fields)
      (inferUpdates elsewhere' basePos base isRecord fields) := by
  match fields with
  | [] =>
    rw [inferUpdates]
    exact composed_pure _
  | (name, e) :: rest =>
    rw [inferUpdates]
    refine (composed_inferExpr e).bind fun t => ?_
    split
    · refine .bind (.contained (contained_updateField _ _ _ _ _)) fun isRecord => ?_
      exact composed_inferUpdates basePos base isRecord rest
    · exact composed_inferUpdates basePos base false rest

theorem composed_inferBranches (first : Option Ty) (branches : List (Expr × Expr)) :
    Composed engine calls (inferBranches elsewhere first branches) (inferBranches elsewhere' first branches) := by
  match branches with
  | [] =>
    rw [inferBranches]
    exact composed_pure _
  | (condition, branch) :: rest =>
    rw [inferBranches]
    refine (composed_inferExpr condition).bind fun t => .bind (.contained (contained_check _ _ _)) fun _ => ?_
    refine (composed_inferExpr branch).bind fun u => .bind (.contained (contained_joinType _ _ _)) fun first => ?_
    exact composed_inferBranches (some first) rest

theorem composed_inferCases (scrutinee : Ty) (first : Option Ty) (branches : List (Pattern × Expr)) :
    Composed engine calls (inferCases elsewhere scrutinee first branches)
      (inferCases elsewhere' scrutinee first branches) := by
  match branches with
  | [] =>
    rw [inferCases]
    exact composed_pure _
  | (pattern, body) :: rest =>
    rw [inferCases]
    refine (composed_pushScope []).bind fun _ => .bind (.contained (contained_inferPattern .branch pattern scrutinee))
      fun bound => (composed_bindAll _ bound).bind fun _ => ?_
    refine (composed_inferExpr body).bind fun t => .bind (.contained (contained_joinType _ _ _)) fun first => ?_
    exact composed_popScope.bind fun _ => composed_inferCases scrutinee (some first) rest

end

end Expressions

/-- Whether what lies elsewhere is made of the same work as inference itself. -/
def IsComposed (engine : Engine) (elsewhere : Elsewhere) : Prop :=
  ∃ calls, (∀ index decl, calls index decl (elsewhere.declaration index decl) (elsewhere.declaration index decl)) ∧
    ∀ e, Composed engine calls (elsewhere.body e) (elsewhere.body e)

/-! ### Declarations -/

/-- Declarations are called in passes that go less deep than a given depth, and deeper the second time. -/
def CallsBelow (limit index : Nat) (decl : ValueDecl) (x x' : SessionM (Except InferError Inferred)) : Prop :=
  ∃ m n, m < limit ∧ m ≤ n ∧ x = SessionM.inferTopLevel (exprAt m) index decl ∧
    x' = SessionM.inferTopLevel (exprAt n) index decl

theorem composed_exprAt {m n limit : Nat} (hlimit : m ≤ limit) (h : m ≤ n) (e : Expr) :
    Composed engine (CallsBelow limit) (exprAt m e) (exprAt n e) := by
  induction m generalizing n e with
  | zero => exact .diverged _
  | succ m ih =>
    obtain ⟨n, rfl⟩ := Nat.exists_eq_succ_of_ne_zero (Nat.ne_of_gt (Nat.lt_of_lt_of_le (Nat.succ_pos m) h))
    refine composed_inferExpr (fun index decl => ?_) (fun e => ?_) e
    · exact ⟨m, n, hlimit, Nat.le_of_succ_le_succ h, rfl, rfl⟩
    · exact ih (Nat.le_of_succ_le hlimit) (Nat.le_of_succ_le_succ h) e

theorem composed_finish (t : Ty) : Composed engine calls (finish t) (finish t) := by
  refine .bind .getPass fun pass => .contained ?_
  refine (contained_mapM contained_zonkProblem _).bind fun _ => (contained_zonk t).bind fun _ => ?_
  exact (contained_mapM contained_zonkEntry _).bind fun _ => .pure _

section Bodies

variable {inferBody inferBody' : Expr → InferM Ty} (hbody : ∀ e, Composed engine calls (inferBody e) (inferBody' e))

include hbody

theorem composed_inferTopFunction (name : NameAt) (params : List Pattern) (body : Expr) (signature : Option TypeExpr) :
    Composed engine calls (inferTopFunction inferBody name params body signature)
      (inferTopFunction inferBody' name params body signature) := by
  cases signature with
  | some signature =>
    refine .bind (.contained (contained_convertSignature _ _)) fun out => .bind ?_ fun _ => ?_
    · exact composed_modifyRest fun _ => ⟨rfl, rfl, rfl⟩
    · refine (composed_pushScope _).bind fun _ => (composed_inferFunction hbody _ _ _ _).bind fun t => ?_
      exact composed_popScope.bind fun _ => composed_pure _
  | none =>
    refine .bind (.contained (contained_freshVar "a")) fun self => (composed_pushScope _).bind fun _ => ?_
    refine (composed_inferFunction hbody _ _ _ _).bind fun t => composed_popScope.bind fun _ => ?_
    exact .bind (.contained (contained_check _ _ _)) fun _ => composed_pure _

theorem composed_inferTopPattern (pattern : Pattern) (body : Expr) :
    Composed engine calls (inferTopPattern inferBody pattern body) (inferTopPattern inferBody' pattern body) := by
  refine (composed_pushScope []).bind fun _ => (composed_inferDestructuring hbody pattern body).bind fun out => ?_
  exact (composed_bindAll _ _).bind fun _ => composed_popScope.bind fun _ => composed_pure _

theorem composed_inferDeclaration (decl : ValueDecl) :
    Composed engine calls (inferDeclaration inferBody decl) (inferDeclaration inferBody' decl) := by
  have hrest : ∀ t, Composed engine calls (do
      if (← getPass).cancelled then return .error .cancelled
      return .ok (← finish t) : InferM (Except InferError Inferred)) (do
      if (← getPass).cancelled then return .error .cancelled
      return .ok (← finish t) : InferM (Except InferError Inferred)) := by
    refine fun t => .bind .getPass fun pass => ?_
    split
    · exact composed_pure _
    · exact (composed_finish t).bind fun _ => composed_pure _
  unfold inferDeclaration
  split
  · exact (composed_inferTopFunction hbody _ _ _ _).bind hrest
  · exact (composed_inferTopPattern hbody _ _).bind hrest

end Bodies

/-! ### Nothing is taken back -/

variable {context : Context}

/-- A call that returns has a result, which was used, or an error. -/
theorem run_called_inv {call : SessionM (Except InferError Inferred)} {use : InferenceResult → InferM α} {nothing a : α}
    {w w' : Work} (h : called call use nothing context w = (.ok a, w')) :
    ∃ outcome s, call context.engine w.session = (.ok outcome, s) ∧
      ((∃ result notes, outcome = .ok (result, notes) ∧
          use result context ⟨s, { w.pass with recursive := w.pass.recursive ++ notes }⟩ = (.ok a, w')) ∨
        (outcome = .error .cancelled ∧ a = nothing ∧ w' = ⟨s, { w.pass with cancelled := true }⟩) ∨
        ∃ name, outcome = .error (.notTopLevel name) ∧ a = nothing ∧ w' = ⟨s, w.pass⟩) := by
  obtain ⟨outcome, _, hsession, h⟩ := run_bind_inv h
  obtain ⟨s, hcall, rfl⟩ := run_session_inv hsession
  refine ⟨outcome, s, hcall, ?_⟩
  rcases outcome with (_ | name) | ⟨result, notes⟩
  · cases h
    exact .inr (.inl ⟨rfl, rfl, rfl⟩)
  · cases h
    exact .inr (.inr ⟨name, rfl, rfl, rfl⟩)
  · exact .inl ⟨result, notes, rfl, h⟩

section Awaited

variable {label : Name} {call : SessionM (Except InferError Inferred)} {use : InferenceResult → InferM α} {nothing : α}
  {w w' : Work}

theorem run_awaited_of_active (h : label ∈ w.session.active) : awaited label call use nothing context w =
    (.ok nothing, ⟨w.session, { w.pass with recursive := w.pass.recursive ++ [label] }⟩) := by
  have hget : (get : InferM Work) context w = (.ok w, w) := rfl
  rw [awaited, run_bind_ok _ hget, if_pos (List.contains_iff_mem.mpr h)]
  rfl

theorem run_awaited_of_free (h : label ∉ w.session.active) :
    awaited label call use nothing context w = called call use nothing context w := by
  have hget : (get : InferM Work) context w = (.ok w, w) := rfl
  rw [awaited, run_bind_ok _ hget, if_neg fun hcontains => h (List.contains_iff_mem.mp hcontains)]

end Awaited

def Growing (context : Context) (x : InferM α) : Prop :=
  ∀ w a w', x context w = (.ok a, w') → w.pass.Grows w'.pass

theorem growing_pure (a : α) : Growing context (pure a) := by
  intro w b w' hrun
  obtain ⟨-, rfl⟩ := run_pure_inv hrun
  exact .refl _

theorem Growing.bind {x : InferM α} {f : α → InferM β} (hx : Growing context x) (hf : ∀ a, Growing context (f a)) :
    Growing context (x >>= f) := by
  intro w b w' hrun
  obtain ⟨a, w₁, hrun₁, hrun₂⟩ := run_bind_inv hrun
  exact (hx _ _ _ hrun₁).trans (hf a _ _ _ hrun₂)

theorem growing_of_unchanged {x : InferM α} (h : ∀ w, (x context w).2.pass = w.pass) : Growing context x := by
  intro w a w' hrun
  have hpass := h w
  rw [hrun] at hpass
  exact hpass ▸ .refl _

/-- Work on the store leaves the rest of the pass alone. -/
theorem growing_of_store {x : InferM α}
    (h : ∀ w a w', x context w = (.ok a, w') → ∃ s, w'.pass = { w.pass with store := s }) : Growing context x := by
  intro w a w' hrun
  obtain ⟨s, hpass⟩ := h w a w' hrun
  rw [hpass]
  exact ⟨List.prefix_rfl, id, List.Subset.refl _⟩

theorem growing_modifyPass {f : Pass → Pass} (h : ∀ pass : Pass, pass.Grows (f pass)) : Growing context (modifyPass f) := by
  intro w a w' hrun
  cases hrun
  exact h _

theorem growing_session (x : SessionM α) : Growing context (session x) :=
  growing_of_unchanged fun _ => rfl

theorem growing_allocate (work : Store → α × Store) : Growing context (allocate work) :=
  growing_of_store fun w a w' hrun => by
    rw [run_allocate] at hrun
    cases hrun
    exact ⟨_, rfl⟩

theorem growing_constructorTypes (name : Ref) : Growing context (constructorTypes name) := by
  refine (growing_session _).bind fun targets => ?_
  split
  · exact (growing_of_unchanged fun _ => rfl).bind fun _ => (growing_session _).bind fun _ => growing_allocate _
  · refine (growing_allocate _).bind fun t => ?_
    split <;> exact growing_pure _
  · exact growing_pure _

theorem growing_cancel : Growing context (modifyPass (fun pass => { pass with cancelled := true })) :=
  growing_modifyPass fun _ => ⟨List.prefix_rfl, fun _ => rfl, List.Subset.refl _⟩

theorem growing_isCancelled : Growing context isCancelled := by
  refine (growing_of_unchanged fun _ => rfl : Growing context getPass).bind fun pass => ?_
  split
  · exact growing_pure _
  · refine (growing_session _).bind fun seen => ?_
    split
    · exact growing_cancel.bind fun _ => growing_pure _
    · exact growing_pure _

theorem Contained.growing {records : Prop} {x : InferM α} (h : Contained records True x) : Growing context x := by
  induction h with
  | pure a => exact growing_pure a
  | bind _ _ hx hf => exact hx.bind hf
  | throw fault => exact fun _ _ _ hrun => by cases hrun
  | read => exact growing_of_unchanged fun _ => rfl
  | inspect _ _ _ h => exact (growing_of_unchanged fun _ => rfl).bind h
  | modify _ _ _ hgrows =>
    refine growing_modifyPass fun pass => ?_
    obtain ⟨hproblems, hcancelled, -, hrecursive⟩ := hgrows pass
    exact ⟨hproblems, hcancelled.trans, hrecursive ▸ List.Subset.refl _⟩
  | record _ id t => exact growing_modifyPass fun pass => ⟨List.prefix_rfl, fun h => h, List.Subset.refl _⟩
  | store work =>
    refine growing_of_store fun w a w' hrun => ?_
    obtain ⟨s, -, rfl⟩ := run_store_inv hrun
    exact ⟨s, rfl⟩
  | allocate work => exact growing_allocate work
  | isCancelled => exact growing_isCancelled
  | trip _ | findValues _ => exact growing_session _
  | convert rigid vars t =>
    refine growing_of_store fun w a w' hrun => ?_
    rw [run_convert] at hrun
    cases hrun
    exact ⟨_, rfl⟩
  | constructorTypes name => exact growing_constructorTypes name

theorem Composed.growing {x x' : InferM α} (h : Composed context.engine calls x x') : Growing context x := by
  induction h with
  | contained h => exact h.growing
  | diverged _ => exact fun _ _ _ hrun => by cases hrun
  | bind _ _ hx hf => exact hx.bind hf
  | engine _ h => exact h
  | find name _ h =>
    intro w b w' hrun
    obtain ⟨targets, w₁, hfind, hrun⟩ := run_bind_inv hrun
    obtain rfl := run_findValues hfind
    exact (growing_session _ _ _ _ hfind).trans (h _ _ _ hrun)
  | getPass => exact growing_of_unchanged fun _ => rfl
  | modify h =>
    refine growing_modifyPass fun pass => ?_
    obtain ⟨hproblems, hcancelled, hrecursive⟩ := h pass
    exact ⟨hproblems, hcancelled.trans, hrecursive ▸ List.Subset.refl _⟩
  | unionType _ | expand _ => exact growing_session _
  | @awaited _ _ decl _ _ _ _ nothing _ _ _ _ huse =>
    intro w a w' hrun
    have hnoted : ∀ notes, w.pass.Grows { w.pass with recursive := w.pass.recursive ++ notes } :=
      fun notes => ⟨List.prefix_rfl, id, List.subset_append_left _ _⟩
    by_cases hactive : decl.head.label ∈ w.session.active
    · rw [run_awaited_of_active hactive] at hrun
      cases hrun
      exact hnoted _
    · rw [run_awaited_of_free hactive] at hrun
      obtain ⟨_, _, -, ⟨result, notes, -, hrun⟩ | ⟨-, -, rfl⟩ | ⟨_, -, -, rfl⟩⟩ := run_called_inv hrun
      · exact (hnoted notes).trans (huse result _ _ _ hrun)
      · exact ⟨List.prefix_rfl, fun _ => rfl, List.Subset.refl _⟩
      · exact .refl _

/-! ### Work that nobody calls off -/

/-- Whether, without a flag, no run that returns is called off. -/
def Unhindered (context : Context) (x : InferM α) : Prop :=
  ∀ w a w', x context w = (.ok a, w') → w.session.flag = none → w.pass.cancelled = false →
    w'.session.flag = none ∧ w'.pass.cancelled = false

theorem unhindered_pure (a : α) : Unhindered context (pure a) := by
  intro w b w' hrun hflag hcancelled
  obtain ⟨-, rfl⟩ := run_pure_inv hrun
  exact ⟨hflag, hcancelled⟩

theorem Unhindered.bind {x : InferM α} {f : α → InferM β} (hx : Unhindered context x) (hf : ∀ a, Unhindered context (f a)) :
    Unhindered context (x >>= f) := by
  intro w b w' hrun hflag hcancelled
  obtain ⟨a, w₁, hrun₁, hrun₂⟩ := run_bind_inv hrun
  obtain ⟨hflag₁, hcancelled₁⟩ := hx _ _ _ hrun₁ hflag hcancelled
  exact hf a _ _ _ hrun₂ hflag₁ hcancelled₁

theorem unhindered_of_unchanged {x : InferM α} (h : ∀ w, (x context w).2 = w) : Unhindered context x := by
  intro w a w' hrun hflag hcancelled
  obtain rfl : w' = w := by simpa only [hrun] using h w
  exact ⟨hflag, hcancelled⟩

/-- Work on the store leaves the rest of the pass alone. -/
theorem unhindered_of_store {x : InferM α}
    (h : ∀ w a w', x context w = (.ok a, w') → ∃ s, w' = w.withStore s) : Unhindered context x := by
  intro w a w' hrun hflag hcancelled
  obtain ⟨s, rfl⟩ := h w a w' hrun
  exact ⟨hflag, hcancelled⟩

theorem unhindered_allocate (work : Store → α × Store) : Unhindered context (allocate work) :=
  unhindered_of_store fun w a w' hrun => by
    rw [run_allocate] at hrun
    cases hrun
    exact ⟨_, rfl⟩

theorem unhindered_modifyPass {f : Pass → Pass} (h : ∀ pass : Pass, (f pass).cancelled = pass.cancelled) :
    Unhindered context (modifyPass f) := by
  intro w a w' hrun hflag hcancelled
  cases hrun
  exact ⟨hflag, (h _).trans hcancelled⟩

theorem unhindered_session {x : SessionM α}
    (h : ∀ s, s.flag = none → (x context.engine s).2.flag = none) : Unhindered context (session x) := by
  intro w a w' hrun hflag hcancelled
  obtain rfl : _ = w' := congrArg Prod.snd hrun
  exact ⟨h _ hflag, hcancelled⟩

theorem unhindered_trip (name : Ref) : Unhindered context (session (SessionM.trip name)) :=
  unhindered_session fun s hflag => by rw [SessionM.run_trip_of_none hflag]; exact hflag

theorem unhindered_findValues (name : Ref) : Unhindered context (session (SessionM.findValues name)) :=
  unhindered_session fun s hflag => by
    rw [SessionM.run_findValues_of_none hflag]
    exact hflag

theorem unhindered_withTypes (work : StateM TypeTable α) : Unhindered context (session (SessionM.withTypes work)) :=
  unhindered_session fun _ hflag => hflag

theorem unhindered_isCancelled : Unhindered context isCancelled := by
  intro w a w' hrun hflag hcancelled
  obtain ⟨_, _, hpass, hrun⟩ := run_bind_inv hrun
  cases hpass
  rw [hcancelled] at hrun
  obtain ⟨seen, w₁, hseen, hrun⟩ := run_bind_inv hrun
  have hnone : session SessionM.isCancelled context w = (.ok false, w) := by
    rw [run_session, SessionM.run_isCancelled_of_none hflag]
  cases hseen.symm.trans hnone
  cases hrun
  exact ⟨hflag, hcancelled⟩

theorem Contained.unhindered {records : Prop} {x : InferM α} (h : Contained records True x) : Unhindered context x := by
  induction h with
  | pure a => exact unhindered_pure a
  | bind _ _ hx hf => exact hx.bind hf
  | throw fault => exact fun _ _ _ hrun => by cases hrun
  | read => exact unhindered_of_unchanged fun _ => rfl
  | inspect _ _ _ h => exact Unhindered.bind (unhindered_of_unchanged fun _ => rfl) h
  | modify _ _ _ hgrows => exact unhindered_modifyPass fun pass => (hgrows pass).2.1
  | record _ id t => exact unhindered_modifyPass fun _ => rfl
  | store work =>
    refine unhindered_of_store fun w a w' hrun => ?_
    obtain ⟨s, -, rfl⟩ := run_store_inv hrun
    exact ⟨s, rfl⟩
  | allocate work => exact unhindered_allocate work
  | isCancelled => exact unhindered_isCancelled
  | trip name => exact unhindered_trip name
  | findValues name => exact unhindered_findValues name
  | convert rigid vars t =>
    intro w a w' hrun hflag hcancelled
    rw [run_convert] at hrun
    cases hrun
    exact ⟨hflag, hcancelled⟩
  | constructorTypes name =>
    refine (unhindered_findValues name).bind fun targets => ?_
    split
    · refine Unhindered.bind (unhindered_of_unchanged fun _ => rfl) fun _ => ?_
      exact (unhindered_withTypes _).bind fun _ => unhindered_allocate _
    · refine (unhindered_allocate _).bind fun t => ?_
      split <;> exact unhindered_pure _
    · exact unhindered_pure _

/-- Without a flag inference is not called off, if no call of another declaration is. -/
theorem Composed.unhindered {x x' : InferM α} (h : Composed context.engine calls x x')
    (hcalls : ∀ index decl x x', calls index decl x x' → ∀ (s : Session) outcome s',
      x context.engine s = (.ok outcome, s') → s.flag = none → s'.flag = none ∧ outcome ≠ .error .cancelled) :
    Unhindered context x := by
  induction h with
  | contained h => exact h.unhindered
  | diverged _ => exact fun _ _ _ hrun => by cases hrun
  | bind _ _ hx hf => exact hx.bind hf
  | engine _ h => exact h
  | find name _ h =>
    intro w b w' hrun hflag hcancelled
    obtain ⟨targets, w₁, hfind, hrun⟩ := run_bind_inv hrun
    obtain rfl := run_findValues hfind
    obtain ⟨hflag₁, hcancelled₁⟩ := unhindered_findValues name _ _ _ hfind hflag hcancelled
    exact h _ _ _ hrun hflag₁ hcancelled₁
  | getPass => exact unhindered_of_unchanged fun _ => rfl
  | modify h => exact unhindered_modifyPass fun pass => (h pass).2.1
  | unionType _ | expand _ => exact unhindered_withTypes _
  | @awaited _ _ decl _ _ _ _ nothing _ _ hcall _ huse =>
    intro w a w' hrun hflag hcancelled
    by_cases hactive : decl.head.label ∈ w.session.active
    · rw [run_awaited_of_active hactive] at hrun
      cases hrun
      exact ⟨hflag, hcancelled⟩
    · rw [run_awaited_of_free hactive] at hrun
      obtain ⟨outcome, s, hcalled, hout⟩ := run_called_inv hrun
      obtain ⟨hflag₁, hnot⟩ := hcalls _ _ _ _ hcall _ _ _ hcalled hflag
      obtain ⟨result, notes, -, hrun⟩ | ⟨rfl, -, -⟩ | ⟨_, -, -, rfl⟩ := hout
      · exact huse result _ _ _ hrun hflag₁ hcancelled
      · exact absurd rfl hnot
      · exact ⟨hflag₁, hcancelled⟩

end InferM

end ElmInference
