import ElmInference.Proofs.Infer.Tandem

/-!
# Definitions inferred on demand

A `let` definition without signature is inferred when it is first needed, which may be in the middle of another
definition. It is then inferred as if nobody had asked: in the scopes and under the lambdas that it was written in.
But the type variables of the signatures around are those of who asks. When the definition itself, and what else
waits where it was written, writes none of their names in signatures, the question makes no difference: asking gives
the same as inferring the definition first and asking then. Otherwise the order in which the definitions of a `let` are
written can change what is reported. This is about one question: what the definitions do to the types that they share is
left open.
-/

namespace ElmInference

open Store

variable {Q Q' : Set Mention}

/-- The state in which something further inside asks for a definition: in more scopes, under so many lambdas, and with
the type variables of its own signatures around. -/
def Work.under (w : Work) (inner : List Scope) (vars : Assoc Name Ty) (level : Nat) : Work :=
  { w with pass := { w.pass with scopes := inner ++ w.pass.scopes, typeVars := vars, depth := level } }

namespace InferM

variable {context : Context} {o : Overlay}

/-! ### Expressions in tandem -/

theorem follows_joinType (pos : Nat) {t : Ty} (ht : t.Within Q) {first : Option Ty} (hfirst : MaybeAtHand Q first) :
    Follows context o Q (joinType pos t first) AtHand :=
  (contained_joinType pos t first).follows (behaves_joinType pos ht hfirst)

section Elsewhere

variable {elsewhere : Elsewhere} (hscope : context.engine.scope.Frozen)
  (helsewhere : ElsewhereBehaves context elsewhere)

include hscope helsewhere

theorem follows_operatorType (pos : Nat) (name : Name) : Follows context o Q (operatorType elsewhere pos name)
    (fun Q found => ∀ precedence t, found = some (precedence, t) → t.Within Q) :=
  (behaves_operatorType hscope helsewhere pos name).follows (blind_operatorType elsewhere pos name)
    (still_operatorType elsewhere pos name).quiet

theorem follows_inferChain {operands : List (Nat × Ty)} (hoperands : OperandsAtHand Q operands)
    (operators : List NameAt) : Follows context o Q (inferChain elsewhere operands operators) AtHand :=
  (behaves_inferChain hscope helsewhere hoperands operators).follows (blind_inferChain elsewhere operands operators)
    (still_inferChain elsewhere operands operators).quiet

end Elsewhere

mutual

theorem follows_inferExpr {elsewhere : Elsewhere} (hscope : context.engine.scope.Frozen)
    (helsewhere : ElsewhereBehaves context elsewhere)
    (hbody : ∀ Q e, e.WritesIn o.names → Follows context o Q (elsewhere.body e) AtHand)
    (e : Expr) (he : e.WritesIn o.names) {Q : Set Mention} : Follows context o Q (inferExpr elsewhere e) AtHand := by
  match e with
  | .mk id pos kind =>
    rw [inferExpr]
    refine Tandem.andThen (Contained.isCancelled.follows behaves_isCancelled) fun cancelled Q₁ _ _ => ?_
    split
    · exact follows_unknown
    · refine (follows_inferKind hscope helsewhere hbody pos kind he).andThen fun t Q₂ _ ht => ?_
      exact Tandem.andThen ((Contained.record trivial id t).follows (behaves_record id t))
        fun _ _ hsub _ => follows_pure (Ty.Within.mono ht hsub)

theorem follows_inferKind {elsewhere : Elsewhere} (hscope : context.engine.scope.Frozen)
    (helsewhere : ElsewhereBehaves context elsewhere)
    (hbody : ∀ Q e, e.WritesIn o.names → Follows context o Q (elsewhere.body e) AtHand)
    (pos : Nat) (kind : ExprKind Expr) {id : NodeId} (he : (Expr.mk id pos kind).WritesIn o.names) {Q : Set Mention} :
    Follows context o Q (inferKind elsewhere pos kind) AtHand := by
  have hkind := he.parts
  match kind with
  | .unit =>
    rw [inferKind]
    exact follows_pure (by simp [Ty.Within, Ty.mentions])
  | .literal kind =>
    rw [inferKind]
    exact (contained_literalType kind).follows (behaves_literalType kind)
  | .var name =>
    rw [inferKind]
    exact follows_reference hscope helsewhere hbody pos name
  | .operator name =>
    rw [inferKind]
    refine (follows_operatorType hscope helsewhere pos name).andThen fun found Q₁ _ hfound => ?_
    split
    · exact follows_pure (hfound _ _ rfl)
    · exact follows_unknown
  | .call target args =>
    rw [Expr.kindFragments, writeIn_add] at hkind
    rw [inferKind]
    refine (follows_inferExpr hscope helsewhere hbody target hkind.1).andThen fun t Q₁ _ ht => ?_
    refine (follows_inferAll hscope helsewhere hbody args hkind.2).andThen fun types Q₂ hsub₂ htypes => ?_
    exact (contained_apply pos t types).follows (behaves_apply pos (Ty.Within.mono ht hsub₂) htypes)
  | .binary operands operators =>
    rw [Expr.kindFragments] at hkind
    rw [inferKind]
    refine (follows_inferAll hscope helsewhere hbody operands hkind).andThen fun types Q₁ _ htypes => ?_
    exact follows_inferChain hscope helsewhere htypes operators
  | .negate operand =>
    rw [Expr.kindFragments] at hkind
    rw [inferKind]
    refine (follows_inferExpr hscope helsewhere hbody operand hkind).andThen fun t Q₁ _ ht => ?_
    refine (follows_freshVar "number").andThen fun number Q₂ hsub₂ hnumber => ?_
    refine (follows_check _ (Ty.Within.mono ht hsub₂) hnumber).andThen fun _ Q₃ hsub₃ _ => ?_
    exact follows_pure (Ty.Within.mono ht (hsub₂.trans hsub₃))
  | .tuple items =>
    rw [Expr.kindFragments] at hkind
    rw [inferKind]
    refine (follows_inferAll hscope helsewhere hbody items hkind).andThen fun types Q₁ _ htypes => follows_pure ?_
    exact within_tuple_of_operands htypes
  | .list items =>
    rw [Expr.kindFragments] at hkind
    rw [inferKind]
    refine (follows_inferItems hscope helsewhere hbody items hkind (fun _ h => by cases h)).andThen
      fun found Q₁ _ hfound => ?_
    split
    · exact follows_pure (Ty.within_list (hfound _ rfl))
    · exact (follows_freshVar "a").andThen fun t _ _ ht => follows_pure (Ty.within_list ht)
  | .record fields =>
    rw [Expr.kindFragments] at hkind
    rw [inferKind]
    refine (follows_inferFields hscope helsewhere hbody fields hkind).andThen fun types Q₁ _ htypes => ?_
    refine tandem_of_wears fun w vars hw => follows_pure ?_
    exact Ty.within_recordWith (fun field hfield => ⟨hw.orderly.store.plain _ rfl, htypes field hfield⟩)
      (fun _ h => by cases h)
  | .update base fields =>
    rw [Expr.kindFragments] at hkind
    rw [inferKind]
    refine (follows_reference hscope helsewhere hbody _ _).andThen fun t Q₁ _ ht => ?_
    refine (follows_inferUpdates hscope helsewhere hbody _ true fields hkind ht).andThen fun _ Q₂ hsub₂ _ => ?_
    exact follows_pure (Ty.Within.mono ht hsub₂)
  | .access target field =>
    rw [Expr.kindFragments] at hkind
    rw [inferKind]
    refine (follows_inferExpr hscope helsewhere hbody target hkind).andThen fun t Q₁ _ ht => ?_
    exact (contained_accessType _ t field).follows (behaves_accessType _ ht field)
  | .accessor field =>
    rw [inferKind]
    refine (follows_freshVar "a").andThen fun t Q₁ _ ht => ?_
    refine (follows_freshVar "b").andThen fun base Q₂ hsub₂ hbase => tandem_of_wears fun w vars hw => follows_pure ?_
    exact Ty.within_accessor hw.orderly.store.plain field hbase (Ty.Within.mono ht hsub₂)
  | .conditional branches otherwise =>
    rw [Expr.kindFragments, writeIn_add] at hkind
    rw [inferKind]
    refine (follows_inferBranches hscope helsewhere hbody branches hkind.1 (fun _ h => by cases h)).andThen
      fun found Q₁ _ hfound => ?_
    refine (follows_inferExpr hscope helsewhere hbody otherwise hkind.2).andThen fun t Q₂ hsub₂ ht => ?_
    exact follows_joinType _ ht fun u hu => (hfound u hu).mono hsub₂
  | .caseOf scrutinee branches =>
    rw [Expr.kindFragments, writeIn_add] at hkind
    rw [inferKind]
    refine (follows_inferExpr hscope helsewhere hbody scrutinee hkind.1).andThen fun t Q₁ _ ht => ?_
    refine (follows_inferCases hscope helsewhere hbody branches hkind.2 ht (fun _ h => by cases h)).andThen
      fun found Q₂ _ hfound => tandem_of_wears fun w vars hw => follows_pure ?_
    cases found with
    | none => exact Ty.within_unknown hw.orderly.store.plain
    | some u => exact hfound u rfl
  | .lambda params body =>
    rw [Expr.kindFragments, writeIn_add] at hkind
    rw [inferKind]
    refine (follows_freshVars "a" params).andThen fun types Q₁ _ htypes => ?_
    refine (follows_pushScope (by simp) (by simp)).andThen fun _ Q₂ hsub₂ _ => ?_
    have htypes : ∀ t ∈ types, t.Within Q₂ := fun t h => (htypes t h).mono hsub₂
    refine (follows_inferParams hscope params htypes).andThen fun bound Q₃ hsub₃ hbound => ?_
    refine (follows_bindAll _ hbound).andThen fun _ Q₄ hsub₄ _ => ?_
    refine (follows_deeper 1 fun Q' _ => follows_inferExpr hscope helsewhere hbody body hkind.2).andThen
      fun t Q₅ hsub₅ ht => ?_
    refine follows_popScope.andThen fun _ Q₆ hsub₆ _ => follows_pure ?_
    have hsub := hsub₃.trans (hsub₄.trans (hsub₅.trans hsub₆))
    exact Ty.within_function (fun u h => (htypes u h).mono hsub) (Ty.Within.mono ht hsub₆)
  | .letIn definitions body =>
    obtain ⟨hdefinitions, hwrites⟩ := writesIn_of_letIn he
    rw [inferKind]
    refine (follows_enterLet hscope hbody hdefinitions).andThen fun _ Q₁ _ _ => ?_
    refine (follows_inferExpr hscope helsewhere hbody body hwrites).andThen fun t Q₂ _ ht => ?_
    exact follows_popScope.andThen fun _ _ hsub _ => follows_pure (Ty.Within.mono ht hsub)

theorem follows_inferAll {elsewhere : Elsewhere} (hscope : context.engine.scope.Frozen)
    (helsewhere : ElsewhereBehaves context elsewhere)
    (hbody : ∀ Q e, e.WritesIn o.names → Follows context o Q (elsewhere.body e) AtHand)
    (es : List Expr) (hes : WriteIn o.names (Expr.listFragments es)) {Q : Set Mention} :
    Follows context o Q (inferAll elsewhere es) OperandsAtHand := by
  match es with
  | [] =>
    rw [inferAll]
    exact follows_pure (by simp)
  | e :: es =>
    rw [Expr.listFragments, writeIn_add] at hes
    rw [inferAll]
    refine (follows_inferExpr hscope helsewhere hbody e hes.1).andThen fun t Q₁ _ ht => ?_
    refine (follows_inferAll hscope helsewhere hbody es hes.2).andThen fun more Q₂ hsub₂ hmore => follows_pure ?_
    exact List.forall_mem_cons.mpr ⟨Ty.Within.mono ht hsub₂, hmore⟩

theorem follows_inferItems {elsewhere : Elsewhere} (hscope : context.engine.scope.Frozen)
    (helsewhere : ElsewhereBehaves context elsewhere)
    (hbody : ∀ Q e, e.WritesIn o.names → Follows context o Q (elsewhere.body e) AtHand)
    (es : List Expr) (hes : WriteIn o.names (Expr.listFragments es)) {first : Option Ty} {Q : Set Mention}
    (hfirst : MaybeAtHand Q first) : Follows context o Q (inferItems elsewhere first es) MaybeAtHand := by
  match es with
  | [] =>
    rw [inferItems]
    exact follows_pure hfirst
  | e :: es =>
    rw [Expr.listFragments, writeIn_add] at hes
    rw [inferItems]
    refine (follows_inferExpr hscope helsewhere hbody e hes.1).andThen fun t Q₁ hsub₁ ht => ?_
    refine (follows_joinType _ ht fun u hu => (hfirst u hu).mono hsub₁).andThen fun first Q₂ _ hfirst => ?_
    refine follows_inferItems hscope helsewhere hbody es hes.2 fun u hu => ?_
    cases hu
    exact hfirst

theorem follows_inferFields {elsewhere : Elsewhere} (hscope : context.engine.scope.Frozen)
    (helsewhere : ElsewhereBehaves context elsewhere)
    (hbody : ∀ Q e, e.WritesIn o.names → Follows context o Q (elsewhere.body e) AtHand)
    (fields : List (NameAt × Expr)) (hfields : WriteIn o.names (Expr.fieldFragments fields)) {Q : Set Mention} :
    Follows context o Q (inferFields elsewhere fields) (fun Q types => ∀ field ∈ types, field.2.Within Q) := by
  match fields with
  | [] =>
    rw [inferFields]
    exact follows_pure (by simp)
  | (name, e) :: rest =>
    rw [Expr.fieldFragments, writeIn_add] at hfields
    rw [inferFields]
    refine (follows_inferExpr hscope helsewhere hbody e hfields.1).andThen fun t Q₁ _ ht => ?_
    refine (follows_inferFields hscope helsewhere hbody rest hfields.2).andThen
      fun more Q₂ hsub₂ hmore => follows_pure ?_
    exact List.forall_mem_cons.mpr ⟨Ty.Within.mono ht hsub₂, hmore⟩

theorem follows_inferUpdates {elsewhere : Elsewhere} (hscope : context.engine.scope.Frozen)
    (helsewhere : ElsewhereBehaves context elsewhere)
    (hbody : ∀ Q e, e.WritesIn o.names → Follows context o Q (elsewhere.body e) AtHand) (basePos : Nat)
    (isRecord : Bool) (fields : List (NameAt × Expr)) (hfields : WriteIn o.names (Expr.fieldFragments fields))
    {base : Ty} {Q : Set Mention} (hbase : base.Within Q) :
    Follows context o Q (inferUpdates elsewhere basePos base isRecord fields) Any := by
  match fields with
  | [] =>
    rw [inferUpdates]
    exact follows_pure trivial
  | (name, e) :: rest =>
    rw [Expr.fieldFragments, writeIn_add] at hfields
    rw [inferUpdates]
    refine (follows_inferExpr hscope helsewhere hbody e hfields.1).andThen fun t Q₁ hsub₁ ht => ?_
    have hbase := hbase.mono hsub₁
    split
    · refine Tandem.andThen ((contained_updateField basePos base name _ t).follows
        (behaves_updateField basePos hbase name _ ht)) fun isRecord Q₂ hsub₂ _ => ?_
      exact follows_inferUpdates hscope helsewhere hbody basePos isRecord rest hfields.2 (hbase.mono hsub₂)
    · exact follows_inferUpdates hscope helsewhere hbody basePos false rest hfields.2 hbase

theorem follows_inferBranches {elsewhere : Elsewhere} (hscope : context.engine.scope.Frozen)
    (helsewhere : ElsewhereBehaves context elsewhere)
    (hbody : ∀ Q e, e.WritesIn o.names → Follows context o Q (elsewhere.body e) AtHand)
    (branches : List (Expr × Expr)) (hbranches : WriteIn o.names (Expr.branchFragments branches)) {first : Option Ty}
    {Q : Set Mention} (hfirst : MaybeAtHand Q first) :
    Follows context o Q (inferBranches elsewhere first branches) MaybeAtHand := by
  match branches with
  | [] =>
    rw [inferBranches]
    exact follows_pure hfirst
  | (condition, branch) :: rest =>
    rw [Expr.branchFragments, writeIn_add, writeIn_add] at hbranches
    obtain ⟨⟨hcondition, hbranch⟩, hrest⟩ := hbranches
    rw [inferBranches]
    refine (follows_inferExpr hscope helsewhere hbody condition hcondition).andThen fun t Q₁ hsub₁ ht => ?_
    refine (follows_check _ ht (Ty.within_named_nil _ _)).andThen fun _ Q₂ hsub₂ _ => ?_
    refine (follows_inferExpr hscope helsewhere hbody branch hbranch).andThen fun u Q₃ hsub₃ hu => ?_
    have hsub := hsub₁.trans (hsub₂.trans hsub₃)
    refine (follows_joinType _ hu fun v hv => (hfirst v hv).mono hsub).andThen fun first Q₄ _ hfirst => ?_
    refine follows_inferBranches hscope helsewhere hbody rest hrest fun v hv => ?_
    cases hv
    exact hfirst

theorem follows_inferCases {elsewhere : Elsewhere} (hscope : context.engine.scope.Frozen)
    (helsewhere : ElsewhereBehaves context elsewhere)
    (hbody : ∀ Q e, e.WritesIn o.names → Follows context o Q (elsewhere.body e) AtHand)
    (branches : List (Pattern × Expr)) (hbranches : WriteIn o.names (Expr.caseFragments branches)) {scrutinee : Ty}
    {first : Option Ty} {Q : Set Mention} (hscrutinee : scrutinee.Within Q) (hfirst : MaybeAtHand Q first) :
    Follows context o Q (inferCases elsewhere scrutinee first branches) MaybeAtHand := by
  match branches with
  | [] =>
    rw [inferCases]
    exact follows_pure hfirst
  | (pattern, body) :: rest =>
    rw [Expr.caseFragments, writeIn_add, writeIn_add] at hbranches
    obtain ⟨⟨-, hwrites⟩, hrest⟩ := hbranches
    rw [inferCases]
    refine (follows_pushScope (by simp) (by simp)).andThen fun _ Q₁ hsub₁ _ => ?_
    refine (follows_inferPattern hscope .branch pattern (hscrutinee.mono hsub₁)).andThen
      fun bound Q₂ hsub₂ hbound => ?_
    refine (follows_bindAll _ hbound).andThen fun _ Q₃ hsub₃ _ => ?_
    refine (follows_inferExpr hscope helsewhere hbody body hwrites).andThen fun t Q₄ hsub₄ ht => ?_
    have hsub := hsub₁.trans (hsub₂.trans (hsub₃.trans hsub₄))
    refine (follows_joinType _ ht fun u hu => (hfirst u hu).mono hsub).andThen fun first Q₅ hsub₅ hfirst => ?_
    refine follows_popScope.andThen fun _ Q₆ hsub₆ _ => ?_
    refine follows_inferCases hscope helsewhere hbody rest hrest
      (hscrutinee.mono (hsub.trans (hsub₅.trans hsub₆))) fun u hu => ?_
    cases hu
    exact Ty.Within.mono hfirst hsub₆

end

/-- The bodies of definitions and the other declarations, entered to a depth of at most `n`. -/
abbrev elsewhereAt (n : Nat) : Elsewhere :=
  ⟨exprAt n, SessionM.inferTopLevel (exprAt n)⟩

theorem elsewhereBehaves_elsewhereAt (n : Nat) (hscope : context.engine.scope.Frozen) :
    ElsewhereBehaves context (elsewhereAt n) where
  body := behaves_exprAt n hscope
  declaration index decl :=
    SessionM.behaves_inferTopLevel hscope
      (fun _ => behaves_exprAt n hscope) index decl

/-- An expression is inferred in the same way under an overlay, however deep definitions are entered. -/
theorem follows_exprAt (n : Nat) (hscope : context.engine.scope.Frozen) (Q : Set Mention) (e : Expr)
    (he : e.WritesIn o.names) : Follows context o Q (exprAt n e) AtHand := by
  induction n generalizing Q e with
  | zero => exact tandem_throw
  | succ n ih => exact follows_inferExpr hscope (elsewhereBehaves_elsewhereAt n hscope) (fun Q e he => ih Q e he) e he

/-! ### Asking for a definition -/

theorem run_inferPending {inferBody : Expr → InferM Ty} {inner : Nat} {d : ValueDecl} {depth : Nat} {w : Work} :
    inferPending inferBody inner d depth context w = (do
      inferDefinition inferBody d depth
      modifyPass (fun pass => { pass with scopes := w.pass.scopes.take inner ++ pass.scopes, depth := w.pass.depth })
        : InferM Unit) context { w with pass := { w.pass.outside inner with depth } } := by
  change ((do
    inferDefinition inferBody d depth
    modifyPass (fun pass => { pass with depth := w.pass.depth }) : InferM Unit) >>= fun _ =>
      modifyPass (fun pass => { pass with scopes := w.pass.scopes.take inner ++ pass.scopes })) context _ = _
  rw [bind_assoc]
  rfl

/-- A definition is inferred as if nobody had asked, if its signatures do not write the type variables around who
asks. -/
theorem inferPending_under (n : Nat) (hscope : context.engine.scope.Frozen) {w : Work} {vars : Assoc Name Ty}
    (hw : Wears o Q w vars) {d : ValueDecl} (hwrites : d.body.WritesIn o.names) (depth : Nat) (inner : List Scope)
    (level : Nat) :
    (∀ w₁, inferPending (exprAt n) 0 d depth context w = (.ok (), w₁) →
      inferPending (exprAt n) inner.length d depth context (w.under inner vars level) =
        (.ok (), w₁.under inner vars level)) ∧
      ∀ fault w₁, inferPending (exprAt n) 0 d depth context w = (.error fault, w₁) →
        ∃ fault' w₂, inferPending (exprAt n) inner.length d depth context (w.under inner vars level) =
          (.error fault', w₂) := by
  have hw₀ : Wears o Q { w with pass := { w.pass with depth } } vars :=
    ⟨⟨hw.orderly.store, ⟨hw.orderly.pass.bindings, hw.orderly.pass.typeVars⟩, hw.orderly.session⟩, hw.strange, hw.vars,
      hw.waiting⟩
  have hstart : ({ w.under inner vars level with
      pass := { (w.under inner vars level).pass.outside inner.length with depth } } : Work) =
        Work.wearing { w with pass := { w.pass with depth } } vars := by
    rw [Pass.outside, Work.under, List.drop_left]
    rfl
  have hfollows : Follows context o Q (inferDefinition (exprAt n) d depth) Any :=
    follows_inferDefinition hscope (follows_exprAt n hscope) hwrites depth
  rw [run_inferPending, run_inferPending, hstart]
  constructor
  · intro w₁ hrun
    obtain ⟨_, w₂, hdefinition, hend⟩ := run_bind_inv hrun
    cases hend
    obtain ⟨_, Q₂, hdefinition', -⟩ := hfollows.returns _ vars () w₂ hw₀ hdefinition
    rw [run_bind_ok _ hdefinition', run_modifyPass, Work.under, Work.under, List.take_left]
    rfl
  · intro fault w₁ hrun
    rcases hdefinition : inferDefinition (exprAt n) d depth context { w with pass := { w.pass with depth } }
      with ⟨r, w₂⟩
    cases r with
    | error fault₂ =>
      obtain ⟨fault', w₃, hfault⟩ := hfollows.faults _ vars fault₂ w₂ hw₀ hdefinition
      exact ⟨fault', w₃, run_bind_error _ hfault⟩
    | ok _ =>
      have hstart₀ : ({ w with pass := { w.pass.outside 0 with depth } } : Work) =
        { w with pass := { w.pass with depth } } := rfl
      rw [hstart₀, run_bind_ok _ hdefinition] at hrun
      cases hrun

/-! ### Referring to a definition -/

/-- A name that the inner scopes do not bind is found where it was found without them. -/
theorem lookupIn_append {name : Name} {inner : List Scope} (h : ∀ scope ∈ inner, Assoc.get? scope name = none)
    {scopes : List Scope} {binding : Binding} {depth : Nat} (hfound : lookupIn name scopes = some (depth, binding)) :
    lookupIn name (inner ++ scopes) = some (inner.length + depth, binding) := by
  induction inner with
  | nil => simpa using hfound
  | cons scope inner ih =>
    obtain ⟨hfirst, hrest⟩ := List.forall_mem_cons.mp h
    rw [List.cons_append, lookupIn, hfirst, ih hrest, List.length_cons, Nat.add_right_comm]
    rfl

/-- Once a waiting definition has been inferred, its names stand for schemes. -/
theorem lookupIn_of_inferPending (n : Nat) (hscope : context.engine.scope.Frozen) {w w₁ : Work} (hw : w.Orderly Q)
    {scope : Scope} {outer : List Scope} (hscopes : w.pass.scopes = scope :: outer) {name : Name} {slot : Nat}
    {d : ValueDecl} {depth depth' : Nat} (hwaits : Assoc.get? scope name = some (.pending slot d depth))
    (hname : name ∈ d.names) (hrun : inferPending (exprAt n) 0 d depth' context w = (.ok (), w₁)) :
    ∃ scheme, lookupIn name w₁.pass.scopes = some (0, .poly scheme) := by
  obtain ⟨w₂, hdefinition, rfl⟩ := run_inferPending_inv hrun
  obtain ⟨_, -, -, scope', outer', hscopes', hfree⟩ :=
    free_of_inferDefinition hscope (fun Q e => behaves_exprAt n hscope Q e) (fun e => steady_exprAt n e)
      (Work.Orderly.outside hw 0 depth') hscopes hwaits hdefinition
  obtain ⟨scheme, hscheme, -⟩ := hfree name hname
  refine ⟨scheme, ?_⟩
  change lookupIn name w₂.pass.scopes = _
  rw [hscopes', lookupIn, hscheme]

theorem run_lookup_bind {α : Type} (name : Name) (f : Option (Nat × Binding) → InferM α) (w : Work) :
    (lookup name >>= f) context w = f (lookupIn name w.pass.scopes) context w := rfl

theorem run_localReference_pending {elsewhere : Elsewhere} {pos : Nat} {name : Name} {w : Work} {inner slot : Nat}
    {d : ValueDecl} {depth : Nat} (h : lookupIn name w.pass.scopes = some (inner, .pending slot d depth)) :
    localReference elsewhere pos name context w = (do
      inferPending elsewhere.body inner d depth
      match ← lookup name with
      | some (_, binding) => return some (← useBinding pos binding)
      | none => return some .unknown : InferM (Option Ty)) context w := by
  rw [localReference]
  exact (run_lookup_bind name _ w).trans (h ▸ rfl)

theorem run_localReference_poly {elsewhere : Elsewhere} {pos : Nat} {name : Name} {w : Work} {inner : Nat}
    {scheme : Scheme} (h : lookupIn name w.pass.scopes = some (inner, .poly scheme)) :
    localReference elsewhere pos name context w =
      (do return some (← useBinding pos (.poly scheme)) : InferM (Option Ty)) context w := by
  rw [localReference, run_lookup_bind, h]

theorem run_bind_congr {α β : Type} {work : InferM α} {f : α → InferM β} {w w' : Work}
    (h : work context w = work context w') : (work >>= f) context w = (work >>= f) context w' := by
  have hrun : ∀ w, (work >>= f) context w =
      ExceptT.bindCont (fun a => f a context) (work context w).1 (work context w).2 := fun _ => rfl
  rw [hrun, hrun, h]

/-- A name without module is a global one only when it is no local one. -/
theorem run_reference_congr {elsewhere : Elsewhere} {pos : Nat} {name : Name} {w w' : Work}
    (h : localReference elsewhere pos name context w = localReference elsewhere pos name context w') :
    reference elsewhere pos (.plain name) context w = reference elsewhere pos (.plain name) context w' := by
  unfold reference
  exact run_bind_congr h

/-- Variables that nothing in scope leads to may be left out of what is at hand. -/
theorem Orderly.clearAll {w : Work} (hw : w.Orderly Q) {ids : List VarId}
    (h : ∀ id ∈ ids, w.pass.Within (w.pass.store.clearOf id)) : ∃ Q', w.Orderly Q' ∧ ∀ id ∈ ids, Away Q' id := by
  induction ids with
  | nil => exact ⟨Q, hw, fun _ h => by cases h⟩
  | cons id ids ih =>
    obtain ⟨hfirst, hrest⟩ := List.forall_mem_cons.mp h
    obtain ⟨Q', hw', haway⟩ := ih hrest
    refine ⟨Q' ∩ w.pass.store.clearOf id, hw'.clear hfirst, List.forall_mem_cons.mpr ⟨?_, fun other hother v hv => ?_⟩⟩
    · exact away_of_subset_clearOf Set.inter_subset_right
    · exact haway other hother v hv.1

theorem extends_append (vars added : Assoc Name Ty) :
    Overlay.Extends ⟨{name | name ∉ added.map Prod.fst}, added⟩ vars (vars ++ added) := by
  refine ⟨fun name hname => ?_, fun entry => List.mem_append_left _, fun entry => List.mem_append.mp⟩
  induction vars with
  | nil => exact Assoc.get?_eq_none hname
  | cons entry rest ih =>
    rw [List.cons_append, Assoc.get?, Assoc.get?, ih]

/-- A definition waits for being inferred, and a reference to it stands further inside: in more scopes, under any
number of lambdas, and in definitions with signatures, whose type variables `added` are around it. If the signatures
inside the definitions that wait write no name of `added`, and nothing in scope where the definition was written leads
to the variables of `added`, then the reference gives the same type and leaves the same state as when the definition
is inferred first, where it was written; and it faults when the definition does. -/
theorem references_give_the_same_as_after_definition (n : Nat) (context : Context) (w : Work) (Q : Set Mention)
    (scope : Scope) (outer inner : List Scope) (added : Assoc Name Ty) (level pos : Nat) (name : Name) (slot : Nat)
    (d : ValueDecl) (depth : Nat) (hscope : context.engine.scope.Frozen) (hw : w.Orderly Q)
    (hscopes : w.pass.scopes = scope :: outer) (hwaits : Assoc.get? scope name = some (.pending slot d depth))
    (hname : name ∈ d.names) (hinner : ∀ scope ∈ inner, Assoc.get? scope name = none)
    (hadded : ∀ entry ∈ added, ∃ v, entry.2 = .var v ∧ w.pass.store.Unsolved v.id ∧
      w.pass.Within (w.pass.store.clearOf v.id))
    (hwrites : w.pass.WaitsIn {name | name ∉ added.map Prod.fst}) :
    (∀ w₁, inferPending (exprAt n) 0 d depth context w = (.ok (), w₁) →
      reference (elsewhereAt n) pos (.plain name) context (w.under inner (w.pass.typeVars ++ added) level) =
        reference (elsewhereAt n) pos (.plain name) context (w₁.under inner (w.pass.typeVars ++ added) level)) ∧
      ∀ fault w₁, inferPending (exprAt n) 0 d depth context w = (.error fault, w₁) → ∃ fault' w₂,
        reference (elsewhereAt n) pos (.plain name) context (w.under inner (w.pass.typeVars ++ added) level) =
          (.error fault', w₂) := by
  have hclear : ∀ id ∈ added.filterMap fun entry => entry.2.var?.map TyVar.id,
      w.pass.Within (w.pass.store.clearOf id) := by
    intro id hid
    obtain ⟨entry, hentry, hid⟩ := List.mem_filterMap.mp hid
    obtain ⟨v, hv, -, hclear⟩ := hadded entry hentry
    rw [hv] at hid
    cases hid
    exact hclear
  obtain ⟨Q', hw', haway⟩ := Orderly.clearAll hw hclear
  have hwears : Wears ⟨{name | name ∉ added.map Prod.fst}, added⟩ Q' w (w.pass.typeVars ++ added) := by
    refine ⟨hw', fun entry hentry => ?_, extends_append _ _, hwrites⟩
    obtain ⟨v, hv, hun, -⟩ := hadded entry hentry
    exact ⟨v, hv, hun, haway v.id (List.mem_filterMap.mpr ⟨entry, hentry, by rw [hv]; rfl⟩)⟩
  have hbody : d.body.WritesIn {name | name ∉ added.map Prod.fst} :=
    hwrites scope (hscopes ▸ List.mem_cons_self) _ (Assoc.mem_of_get? hwaits)
  obtain ⟨hreturns, hfaults⟩ := inferPending_under n hscope hwears hbody depth inner level
  have hbefore : lookupIn name w.pass.scopes = some (0, .pending slot d depth) := by
    rw [hscopes, lookupIn, hwaits]
  have hfound := lookupIn_append hinner hbefore
  constructor
  · intro w₁ hrun
    refine run_reference_congr ?_
    obtain ⟨scheme, hscheme⟩ := lookupIn_of_inferPending n hscope hw hscopes hwaits hname hrun
    have hagain := lookupIn_append hinner hscheme
    refine (run_localReference_pending hfound).trans ((run_bind_ok _ (hreturns w₁ hrun)).trans ?_)
    rw [run_localReference_poly hagain, run_lookup_bind]
    change (match lookupIn name (inner ++ w₁.pass.scopes) with
      | some (_, binding) => do return some (← useBinding pos binding)
      | none => return some .unknown : InferM (Option Ty)) context _ = _
    rw [hagain]
  · intro fault w₁ hrun
    obtain ⟨fault', w₂, hfault⟩ := hfaults fault w₁ hrun
    refine ⟨fault', w₂, run_bind_error _ ?_⟩
    rw [run_localReference_pending hfound]
    exact run_bind_error _ hfault

/-- `q y = let k : b -> b ; k z = z in k y` is asked for where a type variable `a` and a name `x : a` are around. -/
theorem references_give_the_same_as_after_definition_of_pair :
    let a : TyVar := ⟨0, "a", true⟩
    let k : ValueDecl :=
      ⟨0, some (.mk 3 (.function [.mk 1 (.var "b"), .mk 2 (.var "b")])), .function ⟨4, "k"⟩ [.mk 0 5 (.var "z")],
        .mk 1 6 (.var (.plain "z"))⟩
    let q : ValueDecl :=
      ⟨7, none, .function ⟨8, "q"⟩ [.mk 2 9 (.var "y")],
        .mk 6 13 (.letIn [k] (.mk 5 12 (.call (.mk 3 10 (.var (.plain "k"))) [.mk 4 11 (.var (.plain "y"))])))⟩
    let w : Work := ⟨{}, { store := ({} : Store).extended, scopes := [[("q", .pending 0 q 0)]] }⟩
    let w₁ := (inferPending (exprAt 2) 0 q 0 default w).2
    let inner : List Scope := [[("x", .mono (.var a))]]
    let asked := reference (elsewhereAt 2) 14 (.plain "q") default (w.under inner [("a", .var a)] 1)
    inferPending (exprAt 2) 0 q 0 default w = (.ok (), w₁) ∧
      asked = reference (elsewhereAt 2) 14 (.plain "q") default (w₁.under inner [("a", .var a)] 1) ∧
      asked.1.isOk = true := by
  intro a k q w w₁ inner asked
  have hrun : inferPending (exprAt 2) 0 q 0 default w = (.ok (), w₁) := run_eq_of_isOk (by decide +kernel)
  have hstore : Store.Orderly (w.pass.store, insert (.var ⟨0, "a", true⟩) {r | r.node? = none}) :=
    (Advance.move (.fresh "a" true)).orderly orderly_empty
  have hwithin : ∀ Q, w.pass.Within Q := by
    refine fun Q => ⟨fun scope hscope entry hentry => ?_, fun _ h => by cases h⟩
    cases List.mem_singleton.mp hscope
    cases List.mem_singleton.mp hentry
    trivial
  have hwrites : w.pass.WaitsIn {name | name ∉ [("a", Ty.var a)].map Prod.fst} := by
    intro scope hscope entry hentry
    cases List.mem_singleton.mp hscope
    cases List.mem_singleton.mp hentry
    intro f hf
    simp only [q, k, Expr.fragments, Expr.kindFragments, Expr.definitionFragments, Expr.listFragments,
      Multiset.cons_zero, Multiset.add_zero, Multiset.singleton_add, Multiset.add_cons, Multiset.mem_cons,
      Multiset.mem_add, Multiset.mem_singleton] at hf
    rcases hf with rfl | rfl | rfl | (hf | rfl) | rfl
    · simp [Fragment.WritesIn, functionSignature?, TypeExpr.varNames, TypeExpr.varNamesList]
    · trivial
    · trivial
    · obtain ⟨site, hsite, rfl⟩ := Multiset.mem_map.mp hf
      cases List.mem_singleton.mp hsite
      trivial
    · trivial
    · trivial
  obtain ⟨hsame, -⟩ := references_give_the_same_as_after_definition 2 default w _ [("q", .pending 0 q 0)] [] inner
    [("a", .var a)] 1 14 "q" 0 q 0 ⟨fun _ h => absurd h List.not_mem_nil, fun _ h => absurd h List.not_mem_nil⟩
    ⟨hstore, hwithin _, Session.frozen_empty⟩ rfl rfl (List.mem_singleton_self _) (by decide)
    (List.forall_mem_singleton.mpr ⟨a, rfl, unsolved_extended_self {}, hwithin _⟩) hwrites
  exact ⟨hrun, hsame w₁ hrun, by decide +kernel⟩

/-- In `d = let p = let h : a -> a ; h x = q x in h ; q y = let k : a -> a ; k z = z in k y in ( q 1, q "s" )` the
definition `q` is needed while `a` of the signature of `h` is around, and `k` gets this `a` for its own: `q` is not
generalized, and both uses of it are reported. With `q` written first nothing is reported. -/
theorem order_of_definitions_changes_what_is_reported :
    let h : ValueDecl :=
      ⟨4, some (.mk 3 (.function [.mk 1 (.var "a"), .mk 2 (.var "a")])), .function ⟨5, "h"⟩ [.mk 0 6 (.var "x")],
        .mk 3 9 (.call (.mk 1 7 (.var (.plain "q"))) [.mk 2 8 (.var (.plain "x"))])⟩
    let p : ValueDecl := ⟨10, none, .function ⟨11, "p"⟩ [], .mk 5 13 (.letIn [h] (.mk 4 12 (.var (.plain "h"))))⟩
    let k : ValueDecl :=
      ⟨17, some (.mk 16 (.function [.mk 14 (.var "a"), .mk 15 (.var "a")])), .function ⟨18, "k"⟩ [.mk 6 19 (.var "z")],
        .mk 7 20 (.var (.plain "z"))⟩
    let q : ValueDecl :=
      ⟨21, none, .function ⟨22, "q"⟩ [.mk 8 23 (.var "y")],
        .mk 12 27 (.letIn [k] (.mk 11 26 (.call (.mk 9 24 (.var (.plain "k"))) [.mk 10 25 (.var (.plain "y"))])))⟩
    let uses : Expr := .mk 19 34 (.tuple
      [.mk 15 30 (.call (.mk 13 28 (.var (.plain "q"))) [.mk 14 29 (.literal .int)]),
       .mk 18 33 (.call (.mk 16 31 (.var (.plain "q"))) [.mk 17 32 (.literal .string)])])
    let d (definitions : List ValueDecl) : ValueDecl :=
      ⟨0, none, .function ⟨0, "d"⟩ [], .mk 20 35 (.letIn definitions uses)⟩
    let answer (definitions : List ValueDecl) : Option InferenceResult :=
      (({ file := default, scope := { module := ⟨"Main", [.value (d definitions)]⟩ } } : Engine).infer
        (.declared 0) {}).1.toOption.bind Except.toOption
    (answer [p, q]).map (fun result => (result.problems.map Problem.pos, result.ty.render false)) =
        some ([29, 32], "( a, a )") ∧
      (answer [q, p]).map (fun result => (result.problems.map Problem.pos, result.ty.render false)) =
        some ([], "( number, String )") := by
  decide +kernel

end InferM

end ElmInference
