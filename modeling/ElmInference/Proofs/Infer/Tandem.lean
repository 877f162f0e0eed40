import ElmInference.Proofs.Infer.Expressions
import ElmInference.Proofs.Infer.Fragments
import ElmInference.Proofs.Infer.SignatureVars

/-!
# Definitions under other signatures

Two runs go in tandem when the second one has more type variables of signatures around, and both do the same
otherwise: both return or both fault, and when they return, their states differ in these type variables only. The
state has to stay orderly for that, since generalization must not come across the other variables; and the names of
these must not be written inside, neither in what is inferred nor in what waits in scope.
-/

namespace ElmInference

open Store

variable {Q Q' : Set Mention}

/-! ### The names that signatures write -/

/-- Whether the signatures that a node brings into scope write type variables of a set only. -/
def Fragment.WritesIn (names : Set Name) : Fragment → Prop
  | .expr (.mk _ _ (.letIn definitions _)) =>
    ∀ d ∈ definitions, ∀ t, InferM.functionSignature? d = some t → ∀ name ∈ t.varNames, name ∈ names
  | _ => True

/-- Whether the signatures of some nodes write type variables of a set only. -/
def WriteIn (names : Set Name) (m : Multiset Fragment) : Prop :=
  ∀ f ∈ m, f.WritesIn names

/-- Whether the signatures inside of an expression write type variables of a set only. -/
abbrev Expr.WritesIn (names : Set Name) (e : Expr) : Prop :=
  WriteIn names e.fragments

theorem writeIn_add {names : Set Name} {m m' : Multiset Fragment} :
    WriteIn names (m + m') ↔ WriteIn names m ∧ WriteIn names m' := by
  simp only [WriteIn, Multiset.mem_add, or_imp, forall_and]

theorem Expr.WritesIn.parts {names : Set Name} {id : NodeId} {pos : Nat} {kind : ExprKind Expr}
    (h : (Expr.mk id pos kind).WritesIn names) : WriteIn names (Expr.kindFragments kind) := by
  intro f hf
  refine h f ?_
  rw [Expr.fragments]
  exact Multiset.mem_cons_of_mem hf

structure Definition.WritesIn (names : Set Name) (d : ValueDecl) : Prop where
  signature : ∀ t, InferM.functionSignature? d = some t → ∀ name ∈ t.varNames, name ∈ names
  body : d.body.WritesIn names

theorem writesIn_of_letIn {names : Set Name} {id : NodeId} {pos : Nat} {definitions : List ValueDecl} {body : Expr}
    (h : (Expr.mk id pos (.letIn definitions body)).WritesIn names) :
    (∀ d ∈ definitions, d.WritesIn names) ∧ body.WritesIn names := by
  have hparts := h.parts
  rw [Expr.kindFragments, writeIn_add] at hparts
  have hbodies : ∀ definitions : List ValueDecl, WriteIn names (Expr.definitionFragments definitions) →
      ∀ d ∈ definitions, d.body.WritesIn names := by
    intro definitions hdefinitions
    induction definitions with
    | nil => exact fun _ h => by cases h
    | cons d rest ih =>
      rw [Expr.definitionFragments, writeIn_add, writeIn_add] at hdefinitions
      exact List.forall_mem_cons.mpr ⟨hdefinitions.1.2, ih hdefinitions.2⟩
  have hsignatures := h _ (by rw [Expr.fragments]; exact Multiset.mem_cons_self _ _)
  exact ⟨fun d hd => ⟨hsignatures d hd, hbodies definitions hparts.1 d hd⟩, hparts.2⟩

def Binding.WaitsIn (names : Set Name) : Binding → Prop
  | .pending _ definition _ => definition.body.WritesIn names
  | _ => True

def Pass.WaitsIn (names : Set Name) (pass : Pass) : Prop :=
  ∀ scope ∈ pass.scopes, ∀ entry ∈ scope, entry.2.WaitsIn names

namespace InferM

variable {α α' β β' : Type} {context : Context} {o : Overlay}

/-! ### Runs in tandem -/

/-- Whether an orderly state may also have other type variables around, by an overlay that makes no difference. -/
structure Wears (o : Overlay) (Q : Set Mention) (w : Work) (vars : Assoc Name Ty) : Prop where
  orderly : w.Orderly Q
  strange : o.Strange w.pass.store Q
  vars : o.Extends w.pass.typeVars vars
  waiting : w.pass.WaitsIn o.names

theorem Wears.wear {w : Work} {around vars vars' : Assoc Name Ty} (h : Wears o Q w around) (hvars : VarsWithin vars Q)
    (hextends : o.Extends vars vars') : Wears o Q (w.wearing vars) vars' :=
  ⟨⟨h.orderly.store, ⟨h.orderly.pass.bindings, hvars⟩, h.orderly.session⟩, h.strange, hextends, h.waiting⟩

/-- Whether work does the same under an overlay as other work does without it, with results that are related in
the mentions that are at hand then. -/
structure Tandem (context : Context) (o : Overlay) (Q : Set Mention) (x : InferM α) (x' : InferM α')
    (V : Set Mention → α → α' → Prop) : Prop where
  returns : ∀ w vars a w₁, Wears o Q w vars → x context w = (.ok a, w₁) → ∃ a' Q₁,
    x' context (w.wearing vars) = (.ok a', w₁.wearing vars) ∧ Advances (w.pass.store, Q) (w₁.pass.store, Q₁) ∧
      Wears o Q₁ w₁ vars ∧ w₁.pass.typeVars = w.pass.typeVars ∧ V Q₁ a a'
  faults : ∀ w vars fault w₁, Wears o Q w vars → x context w = (.error fault, w₁) →
    ∃ fault' w₂, x' context (w.wearing vars) = (.error fault', w₂)

/-- Whether work does the same under an overlay as without it, with a result that is as asked. -/
abbrev Follows (context : Context) (o : Overlay) (Q : Set Mention) (x : InferM α) (V : Set Mention → α → Prop) : Prop :=
  Tandem context o Q x x (fun Q a a' => a' = a ∧ V Q a)

theorem tandem_pure {a : α} {a' : α'} {V : Set Mention → α → α' → Prop} (h : V Q a a') :
    Tandem context o Q (pure a) (pure a') V where
  returns w vars b w₁ hw hrun := by
    obtain ⟨rfl, rfl⟩ := run_pure_inv hrun
    exact ⟨a', Q, rfl, .refl, hw, rfl, h⟩
  faults _ _ _ _ _ hrun := by cases hrun

theorem follows_pure {a : α} {V : Set Mention → α → Prop} (h : V Q a) : Follows context o Q (pure a) V :=
  tandem_pure ⟨rfl, h⟩

theorem tandem_throw {fault : Fault} {V : Set Mention → α → α' → Prop} :
    Tandem context o Q (throw fault) (throw fault) V where
  returns _ _ _ _ _ hrun := by cases hrun
  faults _ _ _ _ _ _ := ⟨_, _, rfl⟩

theorem Tandem.bind {x : InferM α} {x' : InferM α'} {f : α → InferM β} {f' : α' → InferM β'}
    {V : Set Mention → α → α' → Prop} {V' : Set Mention → β → β' → Prop} (hx : Tandem context o Q x x' V)
    (hf : ∀ a a' Q', Q ⊆ Q' → V Q' a a' → Tandem context o Q' (f a) (f' a') V') :
    Tandem context o Q (x >>= f) (x' >>= f') V' where
  returns w vars b w₂ hw hrun := by
    obtain ⟨a, w₁, hrun₁, hrun₂⟩ := run_bind_inv hrun
    obtain ⟨a', Q₁, hrun₁', hadvances₁, hw₁, htypeVars₁, hV⟩ := hx.returns w vars a w₁ hw hrun₁
    obtain ⟨b', Q₂, hrun₂', hadvances₂, hw₂, htypeVars₂, hV'⟩ :=
      (hf a a' Q₁ hadvances₁.subset hV).returns w₁ vars b w₂ hw₁ hrun₂
    exact ⟨b', Q₂, (run_bind_ok f' hrun₁').trans hrun₂', hadvances₁.trans hadvances₂, hw₂,
      htypeVars₂.trans htypeVars₁, hV'⟩
  faults w vars fault w₂ hw hrun := by
    rcases hrun₁ : x context w with ⟨r, w₁⟩
    cases r with
    | error fault₁ =>
      obtain ⟨fault', w₃, hfault⟩ := hx.faults w vars fault₁ w₁ hw hrun₁
      exact ⟨fault', w₃, run_bind_error f' hfault⟩
    | ok a =>
      obtain ⟨a', Q₁, hrun₁', hadvances₁, hw₁, -, hV⟩ := hx.returns w vars a w₁ hw hrun₁
      rw [run_bind_ok f hrun₁] at hrun
      obtain ⟨fault', w₃, hfault⟩ := (hf a a' Q₁ hadvances₁.subset hV).faults w₁ vars fault w₂ hw₁ hrun
      exact ⟨fault', w₃, (run_bind_ok f' hrun₁').trans hfault⟩

theorem Tandem.andThen {x : InferM α} {f : α → InferM β} {f' : α → InferM β'} {V : Set Mention → α → Prop}
    {V' : Set Mention → β → β' → Prop} (hx : Follows context o Q x V)
    (hf : ∀ a Q', Q ⊆ Q' → V Q' a → Tandem context o Q' (f a) (f' a) V') :
    Tandem context o Q (x >>= f) (x >>= f') V' :=
  hx.bind fun a _ Q' hsub ⟨heq, hV⟩ => heq ▸ hf a Q' hsub hV

theorem Tandem.imp {x : InferM α} {x' : InferM α'} {V V' : Set Mention → α → α' → Prop}
    (hx : Tandem context o Q x x' V) (h : ∀ Q a a', V Q a a' → V' Q a a') : Tandem context o Q x x' V' where
  returns w vars a w₁ hw hrun := by
    obtain ⟨a', Q₁, hrun', hadvances, hw₁, htypeVars, hV⟩ := hx.returns w vars a w₁ hw hrun
    exact ⟨a', Q₁, hrun', hadvances, hw₁, htypeVars, h _ _ _ hV⟩
  faults := hx.faults

/-- Runs in tandem may count on what holds of every state that they start from. -/
theorem tandem_of_wears {x : InferM α} {x' : InferM α'} {V : Set Mention → α → α' → Prop}
    (h : ∀ w vars, Wears o Q w vars → Tandem context o Q x x' V) : Tandem context o Q x x' V where
  returns w vars a w₁ hw hrun := (h w vars hw).returns w vars a w₁ hw hrun
  faults w vars fault w₁ hw hrun := (h w vars hw).faults w vars fault w₁ hw hrun

/-- Runs in tandem may look at the pass, and go on by what they see there. -/
theorem tandem_inspect {f : Pass → InferM α} {f' : Pass → InferM α'} {V : Set Mention → α → α' → Prop}
    (h : ∀ w vars, Wears o Q w vars → Tandem context o Q (f w.pass) (f' (w.wearing vars).pass) V) :
    Tandem context o Q (getPass >>= f) (getPass >>= f') V where
  returns w vars a w₁ hw hrun := (h w vars hw).returns w vars a w₁ hw hrun
  faults w vars fault w₁ hw hrun := (h w vars hw).faults w vars fault w₁ hw hrun

/-- Work that does not look at the type variables around and leaves the names in scope alone. -/
theorem Behaves.follows {x : InferM α} {V : Set Mention → α → Prop} (hbehaves : Behaves context Q x V)
    (hblind : Blind context x) (hquiet : Quiet context x) : Follows context o Q x V where
  returns w vars a w₁ hw hrun := by
    obtain ⟨Q₁, hadvances, hw₁, hV⟩ := hbehaves w a w₁ hw.orderly hrun
    obtain ⟨hscopes, htypeVars⟩ := Prod.mk.inj (hquiet w a w₁ hrun)
    refine ⟨a, Q₁, by rw [hblind, hrun], hadvances, ⟨hw₁, hw.strange.advance hadvances, ?_, ?_⟩, htypeVars, rfl, hV⟩
    · rw [htypeVars]
      exact hw.vars
    · rw [Pass.WaitsIn, hscopes]
      exact hw.waiting
  faults w vars fault w₁ _ hrun := ⟨fault, _, by rw [hblind, hrun]⟩

theorem Contained.follows {x : InferM α} {V : Set Mention → α → Prop} (h : Contained True False x)
    (hbehaves : Behaves context Q x V) : Follows context o Q x V :=
  hbehaves.follows h.blind (h.keeps (fun _ _ => congrArg Prod.fst) fun _ _ _ => keeps_modifyPass fun _ => rfl)

theorem follows_unknown : Follows context o Q (pure .unknown) AtHand :=
  behaves_unknown.follows (blind_pure _) (keeps_pure _)

/-- A change of the pass that has nothing to do with the type variables around. -/
theorem follows_modifyPass {f : Pass → Pass} (hbehaves : Behaves context Q (modifyPass f) Any)
    (hblind : ∀ pass vars, f { pass with typeVars := vars } = { f pass with typeVars := vars })
    (hkeeps : ∀ pass, (f pass).typeVars = pass.typeVars)
    (hwaits : ∀ pass, pass.WaitsIn o.names → (f pass).WaitsIn o.names) : Follows context o Q (modifyPass f) Any where
  returns w vars a w₁ hw hrun := by
    obtain ⟨Q₁, hadvances, hw₁, -⟩ := hbehaves w a w₁ hw.orderly hrun
    have hblind : Blind context (modifyPass f) := blind_modifyPass hblind
    have hsame := hblind w vars
    rw [hrun] at hsame
    cases hrun
    have hvars : o.Extends (f w.pass).typeVars vars := (hkeeps w.pass).symm ▸ hw.vars
    exact ⟨(), Q₁, hsame, hadvances, ⟨hw₁, hw.strange.advance hadvances, hvars, hwaits _ hw.waiting⟩, hkeeps _, rfl,
      trivial⟩
  faults _ _ _ _ _ hrun := by cases hrun

/-! ### Scopes -/

theorem follows_modifyRest {f : Pass → Pass}
    (hblind : ∀ pass vars, f { pass with typeVars := vars } = { f pass with typeVars := vars })
    (h : ∀ pass, (f pass).store = pass.store ∧ (f pass).scopes = pass.scopes ∧ (f pass).typeVars = pass.typeVars) :
    Follows context o Q (modifyPass f) Any := by
  refine follows_modifyPass (behaves_modifyRest h) hblind (fun pass => (h pass).2.2) fun pass hwaits => ?_
  rw [Pass.WaitsIn, (h pass).2.1]
  exact hwaits

theorem follows_pushScope {scope : Scope} (h : ∀ entry ∈ scope, entry.2.Within Q)
    (hwaits : ∀ entry ∈ scope, entry.2.WaitsIn o.names) : Follows context o Q (pushScope scope) Any :=
  follows_modifyPass (behaves_pushScope h) (fun _ _ => rfl) (fun _ => rfl)
    fun _ hpass => List.forall_mem_cons.mpr ⟨hwaits, hpass⟩

theorem follows_popScope : Follows context o Q popScope Any :=
  follows_modifyPass behaves_popScope (fun _ _ => rfl) (fun _ => rfl)
    fun _ hpass scope hscope => hpass scope (List.mem_of_mem_tail hscope)

theorem follows_modifyScope {f : Scope → Scope} (hbehaves : Behaves context Q (modifyScope f) Any)
    (hwaits : ∀ scope : Scope, (∀ entry ∈ scope, entry.2.WaitsIn o.names) →
      ∀ entry ∈ f scope, entry.2.WaitsIn o.names) : Follows context o Q (modifyScope f) Any := by
  refine follows_modifyPass hbehaves (fun pass vars => ?_) (fun pass => ?_) fun pass hpass => ?_
  all_goals obtain ⟨store, nodeTypes, problems, _ | ⟨scope, outer⟩, typeVars, depth, recursive, cancelled⟩ := pass
  · rfl
  · rfl
  · rfl
  · rfl
  · exact hpass
  · obtain ⟨hscope, houter⟩ := List.forall_mem_cons.mp hpass
    exact List.forall_mem_cons.mpr ⟨hwaits scope hscope, houter⟩

theorem follows_bindName (name : Name) {binding : Binding} (h : binding.Within Q)
    (hwaits : binding.WaitsIn o.names) : Follows context o Q (InferM.bind name binding) Any := by
  refine follows_modifyScope (behaves_bind name h) fun scope hscope entry hentry => ?_
  rcases Assoc.mem_set hentry with hentry | rfl
  · exact hscope entry hentry
  · exact hwaits

theorem follows_unbind (name : Name) : Follows context o Q (unbind name) Any :=
  follows_modifyScope (behaves_unbind name) fun _ hscope _ hentry => hscope _ (List.mem_of_mem_filter hentry)

/-- Two lists are worked off in tandem entry by entry. -/
theorem tandem_forM {R : α → α' → Prop} {f : α → InferM PUnit} {f' : α' → InferM PUnit} {xs : List α} {xs' : List α'}
    (hxs : List.Forall₂ R xs xs')
    (h : ∀ x x', R x x' → ∀ Q', Q ⊆ Q' → Tandem context o Q' (f x) (f' x') fun _ _ _ => True) :
    Tandem context o Q (xs.forM f) (xs'.forM f') fun _ _ _ => True := by
  induction hxs generalizing Q with
  | nil => exact tandem_pure trivial
  | cons hfirst _ ih =>
    exact (h _ _ hfirst Q (subset_refl Q)).bind fun _ _ Q₁ hsub _ =>
      ih fun x x' hx Q' hsub' => h x x' hx Q' (hsub.trans hsub')

theorem follows_forM {f : α → InferM PUnit} {xs : List α}
    (h : ∀ x, ∀ Q', Q ⊆ Q' → Follows context o Q' (f x) Any) : Follows context o Q (xs.forM f) Any := by
  have hall : Tandem context o Q (xs.forM f) (xs.forM f) fun _ _ _ => True :=
    tandem_forM (List.forall₂_same.mpr fun _ _ => rfl) fun x x' heq Q' hsub => by
      cases heq
      exact (h x Q' hsub).imp fun _ _ _ _ => trivial
  exact hall.imp fun _ _ _ _ => ⟨rfl, trivial⟩

theorem follows_declare (names : List Name) (name : NameAt) : Follows context o Q (declare names name) Any :=
  (contained_declare names name).follows (behaves_declare names name)

theorem follows_bindAll (names : List Name) {bound : Bound} (h : BoundAtHand Q bound) :
    Follows context o Q (bindAll names bound) Any := by
  induction bound generalizing names Q with
  | nil => exact follows_pure trivial
  | cons entry rest ih =>
    obtain ⟨name, t⟩ := entry
    obtain ⟨ht, hrest⟩ := List.forall_mem_cons.mp h
    rw [bindAll]
    refine (follows_declare names name).andThen fun names Q₁ hsub₁ _ => ?_
    have hmono : (Binding.mono t).Within Q₁ := Ty.Within.mono ht hsub₁
    refine (follows_bindName _ hmono trivial).andThen fun _ Q₂ hsub₂ _ => ?_
    exact ih names fun entry hentry => (hrest entry hentry).mono (hsub₁.trans hsub₂)

theorem follows_lookup (name : Name) : Follows context o Q (lookup name) (fun Q found =>
    ∀ inner binding, found = some (inner, binding) → binding.Within Q ∧ binding.WaitsIn o.names) where
  returns w vars found w₁ hw hrun := by
    cases hrun
    refine ⟨_, Q, rfl, .refl, hw, rfl, rfl, fun inner binding hfound => ?_⟩
    obtain ⟨scope, hscope, hmem⟩ := exists_of_lookupIn hfound
    exact ⟨hw.orderly.pass.bindings scope hscope _ hmem, hw.waiting scope hscope _ hmem⟩
  faults _ _ _ _ _ hrun := by cases hrun

/-! ### Generalizing -/

theorem follows_generalize {t : Ty} (ht : t.Within Q) :
    Follows context o Q (generalize t) (fun Q scheme => scheme.Within Q) where
  returns w vars scheme w₁ hw hrun := by
    obtain ⟨Q₁, hadvances, hw₁, hscheme⟩ := behaves_generalize ht w scheme w₁ hw.orderly hrun
    obtain ⟨rfl, -⟩ := run_generalize_inv hrun
    have hsame := (generalize_overlaid hw.vars hw.strange hw.orderly.store ht scheme).mp (congrArg Prod.fst hrun)
    refine ⟨scheme, Q₁, ?_, hadvances, ⟨hw₁, hw.strange.advance hadvances, hw.vars, hw.waiting⟩, rfl, rfl, hscheme⟩
    rw [run_generalize] at hsame ⊢
    exact Prod.ext hsame rfl
  faults w vars fault w₁ hw hrun := by
    cases hr : (generalize t context (w.wearing vars)).1 with
    | error fault' => exact ⟨fault', _, Prod.ext hr rfl⟩
    | ok scheme =>
      have hsame := (generalize_overlaid hw.vars hw.strange hw.orderly.store ht scheme).mpr hr
      rw [hrun] at hsame
      cases hsame

theorem follows_bindGeneralized {bound : Bound} (h : BoundAtHand Q bound) :
    Follows context o Q (bindGeneralized bound) Any := by
  induction bound generalizing Q with
  | nil => exact follows_pure trivial
  | cons entry rest ih =>
    obtain ⟨name, t⟩ := entry
    obtain ⟨ht, hrest⟩ := List.forall_mem_cons.mp h
    rw [bindGeneralized]
    refine (follows_generalize ht).andThen fun scheme Q₁ hsub₁ hscheme => ?_
    have hbinding : (Binding.poly scheme).Within Q₁ := hscheme
    refine (follows_bindName _ hbinding trivial).andThen fun _ Q₂ hsub₂ _ => ?_
    exact ih fun entry hentry => (hrest entry hentry).mono (hsub₁.trans hsub₂)

/-! ### Functions and definitions -/

theorem follows_deeper (levels : Nat) {work : InferM Ty}
    (h : ∀ Q', Q ⊆ Q' → Follows context o Q' work AtHand) : Follows context o Q (deeper levels work) AtHand := by
  refine Tandem.andThen (follows_modifyRest (fun _ _ => rfl) fun _ => ⟨rfl, rfl, rfl⟩) fun _ Q₁ hsub₁ _ => ?_
  refine (h Q₁ hsub₁).andThen fun t Q₂ _ ht => ?_
  refine Tandem.andThen (follows_modifyRest (fun _ _ => rfl) fun _ => ⟨rfl, rfl, rfl⟩) fun _ Q₃ hsub₃ _ => ?_
  exact follows_pure (Ty.Within.mono ht hsub₃)

theorem follows_inferPattern (hscope : context.engine.scope.Frozen) (place : PatternPlace) (p : Pattern) {t : Ty}
    (ht : t.Within Q) : Follows context o Q (inferPattern place p t) BoundAtHand :=
  (contained_inferPattern place p t).follows (behaves_inferPattern hscope place p ht)

theorem follows_inferParams (hscope : context.engine.scope.Frozen) (ps : List Pattern) {ts : List Ty}
    (hts : ∀ t ∈ ts, t.Within Q) : Follows context o Q (inferParams ps ts) BoundAtHand :=
  (contained_inferParams ps ts).follows (behaves_inferParams hscope ps hts)

theorem follows_freshVar (name : Name) : Follows context o Q (freshVar name) AtHand :=
  (contained_freshVar name).follows (behaves_freshVar name)

theorem follows_freshVars (name : Name) (xs : List α) : Follows context o Q (freshVars name xs) AllAtHand :=
  (contained_freshVars name xs).follows (behaves_freshVars name xs)

theorem follows_check (pos : Nat) {t u : Ty} (ht : t.Within Q) (hu : u.Within Q) :
    Follows context o Q (check pos t u) Any :=
  (contained_check pos t u).follows (behaves_check pos ht hu)

section Bodies

variable {inferBody : Expr → InferM Ty} (hscope : context.engine.scope.Frozen)
  (hbody : ∀ Q e, e.WritesIn o.names → Follows context o Q (inferBody e) AtHand)

include hscope hbody

theorem follows_inferFunction (name : NameAt) (params : List Pattern) {body : Expr} (hwrites : body.WritesIn o.names)
    {signature : Option Ty} (h : ∀ t, signature = some t → t.Within Q) :
    Follows context o Q (inferFunction inferBody name params body signature) AtHand := by
  -- All but the last step is the same with and without a signature.
  have hrest : ∀ (last : Ty → InferM Ty) (types : List Ty) Q₁, (∀ t ∈ types, t.Within Q₁) →
      (∀ t Q₂, Q₁ ⊆ Q₂ → t.Within Q₂ → Follows context o Q₂ (last t) AtHand) →
      Follows context o Q₁ (do
        pushScope []
        let bound ← inferParams params types
        bindAll [name.name] bound
        let bodyType ← deeper (if params.isEmpty then 0 else 1) (inferBody body)
        popScope
        last bodyType) AtHand := by
    intro last types Q₁ htypes hlast
    refine (follows_pushScope (by simp) (by simp)).andThen fun _ Q₂ hsub₂ _ => ?_
    refine (follows_inferParams hscope params fun t ht => (htypes t ht).mono hsub₂).andThen
      fun bound Q₃ hsub₃ hbound => ?_
    refine (follows_bindAll _ hbound).andThen fun _ Q₄ hsub₄ _ => ?_
    refine (follows_deeper _ fun Q' _ => hbody Q' body hwrites).andThen fun bodyType Q₅ hsub₅ hbodyType => ?_
    refine follows_popScope.andThen fun _ Q₆ hsub₆ _ => ?_
    exact hlast bodyType Q₆ (hsub₂.trans (hsub₃.trans (hsub₄.trans (hsub₅.trans hsub₆))))
      (Ty.Within.mono hbodyType hsub₆)
  refine Tandem.andThen ((contained_expectedParams name params signature).follows
    (behaves_expectedParams name params h)) fun expected Q₁ hsub₁ hexpected => ?_
  cases expected with
  | some types =>
    refine (follows_pure (V := AllAtHand) (hexpected types rfl)).andThen fun types Q₂ hsub₂ htypes =>
      hrest _ types Q₂ htypes fun t Q₃ hsub₃ ht => ?_
    cases signature with
    | some signature =>
      have hsignature := (h signature rfl).mono (hsub₁.trans (hsub₂.trans hsub₃))
      exact (follows_check _ ht (Ty.within_applyParams _ hsignature)).andThen
        fun _ _ hsub₄ _ => follows_pure (hsignature.mono hsub₄)
    | none => exact follows_pure (Ty.within_function (fun t ht => (htypes t ht).mono hsub₃) ht)
  | none =>
    refine (follows_freshVars "a" params).andThen fun types Q₂ hsub₂ htypes =>
      hrest _ types Q₂ htypes fun t Q₃ hsub₃ ht => ?_
    cases signature with
    | some signature => exact follows_pure ((h signature rfl).mono (hsub₁.trans (hsub₂.trans hsub₃)))
    | none => exact follows_pure (Ty.within_function (fun t ht => (htypes t ht).mono hsub₃) ht)

theorem follows_inferDestructuring (pattern : Pattern) {body : Expr} (hwrites : body.WritesIn o.names) :
    Follows context o Q (inferDestructuring inferBody pattern body)
      (fun Q out => out.1.Within Q ∧ BoundAtHand Q out.2) := by
  refine (hbody Q body hwrites).andThen fun t Q₁ _ ht => ?_
  refine (follows_inferPattern hscope .declaration pattern ht).andThen fun bound Q₂ hsub₂ hbound => ?_
  exact follows_pure ⟨Ty.Within.mono ht hsub₂, hbound⟩

theorem follows_definitionTypes {definition : ValueDecl} (hwrites : definition.body.WritesIn o.names) (depth : Nat) :
    Follows context o Q (definitionTypes inferBody definition depth) BoundAtHand := by
  unfold definitionTypes
  split
  · next name params _ =>
    refine (follows_freshVar "a").andThen fun self Q₁ _ hself => ?_
    have hactive : (Binding.active self (!params.isEmpty) depth).Within Q₁ := hself
    refine (follows_bindName _ hactive trivial).andThen fun _ Q₂ hsub₂ _ => ?_
    refine (follows_inferFunction hscope hbody name params hwrites fun _ h => by cases h).andThen
      fun t Q₃ hsub₃ ht => ?_
    refine (follows_check _ ht (Ty.Within.mono hself (hsub₂.trans hsub₃))).andThen fun _ Q₄ hsub₄ _ => ?_
    refine (follows_unbind _).andThen fun _ Q₅ hsub₅ _ => follows_pure fun entry hentry => ?_
    rw [List.mem_singleton.mp hentry]
    exact Ty.Within.mono ht (hsub₄.trans hsub₅)
  · next pattern _ =>
    refine tandem_of_wears fun w vars hw => ?_
    refine (follows_forM fun name Q' hsub => ?_).andThen fun _ Q₁ _ _ => ?_
    · have hmono : (Binding.mono .inProgress).Within Q' := by
        intro r hr
        rw [List.mem_singleton.mp hr]
        exact hsub (hw.orderly.store.plain _ rfl)
      exact follows_bindName _ hmono trivial
    refine (follows_inferDestructuring hscope hbody pattern hwrites).andThen fun out Q₂ _ hout => ?_
    refine (follows_forM fun name Q' _ => follows_unbind _).andThen fun _ Q₃ hsub₃ _ => follows_pure ?_
    exact fun entry hentry => (hout.2 entry hentry).mono hsub₃

theorem follows_inferDefinition {definition : ValueDecl} (hwrites : definition.body.WritesIn o.names) (depth : Nat) :
    Follows context o Q (inferDefinition inferBody definition depth) Any := by
  rw [inferDefinition_eq]
  exact (follows_definitionTypes hscope hbody hwrites depth).andThen fun _ _ _ hbound => follows_bindGeneralized hbound

omit hscope hbody in
theorem follows_hidingScopes (inner : Nat) {work : InferM Unit}
    (h : ∀ Q', Q ⊆ Q' → Follows context o Q' work Any) : Follows context o Q (hidingScopes inner work) Any := by
  refine tandem_inspect fun w vars hw => ?_
  let dropped (pass : Pass) : Pass := { pass with scopes := pass.scopes.drop inner }
  have hrest : Follows context o Q (modifyPass dropped) Any := follows_modifyPass
    (behaves_modifyPass (fun _ => rfl) fun p hp => ⟨fun scope hscope =>
      hp.bindings scope (List.mem_of_mem_drop hscope), hp.typeVars⟩) (fun _ _ => rfl) (fun _ => rfl)
    fun pass hpass scope hscope => hpass scope (List.mem_of_mem_drop hscope)
  refine hrest.andThen fun _ Q₂ hsub₂ _ => (h Q₂ hsub₂).andThen fun _ Q₃ hsub₃ _ => ?_
  refine Tandem.andThen (follows_modifyPass (behaves_modifyPass (fun _ => rfl) fun p hp =>
    ⟨fun scope hscope => ?_, hp.typeVars⟩) (fun _ _ => rfl) (fun _ => rfl) fun pass hpass scope hscope => ?_)
    fun _ _ _ _ => follows_pure trivial
  · rcases List.mem_append.mp hscope with hscope | hscope
    · exact (hw.orderly.pass.mono (hsub₂.trans hsub₃)).bindings scope (List.mem_of_mem_take hscope)
    · exact hp.bindings scope hscope
  · rcases List.mem_append.mp hscope with hscope | hscope
    · exact hw.waiting scope (List.mem_of_mem_take hscope)
    · exact hpass scope hscope

theorem follows_inferPending (inner : Nat) {definition : ValueDecl} (hwrites : definition.body.WritesIn o.names)
    (depth : Nat) : Follows context o Q (inferPending inferBody inner definition depth) Any := by
  refine follows_hidingScopes inner fun Q₁ _ => tandem_inspect fun w vars hw => ?_
  refine Tandem.andThen (follows_modifyRest (fun _ _ => rfl) fun _ => ⟨rfl, rfl, rfl⟩) fun _ Q₃ _ _ => ?_
  refine (follows_inferDefinition hscope hbody hwrites depth).andThen fun _ Q₄ _ _ => ?_
  exact follows_modifyRest (fun _ _ => rfl) fun _ => ⟨rfl, rfl, rfl⟩

end Bodies

/-! ### References -/

section Elsewhere

variable {elsewhere : Elsewhere} (hscope : context.engine.scope.Frozen)
  (helsewhere : ElsewhereBehaves context elsewhere)
  (hbody : ∀ Q e, e.WritesIn o.names → Follows context o Q (elsewhere.body e) AtHand)

include hscope hbody in
theorem follows_localReference (pos : Nat) (name : Name) :
    Follows context o Q (localReference elsewhere pos name) MaybeAtHand := by
  have huse : ∀ binding Q, binding.Within Q → Follows context o Q
      (do return some (← useBinding pos binding) : InferM (Option Ty)) MaybeAtHand := by
    intro binding Q hbinding
    refine Tandem.andThen ((contained_useBinding pos binding).follows (behaves_useBinding pos hbinding))
      fun t Q₁ _ ht => follows_pure fun u hu => ?_
    cases hu
    exact ht
  refine (follows_lookup name).andThen fun found Q₁ _ hfound => ?_
  split
  · exact follows_pure fun _ h => by cases h
  · obtain ⟨-, hwrites⟩ := hfound _ _ rfl
    refine (follows_inferPending hscope hbody _ hwrites _).andThen fun _ Q₂ _ _ => ?_
    refine (follows_lookup name).andThen fun found Q₃ _ hfound => ?_
    split
    · exact huse _ _ (hfound _ _ rfl).1
    · refine tandem_of_wears fun w vars hw => follows_pure fun t ht => ?_
      cases ht
      exact Ty.within_unknown hw.orderly.store.plain
  · exact huse _ _ (hfound _ _ rfl).1

include hscope helsewhere hbody in
theorem follows_reference (pos : Nat) (name : Ref) :
    Follows context o Q (reference elsewhere pos name) AtHand := by
  have hglobal : ∀ Q, Follows context o Q (globalReference elsewhere pos name) AtHand := fun Q =>
    (behaves_globalReference hscope helsewhere pos name).follows (blind_globalReference elsewhere pos name)
      (still_globalReference elsewhere pos name).quiet
  unfold reference
  split
  · exact hglobal Q
  · refine (follows_localReference hscope hbody pos name.name).andThen fun found Q₁ _ hfound => ?_
    split
    · exact follows_pure (hfound _ rfl)
    · exact hglobal Q₁

end Elsewhere

/-! ### Entering a `let` -/

structure SignedDefinition.Overlaid (o : Overlay) (d d' : SignedDefinition) : Prop where
  same : d' = { d with vars := d'.vars }
  vars : o.Extends d.vars d'.vars
  body : d.body.WritesIn o.names

structure LetScope.Overlaid (o : Overlay) (l l' : LetScope) : Prop where
  names : l'.names = l.names
  scope : l'.scope = l.scope
  waiting : ∀ entry ∈ l.scope, entry.2.WaitsIn o.names
  signed : List.Forall₂ (SignedDefinition.Overlaid o) l.signed l'.signed

theorem tandem_convertSignature {vars vars' : Assoc Name Ty} {t : TypeExpr} (ht : ∀ name ∈ t.varNames, name ∈ o.names)
    (hvars : o.Extends vars vars') (hwithin : VarsWithin vars Q) :
    Tandem context o Q (convertSignature vars t) (convertSignature vars' t) (fun Q out out' =>
      out'.1 = out.1 ∧ o.Extends out.2 out'.2 ∧ out.1.Within Q ∧ VarsWithin out.2 Q) where
  returns w around out w₁ hw hrun := by
    have hfollows : Follows context o Q (convertSignature vars t) _ :=
      (contained_convertSignature vars t).follows (behaves_convertSignature t hwithin)
    obtain ⟨out', Q₁, hrun', hadvances, hw₁, htypeVars, rfl, hout⟩ := hfollows.returns w around out w₁ hw hrun
    obtain ⟨vars₁, hextends, hsame⟩ := run_convertSignature_overlaid ht hvars hrun'
    exact ⟨_, Q₁, hsame, hadvances, hw₁, htypeVars, rfl, hextends, hout⟩
  faults w around fault w₁ hw hrun := by cases hrun

theorem tandem_readDefinition (slot : Nat) {definition : ValueDecl} (hwrites : definition.WritesIn o.names)
    {l l' : LetScope} (h : LetScope.Within l Q) (hl : LetScope.Overlaid o l l') :
    Tandem context o Q (readDefinition slot definition l) (readDefinition slot definition l')
      (fun Q l l' => LetScope.Within l Q ∧ LetScope.Overlaid o l l') := by
  obtain ⟨names', scope', signed'⟩ := l'
  obtain ⟨rfl, rfl, hwaiting, hsigned⟩ := hl
  refine Tandem.andThen ((contained_declareAll _ _).follows (behaves_declareAll _ _)) fun names Q₁ hsub₁ _ => ?_
  refine tandem_inspect fun w around hw => ?_
  split
  · next name params signature hhead hsignature =>
    have hnames : ∀ name ∈ signature.varNames, name ∈ o.names :=
      hwrites.signature signature (by rw [functionSignature?, hhead, hsignature])
    refine (tandem_convertSignature hnames hw.vars hw.orderly.pass.typeVars).bind fun out out' Q₂ hsub₂ hout =>
      tandem_of_wears fun w₂ _ hw₂ => tandem_pure ?_
    obtain ⟨t, vars⟩ := out
    obtain ⟨t', vars'⟩ := out'
    obtain ⟨rfl, hvars, ht, hwithin⟩ := hout
    have hscheme : signatureScheme (w.wearing around).pass.typeVars t' = signatureScheme w.pass.typeVars t' :=
      signatureScheme_overlaid hw.vars hw₂.strange ht
    refine ⟨(h.mono (hsub₁.trans hsub₂)).addSigned ht hwithin names name params _ w.pass.typeVars, ?_⟩
    rw [hscheme]
    refine ⟨rfl, rfl, fun entry hentry => ?_, List.rel_append hsigned (.cons ⟨rfl, hvars, hwrites.body⟩ .nil)⟩
    rcases Assoc.mem_set hentry with hentry | rfl
    · exact hwaiting entry hentry
    · trivial
  · refine tandem_pure ⟨⟨fun entry hentry => ?_, (h.mono hsub₁).signed⟩, rfl, rfl, fun entry hentry => ?_, hsigned⟩
    · rcases mem_foldl_pending hentry with hentry | hpending
      · exact (h.mono hsub₁).bindings entry hentry
      · rw [hpending]
        trivial
    · rcases mem_foldl_pending hentry with hentry | hpending
      · exact hwaiting entry hentry
      · rw [hpending]
        exact hwrites.body

theorem tandem_readDefinitions (slot : Nat) {definitions : List ValueDecl}
    (hwrites : ∀ d ∈ definitions, d.WritesIn o.names) {l l' : LetScope} (h : LetScope.Within l Q)
    (hl : LetScope.Overlaid o l l') :
    Tandem context o Q (readDefinitions slot definitions l) (readDefinitions slot definitions l')
      (fun Q l l' => LetScope.Within l Q ∧ LetScope.Overlaid o l l') := by
  induction definitions generalizing slot l l' Q with
  | nil => exact tandem_pure ⟨h, hl⟩
  | cons definition rest ih =>
    obtain ⟨hfirst, hrest⟩ := List.forall_mem_cons.mp hwrites
    exact (tandem_readDefinition slot hfirst h hl).bind fun l l' Q₁ _ hread => ih (slot + 1) hrest hread.1 hread.2

section Let

variable {inferBody : Expr → InferM Ty} (hscope : context.engine.scope.Frozen)
  (hbody : ∀ Q e, e.WritesIn o.names → Follows context o Q (inferBody e) AtHand)

include hscope hbody

theorem follows_inferWaiting (slot : Nat) {definitions : List ValueDecl}
    (hwrites : ∀ d ∈ definitions, d.WritesIn o.names) :
    Follows context o Q (inferWaiting inferBody slot definitions) Any := by
  induction definitions generalizing slot Q with
  | nil => exact follows_pure trivial
  | cons definition rest ih =>
    obtain ⟨hfirst, hrest⟩ := List.forall_mem_cons.mp hwrites
    refine Tandem.andThen ((contained_isPending slot).follows (behaves_isPending slot)) fun pending Q₁ _ _ => ?_
    split
    · refine tandem_inspect fun w vars hw => ?_
      exact (follows_inferPending hscope hbody 0 hfirst.body w.pass.depth).andThen fun _ Q₃ _ _ => ih (slot + 1) hrest
    · exact ih (slot + 1) hrest

omit hscope hbody in
/-- A definition with signature is inferred while the type variables of the signature are around. -/
theorem run_checkSigned {name : NameAt} {params : List Pattern} {body : Expr} {scheme : Scheme}
    {vars : Assoc Name Ty} {w w₁ : Work}
    (h : InferM.bind name.name (.checking scheme (!params.isEmpty) w.pass.depth) context w = (.ok (), w₁)) :
    checkSigned inferBody ⟨name, params, body, scheme, vars⟩ context w = (do
      let _ ← inferFunction inferBody name params body (some scheme.ty)
      modifyPass (fun after => { after with typeVars := w.pass.typeVars })
      InferM.bind name.name (.poly scheme) : InferM Unit) context (w₁.wearing vars) := by
  obtain rfl : (InferM.bind name.name (.checking scheme (!params.isEmpty) w.pass.depth) context w).2 = w₁ := by rw [h]
  rfl

theorem tandem_checkSigned {d d' : SignedDefinition} (hd : SignedDefinition.Overlaid o d d')
    (ht : d.scheme.ty.Within Q) (hvars : VarsWithin d.vars Q) :
    Tandem context o Q (checkSigned inferBody d) (checkSigned inferBody d') fun _ _ _ => True := by
  obtain ⟨name, params, body, scheme, vars⟩ := d
  obtain ⟨name', params', body', scheme', vars'⟩ := d'
  obtain ⟨hsame, hextends, hwrites⟩ := hd
  cases hsame
  have hscheme : ∀ Q', Q ⊆ Q' → scheme.Within Q' := fun Q' hsub r hr => .inl (hsub (ht r hr))
  have hfunction : ∀ Q', Q ⊆ Q' →
      Follows context o Q' (inferFunction inferBody name params body (some scheme.ty)) AtHand :=
    fun Q' hsub => follows_inferFunction hscope hbody name params hwrites fun t heq => by
      cases heq
      exact ht.mono hsub
  -- The state in which the function is inferred, and the one under the overlay.
  have hstart : ∀ w around, Wears o Q w around → ∃ Q₁ w₁,
      InferM.bind name.name (.checking scheme (!params.isEmpty) w.pass.depth) context w = (.ok (), w₁) ∧
        InferM.bind name.name (.checking scheme (!params.isEmpty) w.pass.depth) context (w.wearing around) =
          (.ok (), w₁.wearing around) ∧
        Advances (w.pass.store, Q) (w₁.pass.store, Q₁) ∧ Wears o Q₁ (w₁.wearing vars) vars' := by
    intro w around hw
    have hchecking : (Binding.checking scheme (!params.isEmpty) w.pass.depth).Within Q := hscheme Q (subset_refl Q)
    obtain ⟨w₁, hrun⟩ : ∃ w₁, InferM.bind name.name (.checking scheme (!params.isEmpty) w.pass.depth) context w =
        (.ok (), w₁) := ⟨_, rfl⟩
    obtain ⟨_, Q₁, hrun', hadvances, hw₁, -⟩ :=
      (follows_bindName (o := o) name.name hchecking trivial).returns w around () w₁ hw hrun
    exact ⟨Q₁, w₁, hrun, hrun', hadvances, hw₁.wear (hvars.mono hadvances.subset) hextends⟩
  constructor
  · intro w around a w₂ hw hrun
    obtain ⟨Q₁, w₁, hbefore, hbefore', hadvances₁, hw₁⟩ := hstart w around hw
    rw [run_checkSigned hbefore] at hrun
    obtain ⟨t, w₃, hrun₃, hrun⟩ := run_bind_inv hrun
    obtain ⟨t', Q₃, hrun₃', hadvances₃, hw₃, -, -⟩ :=
      (hfunction Q₁ hadvances₁.subset).returns _ _ t w₃ hw₁ hrun₃
    have hsub := hadvances₁.subset.trans hadvances₃.subset
    have hw₄ : Wears o Q₃ (w₃.wearing w.pass.typeVars) around :=
      hw₃.wear (hw.orderly.pass.typeVars.mono hsub) hw.vars
    have hpoly : Follows context o Q₃ (InferM.bind name.name (.poly scheme)) Any :=
      follows_bindName name.name (hscheme Q₃ hsub) trivial
    obtain ⟨_, Q₅, hrun₅', hadvances₅, hw₅, htypeVars₅, -⟩ := hpoly.returns _ around a w₂ hw₄ hrun
    refine ⟨(), Q₅, ?_, hadvances₁.trans (hadvances₃.trans hadvances₅), hw₅, htypeVars₅, trivial⟩
    rw [run_checkSigned hbefore']
    exact (run_bind_ok _ hrun₃').trans hrun₅'
  · intro w around fault w₂ hw hrun
    obtain ⟨Q₁, w₁, hbefore, hbefore', hadvances₁, hw₁⟩ := hstart w around hw
    rw [run_checkSigned hbefore] at hrun
    rw [run_checkSigned hbefore']
    rcases hrun₃ : inferFunction inferBody name params body (some scheme.ty) context (w₁.wearing vars) with ⟨r, w₃⟩
    cases r with
    | error fault₃ =>
      obtain ⟨fault', w₄, hfault⟩ := (hfunction Q₁ hadvances₁.subset).faults _ _ fault₃ w₃ hw₁ hrun₃
      exact ⟨fault', w₄, run_bind_error _ hfault⟩
    | ok t =>
      rw [run_bind_ok _ hrun₃] at hrun
      cases hrun

theorem follows_enterLet {definitions : List ValueDecl} (hwrites : ∀ d ∈ definitions, d.WritesIn o.names) :
    Follows context o Q (enterLet inferBody definitions) Any := by
  have hread : Tandem context o Q (readDefinitions 0 definitions {}) (readDefinitions 0 definitions {}) _ :=
    tandem_readDefinitions 0 hwrites ⟨by simp, by simp⟩ ⟨rfl, rfl, by simp, .nil⟩
  refine Tandem.imp (hread.bind fun l l' Q₁ _ hl => ?_ : Tandem context o Q _ _ fun _ _ _ => True)
    fun _ _ _ _ => ⟨rfl, trivial⟩
  obtain ⟨hwithin, -, hscope', hwaiting, hsigned⟩ := hl
  rw [hscope']
  refine (follows_pushScope hwithin.bindings hwaiting).andThen fun _ Q₂ hsub₂ _ => ?_
  refine (follows_inferWaiting hscope hbody 0 hwrites).andThen fun _ Q₃ hsub₃ _ => ?_
  have hsigned₃ := (hwithin.mono (hsub₂.trans hsub₃)).signed
  refine tandem_forM ((List.forall₂_and_left _ _).mpr ⟨hsigned₃, hsigned⟩) fun d d' hd Q' hsub => ?_
  exact tandem_checkSigned hscope hbody hd.2 (hd.1.1.mono hsub) (hd.1.2.mono hsub)

end Let

end InferM

end ElmInference
