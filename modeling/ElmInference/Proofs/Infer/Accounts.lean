import ElmInference.Proofs.Infer.Fieldless

/-!
# Types that are accounted for

Types are recorded early and solved later, so what a recorded type is going to say depends on how the pass ends. The end
is fixed in advance: an `Account` holds what the pass will have recorded, the store that it will have reached, and a
reading of that store. Inference `Derives` when it keeps records out and, if the pass does end like this and reports
nothing, every node is recorded with a type that obeys the rules for the types of nodes.

What holds of the state whatever comes later is told apart from what holds at the end only. The latter may rest on what
was found out before, which is the premise `P`.
-/

namespace ElmInference

open Relation Store StoreM

/-- How a pass is going to end, and the nodes that it records. -/
structure Account where
  nodes : Set Fragment
  log : List (NodeId × Ty)
  store : Store
  env : Env Node

namespace Account

def typing (A : Account) : Typing where
  has id t := (id, t) ∈ A.log ∧ A.store.Known t
  read := Ty.read A.env
  isNumber := A.store.Guards .number

/-- An end without records, with one type for each node. -/
structure Proper (A : Account) : Prop where
  recordfree : ∀ n ∈ A.nodes, n.isRecordfree = true
  functional : ∀ id t u, (id, t) ∈ A.log → (id, u) ∈ A.log → t = u
  models : A.store.Models A.env
  recordless : A.store.Recordless Ty.Recordless

/-- Whether two types say the same at the end, if they are known by then. -/
def Agrees (A : Account) (t u : Ty) : Prop :=
  A.store.Known t → A.store.Known u → t.read A.env = u.read A.env

def Logs (A : Account) (ids : List NodeId) (ts : List Ty) : Prop :=
  List.Forall₂ (fun id t => (id, t) ∈ A.log) ids ts

/-- What a success of unification says at the end. -/
structure Unifies (A : Account) (t u : Ty) (w w' : World) : Prop where
  run : StoreM.unify t u w.1 = .ok (.ok (), w'.1)
  extension : w'.1.Extends A.store
  agrees : A.Agrees t u

variable {A : Account}

/-- What was recorded for a list of nodes are the types that these have. -/
theorem Proper.eq_of_hasAll (hA : A.Proper) {ids : List NodeId} {ts us : List Ty} (h : A.Logs ids ts)
    (hhas : A.typing.HasAll ids us) : us = ts ∧ ∀ t ∈ ts, A.store.Known t := by
  induction h generalizing us with
  | nil =>
    cases hhas
    exact ⟨rfl, fun _ ht => absurd ht List.not_mem_nil⟩
  | cons hfirst _ ih =>
    cases hhas with
    | cons hhas hrest =>
      obtain ⟨rfl, hknown⟩ := ih hrest
      obtain rfl := hA.functional _ _ _ hfirst hhas.1
      exact ⟨rfl, List.forall_mem_cons.mpr ⟨hhas.2, hknown⟩⟩

theorem Proper.eq_of_has (hA : A.Proper) {id : NodeId} {t u : Ty} (h : (id, t) ∈ A.log) (hhas : A.typing.has id u) :
    u = t ∧ A.store.Known t := by
  obtain rfl := hA.functional _ _ _ h hhas.1
  exact ⟨rfl, hhas.2⟩

end Account

/-! ### States -/

/-- Whether a binding holds no record and mentions only what is in a set; what waits are nodes of the account. -/
def Binding.Admitted (A : Account) (Q : Set Mention) : Binding → Prop
  | .mono t => t.RecordlessIn Q
  | .poly scheme => scheme.RecordlessIn Q
  | .pending _ d _ => ∀ n ∈ d.fragments, n ∈ A.nodes
  | .checking scheme _ _ => scheme.RecordlessIn Q
  | .active t _ _ => t.RecordlessIn Q

structure Pass.Admitted (A : Account) (Q : Set Mention) (pass : Pass) : Prop where
  bindings : ∀ scope ∈ pass.scopes, ∀ entry ∈ scope, entry.2.Admitted A Q
  typeVars : VarsWithin pass.typeVars Q

structure Work.Kept (A : Account) (w : World) (σ : Work) : Prop where
  store : σ.pass.store = w.1
  fieldless : Fieldless w
  pass : σ.pass.Admitted A w.2
  log : ∀ entry ∈ σ.pass.nodeTypes, entry.2.RecordlessIn w.2
  session : σ.session.Recordless

/-- Whether a state may lead to the end of the account: nothing was reported, and nothing is known or recorded that will
not be so at the end. -/
structure Work.Before (A : Account) (σ : Work) : Prop where
  ends : σ.pass.Ends True
  log : σ.pass.nodeTypes ⊆ A.log
  extension : σ.pass.store.Extends A.store

def Work.Justified (A : Account) (σ : Work) : Prop :=
  ∀ entry ∈ σ.pass.nodeTypes, ∃ n ∈ A.nodes, n.id = entry.1 ∧ n.Obeys A.typing

variable {A : Account} {Q Q' : Set Mention} {w w₁ w' : World} {σ σ' : Work}

theorem Binding.Admitted.mono {binding : Binding} (h : binding.Admitted A Q) (hQ : Q ⊆ Q') : binding.Admitted A Q' := by
  cases binding with
  | mono t => exact Ty.RecordlessIn.mono h hQ
  | poly scheme => exact Scheme.RecordlessIn.mono h hQ
  | pending slot d depth => exact h
  | checking scheme hasParams depth => exact Scheme.RecordlessIn.mono h hQ
  | active t hasParams depth => exact Ty.RecordlessIn.mono h hQ

theorem Pass.Admitted.mono {pass : Pass} (h : pass.Admitted A Q) (hQ : Q ⊆ Q') : pass.Admitted A Q' :=
  ⟨fun scope hscope entry hentry => (h.bindings scope hscope entry hentry).mono hQ, h.typeVars.mono hQ⟩

/-- Nothing is taken back on the way, so what leads to the end did so before. -/
theorem Work.Before.of_grows (h : σ'.Before A) (hgrows : σ.pass.Grows σ'.pass)
    (hlog : σ.pass.nodeTypes ⊆ σ'.pass.nodeTypes) (hext : σ.pass.store.Extends σ'.pass.store) : σ.Before A :=
  ⟨h.ends.of_grows hgrows, List.Subset.trans hlog h.log, hext.trans h.extension⟩

/-! ### Sessions -/

namespace SessionM

variable {α β : Type} {engine : Engine}

/-- Session work that comes by no record. -/
def Spares (engine : Engine) (x : SessionM α) (R : α → Prop) : Prop :=
  ∀ session a session', session.Recordless → x engine session = (.ok a, session') → session'.Recordless ∧ R a

theorem spares_isCancelled : Spares engine isCancelled (fun _ => True) := by
  intro session a session' hsession hrun
  obtain ⟨flag, rfl⟩ := run_isCancelled_inv hrun
  exact ⟨⟨hsession.results, hsession.declared⟩, trivial⟩

theorem spares_trip (name : Ref) : Spares engine (trip name) (fun _ => True) := by
  intro session a session' hsession hrun
  obtain ⟨flag, rfl⟩ := run_trip_inv hrun
  exact ⟨⟨hsession.results, hsession.declared⟩, trivial⟩

theorem spares_findValues (name : Ref) :
    Spares engine (findValues name) (fun targets => targets = engine.scope.findValues name) := by
  intro session a session' hsession hrun
  obtain ⟨rfl, flag, rfl⟩ := run_findValues_inv hrun
  exact ⟨⟨hsession.results, hsession.declared⟩, rfl⟩

theorem spares_withTypes {work : StateM TypeTable α} {R : α → Prop}
    (h : ∀ table : TypeTable, table.Recordless → (work table).2.Recordless ∧ R (work table).1) :
    Spares engine (withTypes work) R := by
  intro session a session' hsession hrun
  obtain ⟨htable, ha⟩ := h session.types hsession.declared
  rw [run_withTypes] at hrun
  cases hrun
  exact ⟨⟨hsession.results, htable⟩, ha⟩

end SessionM

/-! ### Derivations -/

namespace InferM

variable {α β : Type} {context : Context} {P : Prop} {V : World → α → Prop} {V' : World → β → Prop}
  {W : World → α → Prop} {W' : World → β → Prop}

/-- Whether work keeps records out, and records nothing but types that obey the rules if `P` holds and the pass ends as the
account says. Of what is returned `V` holds in any case, and `W` at this end. -/
def Derives (A : Account) (context : Context) (P : Prop) (w : World) (x : InferM α) (V W : World → α → Prop) : Prop :=
  ∀ σ a σ', σ.Kept A w → x context σ = (.ok a, σ') → ∃ w', Succeeds w w' ∧ σ'.Kept A w' ∧ V w' a ∧
    (σ'.Before A → σ.Before A ∧ (P → σ.Justified A → σ'.Justified A ∧ W w' a))

abbrev Anything : World → α → Prop := fun _ _ => True

abbrev Nothing : World → α → Prop := fun _ _ => False

abbrev Recordless : World → Ty → Prop := fun w t => t.RecordlessIn w.2

theorem derives_pure {a : α} (hV : V w a) (hW : P → W w a) : Derives A context P w (pure a) V W := by
  intro σ b σ' hσ hrun
  obtain ⟨rfl, rfl⟩ := run_pure_inv hrun
  exact ⟨w, .refl w, hσ, hV, fun hbefore => ⟨hbefore, fun hP hjust => ⟨hjust, hW hP⟩⟩⟩

theorem Derives.bind {x : InferM α} {f : α → InferM β} (hx : Derives A context P w x V W)
    (hf : ∀ a w₁, Succeeds w w₁ → V w₁ a → Derives A context (P ∧ W w₁ a) w₁ (f a) V' W') :
    Derives A context P w (x >>= f) V' W' := by
  intro σ b σ' hσ hrun
  obtain ⟨a, σ₁, hrun₁, hrun₂⟩ := run_bind_inv hrun
  obtain ⟨w₁, hlater, hσ₁, ha, hend⟩ := hx _ _ _ hσ hrun₁
  obtain ⟨w', hlater', hσ', hb, hend'⟩ := hf a w₁ hlater ha _ _ _ hσ₁ hrun₂
  refine ⟨w', hlater.trans hlater', hσ', hb, fun hbefore => ?_⟩
  obtain ⟨hbefore₁, hjust₁⟩ := hend' hbefore
  obtain ⟨hbefore₀, hjust₀⟩ := hend hbefore₁
  refine ⟨hbefore₀, fun hP hjust => ?_⟩
  obtain ⟨hjust, hW⟩ := hjust₀ hP hjust
  exact hjust₁ ⟨hP, hW⟩ hjust

theorem Derives.imp {V' W' : World → α → Prop} {x : InferM α} (hx : Derives A context P w x V W)
    (hV : ∀ w' a, Succeeds w w' → V w' a → V' w' a) (hW : ∀ w' a, P → V w' a → W w' a → W' w' a) :
    Derives A context P w x V' W' := by
  intro σ a σ' hσ hrun
  obtain ⟨w', hlater, hσ', ha, hend⟩ := hx _ _ _ hσ hrun
  refine ⟨w', hlater, hσ', hV w' a hlater ha, fun hbefore => ?_⟩
  obtain ⟨hbefore, hjust⟩ := hend hbefore
  exact ⟨hbefore, fun hP hj => (hjust hP hj).imp_right (hW w' a hP ha)⟩

/-- What holds at the end only may be left out. -/
theorem Derives.forget {x : InferM α} (hx : Derives A context P w x V W) : Derives A context P w x V Anything :=
  hx.imp (fun _ _ _ h => h) fun _ _ _ _ _ => trivial

/-- The end of the account comes after everything. -/
theorem Derives.extends {x : InferM α} (hx : Derives A context P w x V W) :
    Derives A context P w x V (fun w' a => W w' a ∧ w'.1.Extends A.store) := by
  intro σ a σ' hσ hrun
  obtain ⟨w', hlater, hσ', ha, hend⟩ := hx _ _ _ hσ hrun
  refine ⟨w', hlater, hσ', ha, fun hbefore => (hend hbefore).imp_right fun hjust hP hj => ?_⟩
  obtain ⟨hjust', hW⟩ := hjust hP hj
  exact ⟨hjust', hW, hσ'.store ▸ hbefore.extension⟩

/-- A computation may count on the world in which it starts. -/
theorem derives_of_fieldless {x : InferM α} (h : Fieldless w → Derives A context P w x V W) :
    Derives A context P w x V W :=
  fun σ a σ' hσ hrun => h hσ.fieldless σ a σ' hσ hrun

theorem derives_throw {fault : Fault} : Derives A context P w (throw fault) V W := by
  intro σ a σ' _ hrun
  cases hrun

/-- The unknown type holds no record, and says nothing at the end. -/
theorem derives_unknown {W : World → Ty → Prop} (hW : ∀ w', P → W w' .unknown) :
    Derives A context P w (pure .unknown) Recordless W :=
  derives_of_fieldless fun hw => derives_pure (Ty.recordlessIn_unknown hw.plain) (hW w)

theorem derives_forM {f : α → InferM PUnit} {xs : List α}
    (h : ∀ x ∈ xs, ∀ P w', Succeeds w w' → Derives A context P w' (f x) Anything Anything) :
    Derives A context P w (xs.forM f) Anything Anything := by
  induction xs generalizing w P with
  | nil => exact derives_pure trivial fun _ => trivial
  | cons x xs ih =>
    change Derives A context P w (f x >>= fun _ => xs.forM f) Anything Anything
    refine (h x List.mem_cons_self P w (.refl w)).bind fun _ w₁ hlater₁ _ => ?_
    exact ih fun y hy P w' hw' => h y (List.mem_cons_of_mem _ hy) P w' (hlater₁.trans hw')

/-! ### The parts of the state -/

theorem derives_session {x : SessionM α} {R : α → Prop} (h : SessionM.Spares context.engine x R) :
    Derives A context P w (session x) (fun _ a => R a) Anything := by
  intro σ a σ' hσ hrun
  obtain ⟨session', hx, rfl⟩ := run_session_inv hrun
  obtain ⟨hrecordless, ha⟩ := h _ _ _ hσ.session hx
  refine ⟨w, .refl w, ⟨hσ.store, hσ.fieldless, hσ.pass, hσ.log, hrecordless⟩, ha, fun hbefore => ?_⟩
  exact ⟨⟨hbefore.ends, hbefore.log, hbefore.extension⟩, fun _ hjust => ⟨hjust, trivial⟩⟩

theorem derives_getPass : Derives A context P w getPass (fun w pass => pass.Admitted A w.2) Anything := by
  intro σ a σ' hσ hrun
  cases hrun
  exact ⟨w, .refl w, hσ, hσ.pass, fun hbefore => ⟨hbefore, fun _ hjust => ⟨hjust, trivial⟩⟩⟩

theorem derives_engine : Derives A context P w engine (fun _ engine => engine = context.engine) Anything := by
  intro σ a σ' hσ hrun
  cases hrun
  exact ⟨w, .refl w, hσ, rfl, fun hbefore => ⟨hbefore, fun _ hjust => ⟨hjust, trivial⟩⟩⟩

theorem derives_read : Derives A context P w read (fun _ c => c = context) Anything := by
  intro σ a σ' hσ hrun
  cases hrun
  exact ⟨w, .refl w, hσ, rfl, fun hbefore => ⟨hbefore, fun _ hjust => ⟨hjust, trivial⟩⟩⟩

theorem derives_get : Derives A context P w get Anything Anything := by
  intro σ a σ' hσ hrun
  cases hrun
  exact ⟨w, .refl w, hσ, trivial, fun hbefore => ⟨hbefore, fun _ hjust => ⟨hjust, trivial⟩⟩⟩

/-- Changes of a pass that concern neither the store nor what is recorded, and take nothing back. -/
theorem derives_modifyPass {f : Pass → Pass} (hstore : ∀ pass, (f pass).store = pass.store)
    (hnodes : ∀ pass, (f pass).nodeTypes = pass.nodeTypes) (hgrows : ∀ pass : Pass, pass.Grows (f pass))
    (hadmitted : ∀ pass : Pass, pass.Admitted A w.2 → (f pass).Admitted A w.2) :
    Derives A context P w (modifyPass f) Anything (fun _ _ => ∃ pass, (f pass).Ends True) := by
  intro σ a σ' hσ hrun
  cases hrun
  refine ⟨w, .refl w, ⟨(hstore _).trans hσ.store, hσ.fieldless, hadmitted _ hσ.pass, ?_, hσ.session⟩, trivial,
    fun hbefore => ⟨hbefore.of_grows (hgrows _) ?_ ?_, fun _ hjust => ⟨?_, _, hbefore.ends⟩⟩⟩
  · change ∀ entry ∈ (f σ.pass).nodeTypes, _
    rw [hnodes]
    exact hσ.log
  · exact (hnodes σ.pass).symm ▸ List.Subset.refl _
  · exact (hstore σ.pass).symm ▸ .refl _
  · change ∀ entry ∈ (f σ.pass).nodeTypes, _
    rw [hnodes]
    exact hjust

/-- Changes of a pass that do not concern what is in scope either. -/
theorem derives_modifyRest {f : Pass → Pass} (hstore : ∀ pass, (f pass).store = pass.store)
    (hnodes : ∀ pass, (f pass).nodeTypes = pass.nodeTypes) (hgrows : ∀ pass : Pass, pass.Grows (f pass))
    (hscopes : ∀ pass, (f pass).scopes = pass.scopes) (htypeVars : ∀ pass, (f pass).typeVars = pass.typeVars) :
    Derives A context P w (modifyPass f) Anything (fun _ _ => ∃ pass, (f pass).Ends True) :=
  derives_modifyPass hstore hnodes hgrows fun pass hpass =>
    ⟨(hscopes pass).symm ▸ hpass.bindings, (htypeVars pass).symm ▸ hpass.typeVars⟩

/-- A pass that reports something does not end in silence. -/
theorem derives_report (pos : Nat) (kind : ProblemKind) : Derives A context P w (report pos kind) Anything Nothing := by
  have hgrows : ∀ pass : Pass, pass.Grows { pass with problems := pass.problems ++ [⟨pos, kind⟩] } :=
    fun _ => ⟨List.prefix_append _ _, id, List.Subset.refl _⟩
  refine Derives.imp (derives_modifyRest (fun _ => rfl) (fun _ => rfl) hgrows (fun _ => rfl) fun _ => rfl)
    (fun _ _ _ h => h) ?_
  rintro w' a - - ⟨pass, hends⟩
  exact absurd (hends.silent trivial) (by simp)

/-- A pass that has been called off does not end well. -/
theorem derives_cancel :
    Derives A context P w (modifyPass fun pass => { pass with cancelled := true }) Anything Nothing := by
  have hgrows : ∀ pass : Pass, pass.Grows { pass with cancelled := true } :=
    fun _ => ⟨List.prefix_rfl, fun _ => rfl, List.Subset.refl _⟩
  refine Derives.imp (derives_modifyRest (fun _ => rfl) (fun _ => rfl) hgrows (fun _ => rfl) fun _ => rfl)
    (fun _ _ _ h => h) ?_
  rintro w' a - - ⟨pass, hends⟩
  cases hends.finished

/-- A problem in place of a type. -/
theorem derives_problem (pos : Nat) (kind : ProblemKind) {W : World → Ty → Prop} :
    Derives A context P w (do report pos kind; return .unknown : InferM Ty) Recordless W :=
  (derives_report pos kind).bind fun _ _ _ _ => derives_unknown fun _ h => h.2.elim

theorem derives_isCancelled : Derives A context P w isCancelled Anything (fun _ cancelled => cancelled = false) := by
  intro σ a σ' hσ hrun
  obtain ⟨pass, σ₁, hpass, hrun⟩ := run_bind_inv hrun
  cases hpass
  cases hcancelled : σ.pass.cancelled with
  | true =>
    rw [hcancelled] at hrun
    cases hrun
    refine ⟨w, .refl w, hσ, trivial, fun hbefore => ?_⟩
    rw [hbefore.ends.finished] at hcancelled
    cases hcancelled
  | false =>
    rw [hcancelled] at hrun
    have hread : Derives A context P w (do
        if ← session SessionM.isCancelled then
          modifyPass (fun pass => { pass with cancelled := true })
          return true
        return false : InferM Bool) Anything (fun _ cancelled => cancelled = false) := by
      refine (derives_session SessionM.spares_isCancelled).bind fun seen w₁ _ _ => ?_
      cases seen with
      | true => exact derives_cancel.bind fun _ _ _ _ => derives_pure trivial fun h => h.2.elim
      | false => exact derives_pure trivial fun _ => rfl
    exact hread _ _ _ hσ hrun

/-- A node is recorded with a type that obeys the rules for this node. -/
theorem derives_record {id : NodeId} {t : Ty} (ht : t.RecordlessIn w.2) {n : Fragment} (hn : n ∈ A.nodes)
    (hid : n.id = id) (hobeys : P → (id, t) ∈ A.log → n.Obeys A.typing) :
    Derives A context P w (record id t) Anything (fun _ _ => (id, t) ∈ A.log) := by
  intro σ a σ' hσ hrun
  cases hrun
  refine ⟨w, .refl w, ⟨hσ.store, hσ.fieldless, ⟨hσ.pass.bindings, hσ.pass.typeVars⟩,
    List.forall_mem_cons.mpr ⟨ht, hσ.log⟩, hσ.session⟩, trivial, fun hbefore => ?_⟩
  have hlog : (id, t) ∈ A.log := hbefore.log List.mem_cons_self
  refine ⟨⟨⟨hbefore.ends.finished, hbefore.ends.silent⟩, (List.cons_subset.mp hbefore.log).2, hbefore.extension⟩,
    fun hP hjust => ⟨List.forall_mem_cons.mpr ⟨⟨n, hn, hid, hobeys hP hlog⟩, hjust⟩, hlog⟩⟩

/-! ### Scopes -/

/-- Changes of what is in scope. -/
theorem derives_rescope {f : Pass → Pass} (hstore : ∀ pass, (f pass).store = pass.store)
    (hnodes : ∀ pass, (f pass).nodeTypes = pass.nodeTypes) (hgrows : ∀ pass : Pass, pass.Grows (f pass))
    (hadmitted : ∀ pass : Pass, pass.Admitted A w.2 → (f pass).Admitted A w.2) :
    Derives A context P w (modifyPass f) Anything Anything :=
  (derives_modifyPass hstore hnodes hgrows hadmitted).forget

theorem derives_pushScope {scope : Scope} (h : ∀ entry ∈ scope, entry.2.Admitted A w.2) :
    Derives A context P w (pushScope scope) Anything Anything :=
  derives_rescope (fun _ => rfl) (fun _ => rfl) (fun _ => ⟨List.prefix_rfl, id, List.Subset.refl _⟩)
    fun _ hpass => ⟨List.forall_mem_cons.mpr ⟨h, hpass.bindings⟩, hpass.typeVars⟩

theorem derives_popScope : Derives A context P w popScope Anything Anything :=
  derives_rescope (fun _ => rfl) (fun _ => rfl) (fun _ => ⟨List.prefix_rfl, id, List.Subset.refl _⟩)
    fun _ hpass => ⟨fun scope hscope => hpass.bindings scope (List.mem_of_mem_tail hscope), hpass.typeVars⟩

theorem derives_modifyScope {f : Scope → Scope}
    (h : ∀ scope : Scope, (∀ entry ∈ scope, entry.2.Admitted A w.2) → ∀ entry ∈ f scope, entry.2.Admitted A w.2) :
    Derives A context P w (modifyScope f) Anything Anything := by
  refine derives_rescope (fun pass => ?_) (fun pass => ?_) (fun pass => ?_) fun pass hpass => ?_
  · split <;> rfl
  · split <;> rfl
  · split
    · exact .refl pass
    · exact ⟨List.prefix_rfl, id, List.Subset.refl _⟩
  · split
    · exact hpass
    · next scope outer heq =>
      have hscopes := hpass.bindings
      rw [heq] at hscopes
      obtain ⟨hscope, houter⟩ := List.forall_mem_cons.mp hscopes
      exact ⟨List.forall_mem_cons.mpr ⟨h scope hscope, houter⟩, hpass.typeVars⟩

theorem derives_bindName (name : Name) {binding : Binding} (h : binding.Admitted A w.2) :
    Derives A context P w (InferM.bind name binding) Anything Anything := by
  refine derives_modifyScope fun scope hscope entry hentry => ?_
  rcases Assoc.mem_set hentry with hentry | rfl
  · exact hscope entry hentry
  · exact h

theorem derives_unbind (name : Name) : Derives A context P w (unbind name) Anything Anything :=
  derives_modifyScope fun _ hscope entry hentry => hscope entry (List.mem_of_mem_filter hentry)

theorem derives_lookup (name : Name) : Derives A context P w (lookup name)
    (fun w found => ∀ inner binding, found = some (inner, binding) → binding.Admitted A w.2) Anything := by
  refine derives_getPass.bind fun pass w₁ _ hpass => derives_pure (fun inner binding hfound => ?_) fun _ => trivial
  obtain ⟨scope, hscope, hmem⟩ := exists_of_lookupIn hfound
  exact hpass.bindings scope hscope _ hmem

theorem derives_hidesDeclaration (name : Name) : Derives A context P w (hidesDeclaration name) Anything Anything :=
  (derives_session (SessionM.spares_findValues _)).bind fun _ _ _ _ =>
    derives_read.bind fun _ _ _ _ => derives_pure trivial fun _ => trivial

theorem derives_shadows (name : Name) : Derives A context P w (shadows name) Anything Anything := by
  refine derives_getPass.bind fun pass w₁ _ _ => ?_
  split
  · exact derives_pure trivial fun _ => trivial
  · exact derives_hidesDeclaration name

theorem derives_declare (names : List Name) (name : NameAt) :
    Derives A context P w (declare names name) Anything Anything := by
  refine derives_engine.bind fun engine w₁ _ _ => ?_
  have hrest : ∀ hidden P w, Derives A context P w (do
      if names.contains name.name || hidden then report name.pos .conflictingName
      return name.name :: names : InferM (List Name)) Anything Anything := by
    intro hidden P w
    split
    · exact (derives_report _ _).bind fun _ _ _ _ => derives_pure trivial fun _ => trivial
    · exact derives_pure trivial fun _ => trivial
  split
  · exact hrest _ _ _
  · exact (derives_shadows _).bind fun hidden w₂ _ _ => hrest hidden _ w₂

abbrev BoundRecordless : World → Bound → Prop := fun w bound => ∀ entry ∈ bound, entry.2.RecordlessIn w.2

theorem derives_bindAll (names : List Name) {bound : Bound} (h : BoundRecordless w bound) :
    Derives A context P w (bindAll names bound) Anything Anything := by
  induction bound generalizing names w P with
  | nil => exact derives_pure trivial fun _ => trivial
  | cons entry rest ih =>
    obtain ⟨name, t⟩ := entry
    obtain ⟨ht, hrest⟩ := List.forall_mem_cons.mp h
    refine (derives_declare names name).bind fun names w₁ hlater₁ _ => ?_
    have hbinding : (Binding.mono t).Admitted A w₁.2 := Ty.RecordlessIn.mono ht hlater₁.subset
    refine (derives_bindName _ hbinding).bind fun _ w₂ hlater₂ _ => ?_
    exact ih names fun entry hentry => (hrest entry hentry).mono (hlater₁.trans hlater₂).subset

/-! ### The store -/

theorem Work.Kept.withStore (hσ : σ.Kept A w) (hw' : Fieldless w') (hlater : Succeeds w w') :
    (σ.withStore w'.1).Kept A w' :=
  ⟨rfl, hw', ⟨(hσ.pass.mono hlater.subset).bindings, (hσ.pass.mono hlater.subset).typeVars⟩,
    fun entry hentry => (hσ.log entry hentry).mono hlater.subset, hσ.session⟩

/-- Work on the store that leads to another world without records. -/
theorem derives_withStore {x : InferM α} (h : ∀ σ a σ', σ.Kept A w → x context σ = (.ok a, σ') →
    ∃ w', σ' = σ.withStore w'.1 ∧ Fieldless w' ∧ Succeeds w w' ∧ V w' a) :
    Derives A context P w x V Anything := by
  intro σ a σ' hσ hrun
  obtain ⟨w', rfl, hw', hlater, ha⟩ := h σ a σ' hσ hrun
  refine ⟨w', hlater, Work.Kept.withStore hσ hw' hlater, ha, fun hbefore => ⟨⟨⟨hbefore.ends.finished, hbefore.ends.silent⟩,
    hbefore.log, ?_⟩, fun _ hjust => ⟨hjust, trivial⟩⟩⟩
  rw [hσ.store]
  exact hlater.extension.trans hbefore.extension

theorem derives_readStore {f : Store → Except Fault α} (h : Fieldless w → ∀ a, f w.1 = .ok a → V w a) :
    Derives A context P w (store (StoreM.read f)) V Anything := by
  intro σ a σ' hσ hrun
  obtain ⟨hf, rfl⟩ := run_read_inv hrun
  rw [hσ.store] at hf
  exact ⟨w, .refl w, hσ, h hσ.fieldless a hf, fun hbefore => ⟨hbefore, fun _ hjust => ⟨hjust, trivial⟩⟩⟩

theorem derives_zonk (t : Ty) : Derives A context P w (zonk t) Anything Anything :=
  derives_readStore fun _ _ _ => trivial

theorem derives_allocate {work : Store → α × Store}
    (h : Fieldless w → ∃ Q', Mints w ((work w.1).2, Q') ∧ V ((work w.1).2, Q') (work w.1).1) :
    Derives A context P w (allocate work) V Anything := by
  refine derives_withStore fun σ a σ' hσ hrun => ?_
  rw [run_allocate, hσ.store] at hrun
  cases hrun
  obtain ⟨Q', hmints, ha⟩ := h hσ.fieldless
  obtain ⟨hw', hlater⟩ := hσ.fieldless.mints hmints
  exact ⟨((work w.1).2, Q'), rfl, hw', hlater, ha⟩

def IsFresh (name : Name) (w w' : World) (t : Ty) : Prop :=
  ∃ v : TyVar, t = .var v ∧ v.name = name ∧ .var v ∈ w'.2 ∧ w'.1.Unsolved v.id ∧ Mints w w'

theorem IsFresh.recordless {name : Name} {t : Ty} (h : IsFresh name w w' t) : t.RecordlessIn w'.2 := by
  obtain ⟨v, rfl, -, hv, -⟩ := h
  exact Ty.recordlessIn_var hv

theorem derives_freshVar (name : Name) : Derives A context P w (freshVar name) (IsFresh name w) Anything := by
  refine derives_withStore fun σ a σ' hσ hrun => ?_
  rw [run_freshVar, hσ.store] at hrun
  cases hrun
  have hmints := mints_fresh w.1 w.2 name false
  obtain ⟨hw', hlater⟩ := hσ.fieldless.mints hmints
  exact ⟨_, rfl, hw', hlater, _, rfl, rfl, Set.mem_insert _ _, unsolved_extended_self _, hmints⟩

/-- As many new variables as a list is long. -/
theorem derives_freshVars (name : Name) (xs : List α) : Derives A context P w (freshVars name xs)
    (fun w' ts => ts.length = xs.length ∧ (∀ t ∈ ts, t.RecordlessIn w'.2) ∧ Mints w w') Anything := by
  induction xs generalizing w P with
  | nil => exact derives_pure ⟨rfl, fun _ ht => absurd ht List.not_mem_nil, .refl⟩ fun _ => trivial
  | cons x xs ih =>
    unfold freshVars
    rw [List.mapM_cons]
    refine (derives_freshVar name).bind fun t w₁ _ ht => ?_
    refine ih.bind fun ts w₂ hlater₂ hts => derives_pure ?_ fun _ => trivial
    obtain ⟨hlength, hts, hmints⟩ := hts
    have ht' := ht.recordless.mono hlater₂.subset
    obtain ⟨_, -, -, -, -, hmints₁⟩ := ht
    exact ⟨congrArg Nat.succ hlength, List.forall_mem_cons.mpr ⟨ht', hts⟩, hmints₁.trans hmints⟩

theorem derives_instantiate {scheme : Scheme} (h : scheme.RecordlessIn w.2) :
    Derives A context P w (instantiate scheme) Recordless Anything := by
  refine derives_allocate fun _ => ?_
  obtain ⟨Q', hmints, hwithin⟩ := h.within.instantiate w.1
  exact ⟨Q', hmints, hwithin, Scheme.recordless_instantiate h.recordless w.1⟩

theorem derives_external {t : Ty} (h : t.Recordless) :
    Derives A context P w (instantiate (Scheme.closed t)) Recordless Anything :=
  derives_of_fieldless fun hw => derives_instantiate (Scheme.recordlessIn_closed h hw.plain)

theorem derives_generalize {t : Ty} (ht : t.RecordlessIn w.2) :
    Derives A context P w (generalize t) (fun w scheme => scheme.RecordlessIn w.2) Anything := by
  refine derives_of_fieldless fun hw => ?_
  intro σ scheme σ' hσ hrun
  obtain ⟨rfl, environment, -, hscheme⟩ := run_generalize_inv hrun
  refine ⟨w, .refl w, hσ, ?_, fun hbefore => ⟨hbefore, fun _ hjust => ⟨hjust, trivial⟩⟩⟩
  obtain ⟨z, hz, hscheme⟩ := exists_of_bind_ok hscheme
  cases hscheme
  split
  · exact ht.scheme []
  · rw [hσ.store] at hz
    exact (hw.zonk ht hz).scheme _

/-! ### Type expressions -/

theorem derives_convert (hscope : context.engine.scope.Recordfree) (rigid : Bool) {vars : Assoc Name Ty} {t : TypeExpr}
    (ht : t.isRecordfree = true) (hvars : VarsWithin vars w.2) : Derives A context P w (convert rigid vars t)
      (fun w out => out.1.RecordlessIn w.2 ∧ VarsWithin out.2.1 w.2) Anything := by
  intro σ out σ' hσ hrun
  obtain ⟨u, c, hconvert, rfl, hpass, hcache⟩ := run_convert_inv hrun
  have hwithin : (conversion σ vars).Within w.2 :=
    ⟨hσ.fieldless.plain, hvars, fun entry hentry => (hσ.session.declared entry hentry).frozen⟩
  have hrecordless : (conversion σ vars).Recordless := by
    refine ⟨fun entry hentry => ?_, hσ.session.declared⟩
    obtain ⟨v, hv, -⟩ := hvars entry hentry
    exact hv ▸ Ty.recordless_var v
  obtain ⟨Q', hmints, hc, hu⟩ := Conversion.yields_convert context.engine.scope rigid t hwithin
  obtain ⟨hc', hu'⟩ := Conversion.avoids_convert hscope rigid ht _ hrecordless
  rw [hconvert] at hmints hc hu hc' hu'
  rw [conversion, hσ.store] at hmints
  obtain ⟨hw', hlater⟩ := hσ.fieldless.mints hmints
  have hadmitted := hσ.pass.mono hlater.subset
  refine ⟨(c.store, Q'), hlater, ⟨?_, hw', ?_, ?_, ?_⟩, ⟨⟨hu, hu'⟩, hc.vars⟩, fun hbefore => ?_⟩
  · rw [hpass]
  · rw [hpass]
    exact ⟨hadmitted.bindings, hadmitted.typeVars⟩
  · rw [hpass]
    exact fun entry hentry => (hσ.log entry hentry).mono hlater.subset
  · refine ⟨?_, ?_⟩
    · rw [hcache]
      exact hσ.session.results
    · rw [hcache]
      exact hc'.table
  · obtain ⟨⟨hfinished, hsilent⟩, hlog, hext⟩ := hbefore
    unfold Work.Justified
    rw [hpass] at hfinished hsilent hlog hext ⊢
    refine ⟨⟨⟨hfinished, hsilent⟩, hlog, ?_⟩, fun _ hjust => ⟨hjust, trivial⟩⟩
    rw [hσ.store]
    exact hlater.extension.trans hext

theorem derives_convertSignature (hscope : context.engine.scope.Recordfree) {vars : Assoc Name Ty} {t : TypeExpr}
    (ht : t.isRecordfree = true) (hvars : VarsWithin vars w.2) : Derives A context P w (convertSignature vars t)
      (fun w out => out.1.RecordlessIn w.2 ∧ VarsWithin out.2 w.2) Anything := by
  refine (derives_convert hscope true ht hvars).bind fun out w₁ _ hout => ?_
  refine Derives.bind (V := Anything) (derives_modifyRest (fun _ => rfl) (fun _ => rfl)
    (fun _ => ⟨List.prefix_append _ _, id, List.Subset.refl _⟩) (fun _ => rfl) fun _ => rfl) fun _ w₂ hlater₂ _ => ?_
  exact derives_pure ⟨hout.1.mono hlater₂.subset, hout.2.mono hlater₂.subset⟩ fun _ => trivial

theorem derives_convertForeign (hscope : context.engine.scope.Recordfree) {t : TypeExpr} (ht : t.isRecordfree = true) :
    Derives A context P w (convertForeign t) Recordless Anything :=
  (derives_convert hscope false ht fun _ h => absurd h List.not_mem_nil).bind fun _ _ _ hout =>
    derives_pure hout.1 fun _ => trivial

/-! ### Checks -/

theorem derives_unify {t u : Ty} (ht : t.RecordlessIn w.2) (hu : u.RecordlessIn w.2) :
    Derives A context P w (store (StoreM.unify t u)) (fun w' o => StoreM.unify t u w.1 = .ok (o, w'.1) ∧ o.Flat)
      Anything := by
  refine derives_withStore fun σ o σ' hσ hrun => ?_
  obtain ⟨s', hunify, rfl⟩ := run_store_inv hrun
  rw [hσ.store] at hunify
  have hw := hσ.fieldless
  obtain ⟨Q', hw', hlater⟩ := hw.unify ht hu hunify
  obtain ⟨_, _, hunify', -, -, -, hflat⟩ := exists_unify_of_recordless Ty.bare_recordless hw.tidy.sane hw.recordless
    (hw.tidy.owns ht.within) (hw.tidy.owns hu.within) ht.recordless hu.recordless
  cases hunify.symm.trans hunify'
  exact ⟨(s', Q'), rfl, hw', hlater, hunify, hflat⟩

theorem derives_reported (pos : Nat) (kind : ProblemKind) :
    Derives A context P w (do report pos kind; return false : InferM Bool) Anything Nothing :=
  (derives_report pos kind).bind fun _ _ _ _ => derives_pure trivial fun h => h.2.elim

section Proper

variable (hA : A.Proper)

include hA

/-- What follows after unification says whether it succeeded; a failure is reported. Without records no two fail to fit. -/
theorem Derives.checked {t u : Ty} (ht : t.RecordlessIn w.2) (hu : u.RecordlessIn w.2) {f : Outcome → InferM Bool}
    (hok : f (.ok ()) = pure true)
    (hinfinite : ∀ P w', Derives A context P w' (f (.error .infiniteType)) Anything Nothing)
    (hmismatch : ∀ P w', Derives A context P w' (f .mismatch) Anything Nothing) :
    Derives A context P w (store (StoreM.unify t u) >>= f) Anything
      (fun w' fits => fits = true ∧ A.Unifies t u w w') := by
  refine derives_of_fieldless fun hw => (derives_unify ht hu).extends.bind fun o w₁ _ hunify => ?_
  obtain ⟨hrun, hflat⟩ := hunify
  have hfailed : ∀ {P : Prop} {x : InferM Bool} {W : World → Bool → Prop}, Derives A context P w₁ x Anything Nothing →
      Derives A context P w₁ x Anything W := fun h => h.imp (fun _ _ _ h => h) fun _ _ _ _ h => h.elim
  rcases o with e | ⟨⟩
  · cases e with
    | infiniteType => exact hfailed (hinfinite _ w₁)
    | mismatch => exact hfailed (hmismatch _ w₁)
    | record diff => exact absurd rfl (hflat diff)
  · rw [hok]
    refine derives_pure trivial fun h => ⟨rfl, hrun, h.2.2, fun hkt hku => ?_⟩
    exact hw.read_eq_of_unify ht hu hrun h.2.2 hA.recordless hA.models hkt hku

theorem derives_check (pos : Nat) {t u : Ty} (ht : t.RecordlessIn w.2) (hu : u.RecordlessIn w.2) :
    Derives A context P w (check pos t u) Anything (fun w' fits => fits = true ∧ A.Unifies t u w w') :=
  Derives.checked hA ht hu rfl (fun _ _ => derives_reported _ _) fun _ _ =>
    (derives_zonk _).bind fun _ _ _ _ => (derives_zonk _).bind fun _ _ _ _ => derives_reported _ _

theorem derives_checkPattern (pos : Nat) {t u : Ty} (ht : t.RecordlessIn w.2) (hu : u.RecordlessIn w.2) :
    Derives A context P w (checkPattern pos t u) Anything (fun w' fits => fits = true ∧ A.Unifies t u w w') :=
  Derives.checked hA ht hu rfl (fun _ _ => derives_reported _ _) fun _ _ =>
    (derives_zonk _).bind fun _ _ _ _ => (derives_zonk _).bind fun _ _ _ _ => derives_reported _ _

end Proper

end InferM

end ElmInference
