import ElmInference.Proofs.Infer.Conversions
import ElmInference.Proofs.Infer.FieldAccess
import ElmInference.Proofs.Infer.Sessions
import ElmInference.Proofs.Store.Advances
import ElmInference.Proofs.Unify.Safety

/-!
# The state that inference keeps in order

The state of a pass is orderly when its store is, every binding in scope and every type variable of the
signatures around is at hand, and nothing that the session keeps contains a growing record. A computation
behaves when it takes orderly states to orderly states, advancing the store, and what it returns is at hand
then. This module shows that everything inference is made of behaves.
-/

namespace ElmInference

open Store

/-! ### Orderly states -/

structure InferenceResult.Frozen (r : InferenceResult) : Prop where
  ty : r.ty.Frozen
  nodeTypes : ∀ entry ∈ r.nodeTypes, entry.2.Frozen

structure Session.Frozen (session : Session) : Prop where
  results : ∀ key r, (key, Entry.computed r) ∈ session.cache.entries → r.Frozen
  declared : ∀ entry ∈ session.cache.declared, entry.2.Frozen

structure ModuleScope.Frozen (scope : ModuleScope) : Prop where
  values : ∀ v ∈ scope.values, v.type.Frozen
  operators : ∀ o ∈ scope.operators, o.type.Frozen

theorem Session.frozen_empty : Session.Frozen {} :=
  ⟨fun _ _ h => absurd h List.not_mem_nil, fun _ h => absurd h List.not_mem_nil⟩

theorem Session.frozen_iff {session : Session} :
    session.Frozen ↔ session.cache.Keeps InferenceResult.Frozen DeclaredType.Frozen :=
  ⟨fun h => ⟨h.results, h.declared⟩, fun h => ⟨h.results, h.declared⟩⟩

def Binding.Within (binding : Binding) (Q : Set Mention) : Prop :=
  match binding with
  | .mono t => t.Within Q
  | .poly scheme => scheme.Within Q
  | .pending _ _ _ => True
  | .checking scheme _ _ => scheme.Within Q
  | .active t _ _ => t.Within Q

instance (Q : Set Mention) [DecidablePred (· ∈ Q)] : (binding : Binding) → Decidable (binding.Within Q)
  | .mono t => inferInstanceAs (Decidable (∀ r ∈ t.mentions false, r ∈ Q))
  | .poly scheme => inferInstanceAs (Decidable (scheme.Within Q))
  | .pending _ _ _ => .isTrue trivial
  | .checking scheme _ _ => inferInstanceAs (Decidable (scheme.Within Q))
  | .active t _ _ => inferInstanceAs (Decidable (∀ r ∈ t.mentions false, r ∈ Q))

def VarsWithin (vars : Assoc Name Ty) (Q : Set Mention) : Prop :=
  ∀ entry ∈ vars, ∃ v, entry.2 = .var v ∧ .var v ∈ Q

structure Pass.Within (pass : Pass) (Q : Set Mention) : Prop where
  bindings : ∀ scope ∈ pass.scopes, ∀ entry ∈ scope, entry.2.Within Q
  typeVars : VarsWithin pass.typeVars Q

/-- A state whose types are at hand in an orderly store. -/
structure Work.Orderly (w : Work) (Q : Set Mention) : Prop where
  store : Store.Orderly (w.pass.store, Q)
  pass : w.pass.Within Q
  session : w.session.Frozen

variable {Q Q' : Set Mention}

theorem Binding.Within.mono {binding : Binding} (h : binding.Within Q) (hQ : Q ⊆ Q') : binding.Within Q' := by
  cases binding with
  | mono t => exact Ty.Within.mono h hQ
  | poly scheme => exact Scheme.Within.mono h hQ
  | pending slot definition depth => trivial
  | checking scheme hasParams depth => exact Scheme.Within.mono h hQ
  | active t hasParams depth => exact Ty.Within.mono h hQ

theorem VarsWithin.mono {vars : Assoc Name Ty} (h : VarsWithin vars Q) (hQ : Q ⊆ Q') : VarsWithin vars Q' := by
  intro entry hentry
  obtain ⟨v, hv, hvQ⟩ := h entry hentry
  exact ⟨v, hv, hQ hvQ⟩

theorem Pass.Within.mono {pass : Pass} (h : pass.Within Q) (hQ : Q ⊆ Q') : pass.Within Q' :=
  ⟨fun scope hscope entry hentry => (h.bindings scope hscope entry hentry).mono hQ, h.typeVars.mono hQ⟩

theorem Ty.within_unknown (hplain : ∀ r, r.node? = none → r ∈ Q) : Ty.unknown.Within Q := by
  intro r hr
  rw [List.mem_singleton.mp hr]
  exact hplain _ rfl

/-- The function that reads a field takes records with this field at least. -/
theorem Ty.within_accessor (hplain : ∀ r, r.node? = none → r ∈ Q) (field : Name) {base t : Ty} (hbase : base.Within Q)
    (ht : t.Within Q) : (Ty.function [Ty.extension base [(field, t)]] t).Within Q := by
  refine Ty.within_function (fun u hu => ?_) ht
  rw [List.mem_singleton.mp hu]
  refine Ty.within_recordWith (fun entry hentry => ?_) fun b hb => ?_
  · rw [List.mem_singleton.mp hentry]
    exact ⟨hplain _ rfl, ht⟩
  · cases hb
    exact hbase

/-! ### Sessions -/

namespace SessionM

variable {α β : Type} {engine : Engine}

def Behaves (engine : Engine) (x : SessionM α) (P : α → Prop) : Prop :=
  ∀ session a session', session.Frozen → x engine session = (.ok a, session') → session'.Frozen ∧ P a

theorem behaves_isCancelled : Behaves engine isCancelled (fun _ => True) := by
  intro session a session' hsession hrun
  obtain ⟨flag, rfl⟩ := run_isCancelled_inv hrun
  exact ⟨⟨hsession.results, hsession.declared⟩, trivial⟩

theorem behaves_trip (name : Ref) : Behaves engine (trip name) (fun _ => True) := by
  intro session a session' hsession hrun
  obtain ⟨flag, rfl⟩ := run_trip_inv hrun
  exact ⟨⟨hsession.results, hsession.declared⟩, trivial⟩

theorem behaves_findValues (name : Ref) :
    Behaves engine (findValues name) (fun targets => targets = engine.scope.findValues name) := by
  intro session a session' hsession hrun
  obtain ⟨rfl, flag, rfl⟩ := run_findValues_inv hrun
  exact ⟨⟨hsession.results, hsession.declared⟩, rfl⟩

/-- Work on the declared types that keeps growing records out of them. -/
theorem behaves_withTypes {work : StateM TypeTable α} {P : α → Prop}
    (h : ∀ table : TypeTable, table.Frozen → (work table).2.Frozen ∧ P (work table).1) :
    Behaves engine (withTypes work) P := by
  intro session a session' hsession hrun
  obtain ⟨htable, hP⟩ := h session.types hsession.declared
  rw [run_withTypes] at hrun
  cases hrun
  exact ⟨⟨hsession.results, htable⟩, hP⟩

end SessionM

/-! ### Passes -/

namespace InferM

variable {α β : Type} {context : Context}

/-- How a run may go on: it advances the store, the state is orderly again, and what it returns is at hand. -/
def Behaves (context : Context) (Q : Set Mention) (x : InferM α) (V : Set Mention → α → Prop) : Prop :=
  ∀ w a w', w.Orderly Q → x context w = (.ok a, w') →
    ∃ Q', Advances (w.pass.store, Q) (w'.pass.store, Q') ∧ w'.Orderly Q' ∧ V Q' a

abbrev Any : Set Mention → α → Prop := fun _ _ => True

abbrev AtHand : Set Mention → Ty → Prop := fun Q t => t.Within Q

abbrev AllAtHand : Set Mention → List Ty → Prop := fun Q ts => ∀ t ∈ ts, t.Within Q

theorem behaves_pure {a : α} {V : Set Mention → α → Prop} (h : V Q a) : Behaves context Q (pure a) V := by
  intro w b w' hw hrun
  obtain ⟨rfl, rfl⟩ := run_pure_inv hrun
  exact ⟨Q, .refl, hw, h⟩

theorem Behaves.bind {x : InferM α} {f : α → InferM β} {V : Set Mention → α → Prop} {V' : Set Mention → β → Prop}
    (hx : Behaves context Q x V) (hf : ∀ a Q', Q ⊆ Q' → V Q' a → Behaves context Q' (f a) V') :
    Behaves context Q (x >>= f) V' := by
  intro w b w' hw hrun
  obtain ⟨a, w₁, hrun₁, hrun₂⟩ := run_bind_inv hrun
  obtain ⟨Q₁, hadvances, hw₁, ha⟩ := hx _ _ _ hw hrun₁
  obtain ⟨Q₂, hadvances', hw₂, hb⟩ := hf a Q₁ hadvances.subset ha _ _ _ hw₁ hrun₂
  exact ⟨Q₂, hadvances.trans hadvances', hw₂, hb⟩

theorem Behaves.imp {x : InferM α} {V V' : Set Mention → α → Prop} (hx : Behaves context Q x V)
    (h : ∀ Q a, V Q a → V' Q a) : Behaves context Q x V' := by
  intro w a w' hw hrun
  obtain ⟨Q', hadvances, hw', ha⟩ := hx _ _ _ hw hrun
  exact ⟨Q', hadvances, hw', h Q' a ha⟩

/-- A computation may count on every mention that is no node. -/
theorem behaves_of_plain {x : InferM α} {V : Set Mention → α → Prop}
    (h : (∀ r, r.node? = none → r ∈ Q) → Behaves context Q x V) : Behaves context Q x V :=
  fun w a w' hw hrun => h hw.store.plain w a w' hw hrun

theorem behaves_throw {fault : Fault} {V : Set Mention → α → Prop} : Behaves context Q (throw fault) V := by
  intro w a w' _ hrun
  cases hrun

/-- The unknown type is at hand everywhere. -/
theorem behaves_unknown : Behaves context Q (pure .unknown) AtHand :=
  behaves_of_plain fun hplain => behaves_pure (Ty.within_unknown hplain)

/-- A list is worked off entry by entry. -/
theorem behaves_mapM {f : α → InferM β} {V : Set Mention → β → Prop}
    (hmono : ∀ Q Q' b, Q ⊆ Q' → V Q b → V Q' b) {xs : List α}
    (h : ∀ x ∈ xs, ∀ Q', Q ⊆ Q' → Behaves context Q' (f x) V) :
    Behaves context Q (xs.mapM f) (fun Q bs => ∀ b ∈ bs, V Q b) := by
  induction xs generalizing Q with
  | nil => exact behaves_pure (by simp)
  | cons x xs ih =>
    rw [List.mapM_cons]
    refine (h x List.mem_cons_self Q subset_rfl).bind fun b Q₁ hsub hb => ?_
    refine (ih fun y hy Q' hQ' => h y (List.mem_cons_of_mem _ hy) Q' (hsub.trans hQ')).bind
      fun bs Q₂ hsub' hbs => behaves_pure ?_
    exact List.forall_mem_cons.mpr ⟨hmono _ _ _ hsub' hb, hbs⟩

theorem behaves_forM {f : α → InferM PUnit} {xs : List α}
    (h : ∀ x ∈ xs, ∀ Q', Q ⊆ Q' → Behaves context Q' (f x) Any) : Behaves context Q (xs.forM f) Any := by
  induction xs generalizing Q with
  | nil => exact behaves_pure trivial
  | cons x xs ih =>
    change Behaves context Q (f x >>= fun _ => xs.forM f) Any
    refine (h x List.mem_cons_self Q subset_rfl).bind fun _ Q₁ hsub _ => ?_
    exact ih fun y hy Q' hQ' => h y (List.mem_cons_of_mem _ hy) Q' (hsub.trans hQ')

/-! ### The parts of the state -/

theorem behaves_session {x : SessionM α} {P : α → Prop} (h : SessionM.Behaves context.engine x P) :
    Behaves context Q (session x) (fun _ a => P a) := by
  intro w a w' hw hrun
  obtain ⟨session', hx, rfl⟩ := run_session_inv hrun
  obtain ⟨hfrozen, hP⟩ := h _ _ _ hw.session hx
  exact ⟨Q, .refl, ⟨hw.store, hw.pass, hfrozen⟩, hP⟩

theorem behaves_getPass : Behaves context Q getPass (fun Q pass => pass.Within Q) := by
  intro w a w' hw hrun
  cases hrun
  exact ⟨Q, .refl, hw, hw.pass⟩

theorem behaves_engine : Behaves context Q engine (fun _ engine => engine = context.engine) := by
  intro w a w' hw hrun
  cases hrun
  exact ⟨Q, .refl, hw, rfl⟩

theorem behaves_read : Behaves context Q read (fun _ c => c = context) := by
  intro w a w' hw hrun
  cases hrun
  exact ⟨Q, .refl, hw, rfl⟩

theorem behaves_get : Behaves context Q get Any := by
  intro w a w' hw hrun
  cases hrun
  exact ⟨Q, .refl, hw, trivial⟩

/-- Changes of a pass that leave the store alone and bring nothing into scope that is not at hand. -/
theorem behaves_modifyPass {f : Pass → Pass} (hstore : ∀ pass, (f pass).store = pass.store)
    (hwithin : ∀ pass : Pass, pass.Within Q → (f pass).Within Q) : Behaves context Q (modifyPass f) Any := by
  intro w a w' hw hrun
  cases hrun
  refine ⟨Q, ?_, ⟨?_, hwithin _ hw.pass, hw.session⟩, trivial⟩
  · rw [hstore]
  · change Store.Orderly ((f w.pass).store, Q)
    rw [hstore]
    exact hw.store

/-- Changes of a pass that concern neither the store nor what is in scope. -/
theorem behaves_modifyRest {f : Pass → Pass}
    (h : ∀ pass, (f pass).store = pass.store ∧ (f pass).scopes = pass.scopes ∧ (f pass).typeVars = pass.typeVars) :
    Behaves context Q (modifyPass f) Any := by
  refine behaves_modifyPass (fun pass => (h pass).1) fun pass hpass => ⟨?_, ?_⟩
  · rw [(h pass).2.1]
    exact hpass.bindings
  · rw [(h pass).2.2]
    exact hpass.typeVars

theorem behaves_report (pos : Nat) (kind : ProblemKind) : Behaves context Q (report pos kind) Any :=
  behaves_modifyRest fun _ => ⟨rfl, rfl, rfl⟩

theorem behaves_reported_false (pos : Nat) (kind : ProblemKind) :
    Behaves context Q (do report pos kind; return false : InferM Bool) Any :=
  (behaves_report pos kind).bind fun _ _ _ _ => behaves_pure trivial

theorem behaves_reported_unknown (pos : Nat) (kind : ProblemKind) :
    Behaves context Q (do report pos kind; return .unknown : InferM Ty) AtHand :=
  (behaves_report pos kind).bind fun _ _ _ _ => behaves_unknown

theorem behaves_record (id : NodeId) (t : Ty) : Behaves context Q (record id t) Any :=
  behaves_modifyRest fun _ => ⟨rfl, rfl, rfl⟩

theorem behaves_isCancelled : Behaves context Q isCancelled Any := by
  refine behaves_getPass.bind fun pass Q₁ _ _ => ?_
  split
  · exact behaves_pure trivial
  · refine (behaves_session SessionM.behaves_isCancelled).bind fun seen Q₂ _ _ => ?_
    split
    · refine Behaves.bind (behaves_modifyRest fun _ => ⟨rfl, rfl, rfl⟩) fun _ _ _ _ => ?_
      exact behaves_pure trivial
    · exact behaves_pure trivial

/-! ### The store -/

theorem Work.Orderly.withStore {w : Work} {s : Store} (hw : w.Orderly Q)
    (hadvances : Advances (w.pass.store, Q) (s, Q')) : (w.withStore s).Orderly Q' :=
  ⟨hadvances.orderly hw.store,
    ⟨(hw.pass.mono hadvances.subset).bindings, (hw.pass.mono hadvances.subset).typeVars⟩, hw.session⟩

theorem behaves_store {work : StoreM α} {V : Set Mention → α → Prop}
    (h : ∀ s a s', Store.Orderly (s, Q) → work s = .ok (a, s') → ∃ Q', Advances (s, Q) (s', Q') ∧ V Q' a) :
    Behaves context Q (store work) V := by
  intro w a w' hw hrun
  obtain ⟨s', hwork, rfl⟩ := run_store_inv hrun
  obtain ⟨Q', hadvances, ha⟩ := h _ _ _ hw.store hwork
  exact ⟨Q', hadvances, Work.Orderly.withStore hw hadvances, ha⟩

theorem behaves_readStore {f : Store → Except Fault α} {V : Set Mention → α → Prop}
    (h : ∀ s a, Store.Orderly (s, Q) → f s = .ok a → V Q a) :
    Behaves context Q (store (StoreM.read f)) V := by
  intro w a w' hw hrun
  obtain ⟨hf, rfl⟩ := run_read_inv hrun
  exact ⟨Q, .refl, hw, h _ _ hw.store hf⟩

theorem behaves_allocate {work : Store → α × Store} {V : Set Mention → α → Prop}
    (h : ∀ s, Store.Orderly (s, Q) → ∃ Q', Mints (s, Q) ((work s).2, Q') ∧ V Q' (work s).1) :
    Behaves context Q (allocate work) V := by
  intro w a w' hw hrun
  rw [run_allocate] at hrun
  cases hrun
  obtain ⟨Q', hmints, ha⟩ := h _ hw.store
  exact ⟨Q', hmints.advances, Work.Orderly.withStore hw hmints.advances, ha⟩

/-- Any type may be zonked, also one of which it is not known that it is at hand. -/
theorem behaves_zonk_any (t : Ty) : Behaves context Q (zonk t) (fun _ z => z.Frozen) :=
  behaves_readStore fun _ _ _ hz => frozen_zonk hz

theorem behaves_freshVar (name : Name) : Behaves context Q (freshVar name) AtHand := by
  intro w a w' hw hrun
  rw [run_freshVar] at hrun
  cases hrun
  have hmints := (mints_fresh w.pass.store Q name false).advances
  exact ⟨_, hmints, Work.Orderly.withStore hw hmints, Ty.within_var.mpr (Set.mem_insert _ _)⟩

theorem behaves_freshVars (name : Name) (xs : List α) : Behaves context Q (freshVars name xs) AllAtHand :=
  behaves_mapM (V := AtHand) (fun _ _ _ hQ ht => ht.mono hQ) fun _ _ _ _ => behaves_freshVar name

theorem behaves_instantiate {scheme : Scheme} (h : scheme.Within Q) :
    Behaves context Q (instantiate scheme) AtHand :=
  behaves_allocate fun s _ => h.instantiate s

theorem behaves_unify {t u : Ty} (ht : t.Within Q) (hu : u.Within Q) :
    Behaves context Q (store (StoreM.unify t u)) Any := by
  refine behaves_store fun s o s' hs hrun => ?_
  have hlands := StoreM.safe_unify s t u Q hs.tidy ht hu
  rw [hrun] at hlands
  obtain ⟨Q', hmoves⟩ := hlands
  exact ⟨Q', hmoves.advances, trivial⟩

theorem behaves_mapDiff (diff : RecordDiff) : Behaves context Q (diff.mapTypesM zonk) Any := by
  have hfield : ∀ (field : Name × Ty) Q, Behaves context Q
      (do return (field.1, ← zonk field.2) : InferM (Name × Ty)) Any :=
    fun field Q => (behaves_zonk_any field.2).bind fun _ _ _ _ => behaves_pure trivial
  refine (behaves_mapM (V := Any) (fun _ _ _ _ _ => trivial) fun field _ Q' _ => hfield field Q').bind
    fun _ _ _ _ => ?_
  refine (behaves_mapM (V := Any) (fun _ _ _ _ _ => trivial) fun field _ Q' _ => hfield field Q').bind
    fun _ _ _ _ => ?_
  refine (behaves_mapM (V := Any) (fun _ _ _ _ _ => trivial) fun field _ Q' _ => ?_).bind
    fun _ _ _ _ => behaves_pure trivial
  exact (behaves_zonk_any _).bind fun _ _ _ _ => (behaves_zonk_any _).bind fun _ _ _ _ => behaves_pure trivial

theorem behaves_check (pos : Nat) {t u : Ty} (ht : t.Within Q) (hu : u.Within Q) :
    Behaves context Q (check pos t u) Any := by
  refine (behaves_unify ht hu).bind fun o Q₁ _ _ => ?_
  split
  · exact behaves_pure trivial
  · exact behaves_reported_false _ _
  · refine (behaves_zonk_any _).bind fun _ _ _ _ => (behaves_zonk_any _).bind fun _ _ _ _ => ?_
    exact behaves_reported_false _ _
  · refine (behaves_zonk_any _).bind fun _ _ _ _ => (behaves_zonk_any _).bind fun _ _ _ _ => ?_
    exact (behaves_mapDiff _).bind fun _ _ _ _ => behaves_reported_false _ _

/-! ### Type expressions -/

/-- The conversion that a pass starts for a type expression. -/
def conversion (w : Work) (vars : Assoc Name Ty) : Conversion :=
  { table := ⟨w.session.cache.declared, w.session.converting⟩, store := w.pass.store, vars := vars }

theorem run_convert_inv {rigid : Bool} {vars : Assoc Name Ty} {t : TypeExpr} {w w' : Work}
    {out : Ty × Assoc Name Ty × List Problem} (h : convert rigid vars t context w = (.ok out, w')) :
    ∃ u c, Conversion.convert context.engine.scope rigid t (conversion w vars) = (u, c) ∧
      out = (u, c.vars, c.problems) ∧ w'.pass = { w.pass with store := c.store } ∧
      w'.session.cache = { w.session.cache with declared := c.table.declared } := by
  let converted := Conversion.convert context.engine.scope rigid t (conversion w vars)
  let table := converted.2.table
  have hrun : convert rigid vars t context w =
      (.ok (converted.1, converted.2.vars, converted.2.problems),
        ⟨{ w.session with
            cache := { w.session.cache with declared := table.declared }
            converting := table.converting },
          { w.pass with store := converted.2.store }⟩) := rfl
  rw [hrun] at h
  cases h
  exact ⟨converted.1, converted.2, rfl, rfl, rfl, rfl⟩

theorem behaves_convert (rigid : Bool) {vars : Assoc Name Ty} (t : TypeExpr) (hvars : VarsWithin vars Q) :
    Behaves context Q (convert rigid vars t) (fun Q out => out.1.Within Q ∧ VarsWithin out.2.1 Q) := by
  intro w out w' hw hrun
  obtain ⟨u, c, hconvert, rfl, hpass, hcache⟩ := run_convert_inv hrun
  have hstart : (conversion w vars).Within Q := ⟨hw.store.plain, hvars, hw.session.declared⟩
  obtain ⟨Q', hmints, hc, hu⟩ := Conversion.yields_convert context.engine.scope rigid t hstart
  rw [hconvert] at hmints hc hu
  have hwithin := hw.pass.mono hmints.subset
  refine ⟨Q', ?_, ⟨?_, ?_, ?_⟩, hu, hc.vars⟩
  · rw [hpass]
    exact hmints.advances
  · rw [hpass]
    exact hmints.advances.orderly hw.store
  · rw [hpass]
    exact ⟨hwithin.bindings, hwithin.typeVars⟩
  · refine ⟨?_, ?_⟩
    · rw [hcache]
      exact hw.session.results
    · rw [hcache]
      exact hc.table

theorem behaves_convertSignature {vars : Assoc Name Ty} (t : TypeExpr) (hvars : VarsWithin vars Q) :
    Behaves context Q (convertSignature vars t) (fun Q out => out.1.Within Q ∧ VarsWithin out.2 Q) := by
  refine (behaves_convert true t hvars).bind fun out Q₁ _ hout => ?_
  refine Behaves.bind (behaves_modifyRest fun _ => ⟨rfl, rfl, rfl⟩) fun _ Q₂ hsub _ => behaves_pure ?_
  exact ⟨hout.1.mono hsub, hout.2.mono hsub⟩

theorem behaves_convertForeign (t : TypeExpr) : Behaves context Q (convertForeign t) AtHand :=
  (behaves_convert false t (fun _ h => by cases h)).bind fun _ _ _ hout => behaves_pure hout.1

/-! ### Scopes -/

theorem behaves_pushScope {scope : Scope} (h : ∀ entry ∈ scope, entry.2.Within Q) :
    Behaves context Q (pushScope scope) Any :=
  behaves_modifyPass (fun _ => rfl) fun _ hpass => ⟨List.forall_mem_cons.mpr ⟨h, hpass.bindings⟩, hpass.typeVars⟩

theorem behaves_popScope : Behaves context Q popScope Any :=
  behaves_modifyPass (fun _ => rfl) fun _ hpass =>
    ⟨fun scope hscope => hpass.bindings scope (List.mem_of_mem_tail hscope), hpass.typeVars⟩

theorem behaves_modifyScope {f : Scope → Scope}
    (h : ∀ scope : Scope, (∀ entry ∈ scope, entry.2.Within Q) → ∀ entry ∈ f scope, entry.2.Within Q) :
    Behaves context Q (modifyScope f) Any := by
  refine behaves_modifyPass (fun pass => ?_) fun pass hpass => ?_
  · split <;> rfl
  · split
    · exact hpass
    · next scope outer heq =>
      have hscopes := hpass.bindings
      rw [heq] at hscopes
      obtain ⟨hscope, houter⟩ := List.forall_mem_cons.mp hscopes
      exact ⟨List.forall_mem_cons.mpr ⟨h scope hscope, houter⟩, hpass.typeVars⟩

theorem behaves_bind (name : Name) {binding : Binding} (h : binding.Within Q) :
    Behaves context Q (InferM.bind name binding) Any := by
  refine behaves_modifyScope fun scope hscope entry hentry => ?_
  rcases Assoc.mem_set hentry with hentry | rfl
  · exact hscope entry hentry
  · exact h

theorem behaves_unbind (name : Name) : Behaves context Q (unbind name) Any :=
  behaves_modifyScope fun _ hscope entry hentry => hscope entry (List.mem_of_mem_filter hentry)

theorem exists_of_lookupIn {name : Name} {scopes : List Scope} {inner : Nat} {binding : Binding}
    (h : lookupIn name scopes = some (inner, binding)) : ∃ scope ∈ scopes, (name, binding) ∈ scope := by
  obtain ⟨scope, outer, hdrop, hget⟩ := drop_of_lookupIn h
  have hscope : scope ∈ scopes.drop inner := hdrop ▸ List.mem_cons_self
  exact ⟨scope, List.mem_of_mem_drop hscope, Assoc.mem_of_get? hget⟩

theorem behaves_lookup (name : Name) :
    Behaves context Q (lookup name) (fun Q found => ∀ inner binding, found = some (inner, binding) →
      binding.Within Q) := by
  refine behaves_getPass.bind fun pass Q₁ _ hpass => behaves_pure fun inner binding hfound => ?_
  obtain ⟨scope, hscope, hmem⟩ := exists_of_lookupIn hfound
  exact hpass.bindings scope hscope _ hmem

theorem behaves_hidesDeclaration (name : Name) : Behaves context Q (hidesDeclaration name) Any :=
  (behaves_session (SessionM.behaves_findValues _)).bind fun _ _ _ _ =>
    behaves_read.bind fun _ _ _ _ => behaves_pure trivial

theorem behaves_shadows (name : Name) : Behaves context Q (shadows name) Any := by
  refine behaves_getPass.bind fun pass Q₁ _ _ => ?_
  split
  · exact behaves_pure trivial
  · exact behaves_hidesDeclaration name

theorem behaves_declare (names : List Name) (name : NameAt) : Behaves context Q (declare names name) Any := by
  refine behaves_engine.bind fun engine Q₁ _ _ => ?_
  have hrest : ∀ hidden Q, Behaves context Q (do
      if names.contains name.name || hidden then report name.pos .conflictingName
      return name.name :: names : InferM (List Name)) Any := by
    intro hidden Q
    split
    · exact (behaves_report _ _).bind fun _ _ _ _ => behaves_pure trivial
    · exact behaves_pure trivial
  split
  · exact hrest _ _
  · exact (behaves_shadows _).bind fun hidden Q₂ _ _ => hrest hidden Q₂

theorem behaves_bindAll (names : List Name) {bound : Bound} (h : ∀ entry ∈ bound, entry.2.Within Q) :
    Behaves context Q (bindAll names bound) Any := by
  induction bound generalizing names Q with
  | nil => exact behaves_pure trivial
  | cons entry rest ih =>
    obtain ⟨name, t⟩ := entry
    obtain ⟨ht, hrest⟩ := List.forall_mem_cons.mp h
    refine (behaves_declare names name).bind fun names Q₁ hsub _ => ?_
    have hbinding : (Binding.mono t).Within Q₁ := Ty.Within.mono ht hsub
    refine (behaves_bind _ hbinding).bind fun _ Q₂ hsub' _ => ?_
    exact ih names fun entry hentry => (hrest entry hentry).mono (hsub.trans hsub')

theorem run_generalize (t : Ty) (w : Work) : generalize t context w =
    (do Scheme.generalize w.pass.store t (← environmentVars w.pass), w) := by
  have hpass : ∀ f : Pass → InferM Scheme, (getPass >>= f) context w = f w.pass context w := fun _ => rfl
  rw [generalize, hpass]
  cases henvironment : environmentVars w.pass with
  | error fault => rfl
  | ok environment =>
    simp only [ok_bind]
    cases Scheme.generalize w.pass.store t environment with
    | error fault => rfl
    | ok scheme => rfl

theorem run_generalize_inv {t : Ty} {scheme : Scheme} {w w' : Work} (hrun : generalize t context w = (.ok scheme, w')) :
    w' = w ∧ ∃ environment, environmentVars w.pass = .ok environment ∧
      Scheme.generalize w.pass.store t environment = .ok scheme := by
  rw [run_generalize] at hrun
  obtain ⟨hscheme, rfl⟩ := Prod.mk.inj hrun
  exact ⟨rfl, exists_of_bind_ok hscheme⟩

theorem behaves_generalize {t : Ty} (ht : t.Within Q) :
    Behaves context Q (generalize t) (fun Q scheme => scheme.Within Q) := by
  intro w scheme w' hw hrun
  obtain ⟨rfl, environment, -, hscheme⟩ := run_generalize_inv hrun
  refine ⟨Q, .refl, hw, ?_⟩
  obtain ⟨z, hz, hscheme⟩ := exists_of_bind_ok hscheme
  cases hscheme
  split
  · exact Scheme.within_mono ht
  · exact fun r hr => .inl (hw.store.within_zonk ht hz r hr)

end InferM

end ElmInference
