import ElmInference.Proofs.Infer.Escape
import ElmInference.Proofs.Infer.Waiting
import ElmInference.Proofs.Store.Frames

/-!
# What generalization may quantify

A `let` definition without signature is generalized over the variables of its type that the names in scope do not
show. Nothing in scope shows a quantified variable then. But it is the zonked types that are searched, and only those
of the scopes that the definition was written in: inner scopes are hidden while it is inferred. A record hides the
fields of its base under fields of the same name, so a name in scope may lead to a variable without showing it, and
then a hidden scope may show the variable, and later unifications may solve it.

If no visible name leads to a quantified variable, then no hidden name does either, and the variable stays free ever
after. Names in whose types no record is read show all they lead to, so capture needs a record.
-/

namespace ElmInference

open Store

variable {Q Q' : Set Mention} {s : Store}

/-! ### What names show -/

def Scheme.Hides (scheme : Scheme) (s : Store) (id : VarId) : Prop :=
  (∃ q ∈ scheme.vars, q.id = id) ∨ s.Hides id scheme.ty

def Binding.quantified : Binding → List TyVar
  | .poly scheme => scheme.vars
  | .checking scheme _ _ => scheme.vars
  | _ => []

def Binding.Hides (binding : Binding) (s : Store) (id : VarId) : Prop :=
  match binding with
  | .mono t => s.Hides id t
  | .poly scheme => scheme.Hides s id
  | .pending _ _ _ => True
  | .checking scheme _ _ => scheme.Hides s id
  | .active t _ _ => s.Hides id t

/-- Whether neither a name in scope nor a type variable of the signatures around shows a variable. -/
structure Pass.Hides (pass : Pass) (id : VarId) : Prop where
  bindings : ∀ scope ∈ pass.scopes, ∀ entry ∈ scope, entry.2.Hides pass.store id
  typeVars : ∀ entry ∈ pass.typeVars, pass.store.Hides id entry.2

def Pass.outside (pass : Pass) (inner : Nat) : Pass :=
  { pass with scopes := pass.scopes.drop inner }

/-- The free variables of types are those that one of the types shows. -/
theorem notMem_freeVars_iff {ts : List Ty} {ids : List VarId} (h : Scheme.freeVars s ts = .ok ids) (id : VarId) :
    id ∉ ids ↔ ∀ t ∈ ts, s.Hides id t := by
  obtain ⟨zs, hzs, h⟩ := exists_of_bind_ok h
  cases h
  have hzonked := mapM_eq_ok_iff.mp hzs
  simp only [List.mem_eraseDups, List.mem_flatMap, List.mem_map]
  constructor
  · rintro hnot t ht z hz u hu rfl
    obtain ⟨z', hz', heq⟩ := exists_mem_of_forall₂ hzonked.flip ht
    cases hz.symm.trans heq
    exact hnot ⟨z, hz', u, hu, rfl⟩
  · rintro hall ⟨z, hz, u, hu, rfl⟩
    obtain ⟨t, ht, heq⟩ := exists_mem_of_forall₂ hzonked hz
    exact hall t ht z heq u hu rfl

theorem notMem_bindingVars_iff {binding : Binding} {ids : List VarId}
    (h : InferM.bindingVars s binding = .ok ids) (id : VarId) : id ∉ ids ↔ binding.Hides s id := by
  have htype : ∀ {t : Ty} {ids}, Scheme.freeVars s [t] = .ok ids → (id ∉ ids ↔ s.Hides id t) := by
    intro t ids h
    simpa using notMem_freeVars_iff h id
  have hscheme : ∀ {scheme : Scheme}, InferM.bindingVars.schemeVars s scheme = .ok ids →
      (id ∉ ids ↔ scheme.Hides s id) := by
    intro scheme h
    obtain ⟨free, hfree, h⟩ := exists_of_bind_ok h
    cases h
    rw [Scheme.Hides, ← htype hfree, List.mem_filter]
    simp only [Bool.not_eq_true', List.any_eq_false, beq_iff_eq, not_and, not_forall]
    by_cases hquantified : ∃ q ∈ scheme.vars, q.id = id
    · simp [hquantified]
    · simp [hquantified]
  cases binding with
  | mono t => exact htype h
  | poly scheme => exact hscheme h
  | pending slot definition depth =>
    cases h
    simp [Binding.Hides]
  | checking scheme hasParams depth => exact hscheme h
  | active t hasParams depth => exact htype h

/-- The variables of the surroundings are those that they show. -/
theorem notMem_environmentVars_iff {pass : Pass} {environment : List VarId}
    (h : InferM.environmentVars pass = .ok environment) (id : VarId) : id ∉ environment ↔ pass.Hides id := by
  obtain ⟨signatures, hsignatures, h⟩ := exists_of_bind_ok h
  obtain ⟨bindings, hbindings, h⟩ := exists_of_bind_ok h
  cases h
  have hentries := mapM_eq_ok_iff.mp hbindings
  rw [List.mem_append, not_or, notMem_freeVars_iff hsignatures]
  constructor
  · rintro ⟨htypeVars, hnot⟩
    refine ⟨fun scope hscope entry hentry => ?_, fun entry hentry => htypeVars _ (List.mem_map_of_mem hentry)⟩
    obtain ⟨ids, hids, hvars⟩ := exists_mem_of_forall₂ hentries.flip (List.mem_flatten.mpr ⟨scope, hscope, hentry⟩)
    exact (notMem_bindingVars_iff hvars id).mp fun hid => hnot (List.mem_flatten.mpr ⟨ids, hids, hid⟩)
  · rintro ⟨hbindings, htypeVars⟩
    refine ⟨fun t ht => ?_, fun hmem => ?_⟩
    · obtain ⟨entry, hentry, rfl⟩ := List.mem_map.mp ht
      exact htypeVars entry hentry
    · obtain ⟨ids, hids, hid⟩ := List.mem_flatten.mp hmem
      obtain ⟨entry, hentry, hvars⟩ := exists_mem_of_forall₂ hentries hids
      obtain ⟨scope, hscope, hentry⟩ := List.mem_flatten.mp hentry
      exact (notMem_bindingVars_iff hvars id).mpr (hbindings scope hscope entry hentry) hid

namespace InferM

variable {context : Context} {w w' : Work}

/-! ### Generalizing -/

/-- What generalization sees to: a quantified variable has no solution, and nothing in scope shows it. -/
structure Free (pass : Pass) (Q : Set Mention) (v : TyVar) : Prop where
  unsolved : pass.store.Unsolved v.id
  hidden : pass.Hides v.id
  atHand : .var v ∈ Q

theorem Free.mono {pass : Pass} {v : TyVar} (h : Free pass Q v) (hQ : Q ⊆ Q') : Free pass Q' v :=
  ⟨h.unsolved, h.hidden, hQ h.atHand⟩

/-- Zonking a type again shows nothing new. -/
theorem mem_mentions_of_zonk_zonk {t z z' : Ty} (hz : s.zonk t = .ok z) (hz' : s.zonk z = .ok z') {u : TyVar}
    (hu : u ∈ z'.vars) : .var u ∈ z.mentions false := by
  have hreads : ∀ x, Relation.ReflTransGen s.Child z x → x.mentions false ⊆ z.mentions false := by
    intro x hx
    induction hx with
    | refl => exact fun _ h => h
    | tail _ hchild ih =>
      rcases child_cases hchild with hsubset | ⟨v, rfl, hsol⟩ | ⟨id, g, rfl, -, -⟩
      · exact fun r hr => ih (hsubset hr)
      · rcases within_zonk hz _ (ih (List.mem_singleton_self (Mention.var v))) with hr | ⟨x, hx, hun, -⟩
        · cases hr
        · cases hx
          exact absurd hun (not_unsolved_of_some hsol)
      · exact absurd (ih (List.mem_singleton_self (Mention.record id))) (frozen_zonk hz id)
  rcases within_zonk hz' _ (Ty.mentions_of_mem_vars hu) with hr | ⟨x, hx, -, hpath⟩
  · cases hr
  · cases hx
    exact hreads _ hpath (List.mem_singleton_self _)

theorem free_of_generalize {t : Ty} {scheme : Scheme} (hstore : Store.Orderly (w.pass.store, Q)) (ht : t.Within Q)
    (hrun : generalize t context w = (.ok scheme, w')) :
    w' = w ∧ (∀ v ∈ scheme.vars, Free w.pass Q v) ∧
      ∀ id, w.pass.Hides id → scheme.Hides w.pass.store id := by
  obtain ⟨rfl, environment, henvironment, hscheme⟩ := run_generalize_inv hrun
  have hhides := notMem_environmentVars_iff henvironment
  obtain ⟨z, hz, hscheme⟩ := exists_of_bind_ok hscheme
  cases hscheme
  have hquantified : ∀ v ∈ z.vars, v.id ∉ environment →
      v ∈ z.vars.filter (fun v => !environment.contains v.id) := by
    intro v hv hnot
    exact List.mem_filter.mpr ⟨hv, by simpa using hnot⟩
  refine ⟨rfl, fun v hv => ?_, fun id hid => ?_⟩
  · split at hv
    · cases hv
    · obtain ⟨hv, hnot⟩ := List.mem_filter.mp hv
      have hmention := Ty.mentions_of_mem_vars hv
      refine ⟨?_, (hhides v.id).mp (by simpa using hnot), hstore.within_zonk ht hz _ hmention⟩
      rcases within_zonk hz _ hmention with hr | ⟨x, hx, hun, -⟩
      · cases hr
      · cases hx
        exact hun
  · have hid := (hhides id).mpr hid
    split
    · next hempty =>
      refine .inr fun z' hz' u hu heq => ?_
      cases hz.symm.trans hz'
      have hmem := hquantified u hu (heq ▸ hid)
      rw [List.isEmpty_iff.mp hempty] at hmem
      cases hmem
    · by_cases hshown : ∃ u ∈ z.vars, u.id = id
      · obtain ⟨u, hu, rfl⟩ := hshown
        exact .inl ⟨u, hquantified u hu hid, rfl⟩
      · refine .inr fun z' hz' u hu heq => hshown ?_
        obtain ⟨x, hx, hxu⟩ := Ty.exists_mem_vars (mem_mentions_of_zonk_zonk hz hz' hu)
        exact ⟨x, hx, hxu.trans heq⟩

/-- A name that is bound to a scheme shows nothing new when the scheme does not. -/
theorem hides_set {pass : Pass} {scope : Scope} {outer : List Scope} {name : Name} {scheme : Scheme} {id : VarId}
    (h : pass.scopes = scope :: outer) (hpass : pass.Hides id) (hscheme : scheme.Hides pass.store id) :
    Pass.Hides { pass with scopes := Assoc.set scope name (.poly scheme) :: outer } id := by
  obtain ⟨hbindings, htypeVars⟩ := hpass
  rw [h] at hbindings
  obtain ⟨hscope, houter⟩ := List.forall_mem_cons.mp hbindings
  refine ⟨List.forall_mem_cons.mpr ⟨fun entry hentry => ?_, houter⟩, htypeVars⟩
  rcases Assoc.mem_set hentry with hentry | rfl
  · exact hscope entry hentry
  · exact hscheme

def BoundFree (pass : Pass) (Q : Set Mention) (scope : Scope) (names : List Name) : Prop :=
  ∀ name ∈ names, ∃ scheme, Assoc.get? scope name = some (.poly scheme) ∧ ∀ v ∈ scheme.vars, Free pass Q v

theorem free_of_bindGeneralized {bound : Bound} {scope : Scope} {outer : List Scope}
    (hstore : Store.Orderly (w.pass.store, Q)) (hbound : BoundAtHand Q bound) (h : w.pass.scopes = scope :: outer)
    (hrun : bindGeneralized bound context w = (.ok (), w')) :
    w'.pass.store = w.pass.store ∧ (∀ id, w.pass.Hides id → w'.pass.Hides id) ∧
      ∃ scope', w'.pass.scopes = scope' :: outer ∧ BoundFree w'.pass Q scope' (bound.map (·.1.name)) := by
  induction bound generalizing w scope with
  | nil =>
    cases hrun
    exact ⟨rfl, fun _ hid => hid, scope, h, fun _ hname => by cases hname⟩
  | cons entry rest ih =>
    obtain ⟨ht, hrest⟩ := List.forall_mem_cons.mp hbound
    obtain ⟨scheme, w₁, hgeneralize, hbinding⟩ := run_bind_inv hrun
    obtain ⟨rfl, hfree, hscheme⟩ := free_of_generalize hstore ht hgeneralize
    rw [run_bind_ok _ (run_bindName h)] at hbinding
    have hothers := get?_of_bindGeneralized rfl hbinding
    obtain ⟨hsame, hhides, scope', hscopes', hboundRest⟩ := ih (by exact hstore) hrest rfl hbinding
    have hstays : ∀ id, w₁.pass.Hides id → w'.pass.Hides id := fun id hid =>
      hhides id (hides_set h hid (hscheme id hid))
    refine ⟨hsame, hstays, scope', hscopes', fun name hname => ?_⟩
    by_cases hmem : name ∈ rest.map (·.1.name)
    · exact hboundRest name hmem
    · obtain rfl : name = entry.1.name := (List.mem_cons.mp hname).resolve_right hmem
      obtain ⟨scope'', hscopes'', hunbound, -⟩ := hothers
      cases hscopes'.symm.trans hscopes''
      refine ⟨scheme, by rw [hunbound _ hmem, Assoc.get?_set_self], fun v hv => ?_⟩
      obtain ⟨hun, hhidden, hhand⟩ := hfree v hv
      exact ⟨hsame ▸ hun, hstays v.id hhidden, hhand⟩

theorem scopes_of_bindGeneralized_nil {bound : Bound} (h : w.pass.scopes = [])
    (hrun : bindGeneralized bound context w = (.ok (), w')) : w'.pass.scopes = [] := by
  induction bound generalizing w with
  | nil =>
    cases hrun
    exact h
  | cons entry rest ih =>
    obtain ⟨scheme, w₁, hgeneralize, hbinding⟩ := run_bind_inv hrun
    obtain ⟨rfl, -⟩ := run_generalize_inv hgeneralize
    have hsame : InferM.bind entry.1.name (.poly scheme) context w₁ = (.ok (), w₁) := run_modifyScope_nil h
    rw [run_bind_ok _ hsame] at hbinding
    exact ih h hbinding

theorem map_fst_definitionTypes {inferBody : Expr → InferM Ty} {definition : ValueDecl} {depth : Nat} {bound : Bound}
    (hrun : definitionTypes inferBody definition depth context w = (.ok bound, w')) :
    bound.map (·.1.name) = definition.names := by
  obtain ⟨pos, signature, head, body⟩ := definition
  cases head with
  | function name params =>
    obtain ⟨_, _, -, hrun⟩ := run_bind_inv hrun
    obtain ⟨_, _, -, hrun⟩ := run_bind_inv hrun
    obtain ⟨_, _, -, hrun⟩ := run_bind_inv hrun
    obtain ⟨_, _, -, hrun⟩ := run_bind_inv hrun
    obtain ⟨_, _, -, hrun⟩ := run_bind_inv hrun
    cases hrun
    rfl
  | pattern pattern =>
    obtain ⟨_, _, -, hrun⟩ := run_bind_inv hrun
    obtain ⟨out, _, hinfer, hrun⟩ := run_bind_inv hrun
    obtain ⟨_, _, -, hrun⟩ := run_bind_inv hrun
    cases hrun
    exact map_fst_inferDestructuring hinfer

section Bodies

variable {inferBody : Expr → InferM Ty} (hscope : context.engine.scope.Frozen)
  (hbody : ∀ Q e, Behaves context Q (inferBody e) AtHand) (hsteady : ∀ e, Steady context 0 0 (inferBody e))

include hscope hbody hsteady

/-- The names of a definition stand for schemes over free variables once it has been inferred. -/
theorem free_of_inferDefinition {scope : Scope} {outer : List Scope} {name : Name} {slot : Nat}
    {definition : ValueDecl} {depth depth' : Nat} (hw : w.Orderly Q) (h : w.pass.scopes = scope :: outer)
    (hget : Assoc.get? scope name = some (.pending slot definition depth'))
    (hrun : inferDefinition inferBody definition depth context w = (.ok (), w')) :
    ∃ Q', Advances (w.pass.store, Q) (w'.pass.store, Q') ∧ w'.Orderly Q' ∧
      ∃ scope' outer', w'.pass.scopes = scope' :: outer' ∧ BoundFree w'.pass Q' scope' definition.names := by
  have hsettles := settles_inferDefinition hsteady h hget hrun
  rw [h] at hsettles
  obtain ⟨scope', outer', -, -, hscopes'⟩ := List.forall₂_cons_left_iff.mp hsettles
  rw [inferDefinition_eq] at hrun
  obtain ⟨bound, w₁, htypes, hrun⟩ := run_bind_inv hrun
  obtain ⟨Q₁, hadvances, hw₁, hbound⟩ := behaves_definitionTypes hscope hbody definition depth _ _ _ hw htypes
  obtain ⟨Q₂, hadvances', hw', -⟩ := behaves_bindGeneralized hbound _ _ _ hw₁ hrun
  have hnames := map_fst_definitionTypes htypes
  refine ⟨Q₂, hadvances.trans hadvances', hw', ?_⟩
  cases hscopes₁ : w₁.pass.scopes with
  | nil =>
    rw [scopes_of_bindGeneralized_nil hscopes₁ hrun] at hscopes'
    cases hscopes'
  | cons scope₁ outer₁ =>
    obtain ⟨-, -, scope'', hscopes'', hfree⟩ := free_of_bindGeneralized hw₁.store hbound hscopes₁ hrun
    refine ⟨scope'', outer₁, hscopes'', fun name hname => ?_⟩
    obtain ⟨scheme, hscheme, hvars⟩ := hfree name (hnames ▸ hname)
    exact ⟨scheme, hscheme, fun v hv => (hvars v hv).mono hadvances'.subset⟩

/-- When the names that a definition sees do not come to lead to one of its quantified variables, then nothing that
was at hand before does. -/
theorem subset_clearOf_of_inferDefinition {scope scope' : Scope} {outer outer' : List Scope} {name other : Name}
    {slot : Nat} {definition : ValueDecl} {depth depth' : Nat} {scheme : Scheme} {v : TyVar} (hw : w.Orderly Q)
    (h : w.pass.scopes = scope :: outer) (hget : Assoc.get? scope name = some (.pending slot definition depth'))
    (hrun : inferDefinition inferBody definition depth context w = (.ok (), w'))
    (hscopes' : w'.pass.scopes = scope' :: outer') (hother : other ∈ definition.names)
    (hscheme : Assoc.get? scope' other = some (.poly scheme)) (hv : v ∈ scheme.vars)
    (hclear : w.pass.Within (w'.pass.store.clearOf v.id)) : Q ⊆ w'.pass.store.clearOf v.id := by
  obtain ⟨Q₁, hadvances, -⟩ := behaves_inferDefinition hscope hbody definition depth _ _ _ hw hrun
  -- The same run seen from the names that do not lead to the variable in the end.
  have hw₀ : w.Orderly (Q ∩ w'.pass.store.clearOf v.id) :=
    ⟨hw.store.clearIn (fun _ _ => hadvances.edge) v.id, hw.pass.inter hclear, hw.session⟩
  obtain ⟨Q₂, hadvances₀, -, scope₂, outer₂, hscopes₂, hfree⟩ :=
    free_of_inferDefinition hscope hbody hsteady hw₀ h hget hrun
  cases hscopes'.symm.trans hscopes₂
  obtain ⟨scheme', hscheme', hvars⟩ := hfree other hother
  cases hscheme.symm.trans hscheme'
  refine hadvances₀.clear_of_away hw.store.tidy Set.inter_subset_right ?_
  rcases hadvances₀.new (hvars v hv).atHand with hold | hnew
  · exact absurd .refl (hold.2 _ rfl)
  · exact Nat.le_of_not_lt hnew

end Bodies

/-! ### Hidden scopes and later inference -/

/-- Whether a variable without solution keeps out of reach: nothing in scope leads to it, and whatever is inferred
from here on, it has no solution and nothing in scope leads to it. -/
structure Uncaptured (context : Context) (w : Work) (id : VarId) : Prop where
  clear : w.pass.Within (w.pass.store.clearOf id)
  later : ∀ {α : Type} (x : InferM α) (V : Set Mention → α → Prop), (∀ Q, Behaves context Q x V) →
    ∀ a w', x context w = (.ok a, w') →
      w'.pass.store.Unsolved id ∧ w'.pass.Within (w'.pass.store.clearOf id)

theorem uncaptured_of_within {id : VarId} (hw : w.Orderly Q) (hun : w.pass.store.Unsolved id)
    (hclear : w.pass.Within (w.pass.store.clearOf id)) : Uncaptured context w id := by
  refine ⟨hclear, fun x V hx a w' hrun => ?_⟩
  obtain ⟨Q', hadvances, -⟩ := hx _ _ _ _ (hw.clear hclear) hrun
  refine ⟨(hadvances.unsolved_of_away (away_of_subset_clearOf Set.inter_subset_right) hun).1, ?_⟩
  exact (Behaves.clear hx hw hun.1 hclear hrun).1

/-- A coherent scope with distinct names keeps what it mentions, up to definitions that were waiting. -/
theorem within_of_settles {scope scope' : Scope} (hsettles : Scope.Settles scope scope')
    (hcoherent : Scope.Coherent scope) (hnodup : (scope.map Prod.fst).Nodup)
    (hwithin : ∀ entry ∈ scope', entry.2.Within Q) : ∀ entry ∈ scope, entry.2.Within Q := by
  rintro ⟨name, binding⟩ hentry
  by_cases hpending : binding.IsPending
  · obtain ⟨slot, definition, depth, rfl⟩ := hpending.eq_pending
    trivial
  · exact hwithin _ (Assoc.mem_of_get? (hsettles.kept hcoherent _ _ (Assoc.get?_of_mem hnodup hentry) hpending))

theorem within_of_settled {scopes scopes' : List Scope} (h : List.Forall₂ Scope.Settles scopes scopes')
    (hcoherent : ∀ scope ∈ scopes, (scope.map Prod.fst).Nodup ∧ Scope.Coherent scope)
    (hwithin : ∀ scope ∈ scopes', ∀ entry ∈ scope, entry.2.Within Q) :
    ∀ scope ∈ scopes, ∀ entry ∈ scope, entry.2.Within Q := by
  induction h with
  | nil => exact hwithin
  | cons hfirst _ ih =>
    obtain ⟨⟨hnodup, hscope⟩, hcoherent⟩ := List.forall_mem_cons.mp hcoherent
    obtain ⟨hscope', hwithin⟩ := List.forall_mem_cons.mp hwithin
    exact List.forall_mem_cons.mpr ⟨within_of_settles hfirst hscope hnodup hscope', ih hcoherent hwithin⟩

theorem Work.Orderly.outside (hw : w.Orderly Q) (inner depth : Nat) :
    Work.Orderly { w with pass := { w.pass.outside inner with depth } } Q :=
  ⟨hw.store, ⟨fun scope hscope => hw.pass.bindings scope (List.mem_of_mem_drop hscope), hw.pass.typeVars⟩, hw.session⟩

/-- The variables that a `let` definition is generalized over, once it has been inferred in the scopes outside of the
`inner` ones. None has a solution, and no visible name shows one. A visible name in whose type no record is read
does not lead to one either. And when no visible name leads to one, it stays out of reach of all names, hidden ones
included, whatever is inferred from there on. -/
theorem quantified_variables_stay_free_unless_led_to (n : Nat) (context : Context) (inner : Nat) (name : Name)
    (slot : Nat) (definition : ValueDecl) (depth depth' : Nat) (scope : Scope) (outer : List Scope) (w w₁ : Work)
    (Q : Set Mention) (hscope : context.engine.scope.Frozen) (hw : w.Orderly Q)
    (hvisible : w.pass.scopes.drop inner = scope :: outer)
    (hcoherent : ∀ scope ∈ w.pass.scopes.drop inner, (scope.map Prod.fst).Nodup ∧ Scope.Coherent scope)
    (hwaits : Assoc.get? scope name = some (.pending slot definition depth'))
    (hrun : inferPending (exprAt n) inner definition depth context w = (.ok (), w₁)) :
    ∃ scope' outer', w₁.pass.scopes.drop inner = scope' :: outer' ∧
      ∀ other ∈ definition.names, ∃ scheme, Assoc.get? scope' other = some (.poly scheme) ∧
        ∀ v ∈ scheme.vars, w₁.pass.store.Unsolved v.id ∧ (w₁.pass.outside inner).Hides v.id ∧
          (∀ visible ∈ w₁.pass.scopes.drop inner, ∀ x t z, (x, .mono t) ∈ visible → w₁.pass.store.zonk t = .ok z →
            w₁.pass.store.ReadsNoRecord t → t.Within (w₁.pass.store.clearOf v.id)) ∧
          ((w₁.pass.outside inner).Within (w₁.pass.store.clearOf v.id) → Uncaptured context w₁ v.id) := by
  have hsteady : ∀ e, Steady context 0 0 (exprAt n e) := fun e => steady_exprAt n e
  have hbody : ∀ Q e, Behaves context Q (exprAt n e) AtHand := fun Q e => behaves_exprAt n hscope Q e
  obtain ⟨Q₁, -, hw₁, -⟩ := behaves_inferPending hscope hbody inner definition depth _ _ _ hw hrun
  obtain ⟨w₂, hdefinition, rfl⟩ := run_inferPending_inv hrun
  have hsettles := settles_inferDefinition hsteady hvisible hwaits hdefinition
  obtain ⟨Q₂, hadvances, hw₂, scope', outer', hscopes', hfree⟩ :=
    free_of_inferDefinition hscope hbody hsteady (Work.Orderly.outside hw inner depth) hvisible hwaits hdefinition
  have hdrop : (w.pass.scopes.take inner ++ w₂.pass.scopes).drop inner = w₂.pass.scopes := by
    have hle : inner ≤ w.pass.scopes.length := by
      by_contra hlt
      rw [List.drop_eq_nil_of_le (Nat.le_of_not_le hlt)] at hvisible
      cases hvisible
    exact List.drop_left' (by rw [List.length_take, Nat.min_eq_left hle])
  refine ⟨scope', outer', hdrop.trans hscopes', fun other hother => ?_⟩
  obtain ⟨scheme, hscheme, hvars⟩ := hfree other hother
  refine ⟨scheme, hscheme, fun v hv => ?_⟩
  obtain ⟨hun, hhidden, -⟩ := hvars v hv
  refine ⟨hun, ?_, fun visible hmem x t z hx hz hnone => ?_, fun hclear => ?_⟩
  · exact ⟨fun visible hmem => hhidden.bindings visible (hdrop ▸ hmem), hhidden.typeVars⟩
  · exact clear_of_hides hz hnone hun (hhidden.bindings visible (hdrop ▸ hmem) _ hx)
  · have hafter : ∀ visible ∈ w₂.pass.scopes, ∀ entry ∈ visible, entry.2.Within (w₂.pass.store.clearOf v.id) := by
      have hbindings := hclear.bindings
      simp only [Pass.outside, hdrop] at hbindings
      exact hbindings
    have hbefore : (w.pass.outside inner).Within (w₂.pass.store.clearOf v.id) := by
      refine ⟨within_of_settled hsettles hcoherent hafter, ?_⟩
      have hvars := (steady_inferDefinition hsteady _ _ _ _ _ hdefinition).2
      exact hvars ▸ hclear.typeVars
    have hall := subset_clearOf_of_inferDefinition hscope hbody hsteady (Work.Orderly.outside hw inner depth) hvisible
      hwaits hdefinition hscopes' hother hscheme hv ⟨hbefore.bindings, hbefore.typeVars⟩
    refine uncaptured_of_within hw₁ hun ⟨fun hidden hmem => ?_, hclear.typeVars⟩
    rcases List.mem_append.mp hmem with hmem | hmem
    · exact fun entry hentry => (hw.pass.bindings hidden (List.mem_of_mem_take hmem) entry hentry).mono hall
    · exact hafter hidden hmem

/-- `g y = ( x, y )` is needed where the name `s` is in scope too, and generalized over the type of `y`. -/
theorem quantified_variables_stay_free_unless_led_to_of_pair :
    let a : TyVar := ⟨0, "a", false⟩
    let b : TyVar := ⟨1, "b", false⟩
    let Q : Set Mention := insert (.var b) (insert (.var a) {r | r.node? = none})
    let g : ValueDecl :=
      ⟨0, none, .function ⟨1, "g"⟩ [.mk 0 2 (.var "y")],
        .mk 3 5 (.tuple [.mk 1 3 (.var (.plain "x")), .mk 2 4 (.var (.plain "y"))])⟩
    let w : Work := ⟨{}, { store := ({} : Store).extended.extended
                           scopes := [[("s", .mono (.var b))], [("g", .pending 0 g 0)], [("x", .mono (.var a))]] }⟩
    let w₁ := (inferPending (exprAt 1) 1 g 0 default w).2
    w.Orderly Q ∧ inferPending (exprAt 1) 1 g 0 default w = (.ok (), w₁) ∧
      ((w₁.pass.scopes.drop 1).head?.bind (Assoc.get? · "g")).map Binding.quantified = some [⟨3, "a", false⟩] ∧
      Uncaptured default w₁ 3 := by
  intro a b Q g w w₁
  have hstore : Store.Orderly (w.pass.store, Q) :=
    Advances.orderly (.tail (.single (.move (.fresh "a" false))) (.move (.fresh "b" false))) orderly_empty
  have hw : w.Orderly Q := by
    refine ⟨hstore, ⟨?_, fun _ h => by cases h⟩, Session.frozen_empty⟩
    have hb : (Binding.mono (.var b)).Within Q := Ty.within_var.mpr (Set.mem_insert _ _)
    have ha : (Binding.mono (.var a)).Within Q := Ty.within_var.mpr (Set.mem_insert_of_mem _ (Set.mem_insert _ _))
    have hg : (Binding.pending 0 g 0).Within Q := trivial
    simp only [w, List.forall_mem_cons, List.not_mem_nil, false_implies, implies_true, and_true]
    exact ⟨hb, hg, ha⟩
  have hrun : inferPending (exprAt 1) 1 g 0 default w = (.ok (), w₁) := run_eq_of_isOk (by decide +kernel)
  have hcoherent : ∀ scope ∈ w.pass.scopes.drop 1, (scope.map Prod.fst).Nodup ∧ Scope.Coherent scope := by
    have hg : Scope.Coherent [("g", .pending 0 g 0)] := Scope.coherent_single rfl
    have hx : Scope.Coherent [("x", .mono (.var a))] := Scope.coherent_single_of_not_isPending id
    simp only [w, List.drop_succ_cons, List.drop_zero, List.forall_mem_cons, List.not_mem_nil, false_implies,
      implies_true, and_true]
    exact ⟨⟨by decide, hg⟩, by decide, hx⟩
  have hquantified : ((w₁.pass.scopes.drop 1).head?.bind (Assoc.get? · "g")).map Binding.quantified =
      some [⟨3, "a", false⟩] := by decide +kernel
  have hbindings : ∀ scope ∈ w₁.pass.scopes.drop 1, ∀ entry ∈ scope, entry.2.Within {r | r = .var a} := by
    decide +kernel
  have htypeVars : w₁.pass.typeVars.isEmpty = true := by decide +kernel
  have hlt : 0 < w₁.pass.store.size := by decide +kernel
  have hsolution : (w₁.pass.store.solution? 0).isNone = true := by decide +kernel
  clear_value w₁
  have hclear : (w₁.pass.outside 1).Within (w₁.pass.store.clearOf 3) := by
    have hunsolved : w₁.pass.store.Unsolved 0 := ⟨hlt, Option.isNone_iff_eq_none.mp hsolution⟩
    refine Pass.Within.mono ⟨hbindings, fun entry hentry => ?_⟩ ?_
    · rw [Pass.outside, List.isEmpty_iff.mp htypeVars] at hentry
      cases hentry
    · rintro r rfl
      exact mem_clearOf_of_unsolved hunsolved (by decide)
  obtain ⟨scope', outer', hdrop, hall⟩ := quantified_variables_stay_free_unless_led_to 1 default 1 "g" 0 g 0 0
    [("g", .pending 0 g 0)] [[("x", .mono (.var a))]] w w₁ Q
    ⟨fun _ h => absurd h List.not_mem_nil, fun _ h => absurd h List.not_mem_nil⟩ hw rfl hcoherent rfl hrun
  obtain ⟨scheme, hscheme, hvars⟩ := hall "g" (List.mem_singleton_self _)
  have hthree : scheme.vars = [⟨3, "a", false⟩] := by
    rw [hdrop] at hquantified
    simpa [hscheme, Binding.quantified] using hquantified
  refine ⟨hw, hrun, hquantified, ?_⟩
  exact (hvars ⟨3, "a", false⟩ (by rw [hthree]; exact List.mem_singleton_self _)).2.2.2 hclear

/-- In `top r = let q = case g r of s -> ( p, [ s.x, 'c' ] ) ; p = (f r).x in ( q, p )`, where `f` and `g` take
`{ a | x : Int }` to `{ a | z : Int }` and `{ a | y : Int }`, nothing is reported, and `p` is generalized over a
variable that is solved by `Char` when the definitions are done: while `p` is inferred, `s` is hidden, and the own `x`
of `r` hides the one of its base. -/
theorem quantified_variable_of_hidden_field_is_solved :
    let a : TyVar := ⟨0, "a", false⟩
    let function (input output : Name) : Ty :=
      .arrow [.record [(input, .int)] (some (.var a)) none .empty]
        (.record [(output, .int)] (some (.var a)) none .empty) none
    let q : ValueDecl :=
      ⟨1, none, .function ⟨2, "q"⟩ [],
        .mk 10 13 (.caseOf
          (.mk 3 5 (.call (.mk 1 3 (.var (.plain "g"))) [.mk 2 4 (.var (.plain "r"))]))
          [(.mk 4 6 (.var "s"),
            .mk 9 12 (.tuple
              [.mk 5 7 (.var (.plain "p")),
               .mk 8 11 (.list
                 [.mk 7 9 (.access (.mk 6 8 (.var (.plain "s"))) ⟨9, "x"⟩), .mk 11 10 (.literal .char)])]))])⟩
    let p : ValueDecl :=
      ⟨14, none, .function ⟨15, "p"⟩ [],
        .mk 15 19 (.access
          (.mk 14 18 (.call (.mk 12 16 (.var (.plain "f"))) [.mk 13 17 (.var (.plain "r"))])) ⟨19, "x"⟩)⟩
    let body : Expr :=
      .mk 19 23 (.letIn [q, p]
        (.mk 18 22 (.tuple [.mk 16 20 (.var (.plain "q")), .mk 17 21 (.var (.plain "p"))])))
    let top : ValueDecl := ⟨0, none, .function ⟨0, "top"⟩ [.mk 0 1 (.var "r")], body⟩
    let scope : ModuleScope :=
      { module := ⟨"Main", [.value top]⟩
        values := [⟨"Lib", "f", function "x" "z"⟩, ⟨"Lib", "g", function "x" "y"⟩] }
    let engine : Engine := { file := default, scope }
    let r : TyVar := ⟨1, "a", false⟩
    let v : TyVar := ⟨4, "a", false⟩
    let before : Work := ⟨{}, { store := ({} : Store).extended.extended, scopes := [[("r", .mono (.var r))]] }⟩
    let after := enterLet (exprAt engine.budget) [q, p] ⟨engine, 0⟩ before
    let done := inferTopFunction (exprAt engine.budget) ⟨0, "top"⟩ [.mk 0 1 (.var "r")] body none ⟨engine, 0⟩ ⟨{}, {}⟩
    done.1.isOk = true ∧ done.2.pass.problems.isEmpty = true ∧ after.1.isOk = true ∧
      (lookupIn "p" after.2.pass.scopes).map (·.2.quantified) = some [v] ∧
      (after.2.pass.store.solution? v.id).isSome = true := by
  decide +kernel

end InferM

end ElmInference
