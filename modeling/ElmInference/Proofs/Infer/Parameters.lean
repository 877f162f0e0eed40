import ElmInference.Proofs.Infer.Requests
import ElmInference.Proofs.Infer.Results
import ElmInference.Proofs.Infer.Typing

/-!
# Parameters in scope

The names in scope of a core expression are the parameters of the lambdas around it and the name of the definition that
the expression is part of, `Binds`. Variables and wildcards as parameters add themselves to the names in scope. This
is all that happens, and the store stays as it is, except that an engine that watches all scopes reports the names that
hide others.
-/

namespace ElmInference

namespace Pattern

/-- Simple parameters bind the names that they are given types for. -/
theorem map_fst_givenAll {α : Type} {ps : List Pattern} {as : List α} (hsimple : ∀ p ∈ ps, p.IsSimple)
    (hlength : ps.length = as.length) : (givenAll ps as).map Prod.fst = names ps := by
  induction ps generalizing as with
  | nil => rfl
  | cons p ps ih =>
    obtain ⟨hp, hps⟩ := List.forall_mem_cons.mp hsimple
    cases as with
    | nil => cases hlength
    | cons a as =>
      have hrest := ih hps (Nat.succ.inj hlength)
      have hfirst : (p.given a).map Prod.fst = p.boundNames.map NameAt.name := by
        obtain ⟨id, pos, kind⟩ := p
        cases kind with
        | any => simp [given, boundNames]
        | var name => simp [given, boundNames]
        | _ => exact hp.elim
      rw [givenAll, List.map_append, hfirst, hrest, names, names, boundNamesList, List.map_append]

end Pattern

/-- Whether a problem is only that a name hides another one, where all scopes are watched for this. -/
def Context.Tolerates (context : Context) (p : Problem) : Prop :=
  p.kind = .conflictingName ∧ context.engine.shadowing = .allScopes

def Work.reporting (w : Work) (problems : List Problem) : Work :=
  { w with pass := { w.pass with problems := w.pass.problems ++ problems } }

/-- The state inside of parameters: with their types recorded, their names in a scope of their own, and the conflicts
of these names reported. -/
def Work.inside (w : Work) (scope : Scope) (log : List (NodeId × Ty)) (conflicts : List Problem) (levels : Nat) : Work :=
  { w with pass := { w.pass with
    scopes := scope :: w.pass.scopes
    nodeTypes := log ++ w.pass.nodeTypes
    problems := w.pass.problems ++ conflicts
    depth := w.pass.depth + levels } }

def Pass.leaving (levels : Nat) (pass : Pass) : Pass :=
  { pass with scopes := pass.scopes.tail, depth := pass.depth - levels }

namespace InferM

/-- Whether the names in scope are parameters with their types and the name of a definition. -/
structure Binds (own : Name) (Γ : Assoc Name Ty) (scopes : List Scope) : Prop where
  bound : ∀ name t, Assoc.get? Γ name = some t → ∃ inner, lookupIn name scopes = some (inner, .mono t)
  free : ∀ name, name ≠ own → Assoc.get? Γ name = none → lookupIn name scopes = none

variable {context : Context} {w : Work} {own : Name} {Γ : Assoc Name Ty} {scopes : List Scope}

/-- Names of a new innermost scope hide those outside of it. -/
theorem Binds.push (h : Binds own Γ scopes) {given : Assoc Name Ty} {scope : Scope}
    (hscope : ∀ name, Assoc.get? scope name = (Assoc.get? given name).map .mono) :
    Binds own (given ++ Γ) (scope :: scopes) := by
  refine ⟨fun name t hget => ?_, fun name hown hget => ?_⟩
  · rw [Assoc.get?_append] at hget
    rw [lookupIn, hscope]
    cases hgiven : Assoc.get? given name with
    | some u =>
      rw [hgiven] at hget
      cases hget
      exact ⟨0, rfl⟩
    | none =>
      rw [hgiven] at hget
      obtain ⟨inner, hlookup⟩ := h.bound name t hget
      exact ⟨inner + 1, by simp [hlookup]⟩
  · rw [Assoc.get?_append] at hget
    obtain ⟨hgiven, hget⟩ := Option.or_eq_none_iff.mp hget
    rw [lookupIn, hscope, hgiven]
    simp [h.free name hown hget]

/-- At first nothing but the name of the definition is in scope. -/
theorem binds_own (own : Name) (binding : Binding) : Binds own [] [[(own, binding)]] := by
  refine ⟨nofun, fun name hne _ => ?_⟩
  rw [lookupIn, Assoc.get?, if_neg (Ne.symm hne)]
  rfl

/-! ### Runs -/

theorem run_inferParams (context : Context) {params : List Pattern} (hsimple : ∀ p ∈ params, p.IsSimple) (types : List Ty) (w : Work) :
    ∃ bound log, inferParams params types context w =
        (.ok bound, { w with pass := { w.pass with nodeTypes := log ++ w.pass.nodeTypes } }) ∧
      bound.map (fun entry => (entry.1.name, entry.2)) = Pattern.givenAll params types ∧
      ∀ entry ∈ log, entry.2 ∈ types := by
  induction params generalizing types w with
  | nil => exact ⟨[], [], rfl, rfl, fun entry hentry => absurd hentry List.not_mem_nil⟩
  | cons p ps ih =>
    obtain ⟨hp, hps⟩ := List.forall_mem_cons.mp hsimple
    cases types with
    | nil => exact ⟨[], [], rfl, rfl, fun entry hentry => absurd hentry List.not_mem_nil⟩
    | cons t ts =>
      have hfirst : ∃ bound, inferPattern .parameter p t context w =
            (.ok bound, { w with pass := { w.pass with nodeTypes := (p.id, t) :: w.pass.nodeTypes } }) ∧
          bound.map (fun entry => (entry.1.name, entry.2)) = p.given t := by
        obtain ⟨id, pos, kind⟩ := p
        cases kind with
        | any => exact ⟨[], by rw [inferPattern]; rfl, rfl⟩
        | var name => exact ⟨[(⟨pos, name⟩, t)], by rw [inferPattern]; rfl, rfl⟩
        | _ => exact hp.elim
      obtain ⟨bound, hrun, hbound⟩ := hfirst
      obtain ⟨more, log, hrest, hmore, hlog⟩ := ih hps ts _
      refine ⟨bound ++ more, log ++ [(p.id, t)], ?_, ?_, fun entry hentry => ?_⟩
      · rw [inferParams, run_bind_ok _ hrun, run_bind_ok _ hrest]
        rw [List.append_assoc]
        rfl
      · rw [List.map_append, hbound, hmore, Pattern.givenAll]
      · rcases List.mem_append.mp hentry with hentry | hentry
        · exact List.mem_cons_of_mem _ (hlog entry hentry)
        · rw [List.mem_singleton.mp hentry]
          exact List.mem_cons_self

theorem exists_run_shadows (context : Context) (hflag : w.session.flag = none) (name : Name) :
    ∃ hidden, shadows name context w = (.ok hidden, w) := by
  have hpass : getPass context w = (.ok w.pass, w) := rfl
  have hfind : session (SessionM.findValues (.plain name)) context w =
      (.ok (context.engine.scope.findValues (.plain name)), w) := by
    rw [run_session, SessionM.run_findValues_of_none hflag]
  rw [shadows, run_bind_ok _ hpass]
  split
  · exact ⟨true, rfl⟩
  · rw [hidesDeclaration, run_bind_ok _ hfind]
    exact ⟨_, rfl⟩

/-- A name that is new among those declared with it conflicts with names further out only. -/
theorem exists_run_declare (context : Context) (hflag : w.session.flag = none) {taken : List Name} {name : NameAt}
    (hnew : name.name ∉ taken) : ∃ conflicts, declare taken name context w =
        (.ok (name.name :: taken), w.reporting conflicts) ∧ ∀ p ∈ conflicts, context.Tolerates p := by
  have hengine : engine context w = (.ok context.engine, w) := rfl
  have hquiet : w.reporting [] = w := by simp [Work.reporting]
  unfold declare
  rw [run_bind_ok _ hengine]
  cases hshadowing : context.engine.shadowing with
  | sameScope =>
    refine ⟨[], ?_, nofun⟩
    rw [hquiet]
    simp only [List.contains_eq_mem, hnew, decide_false, pure_bind, Bool.or_self, Bool.false_eq_true, if_false]
    rfl
  | allScopes =>
    obtain ⟨hidden, hrun⟩ := exists_run_shadows context hflag name.name
    dsimp only
    rw [run_bind_ok _ hrun]
    simp only [List.contains_eq_mem, hnew, decide_false, Bool.false_or]
    cases hidden with
    | false =>
      refine ⟨[], ?_, nofun⟩
      rw [hquiet]
      rfl
    | true => exact ⟨[⟨name.pos, .conflictingName⟩], rfl, List.forall_mem_singleton.mpr ⟨rfl, hshadowing⟩⟩

theorem exists_run_bindAll (context : Context) (taken : List Name) (hflag : w.session.flag = none) {bound : Bound}
    {scope : Scope} (hscopes : w.pass.scopes = scope :: scopes) (hnodup : (bound.map (fun entry => entry.1.name)).Nodup)
    (hnew : ∀ entry ∈ bound, entry.1.name ∉ taken) :
    ∃ scope' conflicts, bindAll taken bound context w = (.ok (), { w with pass := { w.pass with
        scopes := scope' :: scopes, problems := w.pass.problems ++ conflicts } }) ∧
      (∀ p ∈ conflicts, context.Tolerates p) ∧ ∀ name, Assoc.get? scope' name =
        ((Assoc.get? (bound.map (fun entry => (entry.1.name, entry.2))) name).map .mono).or (Assoc.get? scope name) := by
  induction bound generalizing w taken scope with
  | nil =>
    refine ⟨scope, [], ?_, nofun, fun name => by simp [Assoc.get?]⟩
    rw [← hscopes, List.append_nil]
    rfl
  | cons entry rest ih =>
    obtain ⟨name, t⟩ := entry
    rw [List.map_cons, List.nodup_cons] at hnodup
    obtain ⟨hnew₁, hnew⟩ := List.forall_mem_cons.mp hnew
    have hother : ∀ entry ∈ rest, entry.1.name ≠ name.name := by
      rintro entry hentry heq
      exact hnodup.1 (List.mem_map.mpr ⟨entry, hentry, heq⟩)
    obtain ⟨conflicts, hdeclare, hconflicts⟩ := exists_run_declare context hflag hnew₁
    have hbind : bind name.name (.mono t) context (w.reporting conflicts) = (.ok (), { w with pass := { w.pass with
        scopes := Assoc.set scope name.name (.mono t) :: scopes, problems := w.pass.problems ++ conflicts } }) := by
      rw [bind, modifyScope, run_modifyPass, Work.reporting, hscopes]
    obtain ⟨scope', more, hrun, hmore, hscope'⟩ := ih (w := { w with pass := { w.pass with
        scopes := Assoc.set scope name.name (.mono t) :: scopes, problems := w.pass.problems ++ conflicts } })
      (name.name :: taken) hflag rfl hnodup.2
      (fun entry hentry hmem => (List.mem_cons.mp hmem).elim (hother entry hentry) (hnew entry hentry))
    refine ⟨scope', conflicts ++ more, ?_, fun p hp => ?_, fun other => ?_⟩
    · rw [bindAll, run_bind_ok _ hdeclare, run_bind_ok _ hbind, hrun, List.append_assoc]
    · exact (List.mem_append.mp hp).elim (hconflicts p) (hmore p)
    · rw [hscope', List.map_cons, Assoc.get?]
      by_cases heq : name.name = other
      · subst heq
        have hnone : Assoc.get? (rest.map (fun entry => (entry.1.name, entry.2))) name.name = none := by
          refine Assoc.get?_eq_none fun hmem => ?_
          obtain ⟨entry, hentry, heq⟩ := List.mem_map.mp (List.map_map ▸ hmem)
          exact hother entry hentry heq
        rw [if_pos rfl, Assoc.get?_set_self, hnone]
        rfl
      · rw [if_neg heq, Assoc.get?_set_of_ne _ _ heq]

/-- Inference under parameters is that of what is under them, with their names and types in scope. -/
theorem run_inside (context : Context) (hflag : w.session.flag = none) (hbinds : Binds own Γ w.pass.scopes)
    {params : List Pattern} (hsimple : ∀ p ∈ params, p.IsSimple) (hnodup : (Pattern.names params).Nodup)
    {taken : List Name} (hnew : ∀ name ∈ Pattern.names params, name ∉ taken) {types : List Ty}
    (hlength : params.length = types.length) (levels : Nat) :
    ∃ scope log conflicts, Binds own (Pattern.givenAll params types ++ Γ) (scope :: w.pass.scopes) ∧
      (∀ entry ∈ log, entry.2 ∈ types) ∧ (∀ p ∈ conflicts, context.Tolerates p) ∧
      ∀ {α β : Type} (work : InferM α) (rest : α → InferM β),
        (do
          pushScope []
          let bound ← inferParams params types
          bindAll taken bound
          let a ← deeper levels work
          popScope
          rest a) context w =
        (do
          let a ← work
          modifyPass (Pass.leaving levels)
          rest a) context (w.inside scope log conflicts levels) := by
  obtain ⟨bound, log, hparams, hbound, hlog⟩ := run_inferParams context hsimple types
    { w with pass := { w.pass with scopes := [] :: w.pass.scopes } }
  have hnames : bound.map (fun entry => entry.1.name) = Pattern.names params := by
    rw [← Pattern.map_fst_givenAll hsimple hlength, ← hbound, List.map_map]
    rfl
  have hmem : ∀ entry ∈ bound, entry.1.name ∈ Pattern.names params := by
    intro entry hentry
    exact hnames ▸ List.mem_map_of_mem hentry
  obtain ⟨scope, conflicts, hall, hconflicts, hscope⟩ := exists_run_bindAll context taken (w := { w with pass := { w.pass with
      scopes := [] :: w.pass.scopes, nodeTypes := log ++ w.pass.nodeTypes } }) hflag rfl
    (hnames ▸ hnodup) (fun entry hentry => hnew _ (hmem entry hentry))
  refine ⟨scope, log, conflicts, hbinds.push fun name => ?_, hlog, hconflicts, fun work rest => ?_⟩
  · rw [hscope, hbound, Assoc.get?, Option.or_none]
  · rw [pushScope, run_bind_ok _ (run_modifyPass _), run_bind_ok _ hparams, run_bind_ok _ hall, deeper]
    simp only [bind_assoc, pure_bind]
    rw [run_bind_ok _ (run_modifyPass _)]
    change (work >>= _) context (w.inside scope log conflicts levels) = _
    rcases hwork : work context (w.inside scope log conflicts levels) with ⟨fault | a, w₁⟩
    · rw [run_bind_error _ hwork, run_bind_error _ hwork]
    · rw [run_bind_ok _ hwork, run_bind_ok _ hwork, run_bind_ok _ (run_modifyPass _), popScope,
        run_bind_ok _ (run_modifyPass _), run_bind_ok _ (run_modifyPass _)]
      rfl

/-- A new scope is like one of parameters that are there already. -/
theorem run_pushScope (context : Context) (scope : Scope) (w : Work) :
    pushScope scope context w = (.ok (), w.inside scope [] [] 0) := by
  rw [pushScope, run_modifyPass, Work.inside, List.append_nil]
  rfl

theorem run_isCancelled (context : Context) (hflag : w.session.flag = none) (hgoing : w.pass.cancelled = false) :
    isCancelled context w = (.ok false, w) := by
  have hpass : getPass context w = (.ok w.pass, w) := rfl
  have hsession : session SessionM.isCancelled context w = (.ok false, w) := by
    rw [run_session, SessionM.run_isCancelled_of_none hflag]
  unfold isCancelled
  rw [run_bind_ok _ hpass, hgoing, if_neg (by simp)]
  exact run_bind_ok _ hsession

/-! ### References -/

variable {elsewhere : Elsewhere}

theorem run_localReference_of_bound (hbinds : Binds own Γ w.pass.scopes) {pos : Nat} {name : Name} {v : TyVar}
    (hget : Assoc.get? Γ name = some (.var v)) :
    localReference elsewhere pos name context w = (.ok (some (.var v)), w) := by
  obtain ⟨inner, hlookup⟩ := hbinds.bound name _ hget
  have hrun : lookup name context w = (.ok (some (inner, .mono (.var v))), w) := by rw [← hlookup]; rfl
  rw [localReference, run_bind_ok _ hrun]
  rfl

theorem run_localReference_of_free (hbinds : Binds own Γ w.pass.scopes) {pos : Nat} {name : Name} (hown : name ≠ own)
    (hget : Assoc.get? Γ name = none) : localReference elsewhere pos name context w = (.ok none, w) := by
  have hrun : lookup name context w = (.ok none, w) := by rw [← hbinds.free name hown hget]; rfl
  rw [localReference, run_bind_ok _ hrun]
  rfl

/-- A name that is no parameter and has one meaning elsewhere gets a copy of that type. -/
theorem run_reference_of_external (hflag : w.session.flag = none) (hbinds : Binds own Γ w.pass.scopes) {pos : Nat}
    {name : Ref} {t : Ty} (hlocal : name.qualifier = none → name.name ≠ own ∧ Assoc.get? Γ name.name = none)
    (hfind : context.engine.scope.findValues name = [.external t]) :
    reference elsewhere pos name context w = instantiate (Scheme.closed t) context w := by
  have hglobal : globalReference elsewhere pos name context w = instantiate (Scheme.closed t) context w := by
    have hrun : session (SessionM.findValues name) context w = (.ok [.external t], w) := by
      rw [run_session, SessionM.run_findValues_of_none hflag, hfind]
    rw [globalReference, run_bind_ok _ hrun]
    rfl
  unfold reference
  cases hqualifier : name.qualifier with
  | some _ => exact hglobal
  | none =>
    obtain ⟨hown, hget⟩ := hlocal hqualifier
    dsimp only
    rw [run_bind_ok _ (run_localReference_of_free hbinds hown hget)]
    exact hglobal

theorem run_reference_of_param (hbinds : Binds own Γ w.pass.scopes) {pos : Nat} {name : Name} {v : TyVar}
    (hget : Assoc.get? Γ name = some (.var v)) :
    reference elsewhere pos ⟨none, name⟩ context w = (.ok (.var v), w) := by
  unfold reference
  dsimp only
  rw [run_bind_ok _ (run_localReference_of_bound hbinds hget)]
  rfl

end InferM

end ElmInference
