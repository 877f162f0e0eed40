import ElmInference.Proofs.Infer.Scopes
import Mathlib.Data.List.Forall2

/-!
# Definitions that wait

A `let` definition without signature waits under each of its names until one of them is needed. A scope is coherent
when its names tell this: what waits under one name of a definition waits under all of them. Inferring a definition
gives all its names another meaning at once and touches no other name, so a coherent scope stays coherent, and
whatever is not waiting is found there unchanged, however many definitions are inferred on the way.
-/

namespace ElmInference

def Binding.IsPending : Binding → Prop
  | .pending _ _ _ => True
  | _ => False

theorem Binding.IsPending.eq_pending {binding : Binding} (h : binding.IsPending) :
    ∃ slot definition depth, binding = .pending slot definition depth := by
  cases binding with
  | pending slot definition depth => exact ⟨slot, definition, depth, rfl⟩
  | _ => exact h.elim

def Definition.names {ε : Type} (d : Definition ε) : List Name :=
  d.head.boundNames.map NameAt.name

namespace Scope

/-- Whether each waiting definition waits under its own names, and under all of them. -/
structure Coherent (scope : Scope) : Prop where
  named : ∀ name slot d depth, Assoc.get? scope name = some (.pending slot d depth) → name ∈ d.names
  shared : ∀ name slot d depth, Assoc.get? scope name = some (.pending slot d depth) →
    ∀ other ∈ d.names, Assoc.get? scope other = some (.pending slot d depth)

theorem get?_single {name other : Name} {binding found : Binding}
    (h : Assoc.get? [(name, binding)] other = some found) : other = name ∧ found = binding := by
  rw [Assoc.get?] at h
  split at h
  · next heq =>
    cases h
    exact ⟨heq.symm, rfl⟩
  · cases h

theorem coherent_single {name : Name} {slot : Nat} {d : ValueDecl} {depth : Nat} (h : d.names = [name]) :
    Coherent [(name, .pending slot d depth)] := by
  refine ⟨fun other slot' d' depth' hget => ?_, fun other slot' d' depth' hget => ?_⟩
  · obtain ⟨rfl, heq⟩ := get?_single hget
    cases heq
    exact h ▸ List.mem_singleton_self _
  · obtain ⟨rfl, heq⟩ := get?_single hget
    cases heq
    rw [h]
    intro other hother
    rw [List.mem_singleton.mp hother]
    exact if_pos rfl

theorem coherent_single_of_not_isPending {name : Name} {binding : Binding} (h : ¬ binding.IsPending) :
    Coherent [(name, binding)] := by
  refine ⟨fun other slot d depth hget => ?_, fun other slot d depth hget => ?_⟩ <;>
  · cases (get?_single hget).2
    exact absurd trivial h

/-- What becomes of a scope while definitions of it are inferred. -/
structure Settles (scope scope' : Scope) : Prop where
  /-- No definition starts to wait. -/
  waiting : ∀ name binding, Assoc.get? scope' name = some binding → binding.IsPending →
    Assoc.get? scope name = some binding
  coherent : Coherent scope → Coherent scope'
  /-- What does not wait stays. -/
  kept : Coherent scope → ∀ name binding, Assoc.get? scope name = some binding → ¬ binding.IsPending →
    Assoc.get? scope' name = some binding

theorem Settles.refl (scope : Scope) : Settles scope scope :=
  ⟨fun _ _ h _ => h, fun h => h, fun _ _ _ h _ => h⟩

theorem Settles.trans {scope scope₁ scope' : Scope} (h : Settles scope scope₁) (h' : Settles scope₁ scope') :
    Settles scope scope' where
  waiting _ _ hget hpending := h.waiting _ _ (h'.waiting _ _ hget hpending) hpending
  coherent hcoherent := h'.coherent (h.coherent hcoherent)
  kept hcoherent _ _ hget hpending :=
    h'.kept (h.coherent hcoherent) _ _ (h.kept hcoherent _ _ hget hpending) hpending

/-- Whether some names have got new meanings, none of which is to wait, and all others are as before. -/
structure Rebinds (names : List Name) (scope scope' : Scope) : Prop where
  others : ∀ name, name ∉ names → Assoc.get? scope' name = Assoc.get? scope name
  settled : ∀ name ∈ names, ∀ binding, Assoc.get? scope' name = some binding → ¬ binding.IsPending

/-- A scope stays coherent when the definitions under the other names do not have these names too. -/
theorem Rebinds.coherent {names : List Name} {scope scope' : Scope} (h : Rebinds names scope scope')
    (hcoherent : Coherent scope)
    (hapart : ∀ name slot d depth, name ∉ names → Assoc.get? scope name = some (.pending slot d depth) →
      ∀ other ∈ d.names, other ∉ names) : Coherent scope' := by
  have hbefore : ∀ name slot d depth, Assoc.get? scope' name = some (.pending slot d depth) →
      name ∉ names ∧ Assoc.get? scope name = some (.pending slot d depth) := by
    intro name slot d depth hget
    have hname : name ∉ names := fun hname => h.settled name hname _ hget trivial
    exact ⟨hname, by rw [← h.others name hname]; exact hget⟩
  refine ⟨fun name slot d depth hget => ?_, fun name slot d depth hget other hother => ?_⟩
  · exact hcoherent.named _ _ _ _ (hbefore _ _ _ _ hget).2
  · obtain ⟨hname, hget⟩ := hbefore _ _ _ _ hget
    rw [h.others other (hapart _ _ _ _ hname hget other hother)]
    exact hcoherent.shared _ _ _ _ hget other hother

/-- A waiting definition gets a meaning while it is inferred, and another one when that is done. -/
theorem settles_of_rebinds {name : Name} {slot : Nat} {d : ValueDecl} {depth : Nat}
    {scope scope₁ scope₂ scope' : Scope} (hget : Assoc.get? scope name = some (.pending slot d depth))
    (hstart : Rebinds d.names scope scope₁) (hbound : ∀ other ∈ d.names, (Assoc.get? scope₁ other).isSome)
    (hbody : Settles scope₁ scope₂) (hend : Rebinds d.names scope₂ scope') : Settles scope scope' := by
  have hcoherent₁ : Coherent scope → Coherent scope₁ := by
    refine fun hcoherent => hstart.coherent hcoherent fun name' slot' d' depth' hname' hget' other hother hmem => ?_
    -- A name of both definitions would make them one.
    have hboth := (hcoherent.shared _ _ _ _ hget other hmem).symm.trans (hcoherent.shared _ _ _ _ hget' other hother)
    cases hboth
    exact hname' (hcoherent.named _ _ _ _ hget')
  have hkept₂ : Coherent scope → ∀ other ∈ d.names, ∃ binding, Assoc.get? scope₂ other = some binding ∧
      ¬ binding.IsPending := by
    intro hcoherent other hother
    obtain ⟨binding, hget₁⟩ := Option.isSome_iff_exists.mp (hbound other hother)
    have hsettled := hstart.settled other hother binding hget₁
    exact ⟨binding, hbody.kept (hcoherent₁ hcoherent) _ _ hget₁ hsettled, hsettled⟩
  refine ⟨fun other binding hget' hpending => ?_, fun hcoherent => ?_,
    fun hcoherent other binding hget' hpending => ?_⟩
  · by_cases hother : other ∈ d.names
    · exact absurd hpending (hend.settled other hother binding hget')
    · rw [hend.others other hother] at hget'
      rw [← hstart.others other hother]
      exact hbody.waiting _ _ hget' hpending
  · refine hend.coherent (hbody.coherent (hcoherent₁ hcoherent)) fun name' slot' d' depth' _ hget' other hother hmem => ?_
    obtain ⟨binding, hget₂, hsettled⟩ := hkept₂ hcoherent other hmem
    have hshared := (hbody.coherent (hcoherent₁ hcoherent)).shared _ _ _ _ hget' other hother
    rw [hget₂] at hshared
    cases hshared
    exact hsettled trivial
  · by_cases hother : other ∈ d.names
    · rw [hcoherent.shared _ _ _ _ hget other hother] at hget'
      cases hget'
      exact absurd trivial hpending
    · rw [hend.others other hother]
      refine hbody.kept (hcoherent₁ hcoherent) _ _ ?_ hpending
      rw [hstart.others other hother]
      exact hget'

theorem get?_foldl_set_of_notMem (names : List NameAt) {binding : Binding} {scope : Scope} {name : Name}
    (h : name ∉ names.map NameAt.name) :
    Assoc.get? (names.foldl (fun scope n => Assoc.set scope n.name binding) scope) name = Assoc.get? scope name := by
  induction names generalizing scope with
  | nil => rfl
  | cons n names ih =>
    obtain ⟨hne, hrest⟩ := not_or.mp (mt List.mem_cons.mpr h)
    rw [List.foldl_cons, ih hrest, Assoc.get?_set_of_ne _ _ (Ne.symm hne)]

theorem get?_foldl_set_of_mem (names : List NameAt) {binding : Binding} {scope : Scope} {name : Name}
    (h : name ∈ names.map NameAt.name) :
    Assoc.get? (names.foldl (fun scope n => Assoc.set scope n.name binding) scope) name = some binding := by
  induction names generalizing scope with
  | nil => cases h
  | cons n names ih =>
    rw [List.foldl_cons]
    by_cases hrest : name ∈ names.map NameAt.name
    · exact ih hrest
    · rcases List.mem_cons.mp h with rfl | hmem
      · rw [get?_foldl_set_of_notMem names hrest, Assoc.get?_set_self]
      · exact absurd hmem hrest

theorem get?_foldl_remove (names : List NameAt) (scope : Scope) (name : Name) :
    Assoc.get? (names.foldl (fun scope n => Assoc.remove scope n.name) scope) name =
      if name ∈ names.map NameAt.name then none else Assoc.get? scope name := by
  induction names generalizing scope with
  | nil => rfl
  | cons n names ih =>
    rw [List.foldl_cons, ih]
    by_cases hn : n.name = name
    · subst hn
      simp
    · simp [Assoc.get?_remove_of_ne _ hn, Ne.symm hn]

theorem rebinds_set (scope : Scope) (name : Name) {binding : Binding} (h : ¬ binding.IsPending) :
    Rebinds [name] scope (Assoc.set scope name binding) := by
  refine ⟨fun other hother => ?_, fun other hother binding' hget => ?_⟩
  · exact Assoc.get?_set_of_ne _ _ (Ne.symm (mt List.mem_singleton.mpr hother))
  · rw [List.mem_singleton.mp hother, Assoc.get?_set_self] at hget
    cases hget
    exact h

/-- A name that loses its meaning first is bound as any other name. -/
theorem rebinds_set_remove (scope : Scope) (name : Name) {binding : Binding} (h : ¬ binding.IsPending) :
    Rebinds [name] scope (Assoc.set (Assoc.remove scope name) name binding) := by
  obtain ⟨hothers, hsettled⟩ := rebinds_set (Assoc.remove scope name) name h
  refine ⟨fun other hother => ?_, hsettled⟩
  rw [hothers other hother, Assoc.get?_remove_of_ne _ (Ne.symm (mt List.mem_singleton.mpr hother))]

theorem rebinds_foldl_set (names : List NameAt) (scope : Scope) {binding : Binding} (h : ¬ binding.IsPending) :
    Rebinds (names.map NameAt.name) scope (names.foldl (fun scope n => Assoc.set scope n.name binding) scope) := by
  refine ⟨fun other hother => get?_foldl_set_of_notMem _ hother, fun other hother binding' hget => ?_⟩
  cases (get?_foldl_set_of_mem names hother).symm.trans hget
  exact h

theorem isSome_get?_foldl_set (names : List NameAt) (scope : Scope) (binding : Binding) {name : Name}
    (h : name ∈ names.map NameAt.name) :
    (Assoc.get? (names.foldl (fun scope n => Assoc.set scope n.name binding) scope) name).isSome :=
  Option.isSome_iff_exists.mpr ⟨_, get?_foldl_set_of_mem names h⟩

end Scope

namespace InferM

variable {α β : Type} {context : Context} {w w' : Work}

/-! ### Scopes around a computation -/

/-- Whether the scopes around the `k` innermost ones become the scopes around the `k'` innermost ones, with nothing
changed but by definitions that were waiting there. -/
def Steady (context : Context) (k k' : Nat) (x : InferM α) : Prop :=
  ∀ w a w', x context w = (.ok a, w') →
    List.Forall₂ Scope.Settles (w.pass.scopes.drop k) (w'.pass.scopes.drop k') ∧
      w'.pass.typeVars = w.pass.typeVars

theorem settles_refl (scopes : List Scope) : List.Forall₂ Scope.Settles scopes scopes :=
  List.forall₂_same.mpr fun scope _ => Scope.Settles.refl scope

theorem settles_trans {scopes scopes₁ scopes' : List Scope} (h : List.Forall₂ Scope.Settles scopes scopes₁)
    (h' : List.Forall₂ Scope.Settles scopes₁ scopes') : List.Forall₂ Scope.Settles scopes scopes' := by
  induction h generalizing scopes' with
  | nil =>
    cases h'
    exact .nil
  | cons hfirst _ ih =>
    cases h' with
    | cons hfirst' hrest' => exact .cons (hfirst.trans hfirst') (ih hrest')

theorem Keeps.steady {x : InferM α} (h : Quiet context x) (k : Nat) : Steady context k k x := by
  intro w a w' hrun
  have hnames := h w a w' hrun
  rw [show w'.pass.scopes = w.pass.scopes from congrArg Prod.fst hnames]
  exact ⟨settles_refl _, congrArg Prod.snd hnames⟩

theorem Contained.steady {x : InferM α} (h : Contained True True x) (k : Nat) : Steady context k k x :=
  h.quiet.steady k

theorem Keeps.calm {x : InferM α} (h : Still context x) (k : Nat) : Steady context k k x :=
  h.quiet.steady k

theorem steady_modifyRest {f : Pass → Pass} {k : Nat}
    (h : ∀ pass, (f pass).scopes = pass.scopes ∧ (f pass).typeVars = pass.typeVars) :
    Steady context k k (modifyPass f) :=
  (keeps_modifyPass fun pass => Prod.ext (h pass).1 (h pass).2).steady k

theorem steady_pure (a : α) (k : Nat) : Steady context k k (pure a) :=
  (keeps_pure a : Quiet context (pure a)).steady k

theorem Steady.bind {x : InferM α} {f : α → InferM β} {k k₁ k' : Nat} (hx : Steady context k k₁ x)
    (hf : ∀ a, Steady context k₁ k' (f a)) : Steady context k k' (x >>= f) := by
  intro w b w' hrun
  obtain ⟨a, w₁, hrun₁, hrun₂⟩ := run_bind_inv hrun
  obtain ⟨hscopes, hvars⟩ := hx _ _ _ hrun₁
  obtain ⟨hscopes', hvars'⟩ := hf a _ _ _ hrun₂
  exact ⟨settles_trans hscopes hscopes', hvars'.trans hvars⟩

theorem Steady.inside {x : InferM α} (h : Steady context 0 0 x) (k : Nat) : Steady context k k x :=
  fun w a w' hrun => ⟨List.forall₂_drop k (h w a w' hrun).1, (h w a w' hrun).2⟩

theorem steady_pushScope (scope : Scope) (k : Nat) : Steady context k (k + 1) (pushScope scope) := by
  intro w a w' hrun
  cases hrun
  exact ⟨settles_refl _, rfl⟩

theorem steady_popScope (k : Nat) : Steady context (k + 1) k popScope := by
  intro w a w' hrun
  cases hrun
  refine ⟨?_, rfl⟩
  change List.Forall₂ _ _ (w.pass.scopes.tail.drop k)
  rw [List.drop_tail]
  exact settles_refl _

theorem run_modifyPass (f : Pass → Pass) : modifyPass f context w = (.ok (), { w with pass := f w.pass }) := rfl

theorem run_modifyScope {f : Scope → Scope} {scope : Scope} {outer : List Scope}
    (h : w.pass.scopes = scope :: outer) :
    modifyScope f context w = (.ok (), { w with pass := { w.pass with scopes := f scope :: outer } }) := by
  rw [modifyScope, run_modifyPass, h]

theorem run_modifyScope_nil {f : Scope → Scope} (h : w.pass.scopes = []) :
    modifyScope f context w = (.ok (), w) := by
  rw [modifyScope, run_modifyPass, h]

theorem run_bindName {name : Name} {binding : Binding} {scope : Scope} {outer : List Scope}
    (h : w.pass.scopes = scope :: outer) : InferM.bind name binding context w =
      (.ok (), { w with pass := { w.pass with scopes := Assoc.set scope name binding :: outer } }) :=
  run_modifyScope h

theorem run_unbindName {name : Name} {scope : Scope} {outer : List Scope} (h : w.pass.scopes = scope :: outer) :
    unbind name context w =
      (.ok (), { w with pass := { w.pass with scopes := Assoc.remove scope name :: outer } }) :=
  run_modifyScope h

theorem steady_modifyScope (f : Scope → Scope) (k : Nat) : Steady context (k + 1) (k + 1) (modifyScope f) := by
  intro w a w' hrun
  cases hscopes : w.pass.scopes with
  | nil =>
    rw [run_modifyScope_nil hscopes] at hrun
    cases hrun
    rw [hscopes]
    exact ⟨settles_refl _, rfl⟩
  | cons scope outer =>
    rw [run_modifyScope hscopes] at hrun
    cases hrun
    exact ⟨settles_refl _, rfl⟩

theorem steady_forM {f : α → InferM PUnit} {k : Nat} (h : ∀ a, Steady context k k (f a)) (xs : List α) :
    Steady context k k (xs.forM f) := by
  induction xs with
  | nil => exact steady_pure _ k
  | cons x xs ih => exact (h x).bind fun _ => ih

theorem steady_bindAll (taken : List Name) (bound : Bound) (k : Nat) :
    Steady context (k + 1) (k + 1) (bindAll taken bound) := by
  induction bound generalizing taken with
  | nil => exact steady_pure _ _
  | cons entry rest ih =>
    exact ((contained_declare taken entry.1).steady _).bind fun taken => (steady_modifyScope _ k).bind fun _ => ih taken

theorem steady_bindGeneralized (bound : Bound) (k : Nat) :
    Steady context (k + 1) (k + 1) (bindGeneralized bound) := by
  induction bound with
  | nil => exact steady_pure _ _
  | cons entry rest ih =>
    exact ((contained_generalize _).steady _).bind fun _ => (steady_modifyScope _ k).bind fun _ => ih

theorem steady_deeper (levels : Nat) {work : InferM α} {k : Nat} (h : Steady context k k work) :
    Steady context k k (deeper levels work) := by
  refine Steady.bind ?_ fun _ => h.bind fun _ => Steady.bind ?_ fun _ => steady_pure _ k
  · exact steady_modifyRest fun _ => ⟨rfl, rfl⟩
  · exact steady_modifyRest fun _ => ⟨rfl, rfl⟩

/-! ### Names of patterns -/

theorem length_freshVars {name : Name} {xs : List β} {types : List Ty}
    (hrun : freshVars name xs context w = (.ok types, w')) : types.length = xs.length := by
  induction xs generalizing w types with
  | nil =>
    cases hrun
    rfl
  | cons x xs ih =>
    rw [freshVars, List.mapM_cons] at hrun
    obtain ⟨t, w₁, -, hrun⟩ := run_bind_inv hrun
    obtain ⟨rest, w₂, hrest, hrun⟩ := run_bind_inv hrun
    cases hrun
    exact congrArg (· + 1) (ih hrest)

theorem bound_of_recorded {id : NodeId} {t : Ty} {bound bound' : Bound}
    (hrun : (do record id t; return bound : InferM Bound) context w = (.ok bound', w')) : bound' = bound := by
  cases hrun
  rfl

mutual

/-- A pattern gives types to the names it binds, in source order. -/
theorem map_fst_inferPattern {w w' : Work} (place : PatternPlace) (p : Pattern) {t : Ty} {bound : Bound}
    (hrun : inferPattern place p t context w = (.ok bound, w')) : bound.map Prod.fst = p.boundNames := by
  match p with
  | .mk id pos .any | .mk id pos (.var name) =>
    rw [inferPattern] at hrun
    rw [bound_of_recorded hrun]
    rfl
  | .mk id pos .unit =>
    rw [inferPattern] at hrun
    obtain ⟨_, _, -, hrun⟩ := run_bind_inv hrun
    rw [bound_of_recorded hrun]
    rfl
  | .mk id pos (.literal kind) =>
    rw [inferPattern] at hrun
    obtain ⟨_, _, -, hrun⟩ := run_bind_inv hrun
    obtain ⟨_, _, -, hrun⟩ := run_bind_inv hrun
    obtain ⟨_, _, -, hrun⟩ := run_bind_inv hrun
    rw [bound_of_recorded hrun]
    rfl
  | .mk id pos (.tuple items) =>
    rw [inferPattern] at hrun
    obtain ⟨_, _, -, hrun⟩ := run_bind_inv hrun
    obtain ⟨_, _, -, hrun⟩ := run_bind_inv hrun
    obtain ⟨_, _, hitems, hrun⟩ := run_bind_inv hrun
    rw [bound_of_recorded hrun]
    exact map_fst_inferPatterns place items hitems
  | .mk id pos (.list items) | .mk id pos (.cons items) =>
    rw [inferPattern] at hrun
    obtain ⟨_, _, -, hrun⟩ := run_bind_inv hrun
    obtain ⟨_, _, -, hrun⟩ := run_bind_inv hrun
    obtain ⟨_, _, -, hrun⟩ := run_bind_inv hrun
    obtain ⟨_, _, hitems, hrun⟩ := run_bind_inv hrun
    rw [bound_of_recorded hrun]
    exact map_fst_inferPatterns place items hitems
  | .mk id pos (.record fields) =>
    rw [inferPattern] at hrun
    obtain ⟨types, _, htypes, hrun⟩ := run_bind_inv hrun
    obtain ⟨_, _, -, hrun⟩ := run_bind_inv hrun
    obtain ⟨fits, _, -, hrun⟩ := run_bind_inv hrun
    rw [bound_of_recorded hrun]
    refine List.map_fst_zip (Nat.le_of_eq ?_)
    split
    · exact (length_freshVars htypes).symm
    · rw [List.length_map]
  | .mk id pos (.constructor name args) =>
    rw [inferPattern] at hrun
    have hrest : ∀ {w : Work} {types : List Ty}, (do
        let bound ← inferPatterns place args types
        record id t
        return bound : InferM Bound) context w = (.ok bound, w') →
        bound.map Prod.fst = Pattern.boundNamesList args := by
      intro w types hrun
      obtain ⟨_, _, hargs, hrun⟩ := run_bind_inv hrun
      rw [bound_of_recorded hrun]
      exact map_fst_inferPatterns place args hargs
    obtain ⟨found, _, -, hrun⟩ := run_bind_inv hrun
    split at hrun
    · exact hrest hrun
    · split at hrun
      · obtain ⟨_, _, -, hrun⟩ := run_bind_inv hrun
        exact hrest hrun
      · obtain ⟨_, _, -, hrun⟩ := run_bind_inv hrun
        exact hrest hrun
  | .mk id pos (.named pattern name) =>
    rw [inferPattern] at hrun
    obtain ⟨inner, _, hinner, hrun⟩ := run_bind_inv hrun
    rw [bound_of_recorded hrun, List.map_append, map_fst_inferPattern place pattern hinner]
    rfl

theorem map_fst_inferPatterns {w w' : Work} (place : PatternPlace) (ps : List Pattern) {types : List Ty}
    {bound : Bound} (hrun : inferPatterns place ps types context w = (.ok bound, w')) :
    bound.map Prod.fst = Pattern.boundNamesList ps := by
  match ps with
  | [] =>
    rw [inferPatterns] at hrun
    cases hrun
    rfl
  | p :: ps =>
    rw [inferPatterns] at hrun
    obtain ⟨first, _, hfirst, hrun⟩ := run_bind_inv hrun
    obtain ⟨rest, _, hrest, hrun⟩ := run_bind_inv hrun
    cases hrun
    rw [List.map_append, map_fst_inferPattern place p hfirst, map_fst_inferPatterns place ps hrest]
    rfl

end

theorem map_fst_inferDestructuring {inferBody : Expr → InferM Ty} {pattern : Pattern} {body : Expr} {out : Ty × Bound}
    (hrun : inferDestructuring inferBody pattern body context w = (.ok out, w')) :
    out.2.map (·.1.name) = pattern.boundNames.map NameAt.name := by
  obtain ⟨t, w₁, -, hrun⟩ := run_bind_inv hrun
  obtain ⟨bound, w₂, hbound, hrun⟩ := run_bind_inv hrun
  cases hrun
  rw [← map_fst_inferPattern _ _ hbound, List.map_map]
  rfl

/-! ### Names that get another meaning -/

theorem run_bindNames (names : List NameAt) (binding : Binding) {scope : Scope} {outer : List Scope}
    (h : w.pass.scopes = scope :: outer) : names.forM (fun n => InferM.bind n.name binding) context w =
      (.ok (), { w with pass := { w.pass with
        scopes := names.foldl (fun scope n => Assoc.set scope n.name binding) scope :: outer } }) := by
  induction names generalizing w scope with
  | nil =>
    rw [List.foldl_nil, ← h]
    rfl
  | cons n names ih =>
    change (InferM.bind n.name binding >>= fun _ => names.forM fun n => InferM.bind n.name binding) context w = _
    rw [run_bind_ok _ (run_bindName h), ih rfl]
    rfl

theorem run_unbindNames (names : List NameAt) {scope : Scope} {outer : List Scope}
    (h : w.pass.scopes = scope :: outer) : names.forM (fun n => unbind n.name) context w =
      (.ok (), { w with pass := { w.pass with
        scopes := names.foldl (fun scope n => Assoc.remove scope n.name) scope :: outer } }) := by
  induction names generalizing w scope with
  | nil =>
    rw [List.foldl_nil, ← h]
    rfl
  | cons n names ih =>
    change (unbind n.name >>= fun _ => names.forM fun n => unbind n.name) context w = _
    rw [run_bind_ok _ (run_unbindName h), ih rfl]
    rfl

/-- Generalizing gives names meanings that do not wait, and leaves all other names alone. -/
theorem get?_of_bindGeneralized {bound : Bound} {scope : Scope} {outer : List Scope}
    (h : w.pass.scopes = scope :: outer) (hrun : bindGeneralized bound context w = (.ok (), w')) :
    ∃ scope', w'.pass.scopes = scope' :: outer ∧
      (∀ name, name ∉ bound.map (·.1.name) → Assoc.get? scope' name = Assoc.get? scope name) ∧
      ∀ name ∈ bound.map (·.1.name), ∃ scheme, Assoc.get? scope' name = some (.poly scheme) := by
  induction bound generalizing w scope with
  | nil =>
    cases hrun
    exact ⟨scope, h, fun _ _ => rfl, by simp⟩
  | cons entry rest ih =>
    obtain ⟨scheme, w₁, hscheme, hrun⟩ := run_bind_inv hrun
    have hnames := (contained_generalize _).still _ _ _ hscheme
    have hscopes : w₁.pass.scopes = scope :: outer := (congrArg (fun n => n.1.1) hnames).trans h
    rw [run_bind_ok _ (run_bindName hscopes)] at hrun
    obtain ⟨scope', hscopes', hothers, hbound⟩ := ih rfl hrun
    refine ⟨scope', hscopes', fun name hname => ?_, fun name hname => ?_⟩
    · obtain ⟨hne, hrest⟩ := not_or.mp (mt List.mem_cons.mpr hname)
      rw [hothers name hrest, Assoc.get?_set_of_ne _ _ (Ne.symm hne)]
    · by_cases hrest : name ∈ rest.map (·.1.name)
      · exact hbound name hrest
      · rcases List.mem_cons.mp hname with rfl | hmem
        · exact ⟨scheme, by rw [hothers _ hrest, Assoc.get?_set_self]⟩
        · exact absurd hmem hrest

/-- Names that have lost their meanings get new ones by generalizing. -/
theorem rebinds_of_bindGeneralized {bound : Bound} {names : List NameAt} {scope : Scope} {outer : List Scope}
    (hnames : bound.map (·.1.name) = names.map NameAt.name)
    (h : w.pass.scopes = names.foldl (fun scope n => Assoc.remove scope n.name) scope :: outer)
    (hrun : bindGeneralized bound context w = (.ok (), w')) :
    ∃ scope', w'.pass.scopes = scope' :: outer ∧ Scope.Rebinds (names.map NameAt.name) scope scope' := by
  obtain ⟨scope', hscopes', hothers, hbound⟩ := get?_of_bindGeneralized h hrun
  rw [hnames] at hothers hbound
  refine ⟨scope', hscopes', fun other hother => ?_, fun other hother binding hget => ?_⟩
  · rw [hothers other hother, Scope.get?_foldl_remove]
    exact if_neg hother
  · obtain ⟨scheme, hscheme⟩ := hbound other hother
    cases hscheme.symm.trans hget
    exact id

/-- What `hidingScopes` does, step by step. -/
theorem run_hidingScopes_inv {inner : Nat} {work : InferM Unit}
    (hrun : hidingScopes inner work context w = (.ok (), w')) :
    ∃ w₁, work context { w with pass := { w.pass with scopes := w.pass.scopes.drop inner } } = (.ok (), w₁) ∧
      w' = { w₁ with pass := { w₁.pass with scopes := w.pass.scopes.take inner ++ w₁.pass.scopes } } := by
  obtain ⟨_, w₀, hpass, hrun⟩ := run_bind_inv hrun
  cases hpass
  obtain ⟨_, w₁, hmodify, hrun⟩ := run_bind_inv hrun
  cases hmodify
  obtain ⟨_, w₂, hwork, hrun⟩ := run_bind_inv hrun
  obtain ⟨_, w₃, hmodify, hrun⟩ := run_bind_inv hrun
  cases hmodify
  cases hrun
  exact ⟨w₂, hwork, rfl⟩

/-- What inferring a waiting definition does, in the scopes that the definition sees. -/
theorem run_inferPending_inv {inferBody : Expr → InferM Ty} {inner : Nat} {definition : ValueDecl} {depth : Nat}
    (hrun : inferPending inferBody inner definition depth context w = (.ok (), w')) :
    ∃ w₁, inferDefinition inferBody definition depth context
        { w with pass := { w.pass with scopes := w.pass.scopes.drop inner, depth } } = (.ok (), w₁) ∧
      w' = { w₁ with pass := { w₁.pass with
        scopes := w.pass.scopes.take inner ++ w₁.pass.scopes
        depth := w.pass.depth } } := by
  obtain ⟨w₁, hwork, rfl⟩ := run_hidingScopes_inv hrun
  obtain ⟨_, _, hpass, hwork⟩ := run_bind_inv hwork
  cases hpass
  obtain ⟨_, _, hmodify, hwork⟩ := run_bind_inv hwork
  cases hmodify
  obtain ⟨_, w₂, hdefinition, hmodify⟩ := run_bind_inv hwork
  cases hmodify
  exact ⟨w₂, hdefinition, rfl⟩

/-! ### Definitions -/

section Bodies

variable {inferBody : Expr → InferM Ty} (hbody : ∀ e, Steady context 0 0 (inferBody e))

include hbody

theorem steady_inferFunction (name : NameAt) (params : List Pattern) (body : Expr) (signature : Option Ty) :
    Steady context 0 0 (inferFunction inferBody name params body signature) := by
  -- All but the last step is the same with and without a signature.
  have hrest : ∀ (last : Ty → InferM Ty) (types : List Ty), (∀ t, Contained True True (last t)) →
      Steady context 0 0 (do
        pushScope []
        let bound ← inferParams params types
        bindAll [name.name] bound
        let bodyType ← deeper (if params.isEmpty then 0 else 1) (inferBody body)
        popScope
        last bodyType) := by
    intro last types hlast
    refine (steady_pushScope [] 0).bind fun _ => ((contained_inferParams params types).steady _).bind fun bound => ?_
    refine (steady_bindAll _ bound 0).bind fun _ => (steady_deeper _ ((hbody body).inside 1)).bind fun t => ?_
    exact (steady_popScope 0).bind fun _ => (hlast t).steady 0
  refine ((contained_expectedParams name params signature).steady 0).bind fun expected => ?_
  cases expected with
  | some types =>
    refine (steady_pure types 0).bind fun types => hrest _ types fun t => ?_
    cases signature with
    | some signature => exact (contained_check _ _ _).bind fun _ => .pure _
    | none => exact .pure _
  | none =>
    refine ((contained_freshVars _ _).steady 0).bind fun types => hrest _ types fun t => ?_
    cases signature <;> exact .pure _

theorem steady_inferDestructuring (pattern : Pattern) (body : Expr) :
    Steady context 0 0 (inferDestructuring inferBody pattern body) :=
  (hbody body).bind fun t => ((contained_inferPattern .declaration pattern t).steady 0).bind fun _ => steady_pure _ 0

/-- Whatever becomes of the scope of a definition, the scopes around it stay as they are. -/
theorem steady_inferDefinition (definition : ValueDecl) (depth : Nat) :
    Steady context 1 1 (inferDefinition inferBody definition depth) := by
  unfold inferDefinition
  split
  · refine ((contained_freshVar "a").steady 1).bind fun self => (steady_modifyScope _ 0).bind fun _ => ?_
    refine ((steady_inferFunction hbody _ _ _ none).inside 1).bind fun t => ((contained_check _ _ _).steady 1).bind fun _ => ?_
    exact (steady_modifyScope _ 0).bind fun _ => ((contained_generalize t).steady 1).bind fun _ => steady_modifyScope _ 0
  · refine (steady_forM (fun _ => steady_modifyScope _ 0) _).bind fun _ => ?_
    refine ((steady_inferDestructuring hbody _ _).inside 1).bind fun out => ?_
    exact (steady_forM (fun _ => steady_modifyScope _ 0) _).bind fun _ => steady_bindGeneralized _ 0

/-! ### Waiting definitions -/

/-- A waiting definition of the innermost scope is inferred without other effects on the names in scope. -/
theorem settles_inferDefinition {scope : Scope} {outer : List Scope} {name : Name} {slot : Nat}
    {definition : ValueDecl} {depth depth' : Nat} (h : w.pass.scopes = scope :: outer)
    (hget : Assoc.get? scope name = some (.pending slot definition depth'))
    (hrun : inferDefinition inferBody definition depth context w = (.ok (), w')) :
    List.Forall₂ Scope.Settles w.pass.scopes w'.pass.scopes := by
  obtain ⟨pos, signature, head, body⟩ := definition
  cases head with
  | function head params =>
    obtain ⟨self, w₁, hself, hrun⟩ := run_bind_inv hrun
    have hscopes₁ : w₁.pass.scopes = scope :: outer :=
      (congrArg (fun n => n.1.1) ((contained_freshVar _).still _ _ _ hself)).trans h
    rw [run_bind_ok _ (run_bindName hscopes₁)] at hrun
    obtain ⟨t, w₂, hfunction, hrun⟩ := run_bind_inv hrun
    obtain ⟨hsettles, -⟩ := steady_inferFunction hbody _ _ _ _ _ _ _ hfunction
    obtain ⟨_, w₃, hcheck, hrun⟩ := run_bind_inv hrun
    have hscopes₃ : w₃.pass.scopes = w₂.pass.scopes := congrArg (fun n => n.1.1) ((contained_check _ _ _).still _ _ _ hcheck)
    simp only [List.drop_zero] at hsettles
    obtain ⟨scope₂, outer₂, hbodyScope, houter, hscopes₂⟩ := List.forall₂_cons_left_iff.mp hsettles
    rw [hscopes₂] at hscopes₃
    rw [run_bind_ok _ (run_unbindName hscopes₃)] at hrun
    obtain ⟨scheme, w₄, hscheme, hrun⟩ := run_bind_inv hrun
    have hscopes₄ := congrArg (fun n => n.1.1) ((contained_generalize _).still _ _ _ hscheme)
    rw [run_bindName hscopes₄] at hrun
    cases hrun
    rw [h]
    refine .cons (Scope.settles_of_rebinds hget ?_ ?_ hbodyScope ?_) houter
    · exact Scope.rebinds_set scope _ id
    · intro other hother
      rw [List.mem_singleton.mp hother, Assoc.get?_set_self]
      rfl
    · exact Scope.rebinds_set_remove scope₂ head.name id
  | pattern pattern =>
    obtain ⟨_, w₁, hbinding, hrun⟩ := run_bind_inv hrun
    rw [run_bindNames _ _ h] at hbinding
    cases hbinding
    obtain ⟨out, w₂, hinfer, hrun⟩ := run_bind_inv hrun
    obtain ⟨hsettles, -⟩ := steady_inferDestructuring hbody _ _ _ _ _ hinfer
    simp only [List.drop_zero] at hsettles
    obtain ⟨scope₂, outer₂, hbodyScope, houter, hscopes₂⟩ := List.forall₂_cons_left_iff.mp hsettles
    obtain ⟨_, w₃, hunbinding, hrun⟩ := run_bind_inv hrun
    rw [run_unbindNames _ hscopes₂] at hunbinding
    cases hunbinding
    obtain ⟨scope', hscopes', hrebinds⟩ := rebinds_of_bindGeneralized (map_fst_inferDestructuring hinfer) rfl hrun
    rw [h, hscopes']
    refine .cons (Scope.settles_of_rebinds hget ?_ ?_ hbodyScope hrebinds) houter
    · exact Scope.rebinds_foldl_set pattern.boundNames scope id
    · exact fun other hother => Scope.isSome_get?_foldl_set pattern.boundNames scope _ hother

theorem steady_inferPending (definition : ValueDecl) (depth : Nat) :
    Steady context 1 1 (inferPending inferBody 0 definition depth) := by
  intro w a w' hrun
  obtain ⟨w₁, hwork, rfl⟩ := run_hidingScopes_inv hrun
  have hsteady : Steady context 1 1 (do
      let outside := (← getPass).depth
      modifyPass (fun pass => { pass with depth })
      inferDefinition inferBody definition depth
      modifyPass (fun pass => { pass with depth := outside }) : InferM Unit) := by
    refine (still_getPass.calm 1).bind fun pass => Steady.bind ?_ fun _ =>
      (steady_inferDefinition hbody definition depth).bind fun _ => ?_
    · exact steady_modifyRest fun _ => ⟨rfl, rfl⟩
    · exact steady_modifyRest fun _ => ⟨rfl, rfl⟩
  exact hsteady _ _ _ hwork

/-- A waiting definition is inferred without other effects on the names in scope, also with inner scopes hidden. -/
theorem settles_inferPending {inner : Nat} {scope : Scope} {outer : List Scope} {name : Name} {slot : Nat}
    {definition : ValueDecl} {depth depth' : Nat} (h : w.pass.scopes.drop inner = scope :: outer)
    (hget : Assoc.get? scope name = some (.pending slot definition depth'))
    (hrun : inferPending inferBody inner definition depth context w = (.ok (), w')) :
    List.Forall₂ Scope.Settles w.pass.scopes w'.pass.scopes ∧ w'.pass.typeVars = w.pass.typeVars := by
  obtain ⟨w₂, hdefinition, rfl⟩ := run_inferPending_inv hrun
  have hsettles := settles_inferDefinition hbody h hget hdefinition
  refine ⟨?_, (steady_inferDefinition hbody _ _ _ _ _ hdefinition).2⟩
  change List.Forall₂ _ w.pass.scopes (w.pass.scopes.take inner ++ w₂.pass.scopes)
  nth_rewrite 1 [← List.take_append_drop inner w.pass.scopes]
  exact List.rel_append (settles_refl _) hsettles

end Bodies

/-! ### Expressions -/

section Elsewhere

variable {elsewhere : Elsewhere} (hbody : ∀ e, Steady context 0 0 (elsewhere.body e))

include hbody

theorem steady_localReference (pos : Nat) (name : Name) :
    Steady context 0 0 (localReference elsewhere pos name) := by
  have huse : ∀ binding, Steady context 0 0 (do return some (← useBinding pos binding) : InferM (Option Ty)) :=
    fun binding => ((contained_useBinding pos binding).steady 0).bind fun _ => steady_pure _ 0
  intro w found w' hrun
  obtain ⟨_, _, hlookup, hrun⟩ := run_bind_inv hrun
  cases hlookup
  rcases hfound : lookupIn name w.pass.scopes with _ | ⟨inner, binding⟩
  · rw [hfound] at hrun
    exact steady_pure _ 0 _ _ _ hrun
  · rw [hfound] at hrun
    cases binding with
    | pending slot definition depth =>
      obtain ⟨scope, outer, hdrop, hget⟩ := drop_of_lookupIn hfound
      obtain ⟨_, w₁, hpending, hrun⟩ := run_bind_inv hrun
      obtain ⟨hsettles, hvars⟩ := settles_inferPending hbody hdrop hget hpending
      obtain ⟨_, _, hlookup, hrun⟩ := run_bind_inv hrun
      cases hlookup
      obtain ⟨hrest, hvars'⟩ : List.Forall₂ Scope.Settles w₁.pass.scopes w'.pass.scopes ∧
          w'.pass.typeVars = w₁.pass.typeVars := by
        rcases hagain : lookupIn name w₁.pass.scopes with _ | ⟨_, binding⟩
        · rw [hagain] at hrun
          exact steady_pure _ 0 _ _ _ hrun
        · rw [hagain] at hrun
          exact huse binding _ _ _ hrun
      exact ⟨settles_trans hsettles hrest, hvars'.trans hvars⟩
    | mono t | poly scheme | checking scheme hasParams depth | active t hasParams depth => exact huse _ _ _ _ hrun

theorem steady_reference (pos : Nat) (name : Ref) : Steady context 0 0 (reference elsewhere pos name) := by
  unfold reference
  split
  · exact (still_globalReference elsewhere pos name).calm 0
  · refine (steady_localReference hbody pos name.name).bind fun found => ?_
    split
    · exact steady_pure _ 0
    · exact (still_globalReference elsewhere pos name).calm 0

end Elsewhere

section Let

variable {inferBody : Expr → InferM Ty} (hbody : ∀ e, Steady context 0 0 (inferBody e))

include hbody

theorem steady_inferWaiting (slot : Nat) (definitions : List ValueDecl) :
    Steady context 1 1 (inferWaiting inferBody slot definitions) := by
  induction definitions generalizing slot with
  | nil => exact steady_pure _ 1
  | cons definition rest ih =>
    refine ((contained_isPending slot).steady 1).bind fun pending => ?_
    split
    · refine (still_getPass.calm 1).bind fun pass => ?_
      exact (steady_inferPending hbody definition pass.depth).bind fun _ => ih (slot + 1)
    · exact ih (slot + 1)

theorem steady_checkSigned (d : SignedDefinition) : Steady context 1 1 (checkSigned inferBody d) := by
  intro w a w' hrun
  obtain ⟨_, _, hpass, hrun⟩ := run_bind_inv hrun
  cases hpass
  obtain ⟨_, w₁, hbind, hrun⟩ := run_bind_inv hrun
  obtain ⟨_, _, hmodify, hrun⟩ := run_bind_inv hrun
  cases hmodify
  obtain ⟨_, w₂, hfunction, hrun⟩ := run_bind_inv hrun
  obtain ⟨_, _, hmodify, hrun⟩ := run_bind_inv hrun
  cases hmodify
  have hstart := (steady_modifyScope _ 0 _ _ _ hbind).1
  have hinner := ((steady_inferFunction hbody _ _ _ _).inside 1 _ _ _ hfunction).1
  obtain ⟨hend, hvars⟩ := steady_modifyScope _ 0 _ _ _ hrun
  exact ⟨settles_trans hstart (settles_trans hinner hend), hvars⟩

theorem steady_enterLet (definitions : List ValueDecl) :
    Steady context 0 1 (enterLet inferBody definitions) := by
  refine ((contained_readDefinitions 0 definitions {}).steady 0).bind fun l => (steady_pushScope l.scope 0).bind fun _ => ?_
  exact (steady_inferWaiting hbody 0 definitions).bind fun _ => steady_forM (fun d => steady_checkSigned hbody d) _

end Let

mutual

theorem steady_inferExpr {elsewhere : Elsewhere} (hbody : ∀ e, Steady context 0 0 (elsewhere.body e)) (e : Expr) :
    Steady context 0 0 (inferExpr elsewhere e) := by
  match e with
  | .mk id pos kind =>
    rw [inferExpr]
    refine (Contained.isCancelled.steady 0).bind fun cancelled => ?_
    split
    · exact steady_pure _ 0
    · exact (steady_inferKind hbody pos kind).bind fun t => ((Contained.record trivial id t).steady 0).bind fun _ => steady_pure _ 0

theorem steady_inferKind {elsewhere : Elsewhere} (hbody : ∀ e, Steady context 0 0 (elsewhere.body e)) (pos : Nat)
    (kind : ExprKind Expr) : Steady context 0 0 (inferKind elsewhere pos kind) := by
  match kind with
  | .unit =>
    rw [inferKind]
    exact steady_pure _ 0
  | .literal kind =>
    rw [inferKind]
    exact (contained_literalType kind).steady 0
  | .var name =>
    rw [inferKind]
    exact steady_reference hbody pos name
  | .operator name =>
    rw [inferKind]
    refine ((still_operatorType elsewhere pos name).calm 0).bind fun found => ?_
    split <;> exact steady_pure _ 0
  | .call target args =>
    rw [inferKind]
    refine (steady_inferExpr hbody target).bind fun t => (steady_inferAll hbody args).bind fun types => ?_
    exact (contained_apply _ _ _).steady 0
  | .binary operands operators =>
    rw [inferKind]
    exact (steady_inferAll hbody operands).bind fun types => (still_inferChain elsewhere _ _).calm 0
  | .negate operand =>
    rw [inferKind]
    refine (steady_inferExpr hbody operand).bind fun t => ((contained_freshVar _).steady 0).bind fun number => ?_
    exact ((contained_check _ _ _).steady 0).bind fun _ => steady_pure _ 0
  | .tuple items =>
    rw [inferKind]
    exact (steady_inferAll hbody items).bind fun types => steady_pure _ 0
  | .list items =>
    rw [inferKind]
    refine (steady_inferItems hbody none items).bind fun found => ?_
    split
    · exact steady_pure _ 0
    · exact ((contained_freshVar _).steady 0).bind fun _ => steady_pure _ 0
  | .record fields =>
    rw [inferKind]
    exact (steady_inferFields hbody fields).bind fun _ => steady_pure _ 0
  | .update base fields =>
    rw [inferKind]
    refine (steady_reference hbody _ _).bind fun t => ?_
    exact (steady_inferUpdates hbody _ t true fields).bind fun _ => steady_pure _ 0
  | .access target field =>
    rw [inferKind]
    exact (steady_inferExpr hbody target).bind fun t => (contained_accessType _ _ _).steady 0
  | .accessor field =>
    rw [inferKind]
    exact ((contained_freshVar _).steady 0).bind fun _ => ((contained_freshVar _).steady 0).bind fun _ => steady_pure _ 0
  | .conditional branches otherwise =>
    rw [inferKind]
    refine (steady_inferBranches hbody none branches).bind fun found => ?_
    exact (steady_inferExpr hbody otherwise).bind fun t => (contained_joinType _ _ _).steady 0
  | .caseOf scrutinee branches =>
    rw [inferKind]
    refine (steady_inferExpr hbody scrutinee).bind fun t => ?_
    exact (steady_inferCases hbody t none branches).bind fun _ => steady_pure _ 0
  | .lambda params body =>
    rw [inferKind]
    refine ((contained_freshVars _ _).steady 0).bind fun types => (steady_pushScope [] 0).bind fun _ => ?_
    refine ((contained_inferParams params types).steady 1).bind fun bound => (steady_bindAll _ bound 0).bind fun _ => ?_
    refine (steady_deeper 1 ((steady_inferExpr hbody body).inside 1)).bind fun t => ?_
    exact (steady_popScope 0).bind fun _ => steady_pure _ 0
  | .letIn definitions body =>
    rw [inferKind]
    refine (steady_enterLet hbody definitions).bind fun _ => ((steady_inferExpr hbody body).inside 1).bind fun t => ?_
    exact (steady_popScope 0).bind fun _ => steady_pure _ 0

theorem steady_inferAll {elsewhere : Elsewhere} (hbody : ∀ e, Steady context 0 0 (elsewhere.body e))
    (es : List Expr) : Steady context 0 0 (inferAll elsewhere es) := by
  match es with
  | [] =>
    rw [inferAll]
    exact steady_pure _ 0
  | e :: es =>
    rw [inferAll]
    exact (steady_inferExpr hbody e).bind fun t => (steady_inferAll hbody es).bind fun _ => steady_pure _ 0

theorem steady_inferItems {elsewhere : Elsewhere} (hbody : ∀ e, Steady context 0 0 (elsewhere.body e))
    (first : Option Ty) (es : List Expr) : Steady context 0 0 (inferItems elsewhere first es) := by
  match es with
  | [] =>
    rw [inferItems]
    exact steady_pure _ 0
  | e :: es =>
    rw [inferItems]
    refine (steady_inferExpr hbody e).bind fun t => ((contained_joinType _ _ _).steady 0).bind fun first => ?_
    exact steady_inferItems hbody (some first) es

theorem steady_inferFields {elsewhere : Elsewhere} (hbody : ∀ e, Steady context 0 0 (elsewhere.body e))
    (fields : List (NameAt × Expr)) : Steady context 0 0 (inferFields elsewhere fields) := by
  match fields with
  | [] =>
    rw [inferFields]
    exact steady_pure _ 0
  | (name, e) :: rest =>
    rw [inferFields]
    exact (steady_inferExpr hbody e).bind fun t => (steady_inferFields hbody rest).bind fun _ => steady_pure _ 0

theorem steady_inferUpdates {elsewhere : Elsewhere} (hbody : ∀ e, Steady context 0 0 (elsewhere.body e))
    (basePos : Nat) (base : Ty) (isRecord : Bool) (fields : List (NameAt × Expr)) :
    Steady context 0 0 (inferUpdates elsewhere basePos base isRecord fields) := by
  match fields with
  | [] =>
    rw [inferUpdates]
    exact steady_pure _ 0
  | (name, e) :: rest =>
    rw [inferUpdates]
    refine (steady_inferExpr hbody e).bind fun t => ?_
    split
    · refine ((contained_updateField _ _ _ _ _).steady 0).bind fun isRecord => ?_
      exact steady_inferUpdates hbody basePos base isRecord rest
    · exact steady_inferUpdates hbody basePos base false rest

theorem steady_inferBranches {elsewhere : Elsewhere} (hbody : ∀ e, Steady context 0 0 (elsewhere.body e))
    (first : Option Ty) (branches : List (Expr × Expr)) :
    Steady context 0 0 (inferBranches elsewhere first branches) := by
  match branches with
  | [] =>
    rw [inferBranches]
    exact steady_pure _ 0
  | (condition, branch) :: rest =>
    rw [inferBranches]
    refine (steady_inferExpr hbody condition).bind fun t => ((contained_check _ _ _).steady 0).bind fun _ => ?_
    refine (steady_inferExpr hbody branch).bind fun u => ((contained_joinType _ _ _).steady 0).bind fun first => ?_
    exact steady_inferBranches hbody (some first) rest

theorem steady_inferCases {elsewhere : Elsewhere} (hbody : ∀ e, Steady context 0 0 (elsewhere.body e))
    (scrutinee : Ty) (first : Option Ty) (branches : List (Pattern × Expr)) :
    Steady context 0 0 (inferCases elsewhere scrutinee first branches) := by
  match branches with
  | [] =>
    rw [inferCases]
    exact steady_pure _ 0
  | (pattern, body) :: rest =>
    rw [inferCases]
    refine (steady_pushScope [] 0).bind fun _ => ((contained_inferPattern .branch pattern scrutinee).steady 1).bind
      fun bound => (steady_bindAll _ bound 0).bind fun _ => ?_
    refine ((steady_inferExpr hbody body).inside 1).bind fun t => ((contained_joinType _ _ _).steady 1).bind fun first => ?_
    exact (steady_popScope 0).bind fun _ => steady_inferCases hbody scrutinee (some first) rest

end

/-- Inferring an expression does nothing to the names in scope but infer definitions that were waiting. -/
theorem steady_exprAt (n : Nat) (e : Expr) : Steady context 0 0 (exprAt n e) := by
  induction n generalizing e with
  | zero =>
    intro w a w' hrun
    cases hrun
  | succ n ih => exact steady_inferExpr ih e

end InferM

end ElmInference
