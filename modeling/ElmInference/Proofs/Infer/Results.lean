import ElmInference.Proofs.Infer.Conversions
import ElmInference.Proofs.Infer.Scopes
import ElmInference.Proofs.Store.Zonking
import Mathlib.Data.List.Perm.Basic

/-!
# What a result tells about its pass

A pass ends by freezing what it has found: problems and recorded types are read through the solutions of the store, and
sorted. Nothing is lost on the way but the earlier ones of several types that were recorded for the same node.
-/

namespace ElmInference

namespace InferM

variable {α β : Type} {context : Context} {w w' : Work}

/-! ### Sorting -/

theorem perm_insertBy (rank : α → Nat) (a : α) (xs : List α) : (insertBy rank a xs).Perm (a :: xs) := by
  induction xs with
  | nil => exact .refl _
  | cons b rest ih =>
    rw [insertBy]
    split
    · exact .refl _
    · exact (ih.cons b).trans (.swap a b rest)

theorem perm_sortBy (rank : α → Nat) (xs : List α) : (sortBy rank xs).Perm xs := by
  induction xs with
  | nil => exact .refl _
  | cons a rest ih => exact (perm_insertBy rank a _).trans (ih.cons a)

theorem mem_sortBy {rank : α → Nat} {a : α} {xs : List α} : a ∈ sortBy rank xs ↔ a ∈ xs :=
  (perm_sortBy rank xs).mem_iff

/-! ### Recorded types -/

theorem mem_of_mem_latestTypes {log : List (NodeId × Ty)} {entry : NodeId × Ty} (h : entry ∈ latestTypes log) :
    entry ∈ log := by
  induction log with
  | nil => exact h
  | cons first earlier ih =>
    rcases List.mem_cons.mp h with rfl | hmem
    · exact List.mem_cons_self
    · exact List.mem_cons_of_mem _ (ih (List.mem_filter.mp hmem).1)

theorem nodup_keys_latestTypes (log : List (NodeId × Ty)) : ((latestTypes log).map Prod.fst).Nodup := by
  induction log with
  | nil => exact List.nodup_nil
  | cons first earlier ih =>
    refine List.nodup_cons.mpr ⟨fun hmem => ?_, ih.sublist (List.filter_sublist.map _)⟩
    obtain ⟨entry, hentry, heq⟩ := List.mem_map.mp hmem
    exact bne_iff_ne.mp (List.mem_filter.mp hentry).2 heq

theorem mem_keys_latestTypes {log : List (NodeId × Ty)} {id : NodeId} :
    id ∈ (latestTypes log).map Prod.fst ↔ id ∈ log.map Prod.fst := by
  constructor
  · intro h
    obtain ⟨entry, hentry, rfl⟩ := List.mem_map.mp h
    exact List.mem_map_of_mem (mem_of_mem_latestTypes hentry)
  · induction log with
    | nil => exact fun h => h
    | cons first earlier ih =>
      intro h
      by_cases heq : first.1 = id
      · exact heq ▸ List.mem_cons_self
      · obtain ⟨entry, hentry, rfl⟩ := List.mem_map.mp (ih ((List.mem_cons.mp h).resolve_left (Ne.symm heq)))
        exact List.mem_cons_of_mem _ (List.mem_map_of_mem (List.mem_filter.mpr ⟨hentry, bne_iff_ne.mpr (Ne.symm heq)⟩))

/-- A type that was recorded for a node is the latest one if none was recorded for it twice. -/
theorem mem_latestTypes_of_nodup {log : List (NodeId × Ty)} (hnodup : (log.map Prod.fst).Nodup) {entry : NodeId × Ty}
    (hmem : entry ∈ log) : entry ∈ latestTypes log := by
  induction log with
  | nil => cases hmem
  | cons first earlier ih =>
    obtain ⟨hnew, hnodup⟩ := List.nodup_cons.mp hnodup
    rw [latestTypes]
    rcases List.mem_cons.mp hmem with rfl | hmem
    · exact List.mem_cons_self
    · refine List.mem_cons_of_mem _ (List.mem_filter.mpr ⟨ih hnodup hmem, bne_iff_ne.mpr ?_⟩)
      exact fun heq => hnew (heq ▸ List.mem_map_of_mem hmem)

/-! ### Freezing -/

def Looks (context : Context) (x : InferM α) : Prop :=
  ∀ w a w', x context w = (.ok a, w') → w = w'

theorem looks_pure (a : α) : Looks context (pure a) := by
  intro w b w' hrun
  cases hrun
  rfl

theorem Looks.bind {x : InferM α} {f : α → InferM β} (hx : Looks context x) (hf : ∀ a, Looks context (f a)) :
    Looks context (x >>= f) := by
  intro w b w' hrun
  obtain ⟨a, w₁, hrun₁, hrun₂⟩ := run_bind_inv hrun
  exact (hx _ _ _ hrun₁).trans (hf a _ _ _ hrun₂)

theorem looks_zonk (t : Ty) : Looks context (zonk t) :=
  fun _ _ _ hrun => (run_read_inv hrun).2

theorem Looks.mapM {f : α → InferM β} (h : ∀ a, Looks context (f a)) (xs : List α) : Looks context (xs.mapM f) := by
  induction xs with
  | nil => exact looks_pure _
  | cons x xs ih =>
    rw [List.mapM_cons]
    exact (h x).bind fun _ => ih.bind fun _ => looks_pure _

theorem looks_mapDiff (diff : RecordDiff) : Looks context (diff.mapTypesM zonk) := by
  have hfield : ∀ field : Name × Ty, Looks context (do return (field.1, ← zonk field.2) : InferM (Name × Ty)) :=
    fun field => (looks_zonk field.2).bind fun _ => looks_pure _
  refine (Looks.mapM hfield _).bind fun _ => (Looks.mapM hfield _).bind fun _ => ?_
  refine (Looks.mapM (fun field => ?_) _).bind fun _ => looks_pure _
  exact (looks_zonk _).bind fun _ => (looks_zonk _).bind fun _ => looks_pure _

theorem looks_mapKind (kind : ProblemKind) : Looks context (kind.mapTypesM zonk) := by
  have hdiff : ∀ diff, Looks context (ProblemKind.mapDiffM zonk diff) := by
    intro diff
    cases diff with
    | none => exact looks_pure _
    | some diff => exact (looks_mapDiff diff).bind fun _ => looks_pure _
  have hzonk : ∀ (t : Ty) (f : Ty → ProblemKind), Looks context (do return f (← zonk t) : InferM ProblemKind) :=
    fun t f => (looks_zonk t).bind fun _ => looks_pure _
  cases kind with
  | typeMismatch found required diff | invalidPattern found required diff =>
    refine (looks_zonk _).bind fun _ => (looks_zonk _).bind fun _ => ?_
    exact (hdiff diff).bind fun _ => looks_pure _
  | typeMustBeRecord found | fieldAccessOnNonRecord found => exact hzonk found _
  | _ => exact looks_pure _

/-- Work on the elements of a list that leaves the state alone yields what each of them yields. -/
theorem run_mapM_inv {f : α → InferM β} (hf : ∀ a, Looks context (f a)) {xs : List α} {ys : List β}
    (hrun : xs.mapM f context w = (.ok ys, w')) :
    w = w' ∧ List.Forall₂ (fun x y => f x context w = (.ok y, w)) xs ys := by
  induction xs generalizing ys w' with
  | nil =>
    cases hrun
    exact ⟨rfl, .nil⟩
  | cons x xs ih =>
    rw [List.mapM_cons] at hrun
    obtain ⟨y, w₁, hfirst, hrun⟩ := run_bind_inv hrun
    obtain rfl := hf x _ _ _ hfirst
    obtain ⟨rest, w₂, hrest, hrun⟩ := run_bind_inv hrun
    obtain ⟨rfl, hall⟩ := ih hrest
    cases hrun
    exact ⟨rfl, .cons hfirst hall⟩

/-- Whether a result is what a pass has found, read through the solutions of its store. -/
structure Freezes (context : Context) (w : Work) (t : Ty) (result : InferenceResult) : Prop where
  ty : w.pass.store.zonk t = .ok result.ty
  problems : ∃ problems, List.Forall₂ (fun (p q : Problem) => q.pos = p.pos ∧
      p.kind.mapTypesM zonk context w = (.ok q.kind, w)) w.pass.problems problems ∧ result.problems = sortProblems problems
  nodeTypes : List.Forall₂ (fun entry entry' => entry'.1 = entry.1 ∧ w.pass.store.zonk entry.2 = .ok entry'.2)
    (sortBy Prod.fst (latestTypes w.pass.nodeTypes)) result.nodeTypes

theorem freezes_finish {t : Ty} {inferred : Inferred} (hrun : finish t context w = (.ok inferred, w')) :
    w = w' ∧ Freezes context w t inferred.1 := by
  have hproblem : ∀ problem : Problem, Looks context (do
      return { problem with kind := ← problem.kind.mapTypesM zonk } : InferM Problem) :=
    fun problem => (looks_mapKind _).bind fun _ => looks_pure _
  have hnode : ∀ entry : NodeId × Ty, Looks context (do return (entry.1, ← zonk entry.2) : InferM (NodeId × Ty)) :=
    fun entry => (looks_zonk _).bind fun _ => looks_pure _
  obtain ⟨_, _, hpass, hrun⟩ := run_bind_inv hrun
  cases hpass
  obtain ⟨problems, w₁, hproblems, hrun⟩ := run_bind_inv hrun
  obtain ⟨rfl, hproblems'⟩ := run_mapM_inv hproblem hproblems
  obtain ⟨ty, w₂, hty, hrun⟩ := run_bind_inv hrun
  obtain ⟨hty', rfl⟩ := run_read_inv hty
  obtain ⟨nodeTypes, w₃, hnodes, hrun⟩ := run_bind_inv hrun
  obtain ⟨rfl, hnodes'⟩ := run_mapM_inv hnode hnodes
  cases hrun
  refine ⟨rfl, hty', ⟨problems, hproblems'.imp fun p q hq => ?_, rfl⟩, hnodes'.imp fun entry entry' hentry => ?_⟩
  · obtain ⟨kind, w₁, hkind, hq⟩ := run_bind_inv hq
    cases hq
    exact ⟨rfl, hkind⟩
  · obtain ⟨u, w₁, hu, hentry⟩ := run_bind_inv hentry
    cases hentry
    exact ⟨rfl, (run_read_inv hu).1⟩

/-- A result comes with the notes of its pass. -/
theorem recursive_finish {t : Ty} {inferred : Inferred} (hrun : finish t context w = (.ok inferred, w')) :
    inferred.2 = w.pass.recursive := by
  obtain ⟨_, _, hpass, hrun⟩ := run_bind_inv hrun
  cases hpass
  obtain ⟨_, _, -, hrun⟩ := run_bind_inv hrun
  obtain ⟨_, _, -, hrun⟩ := run_bind_inv hrun
  obtain ⟨_, _, -, hrun⟩ := run_bind_inv hrun
  cases hrun
  rfl

/-- A declaration is called off or has a result, which is what the pass has found. -/
theorem run_inferDeclaration_inv {inferBody : Expr → InferM Ty} {d : ValueDecl} {outcome : Except InferError Inferred}
    (hrun : inferDeclaration inferBody d context w = (.ok outcome, w')) :
    (outcome = .error .cancelled ∧ w'.pass.cancelled = true) ∨
      ∃ result, outcome = .ok (result, w'.pass.recursive) ∧ w'.pass.cancelled = false ∧
        ∃ t, Freezes context w' t result := by
  have hrest : ∀ {x : InferM Ty}, (do
      let t ← x
      if (← getPass).cancelled then return .error .cancelled
      return .ok (← finish t) : InferM (Except InferError Inferred)) context w = (.ok outcome, w') →
      (outcome = .error .cancelled ∧ w'.pass.cancelled = true) ∨
        ∃ result, outcome = .ok (result, w'.pass.recursive) ∧ w'.pass.cancelled = false ∧
          ∃ t, Freezes context w' t result := by
    intro x hrun
    obtain ⟨t, w₁, -, hrun⟩ := run_bind_inv hrun
    obtain ⟨_, _, hpass, hrun⟩ := run_bind_inv hrun
    cases hpass
    split at hrun
    · next hcancelled =>
      cases hrun
      exact .inl ⟨rfl, hcancelled⟩
    · next hcancelled =>
      obtain ⟨⟨result, notes⟩, w₂, hfinish, hrun⟩ := run_bind_inv hrun
      obtain rfl := recursive_finish hfinish
      obtain ⟨rfl, hfreezes⟩ := freezes_finish hfinish
      cases hrun
      exact .inr ⟨result, rfl, Bool.eq_false_iff.mpr hcancelled, t, hfreezes⟩
  obtain ⟨pos, signature, head, body⟩ := d
  cases head with
  | function name params => exact hrest hrun
  | pattern pattern => exact hrest hrun

namespace Freezes

variable {t : Ty} {result : InferenceResult}

/-- A result without problems is that of a pass without problems. -/
theorem silent (h : Freezes context w t result) (hresult : result.problems = []) : w.pass.problems = [] := by
  obtain ⟨problems, hproblems, hsorted⟩ := h.problems
  have hnil : problems = [] := List.nil_perm.mp (hresult ▸ hsorted ▸ perm_sortBy Problem.pos problems)
  exact List.forall₂_nil_right_iff.mp (hnil ▸ hproblems)

/-- A problem that mentions no types is found in the result as it was reported. -/
theorem mem_problems (h : Freezes context w t result) {pos : Nat} {kind : ProblemKind}
    (hkind : kind.mapTypesM zonk context w = (.ok kind, w)) (hmem : ⟨pos, kind⟩ ∈ w.pass.problems) :
    ⟨pos, kind⟩ ∈ result.problems := by
  obtain ⟨problems, hproblems, hsorted⟩ := h.problems
  rw [hsorted, sortProblems, mem_sortBy]
  obtain ⟨⟨pos', kind'⟩, hmem', hpos, hrun⟩ := exists_mem_of_forall₂ hproblems.flip hmem
  obtain rfl : pos' = pos := hpos
  cases hkind.symm.trans hrun
  exact hmem'

theorem map_fst_nodeTypes (h : Freezes context w t result) :
    result.nodeTypes.map Prod.fst = (sortBy Prod.fst (latestTypes w.pass.nodeTypes)).map Prod.fst := by
  rw [← List.forall₂_eq_eq_eq, List.forall₂_map_left_iff, List.forall₂_map_right_iff]
  exact h.nodeTypes.flip.imp fun _ _ hentry => hentry.1

/-- A result has a type for each node of which the pass recorded one. -/
theorem isSome_typeOf? (h : Freezes context w t result) {id : NodeId} :
    (result.typeOf? id).isSome ↔ id ∈ w.pass.nodeTypes.map Prod.fst := by
  rw [InferenceResult.typeOf?, Assoc.isSome_get?_iff, h.map_fst_nodeTypes,
    ((perm_sortBy Prod.fst (latestTypes w.pass.nodeTypes)).map Prod.fst).mem_iff, mem_keys_latestTypes]

/-- A result has the type that was recorded for a node, if no other was recorded for it. -/
theorem exists_typeOf? (h : Freezes context w t result)
    (hnodup : (w.pass.nodeTypes.map Prod.fst).Nodup) {id : NodeId} {e : Ty} (hmem : (id, e) ∈ w.pass.nodeTypes) :
    ∃ z, w.pass.store.zonk e = .ok z ∧ result.typeOf? id = some z ∧ (id, z) ∈ result.nodeTypes := by
  obtain ⟨⟨id', z⟩, hentry, hid, hz⟩ :=
    exists_mem_of_forall₂ h.nodeTypes.flip (mem_sortBy.mpr (mem_latestTypes_of_nodup hnodup hmem))
  obtain rfl : id' = id := hid
  have hkeys : (result.nodeTypes.map Prod.fst).Nodup := by
    rw [h.map_fst_nodeTypes, ((perm_sortBy Prod.fst _).map Prod.fst).nodup_iff]
    exact nodup_keys_latestTypes _
  exact ⟨z, hz, Assoc.get?_of_mem hkeys hentry, hentry⟩

end Freezes

end InferM

end ElmInference
