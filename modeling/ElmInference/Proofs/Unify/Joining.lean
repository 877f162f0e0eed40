import ElmInference.Store.Constrain
import ElmInference.Proofs.Store.Moves
import ElmInference.Proofs.Store.Walks
import ElmInference.Proofs.Unify.Runs

/-!
# Joining variables

Two unsolved variables are joined in one of three ways, or their classes clash: `Joins`. However they are
joined, the store changes calmly: no entry is lost, no record is touched, and a variable that gets a
solution is solved by a variable. A calm change renames types and does not deepen them.
-/

namespace ElmInference

/-- Whether every type that a variable admits meets the class of another one. -/
def TyVar.Meets (w v : TyVar) : Prop :=
  ∀ c, v.typeclass = some c → ∃ d, w.typeclass = some d ∧ Typeclass.join c d = some d

/-- A variable that is named after a class carries it. -/
theorem typeclass_of_name (id : VarId) (c : Typeclass) (rigid : Bool) :
    TyVar.typeclass ⟨id, c.name, rigid⟩ = some c := by
  have hname : Typeclass.ofName c.name = some c := by cases c <;> decide
  exact hname

/-- Whether nothing fits two variables at once. -/
inductive TyVar.Clashes : TyVar → TyVar → Prop
  | rigid {v w : TyVar} : v.rigid = true → w.rigid = true → Clashes v w
  | flexRigid {v w : TyVar} : v.rigid = false → w.rigid = true → ¬ w.Meets v → Clashes v w
  | rigidFlex {v w : TyVar} : v.rigid = true → w.rigid = false → ¬ v.Meets w → Clashes v w
  | classes {v w : TyVar} {c d : Typeclass} : v.rigid = false → w.rigid = false →
      v.typeclass = some c → w.typeclass = some d → Typeclass.join c d = none → Clashes v w

namespace Store

open Relation

/-! ### Calm changes -/

/-- A change that leaves records alone and solves variables by variables only; those that it solves are
in `T`. -/
structure Calm (T : VarId → Prop) (s s' : Store) : Prop where
  extension : s.Extends s'
  records : s'.records = s.records
  unsolved : ∀ v : TyVar, s.Unsolved v.id →
    s'.Unsolved v.id ∨ T v.id ∧ ∃ w, s'.ResolvesTo (.var v) (.var w)
  solution : ∀ id t, s'.solution? id = some t → s.solution? id = some t ∨ ∃ w, t = .var w

variable {s s₁ s' : Store} {T : VarId → Prop}

theorem ResolvesTo.trans {t r : Ty} {w : TyVar} (h : s.ResolvesTo t (.var w)) (hext : s.Extends s')
    (hrest : s'.ResolvesTo (.var w) r) : s'.ResolvesTo t r := by
  generalize hu : Ty.var w = u at h
  induction h with
  | solved hsol _ ih => exact .solved (hext.solution _ _ hsol) (ih hu)
  | unsolved _ => exact hu ▸ hrest
  | other hnot => exact absurd hu.symm (hnot w)

namespace Calm

theorem refl (T : VarId → Prop) (s : Store) : s.Calm T s :=
  ⟨.refl s, rfl, fun _ hun => .inl hun, fun _ _ hsol => .inl hsol⟩

theorem mono {T' : VarId → Prop} (h : s.Calm T s') (hTT' : ∀ id, s.Unsolved id → T id → T' id) :
    s.Calm T' s' := by
  refine ⟨h.extension, h.records, fun v hun => ?_, h.solution⟩
  rcases h.unsolved v hun with hun' | ⟨hT, hresolves⟩
  · exact .inl hun'
  · exact .inr ⟨hTT' v.id hun hT, hresolves⟩

theorem trans (h : s.Calm T s₁) (h' : s₁.Calm T s') : s.Calm T s' := by
  refine ⟨h.extension.trans h'.extension, h'.records.trans h.records, fun v hun => ?_,
    fun id t hsol => ?_⟩
  · rcases h.unsolved v hun with hun₁ | ⟨hT, w, hresolves⟩
    · exact h'.unsolved v hun₁
    · rcases h'.unsolved w hresolves.unsolved_of_var with hun' | ⟨_, u, hresolves'⟩
      · exact .inr ⟨hT, w, hresolves.trans h'.extension (.unsolved hun')⟩
      · exact .inr ⟨hT, u, hresolves.trans h'.extension hresolves'⟩
  · rcases h'.solution id t hsol with hsol | hvar
    · exact h.solution id t hsol
    · exact .inr hvar

end Calm

theorem calm_extended (T : VarId → Prop) (s : Store) : s.Calm T s.extended :=
  ⟨extends_extended s, rfl, fun _ hun => .inl hun.extended, fun _ _ hsol => .inl (by simpa using hsol)⟩

theorem Unsolved.solved_of_ne {id other : VarId} (t : Ty) (h : s.Unsolved other) (hne : other ≠ id) :
    (s.solved id t).Unsolved other :=
  ⟨by simpa using h.1, by rw [solution?_solved_of_ne s t hne, h.2]⟩

theorem calm_solved {v w : TyVar} (hv : s.Unsolved v.id) (hw : s.Unsolved w.id) (hne : v.id ≠ w.id) :
    s.Calm (· = v.id) (s.solved v.id (.var w)) := by
  refine ⟨extends_solved _ hv, rfl, fun u hun => ?_, fun id t hsol => ?_⟩
  · by_cases hu : u.id = v.id
    · refine .inr ⟨hu, w, .solved ?_ (.unsolved (hw.solved_of_ne _ (Ne.symm hne)))⟩
      rw [hu, solution?_solved_self _ hv.1]
    · exact .inl (hun.solved_of_ne _ hu)
  · by_cases hid : id = v.id
    · rw [hid, solution?_solved_self _ hv.1] at hsol
      exact .inr ⟨w, (Option.some.inj hsol).symm⟩
    · rw [solution?_solved_of_ne s _ hid] at hsol
      exact .inl hsol

/-! ### The three ways of joining -/

inductive Joins (s : Store) (v w : TyVar) : Outcome → Store → Prop
  | left : v.rigid = false → w.Meets v → Joins s v w (.ok ()) (s.solved v.id (.var w))
  | right : w.rigid = false → v.Meets w → Joins s v w (.ok ()) (s.solved w.id (.var v))
  | both {c d both : Typeclass} : v.rigid = false → w.rigid = false → v.typeclass = some c →
      w.typeclass = some d → Typeclass.join c d = some both →
      Joins s v w (.ok ()) ((s.extended.solved v.id (.var ⟨s.size, both.name, false⟩)).solved w.id
        (.var ⟨s.size, both.name, false⟩))
  | clash : v.Clashes w → Joins s v w .mismatch s

theorem run_solve {v : TyVar} (t : Ty) (hv : s.Unsolved v.id) :
    StoreM.solve v t s = .ok (.ok (), s.solved v.id t) := by
  have hbind : StoreM.bind v t s = .ok ((), s.solved v.id t) := by
    rw [StoreM.bind, StoreM.change, bind_of_unsolved t hv]
    rfl
  rw [StoreM.solve, StoreM.run_bind_ok hbind]
  rfl

theorem run_solve_some {v : TyVar} {u : Ty} (t : Ty) (hsol : s.solution? v.id = some u) :
    StoreM.solve v t s = .error (.alreadyBound v.id) := by
  have hbind : StoreM.bind v t s = .error (.alreadyBound v.id) := by
    rw [StoreM.bind, StoreM.change, bind_of_some t hsol]
    rfl
  rw [StoreM.solve, StoreM.run_bind_error hbind]

theorem run_unifyFlexRigid {flex : TyVar} (rigid : TyVar) (hflex : s.Unsolved flex.id) :
    (StoreM.unifyFlexRigid flex rigid s = .ok (.ok (), s.solved flex.id (.var rigid)) ∧
        rigid.Meets flex) ∨
      (StoreM.unifyFlexRigid flex rigid s = .ok (.mismatch, s) ∧ ¬ rigid.Meets flex) := by
  unfold StoreM.unifyFlexRigid
  cases hc : flex.typeclass with
  | none =>
    refine .inl ⟨run_solve _ hflex, fun c h => ?_⟩
    rw [hc] at h
    cases h
  | some c =>
    cases hd : rigid.typeclass with
    | none =>
      refine .inr ⟨rfl, fun hmeets => ?_⟩
      obtain ⟨d, h, -⟩ := hmeets c hc
      rw [hd] at h
      cases h
    | some d =>
      by_cases hjoin : Typeclass.join c d = some d
      · refine .inl ⟨?_, fun c' h => ?_⟩
        · simp only [hjoin, if_true]
          exact run_solve _ hflex
        · rw [hc] at h
          cases h
          exact ⟨d, hd, hjoin⟩
      · refine .inr ⟨?_, fun hmeets => ?_⟩
        · simp only [hjoin, if_false]
          rfl
        · obtain ⟨d', h, hjoin'⟩ := hmeets c hc
          rw [hd] at h
          cases h
          exact hjoin hjoin'

theorem meets_of_join {v w : TyVar} {c d : Typeclass} (hc : v.typeclass = some c)
    (hd : w.typeclass = some d) (hjoin : Typeclass.join c d = some d) : w.Meets v := by
  intro c' hc'
  rw [hc] at hc'
  cases hc'
  exact ⟨d, hd, hjoin⟩

/-- Two unsolved variables are joined without a fault. -/
theorem joins_unifyVars {v w : TyVar} (hv : s.Unsolved v.id) (hw : s.Unsolved w.id)
    (hne : v.id ≠ w.id) : ∃ o s', StoreM.unifyVars v w s = .ok (o, s') ∧ s.Joins v w o s' := by
  unfold StoreM.unifyVars
  cases hvr : v.rigid with
  | true =>
    cases hwr : w.rigid with
    | true => exact ⟨_, _, rfl, .clash (.rigid hvr hwr)⟩
    | false =>
      rcases run_unifyFlexRigid v hw with ⟨hrun, hmeets⟩ | ⟨hrun, hmeets⟩
      · exact ⟨_, _, hrun, .right hwr hmeets⟩
      · exact ⟨_, _, hrun, .clash (.rigidFlex hvr hwr hmeets)⟩
  | false =>
    cases hwr : w.rigid with
    | true =>
      rcases run_unifyFlexRigid w hv with ⟨hrun, hmeets⟩ | ⟨hrun, hmeets⟩
      · exact ⟨_, _, hrun, .left hvr hmeets⟩
      · exact ⟨_, _, hrun, .clash (.flexRigid hvr hwr hmeets)⟩
    | false =>
      cases hc : v.typeclass with
      | none =>
        refine ⟨_, _, run_solve _ hv, .left hvr (fun c h => ?_)⟩
        rw [hc] at h
        cases h
      | some c =>
        cases hd : w.typeclass with
        | none =>
          refine ⟨_, _, run_solve _ hw, .right hwr (fun d h => ?_)⟩
          rw [hd] at h
          cases h
        | some d =>
          cases hjoin : Typeclass.join c d with
          | none => exact ⟨_, _, by simp only [hjoin]; rfl, .clash (.classes hvr hwr hc hd hjoin)⟩
          | some both =>
            simp only [hjoin]
            by_cases hleft : both = c
            · subst hleft
              rw [if_pos rfl]
              refine ⟨_, _, run_solve _ hw, .right hwr (meets_of_join hd hc ?_)⟩
              rw [Typeclass.join_comm, hjoin]
            · rw [if_neg hleft]
              by_cases hright : both = d
              · subst hright
                rw [if_pos rfl]
                exact ⟨_, _, run_solve _ hv, .left hvr (meets_of_join hc hd hjoin)⟩
              · rw [if_neg hright]
                refine ⟨_, _, ?_, .both hvr hwr hc hd hjoin⟩
                have hbind : StoreM.bind v (.var ⟨s.size, both.name, false⟩) s.extended =
                    .ok ((), s.extended.solved v.id (.var ⟨s.size, both.name, false⟩)) := by
                  rw [StoreM.bind, StoreM.change, bind_of_unsolved _ hv.extended]
                  rfl
                have hfresh : StoreM.freshVar both.name s =
                    .ok (.var ⟨s.size, both.name, false⟩, s.extended) := rfl
                rw [StoreM.run_bind_ok hfresh, StoreM.run_bind_ok hbind]
                exact run_solve _ (hw.extended.solved_of_ne _ (Ne.symm hne))

theorem leads_of_unsolved {v : TyVar} {n : Node} {aliases : Bool} (hun : s.Unsolved v.id)
    (h : s.Leads aliases (.var v) n) : n = .var v.id := by
  rcases reflTransGen_iff_eq_or_transGen.mp (leads_var_iff.mp h) with rfl | hpath
  · rfl
  · obtain ⟨m, hedge, -⟩ := TransGen.head'_iff.mp hpath
    obtain ⟨t, hsol, -⟩ := holds_of_edge hedge
    exact absurd hun (not_unsolved_of_some hsol)

/-- Solving a variable by another one. -/
theorem move_solved_var {Q : Set Mention} {v w : TyVar} (hv : s.Unsolved v.id) (hw : s.Unsolved w.id)
    (hne : v.id ≠ w.id) (hflex : v.rigid = false) (hvQ : .var v ∈ Q) (hwQ : .var w ∈ Q) :
    Move (s, Q) (s.solved v.id (.var w), Q) := by
  refine .solve hv hflex hvQ (fun r hr => ?_) (fun hleads => ?_)
  · obtain rfl : r = .var w := by simpa [Ty.mentions] using hr
    exact hwQ
  · exact hne (Node.var.inj (leads_of_unsolved hw hleads))

namespace Joins

variable {v w : TyVar} {o : Outcome} (h : s.Joins v w o s') (hv : s.Unsolved v.id)
  (hw : s.Unsolved w.id) (hne : v.id ≠ w.id)

include h hv hw hne

theorem calm : s.Calm (fun id => id = v.id ∨ id = w.id) s' := by
  cases h with
  | left _ _ => exact (calm_solved hv hw hne).mono (fun _ _ => .inl)
  | right _ _ => exact (calm_solved hw hv (Ne.symm hne)).mono (fun _ _ => .inr)
  | @both c d both _ _ _ _ _ =>
    have hfresh := unsolved_extended_self s
    have hvf : v.id ≠ s.size := Nat.ne_of_lt hv.1
    have hwf : w.id ≠ s.size := Nat.ne_of_lt hw.1
    have hfirst := calm_solved (w := ⟨s.size, both.name, false⟩) hv.extended hfresh hvf
    have hsecond := calm_solved (w := ⟨s.size, both.name, false⟩)
      (hw.extended.solved_of_ne (.var ⟨s.size, both.name, false⟩) (Ne.symm hne))
      (hfresh.solved_of_ne _ (Ne.symm hvf)) hwf
    exact ((calm_extended _ s).trans (hfirst.mono (fun _ _ => .inl))).trans
      (hsecond.mono (fun _ _ => .inr))
  | clash _ => exact .refl _ s

theorem moves {Q : Set Mention} (hvQ : .var v ∈ Q) (hwQ : .var w ∈ Q) :
    ∃ Q', Moves (s, Q) (s', Q') := by
  cases h with
  | left hvr _ => exact ⟨Q, .single (move_solved_var hv hw hne hvr hvQ hwQ)⟩
  | right hwr _ => exact ⟨Q, .single (move_solved_var hw hv (Ne.symm hne) hwr hwQ hvQ)⟩
  | @both c d both hvr hwr _ _ _ =>
    have hfresh := unsolved_extended_self s
    have hvf : v.id ≠ s.size := Nat.ne_of_lt hv.1
    have hwf : w.id ≠ s.size := Nat.ne_of_lt hw.1
    have hfQ := Set.mem_insert (.var ⟨s.size, both.name, false⟩) Q
    have hfirst := move_solved_var (w := ⟨s.size, both.name, false⟩) hv.extended hfresh hvf hvr
      (Set.mem_insert_of_mem _ hvQ) hfQ
    have hsecond := move_solved_var (w := ⟨s.size, both.name, false⟩)
      (hw.extended.solved_of_ne (.var ⟨s.size, both.name, false⟩) (Ne.symm hne))
      (hfresh.solved_of_ne _ (Ne.symm hvf)) hwf hwr (Set.mem_insert_of_mem _ hwQ) hfQ
    exact ⟨_, ((ReflTransGen.single (.fresh both.name false)).tail hfirst).tail hsecond⟩
  | clash _ => exact ⟨Q, .refl⟩

end Joins

end Store

end ElmInference
