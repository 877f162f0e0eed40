import ElmInference.Proofs.Store.Rezonking
import ElmInference.Proofs.Unify.Acyclicity
import ElmInference.Proofs.Unify.Footprint
import ElmInference.Proofs.Unify.Repetition

/-!
# What calls add to a store

Unifying and constraining solve variables, and they solve none of them by the unknown type. A variable is solved by a
type with a shape or by a variable that had no solution either, so in no later store does an unsolved variable turn out
to be unknown. This is all that zonking early depends on.
-/

namespace ElmInference

namespace Store

open Relation StoreM

variable {s s₁ s' : Store} {w w' : World}

/-- Whether a store has grown out of another one by solutions that say something: each has a shape, or it is a variable
that had no solution. -/
structure Enriches (s s' : Store) : Prop extends s.Extends s' where
  news : ∀ id u, s'.solution? id = some u → s.solution? id = none →
    (∃ v : TyVar, u = .var v ∧ s.solution? v.id = none) ∨ (u.Applicable ∧ ∃ shape, shape? u = some shape)

theorem Enriches.refl (s : Store) : s.Enriches s :=
  ⟨.refl s, fun id u hsol hnone => by rw [hnone] at hsol; cases hsol⟩

theorem Extends.solution?_none (h : s.Extends s') {id : VarId} (hnone : s'.solution? id = none) :
    s.solution? id = none := by
  cases hsol : s.solution? id with
  | none => rfl
  | some t =>
    rw [h.solution id t hsol] at hnone
    cases hnone

theorem Enriches.trans (h : s.Enriches s₁) (h' : s₁.Enriches s') : s.Enriches s' := by
  refine ⟨h.toExtends.trans h'.toExtends, fun id u hsol hnone => ?_⟩
  cases hmid : s₁.solution? id with
  | none =>
    rcases h'.news id u hsol hmid with ⟨v, hu, hv⟩ | hshape
    · exact .inl ⟨v, hu, h.toExtends.solution?_none hv⟩
    · exact .inr hshape
  | some t =>
    cases (h'.solution id t hmid).symm.trans hsol
    exact h.news id _ hmid hnone

theorem enriches_of_same (h : s.Extends s') (hsame : ∀ id, s'.solution? id = s.solution? id) : s.Enriches s' :=
  ⟨h, fun id u hsol hnone => by rw [hsame, hnone] at hsol; cases hsol⟩

theorem enriches_solved {id : VarId} {t : Ty} (hun : s.Unsolved id)
    (h : (∃ v : TyVar, t = .var v ∧ s.solution? v.id = none) ∨ (t.Applicable ∧ ∃ shape, shape? t = some shape)) :
    s.Enriches (s.solved id t) := by
  refine ⟨extends_solved t hun, fun other u hsol hnone => ?_⟩
  by_cases hid : other = id
  · subst hid
    rw [solution?_solved_self t hun.1] at hsol
    cases hsol
    exact h
  · rw [solution?_solved_of_ne s t hid, hnone] at hsol
    cases hsol

theorem Change.enriches (h : Change false Ty.Applicable w w') : w.1.Enriches w'.1 := by
  cases h with
  | fresh name rigid => exact enriches_of_same (extends_extended _) (by simp)
  | copy _ => exact enriches_of_same (extends_recorded _ _) (by simp)
  | @join s Q v u hv hu _ _ _ _ _ => exact enriches_solved hv (.inl ⟨u, rfl, hu.2⟩)
  | bind hun _ _ ht _ hshape _ => exact enriches_solved hun (.inr ⟨ht.property, _, hshape⟩)
  | close hun _ _ ht _ hshape => exact enriches_solved hun (.inr ⟨ht.property, _, hshape⟩)

theorem Changes.enriches (h : Changes false Ty.Applicable w w') : w.1.Enriches w'.1 := by
  induction h with
  | refl => exact .refl _
  | tail _ hchange ih => exact ih.trans hchange.enriches

/-! ### Nothing turns out to be unknown -/

/-- A type with a shape is not written out as the unknown type. -/
theorem zonkAt_ne_unknown {t : Ty} (ht : t.Applicable) {shape : Shape} (hshape : shape? t = some shape) (n : Nat) :
    s.zonkAt n t ≠ .ok .unknown := by
  intro hz
  rw [zonkAt_eq] at hz
  cases t with
  | unit => cases hz
  | tuple items =>
    rw [zonkWith] at hz
    obtain ⟨zs, -, hz⟩ := exists_of_bind_ok hz
    cases hz
  | union m n args w =>
    rw [zonkWith] at hz
    obtain ⟨zs, -, hz⟩ := exists_of_bind_ok hz
    obtain ⟨w', -, hz⟩ := exists_of_bind_ok hz
    cases hz
  | record fields base w refs =>
    obtain ⟨zs, b, w', -, -, -, hz⟩ := exists_of_zonkWith_record hz
    exact writtenAs?_ne_unknown (recordWith_ne_unknown _ _ _) _ hz.symm
  | growing id =>
    cases hrec : s.records[id]? with
    | none =>
      have hlost : s.record id = .error (.missingRecord id) := by simp [Store.record, hrec]
      rw [zonkWith, hlost] at hz
      cases hz
    | some g =>
      rw [zonkWith_growing hrec] at hz
      obtain ⟨zs, -, hz⟩ := exists_of_bind_ok hz
      obtain ⟨b, -, hz⟩ := exists_of_bind_ok hz
      exact writtenOut_ne_unknown _ _ _ (Except.ok.inj hz)
  | arrow params ret w =>
    obtain ⟨zs, r, w', hzs, -, -, hz⟩ := exists_of_zonkWith_arrow hz
    have hne : params ≠ [] := fun hnil => ht _ .refl ret w (by rw [hnil])
    exact writtenAs?_ne_unknown (fun h => ne_nil_of_zonkList hne hzs (function_eq_unknown_iff.mp h).1) _ hz.symm
  | var | unknown | inProgress => cases hshape

/-- A variable that was unsolved is not written out as the unknown type later. -/
theorem Enriches.zonkAt_ne_unknown (h : s.Enriches s') (n : Nat) {v : TyVar} (hv : s.solution? v.id = none) :
    s'.zonkAt n (.var v) ≠ .ok .unknown := by
  intro hz
  induction n generalizing v with
  | zero =>
    rcases zonkAt_var_cases hz with ⟨-, hvar⟩ | ⟨k, u, hk, -, -⟩
    · cases hvar
    · cases hk
  | succ n ih =>
    rcases zonkAt_var_cases hz with ⟨-, hvar⟩ | ⟨k, u, hk, hsol, hz⟩
    · cases hvar
    · obtain rfl := Nat.succ.inj hk
      rcases h.news v.id u hsol hv with ⟨w, rfl, hw⟩ | ⟨happlicable, shape, hshape⟩
      · exact ih hw hz
      · exact Store.zonkAt_ne_unknown happlicable hshape n hz

/-! ### Calls -/

/-- A store takes one more variable, or one more call. The outcome of a call does not matter. -/
inductive Proceeds (s : Store) : Store → Prop
  | fresh (name : Name) (rigid : Bool) : s.Proceeds (s.fresh name rigid).2
  | call {a e : Ty} {s' : Store} : s.Owns a → s.Owns e → a.Applicable → e.Applicable → s.Call a e s' → s.Proceeds s'

theorem Proceeds.changes (h : s.Proceeds s') (hsane : s.Sane) (happlicable : s.Applicable) :
    ∃ Q, Changes false Ty.Applicable (s, {r | s.Has r}) (s', Q) := by
  have hw := happlicable.filled hsane
  cases h with
  | fresh name rigid => exact ⟨_, .single (.fresh name rigid)⟩
  | call ha he hleft hright hcall =>
    cases hcall with
    | unify hrun =>
      have halters := alters_unify Ty.hereditary_applicable hw ⟨ha, hleft⟩ ⟨he, hright⟩
      rwa [hrun] at halters
    | @constrain c _ _ _ hrun =>
      have halters := alters_constrain Ty.hereditary_applicable c hw ⟨ha, hleft⟩
      rwa [hrun] at halters

/-- Calls keep a store in order and only enrich it. -/
theorem enriches_of_proceeds (h : ReflTransGen Proceeds s s') (hsane : s.Sane) (happlicable : s.Applicable) :
    s'.Sane ∧ s'.Applicable ∧ s.Enriches s' := by
  induction h with
  | refl => exact ⟨hsane, happlicable, .refl s⟩
  | tail _ hstep ih =>
    obtain ⟨hsane, happlicable, henriches⟩ := ih
    obtain ⟨Q, hchanges⟩ := hstep.changes hsane happlicable
    have hfilled := hchanges.filled Ty.hereditary_applicable (happlicable.filled hsane)
    exact ⟨hfilled.tidy.sane, ⟨fun id t hsol => (hfilled.solution id t hsol).property,
      fun id g hrec => (hfilled.record id g hrec).property⟩, henriches.trans hchanges.enriches⟩

/-- Zonking early is harmless. However many variables are allocated and whatever is unified and constrained after a type
was zonked, zonking the result gives what zonking the type gives. -/
theorem zonking_early_is_harmless {s s' : Store} (hacyclic : s.Acyclic) (hclosed : s.Closed) (hproper : s.Proper)
    (hcalls : ReflTransGen Proceeds s s') {t z z' : Ty} (ht : t.Proper) (hz : s.zonk t = .ok z)
    (hz' : s'.zonk t = .ok z') : s'.zonk z = .ok z' := by
  have happlicable : s.Applicable :=
    ⟨fun id u hsol => (hproper.solution id u hsol).applicable, fun id g hrec => (hproper.record id g hrec).applicable⟩
  obtain ⟨-, -, henriches⟩ := enriches_of_proceeds hcalls (hacyclic.sane hclosed) happlicable
  have hknown : ∀ v : TyVar, s.Unsolved v.id → ∀ n, s'.zonkAt n (.var v) ≠ .ok .unknown :=
    fun v hun n => henriches.zonkAt_ne_unknown n hun.2
  exact (rezonks_of_zonkAt henriches.toExtends hknown hproper hz ht).zonk _ z' hz'

/-- While `a` extends `b` by a field `x`, the record `{ a | y : () }` is zonked. Then `b` becomes `{ z : () }`. -/
theorem zonking_early_is_harmless_of_row :
    let a : Ty := .var ⟨0, "a", false⟩
    let b : Ty := .var ⟨1, "b", false⟩
    let s : Store :=
      { solutions := ⟨#[some (.growing 0), none]⟩, records := #[{ fields := [("x", .unit)], base := b }] }
    let ended : Ty := .record [("z", .unit)] none none .empty
    let s' : Store := { s with solutions := ⟨#[some (.growing 0), some ended]⟩ }
    let t : Ty := .record [("y", .unit)] (some a) none .empty
    let z : Ty := .record [("y", .unit), ("x", .unit)] (some b) none .empty
    let z' : Ty := .record [("y", .unit), ("x", .unit), ("z", .unit)] none none .empty
    s.Acyclic ∧ s.Closed ∧ s.Proper ∧ unify b ended s = .ok (.ok (), s') ∧ ReflTransGen Proceeds s s' ∧
      t.Proper ∧ s.zonk t = .ok z ∧ s'.zonk t = .ok z' ∧ s'.zonk z = .ok z' := by
  intro a b s ended s' t z z'
  have hstart : ({} : Store).extended.extended.Sane := sane_empty.extended.extended
  have hbegun : unify a (.record [("x", .unit)] (some b) none .empty) ({} : Store).extended.extended =
    .ok (.ok (), s) := rfl
  have hsane : s.Sane := hstart.unify (by decide) (by decide) hbegun
  have hfields : ∀ (name : Name), ∀ field ∈ [(name, Ty.unit)], field.2.Proper := by
    intro name field hfield
    cases List.mem_singleton.mp hfield
    exact .unit
  have hproper : s.Proper := by
    constructor
    · intro id u hsol
      have hlt : id < 2 := lt_size_of_solution? hsol
      rcases id with _ | _ | id
      · cases hsol
        exact .growing 0
      · cases hsol
      · exact absurd hlt (Nat.not_lt.mpr (Nat.le_add_left 2 id))
    · intro id g hrec
      obtain rfl : id = 0 := Nat.lt_one_iff.mp (lt_size_of_record? hrec)
      cases hrec
      refine .record (hfields "x") (fun u hu => ?_) (by simp [Ty.aliasArgs]) FieldReferences.orderly_empty
      cases hu
      exact .var _
  have hended : ended.Applicable :=
    (Ty.Proper.record (hfields "z") (by simp) (by simp [Ty.aliasArgs]) FieldReferences.orderly_empty).applicable
  have hrun : unify b ended s = .ok (.ok (), s') := rfl
  have hcalls : ReflTransGen Proceeds s s' :=
    .single (.call (by decide) (by decide) (Ty.hereditary_applicable.var _) hended (.unify hrun))
  have ht : t.Proper := by
    refine .record (hfields "y") (fun u hu => ?_) (by simp [Ty.aliasArgs]) FieldReferences.orderly_empty
    cases hu
    exact .var _
  exact ⟨hsane.acyclic, hsane.closed, hproper, hrun, hcalls, ht, rfl, rfl,
    zonking_early_is_harmless hsane.acyclic hsane.closed hproper hcalls ht rfl rfl⟩

end Store

end ElmInference
