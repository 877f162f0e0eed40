import ElmInference.Proofs.Infer.Recordfree
import ElmInference.Proofs.Unify.Soundness

/-!
# Worlds without records

A world is fieldless when nothing in it is a record, its types mention what is at hand, and its constrained variables
are kept to their classes. New variables and unification lead from one such world to another. In a fieldless world a
success of unification means what it says: in every later world the two types say the same as far as they are known, a
type that was unified with a number variable is a number type, and a variable that was unified with a function has this
function for its solution.
-/

namespace ElmInference

open Relation Store StoreM

/-! ### Types over what is at hand -/

namespace Ty

structure RecordlessIn (t : Ty) (Q : Set Mention) : Prop where
  within : t.Within Q
  recordless : t.Recordless

variable {Q Q' : Set Mention} {t : Ty}

theorem RecordlessIn.mono (h : t.RecordlessIn Q) (hQ : Q ⊆ Q') : t.RecordlessIn Q' :=
  ⟨h.within.mono hQ, h.recordless⟩

theorem recordlessIn_var {v : TyVar} (h : .var v ∈ Q) : (Ty.var v).RecordlessIn Q :=
  ⟨within_var.mpr h, recordless_var v⟩

theorem recordlessIn_unit : Ty.unit.RecordlessIn Q :=
  ⟨by simp [Within, mentions], recordless_unit⟩

theorem recordlessIn_unknown (hplain : ∀ r, r.node? = none → r ∈ Q) : Ty.unknown.RecordlessIn Q :=
  ⟨within_unknown hplain, recordless_unknown⟩

theorem recordlessIn_named (m n : Name) : (Ty.named m n []).RecordlessIn Q :=
  ⟨within_named_nil m n, recordless_union fun _ ht => absurd ht List.not_mem_nil⟩

theorem RecordlessIn.list (h : t.RecordlessIn Q) : (Ty.list t).RecordlessIn Q :=
  ⟨within_list h.within, recordless_union (List.forall_mem_singleton.mpr h.recordless)⟩

theorem recordlessIn_tuple {items : List Ty} (h : ∀ t ∈ items, t.RecordlessIn Q) : (Ty.tuple items).RecordlessIn Q :=
  ⟨within_tuple.mpr fun t ht => (h t ht).within, recordless_tuple fun t ht => (h t ht).recordless⟩

theorem recordlessIn_function {params : List Ty} {ret : Ty} (hparams : ∀ t ∈ params, t.RecordlessIn Q)
    (hret : ret.RecordlessIn Q) : (function params ret).RecordlessIn Q :=
  ⟨within_function (fun t ht => (hparams t ht).within) hret.within,
    recordless_function (fun t ht => (hparams t ht).recordless) hret.recordless⟩

theorem RecordlessIn.of_arrow {params : List Ty} {ret : Ty} {w : Option (AliasUse Ty)}
    (h : (Ty.arrow params ret w).RecordlessIn Q) : (∀ t ∈ params, t.RecordlessIn Q) ∧ ret.RecordlessIn Q := by
  obtain ⟨hparams, hret⟩ := within_arrow.mp h.within
  exact ⟨fun t ht => ⟨hparams t ht, h.recordless.part (.param ht)⟩, hret, h.recordless.part .ret⟩

theorem RecordlessIn.allParams (h : t.RecordlessIn Q) : ∀ u ∈ t.allParams, u.RecordlessIn Q :=
  fun u hu => ⟨within_allParams h.within u hu, recordless_allParams h.recordless u hu⟩

theorem RecordlessIn.applyParams (h : t.RecordlessIn Q) (count : Nat) : (t.applyParams count).RecordlessIn Q :=
  ⟨within_applyParams count h.within, recordless_applyParams count h.recordless⟩

end Ty

structure Scheme.RecordlessIn (scheme : Scheme) (Q : Set Mention) : Prop where
  within : scheme.Within Q
  recordless : scheme.ty.Recordless

theorem Scheme.RecordlessIn.mono {Q Q' : Set Mention} {scheme : Scheme} (h : scheme.RecordlessIn Q) (hQ : Q ⊆ Q') :
    scheme.RecordlessIn Q' :=
  ⟨h.within.mono hQ, h.recordless⟩

/-- A type that is at hand may be quantified in any way. -/
theorem Ty.RecordlessIn.scheme {Q : Set Mention} {t : Ty} (h : t.RecordlessIn Q) (vars : List TyVar) :
    Scheme.RecordlessIn ⟨vars, t⟩ Q :=
  ⟨fun r hr => .inl (h.within r hr), h.recordless⟩

theorem Scheme.recordlessIn_closed {Q : Set Mention} {t : Ty} (h : t.Recordless)
    (hplain : ∀ r, r.node? = none → r ∈ Q) : (Scheme.closed t).RecordlessIn Q :=
  ⟨Scheme.within_closed h.frozen hplain, h⟩

theorem Scheme.recordless_freshCopies (vars : List TyVar) (s : Store) :
    ∀ entry ∈ (freshCopies vars s).1, entry.2.Recordless := by
  induction vars generalizing s with
  | nil => simp [freshCopies]
  | cons v vars ih =>
    rw [freshCopies]
    exact List.forall_mem_cons.mpr ⟨Ty.recordless_var _, ih _⟩

theorem Scheme.recordless_instantiate {scheme : Scheme} (h : scheme.ty.Recordless) (s : Store) :
    (scheme.instantiate s).1.Recordless := by
  unfold Scheme.instantiate
  split
  · exact h
  · exact Ty.recordless_substTable (recordless_freshCopies _ _) h

/-! ### Worlds -/

namespace Store

structure Fieldless (w : World) : Prop where
  stocked : Stocked false (fun _ => True) w
  upholds : Upholds w
  plain : ∀ r, r.node? = none → r ∈ w.2
  recordless : w.1.Recordless Ty.Recordless

/-- A world in which more is at hand and more is known. -/
structure Succeeds (w w' : World) : Prop where
  subset : w.2 ⊆ w'.2
  extension : w.1.Extends w'.1

variable {s s' : Store} {Q Q' : Set Mention} {w w₁ w' : World}

theorem Succeeds.refl (w : World) : Succeeds w w :=
  ⟨subset_rfl, .refl _⟩

theorem Succeeds.trans (h : Succeeds w w₁) (h' : Succeeds w₁ w') : Succeeds w w' :=
  ⟨h.subset.trans h'.subset, h.extension.trans h'.extension⟩

theorem fieldless_blank : Fieldless blank :=
  ⟨stocked_blank, upholds_blank, fun _ hr => hr, recordless_empty⟩

theorem Fieldless.orderly (h : Fieldless w) : Orderly w :=
  ⟨h.stocked.tidy, h.stocked.named, h.plain⟩

theorem Fieldless.tidy (h : Fieldless w) : Tidy w :=
  h.stocked.tidy

theorem Fieldless.changes (h : Fieldless w) (hchanges : Changes false (fun _ => True) w w')
    (hrecordless : w'.1.Recordless Ty.Recordless) : Fieldless w' ∧ Succeeds w w' := by
  have hL := Ty.hereditary_true
  refine ⟨⟨hchanges.stocked hL h.stocked, hchanges.upholds hL h.stocked h.upholds, fun r hr => ?_, hrecordless⟩,
    hchanges.subset, hchanges.extends⟩
  exact hchanges.subset (h.plain r hr)

/-- New variables are no records. -/
theorem Fieldless.mints (h : Fieldless w) (hmints : Mints w w') : Fieldless w' ∧ Succeeds w w' :=
  h.changes hmints.changes (Recordless.mints hmints h.recordless)

/-- Unification brings no record up. -/
theorem Fieldless.unify (h : Fieldless (s, Q)) {a e : Ty} (ha : a.RecordlessIn Q) (he : e.RecordlessIn Q) {o : Outcome}
    (hrun : StoreM.unify a e s = .ok (o, s')) : ∃ Q', Fieldless (s', Q') ∧ Succeeds (s, Q) (s', Q') := by
  obtain ⟨_, _, hrun', -, hrecordless, -⟩ := exists_unify_of_recordless Ty.bare_recordless h.tidy.sane h.recordless
    (h.tidy.owns ha.within) (h.tidy.owns he.within) ha.recordless he.recordless
  cases hrun.symm.trans hrun'
  have halters := alters_unify Ty.hereditary_true h.stocked.toFilled (a := a) (e := e) ⟨ha.within, trivial⟩
    ⟨he.within, trivial⟩
  rw [hrun] at halters
  obtain ⟨Q', hchanges⟩ := halters
  exact ⟨Q', h.changes hchanges hrecordless⟩

theorem Fieldless.resolve (h : Fieldless (s, Q)) {t r : Ty} (ht : t.RecordlessIn Q) (hresolve : s.resolve t = .ok r) :
    r.RecordlessIn Q :=
  ⟨within_resolve h.tidy ht.within hresolve, h.recordless.resolves (resolvesTo_of_resolve hresolve) ht.recordless⟩

theorem Fieldless.callee (h : Fieldless (s, Q)) {t u r : Ty} (ht : t.RecordlessIn Q)
    (hcallee : s.callee t = .ok (u, r)) : u.RecordlessIn Q ∧ r.RecordlessIn Q :=
  callee_induct (fun _ _ => h.resolve) (fun _ _ hrecordless => hrecordless.of_arrow.2) ht hcallee

theorem Fieldless.zonk (h : Fieldless (s, Q)) {t z : Ty} (ht : t.RecordlessIn Q) (hzonk : s.zonk t = .ok z) :
    z.RecordlessIn Q :=
  ⟨h.orderly.within_zonk ht.within hzonk, (disclosed_zonk h.recordless ht.recordless hzonk).recordless⟩

/-! ### What a success of unification means -/

theorem Known.earlier {t : Ty} (h : s'.Known t) (hext : s.Extends s') : s.Known t :=
  fun u hreads => h u (hext.reads hreads)

theorem Known.child {t u : Ty} (h : s.Known t) (hchild : s.Child t u) : s.Known u :=
  fun _ hreads => h _ (.head hchild hreads)

theorem Recordless.child (h : s.Recordless Ty.Recordless) {t u : Ty} (ht : t.Recordless) (hchild : s.Child t u) :
    u.Recordless := by
  cases hchild with
  | solution hsol => exact h.solution _ _ hsol
  | arg hmem => exact ht.part (.arg hmem)
  | item hmem => exact ht.part (.item hmem)
  | param hmem => exact ht.part (.param hmem)
  | ret => exact ht.part .ret
  | field | base => exact absurd ht Ty.not_recordless_record
  | growingField hrec _ | growingBase hrec =>
    rw [h.records] at hrec
    cases hrec

/-- Where no record is, none rests on something else. -/
theorem Recordless.based (h : s.Recordless Ty.Recordless) {t : Ty} (ht : t.Recordless) : s.Based t := by
  intro u b hreads hrests
  have hu : u.Recordless := by
    clear hrests
    induction hreads with
    | refl => exact ht
    | tail _ hchild ih => exact h.child ih hchild
  cases hrests with
  | base => exact absurd hu Ty.not_recordless_record
  | growing hrec =>
    rw [h.records] at hrec
    cases hrec

/-- Types that were unified say the same ever after, as far as they are known. -/
theorem Fieldless.read_eq_of_unify (h : Fieldless (s, Q)) {a e : Ty} (ha : a.RecordlessIn Q) (he : e.RecordlessIn Q)
    {s₁ : Store} (hrun : StoreM.unify a e s = .ok (.ok (), s₁)) (hext : s₁.Extends s')
    (hs' : s'.Recordless Ty.Recordless) {κ : Type} {η : Env κ} (hmodels : s'.Models η) (hka : s'.Known a)
    (hke : s'.Known e) : a.read η = e.read η := by
  obtain ⟨_, -, hlater⟩ := h.unify ha he hrun
  have hbefore := hlater.extension.trans hext
  have htidy := tidy_talk h.tidy.sane (h.tidy.owns ha.within) (h.tidy.owns he.within)
  refine sound_unify s a e _ htidy (not_hole_talk (hka.earlier hbefore) (hke.earlier hbefore))
    (fun r hr => talk_of_reads (.inl .refl) .refl hr) (fun r hr => talk_of_reads (.inr .refl) .refl hr) s₁ hrun κ η s'
    hext hmodels (hs'.based ha.recordless) (hs'.based he.recordless)

theorem Guards.of_resolvesTo {c : Typeclass} {t r : Ty} (h : s'.Guards c r) (hext : s.Extends s')
    (hresolves : s.ResolvesTo t r) : s'.Guards c t := by
  induction hresolves with
  | solved hsol _ ih => exact .solved (hext.solution _ _ hsol) (ih h)
  | unsolved _ => exact h
  | other _ => exact h

def JoinsClass : Behaviour := fun s a e res =>
  ∀ Q s' v c, Orderly (s, Q) → a.Within Q → e.Within Q → e = .var v → s.Unsolved v.id → v.typeclass = some c →
    s.Extends s' → s'.Known a → res = .ok (.ok (), s') → s'.Guards c a

theorem joinsClass_resolved {R : Behaviour} {v : TyVar} {c : Typeclass} {a : Ty} (hw : Orderly (s, Q)) (ha : a.Within Q)
    (hv : .var v ∈ Q) (hleft : ∀ u, a = .var u → s.Unsolved u.id) (hun : s.Unsolved v.id) (hc : v.typeclass = some c)
    (hknown : s'.Known a) (h : Resolved R s a (.var v) (.ok (.ok (), s'))) : s'.Guards c a := by
  have hpromises : v.Promises c := ⟨c, hc, Typeclass.join_self c⟩
  generalize hres : (.ok (.ok (), s') : Ending Outcome) = res at h
  cases h with
  | accepted haccepts =>
    cases hres
    cases a with
    | unknown => exact .unknown
    | inProgress => exact absurd rfl (hknown _ .refl).2
    | _ => cases haccepts <;> contradiction
  | @same u _ hid =>
    obtain rfl := hw.named u v (Ty.within_var.mp ha) hv hid
    exact .named hpromises trivial
  | @vars u _ _ hne hrun =>
    obtain ⟨o, s₁, hrun', hjoins⟩ := joins_unifyVars (hleft u rfl) hun hne
    cases hrun'.symm.trans (hrun.trans hres.symm)
    cases hjoins with
    | left _ _ => exact .solved (solution?_solved_self _ (hleft u rfl).1) (.named hpromises trivial)
    | right _ hmeets => exact .named (hmeets c hc) trivial
    | @both _ _ both _ _ _ hd hjoin =>
      obtain rfl := Option.some.inj (hc.symm.trans hd)
      have hboth : TyVar.Promises ⟨s.size, both.name, false⟩ c :=
        ⟨both, typeclass_of_name _ _ _, (Typeclass.join_joined hjoin).2⟩
      refine .solved (t := .var ⟨s.size, both.name, false⟩) ?_ (.named hboth trivial)
      rw [solution?_solved_of_ne _ _ hne]
      exact solution?_solved_self _ (hleft u rfl).extended.1
  | varRight hshape hrun =>
    obtain ⟨o, s₁, hrun', hbound⟩ := bound_unifyVar hw.tidy hun ha
    cases hrun'.symm.trans (hrun.trans hres.symm)
    cases hbound with
    | solved _ hmet hun₁ _ _ => exact (guards_constrainLike hmet c hc).later (extends_solved _ hun₁)
    | copied heq _ hmet _ _ => exact absurd (guards_constrainLike hmet c hc) (not_guards_record (heq ▸ rfl))
  | varLeft hshape _ => cases hshape
  | record _ hshape _ => cases hshape
  | clash _ hshape _ => cases hshape

theorem joinsClass_unify (s : Store) (a e : Ty) : JoinsClass s a e (StoreM.unify a e s) := by
  refine unify_induct (P := JoinsClass) ?_ ?_ s a e
  · intro s a e Q s' v c _ _ _ _ _ _ _ _ hres
    cases hres
  · rintro s a e res h Q s' v c hw ha he rfl hun hc hext hknown rfl
    cases h with
    | resolved hra hre hres =>
      have hra' := resolvesTo_of_resolve hra
      refine Guards.of_resolvesTo ?_ hext hra'
      cases resolvesTo_of_resolve hre with
      | solved hsol _ => exact absurd hun (not_unsolved_of_some hsol)
      | other hne => exact absurd rfl (hne v)
      | unsolved _ =>
        refine joinsClass_resolved hw (within_resolve hw.tidy ha hra) (Ty.within_var.mp he)
          (fun u heq => (heq ▸ hra').unsolved_of_var) hun hc ?_ hres
        exact fun u hreads => hknown u ((hext.reads hra'.reads).trans hreads)

/-- A type that was unified with a new variable of a class is of that class ever after, if it is known. -/
theorem Fieldless.guards_of_unify (h : Fieldless (s, Q)) {a : Ty} {v : TyVar} {c : Typeclass} (ha : a.RecordlessIn Q)
    (hv : .var v ∈ Q) (hun : s.Unsolved v.id) (hc : v.typeclass = some c) {s₁ : Store}
    (hrun : StoreM.unify a (.var v) s = .ok (.ok (), s₁)) (hext : s₁.Extends s') (hknown : s'.Known a) :
    s'.Guards c a := by
  obtain ⟨_, -, hlater⟩ := h.unify ha (Ty.recordlessIn_var hv) hrun
  have hguards := joinsClass_unify s a (.var v) Q s₁ v c h.orderly ha.within (Ty.within_var.mpr hv) rfl hun hc
    hlater.extension (hknown.earlier hext) hrun
  exact hguards.later hext

def SolvesByFunction : Behaviour := fun s a e res =>
  ∀ Q s' v params ret w, Tidy (s, Q) → e.Within Q → s.ResolvesTo a (.var v) → e = .arrow params ret w →
    res = .ok (.ok (), s') → s'.solution? v.id = some e

theorem solvesByFunction_unify (s : Store) (a e : Ty) : SolvesByFunction s a e (StoreM.unify a e s) := by
  refine unify_induct (P := SolvesByFunction) ?_ ?_ s a e
  · intro s a e Q s' v params ret w _ _ _ _ hres
    cases hres
  · rintro s a e res h Q s' v params ret w hw he hresolves rfl hres
    cases h with
    | lostLeft => cases hres
    | lostRight => cases hres
    | resolved hra hre hresolved =>
      obtain rfl := (resolvesTo_of_resolve hra).unique hresolves
      cases resolvesTo_of_resolve hre with
      | other _ =>
        cases hresolved with
        | accepted haccepts => cases haccepts <;> contradiction
        | varLeft _ hrun =>
          obtain ⟨o, s₁, hrun', hbound⟩ := bound_unifyVar hw hresolves.unsolved_of_var he
          cases hrun'.symm.trans (hrun.trans hres)
          cases hbound with
          | solved _ _ hun₁ _ _ => exact solution?_solved_self _ hun₁.1
          | copied heq _ _ _ _ => cases heq
        | record hshape _ _ => cases hshape
        | clash hshape _ _ => cases hshape

end Store

end ElmInference
