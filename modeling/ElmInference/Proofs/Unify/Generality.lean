import ElmInference.Proofs.Unify.Acyclicity
import ElmInference.Proofs.Unify.Completeness
import ElmInference.Proofs.Unify.Soundness

/-!
# Unification of plain types finds the most general solution

On plain types unification is exact. It succeeds when some solution of the store makes the two types equal,
and the solutions of the store that it leaves are then these and no others, as far as the variables of the
first store go. None is added because unified types say the same, and none is lost.

The variables of a store are those that were handed out and those that its entries mention. Others can have
been allocated while variables were joined, but no type can hold them.
-/

namespace ElmInference

namespace Store

open Relation StoreM

variable {K : Set (Reading Rigid)} {V : Set TyVar} {s s' : Store} {Q : Set Mention} {a e t : Ty}

/-- The variables that types of a store can be built from, when those in `V` were handed out. -/
def inUse (s : Store) (V : Set TyVar) : Set Mention :=
  {r | ∃ v, r = .var v ∧ (v ∈ V ∨ ∃ id t, s.solution? id = some t ∧ .var v ∈ t.mentions false)}

/-- The stores that come of an empty store by allocating variables and by unifying and constraining plain
types, with whatever outcome; `V` collects the variables that are handed out. -/
inductive PlainReached : Set TyVar → Store → Prop
  | new : PlainReached ∅ {}
  | fresh {V : Set TyVar} {s : Store} (name : Name) (rigid : Bool) : PlainReached V s →
      PlainReached (insert (s.fresh name rigid).1 V) (s.fresh name rigid).2
  | unify {V : Set TyVar} {s s' : Store} {a e : Ty} {o : Outcome} : PlainReached V s →
      a.PlainIn (s.inUse V) → e.PlainIn (s.inUse V) → StoreM.unify a e s = .ok (o, s') →
      PlainReached V s'
  | constrain {V : Set TyVar} {s s' : Store} {c : Typeclass} {t : Ty} {o : Outcome} : PlainReached V s →
      t.PlainIn (s.inUse V) → StoreM.constrain c t s = .ok (o, s') → PlainReached V s'

theorem inUse_mono (hext : s.Extends s') : s.inUse V ⊆ s'.inUse V := by
  rintro r ⟨v, rfl, hv | ⟨id, t, hsol, hmem⟩⟩
  · exact ⟨v, rfl, .inl hv⟩
  · exact ⟨v, rfl, .inr ⟨id, t, hext.solution id t hsol, hmem⟩⟩

theorem Neat.inUse_subset (h : Neat (s, Q)) (hV : ∀ v ∈ V, .var v ∈ Q) : s.inUse V ⊆ Q := by
  rintro r ⟨v, rfl, hv | ⟨id, t, hsol, hmem⟩⟩
  · exact hV v hv
  · exact (h.regular id t hsol).within _ hmem

/-- Nothing but the variables in use is needed to keep a world neat. -/
theorem Neat.inUse (h : Neat (s, Q)) (hV : ∀ v ∈ V, .var v ∈ Q) : Neat (s, s.inUse V) := by
  refine h.restrict (h.inUse_subset hV) (fun id t hsol r hr => ?_)
  obtain ⟨v, rfl, -⟩ := h.owned r ((h.regular id t hsol).within r hr)
  exact ⟨v, rfl, .inr ⟨id, t, hsol, hr⟩⟩

theorem Lossless.var_mem {C : Env Rigid → Prop} {o : Outcome}
    (h : Lossless K (s, s.inUse V) (s', Q) C o) : ∀ v ∈ V, .var v ∈ Q :=
  fun v hv => h.subset ⟨v, rfl, .inl hv⟩

/-- What unifying regular types ends in. -/
theorem exists_lossless_unify (hneat : Neat (s, Q)) (ha : a.RegularIn Q) (he : e.RegularIn Q) :
    ∃ o s' Q', unify a e s = .ok (o, s') ∧
      Lossless K (s, Q) (s', Q') (fun η => a.read η = e.read η) o := by
  have hends := unify_returns hneat.sane (hneat.tidy.owns ha.within) (hneat.tidy.owns he.within)
  rcases unifying_unify (K := K) s a e Q hneat ha he with hstop | ⟨o, s', Q', hrun, hlossless, -⟩
  · exact absurd hstop hends
  · exact ⟨o, s', Q', hrun, hlossless⟩

theorem PlainReached.neat (h : PlainReached V s) : Neat (s, s.inUse V) := by
  induction h with
  | new => exact neat_empty.inUse (fun v hv => hv)
  | fresh name rigid _ ih =>
    refine (ih.fresh name rigid).inUse ?_
    rintro v (rfl | hv)
    · exact Set.mem_insert _ _
    · exact Set.mem_insert_of_mem _ ⟨v, rfl, .inl hv⟩
  | unify _ ha he hrun ih =>
    obtain ⟨o, s', Q', hrun', hlossless⟩ := exists_lossless_unify (K := Set.univ) ih ha.regular he.regular
    rw [hrun] at hrun'
    cases hrun'
    exact hlossless.neat.inUse hlossless.var_mem
  | @constrain V s s' c t o _ ht hrun ih =>
    rcases restricting_constrain (K := Set.univ) s c t _ ih ht.regular with hstop | ⟨o, s', Q', hrun', hlossless, -⟩
    · rw [hrun] at hstop
      cases hstop
    · rw [hrun] at hrun'
      cases hrun'
      exact hlossless.neat.inUse hlossless.var_mem

/-! ### Nothing is added -/

theorem Neat.not_hole (h : Neat (s, Q)) : .hole ∉ Q := by
  intro hhole
  obtain ⟨v, heq, -⟩ := h.owned _ hhole
  cases heq

/-- Regular types rest on nothing. -/
theorem Neat.based (h : Neat (s, Q)) (ht : t.RegularIn Q) : s.Based t := by
  intro u b hreads hrests
  have hu := (h.reads ht hreads).regular
  cases hrests with
  | base => cases hu
  | growing _ => cases hu

theorem Neat.read_of_unify (h : Neat (s, Q)) (ha : a.RegularIn Q) (he : e.RegularIn Q) {Q' : Set Mention}
    {η : Env Rigid} (hrun : unify a e s = .ok (.ok (), s')) (h' : Neat (s', Q')) (hQ : Q ⊆ Q')
    (hmodels : s'.Models η) : a.read η = e.read η :=
  sound_unify s a e Q h.tidy h.not_hole ha.within he.within s' hrun Rigid η s' (.refl s') hmodels
    (h'.based (ha.mono hQ)) (h'.based (he.mono hQ))

theorem Solves.earlier {η η' : Env Rigid} (h : Solves K (s', s'.inUse V) η') (hext : s.Extends s')
    (hneat : Neat (s, s.inUse V)) (hagree : ∀ id, id < s.size → η' (.var id) = η (.var id)) :
    Solves K (s, s.inUse V) η := by
  have hold : Solves K (s, s.inUse V) η' :=
    ⟨h.models.earlier hext, fun id hid => h.inside id (Nat.lt_of_lt_of_le hid hext.size),
      fun v hv => h.fits v (inUse_mono hext hv)⟩
  exact hold.congr hneat (fun id hid => (hagree id hid).symm)

/-! ### The main statement -/

theorem unify_exact (hK : ∀ x, x.Plain → x ∈ K) (hneat : Neat (s, s.inUse V))
    (ha : a.PlainIn (s.inUse V)) (he : e.PlainIn (s.inUse V)) :
    ∃ o s', unify a e s = .ok (o, s') ∧
      (o = .ok () ↔ ∃ η, Solves K (s, s.inUse V) η ∧ a.read η = e.read η) ∧
      (o = .ok () → ∀ η, Solves K (s, s.inUse V) η ∧ a.read η = e.read η ↔
        ∃ η', Solves K (s', s'.inUse V) η' ∧ ∀ id, id < s.size → η' (.var id) = η (.var id)) := by
  obtain ⟨o, s', Q', hrun, hlossless⟩ := exists_lossless_unify (K := K) hneat ha.regular he.regular
  have hneat' := hlossless.neat.inUse hlossless.var_mem
  have hback : o = .ok () → ∀ η η', Solves K (s', s'.inUse V) η' →
      (∀ id, id < s.size → η' (.var id) = η (.var id)) →
      Solves K (s, s.inUse V) η ∧ a.read η = e.read η := by
    intro ho η η' hsolves hagree
    subst ho
    have hread := hneat.read_of_unify ha.regular he.regular hrun hneat' (inUse_mono hlossless.extension) hsolves.models
    rw [hneat.read_congr ha.within hagree, hneat.read_congr he.within hagree] at hread
    exact ⟨hsolves.earlier hlossless.extension hneat hagree, hread⟩
  refine ⟨o, s', hrun, ⟨fun ho => ?_, ?_⟩, fun ho η => ⟨?_, ?_⟩⟩
  · obtain ⟨η', hsolves⟩ := hneat'.exists_solves hK
    exact ⟨η', hback ho η' η' hsolves (fun _ _ => rfl)⟩
  · rintro ⟨η, hsolves, hread⟩
    exact (hlossless.kept η hsolves hread).1
  · rintro ⟨hsolves, hread⟩
    obtain ⟨-, η', hsolves', hagree⟩ := hlossless.kept η hsolves hread
    refine ⟨η', ⟨hsolves'.models, hsolves'.inside, fun v hv => hsolves'.fits v ?_⟩, hagree⟩
    exact hlossless.neat.inUse_subset hlossless.var_mem hv
  · rintro ⟨η', hsolves, hagree⟩
    exact hback ho η η' hsolves hagree

/-- Unification of plain types succeeds exactly when some solution of the store makes them equal, whichever
of the two comes first. After a success the solutions are those in which they are equal, seen on the
variables that were there before. As closed types count those of any set that has the plain ones. -/
theorem unify_keeps_exactly_the_solutions {K : Set (Reading Rigid)} (hK : ∀ x, x.Plain → x ∈ K)
    {V : Set TyVar} {s : Store} (hs : PlainReached V s) {a e : Ty} (ha : a.PlainIn (s.inUse V))
    (he : e.PlainIn (s.inUse V)) :
    ∃ o s', unify a e s = .ok (o, s') ∧
      (o = .ok () ↔ ∃ η, Solves K (s, s.inUse V) η ∧ a.read η = e.read η) ∧
      (o = .ok () → ∀ η, Solves K (s, s.inUse V) η ∧ a.read η = e.read η ↔
        ∃ η', Solves K (s', s'.inUse V) η' ∧ ∀ id, id < s.size → η' (.var id) = η (.var id)) ∧
      ∃ o' s'', unify e a s = .ok (o', s'') ∧ (o' = .ok () ↔ o = .ok ()) := by
  obtain ⟨o, s', hrun, hok, hsolutions⟩ := unify_exact hK hs.neat ha he
  obtain ⟨o', s'', hrun', hok', -⟩ := unify_exact hK hs.neat he ha
  refine ⟨o, s', hrun, hok, hsolutions, o', s'', hrun', ?_⟩
  rw [hok, hok']
  simp only [eq_comm]

/-- A comparable and an appendable variable become one that is both, through functions that are curried
differently. -/
theorem unify_keeps_exactly_the_solutions_of_curried :
    let v : TyVar := ⟨0, "comparable", false⟩
    let w : TyVar := ⟨1, "appendable", false⟩
    let both : Ty := .var ⟨2, "compappend", false⟩
    let V : Set TyVar := insert w (insert v ∅)
    let s := ((({} : Store).fresh "comparable" false).2.fresh "appendable" false).2
    let s' : Store := { solutions := ⟨#[some both, some both, none]⟩ }
    let a : Ty := .arrow [.var v] (.arrow [.var w] .unit none) none
    let e : Ty := .arrow [.var w, .var v] .unit none
    PlainReached V s ∧ a.PlainIn (s.inUse V) ∧ e.PlainIn (s.inUse V) ∧ unify a e s = .ok (.ok (), s') ∧
      (∃ η, Solves {x | x.Plain} (s, s.inUse V) η ∧ a.read η = e.read η) ∧
      ∀ η, Solves {x | x.Plain} (s, s.inUse V) η ∧ a.read η = e.read η ↔
        ∃ η', Solves {x | x.Plain} (s', s'.inUse V) η' ∧
          ∀ id, id < s.size → η' (.var id) = η (.var id) := by
  intro v w both V s s' a e
  have hs : PlainReached V s := .fresh "appendable" false (.fresh "comparable" false .new)
  have hv : Ty.PlainIn (s.inUse V) (.var v) := Ty.plainIn_var.mpr ⟨v, rfl, .inl (by simp [V])⟩
  have hw : Ty.PlainIn (s.inUse V) (.var w) := Ty.plainIn_var.mpr ⟨w, rfl, .inl (by simp [V])⟩
  have hunit : Ty.PlainIn (s.inUse V) .unit := ⟨.unit, fun r hr => by cases hr⟩
  have ha : a.PlainIn (s.inUse V) := by
    refine .arrow (by simp) (List.forall_mem_singleton.mpr hv) ?_
    exact .arrow (by simp) (List.forall_mem_singleton.mpr hw) hunit
  have he : e.PlainIn (s.inUse V) :=
    .arrow (by simp) (List.forall_mem_cons.mpr ⟨hw, List.forall_mem_singleton.mpr hv⟩) hunit
  have hsuccess : unify a e s = .ok (.ok (), s') := by
    subst a e s s' both v w
    rfl
  obtain ⟨o, s₁, hrun, hok, hsolutions, -⟩ := unify_keeps_exactly_the_solutions (K := {x | x.Plain})
    (fun x hx => hx) hs ha he
  rw [hsuccess] at hrun
  cases hrun
  exact ⟨hs, ha, he, hsuccess, hok.mp rfl, hsolutions rfl⟩

end Store

end ElmInference
