import ElmInference.Proofs.Store.Tracking
import ElmInference.Proofs.Unify.AliasLoops
import ElmInference.Proofs.Unify.Fixpoint

/-!
# Unification without records

Only records make unification fault: it is the open end of a record that may have been solved in the meantime. Where
neither the store nor the two types hold a record, unification always comes to an answer, no record enters the store,
and what the answer says about a failure is no difference between records.

A property of types that rules records out may go along, if it holds of variables, passes to parts and can be told of a
function from its parts. Two are of interest, that no part of a type is a record, and that aliases show what they hold
as well; in the latter case zonking always ends, too.
-/

namespace ElmInference

open Relation StoreM

namespace Ty

/-- A property of types without records that unification passes on. -/
structure Bare (L : Ty → Prop) : Prop where
  var : ∀ v, L (.var v)
  part : ∀ t u, t.Part u → L t → L u
  arrow : ∀ params ret, params ≠ [] → (∀ t ∈ params, L t) → L ret → L (.arrow params ret none)
  shape : ∀ t, L t → shape? t ≠ some .record

section Bare

variable {L : Ty → Prop} (hL : Bare L)

include hL

theorem Bare.function {params : List Ty} {ret : Ty} (hparams : ∀ t ∈ params, L t) (hret : L ret) :
    L (function params ret) :=
  function_closed hL.arrow (fun _ _ h => ⟨fun _ ht => hL.part _ _ (.param ht) h, hL.part _ _ .ret h⟩) hparams hret

theorem Bare.dropParams {params : List Ty} {ret : Ty} {w : Option (AliasUse Ty)} (count : Nat)
    (h : L (.arrow params ret w)) : L (dropParams params ret count) := by
  rw [dropParams_eq_function]
  exact hL.function (fun t ht => hL.part _ _ (.param (List.mem_of_mem_drop ht)) h) (hL.part _ _ .ret h)

end Bare

def Recordless (t : Ty) : Prop :=
  ∀ u, ReflTransGen Part t u → shape? u ≠ some .record

theorem Recordless.part {t u : Ty} (h : t.Recordless) (hpart : t.Part u) : u.Recordless :=
  fun v hv => h v (.head hpart hv)

theorem recordless_of_parts {t : Ty} (hshape : shape? t ≠ some .record) (hparts : ∀ u, t.Part u → u.Recordless) :
    t.Recordless := by
  intro u hreads
  rcases hreads.cases_head with rfl | ⟨v, hpart, hrest⟩
  · exact hshape
  · exact hparts v hpart u hrest

theorem bare_recordless : Bare Recordless where
  var v := recordless_of_parts (by simp [shape?]) (fun u hpart => by cases hpart)
  part _ _ hpart h := h.part hpart
  arrow params ret _ hparams hret := by
    refine recordless_of_parts (by simp [shape?]) (fun u hpart => ?_)
    cases hpart with
    | param hmem => exact hparams u hmem
    | ret => exact hret
  shape t h := h t .refl

/-- A type without records, whose functions take arguments and whose aliases show in the type what they hold. -/
structure Legible (t : Ty) : Prop where
  recordless : t.Recordless
  applicable : t.Applicable
  overt : t.Overt

/-- A type without alias is legible when its parts are. -/
theorem legible_of_parts {t : Ty} (hshape : shape? t ≠ some .record) (harrow : ∀ ret w, t ≠ .arrow [] ret w)
    (hwritten : t.written? = none) (hparts : ∀ u, t.Part u → u.Legible) : t.Legible :=
  ⟨recordless_of_parts hshape fun u hu => (hparts u hu).recordless,
    applicable_of_parts harrow fun u hu => (hparts u hu).applicable,
    overt_of_parts hwritten fun u hu => (hparts u hu).overt⟩

theorem bare_legible : Bare Legible where
  var v := legible_of_parts (by simp [shape?]) (by simp) rfl (fun u hpart => by cases hpart)
  part _ _ hpart h := ⟨h.recordless.part hpart, h.applicable.part hpart, h.overt.part hpart⟩
  arrow params ret hne hparams hret := by
    refine legible_of_parts (by simp [shape?]) (by simp [hne]) rfl (fun u hpart => ?_)
    cases hpart with
    | param hmem => exact hparams u hmem
    | ret => exact hret
  shape t h := bare_recordless.shape t h.recordless

end Ty

namespace Store

variable {L : Ty → Prop} {T : VarId → Prop} {s s' : Store}

/-- A store without records, the solutions of which have a property. -/
structure Recordless (L : Ty → Prop) (s : Store) : Prop where
  records : s.records = #[]
  solution : ∀ id t, s.solution? id = some t → L t

theorem recordless_empty : Recordless L {} := by
  refine ⟨rfl, fun id t hsol => ?_⟩
  rw [solution?_empty] at hsol
  cases hsol

theorem Recordless.extended (h : s.Recordless L) : s.extended.Recordless L :=
  ⟨h.records, fun id t hsol => h.solution id t (by simpa using hsol)⟩

theorem Recordless.solved (h : s.Recordless L) {id : VarId} {t : Ty} (ht : L t) : (s.solved id t).Recordless L := by
  refine ⟨h.records, fun other u hsol => ?_⟩
  rcases solution?_solved_cases hsol with ⟨-, rfl⟩ | hold
  · exact ht
  · exact h.solution other u hold

theorem Recordless.calm (h : s.Recordless L) (hL : Ty.Bare L) (hcalm : s.Calm T s') : s'.Recordless L := by
  refine ⟨hcalm.records.trans h.records, fun id t hsol => ?_⟩
  rcases hcalm.solution id t hsol with hold | ⟨v, rfl⟩
  · exact h.solution id t hold
  · exact hL.var v

theorem Recordless.resolves (h : s.Recordless L) {t r : Ty} (hr : s.ResolvesTo t r) (ht : L t) : L r := by
  induction hr with
  | solved hsol _ ih => exact ih (h.solution _ _ hsol)
  | _ => exact ht

end Store

/-! ### Failures -/

def Outcome.Flat (o : Outcome) : Prop :=
  ∀ diff, o ≠ .error (.record diff)

namespace Outcome

variable {o o' : Outcome}

theorem flat_ok : Flat (.ok ()) :=
  fun _ heq => by cases heq

theorem flat_mismatch : Flat .mismatch :=
  fun _ heq => by cases heq

theorem flat_infiniteType : Flat (.error .infiniteType) :=
  fun _ heq => by cases heq

theorem flat_nested (o : Outcome) : o.nested.Flat := by
  rcases o with (_ | _ | _) | ⟨⟩
  · exact flat_mismatch
  · exact flat_infiniteType
  · exact flat_mismatch
  · exact flat_ok

theorem Flat.andThen (h : o.Flat) (h' : o'.Flat) : (o.andThen o').Flat := by
  rcases o with e | ⟨⟩
  · exact h
  · exact h'

end Outcome

theorem Store.Joins.flat {s s' : Store} {v w : TyVar} {o : Outcome} (h : s.Joins v w o s') : o.Flat := by
  cases h with
  | left _ _ => exact Outcome.flat_ok
  | right _ _ => exact Outcome.flat_ok
  | both _ _ _ _ _ => exact Outcome.flat_ok
  | clash _ => exact Outcome.flat_mismatch

namespace StoreM

open Store

variable {L : Ty → Prop} {s s₁ s' : Store} {Q Q₁ : Set Mention}

/-- Constraining a type fails in one way only. -/
theorem flat_constrain {c : Typeclass} {t : Ty} {o : Outcome} (h : constrain c t s = .ok (o, s')) : o.Flat := by
  refine constrainAt_induct (P := fun _ _ _ res => ∀ o s', res = .ok (o, s') → o.Flat) ?_
    (fun _ _ _ _ _ heq => by cases heq) _ s c t o s' h
  have hitems : ∀ {s : Store} {ts : List Ty} {res : Ending Outcome},
      Items (fun _ _ _ res => ∀ o s', res = .ok (o, s') → o.Flat) s ts res → ∀ o s', res = .ok (o, s') → o.Flat := by
    intro s ts res hitems o s' heq
    induction hitems with
    | nil =>
      cases heq
      exact Outcome.flat_ok
    | fault _ => cases heq
    | stop _ =>
      cases heq
      exact Outcome.flat_mismatch
    | cons _ _ ih => exact ih heq
  intro s c t res hres o s' heq
  cases hres with
  | unknown =>
    cases heq
    exact Outcome.flat_ok
  | lost _ => cases heq
  | solved _ hfollow => exact hfollow o s' heq
  | unsolved hun hrun =>
    obtain ⟨o', s'', hrun', hjoins⟩ := joins_unifyVars (w := ⟨s.size, c.name, false⟩) hun.extended
      (unsolved_extended_self s) (Nat.ne_of_lt hun.1)
    rw [hrun'] at hrun
    cases hrun.trans heq
    exact hjoins.flat
  | tuple hparts => exact hitems hparts o s' heq
  | list _ hparts => exact hitems hparts o s' heq
  | admitted _ _ =>
    cases heq
    exact Outcome.flat_ok
  | refused _ =>
    cases heq
    exact Outcome.flat_mismatch

theorem flat_constrainLike {v : TyVar} {t : Ty} {o : Outcome} (h : constrainLike v t s = .ok (o, s')) : o.Flat := by
  unfold constrainLike at h
  cases hc : v.typeclass with
  | none =>
    rw [hc] at h
    cases h
    exact Outcome.flat_ok
  | some c =>
    rw [hc] at h
    exact flat_constrain h

/-! ### What unification does to a store without records -/

/-- How unification may end where no record is around: with an answer that is no difference of records, after moves
that bring no record into the store. The only fault is to be out of steps. -/
def Stays (L : Ty → Prop) (w : World) : Ending Outcome → Prop
  | .ok (o, s') => (∃ Q', Moves w (s', Q')) ∧ s'.Recordless L ∧ o.Flat
  | .error fault => fault = .diverged

def Staying (L : Ty → Prop) : Behaviour := fun s a e res =>
  ∀ Q, Tidy (s, Q) → s.Recordless L → a.Within Q → e.Within Q → L a → L e → Stays L (s, Q) res

theorem Stays.after {res : Ending Outcome} (hmoves : Moves (s, Q) (s₁, Q₁)) (h : Stays L (s₁, Q₁) res) :
    Stays L (s, Q) res := by
  cases res with
  | error fault => exact h
  | ok p =>
    obtain ⟨⟨Q', hmoves'⟩, hrest⟩ := h
    exact ⟨⟨Q', hmoves.trans hmoves'⟩, hrest⟩

theorem stays_refl {o : Outcome} (h : s.Recordless L) (ho : o.Flat) : Stays L (s, Q) (.ok (o, s)) :=
  ⟨⟨Q, .refl⟩, h, ho⟩

theorem within_rest {p : Ty × Ty} {rest : List (Ty × Ty)} (h : ∀ q ∈ p :: rest, q.1.Within Q ∧ q.2.Within Q)
    (hQ : Q ⊆ Q₁) : ∀ q ∈ rest, q.1.Within Q₁ ∧ q.2.Within Q₁ := by
  intro q hq
  obtain ⟨ha, he⟩ := h q (List.mem_cons_of_mem _ hq)
  exact ⟨ha.mono hQ, he.mono hQ⟩

theorem stays_pairs {pairs : List (Ty × Ty)} {res : Ending Outcome} (h : Pairs (Staying L) s pairs res)
    (htidy : Tidy (s, Q)) (hs : s.Recordless L) (hwithin : ∀ p ∈ pairs, p.1.Within Q ∧ p.2.Within Q)
    (hpairs : ∀ p ∈ pairs, L p.1 ∧ L p.2) : Stays L (s, Q) res := by
  induction h generalizing Q with
  | nil => exact stays_refl hs Outcome.flat_ok
  | fault hfirst =>
    obtain ⟨ha, he⟩ := hwithin _ List.mem_cons_self
    obtain ⟨hLa, hLe⟩ := hpairs _ List.mem_cons_self
    exact hfirst Q htidy hs ha he hLa hLe
  | later hfirst _ ih =>
    obtain ⟨ha, he⟩ := hwithin _ List.mem_cons_self
    obtain ⟨hLa, hLe⟩ := hpairs _ List.mem_cons_self
    obtain ⟨⟨Q₁, hmoves⟩, hs₁, -⟩ := hfirst Q htidy hs ha he hLa hLe
    exact (ih (hmoves.tidy htidy) hs₁ (within_rest hwithin hmoves.subset)
      (fun p hp => hpairs p (List.mem_cons_of_mem _ hp))).after hmoves
  | cons hfirst _ ih =>
    obtain ⟨ha, he⟩ := hwithin _ List.mem_cons_self
    obtain ⟨hLa, hLe⟩ := hpairs _ List.mem_cons_self
    obtain ⟨⟨Q₁, hmoves⟩, hs₁, -⟩ := hfirst Q htidy hs ha he hLa hLe
    obtain ⟨⟨Q', hmoves'⟩, hs', ho'⟩ := ih (hmoves.tidy htidy) hs₁ (within_rest hwithin hmoves.subset)
      (fun p hp => hpairs p (List.mem_cons_of_mem _ hp))
    exact ⟨⟨Q', hmoves.trans hmoves'⟩, hs', (Outcome.flat_nested _).andThen ho'⟩

section Level

variable (hL : Ty.Bare L)

include hL

theorem stays_unifyVar (htidy : Tidy (s, Q)) (hs : s.Recordless L) {v : TyVar} {t : Ty} (hun : s.Unsolved v.id)
    (hv : .var v ∈ Q) (ht : t.Within Q) (hLt : L t) : Stays L (s, Q) (unifyVar v t s) := by
  obtain ⟨o, s', hrun, hbound⟩ := bound_unifyVar htidy hun ht
  rw [hrun]
  refine ⟨hbound.moves htidy hv ht, ?_⟩
  have hlike : ∀ {o : Outcome} {s₁ : Store}, constrainLike v t s = .ok (o, s₁) → s₁.Recordless L :=
    fun hlike => hs.calm hL (restrains_constrainLike hlike).calm
  cases hbound with
  | rigid _ => exact ⟨hs, Outcome.flat_mismatch⟩
  | refused _ hrefused => exact ⟨hlike hrefused, flat_constrainLike hrefused⟩
  | infinite _ hmet _ => exact ⟨hlike hmet, Outcome.flat_infiniteType⟩
  | solved _ hmet _ _ _ => exact ⟨(hlike hmet).solved hLt, Outcome.flat_ok⟩
  | copied hrecord _ _ _ _ =>
    subst hrecord
    exact absurd rfl (hL.shape _ hLt)

omit hL in
theorem forall_zip {ts us : List Ty} (hts : ∀ t ∈ ts, L t) (hus : ∀ t ∈ us, L t) :
    ∀ p ∈ ts.zip us, L p.1 ∧ L p.2 := by
  rintro ⟨t, u⟩ hmem
  obtain ⟨ht, hu⟩ := List.of_mem_zip hmem
  exact ⟨hts t ht, hus u hu⟩

theorem stays_resolved {a e : Ty} {res : Ending Outcome} (h : Resolved (Staying L) s a e res) (htidy : Tidy (s, Q))
    (hs : s.Recordless L) (ha : a.Within Q) (he : e.Within Q) (hLa : L a) (hLe : L e)
    (hleft : ∀ v, a = .var v → s.Unsolved v.id) (hright : ∀ v, e = .var v → s.Unsolved v.id) :
    Stays L (s, Q) res := by
  have hparams : ∀ {params params' : List Ty} {ret ret' : Ty} {w w' : Option (AliasUse Ty)} {res : Ending Outcome},
      (Ty.arrow params ret w).Within Q → (Ty.arrow params' ret' w').Within Q → L (.arrow params ret w) →
      L (.arrow params' ret' w') → Pairs (Staying L) s (params.zip params') res → Stays L (s, Q) res := by
    intro params params' ret ret' w w' res ha he hLa hLe hpairs
    refine stays_pairs hpairs htidy hs (within_zip (Ty.within_arrow.mp ha).1 (Ty.within_arrow.mp he).1) ?_
    exact forall_zip (fun t ht => hL.part _ _ (.param ht) hLa) (fun t ht => hL.part _ _ (.param ht) hLe)
  cases h with
  | accepted _ => exact stays_refl hs Outcome.flat_ok
  | same _ => exact stays_refl hs Outcome.flat_ok
  | @vars v w res hne hrun =>
    subst hrun
    obtain ⟨o, s', hrun, hjoins⟩ := joins_unifyVars (hleft v rfl) (hright w rfl) hne
    rw [hrun]
    refine ⟨?_, hs.calm hL (hjoins.calm (hleft v rfl) (hright w rfl) hne), hjoins.flat⟩
    exact hjoins.moves (hleft v rfl) (hright w rfl) hne (Ty.within_var.mp ha) (Ty.within_var.mp he)
  | @varLeft v t _ res _ hrun =>
    subst hrun
    exact stays_unifyVar hL htidy hs (hleft v rfl) (Ty.within_var.mp ha) he hLe
  | @varRight v t _ res _ hrun =>
    subst hrun
    exact stays_unifyVar hL htidy hs (hright v rfl) (Ty.within_var.mp he) ha hLa
  | unit => exact stays_refl hs Outcome.flat_ok
  | tuple _ hpairs =>
    refine stays_pairs hpairs htidy hs (within_zip (Ty.within_tuple.mp ha) (Ty.within_tuple.mp he)) ?_
    exact forall_zip (fun t ht => hL.part _ _ (.item ht) hLa) (fun t ht => hL.part _ _ (.item ht) hLe)
  | union _ hpairs =>
    refine stays_pairs hpairs htidy hs (within_zip (Ty.within_union.mp ha) (Ty.within_union.mp he)) ?_
    exact forall_zip (fun t ht => hL.part _ _ (.arg ht) hLa) (fun t ht => hL.part _ _ (.arg ht) hLe)
  | params hpairs => exact hparams ha he hLa hLe hpairs
  | rest hpairs hrest =>
    obtain ⟨⟨Q₁, hmoves⟩, hs₁, -⟩ := hparams ha he hLa hLe hpairs
    exact hrest Q₁ (hmoves.tidy htidy) hs₁ ((Ty.within_dropParams _ ha).mono hmoves.subset)
      ((Ty.within_dropParams _ he).mono hmoves.subset) (hL.dropParams _ hLa) (hL.dropParams _ hLe)
  | arrow hpairs hrest =>
    obtain ⟨⟨Q₁, hmoves⟩, hs₁, ho⟩ := hparams ha he hLa hLe hpairs
    obtain ⟨⟨Q', hmoves'⟩, hs', -⟩ := hrest Q₁ (hmoves.tidy htidy) hs₁
      ((Ty.within_dropParams _ ha).mono hmoves.subset) ((Ty.within_dropParams _ he).mono hmoves.subset)
      (hL.dropParams _ hLa) (hL.dropParams _ hLe)
    exact ⟨⟨Q', hmoves.trans hmoves'⟩, hs', ho.andThen (Outcome.flat_nested _)⟩
  | record hshape _ _ => exact absurd hshape (hL.shape _ hLa)
  | clash _ _ _ => exact stays_refl hs Outcome.flat_mismatch

theorem staying_unified {a e : Ty} {res : Ending Outcome} (h : Unified (Staying L) s a e res) :
    Staying L s a e res := by
  intro Q htidy hs ha he hLa hLe
  cases h with
  | lostLeft hlost =>
    obtain ⟨r, hresolve⟩ := exists_resolve htidy.loopfree htidy.closed (htidy.owns ha)
    rw [hresolve] at hlost
    cases hlost
  | lostRight hlost =>
    obtain ⟨r, hresolve⟩ := exists_resolve htidy.loopfree htidy.closed (htidy.owns he)
    rw [hresolve] at hlost
    cases hlost
  | resolved hra hre hres =>
    have hra' := resolvesTo_of_resolve hra
    have hre' := resolvesTo_of_resolve hre
    exact stays_resolved hL hres htidy hs (within_resolve htidy ha hra) (within_resolve htidy he hre)
      (hs.resolves hra' hLa) (hs.resolves hre' hLe) (fun v heq => (heq ▸ hra').unsolved_of_var)
      (fun v heq => (heq ▸ hre').unsolved_of_var)

/-- Without records around, unification comes to an answer and brings none up. -/
theorem exists_unify_of_recordless (hsane : s.Sane) (hs : s.Recordless L) {a e : Ty} (ha : s.Owns a) (he : s.Owns e)
    (hLa : L a) (hLe : L e) : ∃ o s', unify a e s = .ok (o, s') ∧ s'.Sane ∧ s'.Recordless L ∧ s.Extends s' ∧ o.Flat := by
  have hstays := unify_induct (P := Staying L) (fun _ _ _ _ _ _ _ _ _ _ => rfl)
    (fun _ _ _ _ => staying_unified hL) s a e _ hsane.tidy hs ha he hLa hLe
  cases hrun : unify a e s with
  | error fault =>
    rw [hrun] at hstays
    obtain rfl : fault = .diverged := hstays
    exact absurd hrun (unify_returns hsane ha he)
  | ok p =>
    rw [hrun] at hstays
    obtain ⟨⟨Q', hmoves⟩, hs', ho⟩ := hstays
    exact ⟨p.1, p.2, rfl, (hmoves.tidy hsane.tidy).sane, hs', hmoves.extends, ho⟩

end Level

end StoreM

/-! ### Zonking -/

namespace Ty

theorem madeOf_writtenAs? {aliases : Bool} {Q : Set Mention} {t : Ty} {w : Option (AliasUse Ty)}
    (ht : MadeOf aliases (fun _ => True) Q t) (hw : ∀ u ∈ aliasArgs w, MadeOf aliases (fun _ => True) Q u) :
    MadeOf aliases (fun _ => True) Q (t.writtenAs? w) := by
  refine ⟨fun r hr => ?_, trivial⟩
  have halias : ∀ use, w = some use → r ∈ mentionsAlias aliases (some use) → r ∈ Q := by
    rintro ⟨m, n, args⟩ rfl hr
    unfold mentionsAlias at hr
    split at hr
    · obtain ⟨u, hu, hr⟩ := mem_mentionsList.mp hr
      exact (hw u hu).mentions r hr
    · cases hr
  have hold := ht.mentions r
  cases w with
  | none => exact hold hr
  | some use =>
    cases t with
    | union | record | arrow =>
      simp only [writtenAs?, writtenAs, mentions, List.mem_append] at hr hold
      grind
    | _ => exact hold hr

end Ty

namespace Store

variable {s : Store}

/-- A legible type displays nothing but what it is made of. -/
theorem displays_of_legible {t : Ty} (ht : t.Legible) (hown : s.Owns t) : s.Displays t := by
  intro r hr
  cases hnode : r.node? with
  | none =>
    cases r with
    | field name => trivial
    | hole => trivial
    | var v => cases hnode
    | record id => cases hnode
  | some n =>
    obtain ⟨r', hr', hnode'⟩ := ht.overt.holds ⟨r, hr, hnode⟩
    have hhas := hasNode_of_has (hown r' hr') hnode'
    cases r with
    | var v =>
      cases hnode
      exact hhas
    | record id =>
      cases hnode
      exact hhas
    | field name => cases hnode
    | hole => cases hnode

def Legibly (s : Store) (_t y _z : Ty) : Prop :=
  Ty.MadeOf true (fun _ => True) {r | s.Has r} y

theorem respectful_legibly (s : Store) : Respectful s.Legibly := by
  have hL := Ty.hereditary_true
  have hlist : ∀ {ts ys zs : List Ty}, Alongside s.Legibly ts ys zs →
      ∀ y ∈ ys, Ty.MadeOf true (fun _ => True) {r | s.Has r} y := by
    intro ts ys zs h y hy
    obtain ⟨_, -, _, hmade⟩ := h.exists_left hy
    exact hmade
  have halias : ∀ {w y z : Option (AliasUse Ty)}, AliasRel s.Legibly w y z →
      ∀ u ∈ Ty.aliasArgs y, Ty.MadeOf true (fun _ => True) {r | s.Has r} u := by
    intro w y z h
    cases h with
    | none => exact fun u hu => absurd hu List.not_mem_nil
    | some hargs => exact hlist hargs
  have hhole : ∀ t : Ty, t.mentions true = [.hole] → Ty.MadeOf true (fun _ => True) {r | s.Has r} t := by
    intro t ht
    refine ⟨fun r hr => ?_, trivial⟩
    rw [ht, List.mem_singleton] at hr
    rw [hr]
    trivial
  refine ⟨⟨fun r hr => ?_, trivial⟩, hhole _ rfl, hhole _ rfl, fun hargs hw => ?_, fun hitems => ?_,
    fun hfields hbase hw => ?_, fun hparams hret hw => ?_⟩
  · cases hr
  · refine ⟨fun r hr => ?_, trivial⟩
    simp only [Ty.mentions, Ty.mentionsAlias_true, List.mem_append, Ty.mem_mentionsList] at hr
    rcases hr with ⟨u, hu, hr⟩ | ⟨u, hu, hr⟩
    · exact (hlist hargs u hu).mentions r hr
    · exact (halias hw u hu).mentions r hr
  · refine ⟨fun r hr => ?_, trivial⟩
    simp only [Ty.mentions, Ty.mem_mentionsList] at hr
    obtain ⟨u, hu, hr⟩ := hr
    exact (hlist hitems u hu).mentions r hr
  · refine Ty.madeOf_writtenAs? (Ty.madeOf_recordWith hL _ (fun field hf => ?_) (fun b hb => ?_)) (halias hw)
    · obtain ⟨_, -, _, -, -, hmade⟩ := hfields.exists_left hf
      exact ⟨trivial, hmade⟩
    · cases hbase with
      | none => cases hb
      | some hmade =>
        cases hb
        exact hmade
  · exact Ty.madeOf_writtenAs? (Ty.madeOf_function hL (hlist hparams) hret) (halias hw)

/-- A type that was zonked can be zonked again: nothing is left in it but variables of the store. -/
theorem displays_zonk (hrecords : s.records = #[]) {t z : Ty} (h : s.zonk t = .ok z) : s.Displays z := by
  have hmade : s.Legibly t z z := by
    refine zonkAt_induct (P := fun t y => s.Legibly t y y) (respectful_legibly s) (fun v hun => ?_)
      (fun v u y _ hmade => hmade) (fun id g ys zs b hrec _ _ => ?_) h
    · exact Ty.madeOf_var Ty.hereditary_true hun.1
    · rw [hrecords] at hrec
      cases hrec
  exact hmade.mentions

/-- In a store without records whose aliases show what they hold, all that can be written out is zonked. -/
theorem exists_zonk_of_legible (hsane : s.Sane) (hs : s.Recordless Ty.Legible) {t : Ty} (ht : s.Displays t) :
    ∃ z, s.zonk t = .ok z := by
  have hentry : ∀ id t, s.solution? id = some t → s.Displays t :=
    fun id t hsol => displays_of_legible (hs.solution id t hsol) (hsane.closed.owns_solution hsol)
  have hrecord : ∀ (id : RecordId) g, s.records[id]? ≠ some g := by
    intro id g hrec
    rw [hs.records] at hrec
    cases hrec
  refine exists_zonk ⟨fun n hloop => hsane.loopfree n ?_, hentry, fun id g hrec => absurd hrec (hrecord id g)⟩ ht
  refine TransGen.mono (fun n m hedge => ?_) _ _ hloop
  obtain ⟨u, hentry, hholds⟩ := exists_entry_of_edge hedge
  cases hentry with
  | solution hsol => exact edge_of_solution hsol ((hs.solution _ _ hsol).overt.holds hholds)
  | field hrec _ => exact absurd hrec (hrecord _ _)
  | base hrec => exact absurd hrec (hrecord _ _)

end Store

end ElmInference
