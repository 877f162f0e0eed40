import ElmInference.Proofs.Unify.Changes

/-!
# Constraining and unifying change the store

Constraining a type of a filled world is a sequence of changes, and so is unifying two of its types,
whatever the outcome is. A constraint that is met leaves a type that belongs to the class, as far as the
names of its variables say.
-/

namespace ElmInference

namespace Store

open Relation StoreM

variable {aliases : Bool} {L : Ty → Prop} {s s' : Store} {Q : Set Mention}

/-! ### Joining and constraining -/

/-- Joining two variables is a sequence of changes. -/
theorem Joins.changes {v w : TyVar} {o : Outcome} (h : s.Joins v w o s') (hv : s.Unsolved v.id)
    (hw : s.Unsolved w.id) (hne : v.id ≠ w.id) (hvQ : .var v ∈ Q) (hwQ : .var w ∈ Q) :
    ∃ Q', Changes aliases L (s, Q) (s', Q') := by
  cases h with
  | left hvr hmeets => exact ⟨Q, .single (.join hv hw hne hvr hvQ hwQ hmeets)⟩
  | right hwr hmeets => exact ⟨Q, .single (.join hw hv (Ne.symm hne) hwr hwQ hvQ hmeets)⟩
  | @both c d both hvr hwr hc hd hjoin =>
    have hfresh := unsolved_extended_self s
    have hvf : v.id ≠ s.size := Nat.ne_of_lt hv.1
    have hwf : w.id ≠ s.size := Nat.ne_of_lt hw.1
    have hfQ := Set.mem_insert (.var ⟨s.size, both.name, false⟩) Q
    obtain ⟨hmeets, hmeets'⟩ := TyVar.meets_joined hc hd hjoin s.size
    have hfirst : Change aliases L _ _ := .join hv.extended hfresh hvf hvr
      (Set.mem_insert_of_mem _ hvQ) hfQ hmeets
    have hsecond : Change aliases L _ _ := .join
      (hw.extended.solved_of_ne (.var ⟨s.size, both.name, false⟩) (Ne.symm hne))
      (hfresh.solved_of_ne _ (Ne.symm hvf)) hwf hwr (Set.mem_insert_of_mem _ hwQ) hfQ hmeets'
    exact ⟨_, ((ReflTransGen.single (.fresh both.name false)).tail hfirst).tail hsecond⟩
  | clash _ => exact ⟨Q, .refl⟩

end Store

namespace StoreM

open Store Relation

variable {aliases : Bool} {L : Ty → Prop} {s s₁ s' : Store} {Q : Set Mention}

/-- How a computation on a world may end: after a number of changes, unless it faults. -/
def Alters {α : Type} (aliases : Bool) (L : Ty → Prop) (w : World) : Ending α → Prop
  | .ok (_, s') => ∃ Q', Changes aliases L w (s', Q')
  | .error _ => True

theorem Alters.after {α : Type} {res : Ending α} {Q₁ : Set Mention}
    (hchanges : Changes aliases L (s, Q) (s₁, Q₁)) (h : Alters aliases L (s₁, Q₁) res) :
    Alters aliases L (s, Q) res := by
  cases res with
  | error fault => trivial
  | ok p =>
    obtain ⟨Q', hchanges'⟩ := h
    exact ⟨Q', hchanges.trans hchanges'⟩

theorem alters_refl {α : Type} (a : α) : Alters aliases L (s, Q) (.ok (a, s)) :=
  ⟨Q, .refl⟩

theorem alters_constrained_var {v : TyVar} {c : Typeclass} {o : Outcome} (hun : s.Unsolved v.id)
    (hv : .var v ∈ Q) (h : unifyVars v ⟨s.size, c.name, false⟩ s.extended = .ok (o, s')) :
    Alters aliases L (s, Q) (.ok (o, s')) := by
  have hne : v.id ≠ s.size := Nat.ne_of_lt hun.1
  obtain ⟨o', s'', hrun, hjoins⟩ := joins_unifyVars (w := ⟨s.size, c.name, false⟩) hun.extended
    (unsolved_extended_self s) hne
  rw [hrun] at h
  cases h
  obtain ⟨Q', hchanges⟩ : ∃ Q', Changes aliases L (s.extended, _) (s', Q') :=
    hjoins.changes hun.extended (unsolved_extended_self s) hne
      (Set.mem_insert_of_mem (.var ⟨s.size, c.name, false⟩) hv) (Set.mem_insert _ Q)
  exact ⟨Q', .head (.fresh c.name false) hchanges⟩

section Hereditary

variable (hL : Ty.Hereditary L)

include hL

theorem alters_items {items : List Ty} {res : Ending Outcome}
    (h : Items (fun s _ t res => ∀ Q, Filled aliases L (s, Q) → Ty.MadeOf aliases L Q t →
      Alters aliases L (s, Q) res) s items res)
    (hw : Filled aliases L (s, Q)) (hitems : ∀ t ∈ items, Ty.MadeOf aliases L Q t) :
    Alters aliases L (s, Q) res := by
  induction h generalizing Q with
  | nil => exact alters_refl _
  | fault _ => trivial
  | stop hfirst => exact hfirst Q hw (hitems _ List.mem_cons_self)
  | cons hfirst _ ih =>
    obtain ⟨Q₁, hchanges⟩ := hfirst Q hw (hitems _ List.mem_cons_self)
    refine (ih (hchanges.filled hL hw) (fun t ht => ?_)).after hchanges
    exact (hitems t (List.mem_cons_of_mem _ ht)).mono hchanges.subset

theorem alters_constrainAt (n : Nat) (c : Typeclass) {t : Ty} (hw : Filled aliases L (s, Q))
    (ht : Ty.MadeOf aliases L Q t) : Alters aliases L (s, Q) (constrainAt n c t s) := by
  refine constrainAt_induct (P := fun s _ t res => ∀ Q, Filled aliases L (s, Q) →
    Ty.MadeOf aliases L Q t → Alters aliases L (s, Q) res) ?_ (fun _ _ _ _ _ _ => trivial) n s c t Q hw ht
  intro s c t res hres Q hw ht
  cases hres with
  | unknown => exact alters_refl _
  | lost _ => trivial
  | solved hsol hfollow => exact hfollow Q hw (hw.solution _ _ hsol)
  | unsolved hun hrun =>
    rcases res with fault | ⟨o, s'⟩
    · trivial
    · exact alters_constrained_var hun ht.var_mem hrun
  | tuple hitems => exact alters_items hL hitems hw (fun u hu => ht.part hL (.item hu))
  | list _ hitems => exact alters_items hL hitems hw (fun u hu => ht.part hL (.arg hu))
  | admitted _ _ => exact alters_refl _
  | refused _ => exact alters_refl _

theorem alters_constrain (c : Typeclass) {t : Ty} (hw : Filled aliases L (s, Q))
    (ht : Ty.MadeOf aliases L Q t) : Alters aliases L (s, Q) (constrain c t s) :=
  alters_constrainAt hL _ c hw ht

theorem changes_constrainLike {v : TyVar} {t : Ty} {o : Outcome} (hw : Filled aliases L (s, Q))
    (ht : Ty.MadeOf aliases L Q t) (h : constrainLike v t s = .ok (o, s')) :
    ∃ Q', Changes aliases L (s, Q) (s', Q') := by
  unfold constrainLike at h
  cases hc : v.typeclass with
  | none =>
    rw [hc] at h
    cases h
    exact ⟨Q, .refl⟩
  | some c =>
    rw [hc] at h
    have hrun : constrain c t s = .ok (o, s') := h
    have halters := alters_constrain hL c hw ht
    rwa [hrun] at halters

end Hereditary

/-! ### What a constraint leaves behind -/

/-- A success leaves a type that belongs to the class. -/
def Secures : Restriction := fun s c t res =>
  ∀ s', res = .ok (.ok (), s') → s.Extends s' ∧ s'.Guards c t

theorem secures_unsolved {v : TyVar} {c : Typeclass} (hun : s.Unsolved v.id)
    (h : unifyVars v ⟨s.size, c.name, false⟩ s.extended = .ok (.ok (), s')) :
    s.Extends s' ∧ s'.Guards c (.var v) := by
  have hne : v.id ≠ s.size := Nat.ne_of_lt hun.1
  obtain ⟨o, s'', hrun, hjoins⟩ := joins_unifyVars (w := ⟨s.size, c.name, false⟩) hun.extended
    (unsolved_extended_self s) hne
  rw [hrun] at h
  cases h
  refine ⟨(extends_extended s).trans (hjoins.calm hun.extended (unsolved_extended_self s) hne).extension, ?_⟩
  have hclass := typeclass_of_name s.size c false
  cases hjoins with
  | left _ _ =>
    exact .solved (solution?_solved_self _ hun.extended.1) (.named (TyVar.promises_name _ _ _) trivial)
  | right _ hmeets => exact .named (hmeets c hclass) trivial
  | @both d d' both _ _ hd hd' hjoin =>
    rw [hclass] at hd'
    cases hd'
    refine .solved (t := .var ⟨s.extended.size, both.name, false⟩) ?_ (.named ?_ trivial)
    · rw [solution?_solved_of_ne _ _ hne, solution?_solved_self _ ?_]
      simpa using Nat.lt_succ_of_lt (Nat.lt_succ_of_lt hun.1)
    · exact ⟨both, typeclass_of_name _ both false, (Typeclass.join_joined hjoin).2⟩

theorem secures_items {items : List Ty} (h : Items Secures s items (.ok (.ok (), s'))) :
    s.Extends s' ∧ ∀ t ∈ items, s'.Guards .comparable t := by
  generalize hres : (Except.ok (.ok (), s') : Ending Outcome) = res at h
  induction h with
  | nil =>
    cases hres
    exact ⟨.refl _, fun t ht => by cases ht⟩
  | fault _ => cases hres
  | stop _ => cases hres
  | cons hfirst _ ih =>
    obtain ⟨hext, hguards⟩ := hfirst _ rfl
    obtain ⟨hext', hrest⟩ := ih hres
    refine ⟨hext.trans hext', fun t ht => ?_⟩
    rcases List.mem_cons.mp ht with rfl | ht
    · exact hguards.later hext'
    · exact hrest t ht

theorem secures_constrainAt (n : Nat) (s : Store) (c : Typeclass) (t : Ty) :
    Secures s c t (constrainAt n c t s) := by
  refine constrainAt_induct ?_ (fun _ _ _ _ h => by cases h) n s c t
  intro s c t res hres s' heq
  cases hres with
  | unknown =>
    cases heq
    exact ⟨.refl s, .unknown⟩
  | lost _ => cases heq
  | solved hsol hfollow =>
    obtain ⟨hext, hguards⟩ := hfollow s' heq
    exact ⟨hext, .solved (hext.solution _ _ hsol) hguards⟩
  | unsolved hun hrun => exact secures_unsolved hun (hrun.trans heq)
  | tuple hitems =>
    obtain ⟨hext, hguards⟩ := secures_items (heq ▸ hitems)
    exact ⟨hext, .tuple hguards⟩
  | list hlist hitems =>
    obtain ⟨hext, hguards⟩ := secures_items (heq ▸ hitems)
    exact ⟨hext, .list hlist hguards⟩
  | admitted hlist hadmits =>
    cases heq
    exact ⟨.refl s, .admitted hlist hadmits⟩
  | refused _ => cases heq

/-- A type that was constrained with success belongs to the class. -/
theorem guards_constrain {c : Typeclass} {t : Ty} (h : constrain c t s = .ok (.ok (), s')) :
    s'.Guards c t :=
  (secures_constrainAt _ s c t s' h).2

theorem guards_constrainLike {v : TyVar} {t : Ty} (h : constrainLike v t s = .ok (.ok (), s')) :
    ∀ c, v.typeclass = some c → s'.Guards c t := by
  intro c hc
  unfold constrainLike at h
  rw [hc] at h
  exact guards_constrain h

/-- Records belong to no class. -/
theorem not_guards_record {c : Typeclass} {t : Ty} (hshape : shape? t = some .record) : ¬ s.Guards c t := by
  intro hguards
  cases hguards <;> cases hshape

/-! ### Unification -/

/-- A behaviour under which types of a filled world are unified by changes. -/
def Altering (aliases : Bool) (L : Ty → Prop) : Behaviour := fun s a e res =>
  ∀ Q, Filled aliases L (s, Q) → Ty.MadeOf aliases L Q a → Ty.MadeOf aliases L Q e →
    Alters aliases L (s, Q) res

section Level

variable (hL : Ty.Hereditary L)

include hL

theorem Bound.changes {v : TyVar} {t : Ty} {o : Outcome} {shape : Shape} (h : Bound s v t o s')
    (hw : Filled aliases L (s, Q)) (hv : .var v ∈ Q) (ht : Ty.MadeOf aliases L Q t)
    (hshape : shape? t = some shape) : ∃ Q', Changes aliases L (s, Q) (s', Q') := by
  cases h with
  | rigid _ => exact ⟨Q, .refl⟩
  | refused _ hrun => exact changes_constrainLike hL hw ht hrun
  | infinite _ hrun _ => exact changes_constrainLike hL hw ht hrun
  | solved hflex hrun hun hnot _ =>
    obtain ⟨Q₁, hchanges⟩ := changes_constrainLike hL hw ht hrun
    exact ⟨Q₁, hchanges.tail (.bind hun hflex (hchanges.subset hv) (ht.mono hchanges.subset) hnot hshape
      (guards_constrainLike hrun))⟩
  | @copied s₁ fields base w refs hrecord hflex hrun hun hnot =>
    obtain ⟨Q₁, hchanges⟩ := changes_constrainLike hL hw ht hrun
    have hw₁ := hchanges.filled hL hw
    subst hrecord
    have hmade := ht.mono hchanges.subset
    have hg : Ty.MadeOf aliases L Q₁ (.record fields (some base) none refs) := by
      refine Ty.madeOf_record hL refs (hmade.fields hL) (fun b hb => ?_)
      obtain rfl := Option.some.inj hb
      exact hmade.part hL .base
    have hcopy : Changes aliases L (s, Q) _ := hchanges.tail (.copy (g := { fields, base, refs }) hg)
    have hshape : shape? (.growing s₁.records.size) = some .record := rfl
    refine ⟨_, hcopy.tail (.bind ?_ hflex (hcopy.subset hv) (Ty.madeOf_growing hL (Set.mem_insert _ _)) ?_
      hshape (fun c hc => ?_))⟩
    · exact ⟨by simpa using hun.1, by simpa using hun.2⟩
    · exact not_leads_copy hw₁.tidy.closed (hw₁.tidy.owns hmade.within) hnot
    · exact absurd (guards_constrainLike hrun c hc) (not_guards_record rfl)

theorem alters_pairs {pairs : List (Ty × Ty)} {res : Ending Outcome}
    (h : Pairs (Altering aliases L) s pairs res) (hw : Filled aliases L (s, Q))
    (hpairs : ∀ p ∈ pairs, Ty.MadeOf aliases L Q p.1 ∧ Ty.MadeOf aliases L Q p.2) :
    Alters aliases L (s, Q) res := by
  induction h generalizing Q with
  | nil => exact alters_refl _
  | fault _ => trivial
  | later _ _ _ => trivial
  | cons hfirst _ ih =>
    obtain ⟨ha, he⟩ := hpairs _ List.mem_cons_self
    obtain ⟨Q₁, hchanges⟩ := hfirst Q hw ha he
    refine Alters.after hchanges (ih (hchanges.filled hL hw) (fun p hp => ?_))
    obtain ⟨ha, he⟩ := hpairs p (List.mem_cons_of_mem _ hp)
    exact ⟨ha.mono hchanges.subset, he.mono hchanges.subset⟩

/-! ### Records -/

omit hL in
theorem madeOf_resolves {t r : Ty} (h : s.ResolvesTo t r) (hw : Filled aliases L (s, Q))
    (ht : Ty.MadeOf aliases L Q t) : Ty.MadeOf aliases L Q r := by
  induction h with
  | solved hsol _ ih => exact ih (hw.solution _ _ hsol)
  | unsolved _ => exact ht
  | other _ => exact ht

theorem madeOf_flattens {t : Ty} {above : List (Name × Ty)} {f : Flattened}
    (h : s.FlattensTo t above f) (hw : Filled aliases L (s, Q)) (ht : Ty.MadeOf aliases L Q t)
    (habove : Ty.FieldsOf aliases L Q above) :
    Ty.FieldsOf aliases L Q f.fields ∧ Ty.MadeOf aliases L Q f.tail.toTy := by
  induction h with
  | closed => exact ⟨Ty.fieldsOf_addFields habove (ht.fields hL), Ty.madeOf_emptyRecord hL⟩
  | base _ ih => exact ih (ht.part hL .base) (Ty.fieldsOf_addFields habove (ht.fields hL))
  | growing hrec _ ih =>
    have hg := hw.record _ _ hrec
    exact ih (hg.part hL .base) (Ty.fieldsOf_addFields habove (hg.fields hL))
  | unsolved _ => exact ⟨habove, ht⟩
  | solved hsol _ ih => exact ih (hw.solution _ _ hsol) habove
  | unknown => exact ⟨habove, ht⟩
  | baseless _ => exact ⟨habove, Ty.madeOf_emptyRecord hL⟩

omit hL in
/-- An extension is a record, also when its base is one. -/
theorem shape_extension (rest : Ty) (fields : List (Name × Ty)) :
    shape? (Ty.extension rest fields) = some .record := by
  unfold Ty.extension Ty.recordWith
  split <;> rfl

omit hL in
theorem alters_grown {tail : Tail} {fields : List (Name × Ty)} {rest : Ty} {res : Ending Outcome}
    (h : Grown s tail fields rest res) (htail : Ty.MadeOf aliases L Q tail.toTy)
    (hrest : Ty.MadeOf aliases L Q (Ty.extension rest fields)) : Alters aliases L (s, Q) res := by
  cases h with
  | unknown _ => exact alters_refl _
  | closed _ => exact alters_refl _
  | rigid _ _ => exact alters_refl _
  | infinite _ _ _ => exact alters_refl _
  | bound _ _ _ _ => trivial
  | solved heq hflex hun hnot =>
    subst heq
    exact ⟨Q, .single (.close hun hflex htail.var_mem hrest hnot (shape_extension rest fields))⟩

theorem alters_grow {tail : Tail} {fields : List (Name × Ty)} {rest : Ty}
    (hw : Filled aliases L (s, Q)) (htail : Ty.MadeOf aliases L Q tail.toTy)
    (hfields : Ty.FieldsOf aliases L Q fields) (hrest : Ty.MadeOf aliases L Q rest) :
    Alters aliases L (s, Q) (grow tail fields rest s) := by
  have hextension := Ty.madeOf_extension hL hfields hrest
  refine alters_grown (grown_grow hw.loopfree hw.tidy.closed (tail_lt hw.tidy htail.within) ?_) htail
    hextension
  exact hw.tidy.owns hextension.within

omit hL in
theorem within_of_fieldsOf {fields : List (Name × Ty)} (h : Ty.FieldsOf aliases L Q fields) :
    ∀ r ∈ Ty.mentionsFields false fields, r ∈ Q := by
  intro r hr
  obtain ⟨field, hf, heq | hr⟩ := Ty.mem_mentionsFields.mp hr
  · rw [heq]
    exact (h field hf).1
  · exact (h field hf).2.within r hr

theorem alters_growBoth {tail tail' : Tail} {fields fields' : List (Name × Ty)}
    (hw : Filled aliases L (s, Q)) (htail : Ty.MadeOf aliases L Q tail.toTy)
    (htail' : Ty.MadeOf aliases L Q tail'.toTy) (hfields : Ty.FieldsOf aliases L Q fields)
    (hfields' : Ty.FieldsOf aliases L Q fields') :
    Alters aliases L (s, Q) (growBoth tail tail' fields fields' s) := by
  have hboth := grown_growBoth hw.tidy htail.within htail'.within (within_of_fieldsOf hfields)
    (within_of_fieldsOf hfields')
  have hfresh : Changes aliases L (s, Q) (s.extended, insert (.var ⟨s.size, "a", false⟩) Q) :=
    .single (.fresh "a" false)
  have hshared : ∀ {fields : List (Name × Ty)}, Ty.FieldsOf aliases L Q fields →
      Ty.MadeOf aliases L (insert (.var ⟨s.size, "a", false⟩) Q)
        (Ty.extension (.var ⟨s.size, "a", false⟩) fields) :=
    fun h => Ty.madeOf_extension hL (h.mono hfresh.subset) (Ty.madeOf_var hL (Set.mem_insert _ _))
  generalize growBoth tail tail' fields fields' s = res at hboth
  cases hboth with
  | same _ => exact alters_refl _
  | fault _ _ => trivial
  | first _ hfirst =>
    exact (alters_grown hfirst (htail.mono hfresh.subset) (hshared hfields')).after hfresh
  | second _ hfirst hsecond =>
    obtain ⟨Q₁, hchanges⟩ := alters_grown hfirst (htail.mono hfresh.subset) (hshared hfields')
    have hboth : Changes aliases L (s, Q) _ := hfresh.trans hchanges
    exact (alters_grown hsecond (htail'.mono hboth.subset)
      ((hshared hfields).mono hchanges.subset)).after hboth

theorem alters_ends {f g : Flattened} {res : Ending Outcome} (h : Ends (Altering aliases L) s f g res)
    (hw : Filled aliases L (s, Q)) (hf : Ty.FieldsOf aliases L Q f.fields)
    (hft : Ty.MadeOf aliases L Q f.tail.toTy) (hg : Ty.FieldsOf aliases L Q g.fields)
    (hgt : Ty.MadeOf aliases L Q g.tail.toTy) : Alters aliases L (s, Q) res := by
  have hmissing : ∀ {f g : Flattened}, Ty.FieldsOf aliases L Q f.fields →
      Ty.FieldsOf aliases L Q (fieldsMissingIn f g) :=
    fun h field hfield => h field (List.mem_of_mem_filter hfield)
  cases h with
  | settled _ _ _ => exact alters_refl _
  | tails _ _ hfv hgv hrun =>
    rw [hfv] at hft
    rw [hgv] at hgt
    exact hrun Q hw hft hgt
  | rigid _ _ => exact alters_refl _
  | @close v res _ _ hflex htails hrun =>
    subst hrun
    have hv : .var v ∈ Q := by
      rcases htails with ⟨hfv, -⟩ | ⟨-, hgv⟩
      · rw [hfv] at hft
        exact hft.var_mem
      · rw [hgv] at hgt
        exact hgt.var_mem
    rcases unsolved_or_some (hw.owned _ hv) with hun | ⟨u, hsol⟩
    · rw [run_solve _ hun]
      refine ⟨Q, .single (.close hun hflex hv (Ty.madeOf_emptyRecord hL) ?_ rfl)⟩
      rintro ⟨m, ⟨r, hr, -⟩, -⟩
      cases hr
    · rw [run_solve_some _ hsol]
      trivial
  | growLeft _ _ hrun =>
    subst hrun
    exact alters_grow hL hw hft (hmissing hg) hgt
  | growRight _ _ hrun =>
    subst hrun
    exact alters_grow hL hw hgt (hmissing hf) hft
  | growBoth _ _ hrun =>
    subst hrun
    exact alters_growBoth hL hw hft hgt (hmissing hf) (hmissing hg)

omit hL in
theorem madeOf_commonFields {f g : Flattened} (hf : Ty.FieldsOf aliases L Q f.fields)
    (hg : Ty.FieldsOf aliases L Q g.fields) :
    ∀ p ∈ (commonFields f g).map Prod.snd, Ty.MadeOf aliases L Q p.1 ∧ Ty.MadeOf aliases L Q p.2 := by
  intro p hp
  obtain ⟨name, ha, he⟩ := mem_commonFields hp
  exact ⟨(hf _ ha).2, (hg _ (Assoc.mem_of_get? he)).2⟩

theorem alters_records {a e : Ty} {res : Ending Outcome} (h : Records (Altering aliases L) s a e res)
    (hw : Filled aliases L (s, Q)) (ha : Ty.MadeOf aliases L Q a) (he : Ty.MadeOf aliases L Q e) :
    Alters aliases L (s, Q) res := by
  have hflat : ∀ {t : Ty} {f : Flattened}, Ty.MadeOf aliases L Q t → s.flatten t = .ok f →
      Ty.FieldsOf aliases L Q f.fields ∧ Ty.MadeOf aliases L Q f.tail.toTy :=
    fun ht hf => madeOf_flattens hL (flattensTo_of_flatten hf) hw ht (fun field hmem => by cases hmem)
  have hfields : ∀ {f g : Flattened} {found : List (Name × Ty × Ty) × Bool} {s₁ : Store},
      s.flatten a = .ok f → s.flatten e = .ok g →
      Fields (Altering aliases L) s (commonFields f g) (.ok (found, s₁)) →
      ∃ Q', Changes aliases L (s, Q) (s₁, Q') := by
    intro f g found s₁ hfa hfe hrun
    obtain ⟨o, hpairs, -⟩ := hrun.pairs_of_ok
    exact alters_pairs hL hpairs hw (madeOf_commonFields (hflat ha hfa).1 (hflat he hfe).1)
  cases h with
  | lostLeft _ => trivial
  | lostRight _ _ => trivial
  | fields _ _ _ => trivial
  | infinite hfa hfe hrun => exact hfields hfa hfe hrun
  | differ hfa hfe hrun _ => exact hfields hfa hfe hrun
  | agree hfa hfe hrun _ _ hends =>
    obtain ⟨Q₁, hchanges⟩ := hfields hfa hfe hrun
    obtain ⟨hf, hft⟩ := hflat ha hfa
    obtain ⟨hg, hgt⟩ := hflat he hfe
    exact (alters_ends hL hends (hchanges.filled hL hw) (hf.mono hchanges.subset)
      (hft.mono hchanges.subset) (hg.mono hchanges.subset) (hgt.mono hchanges.subset)).after hchanges

/-! ### All types -/

theorem alters_unifyVar {v : TyVar} {t : Ty} {shape : Shape} (hw : Filled aliases L (s, Q))
    (hun : s.Unsolved v.id) (hv : .var v ∈ Q) (ht : Ty.MadeOf aliases L Q t)
    (hshape : shape? t = some shape) : Alters aliases L (s, Q) (unifyVar v t s) := by
  obtain ⟨o, s', hrun, hbound⟩ := bound_unifyVar hw.tidy hun ht.within
  rw [hrun]
  exact hbound.changes hL hw hv ht hshape

theorem alters_resolved {a e : Ty} {res : Ending Outcome} (h : Resolved (Altering aliases L) s a e res)
    (hw : Filled aliases L (s, Q)) (ha : Ty.MadeOf aliases L Q a) (he : Ty.MadeOf aliases L Q e)
    (hleft : ∀ v, a = .var v → s.Unsolved v.id) (hright : ∀ v, e = .var v → s.Unsolved v.id) :
    Alters aliases L (s, Q) res := by
  have hzip : ∀ {ts us : List Ty}, (∀ t ∈ ts, Ty.MadeOf aliases L Q t) →
      (∀ u ∈ us, Ty.MadeOf aliases L Q u) → ∀ p ∈ ts.zip us,
      Ty.MadeOf aliases L Q p.1 ∧ Ty.MadeOf aliases L Q p.2 := by
    rintro ts us hts hus ⟨t, u⟩ hmem
    obtain ⟨ht, hu⟩ := List.of_mem_zip hmem
    exact ⟨hts t ht, hus u hu⟩
  cases h with
  | accepted _ => exact alters_refl _
  | same _ => exact alters_refl _
  | @vars v w res hne hrun =>
    subst hrun
    obtain ⟨o, s', hrun, hjoins⟩ := joins_unifyVars (hleft v rfl) (hright w rfl) hne
    rw [hrun]
    exact hjoins.changes (hleft v rfl) (hright w rfl) hne ha.var_mem he.var_mem
  | @varLeft v t _ res hshape hrun =>
    subst hrun
    exact alters_unifyVar hL hw (hleft v rfl) ha.var_mem he hshape
  | @varRight v t _ res hshape hrun =>
    subst hrun
    exact alters_unifyVar hL hw (hright v rfl) he.var_mem ha hshape
  | unit => exact alters_refl _
  | tuple _ hpairs =>
    exact alters_pairs hL hpairs hw
      (hzip (fun t ht => ha.part hL (.item ht)) (fun t ht => he.part hL (.item ht)))
  | union _ hpairs =>
    exact alters_pairs hL hpairs hw
      (hzip (fun t ht => ha.part hL (.arg ht)) (fun t ht => he.part hL (.arg ht)))
  | params _ => trivial
  | rest _ _ => trivial
  | arrow hpairs hrest =>
    obtain ⟨Q₁, hchanges⟩ := alters_pairs hL hpairs hw
      (hzip (fun t ht => ha.part hL (.param ht)) (fun t ht => he.part hL (.param ht)))
    exact Alters.after hchanges (hrest Q₁ (hchanges.filled hL hw)
      ((ha.dropParams hL _).mono hchanges.subset) ((he.dropParams hL _).mono hchanges.subset))
  | record _ _ hrecords => exact alters_records hL hrecords hw ha he
  | clash _ _ _ => exact alters_refl _

theorem altering_unified {a e : Ty} {res : Ending Outcome}
    (h : Unified (Altering aliases L) s a e res) : Altering aliases L s a e res := by
  intro Q hw ha he
  cases h with
  | lostLeft _ => trivial
  | lostRight _ => trivial
  | resolved hra hre hres =>
    have hra := resolvesTo_of_resolve hra
    have hre := resolvesTo_of_resolve hre
    refine alters_resolved hL hres hw (madeOf_resolves hra hw ha) (madeOf_resolves hre hw he)
      (fun v heq => ?_) (fun v heq => ?_)
    · exact (heq ▸ hra).unsolved_of_var
    · exact (heq ▸ hre).unsolved_of_var

/-- Unifying types of a filled world is a sequence of changes. -/
theorem alters_unify {a e : Ty} (hw : Filled aliases L (s, Q)) (ha : Ty.MadeOf aliases L Q a)
    (he : Ty.MadeOf aliases L Q e) : Alters aliases L (s, Q) (unify a e s) :=
  unify_induct (P := Altering aliases L) (fun _ _ _ _ _ _ _ => trivial)
    (fun _ _ _ _ => altering_unified hL) s a e Q hw ha he

end Level

end StoreM

end ElmInference
