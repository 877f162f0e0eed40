import ElmInference.Proofs.Unify.Binding

/-!
# Unification moves the store

Every run of unification on types of a tidy world is a sequence of moves, so what it leaves is tidy again:
the store is closed and its solution graph has no loops. A run that does not end so has used up its clock,
or it tried to solve a variable twice; no other fault is possible.
-/

namespace ElmInference

namespace StoreM

open Store

/-- How a computation on a world may end: after a number of moves, or with a fault of the given kind, or
because a variable would have been solved twice. -/
def Lands {α : Type} (F : Fault → Prop) (w : World) : Ending α → Prop
  | .ok (_, s') => ∃ Q', Moves w (s', Q')
  | .error fault => F fault ∨ ∃ id, fault = .alreadyBound id

def Safe (F : Fault → Prop) : Behaviour := fun s a e res =>
  ∀ Q, Tidy (s, Q) → a.Within Q → e.Within Q → Lands F (s, Q) res

section Level

variable {F : Fault → Prop} {s s₁ s' : Store} {Q Q₁ : Set Mention}

theorem Lands.after {α : Type} {res : Ending α} (hmoves : Moves (s, Q) (s₁, Q₁))
    (h : Lands F (s₁, Q₁) res) : Lands F (s, Q) res := by
  cases res with
  | error fault => exact h
  | ok p =>
    obtain ⟨Q', hmoves'⟩ := h
    exact ⟨Q', hmoves.trans hmoves'⟩

theorem lands_refl {α : Type} (a : α) : Lands F (s, Q) (.ok (a, s)) :=
  ⟨Q, .refl⟩

theorem lands_pairs {pairs : List (Ty × Ty)} {res : Ending Outcome} (h : Pairs (Safe F) s pairs res)
    (htidy : Tidy (s, Q)) (hpairs : ∀ p ∈ pairs, p.1.Within Q ∧ p.2.Within Q) : Lands F (s, Q) res := by
  induction h generalizing Q with
  | nil => exact lands_refl _
  | fault hfirst =>
    obtain ⟨ha, he⟩ := hpairs _ List.mem_cons_self
    exact hfirst Q htidy ha he
  | later hfirst _ ih =>
    obtain ⟨ha, he⟩ := hpairs _ List.mem_cons_self
    obtain ⟨Q₁, hmoves⟩ := hfirst Q htidy ha he
    refine (ih (hmoves.tidy htidy) (fun p hp => ?_)).after hmoves
    obtain ⟨ha, he⟩ := hpairs p (List.mem_cons_of_mem _ hp)
    exact ⟨ha.mono hmoves.subset, he.mono hmoves.subset⟩
  | cons hfirst _ ih =>
    obtain ⟨ha, he⟩ := hpairs _ List.mem_cons_self
    obtain ⟨Q₁, hmoves⟩ := hfirst Q htidy ha he
    refine Lands.after hmoves (ih (hmoves.tidy htidy) (fun p hp => ?_))
    obtain ⟨ha, he⟩ := hpairs p (List.mem_cons_of_mem _ hp)
    exact ⟨ha.mono hmoves.subset, he.mono hmoves.subset⟩

theorem lands_fields {fields : List (Name × Ty × Ty)} {res : Ending (List (Name × Ty × Ty) × Bool)}
    (h : Fields (Safe F) s fields res) (htidy : Tidy (s, Q))
    (hfields : ∀ p ∈ fields.map Prod.snd, p.1.Within Q ∧ p.2.Within Q) : Lands F (s, Q) res := by
  cases res with
  | error fault => exact lands_pairs h.pairs_of_error htidy hfields
  | ok p =>
    obtain ⟨found, s'⟩ := p
    obtain ⟨o, hpairs, -⟩ := h.pairs_of_ok
    exact lands_pairs hpairs htidy hfields

/-! ### Records -/

theorem within_field {f : Flattened} (hf : f.Within (· ∈ Q)) {field : Name × Ty}
    (hfield : field ∈ f.fields) : field.2.Within Q :=
  fun r hr => hf.field r (Ty.mem_mentionsFields.mpr ⟨field, hfield, .inr hr⟩)

theorem mem_commonFields {f g : Flattened} {p : Ty × Ty} (h : p ∈ (commonFields f g).map Prod.snd) :
    ∃ name, (name, p.1) ∈ f.fields ∧ g.field? name = some p.2 := by
  obtain ⟨field, hfield, rfl⟩ := List.mem_map.mp h
  obtain ⟨⟨name, a⟩, hmem, hmap⟩ := List.mem_filterMap.mp hfield
  obtain ⟨e, hget, rfl⟩ := Option.map_eq_some_iff.mp hmap
  exact ⟨name, hmem, hget⟩

theorem within_commonFields {f g : Flattened} (hf : f.Within (· ∈ Q)) (hg : g.Within (· ∈ Q)) :
    ∀ p ∈ (commonFields f g).map Prod.snd, p.1.Within Q ∧ p.2.Within Q := by
  intro p hp
  obtain ⟨name, ha, he⟩ := mem_commonFields hp
  exact ⟨within_field hf ha, within_field hg (Assoc.mem_of_get? he)⟩

theorem within_fieldsMissingIn {f : Flattened} (hf : f.Within (· ∈ Q)) (g : Flattened) :
    ∀ r ∈ Ty.mentionsFields false (fieldsMissingIn f g), r ∈ Q := by
  intro r hr
  obtain ⟨field, hfield, hr⟩ := Ty.mem_mentionsFields.mp hr
  exact hf.field r (Ty.mem_mentionsFields.mpr ⟨field, List.mem_of_mem_filter hfield, hr⟩)

theorem Flattened.Within.mono {f : Flattened} (h : f.Within (· ∈ Q)) (hQ : Q ⊆ Q₁) :
    f.Within (· ∈ Q₁) :=
  ⟨fun r hr => hQ (h.field r hr), fun r hr => hQ (h.tail r hr)⟩

theorem within_opened {f : Flattened} (hf : f.Within (· ∈ Q)) {v : TyVar} (h : f.tail = .opened v) :
    (Ty.var v).Within Q := by
  intro r hr
  exact hf.tail r (by simpa [h, Tail.toTy] using hr)

theorem lands_grown {tail : Tail} {fields : List (Name × Ty)} {rest : Ty} {res : Ending Outcome}
    (h : Grown s tail fields rest res) (htail : tail.toTy.Within Q)
    (hrest : (Ty.extension rest fields).Within Q) : Lands F (s, Q) res := by
  rcases res with fault | ⟨o, s'⟩
  · cases h with
    | bound _ _ _ _ => exact .inr ⟨_, rfl⟩
  · exact ⟨Q, h.moves htail hrest⟩

theorem lands_grow (htidy : Tidy (s, Q)) {tail : Tail} {fields : List (Name × Ty)} {rest : Ty}
    (htail : tail.toTy.Within Q) (hfields : ∀ r ∈ Ty.mentionsFields false fields, r ∈ Q)
    (hrest : rest.Within Q) : Lands F (s, Q) (grow tail fields rest s) := by
  have hwithin := Ty.within_extension hfields hrest
  exact lands_grown (grown_grow htidy.loopfree htidy.closed (tail_lt htidy htail)
    (htidy.owns hwithin)) htail hwithin

theorem lands_growBoth (htidy : Tidy (s, Q)) {tail tail' : Tail} {fields fields' : List (Name × Ty)}
    (htail : tail.toTy.Within Q) (htail' : tail'.toTy.Within Q)
    (hfields : ∀ r ∈ Ty.mentionsFields false fields, r ∈ Q)
    (hfields' : ∀ r ∈ Ty.mentionsFields false fields', r ∈ Q) :
    Lands F (s, Q) (growBoth tail tail' fields fields' s) := by
  have hmove : Moves (s, Q) (s.extended, insert (.var ⟨s.size, "a", false⟩) Q) :=
    .single (.fresh "a" false)
  have hwithin := htail.mono hmove.subset
  have hwithin' := htail'.mono hmove.subset
  have hboth := grown_growBoth htidy htail htail' hfields hfields'
  generalize growBoth tail tail' fields fields' s = res at hboth
  cases hboth with
  | same _ => exact lands_refl _
  | fault _ hfirst => exact (lands_grown hfirst hwithin (within_shared s.size hfields')).after hmove
  | first _ hfirst => exact (lands_grown hfirst hwithin (within_shared s.size hfields')).after hmove
  | second _ hfirst hsecond =>
    have hmoves := hfirst.moves hwithin (within_shared s.size hfields')
    exact (lands_grown hsecond hwithin' (within_shared s.size hfields)).after (hmove.trans hmoves)

theorem lands_solve (htidy : Tidy (s, Q)) {v : TyVar} (hv : .var v ∈ Q) (hrigid : v.rigid = false) :
    Lands F (s, Q) (solve v .emptyRecord s) := by
  rcases unsolved_or_some (htidy.owned _ hv) with hun | ⟨u, hsol⟩
  · rw [run_solve _ hun]
    refine ⟨Q, .single (.solve hun hrigid hv ?_ ?_)⟩
    · simp [Ty.emptyRecord, Ty.mentions, Ty.mentionsFields, Ty.mentionsBase]
    · rintro ⟨m, ⟨r, hr, -⟩, -⟩
      simp [Ty.emptyRecord, Ty.mentions, Ty.mentionsFields, Ty.mentionsBase] at hr
  · rw [run_solve_some _ hsol]
    exact .inr ⟨_, rfl⟩

theorem lands_ends {f g : Flattened} {res : Ending Outcome} (h : Ends (Safe F) s f g res)
    (htidy : Tidy (s, Q)) (hf : f.Within (· ∈ Q)) (hg : g.Within (· ∈ Q)) : Lands F (s, Q) res := by
  cases h with
  | settled _ _ _ => exact lands_refl _
  | tails _ _ hft hgt hrun =>
    exact hrun Q htidy (within_opened hf hft) (within_opened hg hgt)
  | rigid _ _ => exact lands_refl _
  | @close v res _ _ hrigid htails hrun =>
    subst hrun
    refine lands_solve htidy ?_ hrigid
    rcases htails with ⟨hft, -⟩ | ⟨-, hgt⟩
    · exact Ty.within_var.mp (within_opened hf hft)
    · exact Ty.within_var.mp (within_opened hg hgt)
  | growLeft _ _ hrun =>
    subst hrun
    exact lands_grow htidy hf.tail (within_fieldsMissingIn hg f) hg.tail
  | growRight _ _ hrun =>
    subst hrun
    exact lands_grow htidy hg.tail (within_fieldsMissingIn hf g) hf.tail
  | growBoth _ _ hrun =>
    subst hrun
    exact lands_growBoth htidy hf.tail hg.tail (within_fieldsMissingIn hf g)
      (within_fieldsMissingIn hg f)

theorem within_flatten (htidy : Tidy (s, Q)) {t : Ty} {f : Flattened} (ht : t.Within Q)
    (h : s.flatten t = .ok f) : f.Within (· ∈ Q) :=
  (flattensTo_of_flatten h).within htidy.keeps ht (by simp [Ty.mentionsFields])

theorem lands_records {a e : Ty} {res : Ending Outcome} (h : Records (Safe F) s a e res)
    (htidy : Tidy (s, Q)) (ha : a.Within Q) (he : e.Within Q) : Lands F (s, Q) res := by
  cases h with
  | lostLeft hlost =>
    obtain ⟨f, hflat⟩ := exists_flatten htidy.loopfree htidy.closed (htidy.owns ha)
    rw [hflat] at hlost
    cases hlost
  | lostRight _ hlost =>
    obtain ⟨g, hflat⟩ := exists_flatten htidy.loopfree htidy.closed (htidy.owns he)
    rw [hflat] at hlost
    cases hlost
  | fields hfa hfe hfields =>
    exact lands_fields hfields htidy
      (within_commonFields (within_flatten htidy ha hfa) (within_flatten htidy he hfe))
  | infinite hfa hfe hfields =>
    exact lands_fields hfields htidy
      (within_commonFields (within_flatten htidy ha hfa) (within_flatten htidy he hfe))
  | differ hfa hfe hfields _ =>
    exact lands_fields hfields htidy
      (within_commonFields (within_flatten htidy ha hfa) (within_flatten htidy he hfe))
  | agree hfa hfe hfields _ _ hends =>
    have hf := within_flatten htidy ha hfa
    have hg := within_flatten htidy he hfe
    obtain ⟨Q₁, hmoves⟩ := lands_fields hfields htidy (within_commonFields hf hg)
    exact (lands_ends hends (hmoves.tidy htidy) (Flattened.Within.mono hf hmoves.subset)
      (Flattened.Within.mono hg hmoves.subset)).after hmoves

/-! ### All types -/

theorem within_zip {ts us : List Ty} (hts : ∀ t ∈ ts, t.Within Q) (hus : ∀ t ∈ us, t.Within Q) :
    ∀ p ∈ ts.zip us, p.1.Within Q ∧ p.2.Within Q := by
  rintro ⟨t, u⟩ hmem
  obtain ⟨ht, hu⟩ := List.of_mem_zip hmem
  exact ⟨hts t ht, hus u hu⟩

theorem lands_unifyVar (htidy : Tidy (s, Q)) {v : TyVar} {t : Ty} (hv : s.Unsolved v.id)
    (hvQ : .var v ∈ Q) (ht : t.Within Q) : Lands F (s, Q) (unifyVar v t s) := by
  obtain ⟨o, s', hrun, hbound⟩ := bound_unifyVar htidy hv ht
  rw [hrun]
  exact hbound.moves htidy hvQ ht

theorem lands_resolved {a e : Ty} {res : Ending Outcome} (h : Resolved (Safe F) s a e res)
    (htidy : Tidy (s, Q)) (ha : a.Within Q) (he : e.Within Q)
    (hleft : ∀ v, a = .var v → s.Unsolved v.id) (hright : ∀ v, e = .var v → s.Unsolved v.id) :
    Lands F (s, Q) res := by
  cases h with
  | accepted _ => exact lands_refl _
  | same _ => exact lands_refl _
  | @vars v w res hne hrun =>
    subst hrun
    obtain ⟨o, s', hrun, hjoins⟩ := joins_unifyVars (hleft v rfl) (hright w rfl) hne
    rw [hrun]
    exact hjoins.moves (hleft v rfl) (hright w rfl) hne (Ty.within_var.mp ha) (Ty.within_var.mp he)
  | @varLeft v t _ res _ hrun =>
    subst hrun
    exact lands_unifyVar htidy (hleft v rfl) (Ty.within_var.mp ha) he
  | @varRight v t _ res _ hrun =>
    subst hrun
    exact lands_unifyVar htidy (hright v rfl) (Ty.within_var.mp he) ha
  | unit => exact lands_refl _
  | tuple _ hpairs =>
    exact lands_pairs hpairs htidy (within_zip (Ty.within_tuple.mp ha) (Ty.within_tuple.mp he))
  | union _ hpairs =>
    exact lands_pairs hpairs htidy (within_zip (Ty.within_union.mp ha) (Ty.within_union.mp he))
  | params hpairs =>
    exact lands_pairs hpairs htidy
      (within_zip (Ty.within_arrow.mp ha).1 (Ty.within_arrow.mp he).1)
  | rest hpairs hrest =>
    obtain ⟨Q₁, hmoves⟩ := lands_pairs hpairs htidy
      (within_zip (Ty.within_arrow.mp ha).1 (Ty.within_arrow.mp he).1)
    exact hrest Q₁ (hmoves.tidy htidy) ((Ty.within_dropParams _ ha).mono hmoves.subset)
      ((Ty.within_dropParams _ he).mono hmoves.subset)
  | arrow hpairs hrest =>
    obtain ⟨Q₁, hmoves⟩ := lands_pairs hpairs htidy
      (within_zip (Ty.within_arrow.mp ha).1 (Ty.within_arrow.mp he).1)
    exact Lands.after hmoves (hrest Q₁ (hmoves.tidy htidy)
      ((Ty.within_dropParams _ ha).mono hmoves.subset)
      ((Ty.within_dropParams _ he).mono hmoves.subset))
  | record _ _ hrecords => exact lands_records hrecords htidy ha he
  | clash _ _ _ => exact lands_refl _

theorem within_resolve (htidy : Tidy (s, Q)) {t r : Ty} (ht : t.Within Q) (h : s.resolve t = .ok r) :
    r.Within Q :=
  (resolvesTo_of_resolve h).mentions htidy.keeps ht

theorem within_callee (htidy : Tidy (s, Q)) {t u r : Ty} (ht : t.Within Q) (h : s.callee t = .ok (u, r)) :
    u.Within Q ∧ r.Within Q :=
  callee_induct (fun _ _ => within_resolve htidy) (fun _ _ hwithin => (Ty.within_arrow.mp hwithin).2) ht h

theorem safe_unified {a e : Ty} {res : Ending Outcome} (h : Unified (Safe F) s a e res) :
    Safe F s a e res := by
  intro Q htidy ha he
  cases h with
  | lostLeft hlost =>
    obtain ⟨r, hresolve⟩ := exists_resolve htidy.loopfree htidy.closed (htidy.owns ha)
    rw [hresolve] at hlost
    cases hlost
  | lostRight hlost =>
    obtain ⟨r, hresolve⟩ := exists_resolve htidy.loopfree htidy.closed (htidy.owns he)
    rw [hresolve] at hlost
    cases hlost
  | resolved hra hre hres =>
    refine lands_resolved hres htidy (within_resolve htidy ha hra) (within_resolve htidy he hre)
      (fun v heq => ?_) (fun v heq => ?_)
    · exact (resolvesTo_of_resolve (heq ▸ hra)).unsolved_of_var
    · exact (resolvesTo_of_resolve (heq ▸ hre)).unsolved_of_var

end Level

theorem safe_unifyRounds (n : Nat) (s : Store) (a e : Ty) :
    Safe (· = .diverged) s a e (unifyRounds n a e s) :=
  unifyRounds_induct (fun _ _ _ _ _ _ _ => .inl rfl) (fun _ _ _ _ => safe_unified) n s a e

theorem safe_unify (s : Store) (a e : Ty) : Safe (· = .diverged) s a e (unify a e s) :=
  safe_unifyRounds _ s a e

end StoreM

end ElmInference
