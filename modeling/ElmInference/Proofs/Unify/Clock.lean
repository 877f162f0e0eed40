import ElmInference.Proofs.Unify.Depth

/-!
# The clock is never used up

A round of unification goes as deep as the types are when it begins. It leaves that depth only when
something has been learned, and then there is a further round to spend. Since what can be learned is
bounded, so are the rounds: on a sane store unification ends, with an answer or because a variable would
have been solved twice.
-/

namespace ElmInference

namespace StoreM

open Store Relation

variable {o : Origin} {s s₁ s' : Store} {k d : Nat}

/-- Whether the clock allows for the given pairs: there are more rounds than facts to be learned, or the
pairs are not too deep for the round that has begun. -/
def Affords (o : Origin) (k d : Nat) (s : Store) (pairs : List (Ty × Ty)) : Prop :=
  s.pending o < k ∨ s.pending o ≤ k ∧ ∃ p q, p + q < d ∧
    ∀ pair ∈ pairs, s.Deep p pair.1 ∧ s.Deep q pair.2

theorem Affords.mem {pairs : List (Ty × Ty)} (h : Affords o k d s pairs) {a e : Ty}
    (hmem : (a, e) ∈ pairs) : Affords o k d s [(a, e)] := by
  refine h.imp_right (fun ⟨hle, p, q, hpq, hdeep⟩ => ⟨hle, p, q, hpq, fun pair hpair => ?_⟩)
  rw [List.mem_singleton.mp hpair]
  exact hdeep _ hmem

theorem Affords.tail {pairs : List (Ty × Ty)} {pair : Ty × Ty} (h : Affords o k d s (pair :: pairs)) :
    Affords o k d s pairs :=
  h.imp_right (fun ⟨hle, p, q, hpq, hdeep⟩ =>
    ⟨hle, p, q, hpq, fun other hother => hdeep other (List.mem_cons_of_mem _ hother)⟩)

/-- What the clock allowed for it still allows for after progress was made. -/
theorem Affords.after {pairs : List (Ty × Ty)} (h : Affords o k d s pairs)
    (hstep : Advance o s s₁ ∧ Progress o s s₁) (hsane : s.Sane) (hinherits : Inherits o s) :
    Affords o k d s₁ pairs := by
  have hle := hstep.1.extension.pending_le hsane.closed hinherits.size
  rcases h with hlt | ⟨hk, p, q, hpq, hdeep⟩
  · exact .inl (Nat.lt_of_le_of_lt hle hlt)
  · rcases hstep.2 with hlearns | hcalm
    · have hlt := hlearns.pending_lt hstep.1.extension hsane.closed hinherits.size
      exact .inl (Nat.lt_of_lt_of_le hlt hk)
    · exact .inr ⟨Nat.le_trans hle hk, p, q, hpq,
        fun pair hpair => ⟨(hdeep pair hpair).1.calm hcalm, (hdeep pair hpair).2.calm hcalm⟩⟩

/-! ### One level deeper -/

theorem Affords.resolve {a e a' e' : Ty} (h : Affords o k d s [(a, e)]) (ha : s.ResolvesTo a a')
    (he : s.ResolvesTo e e') : Affords o k d s [(a', e')] := by
  refine h.imp_right (fun ⟨hle, p, q, hpq, hdeep⟩ => ⟨hle, p, q, hpq, fun pair hpair => ?_⟩)
  obtain ⟨hda, hde⟩ := hdeep (a, e) List.mem_cons_self
  rw [List.mem_singleton.mp hpair]
  exact ⟨hda.resolve ha, hde.resolve he⟩

/-- Going down one level on both sides. -/
theorem Affords.down {a e : Ty} {pairs : List (Ty × Ty)} (h : Affords o k (d + 1) s [(a, e)])
    (hdown : ∀ p q, s.Deep p a → s.Deep q e → ∃ p' q', p' + q' < p + q ∧
      ∀ pair ∈ pairs, s.Deep p' pair.1 ∧ s.Deep q' pair.2) : Affords o k d s pairs := by
  refine h.imp_right (fun ⟨hle, p, q, hpq, hdeep⟩ => ?_)
  obtain ⟨hda, hde⟩ := hdeep (a, e) List.mem_cons_self
  obtain ⟨p', q', hlt, hpairs⟩ := hdown p q hda hde
  exact ⟨hle, p', q', by omega, hpairs⟩

theorem affords_tuple {items items' : List Ty}
    (h : Affords o k (d + 1) s [(.tuple items, .tuple items')]) :
    Affords o k d s (items.zip items') := by
  refine h.down (fun p q ha he => ?_)
  cases ha with
  | accepts h => cases h
  | @tuple p _ hitems =>
    cases he with
    | accepts h => cases h
    | @tuple q _ hitems' =>
      refine ⟨p, q, by omega, fun pair hpair => ?_⟩
      obtain ⟨hl, hr⟩ := List.of_mem_zip hpair
      exact ⟨hitems _ hl, hitems' _ hr⟩

theorem affords_union {m n m' n' : Name} {args args' : List Ty} {w w' : Option (AliasUse Ty)}
    (h : Affords o k (d + 1) s [(.union m n args w, .union m' n' args' w')]) :
    Affords o k d s (args.zip args') := by
  refine h.down (fun p q ha he => ?_)
  cases ha with
  | accepts h => cases h
  | @union p _ _ _ _ hargs =>
    cases he with
    | accepts h => cases h
    | @union q _ _ _ _ hargs' =>
      refine ⟨p, q, by omega, fun pair hpair => ?_⟩
      obtain ⟨hl, hr⟩ := List.of_mem_zip hpair
      exact ⟨hargs _ hl, hargs' _ hr⟩

theorem exists_succ_of_arrow {n : Nat} {params : List Ty} {ret : Ty} {w : Option (AliasUse Ty)}
    (h : s.Deep n (.arrow params ret w)) : ∃ p, n = p + 1 := by
  cases h with
  | accepts h => cases h
  | @nullary p _ _ _ => exact ⟨p, rfl⟩
  | @arrow p _ _ _ _ _ _ => exact ⟨p, rfl⟩

section Arrows

variable {params params' : List Ty} {ret ret' : Ty} {w w' : Option (AliasUse Ty)}

theorem affords_params (h : Affords o k (d + 1) s [(.arrow params ret w, .arrow params' ret' w')]) :
    Affords o k d s (params.zip params') := by
  refine h.down (fun p q ha he => ?_)
  obtain ⟨p, rfl⟩ := exists_succ_of_arrow ha
  obtain ⟨q, rfl⟩ := exists_succ_of_arrow he
  refine ⟨p, q, by omega, fun pair hpair => ?_⟩
  obtain ⟨hl, hr⟩ := List.of_mem_zip hpair
  exact ⟨ha.param _ hl, he.param _ hr⟩

/-- Matching the shared parameters uses up all those of one side, so the rest is less deep. -/
theorem affords_rest (h : Affords o k (d + 1) s [(.arrow params ret w, .arrow params' ret' w')]) :
    Affords o k d s [(Ty.dropParams params ret (min params.length params'.length),
      Ty.dropParams params' ret' (min params.length params'.length))] := by
  refine h.down (fun p q ha he => ?_)
  obtain ⟨p', hda, hp, hpall⟩ := ha.dropParams (Nat.min_le_left params.length params'.length)
  obtain ⟨q', hde, hq, hqall⟩ := he.dropParams (Nat.min_le_right params.length params'.length)
  refine ⟨p', q', ?_, fun pair hpair => ?_⟩
  · rcases Nat.le_total params.length params'.length with hle | hle
    · have := hpall (Nat.min_eq_left hle)
      omega
    · have := hqall (Nat.min_eq_right hle)
      omega
  · rw [List.mem_singleton.mp hpair]
    exact ⟨hda, hde⟩

end Arrows

theorem not_accepts_of_shape {t : Ty} {shape : Shape} (h : shape? t = some shape) :
    acceptsAll t = false := by
  cases t <;> first | rfl | cases h

theorem exists_succ_of_record {n : Nat} {t : Ty} (h : s.Deep n t) (ht : shape? t = some .record) :
    ∃ p, n = p + 1 := by
  cases h with
  | record _ _ => exact ⟨_, rfl⟩
  | growing _ _ _ => exact ⟨_, rfl⟩
  | unsolved _ => cases ht
  | solved _ _ => cases ht
  | unit => cases ht
  | accepts h =>
    rw [not_accepts_of_shape ht] at h
    cases h
  | union _ => cases ht
  | tuple _ => cases ht
  | nullary _ => cases ht
  | arrow _ _ => cases ht

section Records

variable {a e : Ty} {f g : Flattened}

theorem affords_fields (h : Affords o k (d + 1) s [(a, e)]) (ha : shape? a = some .record)
    (he : shape? e = some .record) (hf : s.flatten a = .ok f) (hg : s.flatten e = .ok g) :
    Affords o k d s ((commonFields f g).map Prod.snd) := by
  refine h.down (fun p q hda hde => ?_)
  obtain ⟨p, rfl⟩ := exists_succ_of_record hda ha
  obtain ⟨q, rfl⟩ := exists_succ_of_record hde he
  have hdf := Deep.flatten (flattensTo_of_flatten hf) hda (Nat.le_refl _) (by simp)
  have hdg := Deep.flatten (flattensTo_of_flatten hg) hde (Nat.le_refl _) (by simp)
  refine ⟨p, q, by omega, fun pair hpair => ?_⟩
  obtain ⟨name, ht, hu⟩ := mem_commonFields hpair
  exact ⟨hdf _ ht, hdg _ (Assoc.mem_of_get? hu)⟩

/-- The ends of two records are variables, which are not deep at all. -/
theorem affords_tails (h : Affords o k (d + 1) s [(a, e)]) (ha : shape? a = some .record)
    (hf : s.flatten a = .ok f) (hg : s.flatten e = .ok g) {v w : TyVar} (hv : f.tail = .opened v)
    (hw : g.tail = .opened w) : Affords o k d s [(.var v, .var w)] := by
  refine h.down (fun p q hda _ => ?_)
  obtain ⟨p, rfl⟩ := exists_succ_of_record hda ha
  refine ⟨0, 0, by omega, fun pair hpair => ?_⟩
  rw [List.mem_singleton.mp hpair]
  exact ⟨.unsolved ((flattensTo_of_flatten hf).unsolved_tail hv),
    .unsolved ((flattensTo_of_flatten hg).unsolved_tail hw)⟩

end Records

/-! ### A level that is afforded comes to an end -/

/-- Runs that the clock allows for do not use it up. -/
def Returning (o : Origin) (k d : Nat) : Behaviour := fun s a e res =>
  s.Sane → Inherits o s → Live o s a → Live o s e → Affords o k d s [(a, e)] →
    res ≠ .error .diverged

/-- What the recursive calls of a level are known to do. -/
def Timed (F : Fault → Prop) (o : Origin) (k d : Nat) : Behaviour := fun s a e res =>
  Advancing F o s a e res ∧ Returning o k d s a e res

section Level

variable {F : Fault → Prop}

theorem returns_pairs {pairs : List (Ty × Ty)} {res : Ending Outcome}
    (h : Pairs (Timed F o k d) s pairs res) (hsane : s.Sane) (hinherits : Inherits o s)
    (hpairs : ∀ p ∈ pairs, p.1.Within o.mentions ∧ p.2.Within o.mentions)
    (hafford : Affords o k d s pairs) : res ≠ .error .diverged := by
  induction h with
  | nil => exact fun h => by cases h
  | fault hfirst =>
    obtain ⟨ha, he⟩ := hpairs _ List.mem_cons_self
    exact hfirst.2 hsane hinherits (.inl ha) (.inl he) (hafford.mem List.mem_cons_self)
  | later hfirst _ ih =>
    obtain ⟨ha, he⟩ := hpairs _ List.mem_cons_self
    have hstep := advance_of_original hfirst.1 hsane hinherits ha he
    exact ih hstep.1.sane hstep.1.inherits (fun p hp => hpairs p (List.mem_cons_of_mem _ hp))
      (hafford.tail.after hstep hsane hinherits)
  | cons _ _ _ => exact fun h => by cases h

theorem Grown.returns {tail : Tail} {fields : List (Name × Ty)} {rest : Ty} {res : Ending Outcome}
    (h : Grown s tail fields rest res) : res ≠ .error .diverged := by
  cases h <;> exact fun h => by cases h

theorem GrownBoth.returns {tail tail' : Tail} {fields fields' : List (Name × Ty)}
    {res : Ending Outcome} (h : GrownBoth s tail tail' fields fields' res) :
    res ≠ .error .diverged := by
  cases h with
  | same _ => exact fun h => by cases h
  | fault _ hfirst => exact hfirst.returns
  | first _ _ => exact fun h => by cases h
  | second _ _ hsecond => exact hsecond.returns

theorem returns_ends {f g : Flattened} {res : Ending Outcome} (h : Ends (Timed F o k d) s f g res)
    (hsane : s.Sane) (hinherits : Inherits o s) (hf : Inherited o s f) (hg : Inherited o s g)
    (hafford : ∀ v w, f.tail = .opened v → g.tail = .opened w →
      Affords o k d s [(.var v, .var w)]) : res ≠ .error .diverged := by
  cases h with
  | settled _ _ _ | rigid _ _ => exact fun h => by cases h
  | tails _ _ hft hgt hrun =>
    exact hrun.2 hsane hinherits (hf.live _ hft) (hg.live _ hgt) (hafford _ _ hft hgt)
  | close _ _ _ htails hrun =>
    subst hrun
    have hlive : Live o s (.var _) := htails.elim (fun h => hf.live _ h.1) (fun h => hg.live _ h.2)
    rcases unsolved_or_some (hlive.owns hinherits hsane.closed).var_lt with hun | ⟨u, hsol⟩
    · rw [run_solve _ hun]
      exact fun h => by cases h
    · rw [run_solve_some _ hsol]
      exact fun h => by cases h
  | growLeft _ _ hrun =>
    subst hrun
    exact (hf.grown hg hsane).returns
  | growRight _ _ hrun =>
    subst hrun
    exact (hg.grown hf hsane).returns
  | growBoth _ _ hrun =>
    subst hrun
    exact (grown_growBoth hsane.tidy hf.within.tail hg.within.tail
      (within_fieldsMissingIn hf.within g) (within_fieldsMissingIn hg.within f)).returns

theorem returns_records {a e : Ty} {res : Ending Outcome} (h : Records (Timed F o k d) s a e res)
    (hsane : s.Sane) (hinherits : Inherits o s) (ha : Live o s a) (he : Live o s e)
    (hsa : shape? a = some .record) (hse : shape? e = some .record)
    (hafford : Affords o k (d + 1) s [(a, e)]) : res ≠ .error .diverged := by
  cases h with
  | lostLeft hlost =>
    obtain ⟨f, hflat⟩ := exists_flatten hsane.loopfree hsane.closed (ha.owns hinherits hsane.closed)
    rw [hflat] at hlost
    cases hlost
  | lostRight _ hlost =>
    obtain ⟨g, hflat⟩ := exists_flatten hsane.loopfree hsane.closed (he.owns hinherits hsane.closed)
    rw [hflat] at hlost
    cases hlost
  | fields hfa hfe hfields =>
    have hf := inherited_flatten hsane hinherits ha hfa
    have hg := inherited_flatten hsane hinherits he hfe
    have hreturns := returns_pairs hfields.pairs_of_error hsane hinherits (original_commonFields hf hg)
      (affords_fields hafford hsa hse hfa hfe)
    exact fun heq => hreturns (by cases heq; rfl)
  | infinite _ _ _ | differ _ _ _ _ => exact fun h => by cases h
  | agree hfa hfe hfields _ _ hends =>
    have hf := inherited_flatten hsane hinherits ha hfa
    have hg := inherited_flatten hsane hinherits he hfe
    have hstep := advance_fields (hfields.mono (fun _ _ _ _ hrun => hrun.1)) hsane hinherits
      (original_commonFields hf hg)
    refine returns_ends hends hstep.1.sane hstep.1.inherits (hf.extend hstep.1.extension)
      (hg.extend hstep.1.extension) (fun v w hv hw => ?_)
    exact (affords_tails hafford hsa hfa hfe hv hw).after hstep hsane hinherits

theorem returns_resolved {a e : Ty} {res : Ending Outcome} (h : Resolved (Timed F o k d) s a e res)
    (hsane : s.Sane) (hinherits : Inherits o s) (ha : Live o s a) (he : Live o s e)
    (hleft : ∀ v, a = .var v → s.Unsolved v.id) (hright : ∀ v, e = .var v → s.Unsolved v.id)
    (hafford : Affords o k (d + 1) s [(a, e)]) : res ≠ .error .diverged := by
  cases h with
  | accepted _ | same _ | unit | clash _ _ _ | arrow _ _ => exact fun h => by cases h
  | @vars v w _ hne hrun =>
    obtain ⟨out, s', hrun', -⟩ := joins_unifyVars (hleft v rfl) (hright w rfl) hne
    rw [← hrun, hrun']
    exact fun h => by cases h
  | @varLeft v t _ _ _ hrun =>
    obtain ⟨out, s', hrun', -⟩ := bound_unifyVar hsane.tidy (hleft v rfl)
      (he.owns hinherits hsane.closed)
    rw [← hrun, hrun']
    exact fun h => by cases h
  | @varRight v t _ _ _ hrun =>
    obtain ⟨out, s', hrun', -⟩ := bound_unifyVar hsane.tidy (hright v rfl)
      (ha.owns hinherits hsane.closed)
    rw [← hrun, hrun']
    exact fun h => by cases h
  | tuple _ hpairs =>
    exact returns_pairs hpairs hsane hinherits
      (within_zip (ha.stored hinherits).tuple (he.stored hinherits).tuple) (affords_tuple hafford)
  | union _ hpairs =>
    exact returns_pairs hpairs hsane hinherits
      (within_zip (ha.stored hinherits).union (he.stored hinherits).union) (affords_union hafford)
  | params hpairs =>
    have hwa := Ty.within_arrow.mp (ha.stored hinherits).arrow
    have hwe := Ty.within_arrow.mp (he.stored hinherits).arrow
    exact returns_pairs hpairs hsane hinherits (within_zip hwa.1 hwe.1) (affords_params hafford)
  | rest hpairs hrest =>
    have hwa := (ha.stored hinherits).arrow
    have hwe := (he.stored hinherits).arrow
    have hstep := advance_pairs (hpairs.mono (fun _ _ _ _ hrun => hrun.1)) hsane hinherits
      (within_zip (Ty.within_arrow.mp hwa).1 (Ty.within_arrow.mp hwe).1)
    exact hrest.2 hstep.1.sane hstep.1.inherits (.inl (Ty.within_dropParams _ hwa))
      (.inl (Ty.within_dropParams _ hwe)) ((affords_rest hafford).after hstep hsane hinherits)
  | record hsa hse hrecords => exact returns_records hrecords hsane hinherits ha he hsa hse hafford

theorem returning_unified {a e : Ty} {res : Ending Outcome} (h : Unified (Timed F o k d) s a e res) :
    Returning o k (d + 1) s a e res := by
  intro hsane hinherits ha he hafford
  cases h with
  | lostLeft hlost =>
    obtain ⟨r, hresolve⟩ := exists_resolve hsane.loopfree hsane.closed (ha.owns hinherits hsane.closed)
    rw [hresolve] at hlost
    cases hlost
  | lostRight hlost =>
    obtain ⟨r, hresolve⟩ := exists_resolve hsane.loopfree hsane.closed (he.owns hinherits hsane.closed)
    rw [hresolve] at hlost
    cases hlost
  | resolved hra hre hres =>
    have hra := resolvesTo_of_resolve hra
    have hre := resolvesTo_of_resolve hre
    refine returns_resolved hres hsane hinherits (ha.chains hinherits (chain_of_resolvesTo hra))
      (he.chains hinherits (chain_of_resolvesTo hre)) (fun v heq => ?_) (fun v heq => ?_)
      (hafford.resolve hra hre)
    · exact (heq ▸ hra).unsolved_of_var
    · exact (heq ▸ hre).unsolved_of_var

end Level

theorem advancing_unifyRounds (o : Origin) (n : Nat) (s : Store) (a e : Ty) :
    Advancing (· = .diverged) o s a e (unifyRounds n a e s) := by
  refine unifyRounds_induct (fun s a e => ⟨fun _ _ _ _ => .inl rfl, ?_⟩)
    (fun _ _ _ _ => advancing_unified) n s a e
  intro _ _ _ _ out s' h
  cases h

/-- A round ends within its depth or goes on in the next one. -/
theorem timed_unifyWithin {beyond : Ty → Ty → StoreM Outcome}
    (hbeyond : ∀ s a e, Advancing (· = .diverged) o s a e (beyond a e s))
    (hreturns : ∀ s a e, s.Sane → Inherits o s → Live o s a → Live o s e → s.pending o < k →
      beyond a e s ≠ .error .diverged) (d : Nat) (s : Store) (a e : Ty) :
    Timed (· = .diverged) o k d s a e (unifyWithin beyond d a e s) := by
  induction d generalizing s a e with
  | zero =>
    refine ⟨hbeyond s a e, fun hsane hinherits ha he hafford => ?_⟩
    rcases hafford with hlt | ⟨_, p, q, hpq, _⟩
    · exact hreturns s a e hsane hinherits ha he hlt
    · omega
  | succ d ih =>
    have hunified := unified_run ih s a e
    exact ⟨advancing_unified (hunified.mono (fun _ _ _ _ hrun => hrun.1)), returning_unified hunified⟩

theorem affords_roundDepth (hsane : s.Sane) {a e : Ty} (ha : s.Owns a) (he : s.Owns e)
    (hk : s.pending o ≤ k) : Affords o k (roundDepth s a e) s [(a, e)] := by
  refine .inr ⟨hk, s.depth a, s.depth e, ?_, fun pair hpair => ?_⟩
  · have := s.depth_le a
    have := s.depth_le e
    unfold roundDepth
    omega
  · rw [List.mem_singleton.mp hpair]
    exact ⟨deep_depth hsane ha, deep_depth hsane he⟩

/-- Unification ends when it has more rounds than there are facts to be learned. -/
theorem unifyRounds_returns (n : Nat) {a e : Ty} (hsane : s.Sane) (hinherits : Inherits o s)
    (ha : Live o s a) (he : Live o s e) (hn : s.pending o < n) :
    unifyRounds n a e s ≠ .error .diverged := by
  induction n generalizing s a e with
  | zero => omega
  | succ n ih =>
    -- a round that gets too deep has learned something, so that fewer facts are pending in the next one
    have htimed := timed_unifyWithin (o := o) (k := n) (advancing_unifyRounds o n)
      (fun s a e hsane hinherits ha he hlt => ih hsane hinherits ha he hlt) (roundDepth s a e) s a e
    exact htimed.2 hsane hinherits ha he (affords_roundDepth hsane (ha.owns hinherits hsane.closed)
      (he.owns hinherits hsane.closed) (by omega))

end StoreM

end ElmInference
