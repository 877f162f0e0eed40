import ElmInference.Proofs.Store.Flatness
import ElmInference.Proofs.Unify.Footprint
import ElmInference.Proofs.Unify.Soundness

/-!
# What a record pattern learns

A record pattern asks for its fields by fresh variables, with one more variable for the rest of the record. Unification
solves each of them when it meets the field of the record that is there: by the type of the field, or by a growing copy
of it. From then on the variable and the field are written out alike, except for the alias of the field. What the
record lacks is added at its end, and then the variables are its fields.

There is one end to which nothing is added. A record whose end is unknown accepts every pattern, so a field that it lacks
is found neither in it nor anywhere else.
-/

namespace ElmInference

open Relation

namespace Store

variable {s s₁ s' : Store} {Q : Set Mention} {t u e z : Ty} {v w : TyVar} {n m : Nat}

/-! ### Types that can be written out -/

theorem displays_of_zonkAt (h : s.zonkAt n t = .ok z) : s.Displays t := by
  intro r hr
  cases r with
  | var v => exact hasNode_of_zonkAt h ⟨.var v.id, ⟨_, hr, rfl⟩, .refl⟩
  | record id => exact hasNode_of_zonkAt h ⟨.record id, ⟨_, hr, rfl⟩, .refl⟩
  | field name => trivial
  | hole => trivial

/-- Nothing need be known of the store when the type is written out already. -/
theorem not_loops_of_written (h : s.zonkAt n t = .ok z) : ¬ s.Loops t := by
  intro hloops
  obtain ⟨u, hcrosses, hu⟩ := hloops.exists_crosses
  induction n generalizing t z u with
  | zero =>
    obtain ⟨_, _, hn, -⟩ := exists_zonkAt_of_crosses (displays_of_zonkAt h) h hcrosses
    cases hn
  | succ n ih =>
    obtain ⟨_, _, hn, hy⟩ := exists_zonkAt_of_crosses (displays_of_zonkAt h) h hcrosses
    cases hn
    obtain ⟨u', hcrosses', hu'⟩ := hu.exists_crosses
    exact ih hy hu u' hcrosses' hu'

theorem exists_zonkAt_of_rank (h : s.zonkAt m t = .ok z) (hrank : s.rank true t ≤ n) : ∃ y, s.zonkAt n t = .ok y := by
  induction n generalizing m t z with
  | zero =>
    rcases settles_zonkWith (fun _ => .error .diverged) (displays_of_zonkAt h) with ⟨y, hy, -⟩ | ⟨u, -, hcrosses, -⟩
    · exact ⟨y, hy⟩
    · have hlt := hcrosses.rank_lt (not_loops_of_written h)
      omega
  | succ n ih =>
    rcases settles_zonkWith (s.zonkAt n) (displays_of_zonkAt h) with ⟨y, hy, -⟩ | ⟨u, fault, hcrosses, hfault, -⟩
    · exact ⟨y, hy⟩
    · have hlt := hcrosses.rank_lt (not_loops_of_written h)
      obtain ⟨k, y, -, hy⟩ := exists_zonkAt_of_crosses (displays_of_zonkAt h) h hcrosses
      obtain ⟨y', hy'⟩ := ih hy (by omega)
      cases hfault.symm.trans hy'

/-- A type that is written out in some number of crossings is written out in those that are allowed. -/
theorem zonk_of_zonkAt (h : s.zonkAt n t = .ok z) : s.zonk t = .ok z := by
  obtain ⟨y, hy⟩ := exists_zonkAt_of_rank h (s.rank_le_crossings true t)
  have hmore := zonkAt_mono (Nat.le_max_left n s.crossings) h
  cases hmore.symm.trans (zonkAt_mono (Nat.le_max_right n s.crossings) hy)
  exact hy

/-! ### Types that are written out alike -/

/-- Whether a type is written out as another one from now on, except for the alias that the other one is written with.
Nothing is said about what is unknown. -/
def Echoes (s : Store) (t u : Ty) : Prop :=
  ∀ (s' : Store) (n : Nat) (y : Ty), s.Extends s' → s'.zonkAt n u = .ok y → .hole ∉ y.mentions false →
    ∃ z w, s'.zonk t = .ok z ∧ y = z.writtenAs? w

theorem Echoes.refl (s : Store) (t : Ty) : s.Echoes t t :=
  fun _ _ y _ hy _ => ⟨y, none, zonk_of_zonkAt hy, rfl⟩

theorem Echoes.later (h : s.Echoes t u) (hext : s.Extends s') : s'.Echoes t u :=
  fun s'' n y hext' => h s'' n y (hext.trans hext')

/-- A solved variable is written out as its solution. -/
theorem Echoes.ahead (h : s.Echoes t u) (hsol : s.solution? v.id = some t) : s.Echoes (.var v) u := by
  intro s' n y hext hy hhole
  obtain ⟨z, w, hz, rfl⟩ := h s' n y hext hy hhole
  refine ⟨z, w, zonk_of_zonkAt (n := s'.crossings + 1) ?_, rfl⟩
  rw [zonkAt, zonkWith_solved (hext.solution _ _ hsol)]
  exact hz

theorem Echoes.behind (h : s.Echoes t u) (hsol : s.solution? v.id = some u) : s.Echoes t (.var v) := by
  intro s' n y hext hy hhole
  obtain ⟨m, -, hnext⟩ := exists_of_zonkAt_solved (hext.solution _ _ hsol) hy
  exact h s' m y hext hnext hhole

theorem Echoes.of_resolvesTo {r : Ty} (hresolves : s.ResolvesTo u r) (hext : s.Extends s') (h : s'.Echoes t r) :
    s'.Echoes t u := by
  induction hresolves with
  | solved hsol _ ih => exact (ih h).behind (hext.solution _ _ hsol)
  | unsolved _ => exact h
  | other _ => exact h

theorem hole_of_zonkAt (haccepts : StoreM.acceptsAll u = true) (hz : s.zonkAt n u = .ok z) : .hole ∈ z.mentions false := by
  rw [zonkAt_eq] at hz
  cases u with
  | unknown | inProgress =>
    rw [zonkWith] at hz
    cases hz
    exact List.mem_singleton_self _
  | _ => cases haccepts

theorem echoes_hole (haccepts : StoreM.acceptsAll u = true) : s.Echoes t u :=
  fun _ _ _ _ hy hhole => absurd (hole_of_zonkAt haccepts hy) hhole

/-- The growing copy of a record is written out as the record. -/
theorem echoes_copy {fields : List (Name × Ty)} {base : Ty} {w : Option (AliasUse Ty)} {refs : FieldReferences}
    {id : RecordId} (hrec : s.records[id]? = some { fields, base, refs }) :
    s.Echoes (.growing id) (.record fields (some base) w refs) := by
  intro s' n y hext hy hhole
  rw [zonkAt_eq] at hy
  obtain ⟨zs, b, w', hzs, hb, -, rfl⟩ := exists_of_zonkWith_record hy
  obtain ⟨zb, hzb, rfl⟩ := exists_of_zonkBase hb
  have hfields : ZonkedFields (s'.zonkAt n) fields zs := by
    rw [zonkAt_eq]
    exact zonkFields_iff.mp hzs
  rw [← zonkAt_eq] at hzb
  -- an unknown base of the record would be seen
  have hbase : zb ≠ .unknown := by
    rintro rfl
    exact hhole (by simp [Ty.mentions_writtenAs?, Ty.recordWith, Ty.mentions, Ty.mentionsBase])
  refine ⟨Ty.recordWith zs (some zb) refs, w', zonk_of_zonkAt (n := n + 1) ?_, rfl⟩
  rw [zonkAt, zonkWith_growing (hext.record _ _ hrec), mapM_fields_iff.mpr hfields, ok_bind, hzb, ok_bind,
    writtenOut_of_ne hbase]
  rfl

/-! ### Variables that nobody else knows -/

/-- Whether a variable has no solution and the types at hand do not mention it. -/
structure Aside (w : World) (v : TyVar) : Prop where
  unsolved : w.1.Unsolved v.id
  unnamed : ∀ u : TyVar, .var u ∈ w.2 → u.id ≠ v.id

theorem Moves.aside {w w' : World} (h : Moves w w') (hv : Aside w v) : Aside w' v := by
  refine ⟨?_, fun u hu heq => ?_⟩
  · rcases unsolved_or_some (Nat.lt_of_lt_of_le hv.unsolved.1 h.extends.size) with hun | ⟨t, hsol⟩
    · exact hun
    · obtain ⟨u, hid, -, hmem⟩ := h.exists_of_solved hv.unsolved hsol
      exact absurd hid (hv.unnamed u hmem)
  · rcases (Moves.advances h).new hu with hmem | hnew
    · exact hv.unnamed u hmem heq
    · refine hnew ?_
      rw [Has, heq]
      exact hv.unsolved.1

theorem Aside.insert {u : TyVar} (h : Aside (s, Q) v) (hne : u.id ≠ v.id) : Aside (s, insert (.var u) Q) v := by
  refine ⟨h.unsolved, fun u' hu' => ?_⟩
  rcases hu' with heq | hu'
  · cases heq
    exact hne
  · exact h.unnamed u' hu'

theorem Tidy.extended (h : Tidy (s, Q)) : Tidy (s.extended, Q) where
  closed := ((mints_fresh s Q "" false).moves.tidy h).closed
  loopfree := h.loopfree.extended
  keeps := h.keeps.extended (fun _ hr => hr) (fun _ hv => .inl hv) fun _ hid => hid
  owned r hr := (extends_extended s).has (h.owned r hr)

theorem Aside.extended (h : Aside (s, Q) v) : Aside (s.extended, Q) v :=
  ⟨h.unsolved.extended, h.unnamed⟩

/-- Nobody knows a fresh variable. -/
theorem Tidy.aside_extended (h : Tidy (s, Q)) (name : Name) (rigid : Bool) : Aside (s.extended, Q) ⟨s.size, name, rigid⟩ :=
  ⟨unsolved_extended_self s, fun _ hu => Nat.ne_of_lt (h.owned _ hu)⟩

theorem Tidy.insert_unsolved (h : Tidy (s, Q)) (hv : s.Unsolved v.id) : Tidy (s, insert (.var v) Q) := by
  refine ⟨h.closed, h.loopfree, ⟨fun u t hu hsol r hr => ?_, fun id g hid hrec r hr => ?_⟩, fun r hr => ?_⟩
  · rcases hu with heq | hu
    · cases heq
      exact absurd hv (not_unsolved_of_some hsol)
    · exact .inr (h.keeps.solution u t hu hsol r hr)
  · rcases hid with heq | hid
    · cases heq
    · exact .inr (h.keeps.record id g hid hrec r hr)
  · rcases hr with rfl | hr
    · exact hv.1
    · exact h.owned r hr

end Store

namespace StoreM

open Store

variable {F : Fault → Prop} {s s₁ s' : Store} {Q : Set Mention} {t u a e : Ty} {v w : TyVar} {res : Ending Outcome}

theorem Joins.echoes (h : s.Joins v w (.ok ()) s') (hv : s.Unsolved v.id) (hw : s.Unsolved w.id) (hne : v.id ≠ w.id) :
    s'.Echoes (.var v) (.var w) := by
  cases h with
  | left _ _ => exact (Echoes.refl _ _).ahead (solution?_solved_self _ hv.1)
  | right _ _ => exact (Echoes.refl _ _).behind (solution?_solved_self _ hw.1)
  | both _ _ _ _ _ =>
    refine Echoes.behind (.ahead (.refl _ _) ?_) (solution?_solved_self _ (by simpa using hw.extended.1))
    rw [solution?_solved_of_ne _ _ hne, solution?_solved_self _ hv.extended.1]

theorem Bound.echoes (h : Bound s v t (.ok ()) s') : s'.Echoes (.var v) t := by
  cases h with
  | solved _ _ hun _ _ => exact (Echoes.refl _ _).ahead (solution?_solved_self _ hun.1)
  | @copied s₁ fields base w refs heq _ _ hun _ =>
    subst heq
    refine (echoes_copy ?_).ahead (solution?_solved_self _ (by simpa using hun.1))
    exact record?_recorded_self s₁ { fields, base, refs }

/-- A variable that nobody else knows echoes what it is unified with. -/
def Taken : Behaviour := fun s a e res =>
  ∀ Q v s', Tidy (s, Q) → e.Within Q → a = .var v → Aside (s, Q) v → res = .ok (.ok (), s') → s'.Echoes a e

theorem taken_unified (h : Unified (Safe F) s a e res) : Taken s a e res := by
  rintro Q v s' htidy he rfl hv rfl
  obtain ⟨Q', hmoves⟩ := safe_unified h _ (htidy.insert_unsolved hv.unsolved) (Ty.within_var.mpr (Set.mem_insert _ _))
    (he.mono (Set.subset_insert _ _))
  cases h with
  | @resolved a' e' _ hra hre hres =>
    obtain rfl := (resolvesTo_of_resolve hra).unique (.unsolved hv.unsolved)
    have hresolves := resolvesTo_of_resolve hre
    have he' := within_resolve htidy he hre
    refine Echoes.of_resolvesTo hresolves hmoves.extends ?_
    cases hres with
    | accepted haccepts => exact echoes_hole (haccepts.resolve_left (by simp [acceptsAll]))
    | same hid => exact absurd hid.symm (hv.unnamed _ (Ty.within_var.mp he'))
    | vars hne hrun =>
      obtain ⟨o, s₁, hrun', hjoins⟩ := joins_unifyVars hv.unsolved hresolves.unsolved_of_var hne
      cases hrun'.symm.trans hrun
      exact Joins.echoes hjoins hv.unsolved hresolves.unsolved_of_var hne
    | varLeft _ hrun =>
      obtain ⟨o, s₁, hrun', hbound⟩ := bound_unifyVar htidy hv.unsolved he'
      cases hrun'.symm.trans hrun
      exact hbound.echoes
    | varRight hshape _ => cases hshape
    | record hshape _ _ => cases hshape

def Apart (t u : Ty) : Prop :=
  ∀ v w : TyVar, t = .var v → u = .var w → v.id ≠ w.id

/-- Different variables that nobody else knows are unified one after another, and none of these steps solves a later
one. -/
theorem echoes_pairs {pairs : List (Ty × Ty)}
    (h : Pairs (fun s a e res => Safe F s a e res ∧ Taken s a e res) s pairs (.ok (.ok (), s')))
    (htidy : Tidy (s, Q)) (hwithin : ∀ p ∈ pairs, p.2.Within Q)
    (haside : ∀ p ∈ pairs, ∃ v, p.1 = .var v ∧ Aside (s, Q) v) (hapart : pairs.Pairwise fun p q => Apart p.1 q.1) :
    s.Extends s' ∧ s'.Sane ∧ ∀ p ∈ pairs, s'.Echoes p.1 p.2 := by
  generalize hres : (Except.ok (.ok (), s') : Ending Outcome) = res at h
  induction h generalizing Q s' with
  | nil =>
    cases hres
    exact ⟨.refl _, htidy.sane, nofun⟩
  | fault _ => cases hres
  | later _ _ _ => cases hres
  | @cons s s₁ s'' a e rest o o' hfirst _ ih =>
    obtain ⟨houtcome, rfl⟩ := Prod.mk.inj (Except.ok.inj hres)
    obtain ⟨ho, rfl⟩ := andThen_ok houtcome.symm
    obtain rfl := nested_ok ho
    obtain ⟨hsafe, htaken⟩ := hfirst
    obtain ⟨v, rfl, hv⟩ := haside _ List.mem_cons_self
    have he : e.Within Q := hwithin _ List.mem_cons_self
    have htidyV := htidy.insert_unsolved hv.unsolved
    obtain ⟨Q₁, hmoves⟩ := hsafe _ htidyV (Ty.within_var.mpr (Set.mem_insert _ _)) (he.mono (Set.subset_insert _ _))
    obtain ⟨hfar, hapart⟩ := List.pairwise_cons.mp hapart
    obtain ⟨hext, hsane, hechoes⟩ := ih (hmoves.tidy htidyV)
      (fun p hp => (hwithin p (List.mem_cons_of_mem _ hp)).mono ((Set.subset_insert _ _).trans hmoves.subset))
      (fun p hp => by
        obtain ⟨u, hu, hnobody⟩ := haside p (List.mem_cons_of_mem _ hp)
        exact ⟨u, hu, hmoves.aside (hnobody.insert (hfar p hp v u rfl hu))⟩)
      hapart rfl
    refine ⟨hmoves.extends.trans hext, hsane, fun p hp => ?_⟩
    rcases List.mem_cons.mp hp with rfl | hp
    · exact (htaken Q v s₁ htidy he rfl hv rfl).later hext
    · exact hechoes p hp

end StoreM

namespace Store

variable {s s₁ s' : Store} {Q : Set Mention} {t u e z : Ty} {above : List (Name × Ty)} {f g : Flattened}
  {name : Name} {n : Nat}

/-! ### What becomes of a field -/

theorem FlattensTo.onward (h : s.FlattensTo t above f) (hext : s.Extends s') (hsane : s'.Sane) :
    ∃ f', s'.FlattensTo t above f' ∧ (∀ name u, f.field? name = some u → f'.field? name = some u) ∧
      ∀ v, f.tail = .opened v → s'.FlattensTo (.var v) f.fields f' := by
  refine h.later s' hext.solution (fun id g hrec => ⟨g, hext.record id g hrec, rfl, rfl⟩) fun v above hun => ?_
  have hown : s'.Owns (.var v) := hext.owns fun r hr => by
    rw [List.mem_singleton.mp hr]
    exact hun.1
  obtain ⟨f', hf'⟩ := exists_flattenAt hsane.loopfree hsane.closed above hown (s'.rank_le_crossings false _)
  exact ⟨f', flattensTo_of_flattenAt hf'⟩

/-- Nothing is added to a record whose end is unknown. -/
theorem FlattensTo.settled (h : s.FlattensTo t above f) (htail : f.tail = .unknown) (hext : s.Extends s') :
    s'.FlattensTo t above f := by
  induction h with
  | closed => exact .closed
  | base _ ih => exact .base (ih htail)
  | growing hrec _ ih => exact .growing (hext.record _ _ hrec) (ih htail)
  | unsolved _ => cases htail
  | solved hsol _ ih => exact .solved (hext.solution _ _ hsol) (ih htail)
  | unknown => exact .unknown
  | baseless h => exact .baseless h

theorem ResolvesTo.onward (h : s.ResolvesTo t u) (hext : s.Extends s') (hu : ∀ v, u ≠ .var v) : s'.ResolvesTo t u := by
  induction h with
  | solved hsol _ ih => exact .solved (hext.solution _ _ hsol) (ih hu)
  | unsolved _ => exact absurd rfl (hu _)
  | other h => exact .other h

/-- A record whose end is unknown is written out without the fields that it lacks. -/
theorem lacks_of_flattensTo (h : s.FlattensTo t above f) (htail : f.tail = .unknown) (hnone : f.field? name = none)
    (hz : s.zonkAt n t = .ok z) :
    z = .unknown ∨ (∃ fields base w refs, z = .record fields base w refs) ∧ z.field? name = none := by
  have hbelow : ∀ {zb : Ty}, (zb = .unknown ∨ (∃ fields base w refs, zb = .record fields base w refs) ∧
      zb.field? name = none) → zb.field? name = none := by
    rintro zb (rfl | ⟨-, hzb⟩)
    · rfl
    · exact hzb
  induction h generalizing n z with
  | closed => cases htail
  | @base fields above b w refs f hrest ih =>
    refine .inr ⟨exists_record_of_zonkAt rfl hz, ?_⟩
    have hown := hrest.get?_above hnone
    rw [Ty.get?_addFields, Option.or_eq_none_iff] at hown
    rw [zonkAt_eq] at hz
    obtain ⟨zs, b', w', hzs, hb, -, rfl⟩ := exists_of_zonkWith_record hz
    obtain ⟨zb, hzb, rfl⟩ := exists_of_zonkBase hb
    rw [← zonkAt_eq] at hzb
    rcases (zonkFields_iff.mp hzs).get? name with ⟨-, hnone'⟩ | ⟨t, y, ht, -, -⟩
    · rw [field?_writtenAs?, field?_recordWith, hnone', Option.none_or]
      exact hbelow (ih htail hnone hzb)
    · cases hown.2.symm.trans ht
  | @growing id g above f hrec hrest ih =>
    refine .inr ⟨exists_record_of_zonkAt rfl hz, ?_⟩
    have hown := hrest.get?_above hnone
    rw [Ty.get?_addFields, Option.or_eq_none_iff] at hown
    obtain ⟨n, zs, zb, rfl, hzs, hzb, rfl⟩ := exists_of_zonkAt_growing hrec hz
    rcases hzs.get? name with ⟨-, hnone'⟩ | ⟨t, y, ht, -, -⟩
    · rw [field?_writtenOut, hnone', Option.none_or]
      exact hbelow (ih htail hnone hzb)
    · cases hown.2.symm.trans ht
  | unsolved _ => cases htail
  | @solved v t above f hsol _ ih =>
    obtain ⟨m, -, hnext⟩ := exists_of_zonkAt_solved hsol hz
    exact ih htail hnone hnext
  | unknown =>
    rw [zonkAt_eq, zonkWith] at hz
    cases hz
    exact .inl rfl
  | baseless _ => cases htail

/-- What a type gives for the field of a name: nothing is known of the type, the field is there and is written out like
the given type, or it is missing in a record whose end is unknown. -/
inductive Gives (s : Store) (e : Ty) (name : Name) (t : Ty) : Prop
  | hole {r : Ty} : s.ResolvesTo e r → StoreM.acceptsAll r = true → Gives s e name t
  | field {f : Flattened} {u : Ty} : s.FlattensTo e [] f → f.field? name = some u → s.Echoes t u → Gives s e name t
  | lost {f : Flattened} : s.FlattensTo e [] f → f.tail = .unknown → f.field? name = none → Gives s e name t

theorem Gives.later (h : s.Gives e name t) (hext : s.Extends s') (hsane : s'.Sane) : s'.Gives e name t := by
  cases h with
  | hole hresolves haccepts =>
    refine .hole (hresolves.onward hext fun v heq => ?_) haccepts
    subst heq
    cases haccepts
  | field hflat hfield hechoes =>
    obtain ⟨f', hflat', hkeeps, -⟩ := hflat.onward hext hsane
    exact .field hflat' (hkeeps _ _ hfield) (hechoes.later hext)
  | lost hflat htail hnone => exact .lost (hflat.settled htail hext) htail hnone

theorem mentions_field?_subset {y : Ty} (h : z.field? name = some y) : y.mentions false ⊆ z.mentions false := by
  cases z with
  | record fields base w refs =>
    intro r hr
    rw [Ty.mentions]
    exact List.mem_append_left _ (Ty.mem_mentionsFields.mpr ⟨_, Assoc.mem_of_get? h, .inr hr⟩)
  | _ => cases h

/-- A field is read back from the record that was written out, unless it is missing there and the end of the record is
unknown. -/
theorem Gives.reads (h : s.Gives e name t) (hz : s.zonk e = .ok z) (hhole : .hole ∉ z.mentions false) :
    ∃ fields base w refs, z = .record fields base w refs ∧
      ((∃ y w, s.zonk t = .ok y ∧ Assoc.get? fields name = some (y.writtenAs? w)) ∨
        Assoc.get? fields name = none ∧ ∃ f, s.flatten e = .ok f ∧ f.tail = .unknown ∧ f.field? name = none) := by
  cases h with
  | hole hresolves haccepts => exact absurd (hole_of_zonkAt haccepts (zonkAt_resolved hresolves hz)) hhole
  | field hflat hfield hechoes =>
    obtain ⟨y, hy, hget⟩ := hflat.field?_zonkAt rfl hfield hz
    obtain ⟨x, w, hx, rfl⟩ := hechoes s _ y (.refl s) hy fun hy => hhole (mentions_field?_subset hget hy)
    cases z with
    | record fields base w' refs => exact ⟨fields, base, w', refs, rfl, .inl ⟨x, w, hx, hget⟩⟩
    | _ => cases hget
  | lost hflat htail hnone =>
    rcases lacks_of_flattensTo hflat htail hnone hz with rfl | ⟨⟨fields, base, w, refs, rfl⟩, hget⟩
    · exact absurd (List.mem_singleton_self _) hhole
    · obtain ⟨f', hf'⟩ := exists_flatten_of_zonk hz
      obtain rfl := (flattensTo_of_flatten hf').unique hflat
      exact ⟨fields, base, w, refs, rfl, .inr ⟨hget, f', hf', htail, hnone⟩⟩

/-- A record of fresh variables: they are different, nobody knows them, and no field is named twice. -/
structure Blank (w : World) (fields : List (Name × Ty)) : Prop where
  names : (fields.map Prod.fst).Nodup
  vars : ∀ field ∈ fields, ∃ v, field.2 = .var v ∧ Aside w v
  apart : fields.Pairwise fun field other => StoreM.Apart field.2 other.2

theorem addFields_of_nodup {fields : List (Name × Ty)} (h : (fields.map Prod.fst).Nodup) :
    Ty.addFields [] fields = fields := by
  suffices hacc : ∀ above more : List (Name × Ty), ((above ++ more).map Prod.fst).Nodup →
      Ty.addFields above more = above ++ more from hacc [] fields h
  intro above more
  induction more generalizing above with
  | nil => exact fun _ => (List.append_nil above).symm
  | cons field rest ih =>
    intro hnodup
    have hnew : above.any (·.1 == field.1) = false := by
      refine List.any_eq_false.mpr fun other hother heq => ?_
      rw [List.map_append, List.nodup_append] at hnodup
      exact hnodup.2.2 _ (List.mem_map_of_mem hother) _ List.mem_cons_self (beq_iff_eq.mp heq)
    rw [List.append_cons] at hnodup ⊢
    rw [Ty.addFields_cons, hnew]
    exact ih _ hnodup

theorem Blank.owned {b : TyVar} {fields : List (Name × Ty)} (h : Blank (s, Q) fields) (hb : s.Unsolved b.id) :
    Flattened.Within ⟨fields, .opened b⟩ s.Has := by
  refine ⟨fun r hr => ?_, fun r hr => ?_⟩
  · obtain ⟨field, hfield, rfl | hr⟩ := Ty.mem_mentionsFields.mp hr
    · trivial
    · obtain ⟨v, hv, haside⟩ := h.vars field hfield
      rw [hv] at hr
      rw [List.mem_singleton.mp hr]
      exact haside.unsolved.1
  · rw [List.mem_singleton.mp hr]
    exact hb.1

end Store

namespace StoreM

open Store

variable {F : Fault → Prop} {s s₁ s' : Store} {Q : Set Mention} {t u a e : Ty} {v b : TyVar} {res : Ending Outcome}
  {fields : List (Name × Ty)} {refs : FieldReferences} {g : Flattened} {name : Name}

/-- A record that is made to have the fields it lacks gives them, unless its end is unknown. -/
theorem gives_of_grown {missing : List (Name × Ty)} (h : Grown s₁ g.tail missing (.var b) (.ok (.ok (), s')))
    (hflat : s.FlattensTo e [] g) (hext : s.Extends s₁) (hsane : s'.Sane) (hnone : g.field? name = none)
    (hmissing : Assoc.get? missing name = some t) : s'.Gives e name t := by
  cases h with
  | unknown htail => exact .lost (hflat.settled htail hext) htail hnone
  | @solved v htail _ hun _ =>
    obtain ⟨f', hflat', -, hend⟩ := hflat.onward (hext.trans (extends_solved _ hun)) hsane
    refine .field hflat' ?_ (.refl _ t)
    cases hend v htail with
    | unsolved hun' => exact absurd hun' (not_unsolved_of_some (solution?_solved_self _ hun.1))
    | solved hsol hrest =>
      cases (solution?_solved_self _ hun.1).symm.trans hsol
      cases (hrest : FlattensTo _ (.record missing (some (.var b)) none .empty) _ _) with
      | base hrest =>
        refine hrest.field?_of_above ?_
        rw [Ty.get?_addFields, show Assoc.get? g.fields name = none from hnone, Option.none_or, hmissing]
      | baseless h => cases h
    | baseless h => cases h

/-- A record of fresh variables, unified with another record. -/
theorem gives_records {e' : Ty}
    (h : Records (fun s a e res => Safe F s a e res ∧ Taken s a e res) s (.record fields (some (.var b)) none refs) e'
      (.ok (.ok (), s')))
    (htidy : Tidy (s, Q)) (he : e.Within Q) (hresolves : s.ResolvesTo e e') (hblank : Blank (s, Q) fields)
    (hb : s.Unsolved b.id) (hsane : s'.Sane) {field : Name × Ty} (hfield : field ∈ fields) : s'.Gives e field.1 field.2 := by
  cases h with
  | @agree f g s₁ _ hfa hfe hrun _ _ hends =>
    obtain rfl : f = ⟨fields, .opened b⟩ := by
      have hflat : s.FlattensTo (.record fields (some (.var b)) none refs) [] ⟨Ty.addFields [] fields, .opened b⟩ :=
        .base (.unsolved hb)
      rw [addFields_of_nodup hblank.names] at hflat
      exact (flattensTo_of_flatten hfa).unique hflat
    have hflat : s.FlattensTo e [] g := .of_resolvesTo hresolves (flattensTo_of_flatten hfe)
    have hg : g.Within (· ∈ Q) := hflat.within htidy.keeps he (by simp [Ty.mentionsFields])
    obtain ⟨o, hpairs, hok⟩ := hrun.pairs_of_ok
    rw [hok rfl] at hpairs
    obtain ⟨hext, hsane₁, hechoes⟩ := echoes_pairs hpairs htidy
      (fun p hp => by
        obtain ⟨name, -, hget⟩ := mem_commonFields hp
        exact within_field hg (Assoc.mem_of_get? hget))
      (fun p hp => by
        obtain ⟨name, hmem, -⟩ := mem_commonFields hp
        exact hblank.vars _ hmem)
      (List.pairwise_map.mpr (hblank.apart.filterMap _ fun field other hapart p hp q hq => by
        obtain ⟨_, -, rfl⟩ := Option.map_eq_some_iff.mp hp
        obtain ⟨_, -, rfl⟩ := Option.map_eq_some_iff.mp hq
        exact hapart))
    have hf : Flattened.Within ⟨fields, .opened b⟩ s₁.Has :=
      ⟨fun r hr => hext.has ((hblank.owned hb).field r hr), fun r hr => hext.has ((hblank.owned hb).tail r hr)⟩
    have hg₁ : g.Within s₁.Has :=
      ⟨fun r hr => hext.has (htidy.owned r (hg.field r hr)), fun r hr => hext.has (htidy.owned r (hg.tail r hr))⟩
    obtain ⟨Q', hmoves⟩ := lands_ends (hends.mono fun _ _ _ _ h => h.1) hsane₁.tidy hf hg₁
    have hown : Assoc.get? fields field.1 = some field.2 := Assoc.get?_of_mem hblank.names hfield
    cases hget : g.field? field.1 with
    | some u =>
      obtain ⟨f', hflat', hkeeps, -⟩ := hflat.onward (hext.trans hmoves.extends) hsane
      have hcommon : (field.2, u) ∈ (commonFields ⟨fields, .opened b⟩ g).map Prod.snd :=
        mem_commonFields_of_field? hown hget
      exact .field hflat' (hkeeps _ _ hget) ((hechoes _ hcommon).later hmoves.extends)
    | none =>
      have hmem : field ∈ fieldsMissingIn ⟨fields, .opened b⟩ g :=
        List.mem_filter.mpr ⟨hfield, by rw [hget]; rfl⟩
      have hmissing : Assoc.get? (fieldsMissingIn ⟨fields, .opened b⟩ g) field.1 = some field.2 :=
        Assoc.get?_of_mem (hblank.names.sublist (List.filter_sublist.map _)) hmem
      have hne := List.ne_nil_of_mem hmem
      cases hends with
      | settled hnil _ _ => exact absurd hnil hne
      | tails hnil _ _ _ _ => exact absurd hnil hne
      | close hnil _ _ _ _ => exact absurd hnil hne
      | growLeft hnil _ _ => exact absurd hnil hne
      | growRight _ _ hrun =>
        have hgrown := grown_grow hsane₁.loopfree hsane₁.closed (tail_lt hsane₁.tidy hg₁.tail)
          (hsane₁.tidy.owns (Ty.within_extension (within_fieldsMissingIn hf g) hf.tail))
        rw [hrun] at hgrown
        exact gives_of_grown hgrown hflat hext hsane hget hmissing
      | growBoth _ _ hrun =>
        have hboth := grown_growBoth hsane₁.tidy hf.tail hg₁.tail (within_fieldsMissingIn hf g)
          (within_fieldsMissingIn hg₁ ⟨fields, .opened b⟩)
        rw [hrun] at hboth
        cases hboth with
        | second _ hfirst hsecond =>
          exact gives_of_grown hsecond hflat (hext.trans ((extends_extended s₁).trans hfirst.extends)) hsane hget hmissing

/-- A record of fresh variables that nobody knows is given its fields by what it is unified with. -/
def Opened : Behaviour := fun s a e res =>
  ∀ Q fields b refs s', Tidy (s, Q) → e.Within Q → a = .record fields (some (.var b)) none refs → Blank (s, Q) fields →
    s.Unsolved b.id → res = .ok (.ok (), s') → ∀ field ∈ fields, s'.Gives e field.1 field.2

theorem opened_unified (h : Unified (fun s a e res => Safe F s a e res ∧ Taken s a e res) s a e res) :
    Opened s a e res := by
  rintro Q fields b refs s' htidy he rfl hblank hb rfl field hfield
  have hown : (Ty.record fields (some (.var b)) none refs).Within {r | s.Has r} := by
    intro r hr
    rw [Ty.mentions, Ty.mentionsAlias_false, List.append_nil] at hr
    rcases List.mem_append.mp hr with hr | hr
    · exact (hblank.owned hb).field r hr
    · exact (hblank.owned hb).tail r hr
  obtain ⟨Q', hmoves⟩ := safe_unified (h.mono fun _ _ _ _ h => h.1) _ htidy.sane.tidy hown
    fun r hr => htidy.owned r (he r hr)
  have hsane := (hmoves.tidy htidy.sane.tidy).sane
  cases h with
  | @resolved a' e' _ hra hre hres =>
    obtain rfl := (resolvesTo_of_resolve hra).unique (.other fun v heq => by cases heq)
    have hresolves := resolvesTo_of_resolve hre
    cases hres with
    | accepted haccepts => exact .hole hresolves (haccepts.resolve_left (by simp [acceptsAll]))
    | @varRight v _ _ _ _ hrun =>
      obtain ⟨o, s₁, hrun', hbound⟩ := bound_unifyVar htidy.sane.tidy hresolves.unsolved_of_var hown
      cases hrun'.symm.trans hrun
      have hflat : s.FlattensTo e [] ⟨[], .opened v⟩ := .of_resolvesTo hresolves (.unsolved hresolves.unsolved_of_var)
      obtain ⟨f', hflat', -, hend⟩ := hflat.onward hmoves.extends hsane
      refine .field hflat' ?_ (.refl _ _)
      cases hbound with
      | solved _ _ _ _ hnot => cases hnot
      | @copied s₁ _ _ _ _ heq _ _ hun _ =>
        cases heq
        have hsol : ((s₁.recorded { fields, base := .var b, refs }).solved v.id (.growing s₁.records.size)).solution? v.id =
            some (.growing s₁.records.size) := solution?_solved_self _ (by simpa using hun.1)
        cases hend v rfl with
        | unsolved hun' => exact absurd hun' (not_unsolved_of_some hsol)
        | solved hsol' hrest =>
          cases hsol.symm.trans hsol'
          cases hrest with
          | growing hrec hrest =>
            cases (record?_recorded_self s₁ _).symm.trans hrec
            refine hrest.field?_of_above ?_
            rw [addFields_of_nodup hblank.names]
            exact Assoc.get?_of_mem hblank.names hfield
          | baseless h => cases h
        | baseless h => cases h
    | record _ _ hrecords => exact gives_records hrecords htidy he hresolves hblank hb hsane hfield

/-- After a record of fresh variables was unified with a type, the type gives each of its fields. -/
theorem gives_of_unify (htidy : Tidy (s, Q)) (he : e.Within Q) (hblank : Blank (s, Q) fields) (hb : s.Unsolved b.id)
    (hrun : unify (.record fields (some (.var b)) none refs) e s = .ok (.ok (), s')) {field : Name × Ty}
    (hfield : field ∈ fields) : s'.Gives e field.1 field.2 := by
  have hopened : ∀ s a e, (Safe (· = .diverged) s a e (unify a e s) ∧ Taken s a e (unify a e s)) ∧
      Opened s a e (unify a e s) := by
    refine unify_induct (P := fun s a e res => (Safe (· = .diverged) s a e res ∧ Taken s a e res) ∧ Opened s a e res)
      (fun s a e => ⟨⟨fun _ _ _ _ => .inl rfl, ?_⟩, ?_⟩) fun s a e res h => ?_
    · exact fun _ _ _ _ _ _ _ h => by cases h
    · exact fun _ _ _ _ _ _ _ _ _ _ h => by cases h
    · have hboth := h.mono fun _ _ _ _ h => h.1
      exact ⟨⟨safe_unified (hboth.mono fun _ _ _ _ h => h.1), taken_unified (hboth.mono fun _ _ _ _ h => h.1)⟩,
        opened_unified hboth⟩
  exact (hopened s _ e).2 Q fields b refs s' htidy he rfl hblank hb hrun field hfield

end StoreM

end ElmInference
