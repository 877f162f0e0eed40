import ElmInference.Proofs.Store.Mints
import ElmInference.Proofs.Store.Tracking
import ElmInference.Proofs.Unify.Acyclicity

/-!
# What inference does to a store

Besides by moves, inference changes a store by giving a growing record one more field, where the record ends in
a flexible variable, and by noting where a field of a growing record was used. `Advance` lists all these changes,
and they keep a world orderly: tidy, with one name for each variable.

A type is settled when all variables without a solution that are read in it are rigid. A settled type is read in
the same way ever after. Whatever an advance adds to the mentions at hand is new to the store, so a mention that
the types at hand do not lead to will not be led to later either.
-/

namespace ElmInference

namespace Store

open Relation

variable {s s' : Store} {Q Q' : Set Mention} {w w' : World}

theorem Tidy.within_child (h : Tidy (s, Q)) {t u : Ty} (hchild : s.Child t u) (ht : t.Within Q) :
    u.Within Q := by
  rcases child_cases hchild with hsubset | ⟨v, rfl, hsol⟩ | ⟨id, g, rfl, hrec, hsubset⟩
  · exact fun r hr => ht r (hsubset hr)
  · exact h.keeps.solution v u (Ty.within_var.mp ht) hsol
  · exact fun r hr => h.keeps.record id g (Ty.within_growing.mp ht) hrec r (hsubset hr)

theorem Tidy.within_of_reads (h : Tidy (s, Q)) {t u : Ty} (hreads : ReflTransGen s.Child t u)
    (ht : t.Within Q) : u.Within Q := by
  induction hreads with
  | refl => exact ht
  | tail _ hchild ih => exact h.within_child hchild ih

/-! ### Advances -/

inductive Advance : World → World → Prop
  | move {w w' : World} : Move w w' → Advance w w'
  | gain {s : Store} {Q : Set Mention} {id : RecordId} {g : GrowingRecord} {v : TyVar} {name : Name} {t : Ty}
      {refs : FieldReferences} : s.records[id]? = some g → .record id ∈ Q → s.ResolvesTo g.base (.var v) →
      v.rigid = false → .field name ∈ Q → t.Within Q → ¬ s.Leads false t (.record id) →
      Advance (s, Q) (s.setRecord id { g with fields := Ty.addFields g.fields [(name, t)], refs := refs }, Q)
  | note {s : Store} {Q : Set Mention} {id : RecordId} {g : GrowingRecord} {refs : FieldReferences} :
      s.records[id]? = some g → Advance (s, Q) (s.setRecord id { g with refs := refs }, Q)

abbrev Advances : World → World → Prop :=
  ReflTransGen Advance

/-- A tidy world that knows each variable by one name, and has all mentions that are no node. -/
structure Orderly (w : World) : Prop where
  tidy : Tidy w
  named : ∀ v u, .var v ∈ w.2 → .var u ∈ w.2 → v.id = u.id → v = u
  plain : ∀ r, r.node? = none → r ∈ w.2

theorem Moves.advances (h : Moves w w') : Advances w w' :=
  ReflTransGen.mono (fun _ _ => .move) _ _ h

theorem Mints.advances (h : Mints w w') : Advances w w' :=
  h.moves.advances

theorem Advance.subset (h : Advance w w') : w.2 ⊆ w'.2 := by
  cases h with
  | move hmove => exact hmove.subset
  | gain _ _ _ _ _ _ _ => exact subset_rfl
  | note _ => exact subset_rfl

theorem Advances.subset (h : Advances w w') : w.2 ⊆ w'.2 := by
  induction h with
  | refl => exact subset_rfl
  | tail _ hadvance ih => exact ih.trans hadvance.subset

theorem has_setRecord {id : RecordId} {g : GrowingRecord} {r : Mention} :
    (s.setRecord id g).Has r ↔ s.Has r := by
  cases r <;> simp [Has, setRecord, size]

theorem Advance.has (h : Advance w w') {r : Mention} (hr : w.1.Has r) : w'.1.Has r := by
  cases h with
  | move hmove => exact hmove.extends.has hr
  | gain _ _ _ _ _ _ _ => exact has_setRecord.mpr hr
  | note _ => exact has_setRecord.mpr hr

theorem Advances.has (h : Advances w w') {r : Mention} (hr : w.1.Has r) : w'.1.Has r := by
  induction h with
  | refl => exact hr
  | tail _ hadvance ih => exact hadvance.has ih

theorem Advances.size (h : Advances w w') : w.1.size ≤ w'.1.size :=
  Nat.le_of_not_lt fun hlt => Nat.lt_irrefl _ (h.has (r := .var ⟨w'.1.size, "", false⟩) hlt)

/-- What comes to hand is new to the store. -/
theorem Advance.new (h : Advance w w') {r : Mention} (hr : r ∈ w'.2) : r ∈ w.2 ∨ ¬ w.1.Has r := by
  cases h with
  | move hmove =>
    cases hmove with
    | fresh name rigid =>
      rcases hr with rfl | hr
      · exact .inr (Nat.lt_irrefl _)
      · exact .inl hr
    | solve _ _ _ _ _ => exact .inl hr
    | copy _ =>
      rcases hr with rfl | hr
      · exact .inr (Nat.lt_irrefl _)
      · exact .inl hr
  | gain _ _ _ _ _ _ _ => exact .inl hr
  | note _ => exact .inl hr

theorem Advances.new (h : Advances w w') {r : Mention} (hr : r ∈ w'.2) : r ∈ w.2 ∨ ¬ w.1.Has r := by
  induction h with
  | refl => exact .inl hr
  | tail hbefore hadvance ih =>
    rcases hadvance.new hr with hr | hnew
    · exact ih hr
    · exact .inr (fun hhas => hnew (Advances.has hbefore hhas))

theorem Advance.solution (h : Advance w w') {id : VarId} {t : Ty} (hsol : w.1.solution? id = some t) :
    w'.1.solution? id = some t := by
  cases h with
  | move hmove => exact hmove.extends.solution id t hsol
  | gain _ _ _ _ _ _ _ => exact hsol
  | note _ => exact hsol

/-- What has no solution after an advance had none before. -/
theorem Advance.unsolved (h : Advance w w') {id : VarId} (hlt : id < w.1.size) (hun : w'.1.Unsolved id) :
    w.1.Unsolved id := by
  rcases unsolved_or_some hlt with hbefore | ⟨t, hsol⟩
  · exact hbefore
  · exact absurd hun (not_unsolved_of_some (h.solution hsol))

/-! ### Orderly worlds -/

/-- A record may be replaced by one that mentions more of what is at hand, when no loop is closed. -/
theorem Tidy.setRecord (h : Tidy (s, Q)) {id : RecordId} {g : GrowingRecord}
    (hsane : (s.setRecord id g).Sane) (hlinks : .record id ∈ Q → ∀ r ∈ g.links false, r ∈ Q) :
    Tidy (s.setRecord id g, Q) := by
  refine ⟨hsane.closed, hsane.loopfree, ⟨h.keeps.solution, fun other g' hid hrec => ?_⟩,
    fun r hr => has_setRecord.mpr (h.owned r hr)⟩
  rw [record?_setRecord] at hrec
  split at hrec
  · next heq =>
    subst heq
    split at hrec
    · cases hrec
      exact hlinks hid
    · cases hrec
  · exact h.keeps.record other g' hid hrec

theorem Sane.setRefs (h : s.Sane) {id : RecordId} {g : GrowingRecord} {refs : FieldReferences}
    (hrec : s.records[id]? = some g) : (s.setRecord id { g with refs := refs }).Sane := by
  constructor
  · refine ⟨fun v t hv hsol r hr => has_setRecord.mpr (h.closed.solution v t hv hsol r hr), ?_⟩
    intro other g' hid hrec' r hr
    refine has_setRecord.mpr ?_
    rw [record?_setRecord] at hrec'
    split at hrec'
    · rw [if_pos (lt_size_of_record? hrec)] at hrec'
      cases hrec'
      exact h.closed.has_link hrec r hr
    · exact h.closed.has_link hrec' r hr
  · have hadds : s.Adds false (.record id) .unit (s.setRecord id { g with refs := refs }) :=
      adds_setRecord hrec (fun r hr _ => .inl hr)
    refine h.loopfree.adds hadds ?_
    rintro ⟨n, ⟨r, hr, -⟩, -⟩
    cases hr

theorem Advance.tidy (h : Advance w w') (hw : Tidy w) : Tidy w' := by
  cases h with
  | move hmove => exact hmove.tidy hw
  | gain hrec hid _ _ hname ht hnot =>
    refine hw.setRecord (hw.sane.setRecord hrec (hw.owns ht) hnot) (fun _ r hr => ?_)
    rcases links_addFields hr with hold | rfl | hnew
    · exact hw.keeps.record _ _ hid hrec r hold
    · exact hname
    · exact ht r hnew
  | note hrec =>
    exact hw.setRecord (hw.sane.setRefs hrec) (fun hid r hr => hw.keeps.record _ _ hid hrec r hr)

theorem Advances.tidy (h : Advances w w') (hw : Tidy w) : Tidy w' := by
  induction h with
  | refl => exact hw
  | tail _ hadvance ih => exact hadvance.tidy ih

theorem Advance.orderly (h : Advance w w') (hw : Orderly w) : Orderly w' := by
  refine ⟨h.tidy hw.tidy, ?_, fun r hr => h.subset (hw.plain r hr)⟩
  cases h with
  | move hmove =>
    cases hmove with
    | fresh name rigid => exact eq_of_mem_insert_var hw.tidy.id_ne_size hw.named
    | solve _ _ _ _ _ => exact hw.named
    | copy _ =>
      exact fun v u hv hu => hw.named v u (mem_of_var_mem_insert_record hv) (mem_of_var_mem_insert_record hu)
  | gain _ _ _ _ _ _ _ => exact hw.named
  | note _ => exact hw.named

theorem Advances.orderly (h : Advances w w') (hw : Orderly w) : Orderly w' := by
  induction h with
  | refl => exact hw
  | tail _ hadvance ih => exact hadvance.orderly ih

theorem orderly_empty : Orderly ({}, {r | r.node? = none}) where
  tidy := by
    refine ⟨sane_empty.closed, sane_empty.loopfree, ⟨?_, ?_⟩, ?_⟩
    · intro v t hv
      cases hv
    · intro id g hid
      cases hid
    · rintro (v | id | name | _) hr
      · cases hr
      · cases hr
      · trivial
      · trivial
  named v u hv := by cases hv
  plain r hr := hr

/-! ### Settled types -/

/-- A type in which no flexible variable at hand is left without a solution. -/
def Settled (w : World) (t : Ty) : Prop :=
  ∀ v u, ReflTransGen w.1.Child t (.var v) → w.1.Unsolved v.id → .var u ∈ w.2 → u.id = v.id → u.rigid = true

/-- A rigid variable without solution is settled. -/
theorem Orderly.settled_var (h : Orderly w) {v : TyVar} (hv : .var v ∈ w.2) (hrigid : v.rigid = true)
    (hun : w.1.Unsolved v.id) : Settled w (.var v) := by
  intro x u hreads _ hu hid
  obtain rfl : v = x := by
    rcases hreads.cases_head with heq | ⟨y, hchild, -⟩
    · exact Ty.var.inj heq
    · cases hchild with
      | solution hsol => exact absurd hun (not_unsolved_of_some hsol)
  rw [h.named u v hu hv hid]
  exact hrigid

/-- Whether two stores say the same of a type, if it is a variable or a growing record. -/
structure Agrees (s s' : Store) (t : Ty) : Prop where
  solution : ∀ v, t = .var v → s'.solution? v.id = s.solution? v.id
  record : ∀ id, t = .growing id → (s'.records[id]?).map (fun g => (g.fields, g.base)) =
    (s.records[id]?).map (fun g => (g.fields, g.base))

theorem Agrees.symm {t : Ty} (h : s.Agrees s' t) : s'.Agrees s t :=
  ⟨fun v ht => (h.solution v ht).symm, fun id ht => (h.record id ht).symm⟩

theorem Agrees.child {t u : Ty} (h : s.Agrees s' t) (hchild : s.Child t u) : s'.Child t u := by
  have hrecord : ∀ id g, t = .growing id → s.records[id]? = some g →
      ∃ g', s'.records[id]? = some g' ∧ g'.fields = g.fields ∧ g'.base = g.base := by
    intro id g ht hrec
    have hsame := h.record id ht
    rw [hrec] at hsame
    obtain ⟨g', hrec', heq⟩ := Option.map_eq_some_iff.mp hsame
    exact ⟨g', hrec', (Prod.mk.inj heq).1, (Prod.mk.inj heq).2⟩
  cases hchild with
  | @solution v u hsol => exact .solution ((h.solution v rfl).trans hsol)
  | growingField hrec hfield =>
    obtain ⟨g', hrec', hfields, -⟩ := hrecord _ _ rfl hrec
    exact .growingField hrec' (hfields ▸ hfield)
  | growingBase hrec =>
    obtain ⟨g', hrec', -, hbase⟩ := hrecord _ _ rfl hrec
    exact hbase ▸ .growingBase hrec'
  | arg hmem => exact .arg hmem
  | item hmem => exact .item hmem
  | field hmem => exact .field hmem
  | base => exact .base
  | param hmem => exact .param hmem
  | ret => exact .ret

/-- A type is read in the same way in two stores that agree all along a reading of it. -/
theorem reads_iff_of_agrees {t : Ty} (h : ∀ u, ReflTransGen s.Child t u → s.Agrees s' u) {u : Ty} :
    ReflTransGen s'.Child t u ↔ ReflTransGen s.Child t u := by
  constructor
  · intro hreads
    induction hreads with
    | refl => exact .refl
    | tail _ hchild ih => exact ih.tail ((h _ ih).symm.child hchild)
  · intro hreads
    induction hreads with
    | refl => exact .refl
    | tail hbefore hchild ih => exact ih.tail ((h _ hbefore).child hchild)

theorem Settled.of_reads {t u : Ty} (h : Settled (s, Q) t) (hreads : ReflTransGen s.Child t u) :
    Settled (s, Q) u :=
  fun v x hv hun hx hid => h v x (hreads.trans hv) hun hx hid

/-- An advance changes nothing about a settled type. -/
theorem Settled.agrees {t : Ty} (h : Settled (s, Q) t) (hw : Tidy (s, Q)) (hadvance : Advance (s, Q) (s', Q'))
    (ht : s.Owns t) : s.Agrees s' t := by
  cases hadvance with
  | move hmove =>
    cases hmove with
    | fresh name rigid => exact ⟨fun v _ => solution?_extended s v.id, fun _ _ => rfl⟩
    | @solve _ _ x _ hun hflex hx _ _ =>
      refine ⟨?_, fun _ _ => rfl⟩
      rintro v rfl
      refine solution?_solved_of_ne s _ (fun hid => ?_)
      rw [h v x .refl (hid ▸ hun) hx hid.symm] at hflex
      cases hflex
    | @copy _ _ g _ =>
      refine ⟨fun _ _ => rfl, ?_⟩
      rintro id rfl
      rw [record?_recorded_of_lt g ht.growing_lt]
  | @gain _ _ id g v _ _ _ hrec hid hbase hflex _ _ _ =>
    refine ⟨fun _ _ => rfl, ?_⟩
    rintro other rfl
    rw [record?_setRecord, if_neg]
    rintro rfl
    have hreads : ReflTransGen s.Child (.growing id) (.var v) := .head (.growingBase hrec) hbase.reads
    have hv := Ty.within_var.mp (hw.within_of_reads hreads (Ty.within_growing.mpr hid))
    rw [h v v hreads hbase.unsolved_of_var hv rfl] at hflex
    cases hflex
  | @note _ _ id g _ hrec =>
    refine ⟨fun _ _ => rfl, fun other _ => ?_⟩
    rw [record?_setRecord]
    split
    · next heq =>
      subst heq
      rw [if_pos (lt_size_of_record? hrec), hrec]
      rfl
    · rfl

theorem Settled.advance {t : Ty} (h : Settled (s, Q) t) (hw : Tidy (s, Q)) (hadvance : Advance (s, Q) (s', Q'))
    (ht : s.Owns t) : Settled (s', Q') t ∧ ∀ u, ReflTransGen s'.Child t u ↔ ReflTransGen s.Child t u := by
  have howns : ∀ u, ReflTransGen s.Child t u → s.Owns u := fun u hu => hw.sane.tidy.within_of_reads hu ht
  have hreads : ∀ u, ReflTransGen s'.Child t u ↔ ReflTransGen s.Child t u := fun u =>
    reads_iff_of_agrees fun x hx => (h.of_reads hx).agrees hw hadvance (howns x hx)
  refine ⟨fun v u hv hun hu hid => ?_, hreads⟩
  have hv := (hreads _).mp hv
  have hlt : v.id < s.size := (howns _ hv).var_lt
  rcases hadvance.new hu with hu | hnew
  · exact h v u hv (hadvance.unsolved hlt hun) hu hid
  · rw [← hid] at hlt
    exact absurd hlt hnew

/-- A settled type is read in the same way ever after. -/
theorem Settled.reads_iff {t : Ty} (h : Settled w t) (hw : Tidy w) (hadvances : Advances w w')
    (ht : w.1.Owns t) {u : Ty} : ReflTransGen w'.1.Child t u ↔ ReflTransGen w.1.Child t u := by
  have hlater : Settled w' t ∧ ∀ u, ReflTransGen w'.1.Child t u ↔ ReflTransGen w.1.Child t u := by
    induction hadvances with
    | refl => exact ⟨h, fun _ => Iff.rfl⟩
    | tail hbefore hadvance ih =>
      have hsettled := ih.1.advance (Advances.tidy hbefore hw) hadvance
        (fun r hr => Advances.has hbefore (ht r hr))
      exact ⟨hsettled.1, fun u => (hsettled.2 u).trans (ih.2 u)⟩
  exact hlater.2 u

/-! ### Zonked types -/

/-- What can be left of a type when it is zonked: variables without solution that are read in it. -/
def shownIn (s : Store) (t : Ty) : Set Mention :=
  {r | r.node? = none ∨ ∃ v, r = .var v ∧ s.Unsolved v.id ∧ ReflTransGen s.Child t (.var v)}

theorem shownIn_of_child {t u : Ty} (h : s.Child t u) : s.shownIn u ⊆ s.shownIn t := by
  rintro r (hr | ⟨v, rfl, hun, hreads⟩)
  · exact .inl hr
  · exact .inr ⟨v, rfl, hun, .head h hreads⟩

/-- Whether a result of zonking shows nothing but what can be left of a type. -/
def Exposes (s : Store) (t y _z : Ty) : Prop :=
  y.Within (s.shownIn t)

theorem within_fields_shownIn {fields ys zs : List (Name × Ty)} {t : Ty}
    (h : Alongside (FieldRel s.Exposes) fields ys zs) (hchild : ∀ field ∈ fields, s.Child t field.2) :
    ∀ field ∈ ys, .field field.1 ∈ s.shownIn t ∧ field.2.Within (s.shownIn t) := by
  intro field hfield
  obtain ⟨x, hx, z, -, -, hexposes⟩ := h.exists_left hfield
  exact ⟨.inl rfl, Ty.Within.mono hexposes (shownIn_of_child (hchild x hx))⟩

theorem within_list_shownIn {ts ys zs : List Ty} {t : Ty} (h : Alongside s.Exposes ts ys zs)
    (hchild : ∀ u ∈ ts, s.Child t u) : ∀ y ∈ ys, y.Within (s.shownIn t) := by
  intro y hy
  obtain ⟨x, hx, z, hexposes⟩ := h.exists_left hy
  exact Ty.Within.mono hexposes (shownIn_of_child (hchild x hx))

theorem within_hole_shownIn {t : Ty} (h : t.mentions false = [.hole]) : t.Within (s.shownIn t) := by
  intro r hr
  rw [h, List.mem_singleton] at hr
  exact .inl (by rw [hr]; rfl)

theorem respectful_exposes (s : Store) : Respectful s.Exposes where
  unit := fun r hr => by cases hr
  unknown := within_hole_shownIn rfl
  inProgress := within_hole_shownIn rfl
  union hargs _ := Ty.within_union.mpr (within_list_shownIn hargs (fun _ hu => .arg hu))
  tuple hitems := Ty.within_tuple.mpr (within_list_shownIn hitems (fun _ hu => .item hu))
  record hfields hbase _ := by
    refine Ty.within_writtenAs?.mpr
      (Ty.within_recordWith (within_fields_shownIn hfields (fun _ hf => .field hf)) (fun b hb => ?_))
    cases hbase with
    | none => cases hb
    | some hexposes =>
      cases hb
      exact Ty.Within.mono hexposes (shownIn_of_child .base)
  arrow hparams hret _ := Ty.within_writtenAs?.mpr (Ty.within_function
    (within_list_shownIn hparams (fun _ hu => .param hu)) (Ty.Within.mono hret (shownIn_of_child .ret)))

theorem exposes_writtenOut {ys zs : List (Name × Ty)} {b c : Ty} {id : RecordId} {g : GrowingRecord}
    (hrec : s.records[id]? = some g) (hfields : Alongside (FieldRel s.Exposes) g.fields ys zs)
    (hbase : s.Exposes g.base b c) (refs : FieldReferences) :
    (writtenOut ys b refs).Within (s.shownIn (.growing id)) := by
  have hys := within_fields_shownIn hfields (fun _ hf => Child.growingField hrec hf)
  unfold writtenOut
  split
  · exact Ty.within_recordWith hys (fun b hb => by cases hb)
  · refine Ty.within_recordWith hys (fun b hb => ?_)
    cases hb
    exact Ty.Within.mono hbase (shownIn_of_child (.growingBase hrec))

/-- Nothing is left of a type that was zonked but variables without solution that are read in it. -/
theorem within_zonk {t z : Ty} (h : s.zonk t = .ok z) : z.Within (s.shownIn t) := by
  refine zonkAt_induct (P := fun t y => s.Exposes t y y) (respectful_exposes s) (fun v hun => ?_)
    (fun v u y hsol hexposes => ?_) (fun id g ys zs b hrec hys hb => ?_) h
  · exact Ty.within_var.mpr (.inr ⟨v, rfl, hun, .refl⟩)
  · exact Ty.Within.mono hexposes (shownIn_of_child (.solution hsol))
  · exact exposes_writtenOut (c := b) hrec hys hb g.refs

/-- A type that was zonked has no growing records. -/
theorem frozen_zonk {t z : Ty} (h : s.zonk t = .ok z) : z.Frozen := by
  intro id hid
  rcases within_zonk h _ hid with hr | ⟨v, hr, -⟩
  · cases hr
  · cases hr

theorem Orderly.within_zonk (hw : Orderly (s, Q)) {t z : Ty} (ht : t.Within Q) (h : s.zonk t = .ok z) :
    z.Within Q := by
  intro r hr
  rcases Store.within_zonk h r hr with hr | ⟨v, rfl, -, hreads⟩
  · exact hw.plain r hr
  · exact Ty.within_var.mp (hw.tidy.within_of_reads hreads ht)

/-! ### Mentions that do not lead to a variable -/

/-- The mentions from which no reading comes to a variable. -/
def clearOf (s : Store) (id : VarId) : Set Mention :=
  {r | ∀ n, r.node? = some n → ¬ ReflTransGen (s.Edge false) n (.var id)}

theorem within_clearOf_iff {t : Ty} {id : VarId} : t.Within (s.clearOf id) ↔ ¬ s.Leads false t (.var id) := by
  constructor
  · rintro h ⟨n, ⟨r, hr, hnode⟩, hpath⟩
    exact h r hr n hnode hpath
  · exact fun h r hr n hnode hpath => h ⟨n, ⟨r, hr, hnode⟩, hpath⟩

/-- A variable without solution leads to itself only. -/
theorem mem_clearOf_of_unsolved {v : TyVar} {id : VarId} (hun : s.Unsolved v.id) (hne : v.id ≠ id) :
    .var v ∈ s.clearOf id := by
  intro n hnode hpath
  cases hnode
  rcases hpath.cases_head with heq | ⟨m, hedge, -⟩
  · exact hne (Node.var.inj heq)
  · obtain ⟨t, hsol, -⟩ := holds_of_edge hedge
    exact not_unsolved_of_some hsol hun

/-- Whether a variable is not left in a type when the type is zonked. -/
def Hides (s : Store) (id : VarId) (t : Ty) : Prop :=
  ∀ z, s.zonk t = .ok z → ∀ u ∈ z.vars, u.id ≠ id

/-- A type shows only variables that it leads to. -/
theorem hides_of_within {t : Ty} {id : VarId} (ht : t.Within (s.clearOf id)) : s.Hides id t := by
  rintro z hz v hv rfl
  rcases within_zonk hz _ (Ty.mentions_of_mem_vars hv) with hr | ⟨u, hu, -, hreads⟩
  · cases hr
  · cases hu
    exact within_clearOf_iff.mp ht (leads_of_reads hreads (leads_of_holds (holds_var_iff.mpr rfl)))

/-- A settled type never comes to show a variable that was not there yet. -/
theorem Settled.hides {t : Ty} {id : VarId} (h : Settled w t) (hw : Tidy w) (ht : w.1.Owns t)
    (hid : w.1.size ≤ id) (hadvances : Advances w w') : w'.1.Hides id t := by
  intro z hz u hu
  rcases within_zonk hz _ (Ty.mentions_of_mem_vars hu) with hr | ⟨x, hx, -, hreads⟩
  · cases hr
  · cases hx
    have hreads := (h.reads_iff hw hadvances ht).mp hreads
    have howns : w.1.Owns (.var u) := hw.sane.tidy.within_of_reads hreads ht
    exact Nat.ne_of_lt (Nat.lt_of_lt_of_le howns.var_lt hid)

/-- An orderly world stays so without the mentions that lead to a variable, now or in a store with more edges. -/
theorem Orderly.clearIn (h : Orderly (s, Q)) (hedge : ∀ n m, s.Edge false n m → s'.Edge false n m) (id : VarId) :
    Orderly (s, Q ∩ s'.clearOf id) where
  tidy := by
    refine ⟨h.tidy.closed, h.tidy.loopfree, ⟨fun v t hv hsol r hr => ?_, fun record g hrecord hrec r hr => ?_⟩,
      fun r hr => h.tidy.owned r hr.1⟩
    · refine ⟨h.tidy.keeps.solution v t hv.1 hsol r hr, fun n hnode hpath => hv.2 _ rfl ?_⟩
      exact .head (hedge _ _ (edge_of_solution hsol ⟨r, hr, hnode⟩)) hpath
    · refine ⟨h.tidy.keeps.record record g hrecord.1 hrec r hr, fun n hnode hpath => hrecord.2 _ rfl ?_⟩
      exact .head (hedge _ _ (edge_of_record hrec hr hnode)) hpath
  named v u hv hu := h.named v u hv.1 hu.1
  plain r hr := ⟨h.plain r hr, fun n hnode => by rw [hr] at hnode; cases hnode⟩

theorem Orderly.clear (h : Orderly (s, Q)) (id : VarId) : Orderly (s, Q ∩ s.clearOf id) :=
  h.clearIn (fun _ _ hedge => hedge) id

/-- The mentions at hand in a tidy world lead to each other only. -/
theorem Tidy.exists_mention (h : Tidy (s, Q)) {n m : Node} (hpath : ReflTransGen (s.Edge false) n m) {r : Mention}
    (hr : r ∈ Q) (hnode : r.node? = some n) : ∃ r' ∈ Q, r'.node? = some m := by
  induction hpath with
  | refl => exact ⟨r, hr, hnode⟩
  | tail _ hedge ih =>
    obtain ⟨r₁, hr₁, hnode₁⟩ := ih
    obtain ⟨r₂, hr₂, hnode₂⟩ := hedge
    refine ⟨r₂, ?_, hnode₂⟩
    cases r₁ with
    | var v =>
      cases hnode₁
      cases hsol : s.solution? v.id with
      | none => simp [links, hsol] at hr₂
      | some t => exact h.keeps.solution v t hr₁ hsol r₂ (by simpa [links, hsol] using hr₂)
    | record id =>
      cases hnode₁
      cases hrec : s.records[id]? with
      | none => simp [links, hrec] at hr₂
      | some g => exact h.keeps.record id g hr₁ hrec r₂ (by simpa [links, hrec] using hr₂)
    | field name => cases hnode₁
    | hole => cases hnode₁

/-- What is at hand will not lead to a variable that nothing at hand led to. -/
theorem Advances.subset_clearOf {id : VarId} (hw : Orderly (s, Q ∩ s.clearOf id)) (hid : id < s.size)
    (h : Advances (s, Q ∩ s.clearOf id) (s', Q')) : Q' ⊆ s'.clearOf id := by
  intro r hr n hnode hpath
  obtain ⟨r', hr', hnode'⟩ := (h.orderly hw).tidy.exists_mention hpath hr hnode
  cases r' with
  | var v =>
    cases hnode'
    rcases h.new hr' with hold | hnew
    · exact hold.2 _ rfl .refl
    · exact hnew hid
  | record id => cases hnode'
  | field name => cases hnode'
  | hole => cases hnode'

end Store

end ElmInference
