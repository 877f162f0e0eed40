import ElmInference.Scheme
import ElmInference.Proofs.Unify.Fixpoint

/-!
# Operations on acyclic stores end and keep them acyclic

The operations of a store are unification, constraining a type, adding a field to a growing record, and
allocating variables and records. On a closed acyclic store and on types of that store each of them comes
to an end, and what it leaves is closed and acyclic, unless it faults. So this holds of every store that is
reached by such operations, and reading types through it ends as well.
-/

namespace ElmInference

namespace Store

open StoreM

variable {s s' : Store}

theorem Acyclic.sane (h : s.Acyclic) (hclosed : s.Closed) : s.Sane :=
  ⟨hclosed, h.loopfree⟩

theorem Sane.acyclic (h : s.Sane) : s.Acyclic :=
  h.loopfree.acyclic

/-! ### Adding a field -/

theorem links_addFields {g : GrowingRecord} {field : Name} {t : Ty} {refs : FieldReferences}
    {r : Mention} (hr : r ∈ GrowingRecord.links false
      { g with fields := Ty.addFields g.fields [(field, t)], refs := refs }) :
    r ∈ g.links false ∨ r = .field field ∨ r ∈ t.mentions false := by
  simp only [GrowingRecord.links, List.mem_append, Ty.mem_mentionsFields] at hr ⊢
  rcases hr with ⟨entry, hentry, hr⟩ | hr
  · rcases Ty.mem_addFields hentry with hold | hnew
    · exact .inl (.inl ⟨entry, hold, hr⟩)
    · rw [List.mem_singleton.mp hnew] at hr
      exact .inr hr
  · exact .inl (.inr hr)

theorem Sane.setRecord (h : s.Sane) {id : RecordId} {g : GrowingRecord} {field : Name} {t : Ty}
    {refs : FieldReferences} (hrec : s.records[id]? = some g) (ht : s.Owns t)
    (hnot : ¬ s.Leads false t (.record id)) :
    (s.setRecord id { g with fields := Ty.addFields g.fields [(field, t)], refs := refs }).Sane := by
  constructor
  · have hhas : ∀ r, (s.setRecord id { g with
        fields := Ty.addFields g.fields [(field, t)], refs := refs }).Has r ↔ s.Has r := by
      intro r
      cases r <;> simp [Has, Store.setRecord, size]
    constructor
    · intro v u hv hsol r hr
      exact (hhas r).mpr (h.closed.solution v u hv hsol r hr)
    · intro other g' _ hrec' r hr
      rw [record?_setRecord] at hrec'
      refine (hhas r).mpr ?_
      split at hrec'
      · split at hrec'
        · cases hrec'
          rcases links_addFields hr with hold | rfl | hnew
          · exact h.closed.has_link hrec r hold
          · trivial
          · exact ht r hnew
        · cases hrec'
      · exact h.closed.has_link hrec' r hr
  · refine h.loopfree.adds (adds_setRecord hrec (fun r hr hnode => ?_)) hnot
    rcases links_addFields hr with hold | rfl | hnew
    · exact .inl hold
    · exact absurd rfl hnode
    · exact .inr hnew

/-- Adding a field to a record of the store always comes to an answer. -/
theorem Sane.insertField (h : s.Sane) {id : RecordId} (hid : id < s.records.size) (field : Name)
    {t : Ty} (ht : s.Owns t) (pos? : Option Nat) :
    ∃ o s', StoreM.insertField id field t pos? s = .ok (o, s') ∧ s'.Sane ∧ s.size = s'.size ∧
      s.records.size = s'.records.size := by
  obtain ⟨g, hrec⟩ := exists_record hid
  obtain ⟨b, hmentions⟩ : ∃ b, s.mentionsRecord id t = .ok b :=
    exists_anyNode h.loopfree h.closed _ ht
  have hleads := mentionsRecord_iff hmentions
  unfold StoreM.insertField
  rw [run_bind_ok (run_read_ok hmentions)]
  cases b with
  | true => exact ⟨_, s, rfl, h, rfl, rfl⟩
  | false =>
    have hnot : ¬ s.Leads false t (.record id) := fun hleads' => by simpa using hleads.mpr hleads'
    rw [if_neg (by simp), run_bind_ok (run_read_ok (record_of_some hrec))]
    refine ⟨_, _, rfl, h.setRecord hrec ht hnot, rfl, ?_⟩
    simp [Store.setRecord]

/-! ### The other operations -/

theorem Sane.extended (h : s.Sane) : s.extended.Sane :=
  (Move.tidy (.fresh "" false) h.tidy).sane

theorem Sane.recorded (h : s.Sane) {g : GrowingRecord} (hlinks : ∀ r ∈ g.links false, s.Has r) :
    (s.recorded g).Sane :=
  (Move.tidy (.copy hlinks) h.tidy).sane

theorem Sane.newRecord (h : s.Sane) {fields : List (Name × Ty)} {base : Ty}
    (hfields : ∀ field ∈ fields, s.Owns field.2) (hbase : s.Owns base) :
    (s.newRecord fields base).2.Sane := by
  refine h.recorded (fun r hr => ?_)
  simp only [GrowingRecord.links, List.mem_append, Ty.mem_mentionsFields] at hr
  rcases hr with ⟨field, hfield, rfl | hr⟩ | hr
  · trivial
  · exact hfields field hfield r hr
  · exact hbase r hr

theorem Sane.freshCopies (h : s.Sane) (vars : List TyVar) : (Scheme.freshCopies vars s).2.Sane := by
  induction vars generalizing s with
  | nil => exact h
  | cons v vars ih => exact ih h.extended

theorem Sane.instantiate (h : s.Sane) (scheme : Scheme) : (scheme.instantiate s).2.Sane := by
  unfold Scheme.instantiate
  split
  · exact h
  · exact h.freshCopies scheme.vars

theorem Sane.unify (h : s.Sane) {a e : Ty} (ha : s.Owns a) (he : s.Owns e) {o : Outcome}
    (hrun : StoreM.unify a e s = .ok (o, s')) : s'.Sane := by
  have hlands := safe_unify s a e _ h.tidy ha he
  rw [hrun] at hlands
  obtain ⟨Q', hmoves⟩ := hlands
  exact (hmoves.tidy h.tidy).sane

theorem Sane.constrain (h : s.Sane) {c : Typeclass} {t : Ty} (ht : s.Owns t) {o : Outcome}
    (hrun : StoreM.constrain c t s = .ok (o, s')) : s'.Sane := by
  obtain ⟨Q', hmoves⟩ := (restrains_constrainAt _ c t hrun).moves _ h.tidy ht
  exact (hmoves.tidy h.tidy).sane

/-! ### Reached stores -/

/-- The stores that come of a store by its operations, each applied to types of the store at hand. An
operation that faults leaves no store. -/
inductive Reached (start : Store) : Store → Prop
  | refl : Reached start start
  | fresh {s : Store} (name : Name) (rigid : Bool) : Reached start s →
      Reached start (s.fresh name rigid).2
  | instantiate {s : Store} (scheme : Scheme) : Reached start s →
      Reached start (scheme.instantiate s).2
  | newRecord {s : Store} {fields : List (Name × Ty)} {base : Ty} : Reached start s →
      (∀ field ∈ fields, s.Owns field.2) → s.Owns base → Reached start (s.newRecord fields base).2
  | insertField {s s' : Store} {id : RecordId} {field : Name} {t : Ty} {pos? : Option Nat}
      {o : Outcome} : Reached start s → id < s.records.size → s.Owns t →
      StoreM.insertField id field t pos? s = .ok (o, s') → Reached start s'
  | unify {s s' : Store} {a e : Ty} {o : Outcome} : Reached start s → s.Owns a → s.Owns e →
      StoreM.unify a e s = .ok (o, s') → Reached start s'
  | constrain {s s' : Store} {c : Typeclass} {t : Ty} {o : Outcome} : Reached start s → s.Owns t →
      StoreM.constrain c t s = .ok (o, s') → Reached start s'

theorem Reached.sane {start : Store} (hstart : start.Sane) (h : Reached start s) : s.Sane := by
  induction h with
  | refl => exact hstart
  | fresh _ _ _ ih => exact ih.extended
  | instantiate scheme _ ih => exact ih.instantiate scheme
  | newRecord _ hfields hbase ih => exact ih.newRecord hfields hbase
  | insertField _ hid ht hrun ih =>
    obtain ⟨o, s', hrun', hsane, -⟩ := ih.insertField hid _ ht _
    rw [hrun] at hrun'
    cases hrun'
    exact hsane
  | unify _ ha he hrun ih => exact ih.unify ha he hrun
  | constrain _ ht hrun ih => exact ih.constrain ht hrun

/-- A computation that comes to an end, and that keeps a store closed and acyclic unless it faults. -/
structure KeptAcyclic {α : Type} (s : Store) (x : StoreM α) : Prop where
  ends : x s ≠ .error .diverged
  acyclic : ∀ a s', x s = .ok (a, s') → s'.Acyclic ∧ s'.Closed

/-- Reading a type through a store comes to an end, whichever way it is read. -/
structure Readable (s : Store) (t : Ty) : Prop where
  resolve : ∃ r, s.resolve t = .ok r
  anyNode : ∀ p, ∃ b, s.anyNode p t = .ok b
  occurs : ∀ id, ∃ b, s.occurs id t = .ok b
  flatten : ∃ f, s.flatten t = .ok f

theorem Sane.readable (h : s.Sane) {t : Ty} (ht : s.Owns t) : s.Readable t :=
  ⟨exists_resolve h.loopfree h.closed ht, fun p => exists_anyNode h.loopfree h.closed p ht,
    fun id => exists_occurs h.loopfree h.closed id ht, exists_flatten h.loopfree h.closed ht⟩

theorem keptAcyclic_of_sane {α : Type} {x : StoreM α} (hends : x s ≠ .error .diverged)
    (hkeeps : ∀ a s', x s = .ok (a, s') → s'.Sane) : s.KeptAcyclic x :=
  ⟨hends, fun a s' hrun => ⟨(hkeeps a s' hrun).acyclic, (hkeeps a s' hrun).closed⟩⟩

/-- On a closed acyclic store and its types every operation comes to an end, and it leaves a closed
acyclic store unless it faults; the clock of unification does not show in its result. Every store reached
in this way can be read. -/
theorem operations_end_and_keep_acyclic {s : Store} (hacyclic : s.Acyclic) (hclosed : s.Closed) :
    (∀ a e, s.Owns a → s.Owns e →
      s.KeptAcyclic (unify a e) ∧ unify a e s = unifyStep unify a e s) ∧
    (∀ c t, s.Owns t → s.KeptAcyclic (constrain c t)) ∧
    (∀ id field t pos?, id < s.records.size → s.Owns t →
      s.KeptAcyclic (StoreM.insertField id field t pos?)) ∧
    (∀ fields base, (∀ field ∈ fields, s.Owns field.2) → s.Owns base →
      (s.newRecord fields base).2.Acyclic ∧ (s.newRecord fields base).2.Closed) ∧
    (∀ name rigid, (s.fresh name rigid).2.Acyclic ∧ (s.fresh name rigid).2.Closed) ∧
    (∀ s', Reached s s' → s'.Acyclic ∧ s'.Closed ∧ ∀ t, s'.Owns t → s'.Readable t) := by
  have hsane := hacyclic.sane hclosed
  refine ⟨fun a e ha he => ⟨?_, unify_eq hsane ha he⟩, fun c t ht => ?_,
    fun id field t pos? hid ht => ?_, fun fields base hfields hbase => ?_, fun name rigid => ?_,
    fun s' hreached => ?_⟩
  · exact keptAcyclic_of_sane (unify_returns hsane ha he) (fun o s' hrun => hsane.unify ha he hrun)
  · obtain ⟨o, s', hrun⟩ := exists_constrain hsane.loopfree hsane.closed c ht
    refine keptAcyclic_of_sane (fun h => ?_) (fun o s' hrun => hsane.constrain ht hrun)
    rw [hrun] at h
    cases h
  · obtain ⟨o, s', hrun, hsane', -⟩ := hsane.insertField hid field ht pos?
    refine keptAcyclic_of_sane (fun h => ?_) (fun o' s'' hrun' => ?_)
    · rw [hrun] at h
      cases h
    · rw [hrun] at hrun'
      cases hrun'
      exact hsane'
  · have hnew := hsane.newRecord hfields hbase
    exact ⟨hnew.acyclic, hnew.closed⟩
  · exact ⟨hsane.extended.acyclic, hsane.extended.closed⟩
  · have hsane' := hreached.sane hsane
    exact ⟨hsane'.acyclic, hsane'.closed, fun t ht => hsane'.readable ht⟩

/-- A variable stands for a copy of an extension record whose base is another variable. Unifying that other
variable with a type that holds the copy ends, and no loop is closed. -/
theorem operations_end_and_keep_acyclic_of_copy : ∃ s s' : Store,
    unify (.var ⟨0, "a", false⟩) (Ty.extension (.var ⟨1, "b", false⟩) [("x", .var ⟨1, "b", false⟩)])
      ((({} : Store).fresh "a" false).2.fresh "b" false).2 = .ok (.ok (), s) ∧
    s.Acyclic ∧ s.Closed ∧
    unify (.var ⟨1, "b", false⟩) (.tuple [.unit, .var ⟨0, "a", false⟩]) s =
      .ok (.error .infiniteType, s') ∧ s'.Acyclic ∧ s'.Closed := by
  have hstart := sane_empty.extended.extended
  have hrun : unify (.var ⟨0, "a", false⟩)
      (Ty.extension (.var ⟨1, "b", false⟩) [("x", .var ⟨1, "b", false⟩)])
      ((({} : Store).fresh "a" false).2.fresh "b" false).2 = .ok (.ok (), _) := rfl
  have hsane := hstart.unify (by decide) (by decide) hrun
  obtain ⟨hunify, -⟩ := operations_end_and_keep_acyclic hsane.acyclic hsane.closed
  have hkept := (hunify (.var ⟨1, "b", false⟩) (.tuple [.unit, .var ⟨0, "a", false⟩])
    (by decide) (by decide)).1
  exact ⟨_, _, hrun, hsane.acyclic, hsane.closed, rfl, hkept.acyclic _ _ rfl⟩

end Store

end ElmInference
