import ElmInference.Proofs.Store.Mints
import ElmInference.Proofs.Unify.Acyclicity
import ElmInference.Proofs.Unify.Alterations

/-!
# Histories of a store

The operations of a store allocate variables, instantiate schemes and declared types, make and extend
growing records, and unify and constrain types. Each is applied to types over what is at hand: the variables
and records that were handed out before, and what the entries of the store mention. A history is any
sequence of operations, whatever their outcomes are; an operation that faults ends it.

An operation either is a sequence of changes or adds a field to a growing record, so whatever both keep
holds in every store with a history.
-/

namespace ElmInference

namespace Store

open Relation StoreM

/-- What is at hand once an operation has left a store: what it found and handed out, and what the store
mentions. -/
def seen (s : Store) (aliases : Bool) (Q : Set Mention) : Set Mention :=
  Q ∪ {r | ∃ n, r ∈ s.links aliases n}

def handedOut (s : Store) (images : Assoc VarId Ty) : Set Mention :=
  {r | ∃ k v, r = .var v ∧ (k, .var v) ∈ images ∧ s.size ≤ v.id}

def World.after (aliases : Bool) (s : Store) (Q : Set Mention) : World :=
  (s, s.seen aliases Q)

/-- One operation on a store, and what is at hand after it. -/
inductive Operation (aliases : Bool) (L : Ty → Prop) : World → World → Prop
  | fresh {s : Store} {Q : Set Mention} (name : Name) (rigid : Bool) :
      Operation aliases L (s, Q)
        (.after aliases (s.fresh name rigid).2 (insert (.var (s.fresh name rigid).1) Q))
  | instantiate {s : Store} {Q : Set Mention} (scheme : Scheme) :
      Operation aliases L (s, Q)
        (.after aliases (scheme.instantiate s).2 (Q ∪ s.handedOut (Scheme.freshCopies scheme.vars s).1))
  | declared {s : Store} {Q : Set Mention} (d : DeclaredType) {args : List Ty} :
      (∀ t ∈ args, Ty.MadeOf aliases L Q t) →
      Operation aliases L (s, Q)
        (.after aliases (d.instantiate args s).2 (Q ∪ s.handedOut (d.images args s).1))
  | newRecord {s : Store} {Q : Set Mention} {fields : List (Name × Ty)} {base : Ty} :
      Ty.FieldsOf aliases L Q fields → Ty.MadeOf aliases L Q base →
      Operation aliases L (s, Q)
        (.after aliases (s.newRecord fields base).2 (insert (.record s.records.size) Q))
  | insertField {s s' : Store} {Q : Set Mention} {id : RecordId} {field : Name} {t : Ty}
      {pos? : Option Nat} {o : Outcome} : .record id ∈ Q → .field field ∈ Q → Ty.MadeOf aliases L Q t →
      StoreM.insertField id field t pos? s = .ok (o, s') →
      Operation aliases L (s, Q) (.after aliases s' Q)
  | unify {s s' : Store} {Q : Set Mention} {a e : Ty} {o : Outcome} : Ty.MadeOf aliases L Q a →
      Ty.MadeOf aliases L Q e → StoreM.unify a e s = .ok (o, s') →
      Operation aliases L (s, Q) (.after aliases s' Q)
  | constrain {s s' : Store} {Q : Set Mention} {c : Typeclass} {t : Ty} {o : Outcome} :
      Ty.MadeOf aliases L Q t → StoreM.constrain c t s = .ok (o, s') →
      Operation aliases L (s, Q) (.after aliases s' Q)

abbrev History (aliases : Bool) (L : Ty → Prop) : World → World → Prop :=
  ReflTransGen (Operation aliases L)

/-- The world of a new store: field names and unknown types are at hand. -/
def blank : World :=
  ({}, {r | r.node? = none})

variable {aliases : Bool} {L : Ty → Prop} {s s' : Store} {Q Q' : Set Mention} {w w' : World}

/-- A weaker property of types allows more histories. -/
theorem History.imp {L' : Ty → Prop} (h : History aliases L w w') (hL : ∀ t, L t → L' t) :
    History aliases L' w w' := by
  refine ReflTransGen.mono (fun _ _ hoperation => ?_) _ _ h
  cases hoperation with
  | fresh name rigid => exact .fresh name rigid
  | instantiate scheme => exact .instantiate scheme
  | declared d hargs => exact .declared d (fun t ht => (hargs t ht).imp hL)
  | newRecord hfields hbase =>
    exact .newRecord (fun field hf => ⟨(hfields field hf).1, (hfields field hf).2.imp hL⟩) (hbase.imp hL)
  | insertField hid hfield ht hrun => exact .insertField hid hfield (ht.imp hL) hrun
  | unify ha he hrun => exact .unify (ha.imp hL) (he.imp hL) hrun
  | constrain ht hrun => exact .constrain (ht.imp hL) hrun

/-- A history goes on with an operation. -/
theorem History.next (h : History aliases L w (s, Q))
    (hoperation : Operation aliases L (s, Q) (.after aliases s' Q')) :
    ∃ X, History aliases L w (s', X) ∧ Q' ⊆ X :=
  ⟨_, h.tail hoperation, Set.subset_union_left⟩

/-- A history of a new store begins. -/
theorem History.start (aliases : Bool) (L : Ty → Prop) : History aliases L blank (({} : Store), blank.2) :=
  .refl

/-! ### Handing out variables -/

theorem Mints.changes (h : Mints w w') : Changes aliases L w w' := by
  refine ReflTransGen.mono (fun _ _ hmint => ?_) _ _ h
  cases hmint with
  | mk name rigid => exact .fresh name rigid

theorem HandsOut.changes {images : Assoc VarId Ty} {keys : List TyVar} (h : HandsOut (s, Q) images s' keys) :
    ∃ Q', Changes aliases L (s, Q) (s', Q') ∧ Q ∪ s.handedOut images ⊆ Q' := by
  obtain ⟨Q', hmints, hwithin, -⟩ := h
  refine ⟨Q', hmints.changes, Set.union_subset hmints.subset ?_⟩
  rintro r ⟨k, v, rfl, hmem, -⟩
  exact Ty.within_var.mp (hwithin _ hmem)

/-! ### Two kinds of operations -/

theorem insertField_cases {id : RecordId} {field : Name} {t : Ty} {pos? : Option Nat} {o : Outcome}
    (h : StoreM.insertField id field t pos? s = .ok (o, s')) :
    s' = s ∨ ∃ g refs, s.records[id]? = some g ∧ ¬ s.Leads false t (.record id) ∧
      s' = s.setRecord id { g with fields := Ty.addFields g.fields [(field, t)], refs := refs } := by
  unfold StoreM.insertField at h
  cases hmentions : s.mentionsRecord id t with
  | error fault =>
    rw [run_bind_error (run_read_error hmentions)] at h
    cases h
  | ok b =>
    rw [run_bind_ok (run_read_ok hmentions)] at h
    cases b with
    | true =>
      cases h
      exact .inl rfl
    | false =>
      rw [if_neg (by simp)] at h
      cases hrec : s.records[id]? with
      | none =>
        have hlost : s.record id = .error (.missingRecord id) := by simp [Store.record, hrec]
        rw [run_bind_error (run_read_error hlost)] at h
        cases h
      | some g =>
        rw [run_bind_ok (run_read_ok (record_of_some hrec))] at h
        cases h
        refine .inr ⟨g, _, rfl, fun hleads => ?_, rfl⟩
        simpa using (mentionsRecord_iff hmentions).mpr hleads

/-- A growing record of the world gains a field. -/
inductive Insertion (aliases : Bool) (L : Ty → Prop) : World → World → Prop
  | mk {s : Store} {Q : Set Mention} {id : RecordId} {g : GrowingRecord} {field : Name} {t : Ty}
      {refs : FieldReferences} : s.records[id]? = some g → .field field ∈ Q → Ty.MadeOf aliases L Q t →
      ¬ s.Leads false t (.record id) → Insertion aliases L (s, Q)
        (s.setRecord id { g with fields := Ty.addFields g.fields [(field, t)], refs := refs }, Q)

/-- An operation is a sequence of changes or adds a field to a growing record, and not everything that these
bring up need be at hand after it. -/
theorem Operation.cases (hL : Ty.Hereditary L) (h : Operation aliases L w w')
    (hw : Stocked aliases L w) : ∃ Q X, w' = .after aliases w'.1 X ∧ w.2 ⊆ X ∧ X ⊆ Q ∧
      (Changes aliases L w (w'.1, Q) ∨ Insertion aliases L w (w'.1, Q)) := by
  cases h with
  | fresh name rigid =>
    exact ⟨_, _, rfl, Set.subset_insert _ _, subset_rfl, .inl (.single (.fresh name rigid))⟩
  | @instantiate s Q scheme =>
    obtain ⟨Q', hchanges, hsubset⟩ := (Scheme.handsOut_freshCopies scheme.vars s Q).changes
    refine ⟨Q', _, rfl, Set.subset_union_left, hsubset, .inl ?_⟩
    simp only [World.after, Scheme.instantiate]
    cases hvars : scheme.vars with
    | nil =>
      rw [hvars] at hchanges
      simpa [Scheme.freshCopies] using hchanges
    | cons v vars => simpa [hvars] using hchanges
  | @declared s Q d args hargs =>
    obtain ⟨Q', hchanges, hsubset⟩ := (d.handsOut_images s (fun t ht => (hargs t ht).within)).changes
    exact ⟨Q', _, rfl, Set.subset_union_left, hsubset, .inl hchanges⟩
  | @newRecord s Q fields base hfields hbase =>
    refine ⟨_, _, rfl, Set.subset_insert _ _, subset_rfl, .inl (.single (.copy (g := { fields, base }) ?_))⟩
    refine Ty.madeOf_record hL _ hfields (fun b hb => ?_)
    obtain rfl := Option.some.inj hb
    exact hbase
  | insertField _ hfield ht hrun =>
    refine ⟨_, _, rfl, subset_rfl, subset_rfl, ?_⟩
    rcases insertField_cases hrun with rfl | ⟨g, refs, hrec, hnot, rfl⟩
    · exact .inl .refl
    · exact .inr (.mk hrec hfield ht hnot)
  | unify ha he hrun =>
    have halters := alters_unify hL hw.toFilled ha he
    rw [hrun] at halters
    obtain ⟨Q', hchanges⟩ := halters
    exact ⟨Q', _, rfl, subset_rfl, hchanges.subset, .inl hchanges⟩
  | @constrain s s' Q c t o ht hrun =>
    have halters := alters_constrain hL c hw.toFilled ht
    rw [hrun] at halters
    obtain ⟨Q', hchanges⟩ := halters
    exact ⟨Q', _, rfl, subset_rfl, hchanges.subset, .inl hchanges⟩

/-! ### What operations keep -/

theorem Insertion.stocked (hL : Ty.Hereditary L) (h : Insertion aliases L w w')
    (hw : Stocked aliases L w) : Stocked aliases L w' := by
  cases h with
  | @mk s Q id g field t refs hrec hfield ht hnot =>
    have hsane : (s.setRecord id { g with fields := Ty.addFields g.fields [(field, t)], refs }).Sane :=
      hw.tidy.sane.setRecord hrec (hw.tidy.owns ht.within) hnot
    refine ⟨⟨hsane.loopfree, fun r hr => ?_, hw.solution, fun other g' hrec' => ?_⟩, hw.named, hw.rigid⟩
    · have hhas := hw.owned r hr
      cases r with
      | record id => simpa [Has, setRecord] using hhas
      | var v => exact hhas
      | field name => trivial
      | hole => trivial
    · rw [record?_setRecord] at hrec'
      split at hrec'
      · rw [if_pos (lt_size_of_record? hrec)] at hrec'
        cases hrec'
        have hg := hw.record id g hrec
        refine Ty.madeOf_record hL _ (Ty.fieldsOf_addFields (hg.fields hL) ?_) (fun b hb => ?_)
        · intro entry hentry
          rw [List.mem_singleton.mp hentry]
          exact ⟨hfield, ht⟩
        · obtain rfl := Option.some.inj hb
          exact hg.part hL .base
      · exact hw.record other g' hrec'

theorem Insertion.solution? (h : Insertion aliases L w w') (id : VarId) :
    w'.1.solution? id = w.1.solution? id := by
  cases h
  rfl

theorem Stocked.after (h : Stocked aliases L (s, Q')) (hQ : Q ⊆ Q') :
    Stocked aliases L (.after aliases s Q) := by
  refine h.restrict ?_ (fun n r hr => .inr ⟨n, hr⟩)
  rintro r (hr | ⟨n, hr⟩)
  · exact hQ hr
  · exact h.mem_of_links hr

theorem Operation.stocked (hL : Ty.Hereditary L) (h : Operation aliases L w w')
    (hw : Stocked aliases L w) : Stocked aliases L w' := by
  obtain ⟨Q, X, heq, -, hX, hkind⟩ := h.cases hL hw
  rw [heq]
  rcases hkind with hchanges | hinsertion
  · exact (hchanges.stocked hL hw).after hX
  · exact (hinsertion.stocked hL hw).after hX

/-- What is at hand stays at hand. -/
theorem Operation.subset (hL : Ty.Hereditary L) (h : Operation aliases L w w')
    (hw : Stocked aliases L w) : w.2 ⊆ w'.2 := by
  obtain ⟨Q, X, heq, hX, -, -⟩ := h.cases hL hw
  rw [heq]
  exact hX.trans Set.subset_union_left

/-- Solutions stay as they are. -/
theorem Operation.solution (hL : Ty.Hereditary L) (h : Operation aliases L w w')
    (hw : Stocked aliases L w) {id : VarId} {t : Ty} (hsol : w.1.solution? id = some t) :
    w'.1.solution? id = some t := by
  obtain ⟨Q, X, -, -, -, hchanges | hinsertion⟩ := h.cases hL hw
  · exact hchanges.extends.solution id t hsol
  · exact (hinsertion.solution? id).trans hsol

theorem History.stocked (hL : Ty.Hereditary L) (h : History aliases L w w')
    (hw : Stocked aliases L w) : Stocked aliases L w' := by
  induction h with
  | refl => exact hw
  | tail _ hoperation ih => exact hoperation.stocked hL ih

theorem History.subset (hL : Ty.Hereditary L) (h : History aliases L w w')
    (hw : Stocked aliases L w) : w.2 ⊆ w'.2 := by
  induction h with
  | refl => exact subset_rfl
  | tail hhistory hoperation ih => exact ih.trans (hoperation.subset hL (History.stocked hL hhistory hw))

theorem History.solution (hL : Ty.Hereditary L) (h : History aliases L w w')
    (hw : Stocked aliases L w) {id : VarId} {t : Ty} (hsol : w.1.solution? id = some t) :
    w'.1.solution? id = some t := by
  induction h with
  | refl => exact hsol
  | tail hhistory hoperation ih => exact hoperation.solution hL (History.stocked hL hhistory hw) ih

theorem stocked_blank : Stocked aliases L blank := by
  refine ⟨⟨sane_empty.loopfree, fun r hr => ?_, fun id t hsol => ?_, fun id g hrec => ?_⟩,
    fun v u hv => ?_, fun v hv => ?_⟩
  · cases r with
    | var v => cases hr
    | record id => cases hr
    | field name => trivial
    | hole => trivial
  · rw [blank, solution?_empty] at hsol
    cases hsol
  · cases lt_size_of_record? hrec
  · cases hv
  · cases hv

end Store

end ElmInference
