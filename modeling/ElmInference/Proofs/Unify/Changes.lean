import ElmInference.Proofs.Unify.Classes
import ElmInference.Proofs.Unify.Parts
import ElmInference.Proofs.Unify.Safety

/-!
# What the operations put into a store

`Move` says of a change that it closes no loop. `Change` says more about the types that a change puts into
a store, which is what the constraints on variables and the aliases in types are about. A change allocates,
or it joins two variables, or it solves a variable by a type that passed the variable's constraint, or it
solves the end of a record by a record. The last kind does not look at the constraint.

A filled world holds nothing but types over its set of mentions, and a stocked one also knows each variable
by one name. Changes keep a world filled, and stocked.
-/

namespace ElmInference

/-- Whether everything that a variable's name admits belongs to a class. -/
def TyVar.Promises (v : TyVar) (c : Typeclass) : Prop :=
  ∃ d, v.typeclass = some d ∧ Typeclass.join c d = some d

theorem TyVar.promises_name (id : VarId) (c : Typeclass) (rigid : Bool) :
    TyVar.Promises ⟨id, c.name, rigid⟩ c :=
  ⟨c, typeclass_of_name id c rigid, Typeclass.join_self c⟩

namespace Store

open Relation StoreM

/-! ### Belonging to a class in a store -/

/-- Whether a type belongs to a class. What is said about a variable is read in its solution, or in its
name where `P` allows that. -/
inductive Satisfies (s : Store) (P : TyVar → Prop) : Typeclass → Ty → Prop
  | unknown {c : Typeclass} : Satisfies s P c .unknown
  | named {c : Typeclass} {v : TyVar} : v.Promises c → P v → Satisfies s P c (.var v)
  | solved {c : Typeclass} {v : TyVar} {t : Ty} : s.solution? v.id = some t → Satisfies s P c t →
      Satisfies s P c (.var v)
  | tuple {items : List Ty} : (∀ t ∈ items, Satisfies s P .comparable t) →
      Satisfies s P .comparable (.tuple items)
  | list {c : Typeclass} {m n : Name} {args : List Ty} {w : Option (AliasUse Ty)} :
      (c.needsComparableItems && isListType m n args) = true →
      (∀ t ∈ args, Satisfies s P .comparable t) → Satisfies s P c (.union m n args w)
  | admitted {c : Typeclass} {m n : Name} {args : List Ty} {w : Option (AliasUse Ty)} :
      (c.needsComparableItems && isListType m n args) = false → c.admits m n args = true →
      Satisfies s P c (.union m n args w)

/-- Whether a type belongs to a class when variables keep what their names promise. -/
def Guards (s : Store) : Typeclass → Ty → Prop :=
  s.Satisfies (fun _ => True)

theorem Satisfies.later {s s' : Store} {P P' : TyVar → Prop} {c : Typeclass} {t : Ty}
    (h : s.Satisfies P c t) (hext : ∀ id u, s.solution? id = some u → s'.solution? id = some u)
    (hP : ∀ v, P v → P' v) : s'.Satisfies P' c t := by
  induction h with
  | unknown => exact .unknown
  | named hpromises hv => exact .named hpromises (hP _ hv)
  | solved hsol _ ih => exact .solved (hext _ _ hsol) ih
  | tuple _ ih => exact .tuple ih
  | list hlist _ ih => exact .list hlist ih
  | admitted hlist hadmits => exact .admitted hlist hadmits

theorem Guards.later {s s' : Store} {c : Typeclass} {t : Ty} (h : s.Guards c t) (hext : s.Extends s') :
    s'.Guards c t :=
  Satisfies.later h hext.solution (fun _ => id)

/-! ### Changes -/

/-- One change of a store, with what is known about the types that it puts there. -/
inductive Change (aliases : Bool) (L : Ty → Prop) : World → World → Prop
  | fresh {s : Store} {Q : Set Mention} (name : Name) (rigid : Bool) :
      Change aliases L (s, Q) (s.extended, insert (.var ⟨s.size, name, rigid⟩) Q)
  | copy {s : Store} {Q : Set Mention} {g : GrowingRecord} :
      Ty.MadeOf aliases L Q (.record g.fields (some g.base) none g.refs) →
      Change aliases L (s, Q) (s.recorded g, insert (.record s.records.size) Q)
  | join {s : Store} {Q : Set Mention} {v w : TyVar} : s.Unsolved v.id → s.Unsolved w.id → v.id ≠ w.id →
      v.rigid = false → .var v ∈ Q → .var w ∈ Q → w.Meets v →
      Change aliases L (s, Q) (s.solved v.id (.var w), Q)
  | bind {s : Store} {Q : Set Mention} {v : TyVar} {t : Ty} {shape : Shape} : s.Unsolved v.id →
      v.rigid = false → .var v ∈ Q → Ty.MadeOf aliases L Q t → ¬ s.Leads false t (.var v.id) →
      shape? t = some shape → (∀ c, v.typeclass = some c → s.Guards c t) →
      Change aliases L (s, Q) (s.solved v.id t, Q)
  | close {s : Store} {Q : Set Mention} {v : TyVar} {t : Ty} : s.Unsolved v.id → v.rigid = false →
      .var v ∈ Q → Ty.MadeOf aliases L Q t → ¬ s.Leads false t (.var v.id) →
      shape? t = some .record → Change aliases L (s, Q) (s.solved v.id t, Q)

abbrev Changes (aliases : Bool) (L : Ty → Prop) : World → World → Prop :=
  ReflTransGen (Change aliases L)

variable {aliases : Bool} {L : Ty → Prop} {s s₁ s' : Store} {Q Q' : Set Mention} {w w' : World}

theorem Change.move (h : Change aliases L w w') : Move w w' := by
  cases h with
  | fresh name rigid => exact .fresh name rigid
  | copy hmade =>
    refine .copy (fun r hr => hmade.within r ?_)
    rwa [← links_of_record]
  | join hv hw hne hflex hvQ hwQ _ => exact move_solved_var hv hw hne hflex hvQ hwQ
  | bind hun hflex hvQ hmade hnot _ _ => exact .solve hun hflex hvQ hmade.within hnot
  | close hun hflex hvQ hmade hnot _ => exact .solve hun hflex hvQ hmade.within hnot

theorem Changes.moves (h : Changes aliases L w w') : Moves w w' :=
  ReflTransGen.mono (fun _ _ => Change.move) _ _ h

/-- A world whose store has no loops and holds types over what the world mentions. -/
structure Filled (aliases : Bool) (L : Ty → Prop) (w : World) : Prop where
  loopfree : w.1.Loopfree false
  owned : ∀ r ∈ w.2, w.1.Has r
  solution : ∀ id t, w.1.solution? id = some t → Ty.MadeOf aliases L w.2 t
  record : ∀ (id : RecordId) g, w.1.records[id]? = some g →
    Ty.MadeOf aliases L w.2 (.record g.fields (some g.base) none g.refs)

/-- A filled world that mentions each variable under one name; rigid variables have no solution. -/
structure Stocked (aliases : Bool) (L : Ty → Prop) (w : World) : Prop extends Filled aliases L w where
  named : ∀ v u, .var v ∈ w.2 → .var u ∈ w.2 → v.id = u.id → v = u
  rigid : ∀ v, .var v ∈ w.2 → v.rigid = true → w.1.Unsolved v.id

theorem Filled.tidy (h : Filled aliases L w) : Tidy w := by
  have hlinks : ∀ (id : RecordId) g, w.1.records[id]? = some g → ∀ r ∈ g.links false, r ∈ w.2 := by
    intro id g hrec r hr
    refine (h.record id g hrec).within r ?_
    rwa [← links_of_record]
  refine ⟨⟨fun v t _ hsol r hr => ?_, fun id g _ hrec r hr => ?_⟩, h.loopfree,
    ⟨fun v t _ hsol => (h.solution v.id t hsol).within, fun id g _ hrec => hlinks id g hrec⟩, h.owned⟩
  · exact h.owned r ((h.solution v.id t hsol).within r hr)
  · exact h.owned r (hlinks id g hrec r hr)

theorem links_record_eq (g : GrowingRecord) :
    g.links aliases = (Ty.record g.fields (some g.base) none g.refs).mentions aliases := by
  simp [GrowingRecord.links, Ty.mentions, Ty.mentionsBase, Ty.mentionsAlias]

theorem Filled.mem_of_links (h : Filled aliases L (s, Q)) {n : Node} {r : Mention}
    (hr : r ∈ s.links aliases n) : r ∈ Q := by
  cases n with
  | var id =>
    cases hsol : s.solution? id with
    | none => simp [links, hsol] at hr
    | some t => exact (h.solution id t hsol).mentions r (by simpa [links, hsol] using hr)
  | record id =>
    cases hrec : s.records[id]? with
    | none => simp [links, hrec] at hr
    | some g =>
      refine (h.record id g hrec).mentions r ?_
      simpa [links, hrec, links_record_eq] using hr

/-- A smaller set of mentions will do, as long as the store does not leave it. -/
theorem Stocked.restrict (h : Stocked aliases L (s, Q')) (hsubset : Q ⊆ Q')
    (hlinks : ∀ n, ∀ r ∈ s.links aliases n, r ∈ Q) : Stocked aliases L (s, Q) where
  loopfree := h.loopfree
  owned r hr := h.owned r (hsubset hr)
  solution id t hsol :=
    ⟨fun r hr => hlinks (.var id) r (by simpa [links, hsol] using hr), (h.solution id t hsol).property⟩
  record id g hrec := by
    refine ⟨fun r hr => hlinks (.record id) r ?_, (h.record id g hrec).property⟩
    simpa [links, hrec, links_record_eq] using hr
  named v u hv hu := h.named v u (hsubset hv) (hsubset hu)
  rigid v hv := h.rigid v (hsubset hv)

/-- Solving a variable by a type over the mentions at hand. -/
theorem Filled.solved (h : Filled aliases L (s, Q)) {id : VarId} {t : Ty}
    (hloop : (s.solved id t).Loopfree false) (hun : s.Unsolved id) (ht : Ty.MadeOf aliases L Q t) :
    Filled aliases L (s.solved id t, Q) where
  loopfree := hloop
  owned r hr := (extends_solved t hun).has (h.owned r hr)
  solution other u hsol := by
    rcases solution?_solved_cases hsol with ⟨-, rfl⟩ | hold
    · exact ht
    · exact h.solution other u hold
  record other g hrec := h.record other g hrec

/-- A solved variable was flexible. -/
theorem Stocked.solved (h : Stocked aliases L (s, Q)) {v : TyVar} {t : Ty}
    (hloop : (s.solved v.id t).Loopfree false) (hun : s.Unsolved v.id) (hflex : v.rigid = false)
    (hv : .var v ∈ Q) (ht : Ty.MadeOf aliases L Q t) : Stocked aliases L (s.solved v.id t, Q) where
  toFilled := h.toFilled.solved hloop hun ht
  named := h.named
  rigid u hu hrigid := by
    refine (h.rigid u hu hrigid).solved_of_ne t (fun hid => ?_)
    rw [h.named u v hu hv hid, hflex] at hrigid
    cases hrigid

theorem Filled.fresh (h : Filled aliases L (s, Q)) (name : Name) (rigid : Bool) :
    Filled aliases L (s.extended, insert (.var ⟨s.size, name, rigid⟩) Q) where
  loopfree := h.loopfree.extended
  owned := ((Move.fresh name rigid).tidy h.tidy).owned
  solution id t hsol := (h.solution id t (by simpa using hsol)).mono (Set.subset_insert _ _)
  record id g hrec := (h.record id g (by simpa using hrec)).mono (Set.subset_insert _ _)

theorem Stocked.fresh (h : Stocked aliases L (s, Q)) (name : Name) (rigid : Bool) :
    Stocked aliases L (s.extended, insert (.var ⟨s.size, name, rigid⟩) Q) where
  toFilled := h.toFilled.fresh name rigid
  named := eq_of_mem_insert_var h.tidy.id_ne_size h.named
  rigid := unsolved_of_mem_insert_fresh h.rigid

theorem Filled.copy (h : Filled aliases L (s, Q)) {g : GrowingRecord}
    (hg : Ty.MadeOf aliases L Q (.record g.fields (some g.base) none g.refs)) :
    Filled aliases L (s.recorded g, insert (.record s.records.size) Q) := by
  have htidy := (Change.copy hg).move.tidy h.tidy
  refine ⟨htidy.loopfree, htidy.owned, fun id t hsol => ?_, fun id g' hrec => ?_⟩
  · exact (h.solution id t hsol).mono (Set.subset_insert _ _)
  · rcases record?_recorded_cases hrec with ⟨-, rfl⟩ | hold
    · exact hg.mono (Set.subset_insert _ _)
    · exact (h.record id g' hold).mono (Set.subset_insert _ _)

theorem Stocked.copy (h : Stocked aliases L (s, Q)) {g : GrowingRecord}
    (hg : Ty.MadeOf aliases L Q (.record g.fields (some g.base) none g.refs)) :
    Stocked aliases L (s.recorded g, insert (.record s.records.size) Q) := by
  refine ⟨h.toFilled.copy hg, fun v u hv hu => ?_, fun v hv => ?_⟩
  · exact h.named v u (mem_of_var_mem_insert_record hv) (mem_of_var_mem_insert_record hu)
  · exact h.rigid v (mem_of_var_mem_insert_record hv)

theorem Change.filled (hL : Ty.Hereditary L) (h : Change aliases L w w') (hw : Filled aliases L w) :
    Filled aliases L w' := by
  have hloop := (h.move.tidy hw.tidy).loopfree
  cases h with
  | fresh name rigid => exact hw.fresh name rigid
  | copy hg => exact hw.copy hg
  | join hun _ _ _ _ hw' _ => exact hw.solved hloop hun (Ty.madeOf_var hL hw')
  | bind hun _ _ ht _ _ _ => exact hw.solved hloop hun ht
  | close hun _ _ ht _ _ => exact hw.solved hloop hun ht

theorem Change.stocked (hL : Ty.Hereditary L) (h : Change aliases L w w') (hw : Stocked aliases L w) :
    Stocked aliases L w' := by
  have hloop := (h.move.tidy hw.tidy).loopfree
  cases h with
  | fresh name rigid => exact hw.fresh name rigid
  | copy hg => exact hw.copy hg
  | join hun _ _ hflex hv hw' _ => exact hw.solved hloop hun hflex hv (Ty.madeOf_var hL hw')
  | bind hun hflex hv ht _ _ _ => exact hw.solved hloop hun hflex hv ht
  | close hun hflex hv ht _ _ => exact hw.solved hloop hun hflex hv ht

theorem Changes.filled (hL : Ty.Hereditary L) (h : Changes aliases L w w') (hw : Filled aliases L w) :
    Filled aliases L w' := by
  induction h with
  | refl => exact hw
  | tail _ hchange ih => exact hchange.filled hL ih

theorem Changes.stocked (hL : Ty.Hereditary L) (h : Changes aliases L w w')
    (hw : Stocked aliases L w) : Stocked aliases L w' := by
  induction h with
  | refl => exact hw
  | tail _ hchange ih => exact hchange.stocked hL ih

theorem Changes.subset (h : Changes aliases L w w') : w.2 ⊆ w'.2 :=
  h.moves.subset

theorem Changes.extends (h : Changes aliases L w w') : w.1.Extends w'.1 :=
  h.moves.extends

end Store

end ElmInference
