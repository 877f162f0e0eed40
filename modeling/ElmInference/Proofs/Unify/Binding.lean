import ElmInference.Proofs.Unify.Constraining
import ElmInference.Proofs.Store.Rows

/-!
# The places where a variable is solved

Besides joining, unification solves a variable in three places: when it meets a type that is not a
variable, when a record is closed, and when a record grows by the fields another one has. Each place gets
a relation that lists how it can end. In the first one a fault is impossible, since constraining the type
solves no variable that the occurs check would not find. The other two solve the end of a record that was
looked up before the fields were unified, and this end may have been solved in the meantime.
-/

namespace ElmInference

def Ty.Within (t : Ty) (Q : Set Mention) : Prop :=
  ∀ r ∈ t.mentions false, r ∈ Q

namespace Ty

variable {Q Q' : Set Mention}

theorem Within.mono {t : Ty} (h : t.Within Q) (hQ : Q ⊆ Q') : t.Within Q' :=
  fun r hr => hQ (h r hr)

theorem within_var {v : TyVar} : (Ty.var v).Within Q ↔ .var v ∈ Q := by
  simp [Within, mentions]

theorem within_growing {id : RecordId} : (Ty.growing id).Within Q ↔ .record id ∈ Q := by
  simp [Within, mentions]

theorem within_tuple {items : List Ty} : (Ty.tuple items).Within Q ↔ ∀ t ∈ items, t.Within Q := by
  simp only [Within, mentions, mem_mentionsList]
  constructor
  · intro h t ht r hr
    exact h r ⟨t, ht, hr⟩
  · rintro h r ⟨t, ht, hr⟩
    exact h t ht r hr

theorem within_union {m n : Name} {args : List Ty} {w : Option (AliasUse Ty)} :
    (Ty.union m n args w).Within Q ↔ ∀ t ∈ args, t.Within Q := by
  simp only [Within, mentions, mentionsAlias_false, List.append_nil, mem_mentionsList]
  constructor
  · intro h t ht r hr
    exact h r ⟨t, ht, hr⟩
  · rintro h r ⟨t, ht, hr⟩
    exact h t ht r hr

theorem within_arrow {params : List Ty} {ret : Ty} {w : Option (AliasUse Ty)} :
    (Ty.arrow params ret w).Within Q ↔ (∀ t ∈ params, t.Within Q) ∧ ret.Within Q := by
  simp only [Within, mentions, mentionsAlias_false, List.append_nil, List.mem_append,
    mem_mentionsList]
  refine ⟨fun h => ⟨fun t ht r hr => h r (.inl ⟨t, ht, hr⟩), fun r hr => h r (.inr hr)⟩, ?_⟩
  rintro ⟨hparams, hret⟩ r (⟨t, ht, hr⟩ | hr)
  · exact hparams t ht r hr
  · exact hret r hr

theorem within_dropParams {params : List Ty} {ret : Ty} {w : Option (AliasUse Ty)} (count : Nat)
    (h : (Ty.arrow params ret w).Within Q) : (dropParams params ret count).Within Q := by
  intro r hr
  refine h r ?_
  simpa only [mentions, mentionsAlias_false, List.append_nil] using
    mentions_dropParams_subset params ret count hr

theorem within_extension {base : Ty} {fields : List (Name × Ty)}
    (hfields : ∀ r ∈ mentionsFields false fields, r ∈ Q) (hbase : base.Within Q) :
    (extension base fields).Within Q := by
  intro r hr
  rcases List.mem_append.mp (mentions_extension_subset base fields hr) with hr | hr
  · exact hfields r hr
  · exact hbase r hr

end Ty

namespace StoreM

open Store Relation

variable {s s₁ s' : Store}

/-! ### Constraints on the way -/

theorem restrains_constrainLike {v : TyVar} {t : Ty} {o : Outcome}
    (h : constrainLike v t s = .ok (o, s')) : Restrains s t s' := by
  unfold constrainLike at h
  cases hc : v.typeclass with
  | none =>
    rw [hc] at h
    cases h
    exact .refl s t
  | some c =>
    rw [hc] at h
    exact restrains_constrainAt _ c t h

theorem exists_constrainLike (hloop : s.Loopfree false) (hclosed : s.Closed) (v : TyVar) {t : Ty}
    (ht : s.Owns t) : ∃ o s', constrainLike v t s = .ok (o, s') := by
  unfold constrainLike
  cases v.typeclass with
  | none => exact ⟨_, s, rfl⟩
  | some c => exact exists_constrain hloop hclosed c ht

/-! ### A variable meets a type -/

/-- Whether a type is a record with a base, which is copied when a variable is solved by it. -/
def isExtension : Ty → Bool
  | .record _ (some _) _ _ => true
  | _ => false

inductive Bound (s : Store) (v : TyVar) (t : Ty) : Outcome → Store → Prop
  | rigid : v.rigid = true → Bound s v t .mismatch s
  | refused {e : UnifyError} {s₁ : Store} : v.rigid = false →
      constrainLike v t s = .ok (.error e, s₁) → Bound s v t (.error e) s₁
  | infinite {s₁ : Store} : v.rigid = false → constrainLike v t s = .ok (.ok (), s₁) →
      s₁.Leads false t (.var v.id) → Bound s v t (.error .infiniteType) s₁
  | solved {s₁ : Store} : v.rigid = false → constrainLike v t s = .ok (.ok (), s₁) →
      s₁.Unsolved v.id → ¬ s₁.Leads false t (.var v.id) → isExtension t = false →
      Bound s v t (.ok ()) (s₁.solved v.id t)
  | copied {s₁ : Store} {fields : List (Name × Ty)} {base : Ty} {w : Option (AliasUse Ty)}
      {refs : FieldReferences} : t = .record fields (some base) w refs → v.rigid = false →
      constrainLike v t s = .ok (.ok (), s₁) → s₁.Unsolved v.id →
      ¬ s₁.Leads false t (.var v.id) → Bound s v t (.ok ())
        ((s₁.recorded { fields, base, refs }).solved v.id (.growing s₁.records.size))

theorem run_solveBy_of_occurs {v : TyVar} {t : Ty} (hoccurs : s.occurs v.id t = .ok true) :
    solveBy v t s = .ok (.error .infiniteType, s) := by
  unfold solveBy
  rw [run_bind_ok (run_read_ok hoccurs)]
  rfl

theorem run_solveBy_record {v : TyVar} {fields : List (Name × Ty)} {base : Ty}
    {w : Option (AliasUse Ty)} {refs : FieldReferences} (hun : s.Unsolved v.id)
    (hoccurs : s.occurs v.id (.record fields (some base) w refs) = .ok false) :
    solveBy v (.record fields (some base) w refs) s =
      .ok (.ok (), (s.recorded { fields, base, refs }).solved v.id (.growing s.records.size)) := by
  unfold solveBy
  rw [run_bind_ok (run_read_ok hoccurs), if_neg (by simp)]
  exact run_solve _ hun

theorem run_solveBy_other {v : TyVar} {t : Ty} (hun : s.Unsolved v.id)
    (hoccurs : s.occurs v.id t = .ok false) (ht : isExtension t = false) :
    solveBy v t s = .ok (.ok (), s.solved v.id t) := by
  unfold solveBy
  rw [run_bind_ok (run_read_ok hoccurs), if_neg (by simp)]
  clear hoccurs
  split
  · cases ht
  · exact run_solve _ hun

/-- A variable meets a type without a fault. -/
theorem bound_unifyVar {Q : Set Mention} (htidy : Tidy (s, Q)) {v : TyVar} {t : Ty}
    (hv : s.Unsolved v.id) (ht : t.Within Q) :
    ∃ o s', unifyVar v t s = .ok (o, s') ∧ Bound s v t o s' := by
  unfold unifyVar
  cases hrigid : v.rigid with
  | true => exact ⟨_, s, rfl, .rigid hrigid⟩
  | false =>
    rw [if_neg (by simp)]
    obtain ⟨o, s₁, hrun⟩ := exists_constrainLike htidy.loopfree htidy.closed v (htidy.owns ht)
    rw [run_bind_ok hrun]
    rcases o with e | ⟨⟩
    · exact ⟨_, s₁, rfl, .refused hrigid hrun⟩
    have hrestrains := restrains_constrainLike hrun
    obtain ⟨Q₁, hmoves⟩ := hrestrains.moves Q htidy ht
    have htidy₁ := hmoves.tidy htidy
    obtain ⟨b, hoccurs⟩ := exists_occurs htidy₁.loopfree htidy₁.closed v.id
      (htidy₁.owns (ht.mono hmoves.subset))
    have hleads := occurs_iff hoccurs
    cases b with
    | true =>
      exact ⟨_, s₁, run_solveBy_of_occurs hoccurs, .infinite hrigid hrun (hleads.mp rfl)⟩
    | false =>
      have hnot : ¬ s₁.Leads false t (.var v.id) := fun h => by simpa using hleads.mpr h
      -- constraining solves only what the occurs check would have found
      have hun : s₁.Unsolved v.id :=
        (hrestrains.calm.unsolved v hv).resolve_right (fun h => hnot h.1)
      cases hext : isExtension t with
      | false => exact ⟨_, _, run_solveBy_other hun hoccurs hext, .solved hrigid hrun hun hnot hext⟩
      | true =>
        unfold isExtension at hext
        split at hext
        · exact ⟨_, _, run_solveBy_record hun hoccurs, .copied rfl hrigid hrun hun hnot⟩
        · cases hext

/-- A copy leads where the record leads that it was made of. -/
theorem leads_of_copy (hclosed : s.Closed) {g : GrowingRecord} {n : Node}
    (hlinks : ∀ r ∈ g.links false, s.Has r)
    (h : (s.recorded g).Leads false (.growing s.records.size) n) :
    n = .record s.records.size ∨ ∃ r ∈ g.links false, ∃ m, r.node? = some m ∧
      ReflTransGen (s.Edge false) m n := by
  rcases reflTransGen_iff_eq_or_transGen.mp (leads_growing_iff.mp h) with rfl | hpath
  · exact .inl rfl
  · obtain ⟨m, ⟨r, hr, hnode⟩, hrest⟩ := TransGen.head'_iff.mp hpath
    rw [links, record?_recorded_self] at hr
    have hm : s.HasNode m := hasNode_of_has (hlinks r hr) hnode
    exact .inr ⟨r, hr, m, hnode, (path_recorded hclosed hm hrest).1⟩

theorem links_of_record {fields : List (Name × Ty)} {base : Ty} {w : Option (AliasUse Ty)}
    {refs : FieldReferences} : GrowingRecord.links false { fields, base, refs } =
      (Ty.record fields (some base) w refs).mentions false := by
  simp [GrowingRecord.links, Ty.mentions, Ty.mentionsBase]

/-- The occurs check on a record holds for its copy as well. -/
theorem not_leads_copy (hclosed : s.Closed) {fields : List (Name × Ty)} {base : Ty}
    {w : Option (AliasUse Ty)} {refs : FieldReferences} {id : VarId}
    (hown : s.Owns (.record fields (some base) w refs))
    (hnot : ¬ s.Leads false (.record fields (some base) w refs) (.var id)) :
    ¬ (s.recorded { fields, base, refs }).Leads false (.growing s.records.size) (.var id) := by
  intro hleads
  have hlinks : ∀ r ∈ GrowingRecord.links false { fields, base, refs }, s.Has r := by
    intro r hr
    exact hown r (links_of_record (w := w) ▸ hr)
  rcases leads_of_copy hclosed hlinks hleads with heq | ⟨r, hr, m, hnode, hpath⟩
  · cases heq
  · exact hnot ⟨m, ⟨r, links_of_record (w := w) ▸ hr, hnode⟩, hpath⟩

theorem Bound.moves {Q : Set Mention} (htidy : Tidy (s, Q)) {v : TyVar} {t : Ty} {o : Outcome}
    (hvQ : .var v ∈ Q) (ht : t.Within Q) (h : Bound s v t o s') : ∃ Q', Moves (s, Q) (s', Q') := by
  cases h with
  | rigid _ => exact ⟨Q, .refl⟩
  | refused _ hrun => exact (restrains_constrainLike hrun).moves Q htidy ht
  | infinite _ hrun _ => exact (restrains_constrainLike hrun).moves Q htidy ht
  | solved hrigid hrun hun hnot _ =>
    obtain ⟨Q₁, hmoves⟩ := (restrains_constrainLike hrun).moves Q htidy ht
    exact ⟨Q₁, hmoves.tail (.solve hun hrigid (hmoves.subset hvQ) (ht.mono hmoves.subset) hnot)⟩
  | @copied s₁ fields base w refs hrecord hrigid hrun hun hnot =>
    obtain ⟨Q₁, hmoves⟩ := (restrains_constrainLike hrun).moves Q htidy ht
    have htidy₁ := hmoves.tidy htidy
    have hlinks : ∀ r ∈ GrowingRecord.links false { fields, base, refs }, r ∈ Q₁ := by
      intro r hr
      rw [links_of_record (w := w)] at hr
      exact hmoves.subset (ht r (hrecord ▸ hr))
    have hcopy : Moves (s, Q) _ := hmoves.tail (.copy (g := { fields, base, refs }) hlinks)
    refine ⟨_, hcopy.tail (.solve ?_ hrigid (Moves.subset hcopy hvQ) ?_ ?_)⟩
    · exact ⟨by simpa using hun.1, by simpa using hun.2⟩
    · exact Ty.within_growing.mpr (Set.mem_insert _ _)
    · exact not_leads_copy htidy₁.closed (htidy₁.owns (hrecord ▸ ht.mono hmoves.subset)) (hrecord ▸ hnot)

/-! ### Records that grow -/

inductive Grown (s : Store) (tail : Tail) (fields : List (Name × Ty)) (rest : Ty) :
    Ending Outcome → Prop
  | unknown : tail = .unknown → Grown s tail fields rest (.ok (.ok (), s))
  | closed : tail = .closed → Grown s tail fields rest (.ok (.mismatch, s))
  | rigid {v : TyVar} : tail = .opened v → v.rigid = true →
      Grown s tail fields rest (.ok (.mismatch, s))
  | infinite {v : TyVar} : tail = .opened v → v.rigid = false →
      s.Leads false (Ty.extension rest fields) (.var v.id) →
      Grown s tail fields rest (.ok (.error .infiniteType, s))
  | solved {v : TyVar} : tail = .opened v → v.rigid = false → s.Unsolved v.id →
      ¬ s.Leads false (Ty.extension rest fields) (.var v.id) →
      Grown s tail fields rest (.ok (.ok (), s.solved v.id (Ty.extension rest fields)))
  | bound {v : TyVar} {u : Ty} : tail = .opened v → v.rigid = false → s.solution? v.id = some u →
      ¬ s.Leads false (Ty.extension rest fields) (.var v.id) →
      Grown s tail fields rest (.error (.alreadyBound v.id))

theorem grown_grow (hloop : s.Loopfree false) (hclosed : s.Closed) {tail : Tail}
    {fields : List (Name × Ty)} {rest : Ty} (htail : ∀ v, tail = .opened v → v.id < s.size)
    (hrest : s.Owns (Ty.extension rest fields)) :
    Grown s tail fields rest (grow tail fields rest s) := by
  unfold grow
  cases tail with
  | unknown => exact .unknown rfl
  | closed => exact .closed rfl
  | opened v =>
    cases hrigid : v.rigid with
    | true =>
      simp only [hrigid, if_true]
      exact .rigid rfl hrigid
    | false =>
      simp only [hrigid, Bool.false_eq_true, if_false]
      obtain ⟨b, hoccurs⟩ := exists_occurs hloop hclosed v.id hrest
      have hleads := occurs_iff hoccurs
      rw [run_bind_ok (run_read_ok hoccurs)]
      cases b with
      | true => exact .infinite rfl hrigid (hleads.mp rfl)
      | false =>
        rw [if_neg (by simp)]
        have hnot : ¬ s.Leads false (Ty.extension rest fields) (.var v.id) :=
          fun h => by simpa using hleads.mpr h
        rcases unsolved_or_some (htail v rfl) with hun | ⟨u, hsol⟩
        · rw [run_solve _ hun]
          exact .solved rfl hrigid hun hnot
        · rw [run_solve_some _ hsol]
          exact .bound rfl hrigid hsol hnot

theorem Grown.moves {Q : Set Mention} {tail : Tail} {fields : List (Name × Ty)} {rest : Ty}
    {o : Outcome} (htail : tail.toTy.Within Q) (hrest : (Ty.extension rest fields).Within Q)
    (h : Grown s tail fields rest (.ok (o, s'))) : Moves (s, Q) (s', Q) := by
  cases h with
  | solved heq hrigid hun hnot =>
    subst heq
    exact .single (.solve hun hrigid (Ty.within_var.mp htail) hrest hnot)
  | unknown _ => exact .refl
  | closed _ => exact .refl
  | rigid _ _ => exact .refl
  | infinite _ _ _ => exact .refl

inductive GrownBoth (s : Store) (tail tail' : Tail) (fields fields' : List (Name × Ty)) :
    Ending Outcome → Prop
  | same : sameEnd tail tail' = true → GrownBoth s tail tail' fields fields' (.ok (.mismatch, s))
  | fault {fault : Fault} : sameEnd tail tail' = false →
      Grown s.extended tail fields' (.var ⟨s.size, "a", false⟩) (.error fault) →
      GrownBoth s tail tail' fields fields' (.error fault)
  | first {e : UnifyError} {s₁ : Store} : sameEnd tail tail' = false →
      Grown s.extended tail fields' (.var ⟨s.size, "a", false⟩) (.ok (.error e, s₁)) →
      GrownBoth s tail tail' fields fields' (.ok (.error e, s₁))
  | second {s₁ : Store} {res : Ending Outcome} : sameEnd tail tail' = false →
      Grown s.extended tail fields' (.var ⟨s.size, "a", false⟩) (.ok (.ok (), s₁)) →
      Grown s₁ tail' fields (.var ⟨s.size, "a", false⟩) res →
      GrownBoth s tail tail' fields fields' res

/-- The end that two growing records share from now on. -/
theorem within_shared {Q : Set Mention} {fields : List (Name × Ty)} (id : VarId)
    (hfields : ∀ r ∈ Ty.mentionsFields false fields, r ∈ Q) :
    (Ty.extension (.var ⟨id, "a", false⟩) fields).Within (insert (.var ⟨id, "a", false⟩) Q) :=
  Ty.within_extension (fun r hr => Set.mem_insert_of_mem _ (hfields r hr))
    (Ty.within_var.mpr (Set.mem_insert _ _))

theorem tail_lt {Q : Set Mention} (htidy : Tidy (s, Q)) {tail : Tail} (htail : tail.toTy.Within Q) :
    ∀ v, tail = .opened v → v.id < s.size := by
  rintro v rfl
  exact htidy.owned _ (Ty.within_var.mp htail)

theorem grown_growBoth {Q : Set Mention} (htidy : Tidy (s, Q)) {tail tail' : Tail}
    {fields fields' : List (Name × Ty)} (htail : tail.toTy.Within Q) (htail' : tail'.toTy.Within Q)
    (hfields : ∀ r ∈ Ty.mentionsFields false fields, r ∈ Q)
    (hfields' : ∀ r ∈ Ty.mentionsFields false fields', r ∈ Q) :
    GrownBoth s tail tail' fields fields' (growBoth tail tail' fields fields' s) := by
  unfold growBoth
  cases hsame : sameEnd tail tail' with
  | true => exact .same hsame
  | false =>
    have hfresh : freshVar "a" s = .ok (.var ⟨s.size, "a", false⟩, s.extended) := rfl
    simp only [Bool.false_eq_true, if_false]
    rw [run_bind_ok hfresh]
    have hmove : Moves (s, Q) _ := .single (.fresh "a" false)
    have htidyF := hmove.tidy htidy
    have hfirst := grown_grow htidyF.loopfree htidyF.closed
      (tail_lt htidyF (htail.mono hmove.subset)) (htidyF.owns (within_shared s.size hfields'))
    refine run_bind_cases hfirst (fun _ hfirst => .fault hsame hfirst) fun o s₁ hfirst => ?_
    rcases o with e | ⟨⟩
    · exact .first hsame hfirst
    · have hmove₁ := hfirst.moves (htail.mono hmove.subset) (within_shared s.size hfields')
      have htidy₁ := hmove₁.tidy htidyF
      exact .second hsame hfirst (grown_grow htidy₁.loopfree htidy₁.closed
        (tail_lt htidy₁ (htail'.mono hmove.subset)) (htidy₁.owns (within_shared s.size hfields)))

end StoreM

end ElmInference
