import ElmInference.Store.Flatten
import ElmInference.Proofs.Store.Walks

/-!
# Flattened records

`flatten` follows a record down its chain of bases. `FlattensTo` says the same as a relation, and what
holds of the fields and the end of a flattened record is shown by induction over it.
-/

namespace ElmInference

namespace Store

open Relation

/-- Types at which a chain of bases stops without an end of its own. -/
def isBaseless : Ty → Bool
  | .record _ _ _ _ | .growing _ | .var _ | .unknown => false
  | _ => true

/-- What a type flattens to, below fields that were collected already. -/
inductive FlattensTo (s : Store) : Ty → List (Name × Ty) → Flattened → Prop
  | closed {fields above : List (Name × Ty)} {w : Option (AliasUse Ty)} {refs : FieldReferences} :
      FlattensTo s (.record fields none w refs) above ⟨Ty.addFields above fields, .closed⟩
  | base {fields above : List (Name × Ty)} {b : Ty} {w : Option (AliasUse Ty)}
      {refs : FieldReferences} {f : Flattened} :
      FlattensTo s b (Ty.addFields above fields) f →
      FlattensTo s (.record fields (some b) w refs) above f
  | growing {id : RecordId} {g : GrowingRecord} {above : List (Name × Ty)} {f : Flattened} :
      s.records[id]? = some g → FlattensTo s g.base (Ty.addFields above g.fields) f →
      FlattensTo s (.growing id) above f
  | unsolved {v : TyVar} {above : List (Name × Ty)} :
      s.Unsolved v.id → FlattensTo s (.var v) above ⟨above, .opened v⟩
  | solved {v : TyVar} {t : Ty} {above : List (Name × Ty)} {f : Flattened} :
      s.solution? v.id = some t → FlattensTo s t above f → FlattensTo s (.var v) above f
  | unknown {above : List (Name × Ty)} : FlattensTo s .unknown above ⟨above, .unknown⟩
  | baseless {t : Ty} {above : List (Name × Ty)} :
      isBaseless t = true → FlattensTo s t above ⟨above, .closed⟩

variable {s : Store}

theorem flattensTo_of_flattenWith {follow : Ty → List (Name × Ty) → Except Fault Flattened}
    (hfollow : ∀ t above f, follow t above = .ok f → s.FlattensTo t above f) {t : Ty}
    {above : List (Name × Ty)} {f : Flattened} (h : s.flattenWith follow t above = .ok f) :
    s.FlattensTo t above f := by
  induction t using Ty.inductParts generalizing above with
  | record fields base w refs _ ihb _ =>
    cases base with
    | none =>
      rw [flattenWith] at h
      cases h
      exact .closed
    | some b =>
      rw [flattenWith] at h
      exact .base (ihb b rfl h)
  | growing id =>
    rw [flattenWith] at h
    cases hrec : s.records[id]? with
    | none =>
      simp only [record, hrec] at h
      cases h
    | some g =>
      rw [record_of_some hrec] at h
      exact .growing hrec (hfollow _ _ _ h)
  | var v =>
    rw [flattenWith] at h
    by_cases hlt : v.id < s.size
    · rcases unsolved_or_some hlt with hun | ⟨u, hsol⟩
      · rw [hun.solution_eq] at h
        cases h
        exact .unsolved hun
      · rw [solution_of_some hsol] at h
        exact .solved hsol (hfollow _ _ _ h)
    · rw [solution_of_ge (Nat.le_of_not_lt hlt)] at h
      cases h
  | unknown =>
    rw [flattenWith] at h
    cases h
    exact .unknown
  | unit | inProgress | union | tuple | arrow =>
    simp only [flattenWith] at h
    cases h
    exact .baseless rfl

theorem flattensTo_of_flattenAt {n : Nat} {t : Ty} {above : List (Name × Ty)} {f : Flattened}
    (h : s.flattenAt n t above = .ok f) : s.FlattensTo t above f := by
  induction n generalizing t above f with
  | zero => exact flattensTo_of_flattenWith (fun _ _ _ hf => by cases hf) h
  | succ n ih => exact flattensTo_of_flattenWith (fun _ _ _ hf => ih hf) h

theorem flattensTo_of_flatten {t : Ty} {f : Flattened} (h : s.flatten t = .ok f) :
    s.FlattensTo t [] f :=
  flattensTo_of_flattenAt h

theorem exists_flattenWith (hloop : s.Loopfree false) (hclosed : s.Closed)
    {follow : Ty → List (Name × Ty) → Except Fault Flattened} {t : Ty} (above : List (Name × Ty))
    (ht : s.Owns t) (hfollow : ∀ u above, s.Owns u → s.rank false u < s.rank false t →
      ∃ f, follow u above = .ok f) : ∃ f, s.flattenWith follow t above = .ok f := by
  induction t using Ty.inductParts generalizing above with
  | record fields base w refs _ ihb _ =>
    cases base with
    | none => exact ⟨_, rfl⟩
    | some b =>
      rw [flattenWith]
      exact ihb b rfl _ (ht.child .base hclosed)
        (fun u above hu hrank => hfollow u above hu (rank_lt_of_child .base hrank))
  | growing id =>
    obtain ⟨g, hrec⟩ := exists_record ht.growing_lt
    rw [flattenWith, record_of_some hrec]
    exact hfollow _ _ (hclosed.owns_base hrec) (rank_base_lt hloop hrec)
  | var v =>
    rw [flattenWith]
    rcases unsolved_or_some ht.var_lt with hun | ⟨u, hsol⟩
    · rw [hun.solution_eq]
      exact ⟨_, rfl⟩
    · rw [solution_of_some hsol]
      exact hfollow _ _ (hclosed.owns_solution hsol) (rank_solution_lt hloop hsol)
  | unknown => exact ⟨_, rfl⟩
  | unit | inProgress | union | tuple | arrow => exact ⟨_, by simp only [flattenWith]; rfl⟩

theorem exists_flattenAt (hloop : s.Loopfree false) (hclosed : s.Closed) {n : Nat} {t : Ty}
    (above : List (Name × Ty)) (ht : s.Owns t) (hrank : s.rank false t ≤ n) :
    ∃ f, s.flattenAt n t above = .ok f := by
  induction n generalizing t above with
  | zero => exact exists_flattenWith hloop hclosed above ht (fun u _ _ hu => by omega)
  | succ n ih =>
    exact exists_flattenWith hloop hclosed above ht (fun u above hown hu => ih above hown (by omega))

theorem exists_flatten (hloop : s.Loopfree false) (hclosed : s.Closed) {t : Ty} (ht : s.Owns t) :
    ∃ f, s.flatten t = .ok f :=
  exists_flattenAt hloop hclosed [] ht (s.rank_le_crossings false t)

end Store

/-! ### What a flattened record mentions -/

structure Flattened.Within (f : Flattened) (Q : Mention → Prop) : Prop where
  field : ∀ m ∈ Ty.mentionsFields false f.fields, Q m
  tail : ∀ m ∈ f.tail.toTy.mentions false, Q m

namespace Store

variable {s : Store}

theorem mentions_addFields {Q : Mention → Prop} {above fields : List (Name × Ty)}
    (habove : ∀ m ∈ Ty.mentionsFields false above, Q m)
    (hfields : ∀ m ∈ Ty.mentionsFields false fields, Q m) :
    ∀ m ∈ Ty.mentionsFields false (Ty.addFields above fields), Q m := by
  intro m hm
  obtain ⟨field, hfield, hm⟩ := Ty.mem_mentionsFields.mp hm
  rcases Ty.mem_addFields hfield with hfield | hfield
  · exact habove m (Ty.mem_mentionsFields.mpr ⟨field, hfield, hm⟩)
  · exact hfields m (Ty.mem_mentionsFields.mpr ⟨field, hfield, hm⟩)

namespace FlattensTo

theorem within {Q : Mention → Prop} (hkeeps : s.Keeps Q) {t : Ty} {above : List (Name × Ty)}
    {f : Flattened} (h : s.FlattensTo t above f) (ht : ∀ m ∈ t.mentions false, Q m)
    (habove : ∀ m ∈ Ty.mentionsFields false above, Q m) : f.Within Q := by
  induction h with
  | closed =>
    refine ⟨mentions_addFields habove (fun m hm => ht m ?_), ?_⟩
    · simp [Ty.mentions, hm]
    · simp [Tail.toTy, Ty.emptyRecord, Ty.mentions, Ty.mentionsFields, Ty.mentionsBase]
  | base _ ih =>
    refine ih (fun m hm => ht m ?_) (mentions_addFields habove (fun m hm => ht m ?_))
    · simp [Ty.mentions, Ty.mentionsBase, hm]
    · simp [Ty.mentions, hm]
  | growing hrec _ ih =>
    have hlinks := hkeeps.record _ _ (ht _ (by simp [Ty.mentions])) hrec
    exact ih (fun m hm => hlinks m (List.mem_append_right _ hm))
      (mentions_addFields habove (fun m hm => hlinks m (List.mem_append_left _ hm)))
  | unsolved _ => exact ⟨habove, ht⟩
  | solved hsol _ ih =>
    exact ih (hkeeps.solution _ _ (ht _ (by simp [Ty.mentions])) hsol) habove
  | unknown => exact ⟨habove, ht⟩
  | baseless _ =>
    refine ⟨habove, ?_⟩
    simp [Tail.toTy, Ty.emptyRecord, Ty.mentions, Ty.mentionsFields, Ty.mentionsBase]

/-- An open end is an unsolved variable. -/
theorem unsolved_tail {t : Ty} {above : List (Name × Ty)} {f : Flattened} {v : TyVar}
    (h : s.FlattensTo t above f) (htail : f.tail = .opened v) : s.Unsolved v.id := by
  induction h with
  | closed => cases htail
  | base _ ih => exact ih htail
  | growing _ _ ih => exact ih htail
  | unsolved hun =>
    cases htail
    exact hun
  | solved _ _ ih => exact ih htail
  | unknown => cases htail
  | baseless _ => cases htail

end FlattensTo

end Store

end ElmInference
