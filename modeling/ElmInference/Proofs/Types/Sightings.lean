import ElmInference.FieldReferences
import Mathlib.Data.List.Nodup

/-!
# Sightings of fields

A table of field references is what a sequence of sightings leaves: one entry for each field, in order of first
sighting. Merging two tables tells the first one all that the second one has been told. A table that sightings have
filled may be told of a third one before or after it is told of to the first.
-/

namespace ElmInference

namespace FieldReferences

/-- Whether a table has one entry for a field, and entries for fields that were seen only. -/
structure Orderly (r : FieldReferences) : Prop where
  nodup : (r.entries.map Prod.fst).Nodup
  seen : ∀ entry ∈ r.entries, entry.2 ≠ []

theorem orderly_empty : empty.Orderly :=
  ⟨List.nodup_nil, nofun⟩

def sightings (r : FieldReferences) : List (Name × Nat) :=
  r.entries.flatMap (fun entry => entry.2.map (fun pos => (entry.1, pos)))

def addAll (r : FieldReferences) (more : List (Name × Nat)) : FieldReferences :=
  more.foldl (fun acc sighting => acc.add sighting.1 sighting.2) r

theorem addAll_append (r : FieldReferences) (more others : List (Name × Nat)) :
    r.addAll (more ++ others) = (r.addAll more).addAll others :=
  List.foldl_append

theorem extend_eq_addAll (r other : FieldReferences) : r.extend other = r.addAll other.sightings := by
  rw [extend, addAll, sightings, List.foldl_flatMap]
  refine congrArg (fun f => List.foldl f r other.entries) (funext fun acc => funext fun entry => ?_)
  rw [List.foldl_map]

variable {r a b : FieldReferences} {field other : Name} {pos pos' : Nat} {more : List (Name × Nat)}

theorem mem_names_addEntry {entries : Assoc Name (List Nat)} :
    other ∈ (addEntry entries field pos).map Prod.fst ↔ other ∈ entries.map Prod.fst ∨ other = field := by
  induction entries with
  | nil => simp [addEntry]
  | cons entry rest ih =>
    rw [addEntry]
    split
    · next heq => simp [heq, or_right_comm]
    · rw [List.map_cons, List.mem_cons, ih, List.map_cons, List.mem_cons, or_assoc]

theorem Orderly.add (h : r.Orderly) (field : Name) (pos : Nat) : (r.add field pos).Orderly := by
  obtain ⟨entries⟩ := r
  obtain ⟨hnodup, hseen⟩ := h
  induction entries with
  | nil => exact ⟨by simp [FieldReferences.add, addEntry], by simp [FieldReferences.add, addEntry]⟩
  | cons entry rest ih =>
    obtain ⟨name, positions⟩ := entry
    obtain ⟨hfirst, hseen⟩ := List.forall_mem_cons.mp hseen
    obtain ⟨hnew, hnodup⟩ := List.nodup_cons.mp hnodup
    by_cases hname : name = field
    · have hsee : see positions pos ≠ [] := by
        unfold see
        split
        · exact hfirst
        · simp
      have hadd : FieldReferences.add ⟨(name, positions) :: rest⟩ field pos = ⟨(name, see positions pos) :: rest⟩ := by
        rw [FieldReferences.add, addEntry, if_pos hname]
      rw [hadd]
      exact ⟨List.nodup_cons.mpr ⟨hnew, hnodup⟩, List.forall_mem_cons.mpr ⟨hsee, hseen⟩⟩
    · obtain ⟨hnodup', hseen'⟩ := ih hnodup hseen
      have hadd : FieldReferences.add ⟨(name, positions) :: rest⟩ field pos =
          ⟨(name, positions) :: addEntry rest field pos⟩ := by
        rw [FieldReferences.add, addEntry, if_neg hname]
      rw [hadd]
      refine ⟨List.nodup_cons.mpr ⟨fun hmem => ?_, hnodup'⟩, List.forall_mem_cons.mpr ⟨hfirst, hseen'⟩⟩
      rcases mem_names_addEntry.mp hmem with hmem | heq
      · exact hnew hmem
      · exact hname heq

theorem Orderly.addAll (h : r.Orderly) (more : List (Name × Nat)) : (r.addAll more).Orderly := by
  induction more generalizing r with
  | nil => exact h
  | cons sighting rest ih => exact ih (h.add _ _)

theorem Orderly.merge (ha : a.Orderly) (hb : b.Orderly) : (a.merge b).Orderly := by
  unfold FieldReferences.merge
  split
  · exact ha
  · split
    · exact hb
    · rw [extend_eq_addAll]
      exact ha.addAll _

/-- A sighting that is known is not recorded again. -/
theorem add_of_mem (h : pos ∈ r.get field) : r.add field pos = r := by
  obtain ⟨entries⟩ := r
  refine congrArg FieldReferences.mk ?_
  rw [get] at h
  induction entries with
  | nil => cases h
  | cons entry rest ih =>
    rw [Assoc.get?] at h
    rw [addEntry]
    by_cases hname : entry.1 = field
    · rw [if_pos hname] at h ⊢
      rw [Option.getD_some] at h
      rw [see, if_pos h]
    · rw [if_neg hname] at h ⊢
      rw [ih h]

/-- A sighting of a field changes what that field is known by, and nothing else. -/
theorem get_add (r : FieldReferences) (other : Name) (pos : Nat) (field : Name) :
    (r.add other pos).get field = if other = field then see (r.get field) pos else r.get field := by
  obtain ⟨entries⟩ := r
  simp only [FieldReferences.add, get]
  induction entries with
  | nil =>
    simp only [addEntry, Assoc.get?]
    split <;> rfl
  | cons entry rest ih =>
    obtain ⟨name, positions⟩ := entry
    rw [addEntry]
    by_cases hother : name = other
    · by_cases hfield : other = field <;> simp [Assoc.get?, hother, hfield]
    · by_cases hname : name = field
      · have hne : field ≠ other := hname ▸ hother
        simp [Assoc.get?, hname, hne, Ne.symm hne]
      · simpa [Assoc.get?, hother, hname] using ih

theorem mem_see {positions : List Nat} : pos ∈ see positions pos' ↔ pos ∈ positions ∨ pos = pos' := by
  unfold see
  split
  · next hknown => exact ⟨.inl, fun h => h.elim id (· ▸ hknown)⟩
  · simp

theorem mem_get_add : pos ∈ (r.add other pos').get field ↔ pos ∈ r.get field ∨ (field, pos) = (other, pos') := by
  rw [get_add, Prod.mk.injEq]
  split
  · next heq => simp [heq, mem_see]
  · next hne => simp [Ne.symm hne]

theorem mem_get_addAll : pos ∈ (r.addAll more).get field ↔ pos ∈ r.get field ∨ (field, pos) ∈ more := by
  induction more generalizing r with
  | nil => simp [addAll]
  | cons sighting rest ih => exact ih.trans (by rw [mem_get_add, List.mem_cons, or_assoc])

/-- Sightings of different fields may come in either order when one of the fields has been seen before. -/
theorem add_add_of_ne (hseen : field ∈ r.entries.map Prod.fst) (hne : other ≠ field) :
    (r.add other pos').add field pos = (r.add field pos).add other pos' := by
  obtain ⟨entries⟩ := r
  refine congrArg FieldReferences.mk ?_
  change addEntry (addEntry entries other pos') field pos = addEntry (addEntry entries field pos) other pos'
  induction entries with
  | nil => cases hseen
  | cons entry rest ih =>
    obtain ⟨name, positions⟩ := entry
    by_cases hname : name = field
    · simp [addEntry, hname, Ne.symm hne]
    · have hrest : field ∈ rest.map Prod.fst := (List.mem_cons.mp hseen).resolve_left (Ne.symm hname)
      by_cases hother : name = other
      · simp [addEntry, hother, hne]
      · simp [addEntry, hname, hother, ih hrest]

theorem addAll_add (hseen : field ∈ r.entries.map Prod.fst) (hne : ∀ sighting ∈ more, sighting.1 ≠ field) :
    (r.addAll more).add field pos = (r.add field pos).addAll more := by
  induction more generalizing r with
  | nil => rfl
  | cons sighting rest ih =>
    obtain ⟨hfirst, hrest⟩ := List.forall_mem_cons.mp hne
    change ((r.add sighting.1 sighting.2).addAll rest).add field pos =
      ((r.add field pos).add sighting.1 sighting.2).addAll rest
    have hseen' : field ∈ (r.add sighting.1 sighting.2).entries.map Prod.fst := mem_names_addEntry.mpr (.inl hseen)
    rw [ih hseen' hrest, add_add_of_ne hseen hfirst]

theorem mem_names_addAll_self {positions : List Nat} (hne : positions ≠ []) :
    field ∈ (r.addAll (positions.map (fun pos => (field, pos)))).entries.map Prod.fst := by
  have hkept : ∀ (r : FieldReferences) (positions : List Nat), field ∈ r.entries.map Prod.fst →
      field ∈ (r.addAll (positions.map (fun pos => (field, pos)))).entries.map Prod.fst := by
    intro r positions
    induction positions generalizing r with
    | nil => exact id
    | cons first rest ih => exact fun h => ih _ (mem_names_addEntry.mpr (.inl h))
  cases positions with
  | nil => exact absurd rfl hne
  | cons first rest => exact hkept _ rest (mem_names_addEntry.mpr (.inr rfl))

/-- It does not matter whether a table is told something before or after another one is told of the table. -/
theorem extend_add (a : FieldReferences) (hb : b.Orderly) (field : Name) (pos : Nat) :
    a.extend (b.add field pos) = (a.extend b).add field pos := by
  rw [extend_eq_addAll, extend_eq_addAll]
  obtain ⟨entries⟩ := b
  obtain ⟨hnodup, hseen⟩ := hb
  induction entries generalizing a with
  | nil => rfl
  | cons entry rest ih =>
    obtain ⟨name, positions⟩ := entry
    obtain ⟨hfirst, hseen⟩ := List.forall_mem_cons.mp hseen
    obtain ⟨hnew, hnodup⟩ := List.nodup_cons.mp hnodup
    have hcons : ∀ (positions : List Nat) (rest : Assoc Name (List Nat)),
        a.addAll (sightings ⟨(name, positions) :: rest⟩) =
          (a.addAll (positions.map (fun pos => (name, pos)))).addAll (sightings ⟨rest⟩) :=
      fun positions rest => addAll_append _ _ _
    by_cases hname : name = field
    · subst hname
      have hadd : FieldReferences.add ⟨(name, positions) :: rest⟩ name pos = ⟨(name, see positions pos) :: rest⟩ := by
        rw [FieldReferences.add, addEntry, if_pos rfl]
      rw [hadd, hcons, hcons]
      by_cases hmem : pos ∈ positions
      · rw [see, if_pos hmem]
        refine (add_of_mem (mem_get_addAll.mpr (.inl (mem_get_addAll.mpr (.inr ?_))))).symm
        exact List.mem_map.mpr ⟨pos, hmem, rfl⟩
      · rw [see, if_neg hmem, List.map_append, addAll_append]
        refine (addAll_add (mem_names_addAll_self hfirst) fun sighting hsighting heq => hnew ?_).symm
        obtain ⟨entry, hentry, hposition⟩ := List.mem_flatMap.mp hsighting
        obtain ⟨_, -, rfl⟩ := List.mem_map.mp hposition
        exact List.mem_map.mpr ⟨entry, hentry, heq⟩
    · have hadd : FieldReferences.add ⟨(name, positions) :: rest⟩ field pos =
          ⟨(name, positions) :: addEntry rest field pos⟩ := by
        rw [FieldReferences.add, addEntry, if_neg hname]
      rw [hadd, hcons, hcons]
      exact ih _ hnodup hseen

theorem extend_extend (a : FieldReferences) (hb : b.Orderly) (c : FieldReferences) :
    (a.extend b).extend c = a.extend (b.extend c) := by
  have hmore : ∀ (more : List (Name × Nat)) {b : FieldReferences}, b.Orderly →
      (a.extend b).addAll more = a.extend (b.addAll more) := by
    intro more
    induction more with
    | nil => exact fun _ => rfl
    | cons sighting rest ih =>
      intro b hb
      change ((a.extend b).add sighting.1 sighting.2).addAll rest = a.extend ((b.add sighting.1 sighting.2).addAll rest)
      rw [← extend_add a hb, ih (hb.add _ _)]
  rw [extend_eq_addAll _ c, hmore _ hb, extend_eq_addAll b c]

theorem isEmpty_addAll (hne : r.isEmpty = false) (more : List (Name × Nat)) : (r.addAll more).isEmpty = false := by
  have hadd : ∀ (r : FieldReferences) (field : Name) (pos : Nat), (r.add field pos).isEmpty = false := by
    rintro ⟨_ | ⟨entry, rest⟩⟩ field pos
    · rfl
    · rw [FieldReferences.add, addEntry]
      split <;> rfl
  induction more generalizing r with
  | nil => exact hne
  | cons sighting rest ih => exact ih (hadd _ _ _)

theorem eq_empty_of_isEmpty (h : r.isEmpty = true) : r = empty := by
  obtain ⟨entries⟩ := r
  exact congrArg FieldReferences.mk (List.isEmpty_iff.mp h)

/-- Merging is associative, as long as the table in the middle is one that sightings have filled. -/
theorem merge_merge (a : FieldReferences) (hb : b.Orderly) (c : FieldReferences) :
    (a.merge b).merge c = a.merge (b.merge c) := by
  by_cases hc : c.isEmpty = true
  · rw [eq_empty_of_isEmpty hc, merge_empty, merge_empty]
  by_cases hbe : b.isEmpty = true
  · rw [eq_empty_of_isEmpty hbe, merge_empty, empty_merge]
  by_cases ha : a.isEmpty = true
  · rw [eq_empty_of_isEmpty ha, empty_merge, empty_merge]
  rw [Bool.not_eq_true] at hc hbe ha
  have hab : (a.extend b).isEmpty = false := by
    rw [extend_eq_addAll]
    exact isEmpty_addAll ha _
  have hbc : (b.extend c).isEmpty = false := by
    rw [extend_eq_addAll]
    exact isEmpty_addAll hbe _
  simp only [merge, ha, hbe, hc, hab, hbc, Bool.false_eq_true, if_false]
  exact extend_extend a hb c

end FieldReferences

end ElmInference
