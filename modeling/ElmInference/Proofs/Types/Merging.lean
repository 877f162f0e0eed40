import ElmInference.Proofs.Types.Sightings

/-!
# Merging tables of sightings

Whatever is done to a table, in the end it has been told of some sightings, one after the other. So what holds of the
new table and outlasts one more sighting holds of every table that can be had: each field has one entry, each position
stands in it once, and the table is what a new one becomes that is told of it.

Merging is telling, also where it takes a short cut because one side is empty. It is associative, the new table is its
unit, and a table learns nothing from itself.
-/

namespace ElmInference

namespace FieldReferences

/-- The tables that can be had: a new one, one that is told of a sighting or of another table, and one that two are merged
into. To freeze a table, and to thaw it so that it can be told of more, leaves it what it is. -/
inductive Gathered : FieldReferences → Prop
  | new : Gathered empty
  | add {r : FieldReferences} (field : Name) (pos : Nat) : Gathered r → Gathered (r.add field pos)
  | extend {r other : FieldReferences} : Gathered r → Gathered other → Gathered (r.extend other)
  | merge {r other : FieldReferences} : Gathered r → Gathered other → Gathered (r.merge other)

variable {r a b : FieldReferences}

/-! ### One sighting after the other -/

/-- What holds of the new table and outlasts a sighting holds of every table. -/
theorem Gathered.of_additions {motive : FieldReferences → Prop} (new : motive empty)
    (add : ∀ r field pos, Gathered r → motive r → motive (r.add field pos)) (h : r.Gathered) : motive r := by
  have hall : ∀ (more : List (Name × Nat)) {r : FieldReferences}, r.Gathered → motive r → motive (r.addAll more) := by
    intro more
    induction more with
    | nil => exact fun _ hr => hr
    | cons sighting rest ih => exact fun h hr => ih (h.add _ _) (add _ _ _ h hr)
  induction h with
  | new => exact new
  | add field pos h ih => exact add _ field pos h ih
  | extend h _ ih _ =>
    rw [extend_eq_addAll]
    exact hall _ h ih
  | merge h _ ih ih' =>
    unfold FieldReferences.merge
    split
    · exact ih
    · split
      · exact ih'
      · rw [extend_eq_addAll]
        exact hall _ h ih

theorem Gathered.orderly (h : r.Gathered) : r.Orderly :=
  h.of_additions orderly_empty fun _ field pos _ hr => hr.add field pos

/-! ### What a field is known by -/

theorem get_of_mem (hnodup : (r.entries.map Prod.fst).Nodup) {entry : Name × List Nat} (hentry : entry ∈ r.entries) :
    r.get entry.1 = entry.2 := by
  obtain ⟨entries⟩ := r
  rw [get]
  induction entries with
  | nil => cases hentry
  | cons first rest ih =>
    obtain ⟨hnew, hnodup⟩ := List.nodup_cons.mp hnodup
    rw [Assoc.get?]
    rcases List.mem_cons.mp hentry with rfl | hentry
    · rw [if_pos rfl]
      rfl
    · rw [if_neg fun heq => hnew (List.mem_map.mpr ⟨entry, hentry, heq.symm⟩)]
      exact ih hnodup hentry

theorem nodup_see {positions : List Nat} (h : positions.Nodup) (pos : Nat) : (see positions pos).Nodup := by
  unfold see
  split
  · exact h
  · next hnew => exact h.append (List.nodup_singleton pos) (List.disjoint_singleton.mpr hnew)

/-- No position is kept twice. -/
theorem Gathered.nodup_get (h : r.Gathered) (field : Name) : (r.get field).Nodup := by
  refine h.of_additions (motive := fun r => (r.get field).Nodup) List.nodup_nil fun r other pos _ hr => ?_
  rw [get_add]
  split
  · exact nodup_see hr pos
  · exact hr

/-! ### A table that is told of another one -/

theorem addAll_of_known {more : List (Name × Nat)} (h : ∀ sighting ∈ more, sighting.2 ∈ r.get sighting.1) :
    r.addAll more = r := by
  induction more with
  | nil => rfl
  | cons sighting rest ih =>
    obtain ⟨hfirst, hrest⟩ := List.forall_mem_cons.mp h
    change (r.add sighting.1 sighting.2).addAll rest = r
    rw [add_of_mem hfirst]
    exact ih hrest

/-- A table learns nothing from itself. -/
theorem Orderly.extend_self (h : r.Orderly) : r.extend r = r := by
  rw [extend_eq_addAll]
  refine addAll_of_known fun sighting hsighting => ?_
  obtain ⟨entry, hentry, hsighting⟩ := List.mem_flatMap.mp hsighting
  obtain ⟨pos, hpos, rfl⟩ := List.mem_map.mp hsighting
  rw [get_of_mem h.nodup hentry]
  exact hpos

/-- A new table that is told of another one becomes that one. -/
theorem Gathered.empty_extend (h : r.Gathered) : empty.extend r = r := by
  refine h.of_additions (motive := fun r => empty.extend r = r) rfl fun r field pos hr heq => ?_
  rw [extend_add empty hr.orderly, heq]

theorem filter_see (known positions : List Nat) (pos : Nat) :
    known ++ (see positions pos).filter (· ∉ known) = see (known ++ positions.filter (· ∉ known)) pos := by
  by_cases hpositions : pos ∈ positions
  · have hmem : pos ∈ known ++ positions.filter (· ∉ known) := by
      by_cases hknown : pos ∈ known <;> simp [hpositions, hknown]
    rw [see, see, if_pos hpositions, if_pos hmem]
  · by_cases hknown : pos ∈ known <;> simp [see, hpositions, hknown]

/-- A field is known by what it was known by before, followed by what is new. -/
theorem get_extend (a : FieldReferences) (hb : b.Gathered) (field : Name) :
    (a.extend b).get field = a.get field ++ (b.get field).filter (· ∉ a.get field) := by
  refine hb.of_additions (motive := fun b => (a.extend b).get field = a.get field ++ (b.get field).filter (· ∉ a.get field))
    (List.append_nil _).symm fun b other pos hb heq => ?_
  rw [extend_add a hb.orderly, get_add, get_add, heq]
  split
  · exact (filter_see _ _ _).symm
  · rfl

/-! ### Merging -/

/-- The short cuts of merging lead where telling leads. -/
theorem merge_eq_extend (a : FieldReferences) (hb : b.Gathered) : a.merge b = a.extend b := by
  unfold merge
  split
  · next hempty =>
    rw [eq_empty_of_isEmpty hempty]
    rfl
  · split
    · next hempty => rw [eq_empty_of_isEmpty hempty, hb.empty_extend]
    · rfl

/-- Tables under merging are a monoid in which every table is idempotent. Every table has one entry for each field, with
at least one position and none twice. Merging keeps the positions of the first table and puts those of the second one
behind them that are new, whether or not a side is empty. -/
theorem tables_form_idempotent_monoid (ha : a.Gathered) (hb : b.Gathered) (c : FieldReferences) :
    ((a.entries.map Prod.fst).Nodup ∧ ∀ entry ∈ a.entries, entry.2 ≠ [] ∧ entry.2.Nodup) ∧
      (a.merge b).merge c = a.merge (b.merge c) ∧ a.merge a = a ∧ a.merge empty = a ∧ empty.merge a = a ∧
      (∀ field, (a.merge b).get field = a.get field ++ (b.get field).filter (· ∉ a.get field)) ∧
      a.merge b = a.extend b := by
  refine ⟨⟨ha.orderly.nodup, fun entry hentry => ⟨ha.orderly.seen entry hentry, ?_⟩⟩, merge_merge a hb.orderly c, ?_,
    merge_empty a, empty_merge a, fun field => ?_, merge_eq_extend a hb⟩
  · rw [← get_of_mem ha.orderly.nodup hentry]
    exact ha.nodup_get entry.1
  · rw [merge_eq_extend a ha, ha.orderly.extend_self]
  · rw [merge_eq_extend a hb, get_extend a hb]

/-- Of a field that both tables have, the positions that are new are put behind the others, and a field that only the
second one has comes last. -/
theorem tables_form_idempotent_monoid_of_overlap :
    let a := ((empty.add "x" 3).add "y" 1).add "x" 5
    let b := (((empty.add "y" 2).add "x" 5).add "y" 1).add "z" 4
    let c := empty.add "z" 7
    a.Gathered ∧ b.Gathered ∧ (a.merge b).merge c = a.merge (b.merge c) ∧ a.merge a = a ∧
      (a.merge b).get "y" = [1, 2] ∧ a.merge b = ⟨[("x", [3, 5]), ("y", [1, 2]), ("z", [4])]⟩ := by
  intro a b c
  have ha : a.Gathered := ((Gathered.new.add "x" 3).add "y" 1).add "x" 5
  have hb : b.Gathered := (((Gathered.new.add "y" 2).add "x" 5).add "y" 1).add "z" 4
  obtain ⟨-, hassoc, hself, -, -, hget, hextend⟩ := tables_form_idempotent_monoid ha hb c
  exact ⟨ha, hb, hassoc, hself, hget "y", hextend⟩

end FieldReferences

end ElmInference
