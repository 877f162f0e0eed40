import ElmInference.Proofs.Store.Graph

/-!
# How far a reading can go

In a store without loops a reading passes each node at most once. So the nodes behind a type, counted,
bound the crossings of a reading that starts there, and the sizes of what they hold bound its length.
Both bounds are what the walks and unification spend: `Store.crossings` and `Store.weight`.
-/

namespace ElmInference

namespace Store

open Relation Finset

def nodes (s : Store) : Finset Node :=
  (range s.size).image Node.var ∪ (range s.records.size).image Node.record

theorem var_mem_nodes {s : Store} {id : VarId} : .var id ∈ s.nodes ↔ id < s.size := by
  simp [nodes]

theorem record_mem_nodes {s : Store} {id : RecordId} :
    .record id ∈ s.nodes ↔ id < s.records.size := by
  simp [nodes]

theorem card_nodes_le (s : Store) : s.nodes.card ≤ s.crossings := by
  calc s.nodes.card
      ≤ ((range s.size).image Node.var).card + ((range s.records.size).image Node.record).card :=
        card_union_le _ _
    _ ≤ (range s.size).card + (range s.records.size).card :=
        Nat.add_le_add card_image_le card_image_le
    _ = s.crossings := by rw [card_range, card_range, crossings]

open Classical in
noncomputable def reach (s : Store) (aliases : Bool) (t : Ty) : Finset Node :=
  s.nodes.filter (s.Leads aliases t)

/-- How many crossings a reading of a type can make. -/
noncomputable def rank (s : Store) (aliases : Bool) (t : Ty) : Nat :=
  (s.reach aliases t).card

variable {s : Store} {aliases : Bool}

theorem mem_reach {t : Ty} {n : Node} :
    n ∈ s.reach aliases t ↔ n ∈ s.nodes ∧ s.Leads aliases t n := by
  simp [reach]

theorem reach_subset_nodes (s : Store) (aliases : Bool) (t : Ty) : s.reach aliases t ⊆ s.nodes :=
  fun _ hn => (mem_reach.mp hn).1

theorem rank_le_crossings (s : Store) (aliases : Bool) (t : Ty) : s.rank aliases t ≤ s.crossings :=
  (card_le_card (s.reach_subset_nodes aliases t)).trans s.card_nodes_le

theorem reach_subset {t u : Ty} (h : ∀ n, s.Leads aliases u n → s.Leads aliases t n) :
    s.reach aliases u ⊆ s.reach aliases t := by
  intro n hn
  rw [mem_reach] at hn ⊢
  exact ⟨hn.1, h n hn.2⟩

theorem rank_mono {t u : Ty} (h : ∀ n, s.Leads aliases u n → s.Leads aliases t n) :
    s.rank aliases u ≤ s.rank aliases t :=
  card_le_card (reach_subset h)

/-- A type that mentions less than another leads to less. -/
theorem leads_mono {t u : Ty} (h : u.mentions aliases ⊆ t.mentions aliases) (n : Node)
    (hn : s.Leads aliases u n) : s.Leads aliases t n := by
  obtain ⟨m, ⟨r, hr, hnode⟩, hpath⟩ := hn
  exact ⟨m, ⟨r, h hr, hnode⟩, hpath⟩

/-- Whether all that a type holds stands directly behind a node. -/
def Behind (s : Store) (aliases : Bool) (n : Node) (t : Ty) : Prop :=
  ∀ k, t.Holds aliases k → s.Edge aliases n k

theorem behind_solution {id : VarId} {t : Ty} (hsol : s.solution? id = some t) :
    s.Behind aliases (.var id) t :=
  fun _ hk => edge_of_solution hsol hk

theorem behind_field {id : RecordId} {g : GrowingRecord} (hrec : s.records[id]? = some g)
    {field : Name × Ty} (hfield : field ∈ g.fields) : s.Behind aliases (.record id) field.2 := by
  rintro k ⟨r, hr, hnode⟩
  exact edge_of_record hrec
    (List.mem_append_left _ (Ty.mem_mentionsFields.mpr ⟨field, hfield, .inr hr⟩)) hnode

theorem behind_base {id : RecordId} {g : GrowingRecord} (hrec : s.records[id]? = some g) :
    s.Behind aliases (.record id) g.base := by
  rintro k ⟨r, hr, hnode⟩
  exact edge_of_record hrec (List.mem_append_right _ hr) hnode

theorem Behind.not_mem_reach {n : Node} {t : Ty} (h : s.Behind aliases n t)
    (hloop : s.Loopfree aliases) : n ∉ s.reach aliases t := by
  intro hmem
  exact hloop n (transGen_of_leads h (mem_reach.mp hmem).2)

theorem Behind.insert_reach_subset {n : Node} {t u : Ty} (h : s.Behind aliases n t)
    (hn : n ∈ s.nodes) (hu : s.Leads aliases u n) :
    insert n (s.reach aliases t) ⊆ s.reach aliases u := by
  intro m hm
  rw [mem_reach]
  rcases mem_insert.mp hm with rfl | hm
  · exact ⟨hn, hu⟩
  · obtain ⟨hnode, hleads⟩ := mem_reach.mp hm
    obtain ⟨k, hk, hpath⟩ := hu
    exact ⟨hnode, k, hk, hpath.trans (transGen_of_leads h hleads).to_reflTransGen⟩

theorem Behind.rank_lt {n : Node} {t u : Ty} (h : s.Behind aliases n t)
    (hloop : s.Loopfree aliases) (hn : n ∈ s.nodes) (hu : s.Leads aliases u n) :
    s.rank aliases t < s.rank aliases u := by
  have hcard := card_le_card (h.insert_reach_subset hn hu)
  rw [card_insert_of_notMem (h.not_mem_reach hloop)] at hcard
  exact hcard

theorem rank_solution_lt (hloop : s.Loopfree aliases) {v : TyVar} {t : Ty}
    (hsol : s.solution? v.id = some t) : s.rank aliases t < s.rank aliases (.var v) :=
  (behind_solution hsol).rank_lt hloop (var_mem_nodes.mpr (lt_size_of_solution? hsol))
    (leads_var_iff.mpr .refl)

theorem rank_field_lt (hloop : s.Loopfree aliases) {id : RecordId} {g : GrowingRecord}
    (hrec : s.records[id]? = some g) {field : Name × Ty} (hfield : field ∈ g.fields) :
    s.rank aliases field.2 < s.rank aliases (.growing id) :=
  (behind_field hrec hfield).rank_lt hloop (record_mem_nodes.mpr (lt_size_of_record? hrec))
    (leads_growing_iff.mpr .refl)

theorem rank_base_lt (hloop : s.Loopfree aliases) {id : RecordId} {g : GrowingRecord}
    (hrec : s.records[id]? = some g) : s.rank aliases g.base < s.rank aliases (.growing id) :=
  (behind_base hrec).rank_lt hloop (record_mem_nodes.mpr (lt_size_of_record? hrec))
    (leads_growing_iff.mpr .refl)

/-! ### Depth -/

def nodeWeight (s : Store) : Node → Nat
  | .var id => (s.solution? id).elim 0 Ty.size
  | .record id => (s.records[id]?).elim 0 (fun g => 1 + Ty.sizeFields g.fields + g.base.size)

/-- A bound on the length of a reading of a type. -/
noncomputable def depth (s : Store) (t : Ty) : Nat :=
  t.size + ∑ n ∈ s.reach false t, s.nodeWeight n

theorem depth_lt_of_size_lt {t u : Ty} (hsize : u.size < t.size)
    (h : ∀ n, s.Leads false u n → s.Leads false t n) : s.depth u < s.depth t :=
  Nat.add_lt_add_of_lt_of_le hsize
    (sum_le_sum_of_subset (f := s.nodeWeight) (reach_subset h))

theorem Behind.depth_lt {n : Node} {t u : Ty} (h : s.Behind false n t) (hloop : s.Loopfree false)
    (hn : n ∈ s.nodes) (hu : s.Leads false u n) (hsize : t.size ≤ s.nodeWeight n) :
    s.depth t < s.depth u := by
  have hsum := sum_le_sum_of_subset (f := s.nodeWeight) (h.insert_reach_subset hn hu)
  rw [sum_insert (h.not_mem_reach hloop)] at hsum
  have hpos := u.size_pos
  unfold depth
  omega

theorem depth_lt_of_child (hloop : s.Loopfree false) {t u : Ty} (h : s.Child t u) :
    s.depth u < s.depth t := by
  have hleads : ∀ n, s.Leads false u n → s.Leads false t n := fun n hn => leads_of_child h hn
  cases h with
  | solution hsol =>
    refine (behind_solution hsol).depth_lt hloop (var_mem_nodes.mpr (lt_size_of_solution? hsol))
      (leads_var_iff.mpr .refl) ?_
    simp [nodeWeight, hsol]
  | arg hmem =>
    refine depth_lt_of_size_lt ?_ hleads
    have := Ty.size_le_sizeList hmem
    simp only [Ty.size]
    omega
  | item hmem =>
    refine depth_lt_of_size_lt ?_ hleads
    have := Ty.size_le_sizeList hmem
    simp only [Ty.size]
    omega
  | field hmem =>
    refine depth_lt_of_size_lt ?_ hleads
    have := Ty.size_le_sizeFields hmem
    simp only [Ty.size]
    omega
  | base =>
    refine depth_lt_of_size_lt ?_ hleads
    simp only [Ty.size, Ty.sizeBase]
    omega
  | growingField hrec hmem =>
    refine (behind_field hrec hmem).depth_lt hloop (record_mem_nodes.mpr (lt_size_of_record? hrec))
      (leads_growing_iff.mpr .refl) ?_
    have := Ty.size_le_sizeFields hmem
    simp only [nodeWeight, hrec, Option.elim_some]
    omega
  | growingBase hrec =>
    refine (behind_base hrec).depth_lt hloop (record_mem_nodes.mpr (lt_size_of_record? hrec))
      (leads_growing_iff.mpr .refl) ?_
    simp only [nodeWeight, hrec, Option.elim_some]
    omega
  | param hmem =>
    refine depth_lt_of_size_lt ?_ hleads
    have := Ty.size_le_sizeList hmem
    simp only [Ty.size]
    omega
  | ret =>
    refine depth_lt_of_size_lt ?_ hleads
    simp only [Ty.size]
    omega

theorem depth_lt_of_path (hloop : s.Loopfree false) {t u : Ty} (h : TransGen s.Child t u) : s.depth u < s.depth t := by
  induction h with
  | single hstep => exact depth_lt_of_child hloop hstep
  | tail _ hstep ih => exact (depth_lt_of_child hloop hstep).trans ih

theorem Loopfree.acyclic (hloop : s.Loopfree false) : s.Acyclic :=
  fun _ hpath => Nat.lt_irrefl _ (depth_lt_of_path hloop hpath)

/-! ### The weight of a store -/

private theorem foldl_eq_sum {α : Type} (f : α → Nat) (xs : List α) (start : Nat) :
    xs.foldl (fun acc x => acc + f x) start = start + ∑ i ∈ range xs.length, (xs[i]?).elim 0 f := by
  induction xs generalizing start with
  | nil => simp
  | cons x xs ih =>
    rw [List.foldl_cons, ih, List.length_cons, sum_range_succ']
    simp only [List.getElem?_cons_succ, List.getElem?_cons_zero, Option.elim_some]
    omega

theorem sum_nodeWeight_le (s : Store) : ∑ n ∈ s.nodes, s.nodeWeight n ≤ s.weight := by
  have hdisjoint : Disjoint ((range s.size).image Node.var)
      ((range s.records.size).image Node.record) := by
    rw [disjoint_left]
    intro n hvar hrecord
    obtain ⟨i, -, rfl⟩ := mem_image.mp hvar
    obtain ⟨j, -, hj⟩ := mem_image.mp hrecord
    cases hj
  rw [nodes, sum_union hdisjoint, sum_image (fun _ _ _ _ h => Node.var.inj h),
    sum_image (fun _ _ _ _ h => Node.record.inj h)]
  refine Nat.add_le_add ?_ ?_
  · have hfold := foldl_eq_sum (fun t => 1 + Ty.sizeBase t) s.solutions.entries.toList 0
    simp only [← Nat.add_assoc, Array.foldl_toList, Nat.zero_add, Array.length_toList,
      Array.getElem?_toList] at hfold
    rw [hfold]
    refine sum_le_sum (fun id hid => ?_)
    simp only [nodeWeight, solution?]
    cases hentry : s.solutions.entries[id]? with
    | none => simp
    | some entry => cases entry <;> simp [Ty.sizeBase]
  · have hfold := foldl_eq_sum (fun g : GrowingRecord => 1 + Ty.sizeFields g.fields + g.base.size)
      s.records.toList 0
    simp only [← Nat.add_assoc, Array.foldl_toList, Nat.zero_add, Array.length_toList,
      Array.getElem?_toList] at hfold
    rw [hfold]
    rfl

theorem depth_le (s : Store) (t : Ty) : s.depth t ≤ t.size + s.weight :=
  Nat.add_le_add_left
    ((sum_le_sum_of_subset (s.reach_subset_nodes false t)).trans s.sum_nodeWeight_le) _

theorem size_le_weight (s : Store) : s.size ≤ s.weight := by
  have hfold := foldl_eq_sum (fun t => 1 + Ty.sizeBase t) s.solutions.entries.toList 0
  simp only [← Nat.add_assoc, Array.foldl_toList, Nat.zero_add, Array.length_toList,
    Array.getElem?_toList] at hfold
  have hones : s.size ≤ ∑ id ∈ range s.solutions.entries.size,
      (s.solutions.entries[id]?).elim 0 (fun t => 1 + Ty.sizeBase t) := by
    calc s.size = ∑ _id ∈ range s.solutions.entries.size, 1 := by
          simp [size, Solutions.size]
      _ ≤ _ := by
          refine sum_le_sum (fun id hid => ?_)
          rw [Array.getElem?_eq_getElem (mem_range.mp hid), Option.elim_some]
          exact Nat.le_add_right _ _
  unfold weight
  omega

end Store

end ElmInference
