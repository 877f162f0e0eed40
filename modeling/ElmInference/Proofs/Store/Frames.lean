import ElmInference.Proofs.Store.Advances

/-!
# What an advance leaves alone

An advance takes no edge away, and new edges start at what is at hand only. So a reading that starts elsewhere and
comes to a new place has come through something at hand, and a variable that is not at hand gets no solution.

Zonking loses variables in records only, where a field of a base is hidden by a field of the same name: a type in
which no record is read shows every variable that it leads to.
-/

namespace ElmInference

namespace Ty

def IsRecord : Ty → Prop
  | .record _ _ _ _ => True
  | .growing _ => True
  | _ => False

end Ty

namespace Store

open Relation

variable {s s' : Store} {Q Q' : Set Mention} {w w' : World} {n m : Node}

/-! ### Edges -/

theorem edge_congr (hsolution : ∀ id, n = .var id → s'.solution? id = s.solution? id)
    (hrecord : ∀ id, n = .record id → s'.records[id]? = s.records[id]?) :
    s'.Edge false n m ↔ s.Edge false n m := by
  cases n with
  | var id => simp only [Edge, links, hsolution id rfl]
  | record id => simp only [Edge, links, hrecord id rfl]

theorem mem_addFields_left {field : Name × Ty} {fields : List (Name × Ty)} (h : field ∈ fields)
    (more : List (Name × Ty)) : field ∈ Ty.addFields fields more := by
  induction more generalizing fields with
  | nil => exact h
  | cons entry rest ih =>
    rw [Ty.addFields_cons]
    split
    · exact ih h
    · exact ih (List.mem_append_left _ h)

/-- Another record in place of one changes only the edges that start there. -/
theorem edge_setRecord_iff {id : RecordId} {g : GrowingRecord} (hne : n ≠ .record id) :
    (s.setRecord id g).Edge false n m ↔ s.Edge false n m := by
  refine edge_congr (fun _ _ => rfl) fun other heq => ?_
  rw [record?_setRecord, if_neg]
  rintro rfl
  exact hne heq

theorem edge_setRecord_self {id : RecordId} {g g' : GrowingRecord} (hrec : s.records[id]? = some g) :
    (s.setRecord id g').Edge false (.record id) m ↔ ∃ r ∈ g'.links false, r.node? = some m := by
  have hlinks : (s.setRecord id g').links false (.record id) = g'.links false := by
    simp only [links, record?_setRecord, if_pos (lt_size_of_record? hrec), Option.elim]
    rfl
  simp only [Edge, hlinks]

/-- Edges stay. -/
theorem Advance.edge (h : Advance w w') (hedge : w.1.Edge false n m) : w'.1.Edge false n m := by
  cases h with
  | move hmove => exact hmove.extends.edge hedge
  | @gain s Q id g v name t refs hrec _ _ _ _ _ _ =>
    by_cases hn : n = .record id
    · subst hn
      obtain ⟨r, hr, hnode⟩ := hedge
      refine (edge_setRecord_self hrec).mpr ⟨r, ?_, hnode⟩
      have hr : r ∈ g.links false := by simpa [links, hrec] using hr
      simp only [GrowingRecord.links, List.mem_append, Ty.mem_mentionsFields] at hr ⊢
      refine hr.imp_left ?_
      rintro ⟨field, hfield, hmention⟩
      exact ⟨field, mem_addFields_left hfield _, hmention⟩
    · exact (edge_setRecord_iff hn).mpr hedge
  | @note s Q id g refs hrec =>
    by_cases hn : n = .record id
    · subst hn
      obtain ⟨r, hr, hnode⟩ := hedge
      have hr : r ∈ g.links false := by simpa [links, hrec] using hr
      exact (edge_setRecord_self hrec).mpr ⟨r, hr, hnode⟩
    · exact (edge_setRecord_iff hn).mpr hedge

theorem Advances.edge (h : Advances w w') (hedge : w.1.Edge false n m) : w'.1.Edge false n m := by
  induction h with
  | refl => exact hedge
  | tail _ hadvance ih => exact hadvance.edge ih

/-- New edges start at what is at hand. -/
theorem Advance.edge_inv (h : Advance w w') (hedge : w'.1.Edge false n m) :
    w.1.Edge false n m ∨ ∃ r ∈ w'.2, r.node? = some n := by
  cases h with
  | move hmove =>
    cases hmove with
    | fresh name rigid => exact .inl (edge_extended.mp hedge)
    | @solve s Q v t hun hflex hv ht hnot =>
      by_cases hn : n = .var v.id
      · exact .inr ⟨_, hv, hn ▸ rfl⟩
      · have hsame : (s.solved v.id t).Edge false n m ↔ s.Edge false n m :=
          edge_congr (fun id heq => solution?_solved_of_ne s t fun hid => hn (hid ▸ heq)) fun _ _ => rfl
        exact .inl (hsame.mp hedge)
    | @copy s Q g _ =>
      by_cases hn : n = .record s.records.size
      · exact .inr ⟨_, Set.mem_insert _ _, hn ▸ rfl⟩
      · exact .inl ((edge_recorded_of_ne hn).mp hedge)
  | @gain s Q id g v name t refs hrec hid _ _ _ _ _ =>
    by_cases hn : n = .record id
    · exact .inr ⟨_, hid, hn ▸ rfl⟩
    · exact .inl ((edge_setRecord_iff hn).mp hedge)
  | @note s Q id g refs hrec =>
    by_cases hn : n = .record id
    · subst hn
      obtain ⟨r, hr, hnode⟩ := (edge_setRecord_self hrec).mp hedge
      exact .inl (edge_of_record hrec hr hnode)
    · exact .inl ((edge_setRecord_iff hn).mp hedge)

theorem Advances.edge_inv (h : Advances w w') (hedge : w'.1.Edge false n m) :
    w.1.Edge false n m ∨ ∃ r ∈ w'.2, r.node? = some n := by
  induction h with
  | refl => exact .inl hedge
  | tail _ hadvance ih =>
    rcases hadvance.edge_inv hedge with hedge | hhand
    · exact (ih hedge).imp_right fun ⟨r, hr, hnode⟩ => ⟨r, hadvance.subset hr, hnode⟩
    · exact .inr hhand

/-- A path was there before, or it comes through something at hand. -/
theorem Advances.path_inv (h : Advances w w') (hpath : ReflTransGen (w'.1.Edge false) n m) :
    ReflTransGen (w.1.Edge false) n m ∨ ∃ r ∈ w'.2, ∃ k, r.node? = some k ∧ ReflTransGen (w.1.Edge false) n k ∧
      ReflTransGen (w'.1.Edge false) k m := by
  induction hpath using ReflTransGen.head_induction_on with
  | refl => exact .inl .refl
  | head hedge hrest ih =>
    rcases h.edge_inv hedge with hold | ⟨r, hr, hnode⟩
    · refine ih.imp (.head hold) fun ⟨r, hr, k, hnode, hbefore, hafter⟩ => ?_
      exact ⟨r, hr, k, hnode, .head hold hbefore, hafter⟩
    · exact .inr ⟨r, hr, _, hnode, .refl, .head hedge hrest⟩

/-! ### Variables that are not at hand -/

def Away (Q : Set Mention) (id : VarId) : Prop :=
  ∀ v, .var v ∈ Q → v.id ≠ id

theorem away_of_subset_clearOf {id : VarId} (h : Q ⊆ s.clearOf id) : Away Q id := by
  rintro v hv rfl
  exact h hv _ rfl .refl

/-- A variable that is not at hand gets no solution. -/
theorem Advance.unsolved_of_away {id : VarId} (h : Advance w w') (haway : Away w.2 id) (hun : w.1.Unsolved id) :
    w'.1.Unsolved id ∧ Away w'.2 id := by
  cases h with
  | move hmove =>
    cases hmove with
    | @fresh s Q name rigid =>
      refine ⟨hun.extended, fun v hv heq => ?_⟩
      rcases hv with hv | hv
      · cases hv
        exact Nat.lt_irrefl _ (heq ▸ hun.1)
      · exact haway v hv heq
    | @solve s Q v t _ _ hv _ _ =>
      have hsolution := solution?_solved_of_ne s t (Ne.symm (haway v hv))
      exact ⟨⟨by simpa using hun.1, hsolution.trans hun.2⟩, haway⟩
    | @copy s Q g _ =>
      refine ⟨hun, fun v hv heq => ?_⟩
      rcases hv with hv | hv
      · cases hv
      · exact haway v hv heq
  | gain _ _ _ _ _ _ _ => exact ⟨hun, haway⟩
  | note _ => exact ⟨hun, haway⟩

theorem Advances.unsolved_of_away {id : VarId} (h : Advances w w') (haway : Away w.2 id) (hun : w.1.Unsolved id) :
    w'.1.Unsolved id ∧ Away w'.2 id := by
  induction h with
  | refl => exact ⟨hun, haway⟩
  | tail _ hadvance ih => exact hadvance.unsolved_of_away ih.2 ih.1

theorem has_of_hasNode {r : Mention} (hn : s.HasNode n) (hnode : r.node? = some n) : s.Has r := by
  cases r with
  | var v =>
    cases hnode
    exact hn
  | record id =>
    cases hnode
    exact hn
  | field name => trivial
  | hole => trivial

/-- When nothing at hand comes to lead to a new variable, nothing else of before comes to lead to it either. -/
theorem Advances.clear_of_away {id : VarId} {R : Set Mention} (hR : Tidy (s, R))
    (h : Advances (s, Q) (s', Q')) (hclear : Q ⊆ s'.clearOf id) (hnew : s.size ≤ id) : R ⊆ s'.clearOf id := by
  intro r hr n hnode hpath
  rcases h.path_inv hpath with hold | ⟨r', hr', k, hnode', hbefore, hafter⟩
  · obtain ⟨r₁, hr₁, hnode₁⟩ := hR.exists_mention hold hr hnode
    cases r₁ with
    | var v =>
      cases hnode₁
      exact Nat.not_lt.mpr hnew (hR.owned _ hr₁)
    | record id => cases hnode₁
    | field name => cases hnode₁
    | hole => cases hnode₁
  · -- The path meets what is at hand at a node of before, which was at hand then.
    obtain ⟨r₁, hr₁, hnode₁⟩ := hR.exists_mention hbefore hr hnode
    rcases h.new hr' with hr' | hhas
    · exact hclear hr' k hnode' hafter
    · exact hhas (has_of_hasNode (hasNode_of_has (hR.owned _ hr₁) hnode₁) hnode')

/-! ### Types without records -/

def ReadsNoRecord (s : Store) (t : Ty) : Prop :=
  ∀ u, ReflTransGen s.Child t u → ¬ u.IsRecord

theorem ReadsNoRecord.child {t u : Ty} (h : s.ReadsNoRecord t) (hchild : s.Child t u) : s.ReadsNoRecord u :=
  fun x hx => h x (.head hchild hx)

/-- Whether a result of zonking shows all variables without solution that are read in a type without records. -/
def Retains (s : Store) (t y _z : Ty) : Prop :=
  s.ReadsNoRecord t → ∀ v, s.Unsolved v.id → ReflTransGen s.Child t (.var v) → .var v ∈ y.mentions false

theorem retains_of_children {t y z : Ty} (hvar : ∀ v, t ≠ .var v)
    (h : ∀ u, s.Child t u → ∃ y' z', s.Retains u y' z' ∧ ∀ r ∈ y'.mentions false, r ∈ y.mentions false) :
    s.Retains t y z := by
  intro hnone v hun hreads
  rcases hreads.cases_head with heq | ⟨u, hchild, hrest⟩
  · exact absurd heq (hvar v)
  · obtain ⟨y', z', hretains, hsubset⟩ := h u hchild
    exact hsubset _ (hretains (hnone.child hchild) v hun hrest)

theorem respectful_retains (s : Store) : Respectful s.Retains where
  unit := retains_of_children (fun _ h => by cases h) fun u h => by cases h
  unknown := retains_of_children (fun _ h => by cases h) fun u h => by cases h
  inProgress := retains_of_children (fun _ h => by cases h) fun u h => by cases h
  union hargs _ := by
    refine retains_of_children (fun _ h => by cases h) fun u hchild => ?_
    cases hchild with
    | arg hmem =>
      obtain ⟨y, hy, z, hretains⟩ := hargs.exists_right hmem
      exact ⟨y, z, hretains, (Ty.Part.arg hy).mentions_subset⟩
  tuple hitems := by
    refine retains_of_children (fun _ h => by cases h) fun u hchild => ?_
    cases hchild with
    | item hmem =>
      obtain ⟨y, hy, z, hretains⟩ := hitems.exists_right hmem
      exact ⟨y, z, hretains, (Ty.Part.item hy).mentions_subset⟩
  record _ _ _ := fun hnone => absurd trivial (hnone _ .refl)
  arrow := by
    intro params ys zs ret r r' w y z hparams hret _
    refine retains_of_children (fun _ h => by cases h) fun u hchild => ?_
    rw [Ty.mentions_writtenAs?]
    cases hchild with
    | param hmem =>
      obtain ⟨y', hy', z', hretains⟩ := hparams.exists_right hmem
      exact ⟨y', z', hretains, fun r hr => Ty.mem_mentions_function.mpr (.inl ⟨y', hy', hr⟩)⟩
    | ret => exact ⟨r, r', hret, fun r hr => Ty.mem_mentions_function.mpr (.inr hr)⟩

theorem retains_zonk {t z : Ty} (h : s.zonk t = .ok z) : s.Retains t z z := by
  refine zonkAt_induct (P := fun t y => s.Retains t y y) (respectful_retains s) (fun v hun _ x _ hreads => ?_)
    (fun v u y hsol hretains hnone x hun hreads => ?_)
    (fun id g ys zs b _ _ _ hnone => absurd trivial (hnone _ .refl)) h
  · rcases hreads.cases_head with heq | ⟨u, hchild, -⟩
    · cases heq
      exact List.mem_singleton_self _
    · cases hchild with
      | solution hsol => exact absurd hun (not_unsolved_of_some hsol)
  · rcases hreads.cases_head with heq | ⟨u', hchild, hrest⟩
    · cases heq
      exact absurd hun (not_unsolved_of_some hsol)
    · cases hchild with
      | solution hsol' =>
        cases hsol.symm.trans hsol'
        exact hretains (hnone.child (.solution hsol)) x hun hrest

theorem exists_reads_of_leads {t : Ty} {id : VarId} (h : s.Leads false t (.var id)) :
    ∃ v : TyVar, v.id = id ∧ ReflTransGen s.Child t (.var v) := by
  have hstands : ∀ {u : Ty}, Stands (.var id) u → ∃ v : TyVar, v.id = id ∧ u = .var v := by
    rintro u ⟨r, hnode, hu⟩
    cases r with
    | var v =>
      cases hnode
      cases hu
      exact ⟨v, rfl, rfl⟩
    | record id => cases hnode
    | field name => cases hnode
    | hole => cases hnode
  obtain ⟨m, ⟨r, hr, hnode⟩, hpath⟩ := h
  obtain ⟨u, hu, hstandsu⟩ := exists_mentioned hnode
  have hreads := reads_of_mention s hr hu
  rcases reflTransGen_iff_eq_or_transGen.mp hpath with heq | hpath
  · subst heq
    obtain ⟨v, hid, rfl⟩ := hstands hstandsu
    exact ⟨v, hid, hreads⟩
  · obtain ⟨x, hx, c, hchild, hrest⟩ := reads_of_path hpath hstandsu
    obtain ⟨v, hid, rfl⟩ := hstands hx
    exact ⟨v, hid, hreads.trans (.head hchild hrest)⟩

/-- A type in which no record is read shows every variable without solution that it leads to. -/
theorem clear_of_hides {t z : Ty} {id : VarId} (hz : s.zonk t = .ok z) (hnone : s.ReadsNoRecord t)
    (hun : s.Unsolved id) (h : s.Hides id t) : t.Within (s.clearOf id) := by
  refine within_clearOf_iff.mpr fun hleads => ?_
  obtain ⟨v, rfl, hreads⟩ := exists_reads_of_leads hleads
  obtain ⟨u, hu, hid⟩ := Ty.exists_mem_vars (retains_zonk hz hnone v hun hreads)
  exact h z hz u hu hid

end Store

end ElmInference
