import ElmInference.Proofs.Store.Graph
import Mathlib.Data.Set.Insert

/-!
# How a store may change

Everything that unification does to a store is a sequence of moves: a variable is allocated, a flexible
variable is solved by a type that does not lead back to it, a record is copied into a growing one. A move
is taken between a store and a set of mentions, `World`: the types that a move puts into the store mention
only what is in the set, and what it allocates joins the set.

Moves keep a world tidy. In particular they close no loop in the solution graph, which is what the occurs
check is for, and they change no entry that is already there.
-/

namespace ElmInference

namespace Store

open Relation

/-- A store, and what the types at hand may mention. -/
abbrev World := Store × Set Mention

inductive Move : World → World → Prop
  | fresh {s : Store} {Q : Set Mention} (name : Name) (rigid : Bool) :
      Move (s, Q) (s.extended, insert (.var ⟨s.size, name, rigid⟩) Q)
  | solve {s : Store} {Q : Set Mention} {v : TyVar} {t : Ty} :
      s.Unsolved v.id → v.rigid = false → .var v ∈ Q → (∀ r ∈ t.mentions false, r ∈ Q) →
      ¬ s.Leads false t (.var v.id) → Move (s, Q) (s.solved v.id t, Q)
  | copy {s : Store} {Q : Set Mention} {g : GrowingRecord} : (∀ r ∈ g.links false, r ∈ Q) →
      Move (s, Q) (s.recorded g, insert (.record s.records.size) Q)

abbrev Moves : World → World → Prop :=
  ReflTransGen Move

/-! ### Entries stay -/

/-- Whether a store has all entries of another one. -/
structure Extends (s s' : Store) : Prop where
  size : s.size ≤ s'.size
  records_size : s.records.size ≤ s'.records.size
  solution : ∀ id t, s.solution? id = some t → s'.solution? id = some t
  record : ∀ (id : Nat) g, s.records[id]? = some g → s'.records[id]? = some g

namespace Extends

variable {s s₁ s' : Store}

theorem refl (s : Store) : s.Extends s :=
  ⟨Nat.le_refl _, Nat.le_refl _, fun _ _ h => h, fun _ _ h => h⟩

theorem trans (h : s.Extends s₁) (h' : s₁.Extends s') : s.Extends s' :=
  ⟨h.size.trans h'.size, h.records_size.trans h'.records_size,
    fun id t hsol => h'.solution id t (h.solution id t hsol),
    fun id g hrec => h'.record id g (h.record id g hrec)⟩

theorem has (h : s.Extends s') {r : Mention} (hr : s.Has r) : s'.Has r := by
  cases r with
  | var v => exact Nat.lt_of_lt_of_le hr h.size
  | record id => exact Nat.lt_of_lt_of_le hr h.records_size
  | field name => trivial
  | hole => trivial

theorem owns (h : s.Extends s') {t : Ty} (ht : s.Owns t) : s'.Owns t :=
  fun r hr => h.has (ht r hr)

theorem child (h : s.Extends s') {t u : Ty} (hchild : s.Child t u) : s'.Child t u := by
  cases hchild with
  | solution hsol => exact .solution (h.solution _ _ hsol)
  | growingField hrec hfield => exact .growingField (h.record _ _ hrec) hfield
  | growingBase hrec => exact .growingBase (h.record _ _ hrec)
  | arg hmem => exact .arg hmem
  | item hmem => exact .item hmem
  | field hmem => exact .field hmem
  | base => exact .base
  | param hmem => exact .param hmem
  | ret => exact .ret

theorem reads (h : s.Extends s') {t u : Ty} (hreads : ReflTransGen s.Child t u) :
    ReflTransGen s'.Child t u :=
  ReflTransGen.mono (fun _ _ => h.child) _ _ hreads

theorem edge (h : s.Extends s') {aliases : Bool} {n m : Node} (hedge : s.Edge aliases n m) :
    s'.Edge aliases n m := by
  obtain ⟨r, hr, hnode⟩ := hedge
  refine ⟨r, ?_, hnode⟩
  cases n with
  | var id =>
    cases hsol : s.solution? id with
    | none => simp [links, hsol] at hr
    | some t => simpa [links, hsol, h.solution id t hsol] using hr
  | record id =>
    cases hrec : s.records[id]? with
    | none => simp [links, hrec] at hr
    | some g => simpa [links, hrec, h.record id g hrec] using hr

theorem leads (h : s.Extends s') {aliases : Bool} {t : Ty} {n : Node} (hleads : s.Leads aliases t n) :
    s'.Leads aliases t n := by
  obtain ⟨m, hm, hpath⟩ := hleads
  exact ⟨m, hm, ReflTransGen.mono (fun _ _ => h.edge) _ _ hpath⟩

/-- What has no solution later had none before. -/
theorem unsolved (h : s.Extends s') {id : VarId} (hlt : id < s.size) (hun : s'.Unsolved id) :
    s.Unsolved id := by
  rcases unsolved_or_some hlt with hbefore | ⟨t, hsol⟩
  · exact hbefore
  · exact absurd hun (not_unsolved_of_some (h.solution id t hsol))

end Extends

theorem extends_extended (s : Store) : s.Extends s.extended :=
  ⟨by simp, by simp, fun id t h => by simpa using h, fun id g h => by simpa using h⟩

theorem extends_recorded (s : Store) (g : GrowingRecord) : s.Extends (s.recorded g) := by
  refine ⟨by simp, by simp, fun id t h => by simpa using h, fun id r h => ?_⟩
  rw [record?_recorded_of_lt g (lt_size_of_record? h), h]

theorem extends_solved {s : Store} {id : VarId} (t : Ty) (h : s.Unsolved id) :
    s.Extends (s.solved id t) := by
  refine ⟨by simp, by simp, fun other u hsol => ?_, fun id r h => by simpa using h⟩
  have hne : other ≠ id := by
    rintro rfl
    exact not_unsolved_of_some hsol h
  rw [solution?_solved_of_ne s t hne, hsol]

theorem Move.extends {w w' : World} (h : Move w w') : w.1.Extends w'.1 := by
  cases h with
  | fresh name rigid => exact extends_extended _
  | solve hun _ _ _ _ => exact extends_solved _ hun
  | copy _ => exact extends_recorded _ _

theorem Move.subset {w w' : World} (h : Move w w') : w.2 ⊆ w'.2 := by
  cases h with
  | fresh name rigid => exact Set.subset_insert _ _
  | solve _ _ _ _ _ => exact subset_rfl
  | copy _ => exact Set.subset_insert _ _

theorem Moves.extends {w w' : World} (h : Moves w w') : w.1.Extends w'.1 := by
  induction h with
  | refl => exact .refl _
  | tail _ hmove ih => exact ih.trans hmove.extends

theorem Moves.subset {w w' : World} (h : Moves w w') : w.2 ⊆ w'.2 := by
  induction h with
  | refl => exact subset_rfl
  | tail _ hmove ih => exact ih.trans hmove.subset

/-! ### No loop is closed -/

variable {s : Store} {aliases : Bool}

/-- Whether a store has no edges beyond those of another one, except from a node to what a type holds. -/
def Adds (s : Store) (aliases : Bool) (n : Node) (t : Ty) (s' : Store) : Prop :=
  ∀ m k, s'.Edge aliases m k → s.Edge aliases m k ∨ m = n ∧ t.Holds aliases k

/-- A path to the node that has new edges need not use them. -/
theorem Adds.path_to {n : Node} {t : Ty} {s' : Store} (h : s.Adds aliases n t s') {m : Node}
    (hpath : ReflTransGen (s'.Edge aliases) m n) : ReflTransGen (s.Edge aliases) m n := by
  induction hpath using ReflTransGen.head_induction_on with
  | refl => exact .refl
  | head hedge _ ih =>
    rcases h _ _ hedge with hold | ⟨rfl, -⟩
    · exact .head hold ih
    · exact .refl

/-- A path was there before, or it leaves the node by a new edge. -/
theorem Adds.path {n : Node} {t : Ty} {s' : Store} (h : s.Adds aliases n t s') {m k : Node}
    (hpath : TransGen (s'.Edge aliases) m k) : TransGen (s.Edge aliases) m k ∨
      ∃ x, t.Holds aliases x ∧ ReflTransGen (s'.Edge aliases) m n ∧
        ReflTransGen (s'.Edge aliases) x k := by
  induction hpath with
  | single hedge =>
    rcases h _ _ hedge with hold | ⟨rfl, hx⟩
    · exact .inl (.single hold)
    · exact .inr ⟨_, hx, .refl, .refl⟩
  | tail hbefore hedge ih =>
    rcases ih with hold | ⟨x, hx, hto, hfrom⟩
    · rcases h _ _ hedge with hedge' | ⟨rfl, hx⟩
      · exact .inl (hold.tail hedge')
      · exact .inr ⟨_, hx, hbefore.to_reflTransGen, .refl⟩
    · exact .inr ⟨x, hx, hto, hfrom.tail hedge⟩

/-- A type that does not lead to a node can be put behind it. -/
theorem Loopfree.adds (hloop : s.Loopfree aliases) {n : Node} {t : Ty} {s' : Store}
    (h : s.Adds aliases n t s') (hnot : ¬ s.Leads aliases t n) : s'.Loopfree aliases := by
  intro m hpath
  rcases h.path hpath with hold | ⟨x, hx, hto, hfrom⟩
  · exact hloop m hold
  · exact hnot ⟨x, hx, h.path_to (hfrom.trans hto)⟩

theorem adds_solved {id : VarId} {t : Ty} (hlt : id < s.size) :
    s.Adds aliases (.var id) t (s.solved id t) := by
  intro m k hedge
  by_cases hm : m = .var id
  · subst hm
    obtain ⟨u, hsol, hk⟩ := holds_of_edge hedge
    rw [solution?_solved_self t hlt] at hsol
    cases hsol
    exact .inr ⟨rfl, hk⟩
  · have hlinks : (s.solved id t).links aliases m = s.links aliases m := by
      cases m with
      | var other =>
        have hother : other ≠ id := fun heq => hm (by rw [heq])
        simp [links, solution?_solved_of_ne s t hother]
      | record other => simp [links]
    exact .inl (by simpa [Edge, hlinks] using hedge)

/-- Solving a variable by a type that does not lead to it closes no loop. -/
theorem Loopfree.solved (hloop : s.Loopfree aliases) {id : VarId} {t : Ty} (hun : s.Unsolved id)
    (hnot : ¬ s.Leads aliases t (.var id)) : (s.solved id t).Loopfree aliases :=
  hloop.adds (adds_solved hun.1) hnot

theorem edge_extended {n m : Node} : s.extended.Edge aliases n m ↔ s.Edge aliases n m := by
  have hlinks : s.extended.links aliases n = s.links aliases n := by
    cases n <;> simp [links]
  simp [Edge, hlinks]

theorem Loopfree.extended (hloop : s.Loopfree aliases) : s.extended.Loopfree aliases := by
  intro n hpath
  exact hloop n (TransGen.mono (fun _ _ => edge_extended.mp) _ _ hpath)

theorem edge_recorded_of_ne {g : GrowingRecord} {n m : Node} (hne : n ≠ .record s.records.size) :
    (s.recorded g).Edge aliases n m ↔ s.Edge aliases n m := by
  have hlinks : (s.recorded g).links aliases n = s.links aliases n := by
    cases n with
    | var id => simp [links]
    | record id =>
      have hid : id ≠ s.records.size := fun heq => hne (by rw [heq])
      simp [links, records_recorded, Array.getElem?_push, hid]
  simp [Edge, hlinks]

def HasNode (s : Store) : Node → Prop
  | .var id => id < s.size
  | .record id => id < s.records.size

theorem hasNode_of_has {r : Mention} {n : Node} (hr : s.Has r) (hnode : r.node? = some n) :
    s.HasNode n := by
  cases r with
  | var v =>
    cases hnode
    exact hr
  | record id =>
    cases hnode
    exact hr
  | field name => cases hnode
  | hole => cases hnode

theorem Closed.hasNode_of_edge (hclosed : s.Closed) {n m : Node} (h : s.Edge false n m) :
    s.HasNode m := by
  obtain ⟨r, hr, hnode⟩ := h
  refine hasNode_of_has ?_ hnode
  cases n with
  | var id =>
    cases hsol : s.solution? id with
    | none => simp [links, hsol] at hr
    | some t => exact hclosed.owns_solution hsol r (by simpa [links, hsol] using hr)
  | record id =>
    cases hrec : s.records[id]? with
    | none => simp [links, hrec] at hr
    | some g => exact hclosed.has_link hrec r (by simpa [links, hrec] using hr)

theorem ne_record_size {n : Node} (h : s.HasNode n) : n ≠ .record s.records.size := by
  rintro rfl
  exact Nat.lt_irrefl _ h

/-- From a node of the store, paths do not lead to a record that was not there. -/
theorem path_recorded (hclosed : s.Closed) {g : GrowingRecord} {n m : Node} (hn : s.HasNode n)
    (h : ReflTransGen ((s.recorded g).Edge false) n m) :
    ReflTransGen (s.Edge false) n m ∧ s.HasNode m := by
  induction h with
  | refl => exact ⟨.refl, hn⟩
  | tail _ hedge ih =>
    obtain ⟨hold, hk⟩ := ih
    have hedge' := (edge_recorded_of_ne (ne_record_size hk)).mp hedge
    exact ⟨hold.tail hedge', hclosed.hasNode_of_edge hedge'⟩

theorem Loopfree.recorded (hloop : s.Loopfree false) (hclosed : s.Closed) {g : GrowingRecord}
    (hlinks : ∀ r ∈ g.links false, s.Has r) : (s.recorded g).Loopfree false := by
  intro n hpath
  obtain ⟨m, hedge, hrest⟩ := TransGen.head'_iff.mp hpath
  by_cases hn : n = .record s.records.size
  · subst hn
    obtain ⟨r, hr, hnode⟩ := hedge
    have hm : s.HasNode m := by
      refine hasNode_of_has (hlinks r ?_) hnode
      rwa [links, record?_recorded_self] at hr
    exact Nat.lt_irrefl _ (path_recorded hclosed hm hrest).2
  · have hold := (edge_recorded_of_ne hn).mp hedge
    exact hloop n (TransGen.head' hold (path_recorded hclosed (hclosed.hasNode_of_edge hold) hrest).1)

/-! ### Records that gain a field -/

theorem record?_setRecord (s : Store) (id other : RecordId) (g : GrowingRecord) :
    (s.setRecord id g).records[other]? =
      if id = other then (if id < s.records.size then some g else none) else s.records[other]? := by
  simp only [setRecord, Array.getElem?_setIfInBounds]

theorem adds_setRecord {id : RecordId} {g g' : GrowingRecord} {t : Ty}
    (hrec : s.records[id]? = some g)
    (hlinks : ∀ r ∈ g'.links aliases, r.node? ≠ none → r ∈ g.links aliases ∨ r ∈ t.mentions aliases) :
    s.Adds aliases (.record id) t (s.setRecord id g') := by
  intro m k hedge
  by_cases hm : m = .record id
  · subst hm
    obtain ⟨r, hr, hnode⟩ := hedge
    rw [links, record?_setRecord, if_pos rfl, if_pos (lt_size_of_record? hrec)] at hr
    rcases hlinks r hr (by rw [hnode]; simp) with hold | hnew
    · exact .inl (edge_of_record hrec hold hnode)
    · exact .inr ⟨rfl, r, hnew, hnode⟩
  · have hlinks : (s.setRecord id g').links aliases m = s.links aliases m := by
      cases m with
      | var other => rfl
      | record other =>
        have hother : id ≠ other := fun heq => hm (by rw [heq])
        rw [links, record?_setRecord, if_neg hother]
        rfl
    exact .inl (by simpa [Edge, hlinks] using hedge)

/-! ### Variables that are mentioned -/

section Mentioned

variable {Q : Set Mention} {id : RecordId} {v : TyVar}

theorem mem_of_var_mem_insert_record (h : .var v ∈ insert (.record id) Q) : .var v ∈ Q :=
  h.resolve_left nofun

/-- A variable with a place of its own does not come under a second name. -/
theorem eq_of_mem_insert_var {x : TyVar} (hnew : ∀ v, .var v ∈ Q → v.id ≠ x.id)
    (h : ∀ v u, .var v ∈ Q → .var u ∈ Q → v.id = u.id → v = u) :
    ∀ v u, .var v ∈ insert (.var x) Q → .var u ∈ insert (.var x) Q → v.id = u.id → v = u := by
  rintro v u (hv | hv) (hu | hu) hid
  · exact Mention.var.inj (hv.trans hu.symm)
  · obtain rfl := Mention.var.inj hv
    exact absurd hid.symm (hnew u hu)
  · obtain rfl := Mention.var.inj hu
    exact absurd hid (hnew v hv)
  · exact h v u hv hu hid

theorem unsolved_of_mem_insert_fresh {s : Store} {name : Name} {rigid : Bool}
    (h : ∀ v, .var v ∈ Q → v.rigid = true → s.Unsolved v.id) :
    ∀ v, .var v ∈ insert (.var ⟨s.size, name, rigid⟩) Q → v.rigid = true → s.extended.Unsolved v.id := by
  rintro v (hv | hv) hrigid
  · obtain rfl := Mention.var.inj hv
    exact unsolved_extended_self s
  · exact (h v hv hrigid).extended

end Mentioned

/-! ### Tidy worlds -/

/-- A store without loops that owns what it holds, and a set of mentions that belongs to it. -/
structure Tidy (w : World) : Prop where
  closed : w.1.Closed
  loopfree : w.1.Loopfree false
  keeps : w.1.Keeps (· ∈ w.2)
  owned : ∀ r ∈ w.2, w.1.Has r

/-- A closed store without loops. -/
structure Sane (s : Store) : Prop where
  closed : s.Closed
  loopfree : s.Loopfree false

theorem Tidy.sane {w : World} (h : Tidy w) : w.1.Sane :=
  ⟨h.closed, h.loopfree⟩

theorem Tidy.id_ne_size {s : Store} {Q : Set Mention} (h : Tidy (s, Q)) (v : TyVar) (hv : .var v ∈ Q) : v.id ≠ s.size :=
  Nat.ne_of_lt (h.owned _ hv)

theorem Tidy.owns {w : World} (h : Tidy w) {t : Ty} (ht : ∀ r ∈ t.mentions false, r ∈ w.2) :
    w.1.Owns t :=
  fun r hr => h.owned r (ht r hr)

/-- All types of a sane store can be taken for a start. -/
theorem Sane.tidy {s : Store} (h : s.Sane) : Tidy (s, {r | s.Has r}) :=
  ⟨h.closed, h.loopfree, h.closed, fun _ hr => hr⟩

theorem solution?_empty (id : VarId) : ({} : Store).solution? id = none := by
  simp [solution?]

theorem sane_empty : ({} : Store).Sane := by
  refine ⟨⟨fun v t _ hsol => ?_, fun id g _ hrec => ?_⟩, fun n hpath => ?_⟩
  · rw [solution?_empty] at hsol
    cases hsol
  · cases lt_size_of_record? hrec
  · obtain ⟨m, ⟨r, hr, -⟩, -⟩ := TransGen.head'_iff.mp hpath
    cases n with
    | var id => simp [links, solution?_empty] at hr
    | record id => simp [links] at hr

theorem Keeps.extended {Q : Mention → Prop} (h : s.Keeps Q) {R : Mention → Prop}
    (hQR : ∀ r, Q r → R r) (hvar : ∀ v, R (.var v) → Q (.var v) ∨ s.size ≤ v.id)
    (hrecord : ∀ id, R (.record id) → Q (.record id)) : s.extended.Keeps R := by
  constructor
  · intro v t hv hsol r hr
    rw [solution?_extended] at hsol
    rcases hvar v hv with hv | hge
    · exact hQR r (h.solution v t hv hsol r hr)
    · exact absurd (lt_size_of_solution? hsol) (Nat.not_lt.mpr hge)
  · intro id g hid hrec r hr
    exact hQR r (h.record id g (hrecord id hid) (by simpa using hrec) r hr)

theorem Keeps.recorded {Q : Mention → Prop} (h : s.Keeps Q) {R : Mention → Prop}
    (hQR : ∀ r, Q r → R r) {g : GrowingRecord} (hlinks : ∀ r ∈ g.links false, Q r)
    (hvar : ∀ v, R (.var v) → Q (.var v))
    (hrecord : ∀ id, R (.record id) → Q (.record id) ∨ id = s.records.size) :
    (s.recorded g).Keeps R := by
  constructor
  · intro v t hv hsol r hr
    exact hQR r (h.solution v t (hvar v hv) (by simpa using hsol) r hr)
  · intro id g' hid hrec r hr
    rcases record?_recorded_cases hrec with ⟨-, rfl⟩ | hold
    · exact hQR r (hlinks r hr)
    · have hmem := (hrecord id hid).resolve_right (Nat.ne_of_lt (lt_size_of_record? hold))
      exact hQR r (h.record id g' hmem hold r hr)

theorem Keeps.solved {Q : Mention → Prop} (h : s.Keeps Q) (id : VarId) {t : Ty}
    (ht : ∀ r ∈ t.mentions false, Q r) : (s.solved id t).Keeps Q := by
  constructor
  · intro v u hv hsol r hr
    rcases solution?_solved_cases hsol with ⟨-, rfl⟩ | hold
    · exact ht r hr
    · exact h.solution v u hv hold r hr
  · intro other g hid hrec r hr
    exact h.record other g hid (by simpa using hrec) r hr

theorem Move.tidy {w w' : World} (h : Move w w') (htidy : Tidy w) : Tidy w' := by
  obtain ⟨hclosed, hloop, hkeeps, howned⟩ := htidy
  have hhas : ∀ r, w.1.Has r → w'.1.Has r := fun r hr => h.extends.has hr
  cases h with
  | @fresh s Q name rigid =>
    refine ⟨hclosed.extended hhas ?_ ?_, hloop.extended, hkeeps.extended ?_ ?_ ?_, ?_⟩
    · intro v _
      exact Nat.lt_or_ge v.id s.size
    · intro id hid
      simpa [Has] using hid
    · exact fun r hr => Set.mem_insert_of_mem _ hr
    · rintro v (heq | hv)
      · cases heq
        exact .inr (Nat.le_refl _)
      · exact .inl hv
    · rintro id (heq | hid)
      · cases heq
      · exact hid
    · rintro r (rfl | hr)
      · simp [Has]
      · exact hhas r (howned r hr)
  | @solve s Q v t hun _ _ ht hnot =>
    refine ⟨?_, hloop.solved hun hnot, hkeeps.solved _ ht, fun r hr => hhas r (howned r hr)⟩
    have hkept := Keeps.solved hclosed v.id (fun r hr => howned r (ht r hr))
    refine ⟨fun w u hw hsol r hr => hhas r (hkept.solution w u (by simpa [Has] using hw) hsol r hr),
      fun id g hid hrec r hr => hhas r (hkept.record id g hid hrec r hr)⟩
  | @copy s Q g hlinks =>
    have hown : ∀ r ∈ g.links false, s.Has r := fun r hr => howned r (hlinks r hr)
    refine ⟨Keeps.recorded hclosed hhas hown ?_ ?_, hloop.recorded hclosed hown,
      hkeeps.recorded ?_ hlinks ?_ ?_, ?_⟩
    · exact fun v hv => hv
    · intro id hid
      simp only [Has, records_size_recorded] at hid
      exact Nat.lt_succ_iff_lt_or_eq.mp hid
    · exact fun r hr => Set.mem_insert_of_mem _ hr
    · rintro v (heq | hv)
      · cases heq
      · exact hv
    · rintro id (heq | hid)
      · cases heq
        exact .inr rfl
      · exact .inl hid
    · rintro r (rfl | hr)
      · simp [Has]
      · exact hhas r (howned r hr)

theorem Moves.tidy {w w' : World} (h : Moves w w') (htidy : Tidy w) : Tidy w' := by
  induction h with
  | refl => exact htidy
  | tail _ hmove ih => exact hmove.tidy ih

end Store

end ElmInference
