import ElmInference.Proofs.Store.Access
import Mathlib.Algebra.Order.BigOperators.Group.Finset
import Mathlib.Data.Finset.Card
import Mathlib.Data.Finset.Image
import Mathlib.Logic.Relation

/-!
# The solution graph

A type is read through the store: behind a solved variable stands its solution, inside a growing record
stand its fields and its base. `Store.Child` is one step of such a reading, and a store is acyclic when
no reading comes back to where it was.

A reading can only come back through a variable or a record, so it is enough to look at these: they are
the nodes of a finite graph, `Store.Edge`. The number of nodes behind a type bounds the crossings of any
walk from it, and their weight bounds the depth of the type, `Store.depth`.
-/

namespace ElmInference

open Relation

/-- The variables and growing records that a reading passes. -/
inductive Node where
  | var (id : VarId)
  | record (id : RecordId)
deriving DecidableEq

def Mention.node? : Mention → Option Node
  | .var v => some (.var v.id)
  | .record id => some (.record id)
  | .field _ => none
  | .hole => none

def Ty.Holds (aliases : Bool) (t : Ty) (n : Node) : Prop :=
  ∃ r ∈ t.mentions aliases, r.node? = some n

namespace Store

/-- One step of reading a type through a store. -/
inductive Child (s : Store) : Ty → Ty → Prop
  | solution {v : TyVar} {t : Ty} : s.solution? v.id = some t → Child s (.var v) t
  | arg {m n : Name} {args : List Ty} {w : Option (AliasUse Ty)} {t : Ty} :
      t ∈ args → Child s (.union m n args w) t
  | item {items : List Ty} {t : Ty} : t ∈ items → Child s (.tuple items) t
  | field {fields : List (Name × Ty)} {base : Option Ty} {w : Option (AliasUse Ty)}
      {refs : FieldReferences} {field : Name × Ty} :
      field ∈ fields → Child s (.record fields base w refs) field.2
  | base {fields : List (Name × Ty)} {t : Ty} {w : Option (AliasUse Ty)} {refs : FieldReferences} :
      Child s (.record fields (some t) w refs) t
  | growingField {id : RecordId} {g : GrowingRecord} {field : Name × Ty} :
      s.records[id]? = some g → field ∈ g.fields → Child s (.growing id) field.2
  | growingBase {id : RecordId} {g : GrowingRecord} :
      s.records[id]? = some g → Child s (.growing id) g.base
  | param {params : List Ty} {ret : Ty} {w : Option (AliasUse Ty)} {t : Ty} :
      t ∈ params → Child s (.arrow params ret w) t
  | ret {params : List Ty} {ret : Ty} {w : Option (AliasUse Ty)} : Child s (.arrow params ret w) ret

/-- A store in which no reading comes back to where it was. -/
def Acyclic (s : Store) : Prop :=
  ∀ t, ¬ TransGen s.Child t t

/-! ### Nodes -/

def links (s : Store) (aliases : Bool) : Node → List Mention
  | .var id => (s.solution? id).elim [] (Ty.mentions aliases)
  | .record id => (s.records[id]?).elim [] (GrowingRecord.links aliases)

/-- From a node to a node that stands directly behind it. -/
def Edge (s : Store) (aliases : Bool) (n m : Node) : Prop :=
  ∃ r ∈ s.links aliases n, r.node? = some m

/-- No node stands behind itself. -/
def Loopfree (s : Store) (aliases : Bool) : Prop :=
  ∀ n, ¬ TransGen (s.Edge aliases) n n

/-- A node that a reading of a type can pass. -/
def Leads (s : Store) (aliases : Bool) (t : Ty) (n : Node) : Prop :=
  ∃ m, t.Holds aliases m ∧ ReflTransGen (s.Edge aliases) m n

variable {s : Store} {aliases : Bool}

theorem edge_of_solution {id : VarId} {t : Ty} {n : Node} (hsol : s.solution? id = some t)
    (hn : t.Holds aliases n) : s.Edge aliases (.var id) n := by
  obtain ⟨r, hr, hnode⟩ := hn
  exact ⟨r, by simpa [links, hsol] using hr, hnode⟩

theorem holds_of_edge {id : VarId} {n : Node} (h : s.Edge aliases (.var id) n) :
    ∃ t, s.solution? id = some t ∧ t.Holds aliases n := by
  obtain ⟨r, hr, hnode⟩ := h
  cases hsol : s.solution? id with
  | none => simp [links, hsol] at hr
  | some t => exact ⟨t, rfl, r, by simpa [links, hsol] using hr, hnode⟩

theorem edge_of_record {id : RecordId} {g : GrowingRecord} {n : Node} (hrec : s.records[id]? = some g)
    {r : Mention} (hr : r ∈ g.links aliases) (hnode : r.node? = some n) :
    s.Edge aliases (.record id) n :=
  ⟨r, by simpa [links, hrec] using hr, hnode⟩

theorem leads_of_holds {t : Ty} {n : Node} (h : t.Holds aliases n) : s.Leads aliases t n :=
  ⟨n, h, .refl⟩

theorem holds_var_iff {v : TyVar} {n : Node} : (Ty.var v).Holds aliases n ↔ n = .var v.id := by
  constructor
  · rintro ⟨r, hr, hnode⟩
    obtain rfl : r = .var v := by simpa [Ty.mentions] using hr
    exact (Option.some.inj hnode).symm
  · rintro rfl
    exact ⟨.var v, by simp [Ty.mentions], rfl⟩

theorem holds_growing_iff {id : RecordId} {n : Node} :
    (Ty.growing id).Holds aliases n ↔ n = .record id := by
  constructor
  · rintro ⟨r, hr, hnode⟩
    obtain rfl : r = .record id := by simpa [Ty.mentions] using hr
    exact (Option.some.inj hnode).symm
  · rintro rfl
    exact ⟨.record id, by simp [Ty.mentions], rfl⟩

theorem leads_var_iff {v : TyVar} {n : Node} :
    s.Leads aliases (.var v) n ↔ ReflTransGen (s.Edge aliases) (.var v.id) n := by
  constructor
  · rintro ⟨m, hm, hpath⟩
    rwa [holds_var_iff.mp hm] at hpath
  · intro hpath
    exact ⟨_, holds_var_iff.mpr rfl, hpath⟩

theorem leads_growing_iff {id : RecordId} {n : Node} :
    s.Leads aliases (.growing id) n ↔ ReflTransGen (s.Edge aliases) (.record id) n := by
  constructor
  · rintro ⟨m, hm, hpath⟩
    rwa [holds_growing_iff.mp hm] at hpath
  · intro hpath
    exact ⟨_, holds_growing_iff.mpr rfl, hpath⟩

/-- A type of which all nodes stand behind a node leads where that node does. -/
theorem transGen_of_leads {t : Ty} {n m : Node} (hbehind : ∀ k, t.Holds aliases k → s.Edge aliases n k)
    (h : s.Leads aliases t m) : TransGen (s.Edge aliases) n m := by
  obtain ⟨k, hk, hpath⟩ := h
  exact TransGen.head' (hbehind k hk) hpath

/-! ### Children and nodes -/

/-- Within a type one step of reading mentions less; otherwise it crosses a variable or a record. -/
theorem child_cases {t u : Ty} (h : s.Child t u) :
    u.mentions false ⊆ t.mentions false ∨ (∃ v, t = .var v ∧ s.solution? v.id = some u) ∨
      ∃ id g, t = .growing id ∧ s.records[id]? = some g ∧ u.mentions false ⊆ g.links false := by
  cases h with
  | solution hsol => exact .inr (.inl ⟨_, rfl, hsol⟩)
  | growingField hrec hmem =>
    refine .inr (.inr ⟨_, _, rfl, hrec, fun r hr => ?_⟩)
    exact List.mem_append_left _ (Ty.mem_mentionsFields.mpr ⟨_, hmem, .inr hr⟩)
  | growingBase hrec =>
    exact .inr (.inr ⟨_, _, rfl, hrec, fun r hr => List.mem_append_right _ hr⟩)
  | arg hmem | item hmem =>
    refine .inl (fun r hr => ?_)
    simpa [Ty.mentions, Ty.mem_mentionsList] using ⟨u, hmem, hr⟩
  | field hmem =>
    refine .inl (fun r hr => ?_)
    simp only [Ty.mentions, Ty.mentionsAlias_false, List.mem_append, Ty.mem_mentionsFields]
    exact .inl ⟨_, hmem, .inr hr⟩
  | base =>
    refine .inl (fun r hr => ?_)
    simp only [Ty.mentions, Ty.mentionsAlias_false, Ty.mentionsBase, List.mem_append]
    exact .inr (.inl hr)
  | param hmem =>
    refine .inl (fun r hr => ?_)
    simp only [Ty.mentions, Ty.mentionsAlias_false, List.mem_append, Ty.mem_mentionsList]
    exact .inl ⟨u, hmem, hr⟩
  | ret =>
    refine .inl (fun r hr => ?_)
    simp only [Ty.mentions, Ty.mentionsAlias_false, List.mem_append]
    exact .inr (.inl hr)

theorem leads_of_child {t u : Ty} (h : s.Child t u) {n : Node} (hn : s.Leads false u n) :
    s.Leads false t n := by
  rcases child_cases h with hsub | ⟨v, rfl, hsol⟩ | ⟨id, g, rfl, hrec, hsub⟩
  · obtain ⟨m, ⟨r, hr, hnode⟩, hpath⟩ := hn
    exact ⟨m, ⟨r, hsub hr, hnode⟩, hpath⟩
  · exact leads_var_iff.mpr
      (transGen_of_leads (fun k hk => edge_of_solution hsol hk) hn).to_reflTransGen
  · refine leads_growing_iff.mpr (transGen_of_leads (fun k hk => ?_) hn).to_reflTransGen
    obtain ⟨r, hr, hnode⟩ := hk
    exact edge_of_record hrec (hsub hr) hnode

theorem leads_of_reads {t u : Ty} (h : ReflTransGen s.Child t u) {n : Node}
    (hn : s.Leads false u n) : s.Leads false t n := by
  induction h using ReflTransGen.head_induction_on with
  | refl => exact hn
  | head hstep _ ih => exact leads_of_child hstep ih

/-- The type that stands for a mention, for the mentions that are types. -/
def mentioned : Mention → Option Ty
  | .var v => some (.var v)
  | .record id => some (.growing id)
  | .field _ => none
  | .hole => none

/-- What a type mentions can be read in it. -/
theorem reads_of_mention (s : Store) {t u : Ty} {r : Mention} (hr : r ∈ t.mentions false)
    (hu : mentioned r = some u) : ReflTransGen s.Child t u := by
  induction t using Ty.inductParts with
  | unit => simp [Ty.mentions] at hr
  | unknown | inProgress =>
    obtain rfl : r = .hole := by simpa [Ty.mentions] using hr
    cases hu
  | var v =>
    obtain rfl : r = .var v := by simpa [Ty.mentions] using hr
    cases hu
    exact .refl
  | growing id =>
    obtain rfl : r = .record id := by simpa [Ty.mentions] using hr
    cases hu
    exact .refl
  | union m n args w iha _ =>
    obtain ⟨t, ht, hr⟩ : ∃ t ∈ args, r ∈ t.mentions false := by
      simpa [Ty.mentions, Ty.mem_mentionsList] using hr
    exact .head (.arg ht) (iha t ht hr)
  | tuple items ih =>
    obtain ⟨t, ht, hr⟩ : ∃ t ∈ items, r ∈ t.mentions false := by
      simpa [Ty.mentions, Ty.mem_mentionsList] using hr
    exact .head (.item ht) (ih t ht hr)
  | record fields base w refs ihf ihb _ =>
    simp only [Ty.mentions, Ty.mentionsAlias_false, List.append_nil, List.mem_append,
      Ty.mem_mentionsFields] at hr
    rcases hr with ⟨field, hf, rfl | hr⟩ | hr
    · cases hu
    · exact .head (.field hf) (ihf field hf hr)
    · cases base with
      | none => simp [Ty.mentionsBase] at hr
      | some b => exact .head .base (ihb b rfl hr)
  | arrow params ret w ihp ihr _ =>
    simp only [Ty.mentions, Ty.mentionsAlias_false, List.append_nil, List.mem_append,
      Ty.mem_mentionsList] at hr
    rcases hr with ⟨t, ht, hr⟩ | hr
    · exact .head (.param ht) (ihp t ht hr)
    · exact .head .ret (ihr hr)

/-- A type that stands for a node. -/
def Stands (n : Node) (t : Ty) : Prop :=
  ∃ r : Mention, r.node? = some n ∧ mentioned r = some t

theorem exists_mentioned {r : Mention} {n : Node} (h : r.node? = some n) :
    ∃ t, mentioned r = some t ∧ Stands n t := by
  cases r with
  | var v => exact ⟨.var v, rfl, .var v, h, rfl⟩
  | record id => exact ⟨.growing id, rfl, .record id, h, rfl⟩
  | field name => cases h
  | hole => cases h

/-- Following an edge is reading at least one step further. -/
theorem reads_of_edge {n m : Node} (h : s.Edge false n m) {t : Ty} (ht : Stands n t) :
    ∃ u, Stands m u ∧ ∃ c, s.Child t c ∧ ReflTransGen s.Child c u := by
  obtain ⟨r, hr, hnode⟩ := h
  obtain ⟨u, hu, hstands⟩ := exists_mentioned hnode
  refine ⟨u, hstands, ?_⟩
  obtain ⟨q, hq, hqt⟩ := ht
  cases q with
  | var v =>
    cases hq
    cases hqt
    cases hsol : s.solution? v.id with
    | none => simp [links, hsol] at hr
    | some c => exact ⟨c, .solution hsol, reads_of_mention s (by simpa [links, hsol] using hr) hu⟩
  | record id =>
    cases hq
    cases hqt
    cases hrec : s.records[id]? with
    | none => simp [links, hrec] at hr
    | some g =>
      have hmem : r ∈ g.links false := by simpa [links, hrec] using hr
      simp only [GrowingRecord.links, List.mem_append, Ty.mem_mentionsFields] at hmem
      rcases hmem with ⟨field, hf, rfl | hr⟩ | hr
      · cases hu
      · exact ⟨field.2, .growingField hrec hf, reads_of_mention s hr hu⟩
      · exact ⟨g.base, .growingBase hrec, reads_of_mention s hr hu⟩
  | field name => cases hq
  | hole => cases hq

theorem reads_of_path {n m : Node} (h : TransGen (s.Edge false) n m) {t : Ty} (ht : Stands n t) :
    ∃ u, Stands m u ∧ ∃ c, s.Child t c ∧ ReflTransGen s.Child c u := by
  induction h with
  | single hedge => exact reads_of_edge hedge ht
  | tail _ hedge ih =>
    obtain ⟨u, hu, c, hchild, hpath⟩ := ih
    obtain ⟨u', hu', c', hchild', hpath'⟩ := reads_of_edge hedge hu
    exact ⟨u', hu', c, hchild, (hpath.tail hchild').trans hpath'⟩

/-- All types that stand for one node have the same children. -/
theorem child_of_stands {n : Node} {t u c : Ty} (ht : Stands n t) (hu : Stands n u)
    (h : s.Child t c) : s.Child u c := by
  obtain ⟨q, hq, hqt⟩ := ht
  obtain ⟨r, hr, hru⟩ := hu
  cases q with
  | var v =>
    cases hq
    cases hqt
    cases r with
    | var w =>
      cases hru
      have hid : w.id = v.id := by simpa [Mention.node?] using hr
      cases h with
      | solution hsol => exact .solution (hid ▸ hsol)
    | record id => cases hr
    | field name => cases hr
    | hole => cases hr
  | record id =>
    cases hq
    cases hqt
    cases r with
    | var w => cases hr
    | record id' =>
      cases hru
      obtain rfl : id' = id := by simpa [Mention.node?] using hr
      exact h
    | field name => cases hr
    | hole => cases hr
  | field name => cases hq
  | hole => cases hq

theorem Acyclic.loopfree (h : s.Acyclic) : s.Loopfree false := by
  intro n hpath
  obtain ⟨r, hnode⟩ : ∃ r : Mention, r.node? = some n := by
    cases n with
    | var id => exact ⟨.var ⟨id, "", false⟩, rfl⟩
    | record id => exact ⟨.record id, rfl⟩
  obtain ⟨t, -, ht⟩ := exists_mentioned hnode
  -- the first round trip may come back under another name, the second one comes back to itself
  obtain ⟨u, hu, c, hchild, hback⟩ := reads_of_path hpath ht
  exact h u (TransGen.head' (child_of_stands ht hu hchild) hback)

end Store

end ElmInference
