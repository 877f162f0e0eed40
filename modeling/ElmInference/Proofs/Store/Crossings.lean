import ElmInference.Proofs.Store.Zonking

/-!
# What zonking crosses

Zonking is structural inside a type, so what becomes of it is decided where it goes on behind a variable or
inside a growing record: it returns when it returns there, and a fault is a fault from there. `Crosses` lists
these places, the arguments of aliases included.

Hence zonking ends exactly on the types that lead to no loop, in a store that owns all it mentions. On a type
that leads to a loop it does not end, however many crossings it is allowed.
-/

namespace ElmInference

namespace Store

open Relation Finset

/-- A type that is stored in the entry of a node. -/
inductive Entry (s : Store) : Node → Ty → Prop
  | solution {id : VarId} {t : Ty} : s.solution? id = some t → Entry s (.var id) t
  | field {id : RecordId} {g : GrowingRecord} {field : Name × Ty} : s.records[id]? = some g →
      field ∈ g.fields → Entry s (.record id) field.2
  | base {id : RecordId} {g : GrowingRecord} : s.records[id]? = some g → Entry s (.record id) g.base

/-- Whether a type stands behind one of the variables or inside one of the growing records of a list. -/
def Across (s : Store) (mentions : List Mention) (u : Ty) : Prop :=
  ∃ n, (∃ r ∈ mentions, r.node? = some n) ∧ s.Entry n u

/-- Whether zonking a type goes on with another one behind a variable or inside a growing record. -/
def Crosses (s : Store) (t : Ty) : Ty → Prop :=
  s.Across (t.mentions true)

variable {s : Store}

theorem Displays.part {t u : Ty} (ht : s.Displays t) (h : t.Part u) : s.Displays u :=
  fun r hr => ht r (h.mentions_subset hr)

theorem Displays.aliasArg {t u : Ty} (ht : s.Displays t) (h : u ∈ Ty.aliasArgs t.written?) : s.Displays u :=
  fun r hr => ht r (Ty.mentions_aliasArg_subset h hr)

/-! ### One level -/

/-- A computation that returns when `follow` returns on all of a set of types, and otherwise faults as
`follow` does on one of them. -/
def Settles {α : Type} (follow : Ty → Except Fault Ty) (U : Ty → Prop) (x : Except Fault α) : Prop :=
  (∃ a, x = .ok a ∧ ∀ u, U u → ∃ z, follow u = .ok z) ∨
    ∃ u fault, U u ∧ follow u = .error fault ∧ x = .error fault

section Settles

variable {α β : Type} {follow : Ty → Except Fault Ty} {U V : Ty → Prop}

theorem Settles.congr {x : Except Fault α} (h : Settles follow U x) (hUV : ∀ u, U u ↔ V u) :
    Settles follow V x := by
  rwa [← (funext fun u => propext (hUV u) : U = V)]

theorem Settles.bind {x : Except Fault α} {f : α → Except Fault β} (hx : Settles follow U x)
    (hf : ∀ a, Settles follow V (f a)) : Settles follow (fun u => U u ∨ V u) (x >>= f) := by
  rcases hx with ⟨a, rfl, hU⟩ | ⟨u, fault, hu, hfollow, rfl⟩
  · rcases hf a with ⟨b, hb, hV⟩ | ⟨u, fault, hu, hfollow, hb⟩
    · exact .inl ⟨b, hb, fun u hu => hu.elim (hU u) (hV u)⟩
    · exact .inr ⟨u, fault, .inr hu, hfollow, hb⟩
  · exact .inr ⟨u, fault, .inl hu, hfollow, rfl⟩

theorem settles_ok (a : α) (hU : ∀ u, ¬ U u) : Settles follow U (.ok a) :=
  .inl ⟨a, rfl, fun u hu => absurd hu (hU u)⟩

/-- A computation that does something with what another one returns. -/
theorem Settles.map {x : Except Fault α} (f : α → β) (hx : Settles follow U x) :
    Settles follow U (x >>= fun a => .ok (f a)) :=
  (hx.bind (V := fun _ => False) (fun a => settles_ok (f a) (fun _ => id))).congr (by simp)

theorem settles_follow (u : Ty) : Settles follow (· = u) (follow u) := by
  cases hfollow : follow u with
  | ok z =>
    refine .inl ⟨z, rfl, ?_⟩
    rintro _ rfl
    exact ⟨z, hfollow⟩
  | error fault => exact .inr ⟨u, fault, rfl, hfollow, rfl⟩

theorem settles_mapM {f : α → Except Fault β} {C : α → Ty → Prop} {xs : List α}
    (h : ∀ x ∈ xs, Settles follow (C x) (f x)) : Settles follow (fun u => ∃ x ∈ xs, C x u) (xs.mapM f) := by
  induction xs with
  | nil => exact settles_ok _ (by simp)
  | cons x xs ih =>
    rw [List.mapM_cons]
    have hrest := ih (fun y hy => h y (List.mem_cons_of_mem _ hy))
    exact ((h x List.mem_cons_self).bind (fun _ => hrest.map _)).congr (by simp)

theorem settles_fields (fields : List (Name × Ty)) :
    Settles follow (fun u => ∃ field ∈ fields, u = field.2)
      (fields.mapM (fun field => do return (field.1, ← follow field.2))) :=
  settles_mapM fun field _ => (settles_follow field.2).map _

theorem settles_zonkList {ts : List Ty}
    (h : ∀ t ∈ ts, Settles follow (s.Crosses t) (s.zonkWith follow t)) :
    Settles follow (fun u => ∃ t ∈ ts, s.Crosses t u) (s.zonkList follow ts) := by
  rw [zonkList_eq]
  exact settles_mapM h

theorem settles_zonkFields {fields : List (Name × Ty)}
    (h : ∀ field ∈ fields, Settles follow (s.Crosses field.2) (s.zonkWith follow field.2)) :
    Settles follow (fun u => ∃ field ∈ fields, s.Crosses field.2 u) (s.zonkFields follow fields) := by
  rw [zonkFields_eq]
  exact settles_mapM fun field hfield => (h field hfield).map _

theorem settles_zonkBase {base : Option Ty}
    (h : ∀ t, base = some t → Settles follow (s.Crosses t) (s.zonkWith follow t)) :
    Settles follow (fun u => ∃ t, base = some t ∧ s.Crosses t u) (s.zonkBase follow base) := by
  cases base with
  | none =>
    rw [zonkBase]
    exact settles_ok _ (by simp)
  | some t =>
    rw [zonkBase]
    exact ((h t rfl).map _).congr (by simp)

theorem settles_zonkAlias {w : Option (AliasUse Ty)}
    (h : ∀ t ∈ Ty.aliasArgs w, Settles follow (s.Crosses t) (s.zonkWith follow t)) :
    Settles follow (fun u => ∃ t ∈ Ty.aliasArgs w, s.Crosses t u) (s.zonkAlias follow w) := by
  rcases w with _ | ⟨m, n, args⟩
  · rw [zonkAlias]
    exact settles_ok _ (by simp [Ty.aliasArgs])
  · rw [zonkAlias]
    exact (settles_zonkList h).map _

/-! ### All types -/

theorem across_append {ms ms' : List Mention} {u : Ty} :
    s.Across (ms ++ ms') u ↔ s.Across ms u ∨ s.Across ms' u := by
  simp only [Across, List.mem_append]
  grind

theorem across_mentionsList {ts : List Ty} {u : Ty} :
    s.Across (Ty.mentionsList true ts) u ↔ ∃ t ∈ ts, s.Crosses t u := by
  simp only [Crosses, Across, Ty.mem_mentionsList]
  grind

theorem across_mentionsFields {fields : List (Name × Ty)} {u : Ty} :
    s.Across (Ty.mentionsFields true fields) u ↔ ∃ field ∈ fields, s.Crosses field.2 u := by
  simp only [Crosses, Across, Ty.mem_mentionsFields]
  constructor
  · rintro ⟨n, ⟨r, ⟨field, hf, rfl | hr⟩, hn⟩, hentry⟩
    · cases hn
    · exact ⟨field, hf, n, ⟨r, hr, hn⟩, hentry⟩
  · rintro ⟨field, hf, n, ⟨r, hr, hn⟩, hentry⟩
    exact ⟨n, ⟨r, ⟨field, hf, .inr hr⟩, hn⟩, hentry⟩

theorem across_mentionsBase {base : Option Ty} {u : Ty} :
    s.Across (Ty.mentionsBase true base) u ↔ ∃ t, base = some t ∧ s.Crosses t u := by
  cases base <;> simp [Crosses, Across, Ty.mentionsBase]

theorem crosses_var {v : TyVar} {u : Ty} : s.Crosses (.var v) u ↔ s.solution? v.id = some u := by
  constructor
  · rintro ⟨n, ⟨r, hr, hn⟩, hentry⟩
    obtain rfl : r = .var v := by simpa [Ty.mentions] using hr
    cases hn
    cases hentry with
    | solution hsol => exact hsol
  · intro hsol
    exact ⟨.var v.id, ⟨.var v, by simp [Ty.mentions], rfl⟩, .solution hsol⟩

theorem crosses_growing {id : RecordId} {g : GrowingRecord} (hrec : s.records[id]? = some g) {u : Ty} :
    s.Crosses (.growing id) u ↔ (∃ field ∈ g.fields, u = field.2) ∨ u = g.base := by
  constructor
  · rintro ⟨n, ⟨r, hr, hn⟩, hentry⟩
    obtain rfl : r = .record id := by simpa [Ty.mentions] using hr
    cases hn
    cases hentry with
    | field hrec' hf =>
      rw [hrec] at hrec'
      cases hrec'
      exact .inl ⟨_, hf, rfl⟩
    | base hrec' =>
      rw [hrec] at hrec'
      cases hrec'
      exact .inr rfl
  · have hholds : ∃ r ∈ (Ty.growing id).mentions true, r.node? = some (.record id) :=
      ⟨.record id, by simp [Ty.mentions], rfl⟩
    rintro (⟨field, hf, rfl⟩ | rfl)
    · exact ⟨.record id, hholds, .field hrec hf⟩
    · exact ⟨.record id, hholds, .base hrec⟩

/-- One level of zonking is decided by what it crosses. -/
theorem settles_zonkWith (follow : Ty → Except Fault Ty) {t : Ty} (ht : s.Displays t) :
    Settles follow (s.Crosses t) (s.zonkWith follow t) := by
  have hleaf : ∀ {t : Ty}, (∀ r ∈ t.mentions true, r.node? = none) → ∀ u, ¬ s.Crosses t u := by
    rintro t hnone u ⟨n, ⟨r, hr, hn⟩, -⟩
    rw [hnone r hr] at hn
    cases hn
  induction t using Ty.inductParts with
  | unit | unknown | inProgress =>
    rw [zonkWith]
    exact settles_ok _ (hleaf (by simp [Ty.mentions, Mention.node?]))
  | var v =>
    rw [zonkWith, solution_of_lt (ht (.var v) (by simp [Ty.mentions]))]
    cases hsol : s.solution? v.id with
    | none => exact settles_ok _ (fun u hu => by simp [crosses_var, hsol] at hu)
    | some t => exact (settles_follow t).congr (fun u => by simp [crosses_var, hsol, eq_comm])
  | growing id =>
    obtain ⟨g, hrec⟩ := exists_record (ht (.record id) (by simp [Ty.mentions]))
    rw [zonkWith, record_of_some hrec, ok_bind]
    refine ((settles_fields g.fields).bind (fun fields => ?_)).congr (fun u => (crosses_growing hrec).symm)
    refine ((settles_follow g.base).bind (V := fun _ => False) (fun base => ?_)).congr (by simp)
    cases base <;> exact settles_ok _ (by simp)
  | union m n args w iha ihw =>
    have hargs := settles_zonkList (s := s) (fun u hu => iha u hu (ht.part (.arg hu)))
    have halias := settles_zonkAlias (s := s) (fun u hu => ihw u hu (ht.aliasArg hu))
    rw [zonkWith]
    refine (hargs.bind (fun _ => halias.map _)).congr (fun u => ?_)
    simp only [Crosses, Ty.mentions, Ty.mentionsAlias_true, across_append, across_mentionsList]
  | tuple items ih =>
    have hitems := settles_zonkList (s := s) (fun u hu => ih u hu (ht.part (.item hu)))
    rw [zonkWith]
    refine (hitems.map _).congr (fun u => ?_)
    simp only [Crosses, Ty.mentions, across_mentionsList]
  | record fields base w refs ihf ihb ihw =>
    have hfields := settles_zonkFields (s := s) (fun field hf => ihf field hf (ht.part (.field hf)))
    have hbase := settles_zonkBase (s := s) (fun b hb => ihb b hb (by
      subst hb
      exact ht.part .base))
    have halias := settles_zonkAlias (s := s) (fun u hu => ihw u hu (ht.aliasArg hu))
    rw [zonkWith]
    refine (hfields.bind (fun _ => hbase.bind (fun _ => halias.map _))).congr (fun u => ?_)
    simp only [Crosses, Ty.mentions, Ty.mentionsAlias_true, across_append, across_mentionsList,
      across_mentionsFields, across_mentionsBase]
  | arrow params ret w ihp ihr ihw =>
    have hparams := settles_zonkList (s := s) (fun u hu => ihp u hu (ht.part (.param hu)))
    have hret := ihr (ht.part .ret)
    have halias := settles_zonkAlias (s := s) (fun u hu => ihw u hu (ht.aliasArg hu))
    rw [zonkWith]
    refine (hparams.bind (fun _ => hret.bind (fun _ => halias.map _))).congr (fun u => ?_)
    simp only [Crosses, Ty.mentions, Ty.mentionsAlias_true, across_append, across_mentionsList]

end Settles

/-! ### Loops -/

/-- Whether a type leads to a node that stands behind itself, the arguments of aliases included. -/
def Loops (s : Store) (t : Ty) : Prop :=
  ∃ n, s.Leads true t n ∧ TransGen (s.Edge true) n n

/-- A store that owns what it holds, the arguments of aliases included. -/
structure Exhibits (s : Store) : Prop where
  solution : ∀ id t, s.solution? id = some t → s.Displays t
  record : ∀ (id : RecordId) g, s.records[id]? = some g → ∀ r ∈ g.links true, s.Has r

theorem Displayable.exhibits (h : s.Displayable) : s.Exhibits :=
  ⟨h.solution, h.record⟩

theorem Displayable.not_loops (h : s.Displayable) (t : Ty) : ¬ s.Loops t := by
  rintro ⟨n, -, hloop⟩
  exact h.loopfree n hloop

theorem Entry.behind {n : Node} {t : Ty} (h : s.Entry n t) : s.Behind true n t := by
  cases h with
  | solution hsol => exact behind_solution hsol
  | field hrec hf => exact behind_field hrec hf
  | base hrec => exact behind_base hrec

theorem Entry.mem_nodes {n : Node} {t : Ty} (h : s.Entry n t) : n ∈ s.nodes := by
  cases h with
  | solution hsol => exact var_mem_nodes.mpr (lt_size_of_solution? hsol)
  | field hrec _ => exact record_mem_nodes.mpr (lt_size_of_record? hrec)
  | base hrec => exact record_mem_nodes.mpr (lt_size_of_record? hrec)

/-- What stands behind a node stands in one of the types of its entry. -/
theorem exists_entry_of_edge {n m : Node} (h : s.Edge true n m) : ∃ t, s.Entry n t ∧ t.Holds true m := by
  obtain ⟨r, hr, hnode⟩ := h
  cases n with
  | var id =>
    cases hsol : s.solution? id with
    | none => simp [links, hsol] at hr
    | some t => exact ⟨t, .solution hsol, r, by simpa [links, hsol] using hr, hnode⟩
  | record id =>
    cases hrec : s.records[id]? with
    | none => simp [links, hrec] at hr
    | some g =>
      have hmem : r ∈ g.links true := by simpa [links, hrec] using hr
      simp only [GrowingRecord.links, List.mem_append, Ty.mem_mentionsFields] at hmem
      rcases hmem with ⟨field, hf, rfl | hr⟩ | hr
      · cases hnode
      · exact ⟨field.2, .field hrec hf, r, hr, hnode⟩
      · exact ⟨g.base, .base hrec, r, hr, hnode⟩

theorem Crosses.displays {t u : Ty} (h : s.Crosses t u) (hstore : s.Exhibits) : s.Displays u := by
  obtain ⟨n, -, hentry⟩ := h
  cases hentry with
  | solution hsol => exact hstore.solution _ _ hsol
  | field hrec hf =>
    exact fun r hr => hstore.record _ _ hrec r
      (List.mem_append_left _ (Ty.mem_mentionsFields.mpr ⟨_, hf, .inr hr⟩))
  | base hrec => exact fun r hr => hstore.record _ _ hrec r (List.mem_append_right _ hr)

theorem Crosses.loops {t u : Ty} (h : s.Crosses t u) (hu : s.Loops u) : s.Loops t := by
  obtain ⟨n, hholds, hentry⟩ := h
  obtain ⟨m, hleads, hloop⟩ := hu
  exact ⟨m, ⟨n, hholds, (transGen_of_leads hentry.behind hleads).to_reflTransGen⟩, hloop⟩

/-- From a type that leads to a loop zonking goes on to another one. -/
theorem Loops.exists_crosses {t : Ty} (h : s.Loops t) : ∃ u, s.Crosses t u ∧ s.Loops u := by
  obtain ⟨n, ⟨m, hholds, hpath⟩, hloop⟩ := h
  obtain ⟨k, hedge, hrest⟩ := TransGen.head'_iff.mp (TransGen.trans_right hpath hloop)
  obtain ⟨u, hentry, hk⟩ := exists_entry_of_edge hedge
  exact ⟨u, ⟨m, hholds, hentry⟩, n, ⟨k, hk, hrest⟩, hloop⟩

/-- Behind a node that is on no loop less can be reached. -/
theorem Crosses.rank_lt {t u : Ty} (h : s.Crosses t u) (ht : ¬ s.Loops t) :
    s.rank true u < s.rank true t := by
  obtain ⟨n, hholds, hentry⟩ := h
  have hleads : s.Leads true t n := leads_of_holds hholds
  have hnot : n ∉ s.reach true u := by
    intro hmem
    exact ht ⟨n, hleads, transGen_of_leads hentry.behind (mem_reach.mp hmem).2⟩
  have hcard := card_le_card (hentry.behind.insert_reach_subset hentry.mem_nodes hleads)
  rwa [card_insert_of_notMem hnot] at hcard

/-! ### When zonking ends -/

theorem exists_zonkAt (hstore : s.Exhibits) {n : Nat} {t : Ty} (ht : s.Displays t) (hloops : ¬ s.Loops t)
    (hrank : s.rank true t ≤ n) : ∃ z, s.zonkAt n t = .ok z := by
  induction n generalizing t with
  | zero =>
    rcases settles_zonkWith (fun _ => .error .diverged) ht with
      ⟨z, hz, -⟩ | ⟨u, -, hcrosses, -⟩
    · exact ⟨z, hz⟩
    · have hlt := hcrosses.rank_lt hloops
      omega
  | succ n ih =>
    rcases settles_zonkWith (s.zonkAt n) ht with ⟨z, hz, -⟩ | ⟨u, fault, hcrosses, hfault, -⟩
    · exact ⟨z, hz⟩
    · have hlt := hcrosses.rank_lt hloops
      obtain ⟨z, hz⟩ := ih (hcrosses.displays hstore) (fun hu => hloops (hcrosses.loops hu)) (by omega)
      rw [hfault] at hz
      cases hz

/-- Zonking what a store owns has no fault but that it does not end. -/
theorem fault_of_zonkAt (hstore : s.Exhibits) {n : Nat} {t : Ty} {fault : Fault} (ht : s.Displays t)
    (h : s.zonkAt n t = .error fault) : fault = .diverged := by
  induction n generalizing t with
  | zero =>
    rcases settles_zonkWith (fun _ => .error .diverged) ht with ⟨z, hz, -⟩ | ⟨u, _, -, hfault, hz⟩
    · cases h.symm.trans hz
    · cases hfault
      cases h.symm.trans hz
      rfl
  | succ n ih =>
    rcases settles_zonkWith (s.zonkAt n) ht with ⟨z, hz, -⟩ | ⟨u, fault', hcrosses, hfault, hz⟩
    · cases h.symm.trans hz
    · cases h.symm.trans hz
      exact ih (hcrosses.displays hstore) hfault

/-- What is written out goes on only with what can be written out in fewer crossings. -/
theorem exists_zonkAt_of_crosses {n : Nat} {t u z : Ty} (ht : s.Displays t) (h : s.zonkAt n t = .ok z)
    (hcrosses : s.Crosses t u) : ∃ m y, n = m + 1 ∧ s.zonkAt m u = .ok y := by
  cases n with
  | zero =>
    rcases settles_zonkWith (fun _ => .error .diverged) ht with ⟨_, -, hall⟩ | ⟨_, _, -, -, hz⟩
    · obtain ⟨_, hz⟩ := hall u hcrosses
      cases hz
    · cases h.symm.trans hz
  | succ n =>
    rcases settles_zonkWith (s.zonkAt n) ht with ⟨_, -, hall⟩ | ⟨_, _, -, -, hz⟩
    · obtain ⟨y, hy⟩ := hall u hcrosses
      exact ⟨n, y, rfl, hy⟩
    · cases h.symm.trans hz

theorem not_loops_of_zonkAt (hstore : s.Exhibits) {n : Nat} {t z : Ty} (ht : s.Displays t)
    (h : s.zonkAt n t = .ok z) : ¬ s.Loops t := by
  intro hloops
  obtain ⟨u, hcrosses, hu⟩ := hloops.exists_crosses
  induction n generalizing t z u with
  | zero =>
    obtain ⟨_, _, hn, -⟩ := exists_zonkAt_of_crosses ht h hcrosses
    cases hn
  | succ n ih =>
    obtain ⟨_, _, hn, hz⟩ := exists_zonkAt_of_crosses ht h hcrosses
    cases hn
    obtain ⟨u', hcrosses', hu'⟩ := hu.exists_crosses
    exact ih (hcrosses.displays hstore) hz hu u' hcrosses' hu'

/-- On a type that leads to a loop zonking is never done. -/
theorem zonkAt_of_loops (hstore : s.Exhibits) (n : Nat) {t : Ty} (ht : s.Displays t) (hloops : s.Loops t) :
    s.zonkAt n t = .error .diverged := by
  cases hzonk : s.zonkAt n t with
  | ok z => exact absurd hloops (not_loops_of_zonkAt hstore ht hzonk)
  | error fault => rw [fault_of_zonkAt hstore ht hzonk]

/-- Zonking ends exactly on the types that lead to no loop. -/
theorem exists_zonk_iff (hstore : s.Exhibits) {t : Ty} (ht : s.Displays t) :
    (∃ z, s.zonk t = .ok z) ↔ ¬ s.Loops t := by
  constructor
  · rintro ⟨z, hz⟩
    exact not_loops_of_zonkAt hstore ht hz
  · intro hloops
    exact exists_zonkAt hstore ht hloops (s.rank_le_crossings true t)

theorem exists_zonk (hstore : s.Displayable) {t : Ty} (ht : s.Displays t) : ∃ z, s.zonk t = .ok z :=
  (exists_zonk_iff hstore.exhibits ht).mpr (hstore.not_loops t)

end Store

end ElmInference
