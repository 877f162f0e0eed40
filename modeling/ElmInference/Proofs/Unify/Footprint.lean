import ElmInference.Proofs.Store.Advances
import ElmInference.Proofs.Unify.Agreement
import ElmInference.Proofs.Unify.Constraining

/-!
# What unification leaves alone

Unifying and constraining are moves of a world that knows only what the given types talk about. So whatever comes of
it, entries stay, and a variable of the store gets a solution only if it was flexible, had none, and can be read in one
of the types.

Zonking looks at the entries of what a type leads to and at nothing else. A type that leads to no unsolved variable of
the given ones is therefore written out as before. This is also what happens when zonking does not end.
-/

namespace ElmInference

open Relation

namespace Store

variable {s s' : Store}

/-! ### Zonking in two stores -/

structure SameEntry (s s' : Store) (n : Node) : Prop where
  solution : ∀ id, n = .var id → s'.solution id = s.solution id
  record : ∀ id, n = .record id → s'.record id = s.record id

section Level

variable {follow follow' : Ty → Except Fault Ty}

theorem mapM_congr_of_mem {α β : Type} {xs : List α} {f f' : α → Except Fault β} (h : ∀ x ∈ xs, f' x = f x) :
    xs.mapM f' = xs.mapM f := by
  induction xs with
  | nil => rfl
  | cons x xs ih =>
    rw [List.mapM_cons, List.mapM_cons, h x List.mem_cons_self, ih (fun y hy => h y (List.mem_cons_of_mem _ hy))]

theorem zonkList_congr {ts : List Ty} (h : ∀ t ∈ ts, s'.zonkWith follow' t = s.zonkWith follow t) :
    s'.zonkList follow' ts = s.zonkList follow ts := by
  rw [zonkList_eq, zonkList_eq, mapM_congr_of_mem h]

theorem zonkFields_congr {fields : List (Name × Ty)}
    (h : ∀ field ∈ fields, s'.zonkWith follow' field.2 = s.zonkWith follow field.2) :
    s'.zonkFields follow' fields = s.zonkFields follow fields := by
  rw [zonkFields_eq, zonkFields_eq, mapM_congr_of_mem fun field hfield => by rw [h field hfield]]

theorem zonkBase_congr {base : Option Ty} (h : ∀ t, base = some t → s'.zonkWith follow' t = s.zonkWith follow t) :
    s'.zonkBase follow' base = s.zonkBase follow base := by
  cases base with
  | none => rfl
  | some t => rw [zonkBase, zonkBase, h t rfl]

theorem zonkAlias_congr {w : Option (AliasUse Ty)}
    (h : ∀ t ∈ Ty.aliasArgs w, s'.zonkWith follow' t = s.zonkWith follow t) :
    s'.zonkAlias follow' w = s.zonkAlias follow w := by
  rcases w with _ | ⟨m, n, args⟩
  · rfl
  · have hargs : s'.zonkList follow' args = s.zonkList follow args := zonkList_congr h
    rw [zonkAlias, zonkAlias, hargs]

/-- One level of zonking depends on the entries of the nodes in a type, and on what becomes of the types in these. -/
theorem zonkWith_congr {t : Ty}
    (h : ∀ n, t.Holds true n → s.SameEntry s' n ∧ ∀ u, s.Entry n u → follow' u = follow u) :
    s'.zonkWith follow' t = s.zonkWith follow t := by
  have hpart : ∀ {t u : Ty}, (∀ n, t.Holds true n → s.SameEntry s' n ∧ ∀ u, s.Entry n u → follow' u = follow u) →
      u.mentions true ⊆ t.mentions true →
      ∀ n, u.Holds true n → s.SameEntry s' n ∧ ∀ u, s.Entry n u → follow' u = follow u :=
    fun h hsub n ⟨r, hr, hn⟩ => h n ⟨r, hsub hr, hn⟩
  induction t using Ty.inductParts with
  | unit => rfl
  | unknown => rfl
  | inProgress => rfl
  | var v =>
    obtain ⟨hsame, hfollow⟩ := h _ (holds_var_iff.mpr rfl)
    rw [zonkWith, zonkWith, hsame.solution v.id rfl]
    by_cases hlt : v.id < s.size
    · rw [solution_of_lt hlt]
      cases hsol : s.solution? v.id with
      | none => rfl
      | some u => exact hfollow u (.solution hsol)
    · rw [solution_of_ge (Nat.le_of_not_lt hlt)]
      rfl
  | growing id =>
    obtain ⟨hsame, hfollow⟩ := h _ (holds_growing_iff.mpr rfl)
    rw [zonkWith, zonkWith, hsame.record id rfl]
    cases hrec : s.records[id]? with
    | none =>
      have hlost : s.record id = .error (.missingRecord id) := by simp [Store.record, hrec]
      rw [hlost]
      rfl
    | some g =>
      rw [record_of_some hrec, ok_bind, ok_bind, hfollow g.base (.base hrec),
        mapM_congr_of_mem (fun field hfield => by rw [hfollow field.2 (.field hrec hfield)])]
  | union m n args w iha ihw =>
    rw [zonkWith, zonkWith, zonkList_congr (fun u hu => iha u hu (hpart h (Ty.Part.mentions_subset (.arg hu)))),
      zonkAlias_congr (fun u hu => ihw u hu (hpart h (Ty.mentions_aliasArg_subset hu)))]
  | tuple items ih =>
    rw [zonkWith, zonkWith, zonkList_congr (fun u hu => ih u hu (hpart h (Ty.Part.mentions_subset (.item hu))))]
  | record fields base w refs ihf ihb ihw =>
    have hbase : s'.zonkBase follow' base = s.zonkBase follow base := by
      refine zonkBase_congr (fun u hu => ihb u hu (hpart h ?_))
      subst hu
      exact Ty.Part.mentions_subset .base
    rw [zonkWith, zonkWith, zonkFields_congr (fun u hu => ihf u hu (hpart h (Ty.Part.mentions_subset (.field hu)))),
      hbase, zonkAlias_congr (fun u hu => ihw u hu (hpart h (Ty.mentions_aliasArg_subset hu)))]
  | arrow params ret w ihp ihr ihw =>
    rw [zonkWith, zonkWith, zonkList_congr (fun u hu => ihp u hu (hpart h (Ty.Part.mentions_subset (.param hu)))),
      ihr (hpart h (Ty.Part.mentions_subset .ret)),
      zonkAlias_congr (fun u hu => ihw u hu (hpart h (Ty.mentions_aliasArg_subset hu)))]

end Level

/-- Zonking a type looks at the entries of the nodes that the type leads to, and at no others. -/
theorem zonkAt_congr {t : Ty} (h : ∀ n, s.Leads true t n → s.SameEntry s' n) (k : Nat) :
    s'.zonkAt k t = s.zonkAt k t := by
  rw [zonkAt_eq, zonkAt_eq]
  induction k generalizing t with
  | zero => exact zonkWith_congr (fun n hn => ⟨h n (leads_of_holds hn), fun _ _ => rfl⟩)
  | succ k ih =>
    refine zonkWith_congr (fun n hn => ⟨h n (leads_of_holds hn), fun u hu => ?_⟩)
    rw [onward, onward, zonkAt_eq, zonkAt_eq]
    exact ih (fun m hm => h m ⟨n, hn, (transGen_of_leads hu.behind hm).to_reflTransGen⟩)

/-- Whether all nodes that a mention leads to belong to the store. -/
def Grounded (s : Store) (r : Mention) : Prop :=
  ∀ n m, r.node? = some n → ReflTransGen (s.Edge true) n m → s.HasNode m

theorem grounded_of_edges {r : Mention} {n : Node} (hnode : r.node? = some n) (hn : s.HasNode n)
    (h : ∀ r' ∈ s.links true n, s.Grounded r') : s.Grounded r := by
  intro n' m hn' hpath
  cases hnode.symm.trans hn'
  rcases hpath.cases_head with rfl | ⟨k, ⟨r', hr', hk⟩, hrest⟩
  · exact hn
  · exact h r' hr' k m hk hrest

theorem grounded_list {ts ys zs : List Ty}
    (h : Alongside (fun t _ _ => ∀ r ∈ t.mentions true, s.Grounded r) ts ys zs) :
    ∀ r ∈ Ty.mentionsList true ts, s.Grounded r := by
  intro r hr
  obtain ⟨t, ht, hr⟩ := Ty.mem_mentionsList.mp hr
  obtain ⟨-, -, -, hgrounded⟩ := h.exists_right ht
  exact hgrounded r hr

theorem grounded_fields {fields ys zs : List (Name × Ty)}
    (h : Alongside (FieldRel (fun t _ _ => ∀ r ∈ t.mentions true, s.Grounded r)) fields ys zs) :
    ∀ r ∈ Ty.mentionsFields true fields, s.Grounded r := by
  intro r hr
  obtain ⟨field, hfield, rfl | hr⟩ := Ty.mem_mentionsFields.mp hr
  · exact fun _ _ h => nomatch h
  · obtain ⟨-, -, -, -, -, hgrounded⟩ := h.exists_right hfield
    exact hgrounded r hr

theorem respectful_grounded : Respectful (fun t _ _ => ∀ r ∈ t.mentions true, s.Grounded r) where
  unit := by simp [Ty.mentions]
  unknown := by simp [Ty.mentions, Grounded, Mention.node?]
  inProgress := by simp [Ty.mentions, Grounded, Mention.node?]
  union hargs hw := by
    rw [Ty.mentions, Ty.mentionsAlias_true, List.forall_mem_append]
    exact ⟨grounded_list hargs, grounded_list hw.args⟩
  tuple hitems := by
    rw [Ty.mentions]
    exact grounded_list hitems
  record hfields hbase hw := by
    rw [Ty.mentions, Ty.mentionsAlias_true, List.forall_mem_append, List.forall_mem_append]
    refine ⟨grounded_fields hfields, ?_, grounded_list hw.args⟩
    cases hbase with
    | none => simp [Ty.mentionsBase]
    | some hbase => exact hbase
  arrow hparams hret hw := by
    rw [Ty.mentions, Ty.mentionsAlias_true, List.forall_mem_append, List.forall_mem_append]
    exact ⟨grounded_list hparams, hret, grounded_list hw.args⟩

/-- A type that can be written out leads to nodes of the store only. -/
theorem hasNode_of_zonkAt {k : Nat} {t z : Ty} (h : s.zonkAt k t = .ok z) {n : Node} (hn : s.Leads true t n) :
    s.HasNode n := by
  have hgrounded : ∀ r ∈ t.mentions true, s.Grounded r := by
    refine zonkAt_induct (P := fun t _ => ∀ r ∈ t.mentions true, s.Grounded r) respectful_grounded
      (fun v hun => ?_) (fun v u _ hsol hu => ?_) (fun id g ys zs b hrec hys hb => ?_) h
    · rintro r (_ | ⟨_, ⟨⟩⟩)
      refine grounded_of_edges (n := .var v.id) rfl hun.1 ?_
      simp [links, hun.2]
    · rintro r (_ | ⟨_, ⟨⟩⟩)
      refine grounded_of_edges (n := .var v.id) rfl (lt_size_of_solution? hsol) ?_
      simpa [links, hsol] using hu
    · rintro r (_ | ⟨_, ⟨⟩⟩)
      refine grounded_of_edges (n := .record id) rfl (lt_size_of_record? hrec) ?_
      simp only [links, hrec, Option.elim_some, GrowingRecord.links, List.forall_mem_append]
      exact ⟨grounded_fields hys, hb⟩
  obtain ⟨m, ⟨r, hr, hm⟩, hpath⟩ := hn
  exact hgrounded r hr m n hm hpath

/-! ### What gets solved -/

/-- A variable that moves solve was flexible, and at hand before if it belonged to the store. -/
theorem Moves.exists_of_solved {w w' : World} (h : Moves w w') {id : VarId} (hun : w.1.Unsolved id) {t : Ty}
    (hsol : w'.1.solution? id = some t) : ∃ v : TyVar, v.id = id ∧ v.rigid = false ∧ .var v ∈ w.2 := by
  induction h with
  | refl => exact absurd hun (not_unsolved_of_some hsol)
  | @tail w₁ w₂ hbefore hmove ih =>
    cases hmove with
    | fresh name rigid =>
      rw [solution?_extended] at hsol
      exact ih hsol
    | @solve s₁ Q₁ v u hv hflexible hmem _ _ =>
      by_cases hid : id = v.id
      · subst hid
        rcases (Moves.advances hbefore).new hmem with hmem | hnew
        · exact ⟨v, rfl, hflexible, hmem⟩
        · exact absurd hun.1 hnew
      · rw [solution?_solved_of_ne _ u hid] at hsol
        exact ih hsol
    | copy _ => exact ih hsol

/-- Whether a store has the entries of an earlier one, and solves of its variables only flexible ones that were read in
one of two types. -/
structure Confined (s : Store) (a e : Ty) (s' : Store) : Prop where
  extension : s.Extends s'
  solved : ∀ id t, s.Unsolved id → s'.solution? id = some t → ∃ v : TyVar, v.id = id ∧ v.rigid = false ∧
    (ReflTransGen s.Child a (.var v) ∨ ReflTransGen s.Child e (.var v))

theorem confined_of_moves {a e : Ty} {Q : Set Mention} (h : Moves (s, s.talk a e) (s', Q)) : s.Confined a e s' := by
  refine ⟨h.extends, fun id t hun hsol => ?_⟩
  obtain ⟨v, hid, hflexible, ⟨name, hname⟩ | ⟨u, hu, hmem⟩⟩ := h.exists_of_solved hun hsol
  · cases hname
  · have hread : ReflTransGen s.Child u (.var v) := reads_of_mention s hmem rfl
    exact ⟨v, hid, hflexible, hu.imp (·.trans hread) (·.trans hread)⟩

inductive Call (s : Store) : Ty → Ty → Store → Prop
  | unify {a e : Ty} {o : Outcome} {s' : Store} : StoreM.unify a e s = .ok (o, s') → Call s a e s'
  | constrain {c : Typeclass} {t : Ty} {o : Outcome} {s' : Store} : StoreM.constrain c t s = .ok (o, s') →
      Call s t t s'

theorem Call.confined {a e : Ty} (h : s.Call a e s') (hsane : s.Sane) (ha : s.Owns a) (he : s.Owns e) :
    s.Confined a e s' := by
  have htidy := tidy_talk hsane ha he
  have haQ : a.Within (s.talk a e) := fun r hr => talk_of_reads (.inl .refl) .refl hr
  have heQ : e.Within (s.talk a e) := fun r hr => talk_of_reads (.inr .refl) .refl hr
  cases h with
  | unify hrun =>
    have hlands := StoreM.safe_unify s a e _ htidy haQ heQ
    rw [hrun] at hlands
    obtain ⟨Q', hmoves⟩ := hlands
    exact confined_of_moves hmoves
  | constrain hrun =>
    obtain ⟨Q', hmoves⟩ := (StoreM.restrains_constrainAt _ _ _ hrun).moves _ htidy haQ
    exact confined_of_moves hmoves

theorem Call.sane {a e : Ty} (h : s.Call a e s') (hsane : s.Sane) (ha : s.Owns a) (he : s.Owns e) : s'.Sane := by
  cases h with
  | unify hrun => exact hsane.unify ha he hrun
  | constrain hrun => exact hsane.constrain ha hrun

/-! ### What is written out as before -/

/-- Whether no unsolved variable that is read in one of two types is led to by a third one. Aliases count in that one. -/
def Clear (s : Store) (a e t : Ty) : Prop :=
  ∀ v : TyVar, s.Unsolved v.id → ReflTransGen s.Child a (.var v) ∨ ReflTransGen s.Child e (.var v) →
    ¬ s.Leads true t (.var v.id)

theorem Confined.sameEntry {a e t : Ty} (h : s.Confined a e s') (hclear : s.Clear a e t) {n : Node}
    (hn : s.Leads true t n) (hhas : s.HasNode n) : s.SameEntry s' n := by
  constructor
  · rintro id rfl
    rw [solution_of_lt hhas, solution_of_lt (Nat.lt_of_lt_of_le hhas h.extension.size)]
    rcases unsolved_or_some hhas with hun | ⟨u, hsol⟩
    · rw [hun.2]
      cases hsol' : s'.solution? id with
      | none => rfl
      | some u =>
        obtain ⟨v, rfl, -, hreads⟩ := h.solved id u hun hsol'
        exact absurd hn (hclear v hun hreads)
    · rw [hsol, h.extension.solution id u hsol]
  · rintro id rfl
    obtain ⟨g, hrec⟩ := exists_record hhas
    rw [record_of_some hrec, record_of_some (h.extension.record id g hrec)]

theorem Extends.crossings_le (h : s.Extends s') : s.crossings ≤ s'.crossings :=
  Nat.add_le_add h.size h.records_size

/-- A type that was written out is written out as before when nothing it leads to was solved. -/
theorem Confined.zonk {a e t z : Ty} (h : s.Confined a e s') (hclear : s.Clear a e t) (hz : s.zonk t = .ok z) :
    s'.zonk t = .ok z := by
  have hsame : ∀ n, s.Leads true t n → s.SameEntry s' n := fun n hn => h.sameEntry hclear hn (hasNode_of_zonkAt hz hn)
  rw [Store.zonk, zonkAt_congr hsame]
  exact zonkAt_mono h.extension.crossings_le hz

theorem Exhibits.hasNode_of_leads (h : s.Exhibits) {t : Ty} (ht : s.Displays t) {n : Node} (hn : s.Leads true t n) :
    s.HasNode n := by
  obtain ⟨m, ⟨r, hr, hm⟩, hpath⟩ := hn
  induction hpath with
  | refl => exact hasNode_of_has (ht r hr) hm
  | tail _ hedge _ =>
    obtain ⟨u, hentry, r', hr', hnode⟩ := exists_entry_of_edge hedge
    have hu : s.Displays u := by
      cases hentry with
      | solution hsol => exact h.solution _ _ hsol
      | field hrec hfield => exact fun r hr => h.record _ _ hrec r (List.mem_append_left _
          (Ty.mem_mentionsFields.mpr ⟨_, hfield, .inr hr⟩))
      | base hrec => exact fun r hr => h.record _ _ hrec r (List.mem_append_right _ hr)
    exact hasNode_of_has (hu r' hr') hnode

/-- In a store that owns what can be displayed, also a type that cannot be written out stays one. -/
theorem Confined.zonk_eq {a e t : Ty} (h : s.Confined a e s') (hclear : s.Clear a e t) (hstore : s.Exhibits)
    (ht : s.Displays t) : s'.zonk t = s.zonk t := by
  rcases hz : s.zonk t with fault | z
  · have hsame : ∀ n, s.Leads true t n → s.SameEntry s' n :=
      fun n hn => h.sameEntry hclear hn (hstore.hasNode_of_leads ht hn)
    have hloops : s.Loops t := by
      by_contra hnot
      obtain ⟨z, hz'⟩ := (exists_zonk_iff hstore ht).mpr hnot
      rw [hz] at hz'
      cases hz'
    obtain rfl : fault = .diverged := fault_of_zonkAt hstore ht hz
    rw [Store.zonk, zonkAt_congr hsame]
    exact zonkAt_of_loops hstore _ ht hloops
  · exact h.zonk hclear hz

/-- Unifying two types, or constraining one, takes no entry of the store away and changes none, whatever the outcome.
What gets solved are flexible variables that had no solution and that can be read in one of the types. So what a type is
written out as stays the same, unless the type leads to an unsolved variable that can be read in one of them. -/
theorem calls_solve_only_what_is_read {s s' : Store} {a e : Ty} (hacyclic : s.Acyclic) (hclosed : s.Closed)
    (ha : s.Owns a) (he : s.Owns e) (hcall : s.Call a e s') :
    s.Extends s' ∧
      (∀ id t, s.Unsolved id → s'.solution? id = some t → ∃ v : TyVar, v.id = id ∧ v.rigid = false ∧
        (ReflTransGen s.Child a (.var v) ∨ ReflTransGen s.Child e (.var v))) ∧
      ∀ t, s.Clear a e t → (∀ z, s.zonk t = .ok z → s'.zonk t = .ok z) ∧
        (s.Exhibits → s.Displays t → s'.zonk t = s.zonk t) := by
  have hconfined := hcall.confined (hacyclic.sane hclosed) ha he
  exact ⟨hconfined.extension, hconfined.solved, fun t hclear =>
    ⟨fun z hz => hconfined.zonk hclear hz, fun hstore ht => hconfined.zonk_eq hclear hstore ht⟩⟩

/-- `( a, () )` cannot be made `( Int, String )`, but `a` becomes `Int` in the attempt, and `List b` stays what it was. -/
theorem calls_solve_only_what_is_read_of_mismatch :
    let s : Store := (({} : Store).fresh "a" false).2.fresh "b" false |>.2
    let a : Ty := .tuple [.var ⟨0, "a", false⟩, .unit]
    let e : Ty := .tuple [Ty.int, Ty.string]
    let t : Ty := Ty.list (.var ⟨1, "b", false⟩)
    ∃ s', s.Acyclic ∧ s.Closed ∧ s.Owns a ∧ s.Owns e ∧ StoreM.unify a e s = .ok (.mismatch, s') ∧ s.Call a e s' ∧
      s'.solution? 0 = some Ty.int ∧ s.Clear a e t ∧ s.Exhibits ∧ s.Displays t ∧ s.Extends s' ∧ s'.zonk t = s.zonk t := by
  intro s a e t
  have hsane : s.Sane := sane_empty.extended.extended
  have hnone : ∀ id, s.solution? id = none := fun id => by
    change (({} : Store).extended.extended).solution? id = none
    rw [solution?_extended, solution?_extended, solution?_empty]
  have hrecords : ∀ id : RecordId, s.records[id]? = none := fun _ => rfl
  have hlinks : ∀ aliases n, s.links aliases n = [] := by
    rintro aliases (id | id)
    · simp [links, hnone]
    · simp [links, hrecords]
  -- Nothing is solved, so a type leads to no more than what stands in it.
  have hholds : ∀ {aliases u n}, s.Leads aliases u n → u.Holds aliases n := by
    rintro aliases u n ⟨m, hm, hpath⟩
    rcases hpath.cases_head with rfl | ⟨k, ⟨r, hr, -⟩, -⟩
    · exact hm
    · rw [hlinks] at hr
      cases hr
  have hclear : s.Clear a e t := by
    intro v _ hreads hleads
    have hv : a.Holds false (.var v.id) ∨ e.Holds false (.var v.id) :=
      hreads.imp (fun h => hholds (leads_of_reads h (leads_of_holds (holds_var_iff.mpr rfl))))
        (fun h => hholds (leads_of_reads h (leads_of_holds (holds_var_iff.mpr rfl))))
    have ht : t.Holds true (.var v.id) := hholds hleads
    simp only [Ty.Holds, a, e, t, Ty.list, Ty.int, Ty.string, Ty.named, Ty.mentions, Ty.mentionsList, Ty.mentionsAlias,
      List.append_nil, List.mem_singleton, List.not_mem_nil, exists_eq_left, Mention.node?,
      Option.some.injEq, Node.var.injEq, false_and, exists_false, or_false] at hv ht
    exact absurd (hv.trans ht.symm) (by decide)
  have hexhibits : s.Exhibits := ⟨fun id u hsol => by simp [hnone] at hsol, fun id g hrec => by simp [hrecords] at hrec⟩
  have hdisplays : s.Displays t := by
    rintro r (_ | ⟨_, ⟨⟩⟩)
    decide
  have hrun : StoreM.unify a e s = .ok (.mismatch, _) := rfl
  have hframe := calls_solve_only_what_is_read hsane.acyclic hsane.closed (by decide) (by decide) (.unify hrun)
  exact ⟨_, hsane.acyclic, hsane.closed, by decide, by decide, hrun, .unify hrun, rfl, hclear, hexhibits, hdisplays,
    hframe.1, (hframe.2.2 t hclear).2 hexhibits hdisplays⟩

end Store

end ElmInference
