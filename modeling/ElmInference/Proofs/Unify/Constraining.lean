import ElmInference.Proofs.Unify.Joining

/-!
# Constraining types

`constrain` follows a type down its comparable tuples and lists until it meets variables, and each of these
it joins with a fresh variable of the class. `Constrained` lists what one level of this can end in, as
`Unified` does for unification. From it follows that constraining changes a store calmly, that the
variables it solves can be read in the type, and that it always comes to an answer: it may follow a
variable that it has just solved, but never further than to the variable that now stands for it.
-/

namespace ElmInference

namespace StoreM

open Store

abbrev Restriction := Store → Typeclass → Ty → Ending Outcome → Prop

inductive Items (R : Restriction) : Store → List Ty → Ending Outcome → Prop
  | nil {s : Store} : Items R s [] (.ok (.ok (), s))
  | fault {s : Store} {t : Ty} {ts : List Ty} {fault : Fault} :
      R s .comparable t (.error fault) → Items R s (t :: ts) (.error fault)
  | stop {s s₁ : Store} {t : Ty} {ts : List Ty} {e : UnifyError} :
      R s .comparable t (.ok (.error e, s₁)) → Items R s (t :: ts) (.ok (.mismatch, s₁))
  | cons {s s₁ : Store} {t : Ty} {ts : List Ty} {res : Ending Outcome} :
      R s .comparable t (.ok (.ok (), s₁)) → Items R s₁ ts res → Items R s (t :: ts) res

/-- Whether a type has no part in a class, whatever its variables stand for. -/
def Refuses (c : Typeclass) : Ty → Prop
  | .unknown | .var _ => False
  | .tuple _ => c ≠ .comparable
  | .union m n args _ =>
    (c.needsComparableItems && isListType m n args) = false ∧ c.admits m n args = false
  | _ => True

/-- What one level of constraining can end in, when the levels below end as `R` allows. -/
inductive Constrained (R : Restriction) (s : Store) : Typeclass → Ty → Ending Outcome → Prop
  | unknown {c : Typeclass} : Constrained R s c .unknown (.ok (.ok (), s))
  | lost {c : Typeclass} {v : TyVar} {fault : Fault} : s.solution v.id = .error fault →
      Constrained R s c (.var v) (.error fault)
  | solved {c : Typeclass} {v : TyVar} {t : Ty} {res : Ending Outcome} : s.solution? v.id = some t →
      R s c t res → Constrained R s c (.var v) res
  | unsolved {c : Typeclass} {v : TyVar} {res : Ending Outcome} : s.Unsolved v.id →
      unifyVars v ⟨s.size, c.name, false⟩ s.extended = res → Constrained R s c (.var v) res
  | tuple {items : List Ty} {res : Ending Outcome} : Items R s items res →
      Constrained R s .comparable (.tuple items) res
  | list {c : Typeclass} {m n : Name} {args : List Ty} {w : Option (AliasUse Ty)}
      {res : Ending Outcome} : (c.needsComparableItems && isListType m n args) = true →
      Items R s args res → Constrained R s c (.union m n args w) res
  | admitted {c : Typeclass} {m n : Name} {args : List Ty} {w : Option (AliasUse Ty)} :
      (c.needsComparableItems && isListType m n args) = false → c.admits m n args = true →
      Constrained R s c (.union m n args w) (.ok (.ok (), s))
  | refused {c : Typeclass} {t : Ty} : Refuses c t → Constrained R s c t (.ok (.mismatch, s))

section Induction

variable {P : Restriction} {follow : Typeclass → Ty → StoreM Outcome}

theorem items_run {ts : List Ty}
    (h : ∀ t ∈ ts, ∀ s, P s .comparable t (constrainWith follow .comparable t s)) (s : Store) :
    Items P s ts (constrainItems follow ts s) := by
  induction ts generalizing s with
  | nil => exact .nil
  | cons t ts ih =>
    rw [constrainItems]
    refine run_bind_cases (h t List.mem_cons_self s) (fun _ hfirst => .fault hfirst) fun o s₁ hfirst => ?_
    rcases o with e | ⟨⟩
    · exact .stop hfirst
    · exact .cons hfirst (ih (fun u hu => h u (List.mem_cons_of_mem _ hu)) s₁)

variable (hstep : ∀ s c t res, Constrained P s c t res → P s c t res)

include hstep

theorem constrainWith_induct (hfollow : ∀ s c t, P s c t (follow c t s)) (s : Store) (c : Typeclass)
    (t : Ty) : P s c t (constrainWith follow c t s) := by
  induction t using Ty.inductParts generalizing s c with
  | unknown =>
    rw [constrainWith]
    exact hstep _ _ _ _ .unknown
  | var v =>
    rw [constrainWith]
    by_cases hlt : v.id < s.size
    · rw [run_bind_ok (run_read_ok (solution_of_lt hlt))]
      rcases unsolved_or_some hlt with hun | ⟨t, hsol⟩
      · rw [hun.2]
        exact hstep _ _ _ _ (.unsolved hun rfl)
      · rw [hsol]
        exact hstep _ _ _ _ (.solved hsol (hfollow s c t))
    · have hlost := solution_of_ge (Nat.le_of_not_lt hlt)
      rw [run_bind_error (run_read_error hlost)]
      exact hstep _ _ _ _ (.lost hlost)
  | tuple items ih =>
    rw [constrainWith]
    by_cases hc : c = .comparable
    · subst hc
      rw [if_pos rfl]
      exact hstep _ _ _ _ (.tuple (items_run (fun t ht s => ih t ht s .comparable) s))
    · rw [if_neg hc]
      exact hstep _ _ _ _ (.refused hc)
  | union m n args w iha _ =>
    rw [constrainWith]
    cases hlist : c.needsComparableItems && isListType m n args with
    | true =>
      rw [if_pos rfl]
      exact hstep _ _ _ _ (.list hlist (items_run (fun t ht s => iha t ht s .comparable) s))
    | false =>
      rw [if_neg (by simp)]
      cases hadmits : c.admits m n args with
      | true => exact hstep _ _ _ _ (.admitted hlist hadmits)
      | false => exact hstep _ _ _ _ (.refused ⟨hlist, hadmits⟩)
  | unit | inProgress | growing | record | arrow =>
    simp only [constrainWith]
    exact hstep _ _ _ _ (.refused trivial)

theorem constrainAt_induct (hstop : ∀ s c t, P s c t (.error .diverged)) (n : Nat) (s : Store)
    (c : Typeclass) (t : Ty) : P s c t (constrainAt n c t s) := by
  induction n generalizing s c t with
  | zero => exact constrainWith_induct hstep (fun s c t => hstop s c t) s c t
  | succ n ih => exact constrainWith_induct hstep (fun s c t => ih s c t) s c t

end Induction

/-! ### What constraining does to the store -/

/-- The store moves, and the variables that are solved can be read in the type. -/
structure Restrains (s : Store) (t : Ty) (s' : Store) : Prop where
  calm : s.Calm (fun id => s'.Leads false t (.var id)) s'
  moves : ∀ Q : Set Mention, Tidy (s, Q) → (∀ r ∈ t.mentions false, r ∈ Q) →
    ∃ Q', Moves (s, Q) (s', Q')

variable {s s₁ s' : Store}

theorem Restrains.refl (s : Store) (t : Ty) : Restrains s t s :=
  ⟨.refl _ s, fun Q _ _ => ⟨Q, .refl⟩⟩

theorem Restrains.of_child {t u : Ty} (h : Restrains s u s') (hchild : s.Child t u)
    (hmentions : ∀ Q : Set Mention, Tidy (s, Q) → (∀ r ∈ t.mentions false, r ∈ Q) →
      ∀ r ∈ u.mentions false, r ∈ Q) : Restrains s t s' := by
  refine ⟨h.calm.mono (fun id _ hleads => ?_), fun Q htidy ht => ?_⟩
  · exact leads_of_child (h.calm.extension.child hchild) hleads
  · exact h.moves Q htidy (hmentions Q htidy ht)

theorem Restrains.trans {t : Ty} (h : Restrains s t s₁) (h' : Restrains s₁ t s') : Restrains s t s' := by
  constructor
  · have hfirst := h.calm.mono (fun id _ hleads => h'.calm.extension.leads hleads)
    exact hfirst.trans h'.calm
  · intro Q htidy ht
    obtain ⟨Q₁, hmoves⟩ := h.moves Q htidy ht
    obtain ⟨Q', hmoves'⟩ := h'.moves Q₁ (hmoves.tidy htidy) (fun r hr => hmoves.subset (ht r hr))
    exact ⟨Q', hmoves.trans hmoves'⟩

theorem restrains_unsolved {v : TyVar} {c : Typeclass} {o : Outcome} (hun : s.Unsolved v.id)
    (h : unifyVars v ⟨s.size, c.name, false⟩ s.extended = .ok (o, s')) :
    Restrains s (.var v) s' := by
  have hne : v.id ≠ s.size := Nat.ne_of_lt hun.1
  obtain ⟨o', s'', hrun, hjoins⟩ := joins_unifyVars (w := ⟨s.size, c.name, false⟩) hun.extended
    (unsolved_extended_self s) hne
  rw [hrun] at h
  cases h
  constructor
  · have hcalm := hjoins.calm hun.extended (unsolved_extended_self s) hne
    refine ⟨(extends_extended s).trans hcalm.extension, hcalm.records, fun u hu => ?_,
      fun id t hsol => by simpa using hcalm.solution id t hsol⟩
    rcases hcalm.unsolved u hu.extended with hun' | ⟨hid | hid, hresolves⟩
    · exact .inl hun'
    · exact .inr ⟨leads_var_iff.mpr (by rw [hid]), hresolves⟩
    · exact absurd hid (Nat.ne_of_lt hu.1)
  · intro Q _ ht
    obtain ⟨Q', hmoves⟩ := hjoins.moves hun.extended (unsolved_extended_self s) hne
      (Set.mem_insert_of_mem (.var ⟨s.size, c.name, false⟩) (ht (.var v) (by simp [Ty.mentions])))
      (Set.mem_insert _ Q)
    exact ⟨Q', .head (.fresh c.name false) hmoves⟩

theorem restrains_items {t : Ty} {items : List Ty} {o : Outcome}
    (hchild : ∀ s : Store, ∀ u ∈ items, s.Child t u)
    (hmentions : ∀ u ∈ items, u.mentions false ⊆ t.mentions false)
    (h : Items (fun s _ u res => ∀ o s', res = .ok (o, s') → Restrains s u s') s items (.ok (o, s'))) :
    Restrains s t s' := by
  generalize hres : (Except.ok (o, s') : Ending Outcome) = res at h
  induction h with
  | nil =>
    cases hres
    exact .refl _ t
  | fault _ => cases hres
  | stop hfirst =>
    cases hres
    exact (hfirst _ _ rfl).of_child (hchild _ _ List.mem_cons_self)
      (fun Q _ ht r hr => ht r (hmentions _ List.mem_cons_self hr))
  | cons hfirst _ ih =>
    have hhead := (hfirst _ _ rfl).of_child (hchild _ _ List.mem_cons_self)
      (fun Q _ ht r hr => ht r (hmentions _ List.mem_cons_self hr))
    exact hhead.trans (ih (fun s u hu => hchild s u (List.mem_cons_of_mem _ hu))
      (fun u hu => hmentions u (List.mem_cons_of_mem _ hu)) hres)

theorem restrains_constrainAt (n : Nat) (c : Typeclass) (t : Ty) {o : Outcome}
    (h : constrainAt n c t s = .ok (o, s')) : Restrains s t s' := by
  refine constrainAt_induct (P := fun s _ t res => ∀ o s', res = .ok (o, s') → Restrains s t s')
    ?_ (fun _ _ _ _ _ h => by cases h) n s c t o s' h
  intro s c t res hres o s' heq
  cases hres with
  | unknown =>
    cases heq
    exact .refl s _
  | lost _ => cases heq
  | solved hsol hfollow =>
    refine (hfollow o s' heq).of_child (.solution hsol) (fun Q htidy ht => ?_)
    exact htidy.keeps.solution _ _ (ht _ (by simp [Ty.mentions])) hsol
  | unsolved hun hrun => exact restrains_unsolved hun (hrun.trans heq)
  | tuple hitems =>
    refine restrains_items (fun s u hu => .item hu) (fun u hu r hr => ?_) (heq ▸ hitems)
    simp only [Ty.mentions, Ty.mem_mentionsList]
    exact ⟨u, hu, hr⟩
  | list _ hitems =>
    refine restrains_items (fun s u hu => .arg hu) (fun u hu r hr => ?_) (heq ▸ hitems)
    simp only [Ty.mentions, Ty.mentionsAlias_false, List.append_nil, Ty.mem_mentionsList]
    exact ⟨u, hu, hr⟩
  | admitted _ _ =>
    cases heq
    exact .refl s _
  | refused _ =>
    cases heq
    exact .refl s _

/-! ### Constraining comes to an answer

The parts of a tuple are constrained one after the other, so a part is met in a store in which other parts
have been constrained already. Seen from the store `s₀` in which it began, each unsolved variable has then
been replaced at most once, by a new variable that needs no replacement again. -/

/-- A flexible variable that is comparable already. -/
structure Ready (s : Store) (w : TyVar) : Prop where
  unsolved : s.Unsolved w.id
  flexible : w.rigid = false
  comparable : ∃ d, w.typeclass = some d ∧ Typeclass.join d .comparable = some d

/-- Variables that were unsolved in `s₀` are so still, or a new comparable variable stands for them. -/
structure Once (s₀ s : Store) : Prop where
  extension : s₀.Extends s
  replaced : ∀ id, s₀.Unsolved id →
    s.Unsolved id ∨ ∃ w, s.solution? id = some (.var w) ∧ s₀.size ≤ w.id ∧ Ready s w

variable {s₀ : Store}

theorem Once.refl (s : Store) : Once s s :=
  ⟨.refl s, fun _ hun => .inl hun⟩

theorem Ready.of_unsolved {w : TyVar} (h : Ready s w) (hun : s'.Unsolved w.id) : Ready s' w :=
  ⟨hun, h.flexible, h.comparable⟩

/-- A change that touches neither old variables nor those that stand for them. -/
theorem Once.of_kept (h : Once s₀ s) (hext : s.Extends s')
    (hkept : ∀ id, s.Unsolved id → s'.Unsolved id) : Once s₀ s' := by
  refine ⟨h.extension.trans hext, fun id hun => ?_⟩
  rcases h.replaced id hun with hun' | ⟨w, hsol, hnew, hready⟩
  · exact .inl (hkept id hun')
  · exact .inr ⟨w, hext.solution id _ hsol, hnew, hready.of_unsolved (hkept w.id hready.unsolved)⟩

/-- Replacing an old variable by a new one. -/
theorem Once.replace (h : Once s₀ s) {v w : TyVar} (hv : s.Unsolved v.id) (hold : v.id < s₀.size)
    (hnew : s₀.size ≤ w.id) (hready : Ready s w) : Once s₀ (s.solved v.id (.var w)) := by
  have hkeep : ∀ u : TyVar, s₀.size ≤ u.id → s.Unsolved u.id →
      (s.solved v.id (.var w)).Unsolved u.id := by
    intro u hu hun
    exact hun.solved_of_ne _ (Nat.ne_of_gt (Nat.lt_of_lt_of_le hold hu))
  refine ⟨h.extension.trans (extends_solved _ hv), fun id hun => ?_⟩
  by_cases hid : id = v.id
  · refine .inr ⟨w, ?_, hnew, hready.of_unsolved (hkeep w hnew hready.unsolved)⟩
    rw [hid, solution?_solved_self _ hv.1]
  · rcases h.replaced id hun with hun' | ⟨u, hsol, hnew', hready'⟩
    · exact .inl (hun'.solved_of_ne _ hid)
    · refine .inr ⟨u, ?_, hnew', hready'.of_unsolved (hkeep u hnew' hready'.unsolved)⟩
      rw [solution?_solved_of_ne s _ hid, hsol]

theorem Once.extended (h : Once s₀ s) : Once s₀ s.extended :=
  h.of_kept (extends_extended s) (fun _ hun => hun.extended)

/-- Solving a variable that is newer than all those that matter. -/
theorem once_solved_fresh (h : Once s₀ s) (t : Ty) : Once s₀ (s.extended.solved s.size t) := by
  have hkept : ∀ id, s.Unsolved id → (s.extended.solved s.size t).Unsolved id :=
    fun id hun => hun.extended.solved_of_ne t (Nat.ne_of_lt hun.1)
  exact h.of_kept ((extends_extended s).trans (extends_solved t (unsolved_extended_self s))) hkept

theorem once_unifyVars (h : Once s₀ s) {v : TyVar} (hv : s.Unsolved v.id) (hold : v.id < s₀.size) :
    ∃ o s', unifyVars v ⟨s.size, Typeclass.name .comparable, false⟩ s.extended = .ok (o, s') ∧
      Once s₀ s' := by
  have hne : v.id ≠ s.size := Nat.ne_of_lt hv.1
  have hsize : s₀.size ≤ s.size := h.extension.size
  have hclass := typeclass_of_name s.size .comparable false
  obtain ⟨o, s', hrun, hjoins⟩ := joins_unifyVars
    (w := ⟨s.size, Typeclass.name .comparable, false⟩) hv.extended (unsolved_extended_self s) hne
  refine ⟨o, s', hrun, ?_⟩
  cases hjoins with
  | left _ _ =>
    exact h.extended.replace hv.extended hold hsize
      ⟨unsolved_extended_self s, rfl, .comparable, hclass, rfl⟩
  | right _ _ => exact once_solved_fresh h _
  | @both c d both _ _ _ hd hjoin =>
    rw [hclass] at hd
    cases hd
    -- the two solutions commute, and the fresh variable is solved first
    rw [solved_comm _ _ _ hne, size_extended]
    have hun := (unsolved_extended_self s).extended
    have hjoined : s.extended.extended.Unsolved (s.size + 1) := by
      simpa using unsolved_extended_self s.extended
    refine Once.replace (h.of_kept ?_ (fun id hid => ?_)) ?_ hold (by simpa using by omega) ?_
    · exact ((extends_extended s).trans (extends_extended _)).trans (extends_solved _ hun)
    · exact hid.extended.extended.solved_of_ne _ (Nat.ne_of_lt hid.1)
    · exact hv.extended.extended.solved_of_ne _ hne
    · exact ⟨hjoined.solved_of_ne _ (Nat.succ_ne_self _), rfl, both, typeclass_of_name _ both false,
        (Typeclass.join_comm _ _).trans (Typeclass.join_joined hjoin).2⟩
  | clash _ => exact h.extended

/-- A variable that is comparable already stays, and the fresh one becomes it. -/
theorem unifyVars_ready {w : TyVar} (h : Ready s w) :
    unifyVars w ⟨s.size, Typeclass.name .comparable, false⟩ s.extended =
      .ok (.ok (), s.extended.solved s.size (.var w)) := by
  obtain ⟨d, hd, hjoin⟩ := h.comparable
  unfold unifyVars
  simp only [h.flexible, hd, typeclass_of_name, hjoin, if_true]
  exact run_solve _ (unsolved_extended_self s)

theorem constrainWith_unsolved {follow : Typeclass → Ty → StoreM Outcome} {v : TyVar} (c : Typeclass)
    (hun : s.Unsolved v.id) :
    constrainWith follow c (.var v) s = unifyVars v ⟨s.size, c.name, false⟩ s.extended := by
  rw [constrainWith, run_bind_ok (run_read_ok hun.solution_eq)]
  rfl

theorem constrainWith_solved {follow : Typeclass → Ty → StoreM Outcome} {v : TyVar} {t : Ty}
    (c : Typeclass) (hsol : s.solution? v.id = some t) :
    constrainWith follow c (.var v) s = follow c t s := by
  rw [constrainWith, run_bind_ok (run_read_ok (solution_of_some hsol))]

theorem once_items {follow : Typeclass → Ty → StoreM Outcome} {ts : List Ty}
    (h : ∀ t ∈ ts, ∀ s, Once s₀ s → ∃ o s', constrainWith follow .comparable t s = .ok (o, s') ∧
      Once s₀ s') (s : Store) (hs : Once s₀ s) :
    ∃ o s', constrainItems follow ts s = .ok (o, s') ∧ Once s₀ s' := by
  induction ts generalizing s with
  | nil => exact ⟨_, s, rfl, hs⟩
  | cons t ts ih =>
    obtain ⟨o, s₁, hrun, hs₁⟩ := h t List.mem_cons_self s hs
    rw [constrainItems, run_bind_ok hrun]
    rcases o with e | ⟨⟩
    · exact ⟨_, s₁, rfl, hs₁⟩
    · exact ih (fun u hu => h u (List.mem_cons_of_mem _ hu)) s₁ hs₁

/-- What a level of constraining needs of the level below it, for types of rank less than `k`. -/
structure Follows (s₀ : Store) (k : Nat) (follow : Typeclass → Ty → StoreM Outcome) : Prop where
  type : ∀ s u, Once s₀ s → s₀.Owns u → s₀.rank false u < k →
    ∃ o s', follow .comparable u s = .ok (o, s') ∧ Once s₀ s'
  ready : ∀ s w, Once s₀ s → Ready s w → 0 < k →
    ∃ o s', follow .comparable (.var w) s = .ok (o, s') ∧ Once s₀ s'

theorem Follows.mono {k k' : Nat} {follow : Typeclass → Ty → StoreM Outcome}
    (h : Follows s₀ k' follow) (hk : k ≤ k') : Follows s₀ k follow :=
  ⟨fun s u hs hu hrank => h.type s u hs hu (by omega),
    fun s w hs hready hpos => h.ready s w hs hready (by omega)⟩

theorem rank_child_le {t u : Ty} (h : s.Child t u) : s.rank false u ≤ s.rank false t :=
  rank_mono (fun _ hn => leads_of_child h hn)

theorem once_constrainWith (hloop : s₀.Loopfree false) (hclosed : s₀.Closed)
    {follow : Typeclass → Ty → StoreM Outcome} {t : Ty} (ht : s₀.Owns t)
    (hfollow : Follows s₀ (s₀.rank false t) follow) (s : Store) (hs : Once s₀ s) :
    ∃ o s', constrainWith follow .comparable t s = .ok (o, s') ∧ Once s₀ s' := by
  induction t using Ty.inductParts generalizing s with
  | unknown => exact ⟨_, s, rfl, hs⟩
  | var v =>
    rcases unsolved_or_some ht.var_lt with hun | ⟨u, hsol⟩
    · rcases hs.replaced v.id hun with hun' | ⟨w, hsol, _, hready⟩
      · rw [constrainWith_unsolved _ hun']
        exact once_unifyVars hs hun' ht.var_lt
      · rw [constrainWith_solved _ hsol]
        refine hfollow.ready s w hs hready (Finset.card_pos.mpr ⟨.var v.id, ?_⟩)
        exact mem_reach.mpr ⟨var_mem_nodes.mpr ht.var_lt, leads_var_iff.mpr .refl⟩
    · rw [constrainWith_solved _ (hs.extension.solution _ _ hsol)]
      exact hfollow.type s u hs (hclosed.owns_solution hsol) (rank_solution_lt hloop hsol)
  | tuple items ih =>
    rw [constrainWith, if_pos rfl]
    exact once_items (fun t hmem s hs => ih t hmem (ht.child (.item hmem) hclosed)
      (hfollow.mono (rank_child_le (.item hmem))) s hs) s hs
  | union m n args w iha _ =>
    rw [constrainWith]
    cases hlist : Typeclass.needsComparableItems .comparable && isListType m n args with
    | true =>
      rw [if_pos rfl]
      exact once_items (fun t hmem s hs => iha t hmem (ht.child (.arg hmem) hclosed)
        (hfollow.mono (rank_child_le (.arg hmem))) s hs) s hs
    | false =>
      rw [if_neg (by simp)]
      split <;> exact ⟨_, s, rfl, hs⟩
  | unit | inProgress | growing | record | arrow =>
    simp only [constrainWith]
    exact ⟨_, s, rfl, hs⟩

theorem follows_constrainAt (hloop : s₀.Loopfree false) (hclosed : s₀.Closed) (n : Nat) :
    Follows s₀ (n + 1) (constrainAt n) := by
  have ready : ∀ (follow : Typeclass → Ty → StoreM Outcome) s w, Once s₀ s → Ready s w →
      ∃ o s', constrainWith follow .comparable (.var w) s = .ok (o, s') ∧ Once s₀ s' := by
    intro follow s w hs hready
    rw [constrainWith_unsolved _ hready.unsolved, unifyVars_ready hready]
    exact ⟨_, _, rfl, once_solved_fresh hs _⟩
  induction n with
  | zero =>
    refine ⟨fun s u hs hu hrank => ?_, fun s w hs hready _ => ready _ s w hs hready⟩
    refine once_constrainWith hloop hclosed hu ⟨?_, ?_⟩ s hs
    · intro _ _ _ _ hlt
      omega
    · intro _ _ _ _ hlt
      omega
  | succ n ih =>
    refine ⟨fun s u hs hu hrank => ?_, fun s w hs hready _ => ready _ s w hs hready⟩
    exact once_constrainWith hloop hclosed hu (ih.mono (by omega)) s hs

/-- One level, for any class, when the levels below come to an answer. -/
theorem exists_constrainWith (hloop : s.Loopfree false) (hclosed : s.Closed) (c : Typeclass) {t : Ty}
    (ht : s.Owns t) {follow : Typeclass → Ty → StoreM Outcome}
    (hfollow : Follows s (s.rank false t) follow)
    (hclass : ∀ u, s.Owns u → s.rank false u < s.rank false t → ∃ o s', follow c u s = .ok (o, s')) :
    ∃ o s', constrainWith follow c t s = .ok (o, s') := by
  cases t with
  | var v =>
    rcases unsolved_or_some ht.var_lt with hun | ⟨u, hsol⟩
    · rw [constrainWith_unsolved _ hun]
      obtain ⟨o, s', hrun, -⟩ := joins_unifyVars (w := ⟨s.size, c.name, false⟩) hun.extended
        (unsolved_extended_self s) (Nat.ne_of_lt hun.1)
      exact ⟨o, s', hrun⟩
    · rw [constrainWith_solved _ hsol]
      exact hclass u (hclosed.owns_solution hsol) (rank_solution_lt hloop hsol)
  | tuple items =>
    rw [constrainWith]
    split
    · obtain ⟨o, s', hrun, -⟩ := once_items
        (fun t (hmem : t ∈ items) s₁ (hs₁ : Once s s₁) => once_constrainWith hloop hclosed
          (ht.child (.item hmem) hclosed) (hfollow.mono (rank_child_le (.item hmem))) s₁ hs₁) s (.refl s)
      exact ⟨o, s', hrun⟩
    · exact ⟨_, s, rfl⟩
  | union m n args w =>
    rw [constrainWith]
    split
    · obtain ⟨o, s', hrun, -⟩ := once_items
        (fun t (hmem : t ∈ args) s₁ (hs₁ : Once s s₁) => once_constrainWith hloop hclosed
          (ht.child (.arg hmem) hclosed) (hfollow.mono (rank_child_le (.arg hmem))) s₁ hs₁) s (.refl s)
      exact ⟨o, s', hrun⟩
    · split <;> exact ⟨_, s, rfl⟩
  | unknown | unit | inProgress | growing | record | arrow =>
    simp only [constrainWith]
    exact ⟨_, s, rfl⟩

theorem exists_constrainAt (hloop : s.Loopfree false) (hclosed : s.Closed) (c : Typeclass) {n : Nat}
    {t : Ty} (ht : s.Owns t) (hrank : s.rank false t ≤ n) :
    ∃ o s', constrainAt n c t s = .ok (o, s') := by
  induction n generalizing t with
  | zero =>
    refine exists_constrainWith hloop hclosed c ht ⟨?_, ?_⟩ ?_
    · intro _ _ _ _ hlt
      omega
    · intro _ _ _ _ hlt
      omega
    · intro _ _ hlt
      omega
  | succ n ih =>
    exact exists_constrainWith hloop hclosed c ht ((follows_constrainAt hloop hclosed n).mono hrank)
      (fun u hu hlt => ih hu (by omega))

/-- Constraining a type of a store without loops comes to an answer. -/
theorem exists_constrain (hloop : s.Loopfree false) (hclosed : s.Closed) (c : Typeclass) {t : Ty}
    (ht : s.Owns t) : ∃ o s', constrain c t s = .ok (o, s') :=
  exists_constrainAt hloop hclosed c ht (s.rank_le_crossings false t)

end StoreM

end ElmInference
