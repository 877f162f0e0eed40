import ElmInference.Proofs.Unify.Plain

/-!
# Unification of regular types loses no solution

Unification learns what has to hold for two types to be equal, and on regular types it learns no more than
that: a solution of the store in which the types say the same is a solution of the store that it leaves,
`Lossless`. The proof follows the recursion. Joining two variables loses no environment in which they stand
for the same, constraining a type loses none in which it belongs to the class, and unifying two types loses
none in which they say the same. New variables are no loss, as each solution can be extended to them.

A failure is no loss either when there is nothing to be lost. A variable cannot stand for a type that it is
part of, because parts of closed types are smaller than the whole.
-/

namespace ElmInference

namespace Store

open Relation StoreM

variable {K : Set (Reading Rigid)} {s s' : Store} {Q Q' : Set Mention}

/-- A change of a world that keeps it neat, brings up no rigid variable and loses none of the solutions for which
`C` holds: when there are any, the outcome is a success, and each of them goes on with values for the new
variables. -/
structure Lossless (K : Set (Reading Rigid)) (w w' : World) (C : Env Rigid → Prop) (o : Outcome) :
    Prop where
  subset : w.2 ⊆ w'.2
  extension : w.1.Extends w'.1
  neat : Neat w'
  flexible : ∀ v, .var v ∈ w'.2 → .var v ∈ w.2 ∨ v.rigid = false
  kept : ∀ η, Solves K w η → C η → o = .ok () ∧
    ∃ η', Solves K w' η' ∧ ∀ id, id < w.1.size → η' (.var id) = η (.var id)

namespace Lossless

variable {w w₁ w' : World} {B C D : Env Rigid → Prop} {o o' r : Outcome}

theorem refl (h : Neat w) (hok : ∀ η, Solves K w η → C η → o = .ok ()) : Lossless K w w C o :=
  ⟨subset_rfl, .refl _, h, fun _ => .inl, fun η hsolves hC => ⟨hok η hsolves hC, η, hsolves, fun _ _ => rfl⟩⟩

theorem imp (h : Lossless K w w' C o) (hBC : ∀ η, Solves K w η → B η → C η) : Lossless K w w' B o :=
  ⟨h.subset, h.extension, h.neat, h.flexible, fun η hsolves hB => h.kept η hsolves (hBC η hsolves hB)⟩

theorem trans (h : Lossless K w w₁ C o) (h' : Lossless K w₁ w' D o') (hC : ∀ η, B η → C η)
    (hD : ∀ η η', (∀ id, id < w.1.size → η' (.var id) = η (.var id)) → B η → D η')
    (hr : o = .ok () → o' = .ok () → r = .ok ()) : Lossless K w w' B r := by
  refine ⟨h.subset.trans h'.subset, h.extension.trans h'.extension, h'.neat, fun v hv => ?_,
    fun η hsolves hB => ?_⟩
  · exact (h'.flexible v hv).elim (h.flexible v) .inr
  obtain ⟨ho, η₁, hsolves₁, hagree₁⟩ := h.kept η hsolves (hC η hB)
  obtain ⟨ho', η', hsolves', hagree'⟩ := h'.kept η₁ hsolves₁ (hD η η₁ hagree₁ hB)
  refine ⟨hr ho ho', η', hsolves', fun id hid => ?_⟩
  rw [hagree' id (Nat.lt_of_lt_of_le hid h.extension.size), hagree₁ id hid]

/-- A change that begins with a new variable. -/
theorem fresh {name : Name} (hneat : Neat (s, Q))
    (h : Lossless K (s.extended, insert (.var ⟨s.size, name, false⟩) Q) w' D o)
    (hx : ∀ η, Solves K (s, Q) η → C η → ∃ x ∈ K, TyVar.Fits ⟨s.size, name, false⟩ x ∧
      D (Function.update η (.var s.size) x)) : Lossless K (s, Q) w' C o := by
  refine ⟨(Set.subset_insert _ _).trans h.subset, (extends_extended s).trans h.extension, h.neat, fun v hv => ?_,
    fun η hsolves hC => ?_⟩
  · rcases h.flexible v hv with (hnew | hold) | hflex
    · obtain rfl := Mention.var.inj hnew
      exact .inr rfl
    · exact .inl hold
    · exact .inr hflex
  obtain ⟨x, hxK, hfits, hD⟩ := hx η hsolves hC
  obtain ⟨hsolves₁, hagree₁⟩ := hsolves.fresh hneat hxK hfits
  obtain ⟨ho, η', hsolves', hagree'⟩ := h.kept _ hsolves₁ hD
  refine ⟨ho, η', hsolves', fun id hid => ?_⟩
  rw [hagree' id (by simpa using Nat.lt_succ_of_lt hid), hagree₁ id hid]

end Lossless

/-! ### Joining variables -/

theorem conforms_of_meets {v w : TyVar} {c : Typeclass} (hw : s.Unsolved w.id) (hflex : v.rigid = false)
    (hmeets : w.Meets v) (hc : v.typeclass = some c) : s.Conforms c (.var w) :=
  fun _ _ hfits => ((hfits w .refl hw).of_meets hflex hmeets).flexible hflex c hc

theorem lossless_solved (hneat : Neat (s, Q)) {v : TyVar} {t : Ty} (hun : s.Unsolved v.id)
    (hv : .var v ∈ Q) (hflex : v.rigid = false) (ht : t.RegularIn Q) (hnot : ¬ s.Leads false t (.var v.id))
    (hconforms : ∀ c, v.typeclass = some c → s.Conforms c t) :
    Lossless K (s, Q) (s.solved v.id t, Q) (fun η => η (.var v.id) = t.read η) (.ok ()) := by
  refine ⟨subset_rfl, extends_solved t hun, hneat.solve hun hv hflex ht hnot hconforms, fun _ => .inl, ?_⟩
  intro η hsolves hread
  exact ⟨rfl, η, hsolves.solve hread, fun _ _ => rfl⟩

theorem lossless_solved_var (hneat : Neat (s, Q)) {v w : TyVar} (hv : s.Unsolved v.id)
    (hw : s.Unsolved w.id) (hne : v.id ≠ w.id) (hvQ : .var v ∈ Q) (hwQ : .var w ∈ Q)
    (hflex : v.rigid = false) (hmeets : w.Meets v) :
    Lossless K (s, Q) (s.solved v.id (.var w), Q) (fun η => η (.var v.id) = η (.var w.id)) (.ok ()) := by
  refine lossless_solved hneat hv hvQ hflex (Ty.regularIn_var.mpr hwQ) (fun hleads => ?_) (fun c hc => ?_)
  · exact hne (Node.var.inj (leads_of_unsolved hw hleads))
  · exact conforms_of_meets hw hflex hmeets hc

/-- Joining two variables loses nothing in which they stand for the same. -/
theorem Joins.lossless {v w : TyVar} {o : Outcome} (h : s.Joins v w o s') (hneat : Neat (s, Q))
    (hv : s.Unsolved v.id) (hw : s.Unsolved w.id) (hne : v.id ≠ w.id) (hvQ : .var v ∈ Q)
    (hwQ : .var w ∈ Q) :
    ∃ Q', Lossless K (s, Q) (s', Q') (fun η => η (.var v.id) = η (.var w.id)) o := by
  cases h with
  | left hflex hmeets => exact ⟨Q, lossless_solved_var hneat hv hw hne hvQ hwQ hflex hmeets⟩
  | right hflex hmeets =>
    have hsolved := lossless_solved_var (K := K) hneat hw hv (Ne.symm hne) hwQ hvQ hflex hmeets
    exact ⟨Q, hsolved.imp (fun η _ heq => heq.symm)⟩
  | @both c d both hvr hwr hc hd hjoin =>
    have hvf : v.id ≠ s.size := Nat.ne_of_lt hv.1
    have hwf : w.id ≠ s.size := Nat.ne_of_lt hw.1
    obtain ⟨hmv, hmw⟩ := TyVar.meets_joined hc hd hjoin s.size
    have hneat₁ := hneat.fresh both.name false
    have hfQ := Set.mem_insert (.var ⟨s.size, both.name, false⟩) Q
    have hfirst := lossless_solved_var (K := K) hneat₁ hv.extended (unsolved_extended_self s) hvf
      (Set.mem_insert_of_mem _ hvQ) hfQ hvr hmv
    have hsecond := lossless_solved_var (K := K) hfirst.neat
      (hw.extended.solved_of_ne _ (Ne.symm hne))
      ((unsolved_extended_self s).solved_of_ne _ (Ne.symm hvf)) hwf (Set.mem_insert_of_mem _ hwQ) hfQ
      hwr hmw
    -- all three variables stand for what the two stood for
    have hboth := hfirst.trans (B := fun η => η (.var v.id) = η (.var s.size) ∧
      η (.var w.id) = η (.var s.size)) hsecond (fun η heq => heq.1) (fun η η' hagree heq => ?_)
      (fun _ _ => rfl)
    · refine ⟨_, hboth.fresh hneat (fun η hsolves heq => ⟨η (.var v.id), hsolves.inside _ hv.1, ?_, ?_⟩)⟩
      · exact (hsolves.fits v hvQ).joined (heq ▸ hsolves.fits w hwQ) hvr hwr hc hd hjoin s.size
      · simp [hvf, hwf, heq]
    · rw [hagree _ hw.extended.1, hagree _ (unsolved_extended_self s).1]
      exact heq.2
  | clash hclash =>
    refine ⟨Q, .refl hneat (fun η hsolves heq => ?_)⟩
    have hvw : v ≠ w := fun heq => hne (congrArg TyVar.id heq)
    exact absurd (heq ▸ hsolves.fits w hwQ) (hclash.not_fits hvw (hsolves.fits v hvQ))

/-- After a join the first variable conforms to the class of the second. -/
theorem Joins.conforms {v w : TyVar} {c : Typeclass} (h : s.Joins v w (.ok ()) s')
    (hv : s.Unsolved v.id) (hw : s.Unsolved w.id) (hne : v.id ≠ w.id) (hflex : w.rigid = false)
    (hc : w.typeclass = some c) : s'.Conforms c (.var v) := by
  cases h with
  | left _ _ =>
    have hsol : (s.solved v.id (.var w)).solution? v.id = some (.var w) := solution?_solved_self _ hv.1
    intro η hmodels hfits
    rw [Ty.read_var, hmodels.solution _ _ hsol]
    exact (hfits w (.single (.solution hsol)) (hw.solved_of_ne _ (Ne.symm hne))).flexible hflex c hc
  | right _ hmeets => exact conforms_of_meets (hv.solved_of_ne _ hne) hflex hmeets hc
  | @both d e both _ _ hd he hjoin =>
    obtain ⟨-, hmw⟩ := TyVar.meets_joined hd he hjoin s.size
    have hvf : s.size ≠ v.id := Nat.ne_of_gt hv.1
    have hwf : s.size ≠ w.id := Nat.ne_of_gt hw.1
    intro η hmodels hfits
    have hsol : ((s.extended.solved v.id (.var ⟨s.size, both.name, false⟩)).solved w.id
        (.var ⟨s.size, both.name, false⟩)).solution? v.id = some (.var ⟨s.size, both.name, false⟩) := by
      rw [solution?_solved_of_ne _ _ hne, solution?_solved_self _ hv.extended.1]
    have hun := ((unsolved_extended_self s).solved_of_ne (.var ⟨s.size, both.name, false⟩) hvf).solved_of_ne
      (.var ⟨s.size, both.name, false⟩) hwf
    rw [Ty.read_var, hmodels.solution _ _ hsol]
    exact ((hfits _ (.single (.solution hsol)) hun).of_meets hflex hmw).flexible hflex c hc

end Store

namespace StoreM

open Store Relation

variable {K : Set (Reading Rigid)} {s s₁ s' : Store} {Q : Set Mention}

/-! ### Constraining types -/

theorem admits_iff {c : Typeclass} {m n : Name} {args : List Ty} : c.admits m n args = true ↔
    (m, n) ∈ c.basics ∨ c = .appendable ∧ isListType m n args = true := by
  cases c <;> simp [Typeclass.admits, Typeclass.basics, and_or_left, or_assoc]

theorem isListType_iff {m n : Name} {args : List Ty} :
    isListType m n args = true ↔ m = "List" ∧ n = "List" ∧ ∃ t, args = [t] := by
  simp only [isListType, Bool.and_eq_true, beq_iff_eq, List.length_eq_one_iff, and_assoc]

theorem contains_of_admits {c : Typeclass} {m n : Name} {args : List Ty} {η : Env Rigid}
    (h : c.admits m n args = true) : c.Contains (.union m n (args.map (Ty.read η))) := by
  rcases admits_iff.mp h with hmem | ⟨rfl, hlist⟩
  · exact .basic hmem
  · obtain ⟨rfl, rfl, t, rfl⟩ := isListType_iff.mp hlist
    exact .list (by decide) (fun hneeds => by cases hneeds)

theorem contains_list {c : Typeclass} {m n : Name} {args : List Ty} {η : Env Rigid}
    (h : (c.needsComparableItems && isListType m n args) = true) :
    c.Contains (.union m n (args.map (Ty.read η))) ↔
      ∀ t ∈ args, Typeclass.Contains .comparable (t.read η) := by
  obtain ⟨hneeds, hlist⟩ := Bool.and_eq_true_iff.mp h
  obtain ⟨rfl, rfl, t, rfl⟩ := isListType_iff.mp hlist
  have hc : c ≠ .number := by
    rintro rfl
    cases hneeds
  simp [Typeclass.contains_union, Typeclass.list_not_mem_basics, hc, hneeds]

/-- A union that neither is admitted as it is nor passes the constraint on is not in the class. -/
theorem admits_of_contains {c : Typeclass} {m n : Name} {args : List Ty} {η : Env Rigid}
    (h : c.Contains (.union m n (args.map (Ty.read η))))
    (hlist : (c.needsComparableItems && isListType m n args) = false) : c.admits m n args = true := by
  rw [admits_iff]
  rcases Typeclass.contains_union.mp h with hmem | ⟨rfl, rfl, hc, item, hargs, -⟩
  · exact .inl hmem
  · obtain ⟨t, rfl⟩ : ∃ t, args = [t] := by
      have hlength := congrArg List.length hargs
      exact List.length_eq_one_iff.mp (by simpa using hlength)
    cases c with
    | number => exact absurd rfl hc
    | comparable | compAppend => cases hlist
    | appendable => exact .inr ⟨rfl, rfl⟩

theorem not_contains_of_refuses {c : Typeclass} {t : Ty} {η : Env Rigid} (ht : t.Regular)
    (h : Refuses c t) : ¬ c.Contains (t.read η) := by
  intro hcontains
  cases ht with
  | unit => cases hcontains
  | var => exact h
  | union _ =>
    rw [Ty.read_union] at hcontains
    have hadmits := admits_of_contains hcontains h.1
    rw [h.2] at hadmits
    cases hadmits
  | tuple _ =>
    rw [Ty.read_tuple] at hcontains
    exact h (Typeclass.contains_tuple.mp hcontains).1
  | arrow hne _ _ =>
    obtain ⟨t, ts, rfl⟩ := List.exists_cons_of_ne_nil hne
    rw [Ty.read_arrow] at hcontains
    cases hcontains

/-- A run that is out of steps, or that loses none of the solutions for which `C` holds and, when it
succeeds, leaves a store for which `G` holds. -/
def Keeping (K : Set (Reading Rigid)) (w : World) (C : Env Rigid → Prop) (G : Store → Prop)
    (res : Ending Outcome) : Prop :=
  res = .error .diverged ∨ ∃ o s' Q', res = .ok (o, s') ∧ Lossless K w (s', Q') C o ∧ (o = .ok () → G s')

/-- Constraining a type loses nothing in which the type belongs to the class. -/
def Restricting (K : Set (Reading Rigid)) : Restriction := fun s c t res =>
  ∀ Q, Neat (s, Q) → t.RegularIn Q →
    Keeping K (s, Q) (fun η => c.Contains (t.read η)) (·.Conforms c t) res

theorem keeping_of_ok {C : Env Rigid → Prop} {G : Store → Prop} {o : Outcome} {w : World}
    (h : Lossless K w (s', Q) C o) (hG : o = .ok () → G s') : Keeping K w C G (.ok (o, s')) :=
  .inr ⟨o, s', Q, rfl, h, hG⟩

theorem Keeping.lossless {C : Env Rigid → Prop} {G : Store → Prop} {o : Outcome} {w : World}
    (h : Keeping K w C G (.ok (o, s'))) : ∃ Q', Lossless K w (s', Q') C o ∧ (o = .ok () → G s') := by
  rcases h with hstop | ⟨o, s', Q', heq, hkept⟩
  · cases hstop
  · cases heq
    exact ⟨Q', hkept⟩

/-- A fault leaves nothing to be said but that the run was out of steps. -/
theorem Keeping.fault {C D : Env Rigid → Prop} {G H : Store → Prop} {fault : Fault} {w w' : World}
    (h : Keeping K w C G (.error fault)) : Keeping K w' D H (.error fault) := by
  rcases h with hstop | ⟨o, s', Q', heq, -⟩
  · exact .inl hstop
  · cases heq

theorem Keeping.imp {B C : Env Rigid → Prop} {G : Store → Prop} {w : World} {res : Ending Outcome}
    (h : Keeping K w C G res) (hBC : ∀ η, B η → C η) : Keeping K w B G res := by
  rcases h with hstop | ⟨o, s', Q', heq, hlossless, hG⟩
  · exact .inl hstop
  · exact .inr ⟨o, s', Q', heq, hlossless.imp (fun η _ hB => hBC η hB), hG⟩

theorem restricting_items {ts : List Ty} {res : Ending Outcome} (h : Items (Restricting K) s ts res)
    (hneat : Neat (s, Q)) (hts : ∀ t ∈ ts, t.RegularIn Q) :
    Keeping K (s, Q) (fun η => ∀ t ∈ ts, Typeclass.Contains .comparable (t.read η))
      (fun s' => ∀ t ∈ ts, s'.Conforms .comparable t) res := by
  induction h generalizing Q with
  | nil =>
    refine keeping_of_ok (.refl hneat (fun _ _ _ => rfl)) (fun _ t ht => ?_)
    cases ht
  | fault hfirst => exact (hfirst Q hneat (hts _ List.mem_cons_self)).fault
  | @stop s s₁ t ts e hfirst =>
    obtain ⟨Q₁, hlossless, -⟩ := (hfirst Q hneat (hts _ List.mem_cons_self)).lossless
    refine keeping_of_ok (Q := Q₁) ⟨hlossless.subset, hlossless.extension, hlossless.neat, hlossless.flexible, ?_⟩ ?_
    · intro η hsolves hC
      cases (hlossless.kept η hsolves (hC t List.mem_cons_self)).1
    · intro hok
      cases hok
  | @cons s s₁ t ts res hfirst _ ih =>
    have ht := hts t List.mem_cons_self
    have hrest : ∀ u ∈ ts, u.RegularIn Q := fun u hu => hts u (List.mem_cons_of_mem _ hu)
    obtain ⟨Q₁, hlossless, hconforms⟩ := (hfirst Q hneat ht).lossless
    have hkeeping := ih hlossless.neat (fun u hu => (hrest u hu).mono hlossless.subset)
    cases res with
    | error fault => exact hkeeping.fault
    | ok p =>
      obtain ⟨Q', hothers, hitems⟩ := hkeeping.lossless
      refine keeping_of_ok (hlossless.trans hothers (fun η hC => hC t List.mem_cons_self) ?_
        (fun _ ho => ho)) (fun ho u hu => ?_)
      · intro η η' hagree hC u hu
        rw [hneat.read_congr (hrest u hu).within hagree]
        exact hC u (List.mem_cons_of_mem _ hu)
      · rcases List.mem_cons.mp hu with rfl | hu
        · exact hothers.neat.conforms_later hlossless.neat hothers.extension hothers.subset
            (ht.mono hlossless.subset) (hconforms rfl)
        · exact hitems ho u hu

/-- A type that belongs to a class when its parts are comparable. -/
theorem restricting_parts {c : Typeclass} {t : Ty} {ts : List Ty} {res : Ending Outcome}
    (h : Items (Restricting K) s ts res) (hneat : Neat (s, Q)) (ht : t.RegularIn Q)
    (hchild : ∀ s : Store, ∀ u ∈ ts, s.Child t u)
    (hcontains : ∀ η : Env Rigid,
      c.Contains (t.read η) ↔ ∀ u ∈ ts, Typeclass.Contains .comparable (u.read η)) :
    Keeping K (s, Q) (fun η => c.Contains (t.read η)) (·.Conforms c t) res := by
  have hkeeping := restricting_items h hneat (fun u hu => hneat.child ht (hchild s u hu))
  cases res with
  | error fault => exact hkeeping.fault
  | ok p =>
    obtain ⟨Q', hlossless, hconforms⟩ := hkeeping.lossless
    refine keeping_of_ok (hlossless.imp (fun η _ => (hcontains η).mp)) (fun ho η hmodels hfits => ?_)
    refine (hcontains η).mpr (fun u hu => hconforms ho u hu η hmodels (fun v hv => hfits v ?_))
    exact .head (hchild _ u hu) hv

/-- An unsolved variable is joined with a new one of the class. -/
theorem restricting_unsolved (hneat : Neat (s, Q)) {c : Typeclass} {v : TyVar} (hun : s.Unsolved v.id)
    (hv : .var v ∈ Q) : Keeping K (s, Q) (fun η => c.Contains (η (.var v.id))) (·.Conforms c (.var v))
      (unifyVars v ⟨s.size, c.name, false⟩ s.extended) := by
  have hne : v.id ≠ s.size := Nat.ne_of_lt hun.1
  have hclass := typeclass_of_name s.size c false
  obtain ⟨o, s', hrun, hjoins⟩ := joins_unifyVars (w := ⟨s.size, c.name, false⟩) hun.extended
    (unsolved_extended_self s) hne
  obtain ⟨Q', hlossless⟩ := hjoins.lossless (K := K) (hneat.fresh c.name false) hun.extended
    (unsolved_extended_self s) hne (Set.mem_insert_of_mem _ hv) (Set.mem_insert _ _)
  rw [hrun]
  refine keeping_of_ok (hlossless.fresh hneat (fun η hsolves hC => ?_)) (fun ho => ?_)
  · refine ⟨η (.var v.id), hsolves.inside _ hun.1, TyVar.fits_of_contains rfl (fun d hd => ?_), ?_⟩
    · rw [hclass] at hd
      cases hd
      exact hC
    · simp [hne]
  · subst ho
    exact hjoins.conforms hun.extended (unsolved_extended_self s) hne rfl hclass

theorem restricting_constrained {c : Typeclass} {t : Ty} {res : Ending Outcome}
    (h : Constrained (Restricting K) s c t res) : Restricting K s c t res := by
  intro Q hneat ht
  cases h with
  | unknown => cases ht.regular
  | lost hlost =>
    rw [solution_of_lt (hneat.var_lt (Ty.regularIn_var.mp ht))] at hlost
    cases hlost
  | @solved c v u res hsol hfollow =>
    have hread : ∀ {s'} (η : Env Rigid), s.Extends s' → s'.Models η → (Ty.var v).read η = u.read η :=
      fun η hext hmodels => hmodels.solution _ _ (hext.solution _ _ hsol)
    have hkeeping := hfollow Q hneat (hneat.regular _ _ hsol)
    cases res with
    | error fault => exact hkeeping.fault
    | ok p =>
      obtain ⟨Q', hlossless, hconforms⟩ := hkeeping.lossless
      refine keeping_of_ok (hlossless.imp (fun η hsolves hC => ?_)) (fun ho η hmodels hfits => ?_)
      · rwa [hread η (.refl s) hsolves.models] at hC
      · rw [hread η hlossless.extension hmodels]
        refine hconforms ho η hmodels (fun w hw => hfits w (.head (.solution ?_) hw))
        exact hlossless.extension.solution _ _ hsol
  | unsolved hun hrun =>
    rw [← hrun]
    exact restricting_unsolved hneat hun (Ty.regularIn_var.mp ht)
  | tuple hitems =>
    refine restricting_parts hitems hneat ht (fun s u hu => .item hu) (fun η => ?_)
    rw [Ty.read_tuple, Typeclass.contains_tuple, List.forall_mem_map]
    exact and_iff_right rfl
  | list hlist hitems =>
    refine restricting_parts hitems hneat ht (fun s u hu => .arg hu) (fun η => ?_)
    rw [Ty.read_union, contains_list hlist]
  | admitted _ hadmits =>
    refine keeping_of_ok (.refl hneat (fun _ _ _ => rfl)) (fun _ η _ _ => ?_)
    rw [Ty.read_union]
    exact contains_of_admits hadmits
  | refused hrefuses =>
    refine keeping_of_ok (.refl hneat (fun η _ hC => ?_)) (fun ho => ?_)
    · exact absurd hC (not_contains_of_refuses ht.regular hrefuses)
    · cases ho

theorem restricting_constrain (s : Store) (c : Typeclass) (t : Ty) :
    Restricting K s c t (constrain c t s) :=
  constrainAt_induct (fun _ _ _ _ => restricting_constrained) (fun _ _ _ _ _ _ => .inl rfl) _ s c t

/-! ### Unifying types -/

theorem keeping_constrainLike (hneat : Neat (s, Q)) {v : TyVar} {t : Ty} (hv : .var v ∈ Q)
    (hflex : v.rigid = false) (ht : t.RegularIn Q) :
    Keeping K (s, Q) (fun η => η (.var v.id) = t.read η)
      (fun s' => ∀ c, v.typeclass = some c → s'.Conforms c t) (constrainLike v t s) := by
  unfold constrainLike
  cases hc : v.typeclass with
  | none =>
    refine keeping_of_ok (.refl hneat (fun _ _ _ => rfl)) (fun _ c h => ?_)
    cases h
  | some c =>
    have hkeeping := restricting_constrain (K := K) s c t Q hneat ht
    show Keeping K _ _ _ (constrain c t s)
    cases hrun : constrain c t s with
    | error fault =>
      rw [hrun] at hkeeping
      exact hkeeping.fault
    | ok p =>
      rw [hrun] at hkeeping
      obtain ⟨Q', hlossless, hconforms⟩ := hkeeping.lossless
      refine keeping_of_ok (hlossless.imp (fun η hsolves hread => ?_)) (fun ho d hd => ?_)
      · rw [← hread]
        exact (hsolves.fits v hv).flexible hflex c hc
      · cases hd
        exact hconforms ho

/-- A variable that meets a type other than a variable loses nothing in which it stands for the type. -/
theorem keeping_unifyVar (hneat : Neat (s, Q)) {v : TyVar} {t : Ty} (hun : s.Unsolved v.id)
    (hv : .var v ∈ Q) (ht : t.RegularIn Q) {shape : Shape} (hshape : shape? t = some shape) :
    Keeping K (s, Q) (fun η => η (.var v.id) = t.read η) (fun _ => True) (unifyVar v t s) := by
  obtain ⟨o, s', hends, hbound⟩ := bound_unifyVar hneat.tidy hun ht.within
  rw [hends]
  have hlike : v.rigid = false → ∀ o s₁, constrainLike v t s = .ok (o, s₁) →
      ∃ Q₁, Lossless K (s, Q) (s₁, Q₁) (fun η => η (.var v.id) = t.read η) o ∧
        (o = .ok () → ∀ c, v.typeclass = some c → s₁.Conforms c t) := by
    intro hflex o s₁ hlike
    have hkeeping := keeping_constrainLike (K := K) hneat hv hflex ht
    rw [hlike] at hkeeping
    exact hkeeping.lossless
  cases hbound with
  | rigid hrigid =>
    refine keeping_of_ok (.refl hneat (fun η hsolves hread => ?_)) (fun _ => trivial)
    have hconst := ht.regular.shape?_read hshape η
    rw [← hread, (hsolves.fits v hv).rigid hrigid] at hconst
    cases hconst
  | refused hflex hrun =>
    obtain ⟨Q₁, hlossless, -⟩ := hlike hflex _ _ hrun
    exact keeping_of_ok hlossless (fun _ => trivial)
  | @infinite s₁ hflex hrun hleads =>
    obtain ⟨Q₁, hlossless, -⟩ := hlike hflex _ _ hrun
    refine keeping_of_ok (Q := Q₁) ⟨hlossless.subset, hlossless.extension, hlossless.neat,
      hlossless.flexible, fun η hsolves hread => ?_⟩ (fun _ => trivial)
    have hne : ∀ w, t ≠ .var w := by
      rintro w rfl
      cases hshape
    -- the variable would stand for something larger than itself
    obtain ⟨-, η₁, hsolves₁, hagree⟩ := hlossless.kept η hsolves hread
    have hlt := hlossless.neat.sizeOf_lt_of_leads hsolves₁.models
      (ht.mono hlossless.subset) hne hleads
    rw [hneat.read_congr ht.within hagree, hagree _ hun.1, hread] at hlt
    exact absurd hlt (Nat.lt_irrefl _)
  | @solved s₁ hflex hrun hun₁ hnot _ =>
    obtain ⟨Q₁, hlossless, hconforms⟩ := hlike hflex _ _ hrun
    have hsolved := lossless_solved (K := K) hlossless.neat hun₁ (hlossless.subset hv) hflex
      (ht.mono hlossless.subset) hnot (hconforms rfl)
    refine keeping_of_ok (hlossless.trans hsolved (fun _ hread => hread) ?_ (fun _ ho => ho))
      (fun _ => trivial)
    intro η η' hagree hread
    rw [hneat.read_congr ht.within hagree, hagree _ hun.1, hread]
  | copied hrecord _ _ _ _ =>
    subst hrecord
    cases ht.regular

/-- Unifying two regular types loses nothing in which they say the same. -/
def Unifying (K : Set (Reading Rigid)) : Behaviour := fun s a e res =>
  ∀ Q, Neat (s, Q) → a.RegularIn Q → e.RegularIn Q →
    Keeping K (s, Q) (fun η => a.read η = e.read η) (fun _ => True) res

theorem andThen_of_ok {o o' : Outcome} (ho : o = .ok ()) (ho' : o' = .ok ()) : o.andThen o' = .ok () := by
  subst ho ho'
  rfl

theorem nested_of_ok {o : Outcome} (ho : o = .ok ()) : o.nested = .ok () := by
  subst ho
  rfl

theorem regularIn_rest {pair : Ty × Ty} {pairs : List (Ty × Ty)} {Q' : Set Mention}
    (h : ∀ p ∈ pair :: pairs, p.1.RegularIn Q ∧ p.2.RegularIn Q) (hQ : Q ⊆ Q') :
    ∀ p ∈ pairs, p.1.RegularIn Q' ∧ p.2.RegularIn Q' := by
  intro p hp
  obtain ⟨ha, he⟩ := h p (List.mem_cons_of_mem _ hp)
  exact ⟨ha.mono hQ, he.mono hQ⟩

theorem unifying_pairs {pairs : List (Ty × Ty)} {res : Ending Outcome}
    (h : Pairs (Unifying K) s pairs res) (hneat : Neat (s, Q))
    (hpairs : ∀ p ∈ pairs, p.1.RegularIn Q ∧ p.2.RegularIn Q) :
    Keeping K (s, Q) (fun η => ∀ p ∈ pairs, p.1.read η = p.2.read η) (fun _ => True) res := by
  induction h generalizing Q with
  | nil => exact keeping_of_ok (.refl hneat (fun _ _ _ => rfl)) (fun _ => trivial)
  | fault hfirst =>
    obtain ⟨ha, he⟩ := hpairs _ List.mem_cons_self
    exact (hfirst Q hneat ha he).fault
  | later hfirst _ ih =>
    obtain ⟨ha, he⟩ := hpairs _ List.mem_cons_self
    obtain ⟨Q₁, hlossless, -⟩ := (hfirst Q hneat ha he).lossless
    exact (ih hlossless.neat (regularIn_rest hpairs hlossless.subset)).fault
  | cons hfirst _ ih =>
    obtain ⟨ha, he⟩ := hpairs _ List.mem_cons_self
    obtain ⟨Q₁, hlossless, -⟩ := (hfirst Q hneat ha he).lossless
    obtain ⟨Q', hothers, -⟩ := (ih hlossless.neat (regularIn_rest hpairs hlossless.subset)).lossless
    refine keeping_of_ok (hlossless.trans hothers (fun η hC => hC _ List.mem_cons_self) ?_
      (fun ho ho' => andThen_of_ok (nested_of_ok ho) ho')) (fun _ => trivial)
    intro η η' hagree hC p hp
    obtain ⟨ha, he⟩ := hpairs p (List.mem_cons_of_mem _ hp)
    rw [hneat.read_congr ha.within hagree, hneat.read_congr he.within hagree]
    exact hC p (List.mem_cons_of_mem _ hp)

theorem regularIn_params (hneat : Neat (s, Q)) {params params' : List Ty} {ret ret' : Ty}
    {w w' : Option (AliasUse Ty)} (ha : (Ty.arrow params ret w).RegularIn Q)
    (he : (Ty.arrow params' ret' w').RegularIn Q) :
    ∀ p ∈ params.zip params', p.1.RegularIn Q ∧ p.2.RegularIn Q := by
  intro p hp
  obtain ⟨hleft, hright⟩ := List.of_mem_zip hp
  exact ⟨hneat.child ha (.param hleft), hneat.child he (.param hright)⟩

theorem regularIn_results {params params' : List Ty} {ret ret' : Ty} {w w' : Option (AliasUse Ty)}
    {Q' : Set Mention} (ha : (Ty.arrow params ret w).RegularIn Q)
    (he : (Ty.arrow params' ret' w').RegularIn Q) (hQ : Q ⊆ Q') :
    (Ty.dropParams params ret (min params.length params'.length)).RegularIn Q' ∧
      (Ty.dropParams params' ret' (min params.length params'.length)).RegularIn Q' :=
  ⟨(ha.dropParams _).mono hQ, (he.dropParams _).mono hQ⟩

theorem unifying_resolved {a e : Ty} {res : Ending Outcome} (h : Resolved (Unifying K) s a e res)
    (hneat : Neat (s, Q)) (ha : a.RegularIn Q) (he : e.RegularIn Q)
    (hleft : ∀ v, a = .var v → s.Unsolved v.id) (hright : ∀ v, e = .var v → s.Unsolved v.id) :
    Keeping K (s, Q) (fun η => a.read η = e.read η) (fun _ => True) res := by
  have hok : ∀ a e : Ty, Keeping K (s, Q) (fun η => a.read η = e.read η) (fun _ => True) (.ok (.ok (), s)) :=
    fun a e => keeping_of_ok (.refl hneat (fun _ _ _ => rfl)) (fun _ => trivial)
  cases h with
  | accepted _ => exact hok a e
  | same _ => exact hok _ _
  | @vars v w res hne hrun =>
    subst hrun
    obtain ⟨o, s', hrun, hjoins⟩ := joins_unifyVars (hleft v rfl) (hright w rfl) hne
    obtain ⟨Q', hlossless⟩ := hjoins.lossless (K := K) hneat (hleft v rfl) (hright w rfl) hne
      (Ty.regularIn_var.mp ha) (Ty.regularIn_var.mp he)
    rw [hrun]
    exact keeping_of_ok hlossless (fun _ => trivial)
  | @varLeft v t _ res hshape hrun =>
    subst hrun
    exact keeping_unifyVar hneat (hleft v rfl) (Ty.regularIn_var.mp ha) he hshape
  | @varRight v t _ res hshape hrun =>
    subst hrun
    have hkeeping := keeping_unifyVar (K := K) hneat (hright v rfl) (Ty.regularIn_var.mp he) ha hshape
    exact hkeeping.imp (fun η hread => hread.symm)
  | unit => exact hok _ _
  | @tuple items items' res _ hpairs =>
    refine (unifying_pairs hpairs hneat (fun p hp => ?_)).imp (fun η hread => ?_)
    · obtain ⟨hleft, hright⟩ := List.of_mem_zip hp
      exact ⟨hneat.child ha (.item hleft), hneat.child he (.item hright)⟩
    · rw [Ty.read_tuple, Ty.read_tuple] at hread
      exact Ty.read_of_mem_zip (Reading.tuple.inj hread)
  | union _ hpairs =>
    refine (unifying_pairs hpairs hneat (fun p hp => ?_)).imp (fun η hread => ?_)
    · obtain ⟨hleft, hright⟩ := List.of_mem_zip hp
      exact ⟨hneat.child ha (.arg hleft), hneat.child he (.arg hright)⟩
    · rw [Ty.read_union, Ty.read_union] at hread
      exact Ty.read_of_mem_zip (Reading.union.inj hread).2.2
  | params hpairs =>
    exact (unifying_pairs hpairs hneat (regularIn_params hneat ha he)).imp (fun η hread => (Ty.read_of_arrow hread).1)
  | rest hpairs hrest =>
    obtain ⟨Q₁, hlossless, -⟩ := (unifying_pairs hpairs hneat (regularIn_params hneat ha he)).lossless
    obtain ⟨ha₁, he₁⟩ := regularIn_results ha he hlossless.subset
    exact (hrest Q₁ hlossless.neat ha₁ he₁).fault
  | arrow hpairs hrest =>
    obtain ⟨Q₁, hlossless, -⟩ := (unifying_pairs hpairs hneat (regularIn_params hneat ha he)).lossless
    obtain ⟨ha₁, he₁⟩ := regularIn_results ha he hlossless.subset
    obtain ⟨Q', hlossless', -⟩ := (hrest Q₁ hlossless.neat ha₁ he₁).lossless
    refine keeping_of_ok (hlossless.trans hlossless' (fun η hread => (Ty.read_of_arrow hread).1) ?_
      (fun ho ho' => andThen_of_ok ho (nested_of_ok ho'))) (fun _ => trivial)
    intro η η' hagree hread
    obtain ⟨ha₀, he₀⟩ := regularIn_results ha he subset_rfl
    rw [hneat.read_congr ha₀.within hagree, hneat.read_congr he₀.within hagree]
    exact (Ty.read_of_arrow hread).2
  | record hshape _ _ =>
    cases ha.regular <;> cases hshape
  | clash hshape hshape' hne =>
    refine keeping_of_ok (.refl hneat (fun η _ hread => ?_)) (fun _ => trivial)
    have hsame := ha.regular.shape?_read hshape η
    rw [hread, he.regular.shape?_read hshape' η] at hsame
    exact absurd (Option.some.inj hsame).symm hne

theorem unifying_unified {a e : Ty} {res : Ending Outcome} (h : Unified (Unifying K) s a e res) :
    Unifying K s a e res := by
  intro Q hneat ha he
  cases h with
  | lostLeft hlost =>
    obtain ⟨r, hresolve⟩ := exists_resolve hneat.sane.loopfree hneat.sane.closed (hneat.tidy.owns ha.within)
    rw [hresolve] at hlost
    cases hlost
  | lostRight hlost =>
    obtain ⟨r, hresolve⟩ := exists_resolve hneat.sane.loopfree hneat.sane.closed (hneat.tidy.owns he.within)
    rw [hresolve] at hlost
    cases hlost
  | resolved hra hre hres =>
    have hra' := resolvesTo_of_resolve hra
    have hre' := resolvesTo_of_resolve hre
    have hkeeping := unifying_resolved hres hneat (hneat.reads ha hra'.reads) (hneat.reads he hre'.reads)
      (fun v heq => (heq ▸ hra').unsolved_of_var) (fun v heq => (heq ▸ hre').unsolved_of_var)
    rcases hkeeping with hstop | ⟨o, s', Q', heq, hlossless, -⟩
    · exact .inl hstop
    · subst heq
      refine keeping_of_ok (hlossless.imp (fun η hsolves hread => ?_)) (fun _ => trivial)
      rwa [← hsolves.models.read_resolve hra', ← hsolves.models.read_resolve hre']

theorem unifying_unify (s : Store) (a e : Ty) : Unifying K s a e (unify a e s) :=
  unify_induct (fun _ _ _ _ _ _ _ => .inl rfl) (fun _ _ _ _ => unifying_unified) s a e

end StoreM

end ElmInference
