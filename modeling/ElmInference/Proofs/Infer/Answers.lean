import ElmInference.Proofs.Infer.Copies
import ElmInference.Proofs.Infer.Parameters

/-!
# Inference of core expressions comes to an answer

The expressions that the typing rules are about are inferred without a fault, whether or not they have a type. No
record is around, so unification comes to an answer; functions take arguments; and aliases show what they hold, so
that all types can be written out in the end. Nothing depends on other declarations, and without a flag nobody can call
the work off.

As long as nothing is reported but names that hide others, all types are regular, and an answer says the truth about the expression: in every
solution of the store, the type stands for one that the typing rules give to the expression.

Both are shown by one walk through inference. A state in which all of this holds is steady. Each piece of inference
returns from a steady state and leaves a steady one, with the same names in scope.
-/

namespace ElmInference

open Store

/-- Whether the types of a problem can be written out. Core expressions do not run into problems with records. -/
def ProblemKind.Displayed (s : Store) : ProblemKind → Prop
  | .typeMismatch found required none => s.Displays found ∧ s.Displays required
  | .typeMismatch _ _ (some _) => False
  | .invalidPattern _ _ _ => False
  | .typeMustBeRecord _ => False
  | .fieldAccessOnNonRecord _ => False
  | _ => True

theorem Store.Extends.displays {s s' : Store} (h : s.Extends s') {t : Ty} (ht : s.Displays t) : s'.Displays t :=
  fun r hr => h.has (ht r hr)

theorem ProblemKind.Displayed.later {s s' : Store} {kind : ProblemKind} (h : kind.Displayed s) (hext : s.Extends s') :
    kind.Displayed s' := by
  cases kind with
  | typeMismatch found required diff =>
    cases diff with
    | none => exact ⟨hext.displays h.1, hext.displays h.2⟩
    | some _ => exact h
  | _ => exact h

theorem Ty.within_unit {Q : Set Mention} : Ty.unit.Within Q := by
  simp [Within, mentions]

/-- In a solution by plain types regular types stand for plain types. -/
theorem Store.Solves.plain_read {s : Store} {Q : Set Mention} {η : Env Rigid}
    (h : Solves plainReadings (s, Q) η) (hneat : Neat (s, Q)) {t : Ty} (ht : t.RegularIn Q) : (t.read η).Plain := by
  classical
  -- What stands for variables that are not there does not matter.
  let η' : Env Rigid := fun n => if ∀ id, n = .var id → id < s.size then η n else .unit
  have hagree : ∀ id, id < s.size → η' (.var id) = η (.var id) := by
    intro id hid
    refine if_pos (c := ∀ other, Node.var id = .var other → other < s.size) fun other heq => ?_
    obtain rfl := Node.var.inj heq
    exact hid
  rw [← hneat.read_congr ht.within hagree]
  refine hneat.plain_read (hneat.models_congr h.models hagree) (fun id _ => ?_) ht
  by_cases hid : id < s.size
  · rw [hagree id hid]
    exact h.inside id hid
  · rw [show η' (.var id) = .unit from if_neg fun h : ∀ other, Node.var id = .var other → other < s.size => hid (h id rfl)]
    exact .unit

/-- A state of inference with the variables that its types are about. -/
structure Stage where
  work : Work
  vars : Set Mention

namespace Stage

abbrev store (σ : Stage) : Store := σ.work.pass.store

abbrev world (σ : Stage) : World := (σ.store, σ.vars)

/-- Whether nothing has been reported, except that names hide others. -/
def Silent (σ : Stage) : Prop :=
  ∀ p ∈ σ.work.pass.problems, p.kind = .conflictingName

/-- Whether something holds in all solutions, as long as nothing has been reported. -/
def Says (σ : Stage) (J : Env Rigid → Prop) : Prop :=
  σ.Silent → ∀ η, Solves plainReadings σ.world η → J η

/-- A type that can be written out, and that is regular as long as nothing has been reported. -/
structure Hosts (σ : Stage) (t : Ty) : Prop where
  legible : t.Legible
  owns : σ.store.Owns t
  regular : σ.Silent → t.RegularIn σ.vars

def IsVar (σ : Stage) (t : Ty) : Prop :=
  ∃ v, t = .var v ∧ v.id < σ.store.size ∧ (σ.Silent → .var v ∈ σ.vars)

/-- A state from which inference of core expressions returns. -/
structure Steady (context : Context) (σ : Stage) : Prop where
  flag : σ.work.session.flag = none
  going : σ.work.pass.cancelled = false
  sane : σ.store.Sane
  legible : σ.store.Recordless Ty.Legible
  nodeTypes : ∀ entry ∈ σ.work.pass.nodeTypes, σ.store.Displays entry.2
  problems : ∀ p ∈ σ.work.pass.problems, p.kind.Displayed σ.store
  conflicts : ∀ p ∈ σ.work.pass.problems, p.kind = .conflictingName → context.engine.shadowing = .allScopes
  neat : σ.Silent → Neat σ.world
  flexible : σ.Silent → ∀ v, .var v ∈ σ.vars → v.rigid = false

/-- What work in a steady state makes of it. -/
structure Continues (context : Context) (σ σ' : Stage) : Prop where
  steady : σ'.Steady context
  extension : σ.store.Extends σ'.store
  scopes : σ'.work.pass.scopes = σ.work.pass.scopes
  vars : σ.vars ⊆ σ'.vars
  silent : σ'.Silent → σ.Silent

variable {context : Context} {σ σ₁ σ' : Stage} {t u : Ty} {J J' : Env Rigid → Prop}

theorem Steady.refl (h : σ.Steady context) : σ.Continues context σ :=
  ⟨h, .refl _, rfl, subset_rfl, id⟩

theorem Continues.trans (h : σ.Continues context σ₁) (h' : σ₁.Continues context σ') : σ.Continues context σ' :=
  ⟨h'.steady, h.extension.trans h'.extension, h'.scopes.trans h.scopes, h.vars.trans h'.vars, h.silent ∘ h'.silent⟩

/-! ### What holds in all solutions -/

theorem Continues.solves (h : σ.Continues context σ') {η : Env Rigid} (hsolves : Solves plainReadings σ'.world η) :
    Solves plainReadings σ.world η :=
  ⟨hsolves.models.earlier h.extension, fun id hid => hsolves.inside id (Nat.lt_of_lt_of_le hid h.extension.size),
    fun v hv => hsolves.fits v (h.vars hv)⟩

theorem Says.later (h : σ.Says J) (hcontinues : σ.Continues context σ') : σ'.Says J :=
  fun hsilent η hsolves => h (hcontinues.silent hsilent) η (hcontinues.solves hsolves)

theorem Says.imp (h : σ.Says J) (himp : ∀ η, J η → J' η) : σ.Says J' :=
  fun hsilent η hsolves => himp η (h hsilent η hsolves)

theorem Says.and (h : σ.Says J) (h' : σ.Says J') : σ.Says (fun η => J η ∧ J' η) :=
  fun hsilent η hsolves => ⟨h hsilent η hsolves, h' hsilent η hsolves⟩

theorem says_of_forall (h : ∀ η, J η) : σ.Says J :=
  fun _ η _ => h η

theorem says_of_not_silent (h : ¬ σ.Silent) : σ.Says J :=
  fun hsilent => absurd hsilent h

/-- A regular type stands for a plain one. -/
theorem Hosts.plain (h : σ.Hosts t) (hσ : σ.Steady context) : σ.Says (fun η => (t.read η).Plain) :=
  fun hsilent _ hsolves => hsolves.plain_read (hσ.neat hsilent) (h.regular hsilent)

/-! ### Types that inference builds -/

namespace Hosts

theorem later (h : σ.Hosts t) (hcontinues : σ.Continues context σ') : σ'.Hosts t :=
  ⟨h.legible, hcontinues.extension.owns h.owns,
    fun hsilent => (h.regular (hcontinues.silent hsilent)).mono hcontinues.vars⟩

theorem displays (h : σ.Hosts t) : σ.store.Displays t :=
  displays_of_legible h.legible h.owns

theorem part (h : σ.Hosts t) (hpart : t.Part u) (hregular : t.Regular → u.Regular) : σ.Hosts u :=
  ⟨Ty.bare_legible.part _ _ hpart h.legible, fun r hr => h.owns r (hpart.mentions_subset hr),
    fun hsilent => ⟨hregular (h.regular hsilent).regular,
      fun r hr => (h.regular hsilent).within r (hpart.mentions_subset hr)⟩⟩

theorem unknown (h : ¬ σ.Silent) : σ.Hosts .unknown := by
  refine ⟨Ty.legible_of_parts (by simp [StoreM.shape?]) (by simp) rfl (fun u hpart => by cases hpart), fun r hr => ?_,
    fun hsilent => absurd hsilent h⟩
  rw [List.mem_singleton.mp hr]
  trivial

theorem unit : σ.Hosts .unit :=
  ⟨Ty.legible_of_parts (by simp [StoreM.shape?]) (by simp) rfl (fun u hpart => by cases hpart),
    Ty.within_unit, fun _ => ⟨.unit, Ty.within_unit⟩⟩

theorem named {m n : Name} {args : List Ty} (h : ∀ u ∈ args, σ.Hosts u) : σ.Hosts (.named m n args) := by
  refine ⟨Ty.legible_of_parts (by simp [StoreM.shape?, Ty.named]) (by simp [Ty.named]) rfl (fun u hpart => ?_), ?_,
    fun hsilent => ⟨.union fun u hu => ((h u hu).regular hsilent).regular, ?_⟩⟩
  · cases hpart with
    | arg hmem => exact (h u hmem).legible
  · exact Ty.within_union.mpr fun u hu => (h u hu).owns
  · exact Ty.within_union.mpr fun u hu => ((h u hu).regular hsilent).within

theorem tuple {items : List Ty} (h : ∀ u ∈ items, σ.Hosts u) : σ.Hosts (.tuple items) := by
  refine ⟨Ty.legible_of_parts (by simp [StoreM.shape?]) (by simp) rfl (fun u hpart => ?_), ?_,
    fun hsilent => ⟨.tuple fun u hu => ((h u hu).regular hsilent).regular, ?_⟩⟩
  · cases hpart with
    | item hmem => exact (h u hmem).legible
  · exact Ty.within_tuple.mpr fun u hu => (h u hu).owns
  · exact Ty.within_tuple.mpr fun u hu => ((h u hu).regular hsilent).within

theorem function {params : List Ty} (hparams : ∀ u ∈ params, σ.Hosts u) (ht : σ.Hosts t) :
    σ.Hosts (Ty.function params t) :=
  ⟨Ty.bare_legible.function (fun u hu => (hparams u hu).legible) ht.legible,
    Ty.within_function (Q := {r | σ.store.Has r}) (fun u hu => (hparams u hu).owns) ht.owns,
    fun hsilent => ⟨.function (fun u hu => ((hparams u hu).regular hsilent).regular) (ht.regular hsilent).regular,
      Ty.within_function (fun u hu => ((hparams u hu).regular hsilent).within) (ht.regular hsilent).within⟩⟩

end Hosts

theorem IsVar.later (h : σ.IsVar t) (hcontinues : σ.Continues context σ') : σ'.IsVar t := by
  obtain ⟨v, rfl, hlt, hmem⟩ := h
  exact ⟨v, rfl, Nat.lt_of_lt_of_le hlt hcontinues.extension.size,
    fun hsilent => hcontinues.vars (hmem (hcontinues.silent hsilent))⟩

theorem IsVar.hosts (h : σ.IsVar t) : σ.Hosts t := by
  obtain ⟨v, rfl, hlt, hmem⟩ := h
  exact ⟨Ty.bare_legible.var v, owns_var hlt, fun hsilent => Ty.regularIn_var.mpr (hmem hsilent)⟩

/-! ### Steps -/

/-- A store with more in it, in the place of the old one. -/
theorem Steady.withStore (h : σ.Steady context) {s : Store} {Q : Set Mention} (hext : σ.store.Extends s) (hsane : s.Sane)
    (hs : s.Recordless Ty.Legible) (hQ : σ.vars ⊆ Q) (hneat : σ.Silent → Neat (s, Q))
    (hflexible : σ.Silent → ∀ v, .var v ∈ Q → .var v ∈ σ.vars ∨ v.rigid = false) :
    σ.Continues context ⟨σ.work.withStore s, Q⟩ := by
  refine ⟨⟨h.flag, h.going, hsane, hs, fun entry hentry => ?_, fun p hp => ?_, h.conflicts, hneat, fun hsilent v hv => ?_⟩,
    hext, rfl, hQ, id⟩
  · exact hext.displays (h.nodeTypes entry hentry)
  · exact (h.problems p hp).later hext
  · exact (hflexible hsilent v hv).elim (h.flexible hsilent v) id

def inside (σ : Stage) (scope : Scope) (log : List (NodeId × Ty)) (conflicts : List Problem) (levels : Nat) : Stage :=
  ⟨σ.work.inside scope log conflicts levels, σ.vars⟩

def outside (σ : Stage) (levels : Nat) : Stage :=
  ⟨{ σ.work with pass := σ.work.pass.leaving levels }, σ.vars⟩

section Inside

variable {scope : Scope} {log : List (NodeId × Ty)} {conflicts : List Problem} {levels : Nat}

theorem silent_of_inside (h : (σ.inside scope log conflicts levels).Silent) : σ.Silent :=
  fun p hp => h p (List.mem_append_left _ hp)

theorem Steady.inside (h : σ.Steady context) (hlog : ∀ entry ∈ log, σ.store.Displays entry.2)
    (hconflicts : ∀ p ∈ conflicts, context.Tolerates p) : (σ.inside scope log conflicts levels).Steady context := by
  refine ⟨h.flag, h.going, h.sane, h.legible, fun entry hentry => ?_, fun p hp => ?_, fun p hp hkind => ?_,
    fun hsilent => h.neat (silent_of_inside hsilent), fun hsilent => h.flexible (silent_of_inside hsilent)⟩
  · exact (List.mem_append.mp hentry).elim (hlog entry) (h.nodeTypes entry)
  · rcases List.mem_append.mp hp with hp | hp
    · exact h.problems p hp
    · rw [(hconflicts p hp).1]
      trivial
  · rcases List.mem_append.mp hp with hp | hp
    · exact h.conflicts p hp hkind
    · exact (hconflicts p hp).2

theorem IsVar.inside (h : σ.IsVar t) : (σ.inside scope log conflicts levels).IsVar t := by
  obtain ⟨v, rfl, hlt, hmem⟩ := h
  exact ⟨v, rfl, hlt, fun hsilent => hmem (silent_of_inside hsilent)⟩

theorem Continues.outside (h : (σ.inside scope log conflicts levels).Continues context σ') :
    σ.Continues context (σ'.outside levels) := by
  obtain ⟨hflag, hgoing, hsane, hlegible, hnodes, hproblems, hconflicts, hneat, hflexible⟩ := h.steady
  exact ⟨⟨hflag, hgoing, hsane, hlegible, hnodes, hproblems, hconflicts, hneat, hflexible⟩, h.extension,
    congrArg List.tail h.scopes, h.vars, fun hsilent => silent_of_inside (h.silent hsilent)⟩

end Inside

theorem Hosts.outside (h : σ.Hosts t) (levels : Nat) : (σ.outside levels).Hosts t :=
  ⟨h.legible, h.owns, h.regular⟩

end Stage

namespace InferM

variable {α β : Type} {context : Context} {σ σ' : Stage} {P : Stage → α → Prop} {P' : Stage → β → Prop}

/-- Whether work returns from a state, with a result of which something holds. -/
def Completes (context : Context) (σ : Stage) (x : InferM α) (P : Stage → α → Prop) : Prop :=
  ∃ a σ', x context σ.work = (.ok a, σ'.work) ∧ σ.Continues context σ' ∧ P σ' a

theorem Completes.bind {x : InferM α} {f : α → InferM β} (hx : Completes context σ x P)
    (hf : ∀ a σ₁, σ.Continues context σ₁ → P σ₁ a → Completes context σ₁ (f a) P') : Completes context σ (x >>= f) P' := by
  obtain ⟨a, σ₁, hrun, hcontinues, ha⟩ := hx
  obtain ⟨b, σ', hrun', hcontinues', hb⟩ := hf a σ₁ hcontinues ha
  exact ⟨b, σ', (run_bind_ok f hrun).trans hrun', hcontinues.trans hcontinues', hb⟩

theorem Completes.imp {P' : Stage → α → Prop} {x : InferM α} (h : Completes context σ x P)
    (hP : ∀ σ' a, σ.Continues context σ' → P σ' a → P' σ' a) : Completes context σ x P' := by
  obtain ⟨a, σ', hrun, hcontinues, ha⟩ := h
  exact ⟨a, σ', hrun, hcontinues, hP _ _ hcontinues ha⟩

theorem completes_pure (hσ : σ.Steady context) {a : α} (ha : P σ a) : Completes context σ (pure a) P :=
  ⟨a, σ, rfl, hσ.refl, ha⟩

def HostsAll (σ : Stage) (ts : List Ty) : Prop :=
  ∀ t ∈ ts, σ.Hosts t

theorem HostsAll.later {ts : List Ty} (h : HostsAll σ ts) (hcontinues : σ.Continues context σ') : HostsAll σ' ts :=
  fun t ht => (h t ht).later hcontinues

/-! ### Variables, problems and recorded types -/

/-- A new variable stands for a type of the class that its name tells. -/
theorem completes_freshVar (hσ : σ.Steady context) (name : Name) : Completes context σ (freshVar name)
    (fun σ' t => σ'.IsVar t ∧ ∀ c, Typeclass.ofName name = some c → σ'.Says (fun η => c.Contains (t.read η))) := by
  have hsane := ((Move.fresh name false).tidy hσ.sane.tidy).sane
  refine ⟨_, ⟨_, insert (.var ⟨σ.store.size, name, false⟩) σ.vars⟩, run_freshVar name, hσ.withStore (extends_extended _)
    hsane hσ.legible.extended (Set.subset_insert _ _) (fun hsilent => (hσ.neat hsilent).fresh name false) ?_, ⟨_, rfl, ?_, ?_⟩,
    ?_⟩
  · rintro - v (hv | hv)
    · obtain rfl := Mention.var.inj hv
      exact .inr rfl
    · exact .inl hv
  · exact Nat.lt_of_lt_of_eq (Nat.lt_succ_self _) (size_extended _).symm
  · exact fun _ => Set.mem_insert _ _
  · intro c hc _ η hsolves
    exact (hsolves.fits _ (Set.mem_insert _ _)).flexible rfl c hc

theorem completes_freshVars (hσ : σ.Steady context) (name : Name) (xs : List α) :
    Completes context σ (freshVars name xs) (fun σ' ts => (∀ t ∈ ts, σ'.IsVar t) ∧ xs.length = ts.length) := by
  induction xs generalizing σ with
  | nil => exact completes_pure hσ ⟨fun t ht => absurd ht List.not_mem_nil, rfl⟩
  | cons x xs ih =>
    unfold freshVars
    rw [List.mapM_cons]
    refine (completes_freshVar hσ name).bind fun t σ₁ h₁ ht => ?_
    refine (ih h₁.steady).bind fun ts σ₂ h₂ hts => completes_pure h₂.steady ?_
    exact ⟨List.forall_mem_cons.mpr ⟨ht.1.later h₂, hts.1⟩, by simp [hts.2]⟩

theorem completes_report (hσ : σ.Steady context) (pos : Nat) {kind : ProblemKind} (hkind : kind.Displayed σ.store)
    (hserious : kind ≠ .conflictingName) : Completes context σ (report pos kind) (fun σ' _ => ¬ σ'.Silent) := by
  have hloud : ∀ problems : List Problem, ¬ ∀ p ∈ problems ++ [⟨pos, kind⟩], p.kind = .conflictingName :=
    fun problems hsilent => hserious (hsilent ⟨pos, kind⟩ (List.mem_append_right _ List.mem_cons_self))
  refine ⟨(), ⟨_, σ.vars⟩, rfl, ⟨⟨hσ.flag, hσ.going, hσ.sane, hσ.legible, hσ.nodeTypes, fun p hp => ?_, fun p hp heq => ?_,
    ?_, ?_⟩, .refl _, rfl, subset_rfl, ?_⟩, hloud _⟩
  · rcases List.mem_append.mp hp with hp | hp
    · exact hσ.problems p hp
    · rw [List.mem_singleton.mp hp]
      exact hkind
  · rcases List.mem_append.mp hp with hp | hp
    · exact hσ.conflicts p hp heq
    · rw [List.mem_singleton.mp hp] at heq
      exact absurd heq hserious
  · exact fun hsilent => absurd hsilent (hloud _)
  · exact fun hsilent => absurd hsilent (hloud _)
  · exact fun hsilent => absurd hsilent (hloud _)

theorem completes_record (hσ : σ.Steady context) (id : NodeId) {t : Ty} (ht : σ.store.Displays t) :
    Completes context σ (record id t) (fun _ _ => True) :=
  ⟨(), ⟨_, σ.vars⟩, rfl, ⟨⟨hσ.flag, hσ.going, hσ.sane, hσ.legible, List.forall_mem_cons.mpr ⟨ht, hσ.nodeTypes⟩,
    hσ.problems, hσ.conflicts, hσ.neat, hσ.flexible⟩, .refl _, rfl, subset_rfl, fun hsilent => hsilent⟩, trivial⟩

theorem completes_zonk (hσ : σ.Steady context) {t : Ty} (ht : σ.store.Displays t) :
    Completes context σ (zonk t) (fun σ' z => σ'.store.Displays z) := by
  obtain ⟨z, hz⟩ := exists_zonk_of_legible hσ.sane hσ.legible ht
  exact ⟨z, σ, run_read_ok hz, hσ.refl, displays_zonk hσ.legible.records hz⟩

/-- Hosted types hold no function without parameters, so that every type takes its arguments itself. -/
theorem completes_callee (hσ : σ.Steady context) {t : Ty} (ht : σ.Hosts t) :
    Completes context σ (store (StoreM.read fun s => s.callee t))
      (fun σ' found => t = found.1 ∧ σ'.Hosts found.2 ∧ σ'.Says (fun η => t.read η = found.2.read η)) := by
  obtain ⟨r, hr⟩ := exists_resolve hσ.sane.loopfree hσ.sane.closed ht.owns
  have hresolves := resolvesTo_of_resolve hr
  have hlegible := hσ.legible.resolves hresolves ht.legible
  have hne : ∀ ret w, r ≠ .arrow [] ret w := hlegible.applicable _ .refl
  refine ⟨(t, r), σ, run_read_ok (callee_of_resolve hr hne), hσ.refl, rfl, ⟨hlegible,
    hresolves.owns hσ.sane.closed ht.owns, fun hsilent => ?_⟩, fun _ η hsolves => hsolves.models.read_resolve hresolves⟩
  exact (hσ.neat hsilent).reads (ht.regular hsilent) hresolves.reads

theorem completes_isCancelled (hσ : σ.Steady context) : Completes context σ isCancelled (fun _ b => b = false) :=
  ⟨false, σ, run_isCancelled context hσ.flag hσ.going, hσ.refl, rfl⟩

/-! ### Checks and calls -/

theorem completes_unify (hσ : σ.Steady context) {a e : Ty} (ha : σ.Hosts a) (he : σ.Hosts e) :
    Completes context σ (store (StoreM.unify a e))
      (fun σ' o => o.Flat ∧ (o = .ok () → σ'.Says (fun η => a.read η = e.read η))) := by
  obtain ⟨o, s', hrun, hsane, hs, hext, hflat⟩ := StoreM.exists_unify_of_recordless Ty.bare_legible hσ.sane hσ.legible
    ha.owns he.owns ha.legible he.legible
  by_cases hsilent : σ.Silent
  · obtain ⟨o', s₁, Q', hrun', hlossless⟩ := exists_lossless_unify (K := plainReadings) (hσ.neat hsilent)
      (ha.regular hsilent) (he.regular hsilent)
    cases hrun.symm.trans hrun'
    refine ⟨o, ⟨_, Q'⟩, run_store_ok hrun, hσ.withStore hext hsane hs hlossless.subset (fun _ => hlossless.neat)
      (fun _ => hlossless.flexible), hflat, ?_⟩
    rintro rfl - η hsolves
    exact (hσ.neat hsilent).read_of_unify (ha.regular hsilent) (he.regular hsilent) hrun hlossless.neat hlossless.subset
      hsolves.models
  · refine ⟨o, ⟨_, σ.vars⟩, run_store_ok hrun, hσ.withStore hext hsane hs subset_rfl (fun h => absurd h hsilent)
      (fun h => absurd h hsilent), hflat, fun _ => ?_⟩
    exact Stage.says_of_not_silent hsilent

theorem completes_check (hσ : σ.Steady context) (pos : Nat) {a e : Ty} (ha : σ.Hosts a) (he : σ.Hosts e) :
    Completes context σ (check pos a e)
      (fun σ' fits => σ'.Says (fun η => a.read η = e.read η) ∧ (fits = false → ¬ σ'.Silent)) := by
  refine (completes_unify hσ ha he).bind fun o σ₁ h₁ ho => ?_
  have hfail : ∀ {σ₂ : Stage} {kind : ProblemKind}, σ₂.Steady context → kind.Displayed σ₂.store →
      kind ≠ .conflictingName → Completes context σ₂ (do
        report pos kind
        return false) (fun σ' fits => σ'.Says (fun η => a.read η = e.read η) ∧ (fits = false → ¬ σ'.Silent)) := by
    intro σ₂ kind hσ₂ hkind hserious
    refine (completes_report hσ₂ pos hkind hserious).bind fun _ σ₃ h₃ hloud => completes_pure h₃.steady ?_
    exact ⟨Stage.says_of_not_silent hloud, fun _ => hloud⟩
  have ha₁ := (ha.later h₁).displays
  have he₁ := (he.later h₁).displays
  rcases o with e | ⟨⟩
  · cases e with
    | infiniteType => exact hfail h₁.steady (by trivial) nofun
    | mismatch =>
      refine (completes_zonk h₁.steady ha₁).bind fun found σ₂ h₂ hfound => ?_
      refine (completes_zonk h₂.steady (h₂.extension.displays he₁)).bind fun required σ₃ h₃ hrequired => ?_
      exact hfail h₃.steady ⟨h₃.extension.displays hfound, hrequired⟩ nofun
    | record diff => exact absurd rfl (ho.1 diff)
  · exact completes_pure h₁.steady ⟨ho.2 rfl, nofun⟩

def HostsArgs (σ : Stage) (args : List (Nat × Ty)) : Prop :=
  ∀ arg ∈ args, σ.Hosts arg.2

theorem HostsArgs.later {args : List (Nat × Ty)} (h : HostsArgs σ args) (hcontinues : σ.Continues context σ') :
    HostsArgs σ' args :=
  fun arg harg => (h arg harg).later hcontinues

def argReadings (η : Env Rigid) (args : List (Nat × Ty)) : List (Reading Rigid) :=
  args.map (fun arg => arg.2.read η)

theorem completes_checkArgs (hσ : σ.Steady context) {args : List (Nat × Ty)} {params : List Ty} (hargs : HostsArgs σ args)
    (hparams : HostsAll σ params) (hlength : args.length = params.length) :
    Completes context σ (checkArgs args params)
      (fun σ' _ => σ'.Says (fun η => argReadings η args = params.map (Ty.read η))) := by
  induction args generalizing params σ with
  | nil =>
    obtain rfl := List.length_eq_zero_iff.mp hlength.symm
    exact completes_pure hσ (Stage.says_of_forall fun _ => rfl)
  | cons arg args ih =>
    cases params with
    | nil => cases hlength
    | cons param params =>
      obtain ⟨harg, hargs⟩ := List.forall_mem_cons.mp hargs
      obtain ⟨hparam, hparams⟩ := List.forall_mem_cons.mp hparams
      refine (completes_check hσ _ harg hparam).bind fun _ σ₁ h₁ hfits => ?_
      have hrest := ih h₁.steady (HostsArgs.later hargs h₁) (HostsAll.later hparams h₁) (Nat.succ.inj hlength)
      refine hrest.imp fun σ' _ h' hequal => ((hfits.1.later h').and hequal).imp fun η h => ?_
      exact List.cons_eq_cons.mpr h

/-- A function with the given parameters left takes the arguments and returns the result. -/
def Takes (σ : Stage) (params : List Ty) (ret : Ty) (args : List (Nat × Ty)) (result : Ty) : Prop :=
  σ.Says fun η => Reading.arrows (params.map (Ty.read η)) (ret.read η) = .arrows (argReadings η args) (result.read η)

theorem completes_applyTo (hσ : σ.Steady context) (pos total : Nat) {params : List Ty} {ret : Ty} {args : List (Nat × Ty)}
    (hparams : HostsAll σ params) (hret : σ.Hosts ret) (hargs : HostsArgs σ args) :
    Completes context σ (applyTo pos total params ret args) (fun σ' t => σ'.Hosts t ∧ Takes σ' params ret args t) := by
  induction args generalizing params ret σ with
  | nil =>
    have htakes : Takes σ params ret [] (Ty.function params ret) :=
      Stage.says_of_forall fun η => (Ty.read_function _ _).symm
    cases params with
    | nil => exact completes_pure hσ ⟨hret, htakes⟩
    | cons param params => exact completes_pure hσ ⟨.function hparams hret, htakes⟩
  | cons arg rest ih =>
    obtain ⟨harg, hrest⟩ := List.forall_mem_cons.mp hargs
    -- One argument is checked against a parameter, and the rest is applied to what is left of the function.
    have hstep : ∀ {σ : Stage} {param : Ty} {params : List Ty} {ret : Ty}, σ.Steady context → HostsAll σ (param :: params) →
        σ.Hosts ret → σ.Hosts arg.2 → HostsArgs σ rest → Completes context σ (do
          let _ ← check arg.1 arg.2 param
          applyTo pos total params ret rest)
          (fun σ' t => σ'.Hosts t ∧ Takes σ' (param :: params) ret (arg :: rest) t) := by
      intro σ param params ret hσ hparams hret harg hrest
      obtain ⟨hparam, hparams⟩ := List.forall_mem_cons.mp hparams
      refine (completes_check hσ _ harg hparam).bind fun _ σ₁ h₁ hfits => ?_
      refine (ih h₁.steady (HostsAll.later hparams h₁) (hret.later h₁) (hrest.later h₁)).imp fun σ' t h' ht => ?_
      refine ⟨ht.1, ((hfits.1.later h').and ht.2).imp fun η h => ?_⟩
      exact congrArg₂ Reading.arrow h.1.symm h.2
    have hfail : ∀ {σ : Stage}, σ.Steady context → Completes context σ (do
        report pos (.argumentCount total (total - (rest.length + 1)))
        return .unknown) (fun σ' t => σ'.Hosts t ∧ Takes σ' params ret (arg :: rest) t) := by
      intro σ hσ
      have hserious : ProblemKind.argumentCount total (total - (rest.length + 1)) ≠ .conflictingName := nofun
      refine (completes_report hσ pos (by trivial) hserious).bind fun _ σ₁ h₁ hloud => completes_pure h₁.steady ?_
      exact ⟨.unknown hloud, Stage.says_of_not_silent hloud⟩
    cases params with
    | cons param params => exact hstep hσ hparams hret harg hrest
    | nil =>
      refine (completes_callee hσ hret).bind fun found σ₁ h₁ hfound => ?_
      obtain ⟨function, r⟩ := found
      obtain ⟨rfl, hr, hread⟩ := hfound
      have harg₁ := harg.later h₁
      have hrest₁ := HostsArgs.later hrest h₁
      -- A regular type is known, so that something must have been reported before.
      have hloud : ¬ r.Regular → Completes context σ₁ (pure .unknown)
          (fun σ' t => σ'.Hosts t ∧ Takes σ' [] ret (arg :: rest) t) := by
        intro hnot
        have hloud : ¬ σ₁.Silent := fun hsilent => hnot (hr.regular hsilent).regular
        exact completes_pure h₁.steady ⟨.unknown hloud, Stage.says_of_not_silent hloud⟩
      cases r with
      | arrow params' ret' written =>
        cases params' with
        | nil => exact absurd rfl (hr.legible.applicable _ .refl ret' written)
        | cons param params' =>
          have hparams' : HostsAll σ₁ (param :: params') := fun u hu => hr.part (.param hu) fun h => by
            cases h with
            | arrow _ hparams _ => exact hparams u hu
          have hret' : σ₁.Hosts ret' := hr.part .ret fun h => by
            cases h with
            | arrow _ _ hret => exact hret
          refine (hstep h₁.steady hparams' hret' harg₁ hrest₁).imp fun σ' t h' ht => ⟨ht.1, ?_⟩
          refine ((hread.later h').and ht.2).imp fun η h => h.1.trans ?_
          rw [Ty.read_arrow]
          exact h.2
      | var v =>
        simp only
        split
        · exact hfail h₁.steady
        · refine (completes_freshVars h₁.steady "a" _).bind fun params σ₂ h₂ hparams => ?_
          refine (completes_freshVar h₂.steady "b").bind fun result σ₃ h₃ hresult => ?_
          have hparams₃ : HostsAll σ₃ params := fun t ht => ((hparams.1 t ht).later h₃).hosts
          have hresult := hresult.1.hosts
          have hret₃ := hret.later ((h₁.trans h₂).trans h₃)
          refine (completes_check h₃.steady pos hret₃ (.function hparams₃ hresult)).bind fun fits σ₄ h₄ hfits => ?_
          split
          · have hargs₄ : HostsArgs σ₄ (arg :: rest) := HostsArgs.later hargs (((h₁.trans h₂).trans h₃).trans h₄)
            refine (completes_checkArgs h₄.steady hargs₄ (hparams₃.later h₄) hparams.2).bind fun _ σ₅ h₅ hequal => ?_
            refine completes_pure h₅.steady ⟨hresult.later (h₄.trans h₅), ?_⟩
            refine ((hfits.1.later h₅).and hequal).imp fun η h => h.1.trans ?_
            rw [Ty.read_function, h.2]
          · next hnot =>
            have hloud := hfits.2 (Bool.not_eq_true _ ▸ hnot)
            exact completes_pure h₄.steady ⟨.unknown hloud, Stage.says_of_not_silent hloud⟩
      | unknown => exact hloud nofun
      | inProgress => exact hloud nofun
      | _ => exact hfail h₁.steady

/-! ### Names -/

def readings (η : Env Rigid) (Γ : Assoc Name Ty) : Assoc Name (Reading Rigid) :=
  Γ.map (fun entry => (entry.1, entry.2.read η))

theorem get?_readings (η : Env Rigid) (Γ : Assoc Name Ty) (name : Name) :
    Assoc.get? (readings η Γ) name = (Assoc.get? Γ name).map (Ty.read η) :=
  Assoc.get?_map Γ (fun _ => Ty.read η) name

theorem readings_givenAll (η : Env Rigid) (params : List Pattern) (types : List Ty) (Γ : Assoc Name Ty) :
    readings η (Pattern.givenAll params types ++ Γ) =
      Pattern.givenAll params (types.map (Ty.read η)) ++ readings η Γ := by
  rw [readings, List.map_append, Pattern.map_givenAll, readings]

/-- Whether parameters and the name of a definition are in scope, the parameters with variables as types. -/
structure Gives (own : Name) (Γ : Assoc Name Ty) (σ : Stage) : Prop where
  binds : Binds own Γ σ.work.pass.scopes
  vars : ∀ entry ∈ Γ, σ.IsVar entry.2

variable {own : Name} {Γ : Assoc Name Ty} {elsewhere : Elsewhere}

theorem Gives.later (h : Gives own Γ σ) (hcontinues : σ.Continues context σ') : Gives own Γ σ' :=
  ⟨hcontinues.scopes ▸ h.binds, fun entry hentry => (h.vars entry hentry).later hcontinues⟩

theorem completes_instantiate (hσ : σ.Steady context) {t : Ty} (ht : t.Importable) :
    Completes context σ (instantiate (Scheme.closed t))
      (fun σ' copy => σ'.Hosts copy ∧ σ'.Says (fun η => t.Instance (copy.read η))) := by
  obtain ⟨hlegible, howns, hsane, hstore, hext⟩ := Scheme.legible_instantiate hσ.sane hσ.legible ht
  by_cases hsilent : σ.Silent
  · obtain ⟨Q', huses⟩ := Scheme.uses_instantiate (hσ.neat hsilent) ht.regular
    exact ⟨_, ⟨_, Q'⟩, run_allocate _, hσ.withStore hext hsane hstore huses.subset (fun _ => huses.neat)
      (fun _ => huses.flexible), ⟨hlegible, howns, fun _ => huses.regular⟩, fun _ => huses.sound⟩
  · exact ⟨_, ⟨_, σ.vars⟩, run_allocate _, hσ.withStore hext hsane hstore subset_rfl (fun h => absurd h hsilent)
      (fun h => absurd h hsilent), ⟨hlegible, howns, fun h => absurd h hsilent⟩, Stage.says_of_not_silent hsilent⟩

/-! ### Expressions -/

/-- Whether a type is hosted and is one that the typing rules give to an expression. -/
def Types (context : Context) (Γ : Assoc Name Ty) (e : Expr) (σ : Stage) (t : Ty) : Prop :=
  σ.Hosts t ∧ σ.Says (fun η => HasType context.engine.scope (readings η Γ) e (t.read η))

/-- Whether an expression is inferred from every steady state with the parameters in scope. -/
def Infers (context : Context) (elsewhere : Elsewhere) (own : Name) (Γ : Assoc Name Ty) (e : Expr) : Prop :=
  ∀ σ : Stage, σ.Steady context → Gives own Γ σ → Completes context σ (inferExpr elsewhere e) (Types context Γ e)

theorem completes_literalType (hσ : σ.Steady context) (kind : Literal) : Completes context σ (literalType kind)
    (fun σ' t => σ'.Hosts t ∧ σ'.Says (fun η => kind.Admits (t.read η))) := by
  cases kind with
  | int =>
    refine (completes_freshVar hσ "number").imp fun σ' t h' ht => ⟨ht.1.hosts, ?_⟩
    exact (ht.1.hosts.plain h'.steady).and (ht.2 .number rfl)
  | float | char | string => exact completes_pure hσ ⟨.named nofun, Stage.says_of_forall fun η => rfl⟩

theorem completes_inferAll (hσ : σ.Steady context) (hgives : Gives own Γ σ) {es : List Expr}
    (hes : ∀ e ∈ es, Infers context elsewhere own Γ e) :
    Completes context σ (inferAll elsewhere es) (fun σ' args => HostsArgs σ' args ∧
      σ'.Says (fun η => HaveTypes context.engine.scope (readings η Γ) es (argReadings η args))) := by
  induction es generalizing σ with
  | nil =>
    rw [inferAll]
    exact completes_pure hσ ⟨nofun, Stage.says_of_forall fun η => ⟨rfl, nofun⟩⟩
  | cons e es ih =>
    obtain ⟨he, hes⟩ := List.forall_mem_cons.mp hes
    rw [inferAll]
    refine (he σ hσ hgives).bind fun t σ₁ h₁ ht => ?_
    refine (ih h₁.steady (hgives.later h₁) hes).bind fun args σ₂ h₂ hargs => completes_pure h₂.steady ⟨?_, ?_⟩
    · exact List.forall_mem_cons.mpr ⟨ht.1.later h₂, hargs.1⟩
    · exact ((ht.2.later h₂).and hargs.2).imp fun η h => haveTypes_cons.mpr h

/-- The type of alternatives is that of the first one. -/
theorem completes_joinType (hσ : σ.Steady context) (pos : Nat) {t : Ty} (ht : σ.Hosts t) {first : Option Ty}
    (hfirst : ∀ u ∈ first, σ.Hosts u) : Completes context σ (joinType pos t first) (fun σ' u =>
      σ'.Hosts u ∧ u = first.getD t ∧ σ'.Says (fun η => t.read η = u.read η)) := by
  cases first with
  | none => exact completes_pure hσ ⟨ht, rfl, Stage.says_of_forall fun η => rfl⟩
  | some u =>
    have hu := hfirst u rfl
    refine (completes_check hσ pos ht hu).bind fun _ σ₁ h₁ hfits => completes_pure h₁.steady ?_
    exact ⟨hu.later h₁, rfl, hfits.1⟩

theorem completes_inferItems (hσ : σ.Steady context) (hgives : Gives own Γ σ) {es : List Expr}
    (hes : ∀ e ∈ es, Infers context elsewhere own Γ e) (first : Option Ty) (hfirst : ∀ u ∈ first, σ.Hosts u) :
    Completes context σ (inferItems elsewhere first es) (fun σ' result => (∀ u ∈ first, result = some u) ∧
      (result = none → es = []) ∧ ∀ u ∈ result, σ'.Hosts u ∧
        σ'.Says (fun η => ∀ e ∈ es, HasType context.engine.scope (readings η Γ) e (u.read η))) := by
  induction es generalizing σ first with
  | nil =>
    rw [inferItems]
    refine completes_pure hσ ⟨fun u hu => hu, fun _ => rfl, fun u hu => ⟨hfirst u hu, ?_⟩⟩
    exact Stage.says_of_forall fun η => nofun
  | cons e es ih =>
    obtain ⟨he, hes⟩ := List.forall_mem_cons.mp hes
    rw [inferItems]
    refine (he σ hσ hgives).bind fun t σ₁ h₁ ht => ?_
    have hfirst₁ : ∀ u ∈ first, σ₁.Hosts u := fun u hu => (hfirst u hu).later h₁
    refine (completes_joinType h₁.steady e.pos ht.1 hfirst₁).bind fun u σ₂ h₂ hu => ?_
    have hrest := ih h₂.steady (hgives.later (h₁.trans h₂)) hes (some u) (by simpa using hu.1)
    refine hrest.imp fun σ' result h' hresult => ?_
    obtain rfl := hresult.1 u rfl
    refine ⟨fun u' hu' => ?_, nofun, ?_⟩
    · rw [hu.2.1, hu', Option.getD_some]
    · simp only [Option.mem_def, Option.some.injEq, forall_eq'] at hresult ⊢
      refine ⟨hresult.2.2.1, ?_⟩
      refine (((ht.2.later h₂).later h').and ((hu.2.2.later h').and hresult.2.2.2)).imp fun η h => ?_
      exact List.forall_mem_cons.mpr ⟨h.2.1 ▸ h.1, h.2.2⟩

theorem completes_inferBranches (hσ : σ.Steady context) (hgives : Gives own Γ σ) {branches : List (Expr × Expr)}
    (hconditions : ∀ branch ∈ branches, Infers context elsewhere own Γ branch.1)
    (hbranches : ∀ branch ∈ branches, Infers context elsewhere own Γ branch.2) (first : Option Ty)
    (hfirst : ∀ u ∈ first, σ.Hosts u) :
    Completes context σ (inferBranches elsewhere first branches) (fun σ' result => (∀ u ∈ first, result = some u) ∧
      (result = none → branches = []) ∧ ∀ u ∈ result, σ'.Hosts u ∧ σ'.Says (fun η => ∀ branch ∈ branches,
        HasType context.engine.scope (readings η Γ) branch.1 (.union "Basics" "Bool" []) ∧
          HasType context.engine.scope (readings η Γ) branch.2 (u.read η))) := by
  induction branches generalizing σ first with
  | nil =>
    rw [inferBranches]
    refine completes_pure hσ ⟨fun u hu => hu, fun _ => rfl, fun u hu => ⟨hfirst u hu, ?_⟩⟩
    exact Stage.says_of_forall fun η => nofun
  | cons branch rest ih =>
    obtain ⟨hcondition, hconditions⟩ := List.forall_mem_cons.mp hconditions
    obtain ⟨hbranch, hbranches⟩ := List.forall_mem_cons.mp hbranches
    rw [inferBranches]
    refine (hcondition σ hσ hgives).bind fun c σ₁ h₁ hc => ?_
    refine (completes_check h₁.steady _ hc.1 (.named fun u hu => absurd hu List.not_mem_nil)).bind
      fun _ σ₂ h₂ hbool => ?_
    have h₁₂ := h₁.trans h₂
    refine (hbranch σ₂ h₂.steady (hgives.later h₁₂)).bind fun t σ₃ h₃ ht => ?_
    have h₁₃ := h₁₂.trans h₃
    have hfirst₃ : ∀ u ∈ first, σ₃.Hosts u := fun u hu => (hfirst u hu).later h₁₃
    refine (completes_joinType h₃.steady _ ht.1 hfirst₃).bind fun u σ₄ h₄ hu => ?_
    have hrest := ih h₄.steady (hgives.later (h₁₃.trans h₄)) hconditions hbranches (some u) (by simpa using hu.1)
    refine hrest.imp fun σ' result h' hresult => ?_
    obtain rfl := hresult.1 u rfl
    have hthis : σ₄.Says (fun η => HasType context.engine.scope (readings η Γ) branch.1 (.union "Basics" "Bool" []) ∧
        HasType context.engine.scope (readings η Γ) branch.2 (u.read η)) := by
      refine ((((hc.2.later h₂).and hbool.1).later (h₃.trans h₄)).and ((ht.2.later h₄).and hu.2.2)).imp fun η h => ⟨?_, ?_⟩
      · exact (show c.read η = .union "Basics" "Bool" [] from h.1.2) ▸ h.1.1
      · exact h.2.2 ▸ h.2.1
    refine ⟨fun u' hu' => ?_, nofun, ?_⟩
    · rw [hu.2.1, hu', Option.getD_some]
    · simp only [Option.mem_def, Option.some.injEq, forall_eq'] at hresult ⊢
      exact ⟨hresult.2.2.1, ((hthis.later h').and hresult.2.2.2).imp fun η h => List.forall_mem_cons.mpr h⟩

/-- Work under parameters, which is done in a state of its own. -/
theorem completes_inside (hσ : σ.Steady context) (hgives : Gives own Γ σ) {params : List Pattern}
    (hsimple : ∀ p ∈ params, p.IsSimple) (hnodup : (Pattern.names params).Nodup)
    {taken : List Name} (hnew : ∀ name ∈ Pattern.names params, name ∉ taken) {types : List Ty}
    (hlength : params.length = types.length) (htypes : ∀ t ∈ types, σ.IsVar t) (levels : Nat)
    {body : Expr} (hbody : Infers context elsewhere own (Pattern.givenAll params types ++ Γ) body) :
    Completes context σ (do
      pushScope []
      let bound ← inferParams params types
      bindAll taken bound
      let t ← deeper levels (inferExpr elsewhere body)
      popScope
      return Ty.function types t) (fun σ' t => σ'.Hosts t ∧ σ'.Says (fun η => ∃ xs y, params.length = xs.length ∧
        (∀ x ∈ xs, x.Plain) ∧ HasType context.engine.scope (Pattern.givenAll params xs ++ readings η Γ) body y ∧
          t.read η = .arrows xs y)) := by
  obtain ⟨scope, log, conflicts, hbinds, hlog, hconflicts, heq⟩ :=
    run_inside context hσ.flag hgives.binds hsimple hnodup hnew hlength levels
  have hsteady : (σ.inside scope log conflicts levels).Steady context :=
    hσ.inside (fun entry hentry => (htypes _ (hlog entry hentry)).hosts.displays) hconflicts
  have hinside : Gives own (Pattern.givenAll params types ++ Γ) (σ.inside scope log conflicts levels) := by
    refine ⟨hbinds, fun entry hentry => ?_⟩
    rcases List.mem_append.mp hentry with hentry | hentry
    · exact (htypes _ (Pattern.mem_of_mem_givenAll hentry)).inside
    · exact (hgives.vars entry hentry).inside
  obtain ⟨t, σ₁, hrun, hcontinues, ht, htyped⟩ := hbody _ hsteady hinside
  have houtside := hcontinues.outside
  have htypes' := fun u hu => ((htypes u hu).later houtside).hosts
  refine ⟨Ty.function types t, _, ?_, houtside, .function htypes' (ht.outside levels), ?_⟩
  · rw [heq]
    exact (run_bind_ok _ hrun).trans (run_bind_ok _ (run_modifyPass _))
  · intro hsilent η hsolves
    refine ⟨types.map (Ty.read η), t.read η, by simpa using hlength, fun x hx => ?_, ?_, Ty.read_function _ _⟩
    · obtain ⟨u, hu, rfl⟩ := List.mem_map.mp hx
      exact (htypes' u hu).plain houtside.steady hsilent η hsolves
    · rw [← readings_givenAll]
      exact htyped hsilent η hsolves

theorem infers_of_kind {id : NodeId} {pos : Nat} {kind : ExprKind Expr} (h : ∀ σ : Stage, σ.Steady context → Gives own Γ σ →
      Completes context σ (inferKind elsewhere pos kind) (Types context Γ (.mk id pos kind))) :
    Infers context elsewhere own Γ (.mk id pos kind) := by
  intro σ hσ hgives
  rw [inferExpr]
  refine (completes_isCancelled hσ).bind fun cancelled σ₁ h₁ hcancelled => ?_
  subst hcancelled
  refine (h σ₁ h₁.steady (hgives.later h₁)).bind fun t σ₂ h₂ ht => ?_
  refine (completes_record h₂.steady id ht.1.displays).bind fun _ σ₃ h₃ _ => completes_pure h₃.steady ?_
  exact ⟨ht.1.later h₃, ht.2.later h₃⟩

/-- Core expressions are inferred, well-typed or not. The name of the definition around them is that of a declaration,
so that no value from elsewhere has it. -/
theorem infers_of_core (hown : ∀ name t, name.qualifier = none →
      context.engine.scope.findValues name = [.external t] → name.name ≠ own) {locals : List Name} {e : Expr}
    (he : e.Core context.engine.scope locals) (hlocals : Γ.map Prod.fst = locals) : Infers context elsewhere own Γ e := by
  induction he generalizing Γ with
  | unit =>
    refine infers_of_kind fun σ hσ _ => ?_
    rw [inferKind]
    exact completes_pure hσ ⟨.unit, Stage.says_of_forall fun η => .unit⟩
  | literal kind =>
    refine infers_of_kind fun σ hσ _ => ?_
    rw [inferKind]
    exact (completes_literalType hσ kind).imp fun σ' t _ ht => ⟨ht.1, ht.2.imp fun η => .literal⟩
  | @param _ _ _ name hname =>
    refine infers_of_kind fun σ hσ hgives => ?_
    obtain ⟨t, hget⟩ := Option.isSome_iff_exists.mp (Assoc.isSome_get?_iff.mpr (hlocals ▸ hname))
    have ht := hgives.vars _ (Assoc.mem_of_get? hget)
    obtain ⟨v, rfl, -⟩ := id ht
    rw [inferKind]
    refine ⟨_, σ, run_reference_of_param hgives.binds hget, hσ.refl, ht.hosts, Stage.says_of_forall fun η => .param ?_⟩
    rw [get?_readings, hget]
    rfl
  | @external _ _ _ name t hlocal hfind ht =>
    refine infers_of_kind fun σ hσ hgives => ?_
    have hget : name.qualifier = none → Assoc.get? Γ name.name = none :=
      fun h => Assoc.get?_eq_none (hlocals ▸ hlocal h)
    rw [inferKind, Completes,
      run_reference_of_external hσ.flag hgives.binds (fun h => ⟨hown name t h hfind, hget h⟩) hfind]
    refine (completes_instantiate hσ ht).imp fun σ' copy _ hcopy => ⟨hcopy.1, hcopy.2.imp fun η => .external ?_ hfind⟩
    intro h
    rw [get?_readings, hget h]
    rfl
  | call _ _ ihtarget ihargs =>
    refine infers_of_kind fun σ hσ hgives => ?_
    rw [inferKind]
    refine (ihtarget hlocals σ hσ hgives).bind fun t σ₁ h₁ ht => ?_
    refine (completes_inferAll h₁.steady (hgives.later h₁) fun e he => ihargs e he hlocals).bind
      fun args σ₂ h₂ hargs => ?_
    refine (completes_applyTo h₂.steady _ _ (by simp [HostsAll]) (ht.1.later h₂) hargs.1).imp fun σ' result h' hresult => ?_
    have ht' := (ht.2.later h₂).later h'
    refine ⟨hresult.1, (ht'.and ((hargs.2.later h').and hresult.2)).imp fun η h => ?_⟩
    exact .call (h.2.2 ▸ h.1) h.2.1.1 h.2.1.2
  | negate _ ih =>
    refine infers_of_kind fun σ hσ hgives => ?_
    rw [inferKind]
    refine (ih hlocals σ hσ hgives).bind fun t σ₁ h₁ ht => ?_
    refine (completes_freshVar h₁.steady "number").bind fun number σ₂ h₂ hnumber => ?_
    have ht₂ := ht.1.later h₂
    refine (completes_check h₂.steady _ ht₂ hnumber.1.hosts).bind fun _ σ₃ h₃ hfits => ?_
    refine completes_pure h₃.steady ⟨ht₂.later h₃, ?_⟩
    refine ((ht.2.later (h₂.trans h₃)).and (((hnumber.2 .number rfl).later h₃).and hfits.1)).imp fun η h => ?_
    exact .negate h.1 (h.2.2 ▸ h.2.1)
  | tuple _ ih =>
    refine infers_of_kind fun σ hσ hgives => ?_
    rw [inferKind]
    refine (completes_inferAll hσ hgives fun e he => ih e he hlocals).bind fun items σ₁ h₁ hitems => ?_
    refine completes_pure h₁.steady ⟨.tuple (List.forall_mem_map.mpr hitems.1), hitems.2.imp fun η h => ?_⟩
    rw [Ty.read_tuple, List.map_map]
    exact .tuple h.1 h.2
  | list _ ih =>
    refine infers_of_kind fun σ hσ hgives => ?_
    rw [inferKind]
    refine (completes_inferItems hσ hgives (fun e he => ih e he hlocals) none (by simp)).bind
      fun item σ₁ h₁ hitem => ?_
    cases item with
    | some item =>
      obtain ⟨hhosts, htyped⟩ := hitem.2.2 item rfl
      refine completes_pure h₁.steady ⟨.named (List.forall_mem_singleton.mpr hhosts), ?_⟩
      exact ((hhosts.plain h₁.steady).and htyped).imp fun η h => .list h.1 h.2
    | none =>
      refine (completes_freshVar h₁.steady "a").bind fun t σ₂ h₂ ht => ?_
      refine completes_pure h₂.steady ⟨.named (List.forall_mem_singleton.mpr ht.1.hosts), ?_⟩
      refine (ht.1.hosts.plain h₂.steady).imp fun η h => .list h ?_
      rw [hitem.2.1 rfl]
      exact nofun
  | conditional _ _ _ ihconditions ihbranches ihotherwise =>
    refine infers_of_kind fun σ hσ hgives => ?_
    rw [inferKind]
    refine (completes_inferBranches hσ hgives (fun b hb => ihconditions b hb hlocals)
      (fun b hb => ihbranches b hb hlocals) none (by simp)).bind fun result σ₁ h₁ hresult => ?_
    refine (ihotherwise hlocals σ₁ h₁.steady (hgives.later h₁)).bind fun t σ₂ h₂ ht => ?_
    refine (completes_joinType h₂.steady _ ht.1 fun u hu => (hresult.2.2 u hu).1.later h₂).imp fun σ' u h' hu => ?_
    refine ⟨hu.1, ?_⟩
    have hotherwise := ((ht.2.later h').and hu.2.2).imp fun η h => h.2 ▸ h.1
    cases result with
    | none =>
      refine hotherwise.imp fun η h => ?_
      rw [hresult.2.1 rfl]
      exact .conditional nofun nofun h
    | some first =>
      obtain rfl : u = first := hu.2.1
      refine (hotherwise.and ((hresult.2.2 u rfl).2.later (h₂.trans h'))).imp fun η h => ?_
      exact .conditional (fun b hb => (h.2 b hb).1) (fun b hb => (h.2 b hb).2) h.1
  | @lambda _ _ _ params body hsimple hnodup _ ih =>
    refine infers_of_kind fun σ hσ hgives => ?_
    rw [inferKind]
    refine (completes_freshVars hσ "a" params).bind fun types σ₁ h₁ htypes => ?_
    have hbody := ih (Γ := Pattern.givenAll params types ++ Γ) (by
      rw [List.map_append, Pattern.map_fst_givenAll hsimple htypes.2, hlocals])
    refine (completes_inside h₁.steady (hgives.later h₁) hsimple hnodup (by simp) htypes.2 htypes.1 1
      hbody).imp fun σ' t _ ht => ⟨ht.1, ht.2.imp fun η h => ?_⟩
    obtain ⟨xs, y, hlength, hplain, hbody, heq⟩ := h
    rw [heq]
    exact .lambda hlength hplain hbody

/-! ### Declarations -/

theorem inferFunction_none (inferBody : Expr → InferM Ty) (name : NameAt) (params : List Pattern) (body : Expr) :
    inferFunction inferBody name params body none = (do
      let types ← freshVars "a" params
      pushScope []
      let bound ← inferParams params types
      bindAll [name.name] bound
      let t ← deeper (if params.isEmpty then 0 else 1) (inferBody body)
      popScope
      return Ty.function types t) := by
  rfl

theorem completes_inferTopFunction {d : ValueDecl} {name : NameAt} {params : List Pattern}
    (hcore : Definition.Core context.engine.scope d name params) (hown : ∀ other t, other.qualifier = none →
      context.engine.scope.findValues other = [.external t] → other.name ≠ name.name) (hσ : σ.Steady context)
    (hscopes : σ.work.pass.scopes = []) :
    Completes context σ (inferTopFunction (inferExpr elsewhere) name params d.body none) (fun σ' t =>
      σ'.Hosts t ∧ σ'.Says (fun η => d.HasType context.engine.scope (t.read η))) := by
  unfold inferTopFunction
  refine (completes_freshVar hσ "a").bind fun self σ₁ h₁ hself => ?_
  -- The name of the definition is bound in a scope outside of its parameters.
  have hbinds : Binds name.name [] ([(name.name, .active self (!params.isEmpty) 0)] :: σ₁.work.pass.scopes) := by
    rw [h₁.scopes, hscopes]
    exact binds_own _ _
  have hsteady : (σ₁.inside [(name.name, .active self (!params.isEmpty) 0)] [] [] 0).Steady context :=
    h₁.steady.inside nofun nofun
  have hfunction : Completes context (σ₁.inside [(name.name, .active self (!params.isEmpty) 0)] [] [] 0)
      (inferFunction (inferExpr elsewhere) name params d.body none) (fun σ' t =>
        σ'.Hosts t ∧ σ'.Says (fun η => d.HasType context.engine.scope (t.read η))) := by
    rw [inferFunction_none]
    refine (completes_freshVars hsteady "a" params).bind fun types σ₂ h₂ htypes => ?_
    have hgives : Gives name.name [] σ₂ := ⟨h₂.scopes ▸ hbinds, nofun⟩
    have hbody : Infers context elsewhere name.name (Pattern.givenAll params types ++ []) d.body := by
      refine infers_of_core hown hcore.body ?_
      rw [List.append_nil, Pattern.map_fst_givenAll hcore.simple htypes.2]
    refine (completes_inside h₂.steady hgives hcore.simple hcore.nodup (fun other hother hmem => ?_) htypes.2 htypes.1 _
      hbody).imp fun σ' t _ ht => ⟨ht.1, ht.2.imp fun η h => ?_⟩
    · exact hcore.own (List.mem_singleton.mp hmem ▸ hother)
    · obtain ⟨xs, y, hlength, hplain, hbody, heq⟩ := h
      refine ⟨xs, y, ?_, hplain, ?_, heq⟩
      · rw [hcore.head]
        exact hlength
      · rw [hcore.head, ← List.append_nil (Pattern.givenAll _ xs)]
        exact hbody
  obtain ⟨t, σ₂, hrun, hcontinues, ht, htyped⟩ := hfunction
  have houtside := hcontinues.outside
  have ht' := ht.outside 0
  obtain ⟨_, σ₃, hcheck, h₃, -⟩ := completes_check houtside.steady name.pos ht' (hself.1.later houtside).hosts
  refine ⟨t, σ₃, ?_, houtside.trans h₃, ht'.later h₃, Stage.Says.later (σ := σ₂.outside 0) htyped h₃⟩
  rw [run_bind_ok _ (run_pushScope _ _ _)]
  refine (run_bind_ok _ hrun).trans ?_
  rw [popScope, run_bind_ok _ (run_modifyPass _)]
  exact run_bind_ok _ hcheck

theorem exists_run_mapM {f : α → InferM β} {w : Work} (xs : List α) (h : ∀ x ∈ xs, ∃ y, f x context w = (.ok y, w)) :
    ∃ ys, xs.mapM f context w = (.ok ys, w) := by
  induction xs with
  | nil => exact ⟨[], rfl⟩
  | cons x xs ih =>
    obtain ⟨hx, hxs⟩ := List.forall_mem_cons.mp h
    obtain ⟨y, hy⟩ := hx
    obtain ⟨ys, hys⟩ := ih hxs
    exact ⟨y :: ys, by rw [List.mapM_cons, run_bind_ok _ hy, run_bind_ok _ hys]; rfl⟩

theorem exists_run_mapKind (context : Context) (hσ : σ.Steady context) {kind : ProblemKind} (hkind : kind.Displayed σ.store) :
    ∃ kind', kind.mapTypesM zonk context σ.work = (.ok kind', σ.work) := by
  cases kind with
  | typeMismatch found required diff =>
    cases diff with
    | some _ => exact hkind.elim
    | none =>
      obtain ⟨found', hfound⟩ := exists_zonk_of_legible hσ.sane hσ.legible hkind.1
      obtain ⟨required', hrequired⟩ := exists_zonk_of_legible hσ.sane hσ.legible hkind.2
      have hfound' : zonk found context σ.work = (.ok found', σ.work) := run_read_ok hfound
      have hrequired' : zonk required context σ.work = (.ok required', σ.work) := run_read_ok hrequired
      refine ⟨.typeMismatch found' required' none, ?_⟩
      rw [ProblemKind.mapTypesM, run_bind_ok _ hfound', run_bind_ok _ hrequired']
      rfl
  | invalidPattern _ _ _ => exact hkind.elim
  | typeMustBeRecord _ => exact hkind.elim
  | fieldAccessOnNonRecord _ => exact hkind.elim
  | _ => exact ⟨_, rfl⟩

/-- What a pass in a steady state has found can be written out. -/
theorem exists_run_finish (hσ : σ.Steady context) {t : Ty} (ht : σ.Hosts t) :
    ∃ inferred, finish t context σ.work = (.ok inferred, σ.work) := by
  have hpass : getPass context σ.work = (.ok σ.work.pass, σ.work) := rfl
  have hproblem : ∀ p ∈ σ.work.pass.problems, ∃ q, (do return { p with kind := ← p.kind.mapTypesM zonk } : InferM Problem)
      context σ.work = (.ok q, σ.work) := by
    intro p hp
    obtain ⟨kind, hkind⟩ := exists_run_mapKind context hσ (hσ.problems p hp)
    exact ⟨_, run_bind_ok _ hkind⟩
  have hnode : ∀ entry ∈ sortBy Prod.fst (latestTypes σ.work.pass.nodeTypes), ∃ entry',
      (do return (entry.1, ← zonk entry.2) : InferM (NodeId × Ty)) context σ.work = (.ok entry', σ.work) := by
    intro entry hentry
    have hentry := mem_of_mem_latestTypes (mem_sortBy.mp hentry)
    obtain ⟨z, hz⟩ := exists_zonk_of_legible hσ.sane hσ.legible (hσ.nodeTypes entry hentry)
    have hz' : zonk entry.2 context σ.work = (.ok z, σ.work) := run_read_ok hz
    exact ⟨_, run_bind_ok _ hz'⟩
  obtain ⟨problems, hproblems⟩ := exists_run_mapM _ hproblem
  obtain ⟨nodeTypes, hnodes⟩ := exists_run_mapM _ hnode
  obtain ⟨ty, hty⟩ := exists_zonk_of_legible hσ.sane hσ.legible ht.displays
  have hty' : zonk t context σ.work = (.ok ty, σ.work) := run_read_ok hty
  refine ⟨({ ty, nodeTypes, problems := sortProblems problems }, σ.work.pass.recursive), ?_⟩
  rw [finish, run_bind_ok _ hpass, run_bind_ok _ hproblems, run_bind_ok _ hty', run_bind_ok _ hnodes]
  rfl

end InferM

end ElmInference
