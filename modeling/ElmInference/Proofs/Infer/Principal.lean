import ElmInference.Proofs.Infer.Answers

/-!
# Inference finds every type

A core expression that has a type is inferred without a problem, and the type that inference finds can stand for every
type that the expression has. The typing derivation says how inference goes: when a solution of the store gives the
parameters the types of the derivation, no check of the expression fails, and the solution goes on to the variables
that inference adds, such that the inferred type stands for the type of the derivation.

With what inference tells about its answers it follows that a definition has exactly the types that the result of its
inference can stand for.
-/

namespace ElmInference

open Store

namespace Reading

theorem plain_of_arrows {κ : Type} {xs : List (Reading κ)} {y : Reading κ} (h : (arrows xs y).Plain) : y.Plain := by
  induction xs with
  | nil => exact h
  | cons x xs ih =>
    cases h with
    | arrow _ hret => exact ih hret

end Reading

namespace Stage

/-- A state in which nothing has been reported, with a solution of its store. -/
structure Solved (σ : Stage) (η : Env Rigid) : Prop where
  flag : σ.work.session.flag = none
  going : σ.work.pass.cancelled = false
  silent : σ.Silent
  neat : Neat σ.world
  flexible : ∀ v, .var v ∈ σ.vars → v.rigid = false
  solves : Solves plainReadings σ.world η

/-- A later state with a solution that agrees with the earlier one. -/
structure Extended (σ : Stage) (η : Env Rigid) (σ' : Stage) (η' : Env Rigid) : Prop where
  solved : σ'.Solved η'
  extension : σ.store.Extends σ'.store
  scopes : σ'.work.pass.scopes = σ.work.pass.scopes
  vars : σ.vars ⊆ σ'.vars
  agrees : ∀ id, id < σ.store.size → η' (.var id) = η (.var id)

/-- A regular type that stands for a closed type. -/
structure StandsFor (σ : Stage) (η : Env Rigid) (t : Ty) (x : Reading Rigid) : Prop where
  regular : t.RegularIn σ.vars
  read : t.read η = x

variable {σ σ₁ σ' : Stage} {η η₁ η' : Env Rigid} {t : Ty} {x : Reading Rigid}

theorem Solved.refl (h : σ.Solved η) : σ.Extended η σ η :=
  ⟨h, .refl _, rfl, subset_rfl, fun _ _ => rfl⟩

theorem Extended.trans (h : σ.Extended η σ₁ η₁) (h' : σ₁.Extended η₁ σ' η') : σ.Extended η σ' η' := by
  refine ⟨h'.solved, h.extension.trans h'.extension, h'.scopes.trans h.scopes, h.vars.trans h'.vars, fun id hid => ?_⟩
  rw [h'.agrees id (Nat.lt_of_lt_of_le hid h.extension.size), h.agrees id hid]

theorem StandsFor.later (h : σ.StandsFor η t x) (hσ : σ.Solved η) (hlater : σ.Extended η σ' η') : σ'.StandsFor η' t x :=
  ⟨h.regular.mono hlater.vars, (hσ.neat.read_congr h.regular.within hlater.agrees).trans h.read⟩

theorem StandsFor.plain (h : σ.StandsFor η t x) (hσ : σ.Solved η) : x.Plain :=
  h.read ▸ hσ.solves.plain_read hσ.neat h.regular

/-- A store with more in it, in the place of the old one. -/
theorem Solved.withStore (h : σ.Solved η) {s : Store} {Q : Set Mention} (hext : σ.store.Extends s) (hQ : σ.vars ⊆ Q)
    (hneat : Neat (s, Q)) (hflexible : ∀ v, .var v ∈ Q → .var v ∈ σ.vars ∨ v.rigid = false)
    (hsolves : Solves plainReadings (s, Q) η') (hagrees : ∀ id, id < σ.store.size → η' (.var id) = η (.var id)) :
    σ.Extended η ⟨σ.work.withStore s, Q⟩ η' :=
  ⟨⟨h.flag, h.going, h.silent, hneat, fun v hv => (hflexible v hv).elim (h.flexible v) id, hsolves⟩, hext, rfl, hQ,
    hagrees⟩

section Inside

variable {scope : Scope} {log : List (NodeId × Ty)} {conflicts : List Problem} {levels : Nat} {context : Context}

theorem Solved.inside (h : σ.Solved η) (hconflicts : ∀ p ∈ conflicts, p.kind = .conflictingName) :
    (σ.inside scope log conflicts levels).Solved η := by
  refine ⟨h.flag, h.going, fun p hp => ?_, h.neat, h.flexible, h.solves⟩
  exact (List.mem_append.mp hp).elim (h.silent p) (hconflicts p)

theorem Extended.outside (h : (σ.inside scope log conflicts levels).Extended η σ' η') :
    σ.Extended η (σ'.outside levels) η' := by
  obtain ⟨hflag, hgoing, hsilent, hneat, hflexible, hsolves⟩ := h.solved
  exact ⟨⟨hflag, hgoing, hsilent, hneat, hflexible, hsolves⟩, h.extension, congrArg List.tail h.scopes, h.vars, h.agrees⟩

end Inside

end Stage

namespace InferM

variable {α β : Type} {context : Context} {σ σ' : Stage} {η η' : Env Rigid} {P : Stage → Env Rigid → α → Prop}
  {P' : Stage → Env Rigid → β → Prop}

/-- Whether work returns from a state without a problem, and the solution goes on to what it has added. -/
def Reaches (context : Context) (σ : Stage) (η : Env Rigid) (x : InferM α) (P : Stage → Env Rigid → α → Prop) : Prop :=
  ∃ a σ' η', x context σ.work = (.ok a, σ'.work) ∧ σ.Extended η σ' η' ∧ P σ' η' a

theorem Reaches.bind {x : InferM α} {f : α → InferM β} (hx : Reaches context σ η x P)
    (hf : ∀ a σ₁ η₁, σ.Extended η σ₁ η₁ → P σ₁ η₁ a → Reaches context σ₁ η₁ (f a) P') :
    Reaches context σ η (x >>= f) P' := by
  obtain ⟨a, σ₁, η₁, hrun, h₁, ha⟩ := hx
  obtain ⟨b, σ', η', hrun', h', hb⟩ := hf a σ₁ η₁ h₁ ha
  exact ⟨b, σ', η', (run_bind_ok f hrun).trans hrun', h₁.trans h', hb⟩

theorem Reaches.imp {P' : Stage → Env Rigid → α → Prop} {x : InferM α} (h : Reaches context σ η x P)
    (hP : ∀ σ' η' a, σ.Extended η σ' η' → P σ' η' a → P' σ' η' a) : Reaches context σ η x P' := by
  obtain ⟨a, σ', η', hrun, hlater, ha⟩ := h
  exact ⟨a, σ', η', hrun, hlater, hP _ _ _ hlater ha⟩

theorem reaches_pure (hσ : σ.Solved η) {a : α} (ha : P σ η a) : Reaches context σ η (pure a) P :=
  ⟨a, σ, η, rfl, hσ.refl, ha⟩

structure StandForAll (σ : Stage) (η : Env Rigid) (ts : List Ty) (xs : List (Reading Rigid)) : Prop where
  regular : ∀ t ∈ ts, t.RegularIn σ.vars
  read : ts.map (Ty.read η) = xs

theorem StandForAll.later {ts : List Ty} {xs : List (Reading Rigid)} (h : StandForAll σ η ts xs) (hσ : σ.Solved η)
    (hlater : σ.Extended η σ' η') : StandForAll σ' η' ts xs := by
  refine ⟨fun t ht => (h.regular t ht).mono hlater.vars, ?_⟩
  rw [← h.read]
  exact List.map_congr_left fun t ht => hσ.neat.read_congr (h.regular t ht).within hlater.agrees

theorem standForAll_nil : StandForAll σ η [] [] :=
  ⟨nofun, rfl⟩

theorem standForAll_cons {t : Ty} {ts : List Ty} {x : Reading Rigid} {xs : List (Reading Rigid)} :
    StandForAll σ η (t :: ts) (x :: xs) ↔ σ.StandsFor η t x ∧ StandForAll σ η ts xs := by
  refine ⟨fun h => ?_, fun ⟨h, hs⟩ => ⟨List.forall_mem_cons.mpr ⟨h.regular, hs.regular⟩, ?_⟩⟩
  · obtain ⟨hregular, hregulars⟩ := List.forall_mem_cons.mp h.regular
    obtain ⟨hread, hreads⟩ := List.cons_eq_cons.mp h.read
    exact ⟨⟨hregular, hread⟩, hregulars, hreads⟩
  · rw [List.map_cons, h.read, hs.read]

theorem StandForAll.exists_of_cons {t : Ty} {ts : List Ty} {ys : List (Reading Rigid)}
    (h : StandForAll σ η (t :: ts) ys) : ∃ x xs, ys = x :: xs ∧ σ.StandsFor η t x ∧ StandForAll σ η ts xs := by
  obtain rfl := h.read
  exact ⟨_, _, rfl, standForAll_cons.mp h⟩

theorem StandForAll.plain {ts : List Ty} {xs : List (Reading Rigid)} (h : StandForAll σ η ts xs) (hσ : σ.Solved η) :
    ∀ x ∈ xs, x.Plain := by
  intro x hx
  obtain ⟨t, ht, rfl⟩ := List.mem_map.mp (h.read ▸ hx)
  exact hσ.solves.plain_read hσ.neat (h.regular t ht)

theorem standsFor_named (m n : Name) : σ.StandsFor η (.named m n []) (.union m n []) := by
  refine ⟨⟨.union fun t ht => absurd ht List.not_mem_nil, Ty.within_union.mpr fun t ht => ?_⟩, rfl⟩
  exact absurd ht List.not_mem_nil

theorem StandForAll.function {params : List Ty} {ps : List (Reading Rigid)} {ret : Ty} {r : Reading Rigid}
    (hparams : StandForAll σ η params ps) (hret : σ.StandsFor η ret r) :
    σ.StandsFor η (Ty.function params ret) (.arrows ps r) := by
  refine ⟨⟨.function (fun u hu => (hparams.regular u hu).regular) hret.regular.regular,
    Ty.within_function (fun u hu => (hparams.regular u hu).within) hret.regular.within⟩, ?_⟩
  rw [Ty.read_function, hparams.read, hret.read]

/-! ### Variables and checks -/

def VarFor (x : Reading Rigid) (σ : Stage) (η : Env Rigid) (t : Ty) : Prop :=
  σ.StandsFor η t x ∧ ∃ v, t = .var v

theorem reaches_freshVar (hσ : σ.Solved η) (name : Name) {x : Reading Rigid} (hx : x.Plain)
    (hclass : ∀ c, Typeclass.ofName name = some c → c.Contains x) :
    Reaches context σ η (freshVar name) (VarFor x) := by
  obtain ⟨hsolves, hagrees⟩ := hσ.solves.fresh hσ.neat hx (TyVar.fits_of_contains rfl hclass)
  refine ⟨_, ⟨_, _⟩, _, run_freshVar name, hσ.withStore (extends_extended _) (Set.subset_insert _ _)
    (hσ.neat.fresh name false) ?_ hsolves hagrees, ⟨Ty.regularIn_var.mpr (Set.mem_insert _ _), ?_⟩, _, rfl⟩
  · rintro v (hv | hv)
    · obtain rfl := Mention.var.inj hv
      exact .inr rfl
    · exact .inl hv
  · rw [Ty.read_var, Function.update_self]

theorem reaches_freshVars (hσ : σ.Solved η) (as : List α) {xs : List (Reading Rigid)} (hlength : as.length = xs.length)
    (hxs : ∀ x ∈ xs, x.Plain) : Reaches context σ η (freshVars "a" as) (fun σ' η' ts =>
      StandForAll σ' η' ts xs ∧ ∀ t ∈ ts, ∃ v, t = .var v ∧ .var v ∈ σ'.vars) := by
  induction as generalizing σ η xs with
  | nil =>
    obtain rfl := List.length_eq_zero_iff.mp hlength.symm
    exact reaches_pure hσ ⟨standForAll_nil, nofun⟩
  | cons a as ih =>
    cases xs with
    | nil => cases hlength
    | cons x xs =>
      obtain ⟨hx, hxs⟩ := List.forall_mem_cons.mp hxs
      unfold freshVars
      rw [List.mapM_cons]
      refine (reaches_freshVar hσ "a" hx nofun).bind fun t σ₁ η₁ h₁ ht => ?_
      refine (ih h₁.solved (Nat.succ.inj hlength) hxs).bind fun ts σ₂ η₂ h₂ hts => reaches_pure h₂.solved ?_
      obtain ⟨ht, v, rfl⟩ := ht
      have ht := ht.later h₁.solved h₂
      exact ⟨standForAll_cons.mpr ⟨ht, hts.1⟩,
        List.forall_mem_cons.mpr ⟨⟨v, rfl, Ty.regularIn_var.mp ht.regular⟩, hts.2⟩⟩

theorem reaches_check (hσ : σ.Solved η) (pos : Nat) {a e : Ty} {x : Reading Rigid} (ha : σ.StandsFor η a x)
    (he : σ.StandsFor η e x) : Reaches context σ η (check pos a e) (fun _ _ fits => fits = true) := by
  obtain ⟨o, s', Q', hrun, hlossless⟩ := exists_lossless_unify (K := plainReadings) hσ.neat ha.regular he.regular
  obtain ⟨rfl, η', hsolves, hagrees⟩ := hlossless.kept η hσ.solves (ha.read.trans he.read.symm)
  refine ⟨true, ⟨_, Q'⟩, η', ?_, hσ.withStore hlossless.extension hlossless.subset hlossless.neat hlossless.flexible
    hsolves hagrees, rfl⟩
  rw [check, run_bind_ok _ (run_store_ok hrun)]
  rfl

theorem reaches_callee (hσ : σ.Solved η) {t : Ty} {x : Reading Rigid} (ht : σ.StandsFor η t x) :
    Reaches context σ η (store (StoreM.read fun s => s.callee t))
      (fun σ' η' found => t = found.1 ∧ σ'.StandsFor η' found.2 x) := by
  have howns := hσ.neat.tidy.owns ht.regular.within
  obtain ⟨r, hr⟩ := exists_resolve hσ.neat.sane.loopfree hσ.neat.sane.closed howns
  have hresolves := resolvesTo_of_resolve hr
  have hregular := hσ.neat.reads ht.regular hresolves.reads
  have hne : ∀ ret w, r ≠ .arrow [] ret w := by
    rintro ret w rfl
    cases hregular.regular with
    | arrow hne _ _ => exact hne rfl
  refine ⟨(t, r), σ, η, run_read_ok (callee_of_resolve hr hne), hσ.refl, rfl, hregular, ?_⟩
  rw [← hσ.solves.models.read_resolve hresolves, ht.read]

theorem reaches_checkArgs (hσ : σ.Solved η) {args : List (Nat × Ty)} {params : List Ty} {xs : List (Reading Rigid)}
    (hargs : StandForAll σ η (args.map Prod.snd) xs) (hparams : StandForAll σ η params xs) :
    Reaches context σ η (checkArgs args params) (fun _ _ _ => True) := by
  induction args generalizing params xs σ η with
  | nil => exact reaches_pure hσ trivial
  | cons arg args ih =>
    obtain ⟨x, xs, rfl, harg, hargs⟩ := hargs.exists_of_cons
    cases params with
    | nil => exact reaches_pure hσ trivial
    | cons param params =>
      obtain ⟨hparam, hparams⟩ := standForAll_cons.mp hparams
      refine (reaches_check hσ _ harg hparam).bind fun _ σ₁ η₁ h₁ _ => ?_
      exact ih h₁.solved (hargs.later hσ h₁) (hparams.later hσ h₁)

theorem reaches_isCancelled (hσ : σ.Solved η) : Reaches context σ η isCancelled (fun _ _ b => b = false) :=
  ⟨false, σ, η, run_isCancelled context hσ.flag hσ.going, hσ.refl, rfl⟩

theorem reaches_record (hσ : σ.Solved η) (id : NodeId) (t : Ty) :
    Reaches context σ η (record id t) (fun _ _ _ => True) :=
  ⟨(), ⟨_, σ.vars⟩, η, rfl, ⟨⟨hσ.flag, hσ.going, hσ.silent, hσ.neat, hσ.flexible, hσ.solves⟩, .refl _, rfl, subset_rfl,
    fun _ _ => rfl⟩, trivial⟩

/-- A function that can take the arguments is applied to them. -/
theorem reaches_applyTo (hσ : σ.Solved η) (pos total : Nat) {params : List Ty} {ps : List (Reading Rigid)} {ret : Ty}
    {r x : Reading Rigid} {args : List (Nat × Ty)} {as : List (Reading Rigid)} (hparams : StandForAll σ η params ps)
    (hret : σ.StandsFor η ret r) (hargs : StandForAll σ η (args.map Prod.snd) as)
    (heq : Reading.arrows ps r = .arrows as x) :
    Reaches context σ η (applyTo pos total params ret args) (fun σ' η' t => σ'.StandsFor η' t x) := by
  induction args generalizing params ps ret r as σ η with
  | nil =>
    obtain rfl : as = [] := hargs.read.symm
    have hfunction : σ.StandsFor η (Ty.function params ret) x := by
      rw [show x = .arrows ps r from heq.symm]
      exact hparams.function hret
    cases params with
    | nil => exact reaches_pure hσ hfunction
    | cons param params => exact reaches_pure hσ hfunction
  | cons arg rest ih =>
    obtain ⟨a, as, rfl, harg, hrest⟩ := hargs.exists_of_cons
    have hstep : ∀ {σ : Stage} {η : Env Rigid} {param : Ty} {params : List Ty} {ps : List (Reading Rigid)} {ret : Ty}
        {r : Reading Rigid}, σ.Solved η → StandForAll σ η (param :: params) ps → σ.StandsFor η ret r →
        σ.StandsFor η arg.2 a → StandForAll σ η (rest.map Prod.snd) as → Reading.arrows ps r = .arrows (a :: as) x →
        Reaches context σ η (do
          let _ ← check arg.1 arg.2 param
          applyTo pos total params ret rest) (fun σ' η' t => σ'.StandsFor η' t x) := by
      intro σ η param params ps ret r hσ hparams hret harg hrest heq
      obtain ⟨p, ps, rfl, hparam, hparams⟩ := hparams.exists_of_cons
      obtain ⟨rfl, hleft⟩ := Reading.arrow.inj heq
      refine (reaches_check hσ _ harg hparam).bind fun _ σ₁ η₁ h₁ _ => ?_
      exact ih h₁.solved (hparams.later hσ h₁) (hret.later hσ h₁) (hrest.later hσ h₁) hleft
    cases params with
    | cons param params => exact hstep hσ hparams hret harg hrest heq
    | nil =>
      obtain rfl := hparams.read
      obtain rfl : r = .arrows (a :: as) x := heq
      refine (reaches_callee hσ hret).bind fun found σ₁ η₁ h₁ hfound => ?_
      obtain ⟨function, t⟩ := found
      obtain ⟨rfl, ht⟩ := hfound
      have harg₁ := harg.later hσ h₁
      have hrest₁ := hrest.later hσ h₁
      -- What stands for a function is a function or a flexible variable.
      cases t with
      | arrow params' ret' w =>
        obtain ⟨hregular, hwithin⟩ := ht.regular
        obtain ⟨hparams', hret'⟩ := Ty.within_arrow.mp hwithin
        cases hregular with
        | arrow hne hregulars hregular =>
          cases params' with
          | nil => exact absurd rfl hne
          | cons param params' =>
            refine hstep h₁.solved ⟨fun u hu => ⟨hregulars u hu, hparams' u hu⟩, rfl⟩ ⟨⟨hregular, hret'⟩, rfl⟩ harg₁
              hrest₁ ?_
            rw [← Ty.read_arrow, ht.read]
      | var v =>
        have hflexible : v.rigid = false := h₁.solved.flexible v (Ty.regularIn_var.mp ht.regular)
        have hplain : (Reading.arrows (a :: as) x).Plain := hret.plain hσ
        simp only [hflexible]
        have hlength : (arg :: rest).length = (a :: as).length := by simpa using congrArg List.length hrest.read
        have hplains : ∀ x ∈ a :: as, x.Plain := List.forall_mem_cons.mpr ⟨harg.plain hσ, hrest.plain hσ⟩
        refine (reaches_freshVars h₁.solved (arg :: rest) hlength hplains).bind fun params σ₂ η₂ h₂ hparams => ?_
        refine (reaches_freshVar h₂.solved "b" (Reading.plain_of_arrows hplain) nofun).bind fun result σ₃ η₃ h₃ hresult => ?_
        have h₁₃ := (h₁.trans h₂).trans h₃
        have hparams₃ : StandForAll σ₃ η₃ params (a :: as) := hparams.1.later h₂.solved h₃
        refine (reaches_check h₃.solved pos (hret.later hσ h₁₃) (hparams₃.function hresult.1)).bind
          fun fits σ₄ η₄ h₄ hfits => ?_
        subst hfits
        have hargs₄ : StandForAll σ₄ η₄ ((arg :: rest).map Prod.snd) (a :: as) :=
          hargs.later hσ (h₁₃.trans h₄)
        refine (reaches_checkArgs h₄.solved hargs₄ (hparams₃.later h₃.solved h₄)).bind fun _ σ₅ η₅ h₅ _ => ?_
        exact reaches_pure h₅.solved (hresult.1.later h₃.solved (h₄.trans h₅))
      | union => cases ht.read
      | tuple => cases ht.read
      | unit => cases ht.read
      | _ => cases ht.regular.regular

/-! ### Names -/

variable {own : Name} {Γ : Assoc Name Ty} {Δ : Assoc Name (Reading Rigid)} {elsewhere : Elsewhere}

/-- Whether parameters are in scope that stand for closed types. -/
structure Assigns (own : Name) (Γ : Assoc Name Ty) (Δ : Assoc Name (Reading Rigid)) (σ : Stage) (η : Env Rigid) :
    Prop where
  binds : Binds own Γ σ.work.pass.scopes
  vars : ∀ entry ∈ Γ, ∃ v, entry.2 = .var v ∧ .var v ∈ σ.vars
  reads : readings η Γ = Δ

theorem Assigns.later (h : Assigns own Γ Δ σ η) (hσ : σ.Solved η) (hlater : σ.Extended η σ' η') :
    Assigns own Γ Δ σ' η' := by
  refine ⟨hlater.scopes ▸ h.binds, fun entry hentry => ?_, ?_⟩
  · obtain ⟨v, heq, hv⟩ := h.vars entry hentry
    exact ⟨v, heq, hlater.vars hv⟩
  · rw [← h.reads]
    refine List.map_congr_left fun entry hentry => ?_
    obtain ⟨v, heq, hv⟩ := h.vars entry hentry
    rw [heq, Ty.read_var, Ty.read_var, hlater.agrees _ (hσ.neat.var_lt hv)]

theorem reaches_instantiate (hσ : σ.Solved η) {t : Ty} (ht : t.Importable) {x : Reading Rigid} (hx : t.Instance x) :
    Reaches context σ η (instantiate (Scheme.closed t)) (fun σ' η' copy => σ'.StandsFor η' copy x) := by
  obtain ⟨Q', huses⟩ := Scheme.uses_instantiate hσ.neat ht.regular
  obtain ⟨η', hsolves, hagrees, hread⟩ := huses.kept η hσ.solves x hx
  exact ⟨_, ⟨_, Q'⟩, η', run_allocate _, hσ.withStore huses.extension huses.subset huses.neat huses.flexible hsolves
    hagrees, huses.regular, hread⟩

/-! ### Expressions -/

/-- Whether a closed type of an expression is found wherever the parameters stand for given types. -/
def Finds (context : Context) (elsewhere : Elsewhere) (own : Name) (Γ : Assoc Name Ty) (Δ : Assoc Name (Reading Rigid))
    (e : Expr) (x : Reading Rigid) : Prop :=
  ∀ σ η, σ.Solved η → Assigns own Γ Δ σ η →
    Reaches context σ η (inferExpr elsewhere e) (fun σ' η' t => σ'.StandsFor η' t x)

theorem reaches_literalType (hσ : σ.Solved η) {kind : Literal} {x : Reading Rigid} (hx : kind.Admits x) :
    Reaches context σ η (literalType kind) (fun σ' η' t => σ'.StandsFor η' t x) := by
  cases kind with
  | int =>
    refine (reaches_freshVar hσ "number" hx.1 fun c hc => ?_).imp fun _ _ _ _ ht => ht.1
    obtain rfl : Typeclass.number = c := Option.some.inj hc
    exact hx.2
  | float | char | string =>
    obtain rfl : x = _ := hx
    exact reaches_pure hσ (standsFor_named _ _)

theorem reaches_inferAll (hσ : σ.Solved η) (hΓ : Assigns own Γ Δ σ η) {es : List Expr} {xs : List (Reading Rigid)}
    (hlength : es.length = xs.length) (hes : ∀ p ∈ es.zip xs, Finds context elsewhere own Γ Δ p.1 p.2) :
    Reaches context σ η (inferAll elsewhere es) (fun σ' η' args => StandForAll σ' η' (args.map Prod.snd) xs) := by
  induction es generalizing σ η xs with
  | nil =>
    obtain rfl := List.length_eq_zero_iff.mp hlength.symm
    rw [inferAll]
    exact reaches_pure hσ standForAll_nil
  | cons e es ih =>
    cases xs with
    | nil => cases hlength
    | cons x xs =>
      obtain ⟨he, hes⟩ := List.forall_mem_cons.mp hes
      rw [inferAll]
      refine (he σ η hσ hΓ).bind fun t σ₁ η₁ h₁ ht => ?_
      refine (ih h₁.solved (hΓ.later hσ h₁) (Nat.succ.inj hlength) hes).bind fun args σ₂ η₂ h₂ hargs => ?_
      exact reaches_pure h₂.solved (standForAll_cons.mpr ⟨ht.later h₁.solved h₂, hargs⟩)

theorem reaches_joinType (hσ : σ.Solved η) (pos : Nat) {t : Ty} {x : Reading Rigid} (ht : σ.StandsFor η t x)
    {first : Option Ty} (hfirst : ∀ u ∈ first, σ.StandsFor η u x) :
    Reaches context σ η (joinType pos t first) (fun σ' η' u => σ'.StandsFor η' u x) := by
  cases first with
  | none => exact reaches_pure hσ ht
  | some u =>
    refine (reaches_check hσ pos ht (hfirst u rfl)).bind fun _ σ₁ η₁ h₁ _ => ?_
    exact reaches_pure h₁.solved ((hfirst u rfl).later hσ h₁)

theorem reaches_inferItems (hσ : σ.Solved η) (hΓ : Assigns own Γ Δ σ η) {es : List Expr} {x : Reading Rigid}
    (hes : ∀ e ∈ es, Finds context elsewhere own Γ Δ e x) (first : Option Ty) (hfirst : ∀ u ∈ first, σ.StandsFor η u x) :
    Reaches context σ η (inferItems elsewhere first es) (fun σ' η' result => ∀ u ∈ result, σ'.StandsFor η' u x) := by
  induction es generalizing σ η first with
  | nil =>
    rw [inferItems]
    exact reaches_pure hσ hfirst
  | cons e es ih =>
    obtain ⟨he, hes⟩ := List.forall_mem_cons.mp hes
    rw [inferItems]
    refine (he σ η hσ hΓ).bind fun t σ₁ η₁ h₁ ht => ?_
    refine (reaches_joinType h₁.solved e.pos ht fun u hu => (hfirst u hu).later hσ h₁).bind fun u σ₂ η₂ h₂ hu => ?_
    exact ih h₂.solved (hΓ.later hσ (h₁.trans h₂)) hes (some u) (by simpa using hu)

theorem reaches_inferBranches (hσ : σ.Solved η) (hΓ : Assigns own Γ Δ σ η) {branches : List (Expr × Expr)}
    {x : Reading Rigid}
    (hconditions : ∀ branch ∈ branches, Finds context elsewhere own Γ Δ branch.1 (.union "Basics" "Bool" []))
    (hbranches : ∀ branch ∈ branches, Finds context elsewhere own Γ Δ branch.2 x) (first : Option Ty)
    (hfirst : ∀ u ∈ first, σ.StandsFor η u x) : Reaches context σ η (inferBranches elsewhere first branches)
      (fun σ' η' result => ∀ u ∈ result, σ'.StandsFor η' u x) := by
  induction branches generalizing σ η first with
  | nil =>
    rw [inferBranches]
    exact reaches_pure hσ hfirst
  | cons branch rest ih =>
    obtain ⟨hcondition, hconditions⟩ := List.forall_mem_cons.mp hconditions
    obtain ⟨hbranch, hbranches⟩ := List.forall_mem_cons.mp hbranches
    rw [inferBranches]
    refine (hcondition σ η hσ hΓ).bind fun c σ₁ η₁ h₁ hc => ?_
    refine (reaches_check h₁.solved branch.1.pos hc (standsFor_named _ _)).bind fun _ σ₂ η₂ h₂ _ => ?_
    have h₁₂ := h₁.trans h₂
    refine (hbranch σ₂ η₂ h₂.solved (hΓ.later hσ h₁₂)).bind fun t σ₃ η₃ h₃ ht => ?_
    have h₁₃ := h₁₂.trans h₃
    refine (reaches_joinType h₃.solved branch.2.pos ht fun u hu => (hfirst u hu).later hσ h₁₃).bind
      fun u σ₄ η₄ h₄ hu => ?_
    exact ih h₄.solved (hΓ.later hσ (h₁₃.trans h₄)) hconditions hbranches (some u) (by simpa using hu)

/-- Work under parameters, which is done in a state of its own. -/
theorem reaches_inside (hσ : σ.Solved η) (hΓ : Assigns own Γ Δ σ η) {params : List Pattern}
    (hsimple : ∀ p ∈ params, p.IsSimple) (hnodup : (Pattern.names params).Nodup) {taken : List Name}
    (hnew : ∀ name ∈ Pattern.names params, name ∉ taken) {types : List Ty} {xs : List (Reading Rigid)}
    (hlength : params.length = xs.length) (htypes : ∀ t ∈ types, ∃ v, t = .var v ∧ .var v ∈ σ.vars)
    (hxs : StandForAll σ η types xs) (levels : Nat) {body : Expr} {y : Reading Rigid}
    (hbody : Finds context elsewhere own (Pattern.givenAll params types ++ Γ) (Pattern.givenAll params xs ++ Δ) body y) :
    Reaches context σ η (do
      pushScope []
      let bound ← inferParams params types
      bindAll taken bound
      let t ← deeper levels (inferExpr elsewhere body)
      popScope
      return Ty.function types t) (fun σ' η' t => σ'.StandsFor η' t (.arrows xs y)) := by
  have hlength' : params.length = types.length := by rw [hlength, ← hxs.read, List.length_map]
  obtain ⟨scope, log, conflicts, hbinds, -, hconflicts, heq⟩ :=
    run_inside context hσ.flag hΓ.binds hsimple hnodup hnew hlength' levels
  have hsolved : (σ.inside scope log conflicts levels).Solved η := hσ.inside fun p hp => (hconflicts p hp).1
  have hinside : Assigns own (Pattern.givenAll params types ++ Γ) (Pattern.givenAll params xs ++ Δ)
      (σ.inside scope log conflicts levels) η := by
    refine ⟨hbinds, fun entry hentry => ?_, ?_⟩
    · rcases List.mem_append.mp hentry with hentry | hentry
      · exact htypes _ (Pattern.mem_of_mem_givenAll hentry)
      · exact hΓ.vars entry hentry
    · rw [readings_givenAll, hxs.read, hΓ.reads]
  obtain ⟨t, σ₁, η₁, hrun, h₁, ht⟩ := hbody _ _ hsolved hinside
  have houtside := h₁.outside
  refine ⟨Ty.function types t, _, η₁, ?_, houtside, (hxs.later hσ houtside).function ⟨ht.regular, ht.read⟩⟩
  rw [heq]
  exact (run_bind_ok _ hrun).trans (run_bind_ok _ (run_modifyPass _))

theorem finds_of_kind {id : NodeId} {pos : Nat} {kind : ExprKind Expr} {x : Reading Rigid}
    (h : ∀ σ η, σ.Solved η → Assigns own Γ Δ σ η →
      Reaches context σ η (inferKind elsewhere pos kind) (fun σ' η' t => σ'.StandsFor η' t x)) :
    Finds context elsewhere own Γ Δ (.mk id pos kind) x := by
  intro σ η hσ hΓ
  rw [inferExpr]
  refine (reaches_isCancelled hσ).bind fun cancelled σ₁ η₁ h₁ hcancelled => ?_
  subst hcancelled
  refine (h σ₁ η₁ h₁.solved (hΓ.later hσ h₁)).bind fun t σ₂ η₂ h₂ ht => ?_
  refine (reaches_record h₂.solved id t).bind fun _ σ₃ η₃ h₃ _ => reaches_pure h₃.solved ?_
  exact ht.later h₂.solved h₃

/-- What the typing rules give to a core expression is found by inference. -/
theorem finds_of_hasType (hown : ∀ name t, name.qualifier = none →
      context.engine.scope.findValues name = [.external t] → name.name ≠ own) {locals : List Name} {e : Expr}
    {x : Reading Rigid} (he : e.Core context.engine.scope locals) (htype : HasType context.engine.scope Δ e x)
    (hlocals : Γ.map Prod.fst = locals) (hreads : Δ.map Prod.fst = locals) : Finds context elsewhere own Γ Δ e x := by
  induction htype generalizing Γ locals with
  | unit =>
    refine finds_of_kind fun σ η hσ _ => ?_
    rw [inferKind]
    exact reaches_pure hσ ⟨⟨.unit, Ty.within_unit⟩, rfl⟩
  | literal hx =>
    refine finds_of_kind fun σ η hσ _ => ?_
    rw [inferKind]
    exact reaches_literalType hσ hx
  | @param Δ _ _ name x hget =>
    refine finds_of_kind fun σ η hσ hΓ => ?_
    rw [← hΓ.reads, get?_readings] at hget
    obtain ⟨t, ht, rfl⟩ := Option.map_eq_some_iff.mp hget
    obtain ⟨v, heq, hv⟩ := hΓ.vars _ (Assoc.mem_of_get? ht)
    obtain rfl : t = .var v := heq
    rw [inferKind]
    exact ⟨_, σ, η, run_reference_of_param hΓ.binds ht, hσ.refl, Ty.regularIn_var.mpr hv, rfl⟩
  | @external Δ _ _ name t x hlocal hfind hx =>
    refine finds_of_kind fun σ η hσ hΓ => ?_
    have hget : name.qualifier = none → Assoc.get? Γ name.name = none := by
      intro h
      have hnone := hlocal h
      rwa [← hΓ.reads, get?_readings, Option.map_eq_none_iff] at hnone
    have ht : t.Importable := by
      cases he with
      | param hname =>
        have hsome := Assoc.isSome_get?_iff.mpr (hreads ▸ hname)
        rw [hlocal rfl] at hsome
        cases hsome
      | external _ hfind' ht =>
        cases hfind.symm.trans hfind'
        exact ht
    rw [inferKind, Reaches,
      run_reference_of_external hσ.flag hΓ.binds (fun h => ⟨hown name t h hfind, hget h⟩) hfind]
    exact reaches_instantiate hσ ht hx
  | call _ hlength _ ihtarget ihargs =>
    cases he with
    | call hetarget heargs =>
      refine finds_of_kind fun σ η hσ hΓ => ?_
      rw [inferKind]
      refine (ihtarget hetarget hlocals hreads σ η hσ hΓ).bind fun t σ₁ η₁ h₁ ht => ?_
      refine (reaches_inferAll h₁.solved (hΓ.later hσ h₁) hlength fun p hp =>
        ihargs p hp (heargs _ (List.of_mem_zip hp).1) hlocals hreads).bind fun args σ₂ η₂ h₂ hargs => ?_
      exact reaches_applyTo h₂.solved _ _ standForAll_nil (ht.later h₁.solved h₂) hargs rfl
  | negate _ hnumber ih =>
    cases he with
    | negate heoperand =>
      refine finds_of_kind fun σ η hσ hΓ => ?_
      rw [inferKind]
      refine (ih heoperand hlocals hreads σ η hσ hΓ).bind fun t σ₁ η₁ h₁ ht => ?_
      refine (reaches_freshVar h₁.solved "number" (ht.plain h₁.solved) fun c hc => ?_).bind
        fun number σ₂ η₂ h₂ hn => ?_
      · obtain rfl : Typeclass.number = c := Option.some.inj hc
        exact hnumber
      have ht₂ := ht.later h₁.solved h₂
      refine (reaches_check h₂.solved _ ht₂ hn.1).bind fun _ σ₃ η₃ h₃ _ => ?_
      exact reaches_pure h₃.solved (ht₂.later h₂.solved h₃)
  | tuple hlength _ ih =>
    cases he with
    | tuple heitems =>
      refine finds_of_kind fun σ η hσ hΓ => ?_
      rw [inferKind]
      refine (reaches_inferAll hσ hΓ hlength fun p hp =>
        ih p hp (heitems _ (List.of_mem_zip hp).1) hlocals hreads).bind fun items σ₁ η₁ h₁ hitems => ?_
      refine reaches_pure h₁.solved ⟨⟨.tuple fun u hu => (hitems.regular u hu).regular,
        Ty.within_tuple.mpr fun u hu => (hitems.regular u hu).within⟩, ?_⟩
      rw [Ty.read_tuple, hitems.read]
  | list hx _ ih =>
    cases he with
    | list heitems =>
      refine finds_of_kind fun σ η hσ hΓ => ?_
      rw [inferKind]
      have hlist : ∀ {σ : Stage} {η : Env Rigid} {t : Ty} {x : Reading Rigid}, σ.StandsFor η t x →
          σ.StandsFor η (.list t) (.union "List" "List" [x]) := by
        intro σ η t x ht
        refine ⟨⟨.union (List.forall_mem_singleton.mpr ht.regular.regular),
          Ty.within_union.mpr (List.forall_mem_singleton.mpr ht.regular.within)⟩, ?_⟩
        rw [← ht.read]
        rfl
      refine (reaches_inferItems hσ hΓ (fun e hmem => ih e hmem (heitems e hmem) hlocals hreads) none (by simp)).bind
        fun item σ₁ η₁ h₁ hitem => ?_
      cases item with
      | some item => exact reaches_pure h₁.solved (hlist (hitem item rfl))
      | none =>
        refine (reaches_freshVar h₁.solved "a" hx fun c hc => by cases hc).bind fun t σ₂ η₂ h₂ ht => ?_
        exact reaches_pure h₂.solved (hlist ht.1)
  | conditional _ _ _ ihconditions ihbranches ihotherwise =>
    cases he with
    | conditional heconditions hebranches heotherwise =>
      refine finds_of_kind fun σ η hσ hΓ => ?_
      rw [inferKind]
      refine (reaches_inferBranches hσ hΓ (fun b hb => ihconditions b hb (heconditions b hb) hlocals hreads)
        (fun b hb => ihbranches b hb (hebranches b hb) hlocals hreads) none (by simp)).bind fun result σ₁ η₁ h₁ hresult => ?_
      refine (ihotherwise heotherwise hlocals hreads σ₁ η₁ h₁.solved (hΓ.later hσ h₁)).bind fun t σ₂ η₂ h₂ ht => ?_
      exact reaches_joinType h₂.solved _ ht fun u hu => (hresult u hu).later h₁.solved h₂
  | @lambda Δ _ _ params body xs x hlength hplain _ ih =>
    cases he with
    | lambda hsimple hnodup hebody =>
      refine finds_of_kind fun σ η hσ hΓ => ?_
      rw [inferKind]
      refine (reaches_freshVars hσ params hlength hplain).bind fun types σ₁ η₁ h₁ htypes => ?_
      have hlength' : params.length = types.length := by rw [hlength, ← htypes.1.read, List.length_map]
      have hbody := ih (Γ := Pattern.givenAll params types ++ Γ) hebody
        (by rw [List.map_append, Pattern.map_fst_givenAll hsimple hlength', hlocals])
        (by rw [List.map_append, Pattern.map_fst_givenAll hsimple hlength, hreads])
      exact reaches_inside h₁.solved (hΓ.later hσ h₁) hsimple hnodup (by simp) hlength htypes.2 htypes.1 1 hbody

/-! ### Definitions -/

theorem reaches_inferTopFunction {d : ValueDecl} {name : NameAt} {params : List Pattern}
    (hcore : Definition.Core context.engine.scope d name params) (hown : ∀ other t, other.qualifier = none →
      context.engine.scope.findValues other = [.external t] → other.name ≠ name.name) {x : Reading Rigid}
    (hx : d.HasType context.engine.scope x) (hσ : σ.Solved η) (hscopes : σ.work.pass.scopes = []) :
    Reaches context σ η (inferTopFunction (inferExpr elsewhere) name params d.body none)
      (fun σ' η' t => σ'.StandsFor η' t x) := by
  obtain ⟨xs, y, hlength, hplain, hbody, rfl⟩ := hx
  simp only [hcore.head, Head.params] at hlength hbody
  have hfunction : ∀ {σ₁ : Stage} {η₁ : Env Rigid} (self : Ty), σ₁.Solved η₁ → σ₁.work.pass.scopes = [] →
      Reaches context (σ₁.inside [(name.name, .active self (!params.isEmpty) 0)] [] [] 0) η₁
        (inferFunction (inferExpr elsewhere) name params d.body none)
        (fun σ' η' t => σ'.StandsFor η' t (.arrows xs y)) := by
    intro σ₁ η₁ self hσ₁ hscopes₁
    have hinside : (σ₁.inside [(name.name, .active self (!params.isEmpty) 0)] [] [] 0).Solved η₁ :=
      hσ₁.inside nofun
    have hself : Assigns name.name [] [] (σ₁.inside [(name.name, .active self (!params.isEmpty) 0)] [] [] 0) η₁ := by
      refine ⟨?_, nofun, rfl⟩
      change Binds name.name [] (_ :: σ₁.work.pass.scopes)
      rw [hscopes₁]
      exact binds_own _ _
    rw [inferFunction_none]
    refine (reaches_freshVars hinside params hlength hplain).bind fun types σ₂ η₂ h₂ htypes => ?_
    have hlength' : params.length = types.length := by rw [hlength, ← htypes.1.read, List.length_map]
    have hfinds : Finds context elsewhere name.name (Pattern.givenAll params types ++ []) (Pattern.givenAll params xs ++ [])
        d.body y := by
      rw [List.append_nil, List.append_nil]
      exact finds_of_hasType hown hcore.body hbody (Pattern.map_fst_givenAll hcore.simple hlength')
        (Pattern.map_fst_givenAll hcore.simple hlength)
    refine reaches_inside h₂.solved (hself.later hinside h₂) hcore.simple hcore.nodup (fun other hother hmem => ?_) hlength
      htypes.2 htypes.1 _ hfinds
    exact hcore.own (List.mem_singleton.mp hmem ▸ hother)
  -- The type of the definition is plain, since inference finds it whatever its own name stands for.
  have hself : (Reading.arrows xs y).Plain := by
    have hfresh : Reaches context σ η (freshVar "a") (VarFor .unit) := reaches_freshVar hσ "a" .unit nofun
    obtain ⟨self, σ₁, η₁, -, h₁, -⟩ := hfresh
    obtain ⟨t, σ₂, η₂, -, h₂, ht⟩ := hfunction self h₁.solved (h₁.scopes.trans hscopes)
    exact ht.plain h₂.solved
  unfold inferTopFunction
  refine (reaches_freshVar hσ "a" hself nofun).bind fun self σ₁ η₁ h₁ hself => ?_
  obtain ⟨t, σ₂, η₂, hrun, h₂, ht⟩ := hfunction self h₁.solved (h₁.scopes.trans hscopes)
  have houtside := h₂.outside
  have ht' : (σ₂.outside 0).StandsFor η₂ t (.arrows xs y) := ⟨ht.regular, ht.read⟩
  have hfits : Reaches context (σ₂.outside 0) η₂ (check name.pos t self) (fun _ _ fits => fits = true) :=
    reaches_check houtside.solved name.pos ht' (hself.1.later h₁.solved houtside)
  obtain ⟨_, σ₃, η₃, hcheck, h₃, -⟩ := hfits
  refine ⟨t, σ₃, η₃, ?_, houtside.trans h₃, ht'.later houtside.solved h₃⟩
  rw [run_bind_ok _ (run_pushScope _ _ _)]
  refine (run_bind_ok _ hrun).trans ?_
  rw [popScope, run_bind_ok _ (run_modifyPass _)]
  exact run_bind_ok _ hcheck

end InferM

namespace Store

/-- What a type is zonked to can stand for what the type stands for in the solutions of the store, and for nothing else. -/
theorem Neat.instance_zonk_iff {s : Store} {Q : Set Mention} (hneat : Neat (s, Q))
    (hflexible : ∀ v, .var v ∈ Q → v.rigid = false) {t z : Ty} (ht : t.RegularIn Q) (hz : s.zonk t = .ok z)
    {x : Reading Rigid} : z.Instance x ↔ ∃ η, Solves plainReadings (s, Q) η ∧ t.read η = x := by
  have hvars : ∀ v ∈ z.vars, .var v ∈ Q ∧ s.Unsolved v.id := by
    intro v hv
    rcases within_zonk hz _ (Ty.mentions_of_mem_vars hv) with hr | ⟨u, heq, hun, hreads⟩
    · cases hr
    · cases heq
      exact ⟨Ty.regularIn_var.mp (hneat.reads ht hreads), hun⟩
  have hread : ∀ η : Env Rigid, s.Models η → z.read η = t.read η := by
    intro η hmodels
    exact (spells_zonk hmodels (fun _ _ => rfl) hneat.not_hole hneat.tidy.keeps ht.within hz).read
  constructor
  · rintro ⟨ζ, rfl, hζ⟩
    classical
    let free : VarId → Reading Rigid := fun id => if ∃ v ∈ z.vars, v.id = id then ζ (.var id) else chosen Q id
    have hfree : ∀ v ∈ z.vars, free v.id = ζ (.var v.id) := fun v hv => if_pos ⟨v, hv, rfl⟩
    have hplain : ∀ id, (free id).Plain := by
      intro id
      by_cases hid : ∃ v ∈ z.vars, v.id = id
      · obtain ⟨v, hv, rfl⟩ := hid
        rw [hfree v hv]
        exact (hζ v hv).1
      · rw [show free id = chosen Q id from if_neg hid]
        exact plain_chosen Q id
    have hfits : ∀ v, .var v ∈ Q → s.Unsolved v.id → v.Fits (free v.id) := by
      intro v hv _
      by_cases hid : ∃ u ∈ z.vars, u.id = v.id
      · obtain ⟨u, hu, hid⟩ := hid
        obtain rfl := hneat.named u v (hvars u hu).1 hv hid
        rw [hfree u hu]
        exact TyVar.fits_of_contains (hflexible u hv) (hζ u hu).2
      · rw [show free v.id = chosen Q v.id from if_neg hid]
        exact hneat.fits_chosen hv
    obtain ⟨η, hsolves, hη⟩ := hneat.exists_solves_of (K := plainReadings) (fun x hx => hx) hplain hfits
    refine ⟨η, hsolves, (hread η hsolves.models).symm.trans (Ty.read_congr fun n hn => ?_)⟩
    obtain ⟨r, hr, hnode⟩ := hn
    rcases within_zonk hz r hr with hplain | ⟨v, rfl, hun, -⟩
    · rw [hplain] at hnode
      cases hnode
    · cases hnode
      obtain ⟨u, hu, hid⟩ := Ty.exists_mem_vars hr
      rw [hη v.id hun.2, ← hid, hfree u hu]
  · rintro ⟨η, hsolves, rfl⟩
    refine ⟨η, hread η hsolves.models, fun v hv => ?_⟩
    obtain ⟨hvQ, -⟩ := hvars v hv
    exact ⟨hsolves.inside _ (hneat.var_lt hvQ), (hsolves.fits v hvQ).flexible (hflexible v hvQ)⟩

end Store

namespace InferM

variable {context : Context} {w : Work} {t : Ty} {result : InferenceResult}

/-- What a problem is about does not change when its types are written out. -/
theorem conflictingName_of_mapKind {kind kind' : ProblemKind} {w' : Work}
    (hrun : kind.mapTypesM zonk context w = (.ok kind', w')) : kind' = .conflictingName ↔ kind = .conflictingName := by
  cases kind with
  | typeMismatch found required diff | invalidPattern found required diff =>
    obtain ⟨_, _, -, hrun⟩ := run_bind_inv hrun
    obtain ⟨_, _, -, hrun⟩ := run_bind_inv hrun
    obtain ⟨_, _, -, hrun⟩ := run_bind_inv hrun
    cases hrun
    simp
  | typeMustBeRecord found | fieldAccessOnNonRecord found =>
    obtain ⟨_, _, -, hrun⟩ := run_bind_inv hrun
    cases hrun
    simp
  | _ =>
    cases hrun
    rfl

theorem Freezes.length_problems (h : Freezes context w t result) :
    result.problems.length = w.pass.problems.length := by
  obtain ⟨problems, hproblems, heq⟩ := h.problems
  rw [heq, sortProblems, (perm_sortBy _ _).length_eq, hproblems.length_eq]

/-- The problems of a result are those of its pass. -/
theorem Freezes.conflicts_iff (h : Freezes context w t result) :
    (∀ p ∈ result.problems, p.kind = .conflictingName) ↔ ∀ p ∈ w.pass.problems, p.kind = .conflictingName := by
  obtain ⟨problems, hproblems, heq⟩ := h.problems
  have hsorted : (∀ p ∈ result.problems, p.kind = .conflictingName) ↔ ∀ p ∈ problems, p.kind = .conflictingName := by
    rw [heq]
    exact forall_congr' fun p => imp_congr_left mem_sortBy
  rw [hsorted]
  clear hsorted heq
  generalize w.pass.problems = before at hproblems
  induction hproblems with
  | nil => exact Iff.rfl
  | cons hfirst _ ih =>
    rw [List.forall_mem_cons, List.forall_mem_cons]
    exact and_congr (conflictingName_of_mapKind hfirst.2) ih

end InferM

/-! ### The main statement -/

namespace Engine

open InferM SessionM

/-- What is found in a steady state is frozen into a result. -/
theorem exists_run_inferDeclaration {engine : Engine} {inferBody : Expr → InferM Ty} {i : Nat} {d : ValueDecl}
    {name : NameAt} {params : List Pattern} (hhead : d.head = .function name params) (hsignature : d.signature = none)
    {w : Work} {σ : Stage} {t : Ty}
    (hrun : inferTopFunction inferBody name params d.body none ⟨engine, i⟩ w = (.ok t, σ.work))
    (hσ : σ.Steady ⟨engine, i⟩) (ht : σ.Hosts t) :
    ∃ inferred, inferDeclaration inferBody d ⟨engine, i⟩ w = (.ok (.ok inferred), σ.work) ∧
      Freezes ⟨engine, i⟩ σ.work t inferred.1 := by
  obtain ⟨inferred, hfinish⟩ := exists_run_finish hσ ht
  have hpass : getPass ⟨engine, i⟩ σ.work = (.ok σ.work.pass, σ.work) := rfl
  refine ⟨inferred, ?_, (freezes_finish hfinish).2⟩
  unfold inferDeclaration
  rw [hhead, hsignature]
  dsimp only
  rw [run_bind_ok _ hrun, run_bind_ok _ hpass, hσ.going, if_neg (by simp), run_bind_ok _ hfinish]
  rfl

/-- A function without signature, made of literals, parameters, values from elsewhere, calls, negation, tuples, lists,
conditionals and lambdas, is inferred without a fault. If it has a type by the typing rules, then no problem is reported,
except that names hide others where all scopes are watched for this; and the other way round. Its types are then the
instances of the one that is found. -/
theorem infer_finds_principal_types (engine : Engine) (i : Nat) (d : ValueDecl) (name : NameAt) (params : List Pattern)
    (s : Session) (hd : engine.scope.module.valueAt? i = some d) (hcore : Definition.Core engine.scope d name params)
    (hflag : s.flag = none) (hnew : s.cache.get? (DeclKey.ofDecl engine.file d) = none) :
    ∃ result s', engine.infer (.declared i) s = (.ok (.ok result), s') ∧
      (engine.shadowing = .sameScope → (result.problems = [] ↔ ∃ x, d.HasType engine.scope x)) ∧
      ((∀ p ∈ result.problems, p.kind = .conflictingName) ↔ ∃ x, d.HasType engine.scope x) ∧
      ((∃ x, d.HasType engine.scope x) → ∀ x, d.HasType engine.scope x ↔ result.ty.Instance x) := by
  have hnames : d.names = [name.name] := by
    rw [Definition.names, hcore.head]
    rfl
  have hown : ∀ other t, other.qualifier = none → engine.scope.findValues other = [.external t] →
      other.name ≠ name.name := by
    rintro ⟨_, other⟩ t rfl hfind rfl
    have hmem := ModuleScope.value_mem_findValues hd (hnames ▸ List.mem_singleton_self name.name)
    rw [show Ref.plain name.name = ⟨none, name.name⟩ from rfl, hfind] at hmem
    cases List.mem_singleton.mp hmem
  let σ₀ : Stage := ⟨⟨entered (DeclKey.ofDecl engine.file d) s, {}⟩, ∅⟩
  have hσ₀ : σ₀.Steady ⟨engine, i⟩ := by
    refine ⟨hflag, rfl, sane_empty, recordless_empty, ?_, ?_, ?_, fun _ => neat_empty, ?_⟩
    · exact fun entry hentry => absurd hentry List.not_mem_nil
    · exact fun p hp => absurd hp List.not_mem_nil
    · exact fun p hp => absurd hp List.not_mem_nil
    · exact fun _ v hv => absurd hv (Set.notMem_empty _)
  have hsilent₀ : σ₀.Silent := fun p hp => absurd hp List.not_mem_nil
  let elsewhere : Elsewhere :=
    ⟨exprAt engine.scope.module.definitionCount, inferTopLevel (exprAt engine.scope.module.definitionCount)⟩
  have hcompletes : Completes ⟨engine, i⟩ σ₀ (inferTopFunction (inferExpr elsewhere) name params d.body none) _ :=
    completes_inferTopFunction hcore hown hσ₀ rfl
  obtain ⟨t, σ, hrun, hcontinues, ht, htyped⟩ := hcompletes
  obtain ⟨inferred, hdecl, hfreezes⟩ :=
    exists_run_inferDeclaration hcore.head hcore.signature hrun hcontinues.steady ht
  obtain ⟨s', hanswer⟩ : ∃ s', engine.infer (.declared i) s = (.ok (.ok inferred.1), s') := by
    have hcompute : compute (exprAt engine.budget) (DeclKey.ofDecl engine.file d) i d engine s = _ := run_compute hdecl
    rw [infer_of_named hd (by simp [hnames]) hflag, run_inferTopLevel_of_new hflag hnew, hcompute]
    exact ⟨_, rfl⟩
  -- Inference finds each type that the definition has.
  have hfound : ∀ x, d.HasType engine.scope x → σ.Silent ∧ inferred.1.ty.Instance x := by
    intro x hx
    obtain ⟨η, hsolves⟩ := neat_empty.exists_solves (K := plainReadings) fun x hx => hx
    have hsolved : σ₀.Solved η := ⟨hflag, rfl, hsilent₀, neat_empty, hσ₀.flexible hsilent₀, hsolves⟩
    have hreaches : Reaches ⟨engine, i⟩ σ₀ η (inferTopFunction (inferExpr elsewhere) name params d.body none) _ :=
      reaches_inferTopFunction hcore hown hx hsolved rfl
    obtain ⟨t', ⟨w, Q⟩, η', hrun', hextended, hstands⟩ := hreaches
    cases hrun.symm.trans hrun'
    obtain ⟨-, -, hsilent, hneat, hflexible, hsolves'⟩ := hextended.solved
    exact ⟨hsilent, (hneat.instance_zonk_iff hflexible hstands.regular hfreezes.ty).mpr ⟨η', hsolves', hstands.read⟩⟩
  have hsilent : σ.Silent ↔ ∃ x, d.HasType engine.scope x := by
    refine ⟨fun hsilent => ?_, fun htypable => htypable.elim fun x hx => (hfound x hx).1⟩
    obtain ⟨η, hsolves⟩ := (hcontinues.steady.neat hsilent).exists_solves (K := plainReadings) fun x hx => hx
    exact ⟨_, htyped hsilent η hsolves⟩
  have hproblems : (∀ p ∈ inferred.1.problems, p.kind = .conflictingName) ↔ ∃ x, d.HasType engine.scope x :=
    hfreezes.conflicts_iff.trans hsilent
  refine ⟨inferred.1, s', hanswer, fun hsame => ⟨fun hnil => ?_, fun htypable => ?_⟩, hproblems,
    fun htypable x => ⟨fun hx => (hfound x hx).2, fun hx => ?_⟩⟩
  · rw [hnil] at hproblems
    exact hproblems.mp fun p hp => absurd hp List.not_mem_nil
  · refine List.length_eq_zero_iff.mp (hfreezes.length_problems.trans (List.length_eq_zero_iff.mpr ?_))
    refine List.eq_nil_iff_forall_not_mem.mpr fun p hp => ?_
    have hwatched := hcontinues.steady.conflicts p hp (hsilent.mpr htypable p hp)
    cases hsame.symm.trans hwatched
  · have hsilent := hsilent.mpr htypable
    obtain ⟨η, hsolves, rfl⟩ := ((hcontinues.steady.neat hsilent).instance_zonk_iff (hcontinues.steady.flexible hsilent)
      (ht.regular hsilent) hfreezes.ty).mp hx
    exact htyped hsilent η hsolves

/-- With a value `identity : a -> a` from elsewhere, `f x = identity -x` is inferred without a problem, and one of the
types of `f` is the function from floating-point numbers to themselves. -/
theorem infer_finds_principal_types_of_negation :
    let identity : Ty := .arrow [.var ⟨0, "a", false⟩] (.var ⟨0, "a", false⟩) none
    let f : ValueDecl :=
      ⟨1, none, .function ⟨1, "f"⟩ [.mk 0 2 (.var "x")],
        .mk 4 3 (.call (.mk 1 3 (.var (.plain "identity"))) [.mk 3 4 (.negate (.mk 2 5 (.var (.plain "x"))))])⟩
    let engine : Engine :=
      { file := 0, scope := { module := ⟨"Main", [.value f]⟩, values := [⟨"Basics", "identity", identity⟩] } }
    let float : Reading Rigid := .union "Basics" "Float" []
    ∃ result s', engine.infer (.declared 0) {} = (.ok (.ok result), s') ∧ result.problems = [] ∧
      result.ty.Instance (.arrow float float) := by
  intro identity f engine float
  have hfloat : float.Plain := .union nofun
  have himportable : Ty.Importable (.arrow [.var ⟨0, "a", false⟩] (.var ⟨0, "a", false⟩) none) := by
    refine ⟨.arrow (by simp) (List.forall_mem_singleton.mpr .var) .var, Ty.overt_of_parts rfl fun u hpart => ?_⟩
    cases hpart with
    | param hmem =>
      rw [List.mem_singleton.mp hmem]
      exact Ty.hereditary_overt.var _
    | ret => exact Ty.hereditary_overt.var _
  have hfind : engine.scope.findValues (.plain "identity") = [.external identity] := by rfl
  have hcore : Definition.Core engine.scope f ⟨1, "f"⟩ [.mk 0 2 (.var "x")] := by
    refine ⟨rfl, rfl, List.forall_mem_singleton.mpr trivial, by decide, by decide, .call ?_ ?_⟩
    · exact .external (fun _ => by decide) hfind himportable
    · exact List.forall_mem_singleton.mpr (.negate (.param (by decide)))
  have htype : f.HasType engine.scope (.arrow float float) := by
    have hidentity : HasType engine.scope [("x", float)] (.mk 1 3 (.var (.plain "identity")))
        (.arrows [float] float) := by
      refine .external (fun _ => rfl) hfind ⟨fun _ => float, rfl, fun v hv => ⟨hfloat, fun c hc => ?_⟩⟩
      obtain rfl : v = ⟨0, "a", false⟩ := List.mem_singleton.mp hv
      cases hc
    refine ⟨[float], float, rfl, List.forall_mem_singleton.mpr hfloat, .call hidentity rfl ?_, rfl⟩
    exact List.forall_mem_singleton.mpr (.negate (.param rfl) (.basic (by decide)))
  obtain ⟨result, s', hanswer, hproblems, -, hinstances⟩ :=
    infer_finds_principal_types engine 0 f ⟨1, "f"⟩ [.mk 0 2 (.var "x")] {} rfl hcore rfl rfl
  exact ⟨result, s', hanswer, (hproblems rfl).mpr ⟨_, htype⟩, (hinstances ⟨_, htype⟩ _).mp htype⟩

/-- With a value `c : Tagged a` from elsewhere, where `type alias Tagged a = Int`, the function `f x = c` has a type, but
its inference runs into the variable of the alias, which is not one of the store. -/
theorem phantom_variable_of_external_value_is_no_variable_here :
    let c : Ty := .union "Basics" "Int" [] (some ⟨"Lib", "Tagged", [.var ⟨5, "a", false⟩]⟩)
    let f : ValueDecl :=
      ⟨1, none, .function ⟨1, "f"⟩ [.mk 0 2 (.var "x")], .mk 1 3 (.var (.plain "c"))⟩
    let engine : Engine := { file := 0, scope := { module := ⟨"Main", [.value f]⟩, values := [⟨"Lib", "c", c⟩] } }
    c.Regular ∧ f.HasType engine.scope (.arrow .unit (.union "Basics" "Int" [])) ∧
      (engine.infer (.declared 0) {}).1.isOk = false := by
  intro c f engine
  have hregular : c.Regular := .union nofun
  refine ⟨hregular, ⟨[.unit], _, rfl, List.forall_mem_singleton.mpr .unit, ?_, rfl⟩, by decide +kernel⟩
  exact .external (fun _ => rfl) rfl ⟨fun _ => .unit, rfl, nofun⟩

end Engine

end ElmInference
