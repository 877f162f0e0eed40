import ElmInference.Proofs.Infer.Derivations

/-!
# Expressions and declarations in an account

Every expression is recorded with a type that obeys the rules for the types of nodes, by induction over the expression
and over how deep bodies of definitions are entered. The results of other declarations have no records, whatever these
have reported.
-/

namespace ElmInference

open Relation Store StoreM

namespace Store

variable {s s' : Store} {w w' : World}

/-- New variables leave everything where it leads. -/
theorem Mints.resolvesTo (h : Mints w w') {t r : Ty} (hr : w.1.ResolvesTo t r) : w'.1.ResolvesTo t r := by
  induction h with
  | refl => exact hr
  | @tail w₁ w₂ _ hmint ih =>
    cases hmint with
    | mk name rigid => exact ih.later (extends_extended _).size (solution?_extended _)

theorem Known.resolved {t r : Ty} (h : s'.Known t) (hext : s.Extends s') (hr : s.ResolvesTo t r) : s'.Known r :=
  fun u hreads => h u ((hext.reads hr.reads).trans hreads)

theorem known_bool : s.Known .bool := by
  refine known_of_no_child (by simp [Ty.bool, Ty.named]) (by simp [Ty.bool, Ty.named]) fun u hchild => ?_
  cases hchild with
  | arg hmem => cases hmem

end Store

namespace Account

variable {A : Account}

theorem agrees_refl (t : Ty) : A.Agrees t t :=
  fun _ _ => rfl

/-- What was recorded for alternatives, all of which agree with what was found. -/
def Alternatives (A : Account) (ids : List NodeId) (found : Option Ty) : Prop :=
  ∃ ts, A.Logs ids ts ∧ ∀ u, found = some u → ∀ t ∈ ts, A.Agrees t u

theorem alternatives_nil (found : Option Ty) : A.Alternatives [] found :=
  ⟨[], .nil, fun _ _ _ h => absurd h List.not_mem_nil⟩

theorem Alternatives.cons {id : NodeId} {ids : List NodeId} {t u : Ty} (h : A.Alternatives ids (some u))
    (hlog : (id, t) ∈ A.log) (hagrees : A.Agrees t u) : A.Alternatives (id :: ids) (some u) := by
  obtain ⟨ts, hlogs, hall⟩ := h
  refine ⟨t :: ts, .cons hlog hlogs, fun v heq => ?_⟩
  cases heq
  exact List.forall_mem_cons.mpr ⟨hagrees, hall u rfl⟩

theorem Alternatives.read_eq (hA : A.Proper) {ids : List NodeId} {u : Ty} (h : A.Alternatives ids (some u))
    (hknown : A.store.Known u) {ts : List Ty} (hts : A.typing.HasAll ids ts) : ∀ t ∈ ts, t.read A.env = u.read A.env := by
  obtain ⟨_, hlogs, hall⟩ := h
  obtain ⟨rfl, hknowns⟩ := hA.eq_of_hasAll hlogs hts
  exact fun t ht => hall u rfl t ht (hknowns t ht) hknown

/-- Whether a function of some parameters gives a type for some arguments, as far as all of these are known. -/
def Applies (A : Account) (params : List Ty) (ret : Ty) (args : List Ty) (result : Ty) : Prop :=
  (∀ t ∈ params, A.store.Known t) → A.store.Known ret → (∀ t ∈ args, A.store.Known t) → A.store.Known result →
    Reading.arrows (params.map (Ty.read A.env)) (ret.read A.env) =
      .arrows (args.map (Ty.read A.env)) (result.read A.env)

theorem applies_unknown (params : List Ty) (ret : Ty) (args : List Ty) : A.Applies params ret args .unknown :=
  fun _ _ _ hknown => absurd rfl (hknown _ .refl).1

theorem applies_nil (params : List Ty) (ret : Ty) : A.Applies params ret [] (.function params ret) :=
  fun _ _ _ _ => (Ty.read_function params ret).symm

theorem Applies.cons {param arg ret result : Ty} {params args : List Ty} (h : A.Applies params ret args result)
    (hagrees : A.Agrees arg param) : A.Applies (param :: params) ret (arg :: args) result := by
  intro hparams hret hargs hresult
  obtain ⟨hparam, hparams⟩ := List.forall_mem_cons.mp hparams
  obtain ⟨harg, hargs⟩ := List.forall_mem_cons.mp hargs
  change Reading.arrow _ (.arrows _ _) = .arrow _ (.arrows _ _)
  rw [h hparams hret hargs hresult, hagrees harg hparam]

/-- A function may be reached through solved variables. -/
theorem Applies.of_resolvesTo (hA : A.Proper) {s : Store} (hext : s.Extends A.store) {t ret result : Ty}
    {params args : List Ty} {use : Option (AliasUse Ty)} (hresolves : s.ResolvesTo t (.arrow params ret use))
    (h : A.Applies params ret args result) : A.Applies [] t args result := by
  intro _ hknown hargs hresult
  have harrow := hknown.resolved hext hresolves
  rw [← h (fun u hu => harrow.child (.param hu)) (harrow.child .ret) hargs hresult]
  exact ((hA.models.earlier hext).read_resolve hresolves).trans (Ty.read_arrow _ _ _)

/-- A function may be reached through functions without parameters. -/
theorem Applies.of_passes (hA : A.Proper) {s : Store} (hext : s.Extends A.store) {t u result : Ty} {args : List Ty}
    (hpasses : Relation.ReflTransGen s.Passes t u) (h : A.Applies [] u args result) : A.Applies [] t args result := by
  induction hpasses using Relation.ReflTransGen.head_induction_on with
  | refl => exact h
  | head hstep _ ih =>
    obtain ⟨_, hresolve⟩ := hstep
    exact ih.of_resolvesTo hA hext (resolvesTo_of_resolve hresolve)

end Account

namespace InferM

variable {A : Account} {context : Context} {P : Prop} {w : World}

/-! ### Calls and operators -/

abbrev OperandsRecordless : World → List (Nat × Ty) → Prop := fun w args => ∀ arg ∈ args, arg.2.RecordlessIn w.2

theorem OperandsRecordless.later {w w' : World} {args : List (Nat × Ty)} (h : OperandsRecordless w args)
    (hlater : Succeeds w w') : OperandsRecordless w' args :=
  fun arg harg => (h arg harg).mono hlater.subset

theorem derives_checkArgs (hA : A.Proper) {args : List (Nat × Ty)} {params : List Ty} (hargs : OperandsRecordless w args)
    (hparams : ∀ t ∈ params, t.RecordlessIn w.2) (ret : Ty) :
    Derives A context P w (checkArgs args params) Anything
      (fun _ _ => args.length = params.length → A.Applies params ret (args.map Prod.snd) ret) := by
  induction args generalizing params w P with
  | nil =>
    unfold checkArgs
    refine derives_pure trivial fun _ hlength => ?_
    rw [List.length_eq_zero_iff.mp hlength.symm]
    exact A.applies_nil [] ret
  | cons arg args ih =>
    cases params with
    | nil =>
      unfold checkArgs
      exact derives_pure trivial fun _ hlength => by cases hlength
    | cons param params =>
      obtain ⟨harg, hargs⟩ := List.forall_mem_cons.mp hargs
      obtain ⟨hparam, hparams⟩ := List.forall_mem_cons.mp hparams
      rw [checkArgs]
      refine (derives_check hA _ harg hparam).bind fun _ w₁ hlater₁ _ => ?_
      refine (ih (OperandsRecordless.later hargs hlater₁) fun t h => (hparams t h).mono hlater₁.subset).imp
        (fun _ _ _ h => h) fun _ _ hP _ h hlength => ?_
      exact (h (Nat.succ.inj hlength)).cons hP.2.2.agrees

/-- A variable without solution becomes a function of the arguments. -/
theorem derives_applyVar (hA : A.Proper) (pos : Nat) {ret : Ty} {v : TyVar} {args : List (Nat × Ty)} (hne : args ≠ [])
    (hret : ret.RecordlessIn w.2) (hresolves : w.1.ResolvesTo ret (.var v)) (hargs : OperandsRecordless w args) :
    Derives A context P w (do
      let params ← freshVars "a" args
      let result ← freshVar "b"
      if ← check pos ret (Ty.function params result) then do
        checkArgs args params
        return result
      return .unknown : InferM Ty) Recordless (fun _ result => A.Applies [] ret (args.map Prod.snd) result) := by
  refine (derives_freshVars "a" args).bind fun params w₁ hlater₁ hparams => ?_
  obtain ⟨hlength, hparams, hmints₁⟩ := hparams
  refine (derives_freshVar "b").bind fun result w₂ hlater₂ hresult => derives_of_fieldless fun hw₂ => ?_
  have hparams₂ : ∀ t ∈ params, t.RecordlessIn w₂.2 := fun t h => (hparams t h).mono hlater₂.subset
  have hlater := hlater₁.trans hlater₂
  have hfunction := Ty.recordlessIn_function hparams₂ hresult.recordless
  have hresult₂ := hresult.recordless
  obtain ⟨u, rfl, -, -, -, hmints₂⟩ := hresult
  refine (derives_check hA pos (hret.mono hlater.subset) hfunction).bind fun fits w₃ hlater₃ _ => ?_
  split
  · have hargs₃ := OperandsRecordless.later hargs (hlater.trans hlater₃)
    refine (derives_checkArgs hA hargs₃ (fun t h => (hparams₂ t h).mono hlater₃.subset) (.var u)).bind
      fun _ w₄ hlater₄ _ => derives_pure (hresult₂.mono (hlater₃.trans hlater₄).subset) ?_
    rintro ⟨⟨-, -, hunifies⟩, happlies⟩ - hknown hknowns hresult
    -- The function is the solution of the variable, so its parts are known when the variable is.
    obtain ⟨param, rest, rfl⟩ : ∃ param rest, params = param :: rest :=
      List.exists_cons_of_ne_nil fun heq => hne (List.length_eq_zero_iff.mp (hlength.symm.trans (heq ▸ rfl)))
    have hsolved := solvesByFunction_unify w₂.1 ret (.arrow (param :: rest) (.var u) none) w₂.2 w₃.1 v _ _ _ hw₂.tidy
      hfunction.within (Mints.resolvesTo (hmints₁.trans hmints₂) hresolves) rfl hunifies.run
    have hext := hunifies.extension
    have hvar := hknown.resolved (hlater.extension.trans (hlater₃.extension.trans hext)) hresolves
    have harrow := hvar.child (.solution (hext.solution _ _ hsolved))
    have hsame := hunifies.agrees hknown harrow
    rw [← happlies hlength.symm (fun t ht => harrow.child (.param ht)) (harrow.child .ret) hknowns hresult]
    exact hsame.trans (Ty.read_function _ _)
  · next hfits => exact derives_unknown fun _ h => absurd h.2.1 hfits

theorem derives_applyTo (hA : A.Proper) (pos total : Nat) {params : List Ty} {ret : Ty} {args : List (Nat × Ty)}
    (hparams : ∀ t ∈ params, t.RecordlessIn w.2) (hret : ret.RecordlessIn w.2) (hargs : OperandsRecordless w args) :
    Derives A context P w (applyTo pos total params ret args) Recordless
      (fun _ result => A.Applies params ret (args.map Prod.snd) result) := by
  induction args generalizing params ret w P with
  | nil =>
    rw [applyTo]
    exact derives_pure (Ty.recordlessIn_function hparams hret) fun _ => A.applies_nil params ret
  | cons arg rest ih =>
    obtain ⟨argPos, arg⟩ := arg
    obtain ⟨harg, hrest⟩ := List.forall_mem_cons.mp hargs
    -- One argument is taken off, and the others are applied to what is left.
    have hnext : ∀ {param params ret P w'}, Succeeds w w' → (∀ t ∈ param :: params, t.RecordlessIn w'.2) →
        ret.RecordlessIn w'.2 → Derives A context P w' (do
          let _ ← check argPos arg param
          applyTo pos total params ret rest : InferM Ty) Recordless
          (fun _ result => A.Applies (param :: params) ret (arg :: rest.map Prod.snd) result) := by
      intro param params ret P w' hlater hparams hret
      obtain ⟨hparam, hparams⟩ := List.forall_mem_cons.mp hparams
      refine (derives_check hA _ (Ty.RecordlessIn.mono harg hlater.subset) hparam).bind fun _ w₁ hlater₁ _ => ?_
      refine (ih (fun t h => (hparams t h).mono hlater₁.subset) (hret.mono hlater₁.subset)
        (OperandsRecordless.later hrest (hlater.trans hlater₁))).imp (fun _ _ _ h => h) fun _ _ hP _ h => ?_
      exact h.cons hP.2.2.agrees
    cases params with
    | cons param params =>
      rw [applyTo]
      exact hnext (.refl w) hparams hret
    | nil =>
      rw [applyTo]
      refine Derives.bind (derives_readStore (V := fun w found => Relation.ReflTransGen w.1.Passes ret found.1 ∧
          w.1.ResolvesTo found.1 found.2 ∧ found.1.RecordlessIn w.2 ∧ found.2.RecordlessIn w.2)
        fun hw found hcallee => ?_).extends fun found w₁ hlater₁ hfound => ?_
      · obtain ⟨hpasses, hresolve, -⟩ := passes_of_callee hcallee
        exact ⟨hpasses, resolvesTo_of_resolve hresolve, hw.callee hret hcallee⟩
      obtain ⟨function, resolved⟩ := found
      obtain ⟨hpasses, hresolves, hfunction, hresolved⟩ := hfound
      dsimp only
      split
      · obtain ⟨hparams, hret⟩ := hresolved.of_arrow
        refine (hnext hlater₁ hparams hret).imp (fun _ _ _ h => h) fun _ _ hP _ h => ?_
        exact (h.of_resolvesTo hA hP.2.2 hresolves).of_passes hA hP.2.2 hpasses
      · split
        · exact derives_problem pos _
        · refine (derives_applyVar hA pos (List.cons_ne_nil _ _) hfunction hresolves
            (OperandsRecordless.later hargs hlater₁)).imp (fun _ _ _ h => h) fun _ _ hP _ h => ?_
          exact h.of_passes hA hP.2.2 hpasses
      · exact derives_unknown fun _ _ => A.applies_unknown _ _ _
      · exact derives_unknown fun _ _ => A.applies_unknown _ _ _
      · exact derives_problem pos _

theorem derives_apply (hA : A.Proper) (pos : Nat) {target : Ty} {args : List (Nat × Ty)} (ht : target.RecordlessIn w.2)
    (hargs : OperandsRecordless w args) : Derives A context P w (apply pos target args) Recordless
      (fun _ result => A.Applies [] target (args.map Prod.snd) result) :=
  derives_applyTo hA pos args.length (fun _ h => absurd h List.not_mem_nil) ht hargs

theorem derives_applyTree (hA : A.Proper) {operands : List (Nat × Ty)} {functions : List Ty}
    (hoperands : OperandsRecordless w operands) (hfunctions : ∀ t ∈ functions, t.RecordlessIn w.2) (tree : OperatorTree) :
    Derives A context P w (applyTree operands functions tree) (fun w operand => operand.2.RecordlessIn w.2) Anything := by
  induction tree generalizing w P with
  | operand index =>
    rw [applyTree]
    refine derives_of_fieldless fun hw => derives_pure ?_ fun _ => trivial
    cases hget : operands[index]? with
    | none => exact Ty.recordlessIn_unknown hw.plain
    | some operand => exact hoperands operand (List.mem_of_getElem? hget)
  | node left operator right ihl ihr =>
    rw [applyTree]
    refine (ihl hoperands hfunctions).bind fun left w₁ hlater₁ hleft => ?_
    refine (ihr (OperandsRecordless.later hoperands hlater₁) fun t h => (hfunctions t h).mono hlater₁.subset).bind
      fun right w₂ hlater₂ hright => derives_of_fieldless fun hw => ?_
    have hfunction : (functions[operator]?.getD .unknown).RecordlessIn w₂.2 := by
      cases hget : functions[operator]? with
      | none => exact Ty.recordlessIn_unknown hw.plain
      | some t => exact (hfunctions t (List.mem_of_getElem? hget)).mono (hlater₁.trans hlater₂).subset
    have hargs : OperandsRecordless w₂ [left, right] :=
      List.forall_mem_cons.mpr ⟨hleft.mono hlater₂.subset, List.forall_mem_singleton.mpr hright⟩
    exact (derives_apply hA _ hfunction hargs).bind fun t _ _ ht => derives_pure ht fun _ => trivial

section Elsewhere

variable {elsewhere : Elsewhere} (hA : A.Proper) (hscope : context.engine.scope.Recordfree)
  (helsewhere : ElsewhereDerives A context elsewhere)

include hscope helsewhere

theorem derives_operatorTypes (operators : List NameAt) : Derives A context P w (operatorTypes elsewhere operators)
    (fun w found => ∀ precedences ts, found = some (precedences, ts) → ∀ t ∈ ts, t.RecordlessIn w.2) Anything := by
  induction operators generalizing w P with
  | nil =>
    refine derives_pure (fun _ _ h => ?_) fun _ => trivial
    cases h
    exact fun _ h => absurd h List.not_mem_nil
  | cons operator rest ih =>
    rw [operatorTypes]
    refine (derives_operatorType hscope helsewhere _ _).bind fun found w₁ _ hfound => ?_
    split
    · exact derives_pure (fun _ _ h => by cases h) fun _ => trivial
    · refine ih.bind fun more w₂ hlater₂ hmore => ?_
      split
      · exact derives_pure (fun _ _ h => by cases h) fun _ => trivial
      · refine derives_pure (fun _ _ h => ?_) fun _ => trivial
        cases h
        exact List.forall_mem_cons.mpr ⟨(hfound _ _ rfl).mono hlater₂.subset, hmore _ _ rfl⟩

include hA in
theorem derives_inferChain {operands : List (Nat × Ty)} (hoperands : OperandsRecordless w operands)
    (operators : List NameAt) : Derives A context P w (inferChain elsewhere operands operators) Recordless Anything := by
  refine (derives_operatorTypes hscope helsewhere operators).bind fun found w₁ hlater₁ hfound => ?_
  split
  · exact derives_unknown fun _ _ => trivial
  · split
    · exact (derives_applyTree hA (OperandsRecordless.later hoperands hlater₁) (hfound _ _ rfl) _).bind
        fun _ _ _ ht => derives_pure ht fun _ => trivial
    · exact derives_problem _ _
    · exact derives_problem _ _

end Elsewhere

/-! ### The recursion -/

theorem derives_joinType (hA : A.Proper) (pos : Nat) {t : Ty} (ht : t.RecordlessIn w.2) {first : Option Ty}
    (hfirst : MaybeRecordless w first) : Derives A context P w (joinType pos t first)
      (fun w u => u.RecordlessIn w.2 ∧ u = first.getD t) (fun _ u => A.Agrees t u) := by
  cases first with
  | none => exact derives_pure ⟨ht, rfl⟩ fun _ => A.agrees_refl t
  | some first =>
    have hfirst := hfirst first rfl
    exact (derives_check hA pos ht hfirst).bind fun _ _ hlater _ =>
      derives_pure ⟨hfirst.mono hlater.subset, rfl⟩ fun h => h.2.2.agrees

theorem maybeRecordless_none (w : World) : MaybeRecordless w none :=
  fun _ h => by cases h

structure Joins {α : Type} (first : Option Ty) (xs : List α) (found : Option Ty) : Prop where
  keeps : ∀ u, first = some u → found = some u
  nil : found = none → xs = []

theorem joins_nil {α : Type} (first : Option Ty) : Joins first ([] : List α) first :=
  ⟨fun _ h => h, fun _ => rfl⟩

/-- The first alternative sets the type, unless it was set already. -/
theorem Joins.cons {α : Type} {first found : Option Ty} {t : Ty} {x : α} {xs : List α}
    (h : Joins (some (first.getD t)) xs found) : Joins first (x :: xs) found := by
  have hfound := h.keeps _ rfl
  refine ⟨fun u heq => ?_, fun hnone => ?_⟩
  · rw [hfound, heq]
    rfl
  · rw [hfound] at hnone
    cases hnone

mutual

theorem derives_inferExpr {elsewhere : Elsewhere} (hA : A.Proper) (hscope : context.engine.scope.Recordfree)
    (helsewhere : ElsewhereDerives A context elsewhere) (e : Expr) {P : Prop} {w : World}
    (he : A.Includes e.fragments) :
    Derives A context P w (inferExpr elsewhere e) Recordless (fun _ t => (e.id, t) ∈ A.log) := by
  match e with
  | .mk id pos kind =>
    rw [Expr.fragments, Account.includes_cons] at he
    rw [inferExpr]
    refine derives_isCancelled.bind fun cancelled w₁ _ _ => ?_
    split
    · next hcancelled => exact derives_unknown fun _ h => absurd (hcancelled.symm.trans h.2) (by decide)
    · refine (derives_inferKind hA hscope helsewhere id pos kind he.1 he.2).bind fun t w₂ _ ht => ?_
      refine (derives_record (n := .expr (.mk id pos kind)) ht he.1 rfl ?_).bind
        fun _ _ hlater _ => derives_pure (Ty.RecordlessIn.mono ht hlater.subset) fun h => h.2
      intro hP hlog u hhas
      obtain ⟨rfl, hknown⟩ := hA.eq_of_has hlog hhas
      exact hP.2 hknown

theorem derives_inferKind {elsewhere : Elsewhere} (hA : A.Proper) (hscope : context.engine.scope.Recordfree)
    (helsewhere : ElsewhereDerives A context elsewhere) (id : NodeId) (pos : Nat) (kind : ExprKind Expr) {P : Prop}
    {w : World} (hnode : .expr (.mk id pos kind) ∈ A.nodes) (hkind : A.Includes (Expr.kindFragments kind)) :
    Derives A context P w (inferKind elsewhere pos kind) Recordless
      (fun _ t => A.store.Known t → kind.Obeys A.typing t) := by
  have hfree := hA.recordfree _ hnode
  match kind with
  | .unit =>
    rw [inferKind]
    exact derives_pure Ty.recordlessIn_unit fun _ _ => trivial
  | .literal kind =>
    rw [inferKind]
    exact (derives_literalType kind).imp (fun _ _ _ h => h) fun _ _ _ _ _ _ => trivial
  | .var name =>
    rw [inferKind]
    exact (derives_reference hA hscope helsewhere pos name).imp (fun _ _ _ h => h) fun _ _ _ _ _ _ => trivial
  | .operator name =>
    rw [inferKind]
    refine (derives_operatorType hscope helsewhere pos name).bind fun found w₁ _ hfound => ?_
    split
    · exact derives_pure (hfound _ _ rfl) fun _ _ => trivial
    · exact derives_unknown fun _ _ _ => trivial
  | .call target args =>
    rw [Expr.kindFragments, Account.includes_add] at hkind
    rw [inferKind]
    refine (derives_inferExpr hA hscope helsewhere target hkind.1).bind fun t w₁ _ ht => ?_
    refine (derives_inferAll hA hscope helsewhere args hkind.2).bind fun types w₂ hlater₂ htypes => ?_
    refine (derives_apply hA pos (Ty.RecordlessIn.mono ht hlater₂.subset) htypes).imp (fun _ _ _ h => h) ?_
    rintro w' u ⟨⟨-, htarget⟩, hargs⟩ - happlies hknown function us hfunction hus
    obtain ⟨rfl, hknown'⟩ := hA.eq_of_has htarget hfunction
    obtain ⟨rfl, hknowns⟩ := hA.eq_of_hasAll hargs hus
    exact happlies (fun _ h => absurd h List.not_mem_nil) hknown' hknowns hknown
  | .binary operands operators =>
    rw [Expr.kindFragments] at hkind
    rw [inferKind]
    refine (derives_inferAll hA hscope helsewhere operands hkind).bind fun types w₁ _ htypes => ?_
    exact (derives_inferChain hA hscope helsewhere htypes operators).imp (fun _ _ _ h => h) fun _ _ _ _ _ _ => trivial
  | .negate operand =>
    rw [Expr.kindFragments] at hkind
    rw [inferKind]
    refine (derives_inferExpr hA hscope helsewhere operand hkind).bind fun t w₁ _ ht => ?_
    refine (derives_freshVar "number").bind fun number w₂ hlater₂ hnumber => derives_of_fieldless fun hw₂ => ?_
    have ht₂ := Ty.RecordlessIn.mono ht hlater₂.subset
    refine (derives_check hA _ ht₂ hnumber.recordless).bind fun _ w₃ hlater₃ _ =>
      derives_pure (ht₂.mono hlater₃.subset) ?_
    rintro ⟨⟨⟨-, hlog⟩, -⟩, -, hunifies⟩ hknown u hu
    obtain ⟨rfl, -⟩ := hA.eq_of_has hlog hu
    obtain ⟨v, rfl, hname, hv, hun, -⟩ := hnumber
    have hclass : v.typeclass = some .number := by
      rw [TyVar.typeclass, hname]
      rfl
    exact ⟨rfl, hw₂.guards_of_unify ht₂ hv hun hclass hunifies.run hunifies.extension hknown⟩
  | .tuple items =>
    rw [Expr.kindFragments] at hkind
    rw [inferKind]
    refine (derives_inferAll hA hscope helsewhere items hkind).bind fun types w₁ _ htypes => derives_pure ?_ ?_
    · refine Ty.recordlessIn_tuple fun t ht => ?_
      obtain ⟨operand, hmem, rfl⟩ := List.mem_map.mp ht
      exact htypes operand hmem
    · intro hP _ us hus
      obtain ⟨rfl, -⟩ := hA.eq_of_hasAll hP.2 hus
      exact Ty.read_tuple _
  | .list items =>
    rw [Expr.kindFragments] at hkind
    rw [inferKind]
    refine (derives_inferItems hA hscope helsewhere items hkind (maybeRecordless_none _)).bind
      fun found w₁ _ hfound => ?_
    split
    · next item =>
      refine derives_pure (hfound.1 _ rfl).list fun hP hknown us hus => ⟨item.read A.env, Ty.read_union _ _ _ none, ?_⟩
      exact hP.2.read_eq hA (hknown.child (.arg (w := none) List.mem_cons_self)) hus
    · refine (derives_freshVar "a").bind fun t _ _ ht => derives_pure ht.recordless.list fun _ _ us hus => ?_
      rw [hfound.2.nil rfl] at hus
      cases hus
      exact ⟨t.read A.env, Ty.read_union _ _ _ none, fun _ h => absurd h List.not_mem_nil⟩
  | .record _ | .update _ _ | .access _ _ | .accessor _ => cases hfree
  | .conditional branches otherwise =>
    rw [Expr.kindFragments, Account.includes_add] at hkind
    rw [inferKind]
    refine (derives_inferBranches hA hscope helsewhere branches hkind.1 (maybeRecordless_none _)).bind
      fun found w₁ _ hfound => ?_
    refine (derives_inferExpr hA hscope helsewhere otherwise hkind.2).bind fun t w₂ hlater₂ ht => ?_
    refine (derives_joinType hA _ ht fun u hu => (hfound.1 u hu).mono hlater₂.subset).imp (fun _ _ _ h => h.1) ?_
    rintro w' u ⟨⟨-, ⟨cs, hcs, hbools⟩, halternatives⟩, hlog⟩ ⟨-, hu⟩ hagrees hknown conditions results last hconditions
      hresults hlast
    obtain ⟨rfl, hknowns⟩ := hA.eq_of_hasAll hcs hconditions
    obtain ⟨rfl, hknown'⟩ := hA.eq_of_has hlog hlast
    refine ⟨fun c hc => (hbools c hc (hknowns c hc) known_bool).trans (Ty.read_union _ _ _ _), ?_, hagrees hknown' hknown⟩
    cases found with
    | none =>
      rw [hfound.2.nil rfl] at hresults
      cases hresults
      exact fun _ h => absurd h List.not_mem_nil
    | some v =>
      obtain rfl : u = v := hu
      exact halternatives.read_eq hA hknown hresults
  | .caseOf scrutinee branches =>
    rw [Expr.kindFragments, Account.includes_add] at hkind
    rw [inferKind]
    refine (derives_inferExpr hA hscope helsewhere scrutinee hkind.1).bind fun t w₁ _ ht => ?_
    refine (derives_inferCases hA hscope helsewhere branches hkind.2 ht (maybeRecordless_none _)).bind
      fun found w₂ _ hfound => derives_of_fieldless fun hw => ?_
    cases found with
    | none =>
      exact derives_pure (Ty.recordlessIn_unknown hw.plain) fun _ hknown => absurd rfl (hknown _ .refl).1
    | some u =>
      refine derives_pure (hfound.1 u rfl) ?_
      rintro ⟨⟨-, hlog⟩, hpatterns, halternatives⟩ hknown value patterns results hvalue hhas hresults
      obtain ⟨rfl, -⟩ := hA.eq_of_has hlog hvalue
      obtain ⟨rfl, -⟩ := hA.eq_of_hasAll hpatterns hhas
      refine ⟨fun v hv => ?_, halternatives.read_eq hA hknown hresults⟩
      obtain ⟨_, -, rfl⟩ := List.mem_map.mp hv
      rfl
  | .lambda params body =>
    rw [Expr.kindFragments, Account.includes_add] at hkind
    rw [inferKind]
    refine (derives_freshVars "a" params).bind fun types w₁ _ htypes => ?_
    obtain ⟨hlength, htypes, -⟩ := htypes
    refine (derives_pushScope fun _ h => absurd h List.not_mem_nil).bind fun _ w₂ hlater₂ _ => ?_
    have htypes : ∀ t ∈ types, t.RecordlessIn w₂.2 := fun t h => (htypes t h).mono hlater₂.subset
    refine (derives_inferParams hA hscope params htypes hkind.1).bind fun bound w₃ hlater₃ hbound => ?_
    refine (derives_bindAll _ hbound).bind fun _ w₄ hlater₄ _ => ?_
    refine (derives_deeper 1 (fun _ _ _ _ h => h) fun P' w' _ =>
      derives_inferExpr hA hscope helsewhere body hkind.2).bind fun t w₅ hlater₅ ht => ?_
    refine derives_popScope.bind fun _ w₆ hlater₆ _ => derives_pure ?_ ?_
    · have hlater := hlater₃.trans (hlater₄.trans (hlater₅.trans hlater₆))
      exact Ty.recordlessIn_function (fun u h => (htypes u h).mono hlater.subset)
        (Ty.RecordlessIn.mono ht hlater₆.subset)
    · rintro ⟨⟨⟨⟨-, hlogs⟩, -⟩, hlog⟩, -⟩ - us result hus hresult
      obtain ⟨rfl, -⟩ := hA.eq_of_hasAll (hlogs hlength.symm) hus
      obtain ⟨rfl, -⟩ := hA.eq_of_has hlog hresult
      exact Ty.read_function _ _
  | .letIn definitions body =>
    rw [Expr.kindFragments, Account.includes_add] at hkind
    rw [inferKind]
    refine (derives_enterLet hA hscope helsewhere.body hkind.1 (List.all_eq_true.mp hfree)).bind fun _ w₁ _ _ => ?_
    refine (derives_inferExpr hA hscope helsewhere body hkind.2).bind fun t w₂ _ ht => ?_
    exact derives_popScope.bind fun _ _ hlater _ => derives_pure (Ty.RecordlessIn.mono ht hlater.subset) fun _ _ => trivial

theorem derives_inferAll {elsewhere : Elsewhere} (hA : A.Proper) (hscope : context.engine.scope.Recordfree)
    (helsewhere : ElsewhereDerives A context elsewhere) (es : List Expr) {P : Prop} {w : World}
    (hes : A.Includes (Expr.listFragments es)) : Derives A context P w (inferAll elsewhere es) OperandsRecordless
      (fun _ operands => A.Logs (es.map Expr.id) (operands.map Prod.snd)) := by
  match es with
  | [] =>
    rw [inferAll]
    exact derives_pure (fun _ h => absurd h List.not_mem_nil) fun _ => .nil
  | e :: es =>
    rw [Expr.listFragments, Account.includes_add] at hes
    rw [inferAll]
    refine (derives_inferExpr hA hscope helsewhere e hes.1).bind fun t w₁ _ ht => ?_
    refine (derives_inferAll hA hscope helsewhere es hes.2).bind fun more w₂ hlater₂ hmore => derives_pure ?_ ?_
    · exact List.forall_mem_cons.mpr ⟨Ty.RecordlessIn.mono ht hlater₂.subset, hmore⟩
    · exact fun h => .cons h.1.2 h.2

theorem derives_inferItems {elsewhere : Elsewhere} (hA : A.Proper) (hscope : context.engine.scope.Recordfree)
    (helsewhere : ElsewhereDerives A context elsewhere) (es : List Expr) {first : Option Ty} {P : Prop} {w : World}
    (hes : A.Includes (Expr.listFragments es)) (hfirst : MaybeRecordless w first) :
    Derives A context P w (inferItems elsewhere first es) (fun w found => MaybeRecordless w found ∧ Joins first es found)
      (fun _ found => A.Alternatives (es.map Expr.id) found) := by
  match es with
  | [] =>
    rw [inferItems]
    exact derives_pure ⟨hfirst, joins_nil first⟩ fun _ => A.alternatives_nil first
  | e :: es =>
    rw [Expr.listFragments, Account.includes_add] at hes
    rw [inferItems]
    refine (derives_inferExpr hA hscope helsewhere e hes.1).bind fun t w₁ hlater₁ ht => ?_
    refine (derives_joinType hA _ ht fun u hu => (hfirst u hu).mono hlater₁.subset).bind fun u w₂ _ hu => ?_
    obtain ⟨hu, rfl⟩ := hu
    refine (derives_inferItems hA hscope helsewhere es hes.2 fun v hv => Option.some.inj hv ▸ hu).imp
      (fun _ _ _ h => ⟨h.1, h.2.cons⟩) fun _ found hP hfound h => ?_
    obtain rfl := hfound.2.keeps _ rfl
    exact h.cons hP.1.2 hP.2

theorem derives_inferBranches {elsewhere : Elsewhere} (hA : A.Proper) (hscope : context.engine.scope.Recordfree)
    (helsewhere : ElsewhereDerives A context elsewhere) (branches : List (Expr × Expr)) {first : Option Ty} {P : Prop}
    {w : World} (hbranches : A.Includes (Expr.branchFragments branches)) (hfirst : MaybeRecordless w first) :
    Derives A context P w (inferBranches elsewhere first branches)
      (fun w found => MaybeRecordless w found ∧ Joins first branches found)
      (fun _ found => (∃ cs, A.Logs (branches.map (·.1.id)) cs ∧ ∀ c ∈ cs, A.Agrees c .bool) ∧
        A.Alternatives (branches.map (·.2.id)) found) := by
  match branches with
  | [] =>
    rw [inferBranches]
    exact derives_pure ⟨hfirst, joins_nil first⟩
      fun _ => ⟨⟨[], .nil, fun _ h => absurd h List.not_mem_nil⟩, A.alternatives_nil first⟩
  | (condition, branch) :: rest =>
    rw [Expr.branchFragments, Account.includes_add, Account.includes_add] at hbranches
    obtain ⟨⟨hcondition, hbranch⟩, hrest⟩ := hbranches
    rw [inferBranches]
    refine (derives_inferExpr hA hscope helsewhere condition hcondition).bind fun t w₁ hlater₁ ht => ?_
    refine (derives_check hA _ ht (Ty.recordlessIn_named _ _)).bind fun _ w₂ hlater₂ _ => ?_
    refine (derives_inferExpr hA hscope helsewhere branch hbranch).bind fun u w₃ hlater₃ hu => ?_
    have hlater := hlater₁.trans (hlater₂.trans hlater₃)
    refine (derives_joinType hA _ hu fun v hv => (hfirst v hv).mono hlater.subset).bind fun v w₄ _ hv => ?_
    obtain ⟨hv, rfl⟩ := hv
    refine (derives_inferBranches hA hscope helsewhere rest hrest fun x hx => Option.some.inj hx ▸ hv).imp
      (fun _ _ _ h => ⟨h.1, h.2.cons⟩) fun _ found hP hfound h => ?_
    obtain rfl := hfound.2.keeps _ rfl
    obtain ⟨⟨⟨⟨-, hlogged⟩, -, hunifies⟩, hlog⟩, hagrees⟩ := hP
    obtain ⟨⟨cs, hcs, hbools⟩, halternatives⟩ := h
    exact ⟨⟨t :: cs, .cons hlogged hcs, List.forall_mem_cons.mpr ⟨hunifies.agrees, hbools⟩⟩,
      halternatives.cons hlog hagrees⟩

theorem derives_inferCases {elsewhere : Elsewhere} (hA : A.Proper) (hscope : context.engine.scope.Recordfree)
    (helsewhere : ElsewhereDerives A context elsewhere) (branches : List (Pattern × Expr)) {scrutinee : Ty}
    {first : Option Ty} {P : Prop} {w : World} (hbranches : A.Includes (Expr.caseFragments branches))
    (hscrutinee : scrutinee.RecordlessIn w.2) (hfirst : MaybeRecordless w first) :
    Derives A context P w (inferCases elsewhere scrutinee first branches)
      (fun w found => MaybeRecordless w found ∧ Joins first branches found)
      (fun _ found => A.Logs (branches.map (·.1.id)) (branches.map fun _ => scrutinee) ∧
        A.Alternatives (branches.map (·.2.id)) found) := by
  match branches with
  | [] =>
    rw [inferCases]
    exact derives_pure ⟨hfirst, joins_nil first⟩ fun _ => ⟨.nil, A.alternatives_nil first⟩
  | (pattern, body) :: rest =>
    rw [Expr.caseFragments, Account.includes_add, Account.includes_add] at hbranches
    obtain ⟨⟨hpattern, hbody⟩, hrest⟩ := hbranches
    rw [inferCases]
    refine (derives_pushScope fun _ h => absurd h List.not_mem_nil).bind fun _ w₁ hlater₁ _ => ?_
    refine (derives_inferPattern hA hscope .branch pattern (hscrutinee.mono hlater₁.subset) hpattern).bind
      fun bound w₂ hlater₂ hbound => ?_
    refine (derives_bindAll _ hbound).bind fun _ w₃ hlater₃ _ => ?_
    refine (derives_inferExpr hA hscope helsewhere body hbody).bind fun t w₄ hlater₄ ht => ?_
    have hlater := hlater₁.trans (hlater₂.trans (hlater₃.trans hlater₄))
    refine (derives_joinType hA _ ht fun u hu => (hfirst u hu).mono hlater.subset).bind fun u w₅ hlater₅ hu => ?_
    obtain ⟨hu, rfl⟩ := hu
    refine derives_popScope.bind fun _ w₆ hlater₆ _ => ?_
    have hscrutinee := hscrutinee.mono (hlater.trans (hlater₅.trans hlater₆)).subset
    refine (derives_inferCases hA hscope helsewhere rest hrest hscrutinee
      fun v hv => Option.some.inj hv ▸ hu.mono hlater₆.subset).imp
        (fun _ _ _ h => ⟨h.1, h.2.cons⟩) fun _ found hP hfound h => ?_
    obtain rfl := hfound.2.keeps _ rfl
    obtain ⟨⟨⟨⟨⟨-, hlogged⟩, -⟩, hlog⟩, hagrees⟩, -⟩ := hP
    exact ⟨.cons hlogged h.1, h.2.cons hlog hagrees⟩

end

/-! ### Declarations -/

theorem derives_finish {t : Ty} (ht : t.RecordlessIn w.2) :
    Derives A context P w (finish t) (fun _ out => out.1.Recordless) Anything := by
  refine derives_of_fieldless fun hw => ?_
  intro σ out σ' hσ hrun
  obtain ⟨rfl, hfreezes⟩ := freezes_finish hrun
  have hzonk : ∀ {u z : Ty}, u.RecordlessIn w.2 → σ.pass.store.zonk u = .ok z → z.Recordless := by
    intro u z hu hz
    rw [hσ.store] at hz
    exact (hw.zonk hu hz).recordless
  refine ⟨w, .refl w, hσ, ⟨hzonk ht hfreezes.ty, fun entry hentry => ?_⟩,
    fun hbefore => ⟨hbefore, fun _ hjust => ⟨hjust, trivial⟩⟩⟩
  obtain ⟨logged, hmem, -, hz⟩ := exists_mem_of_forall₂ hfreezes.nodeTypes hentry
  exact hzonk (hσ.log logged (mem_of_mem_latestTypes (mem_sortBy.mp hmem))) hz

section Bodies

variable {inferBody : Expr → InferM Ty} (hA : A.Proper) (hscope : context.engine.scope.Recordfree)
  (hbody : ∀ P w e, A.Includes (Expr.fragments e) → Derives A context P w (inferBody e) Recordless Anything)

include hA hscope hbody

theorem derives_inferTopFunction (name : NameAt) {params : List Pattern} {body : Expr} {signature : Option TypeExpr}
    (hsigned : signature.all TypeExpr.isRecordfree = true) (hparams : A.Includes (Pattern.fragmentsList params))
    (hnodes : A.Includes body.fragments) :
    Derives A context P w (inferTopFunction inferBody name params body signature) Recordless Anything := by
  cases signature with
  | some signature =>
    rw [inferTopFunction]
    refine (derives_convertSignature hscope hsigned fun _ h => absurd h List.not_mem_nil).bind fun out w₁ _ hout => ?_
    refine (derives_setTypeVars hout.2).bind fun _ w₂ hlater₂ _ => ?_
    have ht : out.1.RecordlessIn w₂.2 := hout.1.mono hlater₂.subset
    have hchecking : ∀ entry ∈ [(name.name, Binding.checking (Scheme.closed out.1) (!params.isEmpty) 0)],
        entry.2.Admitted A w₂.2 := List.forall_mem_singleton.mpr (ht.scheme _)
    refine (derives_pushScope hchecking).bind fun _ w₃ hlater₃ _ => ?_
    refine (derives_inferFunction hA hscope hbody name hparams hnodes fun t heq => ?_).bind fun t w₄ _ ht => ?_
    · cases heq
      exact ht.mono hlater₃.subset
    · exact derives_popScope.bind fun _ _ hlater _ =>
        derives_pure (Ty.RecordlessIn.mono ht hlater.subset) fun _ => trivial
  | none =>
    rw [inferTopFunction]
    refine (derives_freshVar "a").bind fun self w₁ _ hself => ?_
    have hactive : ∀ entry ∈ [(name.name, Binding.active self (!params.isEmpty) 0)], entry.2.Admitted A w₁.2 :=
      List.forall_mem_singleton.mpr hself.recordless
    refine (derives_pushScope hactive).bind fun _ w₂ hlater₂ _ => ?_
    refine (derives_inferFunction hA hscope hbody name hparams hnodes fun _ h => by cases h).bind
      fun t w₃ hlater₃ ht => ?_
    refine derives_popScope.bind fun _ w₄ hlater₄ _ => ?_
    have hself := hself.recordless.mono (hlater₂.trans (hlater₃.trans hlater₄)).subset
    have ht := Ty.RecordlessIn.mono ht hlater₄.subset
    exact (derives_check hA _ ht hself).bind fun _ _ hlater _ => derives_pure (ht.mono hlater.subset) fun _ => trivial

theorem derives_inferTopPattern {pattern : Pattern} {body : Expr} (hpattern : A.Includes pattern.fragments)
    (hnodes : A.Includes body.fragments) :
    Derives A context P w (inferTopPattern inferBody pattern body) Recordless Anything := by
  refine (derives_pushScope fun _ h => absurd h List.not_mem_nil).bind fun _ w₁ _ _ => ?_
  refine (derives_inferDestructuring hA hscope hbody hpattern hnodes).bind fun out w₂ _ hout => ?_
  refine (derives_bindAll _ hout.2).bind fun _ w₃ hlater₃ _ => ?_
  exact derives_popScope.bind fun _ _ hlater _ =>
    derives_pure (hout.1.mono (hlater₃.trans hlater).subset) fun _ => trivial

theorem derives_inferDeclaration {d : ValueDecl} (hsigned : d.isSignedRecordfree = true)
    (hnodes : A.Includes d.fragments) : Derives A context P w (inferDeclaration inferBody d)
      (fun _ outcome => RecordlessOutcome outcome) Anything := by
  have hrest : ∀ t P (w : World), t.RecordlessIn w.2 → Derives A context P w (do
      if (← getPass).cancelled then return .error .cancelled
      return .ok (← finish t) : InferM (Except InferError Inferred)) (fun _ outcome => RecordlessOutcome outcome)
      Anything := by
    intro t P w ht
    refine derives_getPass.bind fun pass w₁ hlater₁ _ => ?_
    split
    · exact derives_pure (fun _ _ h => by cases h) fun _ => trivial
    · refine (derives_finish (ht.mono hlater₁.subset)).bind fun out w₂ _ hout =>
        derives_pure (fun result recursive heq => ?_) fun _ => trivial
      cases heq
      exact hout
  obtain ⟨hhead, hnodes⟩ := Account.includes_add.mp hnodes
  obtain ⟨pos, signature, head, body⟩ := d
  cases head with
  | function name params =>
    rw [Head.fragments, Head.sites] at hhead
    exact (derives_inferTopFunction hA hscope hbody name hsigned hhead hnodes).bind fun t w₁ _ ht => hrest t _ w₁ ht
  | pattern pattern =>
    rw [Head.fragments, Head.sites] at hhead
    exact (derives_inferTopPattern hA hscope hbody hhead hnodes).bind fun t w₁ _ ht => hrest t _ w₁ ht

end Bodies

end InferM

/-- An account of a pass that ends right at its start. -/
def Account.initial : Account where
  nodes := {n | n.isRecordfree = true}
  log := []
  store := {}
  env := fun _ => .unit

theorem Account.proper_initial : Account.initial.Proper where
  recordfree _ hn := hn
  functional _ _ _ h _ := absurd h List.not_mem_nil
  models := ⟨fun _ _ h => absurd h (by simp [initial, solution?]), fun _ _ h => absurd h (by simp [initial])⟩
  recordless := recordless_empty

theorem Session.Recordless.kept {session : Session} (h : session.Recordless) (A : Account) :
    Work.Kept A blank ⟨session, {}⟩ :=
  ⟨rfl, fieldless_blank, ⟨fun _ h => absurd h List.not_mem_nil, fun _ h => absurd h List.not_mem_nil⟩,
    fun _ h => absurd h List.not_mem_nil, h⟩

namespace SessionM

variable {engine : Engine} {inferBody : Expr → InferM Ty}

/-- A pass of its own comes by no record, whatever is to be accounted for elsewhere. -/
theorem spares_inferTopLevel (hscope : engine.scope.Recordfree)
    (hbody : ∀ current P w e, Account.initial.Includes (Expr.fragments e) →
      InferM.Derives .initial ⟨engine, current⟩ P w (inferBody e) InferM.Recordless InferM.Anything)
    (index : Nat) {d : ValueDecl} (hd : (Declaration.value d).Recordfree) :
    Spares engine (inferTopLevel inferBody index d) InferM.RecordlessOutcome := by
  intro session outcome session' hsession hrun
  have hpass : ∀ s out σ, s.cache.Keeps InferenceResult.Recordless DeclaredType.Recordless →
      InferM.inferDeclaration inferBody d ⟨engine, index⟩ ⟨s, {}⟩ = (.ok out, σ) →
        σ.session.cache.Keeps InferenceResult.Recordless DeclaredType.Recordless ∧ InferM.RecordlessOutcome out := by
    intro s out σ hs hdecl
    have hstart := (Session.recordless_iff.mpr hs).kept .initial
    have hderives : InferM.Derives .initial ⟨engine, index⟩ True blank _ _ _ :=
      InferM.derives_inferDeclaration Account.proper_initial hscope (hbody index) hd.1 hd.2
    obtain ⟨_, -, hσ, hout, -⟩ := hderives _ _ _ hstart hdecl
    exact ⟨Session.recordless_iff.mp hσ.session, hout⟩
  obtain ⟨hafter, hout⟩ := keeps_inferTopLevel (Session.recordless_iff.mp hsession) hpass hrun
  exact ⟨Session.recordless_iff.mpr hafter, hout⟩

end SessionM

/-- Expressions are accounted for, however deep definitions and declarations are entered. -/
theorem InferM.derives_exprAt (n : Nat) {A : Account} {context : Context} (hA : A.Proper)
    (hscope : context.engine.scope.Recordfree) (P : Prop) (w : World) (e : Expr) (he : A.Includes e.fragments) :
    Derives A context P w (exprAt n e) Recordless (fun _ t => (e.id, t) ∈ A.log) := by
  induction n generalizing A context P w e with
  | zero => exact derives_throw
  | succ n ih =>
    refine derives_inferExpr hA hscope ⟨fun P w e he => (ih hA hscope P w e he).forget, fun index d hd => ?_⟩ e he
    exact SessionM.spares_inferTopLevel hscope (fun current P w e he =>
      (@ih .initial ⟨context.engine, current⟩ Account.proper_initial hscope P w e he).forget) index hd

end ElmInference
