import ElmInference.Proofs.Infer.Definitions

/-!
# Expressions and declarations keep the state in order

Inferring an expression behaves, whatever definitions and declarations it enters on the way: by induction over the
expression, for bodies that behave, and then over how deep bodies are entered. So the inference of a declaration
behaves too. It starts with an empty store, and its result contains no growing record.
-/

namespace ElmInference

open Store

variable {Q Q' : Set Mention}

/-! ### Fields -/

namespace Store

open Relation

variable {s s' : Store}

theorem Tidy.accessible (h : Tidy (s, Q)) {t : Ty} (ht : t.Within Q) : s.Accessible t where
  resolve := exists_resolve h.loopfree h.closed (h.owns ht)
  flatten u hresolves := exists_flatten h.loopfree h.closed (hresolves.owns h.closed (h.owns ht))
  openBase id hresolves := by
    have howns := hresolves.owns h.closed (h.owns ht)
    obtain ⟨g, hrec⟩ := exists_record howns.growing_lt
    obtain ⟨base, hbase⟩ := exists_resolve h.loopfree h.closed (h.closed.owns_base hrec)
    unfold Store.openBase
    rw [record_of_some hrec, ok_bind, hbase, ok_bind]
    cases base <;> exact ⟨_, rfl⟩

/-- A variable without solution leads to itself only. -/
theorem eq_of_leads_unsolved {v : TyVar} (h : s.solution? v.id = none) {n : Node}
    (hleads : s.Leads false (.var v) n) : n = .var v.id := by
  rcases (leads_var_iff.mp hleads).cases_head with heq | ⟨m, hedge, -⟩
  · exact heq.symm
  · obtain ⟨t, hsol, -⟩ := holds_of_edge hedge
    rw [h] at hsol
    cases hsol

/-- A flexible variable may be solved by a new record over two other variables without solution. -/
theorem moves_solve_recorded (hw : Store.Orderly (s, Q)) {v a b : TyVar} (hun : s.Unsolved v.id)
    (hflex : v.rigid = false) (hv : .var v ∈ Q) (ha : .var a ∈ Q) (hb : .var b ∈ Q)
    (hsa : s.solution? a.id = none) (hsb : s.solution? b.id = none) (hav : v.id ≠ a.id) (hbv : v.id ≠ b.id)
    (name : Name) (refs : FieldReferences) :
    Moves (s, Q) ((s.recorded { fields := [(name, .var a)], base := .var b, refs }).solved v.id
      (.growing s.records.size), insert (.record s.records.size) Q) := by
  generalize hg : ({ fields := [(name, .var a)], base := .var b, refs } : GrowingRecord) = g
  have hlinks : ∀ r ∈ g.links false, r = .field name ∨ r = .var a ∨ r = .var b := by
    simp [← hg, GrowingRecord.links, Ty.mentionsFields, Ty.mentions]
  have hcopy : ∀ r ∈ g.links false, r ∈ Q := by
    intro r hr
    rcases hlinks r hr with rfl | rfl | rfl
    · exact hw.plain _ rfl
    · exact ha
    · exact hb
  refine (ReflTransGen.single (.copy hcopy)).tail (.solve hun hflex (Set.mem_insert_of_mem _ hv) ?_ ?_)
  · exact Ty.within_growing.mpr (Set.mem_insert _ _)
  · intro hleads
    rcases (leads_growing_iff.mp hleads).cases_head with heq | ⟨n, ⟨r, hr, hnode⟩, hrest⟩
    · cases heq
    rw [links, record?_recorded_self] at hr
    have hvar : ∀ u : TyVar, r = .var u → (s.recorded g).Leads false (.var u) (.var v.id) := by
      rintro u rfl
      exact ⟨n, holds_var_iff.mpr (Option.some.inj hnode).symm, hrest⟩
    rcases hlinks r hr with rfl | rfl | rfl
    · cases hnode
    · exact hav (Node.var.inj (eq_of_leads_unsolved (s := s.recorded g) hsa (hvar a rfl)))
    · exact hbv (Node.var.inj (eq_of_leads_unsolved (s := s.recorded g) hsb (hvar b rfl)))

/-- Solving an open end by a growing record with one field is a sequence of moves. -/
theorem moves_rowGrown (hw : Store.Orderly (s, Q)) {v : TyVar} (hun : s.Unsolved v.id) (hflex : v.rigid = false)
    (hv : .var v ∈ Q) (field : NameAt) :
    ∃ Q', Moves (s, Q) (s.rowGrown v field, Q') ∧ .var ⟨s.size, "a", false⟩ ∈ Q' := by
  have hboth : Moves (s, Q) (s.extended.extended, _) := .tail (.single (.fresh "a" false)) (.fresh "b" false)
  rw [size_extended] at hboth
  have hlt : v.id < s.size := hw.tidy.owned _ hv
  have ha : s.extended.extended.solution? s.size = none := by
    rw [solution?_extended]
    exact (unsolved_extended_self s).2
  have hb : s.extended.extended.solution? (s.size + 1) = none := by
    rw [← size_extended]
    exact (unsolved_extended_self s.extended).2
  refine ⟨_, hboth.trans (moves_solve_recorded (hboth.advances.orderly hw) (a := ⟨s.size, "a", false⟩)
    (b := ⟨s.size + 1, "b", false⟩) hun.extended.extended hflex ?_ ?_ ?_ ha hb ?_ ?_ field.name _), ?_⟩
  · exact hboth.subset hv
  · exact Set.mem_insert_of_mem _ (Set.mem_insert _ _)
  · exact Set.mem_insert _ _
  · exact Nat.ne_of_lt hlt
  · exact Nat.ne_of_lt (Nat.lt_succ_of_lt hlt)
  · exact Set.mem_insert_of_mem _ (Set.mem_insert_of_mem _ (Set.mem_insert _ _))

/-- A field access advances the store, and the type of the field is at hand. -/
theorem Accessed.advances (hw : Store.Orderly (s, Q)) {r : Ty} {field : NameAt} {res : Except InferM.FieldError Ty}
    (h : s.Accessed r field res s') (hr : r.Within Q) :
    ∃ Q', Advances (s, Q) (s', Q') ∧ ∀ t, res = .ok t → t.Within Q' := by
  have hfield : ∀ {f : Flattened} {t : Ty}, s.FlattensTo r [] f → f.field? field.name = some t → t.Within Q := by
    intro f t hflat ht
    exact StoreM.within_field (hflat.within hw.tidy.keeps hr (by simp [Ty.mentionsFields])) (Assoc.mem_of_get? ht)
  cases h with
  | nothing hunknown =>
    refine ⟨Q, .refl, fun t ht => ?_⟩
    rw [hunknown t ht]
    exact Ty.within_unknown hw.plain
  | found hflat hget =>
    refine ⟨Q, .refl, fun t ht => ?_⟩
    cases ht
    exact hfield hflat hget
  | seen hflat hget hrec =>
    refine ⟨Q, .single (.note hrec), fun t ht => ?_⟩
    cases ht
    exact hfield hflat hget
  | row hflat _ htail hflex =>
    have hwithin := hflat.within hw.tidy.keeps hr (by simp [Ty.mentionsFields])
    have hv := Ty.within_var.mp (StoreM.within_opened hwithin htail)
    obtain ⟨Q', hmoves, ha⟩ := moves_rowGrown hw (hflat.unsolved_tail htail) hflex hv field
    refine ⟨Q', hmoves.advances, fun t ht => ?_⟩
    cases ht
    exact Ty.within_var.mpr ha
  | record happends =>
    have hfresh : Advances (s, Q) (s.extended, _) := .single (.move (.fresh "a" false))
    have hw' := hfresh.orderly hw
    have hbase := happends.base.later (extends_extended s).size (solution?_extended s)
    have hid := Ty.within_growing.mp (happends.resolves.mentions hw.tidy.keeps hr)
    refine ⟨_, hfresh.tail (.gain (by simpa using happends.record) (hfresh.subset hid) hbase happends.flexible
      (hw'.plain _ rfl) (Ty.within_var.mpr (Set.mem_insert _ _)) fun hleads => ?_), fun t ht => ?_⟩
    · cases eq_of_leads_unsolved (unsolved_extended_self s).2 hleads
    · cases ht
      exact Ty.within_var.mpr (Set.mem_insert _ _)

end Store

namespace InferM

variable {context : Context}

theorem behaves_fieldType {r : Ty} (hr : r.Within Q) (field : NameAt) :
    Behaves context Q (fieldType r field) (fun Q res => ∀ t, res = .ok t → t.Within Q) := by
  intro w res w' hw hrun
  obtain ⟨res', s', hfield, haccessed⟩ : ∃ res s', fieldType r field context w = (.ok res, w.withStore s') ∧
      w.pass.store.Accessed r field res s' := accessed_fieldType (hw.store.tidy.accessible hr)
  rw [hfield] at hrun
  cases hrun
  obtain ⟨Q', hadvances, ht⟩ := haccessed.advances hw.store hr
  exact ⟨Q', hadvances, Work.Orderly.withStore hw hadvances, ht⟩

theorem behaves_accessType (targetPos : Nat) {target : Ty} (ht : target.Within Q) (field : NameAt) :
    Behaves context Q (accessType targetPos target field) AtHand := by
  refine (behaves_fieldType ht field).bind fun res Q₁ _ hres => ?_
  split
  · exact behaves_pure (hres _ rfl)
  · exact (behaves_report _ _).bind fun _ _ _ _ => behaves_unknown
  · exact (behaves_zonk_any _).bind fun _ _ _ _ => (behaves_report _ _).bind fun _ _ _ _ => behaves_unknown

theorem behaves_updateField (basePos : Nat) {base : Ty} (hbase : base.Within Q) (field : NameAt) (valuePos : Nat)
    {value : Ty} (hvalue : value.Within Q) :
    Behaves context Q (updateField basePos base field valuePos value) Any := by
  refine (behaves_fieldType hbase field).bind fun res Q₁ hsub₁ hres => ?_
  split
  · exact (behaves_check _ (hvalue.mono hsub₁) (hres _ rfl)).bind fun _ _ _ _ => behaves_pure trivial
  · exact (behaves_report _ _).bind fun _ _ _ _ => behaves_pure trivial
  · exact (behaves_zonk_any _).bind fun _ _ _ _ => (behaves_report _ _).bind fun _ _ _ _ => behaves_pure trivial

/-! ### Calls and operators -/

abbrev OperandsAtHand : Set Mention → List (Nat × Ty) → Prop := fun Q args => ∀ arg ∈ args, arg.2.Within Q

theorem within_tuple_of_operands {operands : List (Nat × Ty)} (h : OperandsAtHand Q operands) :
    (Ty.tuple (operands.map Prod.snd)).Within Q := by
  refine Ty.within_tuple.mpr fun t ht => ?_
  obtain ⟨operand, hmem, rfl⟩ := List.mem_map.mp ht
  exact h operand hmem

theorem behaves_checkArgs {args : List (Nat × Ty)} {params : List Ty} (hargs : OperandsAtHand Q args)
    (hparams : ∀ t ∈ params, t.Within Q) : Behaves context Q (checkArgs args params) Any := by
  induction args generalizing params Q with
  | nil =>
    unfold checkArgs
    exact behaves_pure trivial
  | cons arg args ih =>
    cases params with
    | nil =>
      unfold checkArgs
      exact behaves_pure trivial
    | cons param params =>
      obtain ⟨harg, hargs⟩ := List.forall_mem_cons.mp hargs
      obtain ⟨hparam, hparams⟩ := List.forall_mem_cons.mp hparams
      rw [checkArgs]
      refine (behaves_check _ harg hparam).bind fun _ Q₁ hsub₁ _ => ?_
      exact ih (fun arg h => (hargs arg h).mono hsub₁) (fun t h => (hparams t h).mono hsub₁)

theorem behaves_applyTo (pos total : Nat) {params : List Ty} {ret : Ty} {args : List (Nat × Ty)}
    (hparams : ∀ t ∈ params, t.Within Q) (hret : ret.Within Q) (hargs : OperandsAtHand Q args) :
    Behaves context Q (applyTo pos total params ret args) AtHand := by
  induction args generalizing params ret Q with
  | nil =>
    rw [applyTo]
    exact behaves_pure (Ty.within_function hparams hret)
  | cons arg rest ih =>
    obtain ⟨argPos, arg⟩ := arg
    obtain ⟨harg, hrest⟩ := List.forall_mem_cons.mp hargs
    -- One argument is taken off, and the others are applied to what is left.
    have hnext : ∀ {param params ret Q'}, Q ⊆ Q' → (∀ t ∈ param :: params, t.Within Q') → ret.Within Q' →
        Behaves context Q' (do
          let _ ← check argPos arg param
          applyTo pos total params ret rest : InferM Ty) AtHand := by
      intro param params ret Q' hsub hparams hret
      obtain ⟨hparam, hparams⟩ := List.forall_mem_cons.mp hparams
      refine (behaves_check _ (Ty.Within.mono harg hsub) hparam).bind fun _ Q₁ hsub₁ _ => ?_
      exact ih (fun t h => (hparams t h).mono hsub₁) (hret.mono hsub₁)
        (fun arg h => (hrest arg h).mono (hsub.trans hsub₁))
    cases params with
    | cons param params =>
      rw [applyTo]
      exact hnext subset_rfl hparams hret
    | nil =>
      rw [applyTo]
      refine Behaves.bind (V := fun Q found => found.1.Within Q ∧ found.2.Within Q) (behaves_readStore fun s found hs h =>
        StoreM.within_callee hs.tidy hret h) fun found Q₁ hsub₁ hfound => ?_
      obtain ⟨function, resolved⟩ := found
      obtain ⟨hfunction, hresolved⟩ := hfound
      dsimp only
      split
      · obtain ⟨hparams, hret⟩ := Ty.within_arrow.mp hresolved
        exact hnext hsub₁ hparams hret
      · split
        · exact behaves_reported_unknown _ _
        · refine (behaves_freshVars "a" _).bind fun params Q₂ hsub₂ hparams => ?_
          refine (behaves_freshVar "b").bind fun result Q₃ hsub₃ hresult => ?_
          have hparams : ∀ t ∈ params, t.Within Q₃ := fun t h => (hparams t h).mono hsub₃
          have hsub := hsub₁.trans (hsub₂.trans hsub₃)
          refine (behaves_check pos (hfunction.mono (hsub₂.trans hsub₃)) (Ty.within_function hparams hresult)).bind
            fun fits Q₄ hsub₄ _ => ?_
          split
          · refine (behaves_checkArgs (fun arg h => (hargs arg h).mono (hsub.trans hsub₄))
              (fun t h => (hparams t h).mono hsub₄)).bind fun _ Q₅ hsub₅ _ => behaves_pure ?_
            exact Ty.Within.mono hresult (hsub₄.trans hsub₅)
          · exact behaves_unknown
      · exact behaves_unknown
      · exact behaves_unknown
      · exact behaves_reported_unknown _ _

theorem behaves_apply (pos : Nat) {target : Ty} {args : List (Nat × Ty)} (ht : target.Within Q)
    (hargs : OperandsAtHand Q args) : Behaves context Q (apply pos target args) AtHand :=
  behaves_applyTo pos args.length (by simp) ht hargs

theorem behaves_applyTree {operands : List (Nat × Ty)} {functions : List Ty} (hoperands : OperandsAtHand Q operands)
    (hfunctions : ∀ t ∈ functions, t.Within Q) (tree : OperatorTree) :
    Behaves context Q (applyTree operands functions tree) (fun Q operand => operand.2.Within Q) := by
  induction tree generalizing Q with
  | operand index =>
    rw [applyTree]
    refine behaves_of_plain fun hplain => behaves_pure ?_
    cases hget : operands[index]? with
    | none => exact Ty.within_unknown hplain
    | some operand => exact hoperands operand (List.mem_of_getElem? hget)
  | node left operator right ihl ihr =>
    rw [applyTree]
    refine (ihl hoperands hfunctions).bind fun left Q₁ hsub₁ hleft => ?_
    refine (ihr (fun arg h => (hoperands arg h).mono hsub₁) (fun t h => (hfunctions t h).mono hsub₁)).bind
      fun right Q₂ hsub₂ hright => behaves_of_plain fun hplain => ?_
    have hfunction : (functions[operator]?.getD .unknown).Within Q₂ := by
      cases hget : functions[operator]? with
      | none => exact Ty.within_unknown hplain
      | some t => exact (hfunctions t (List.mem_of_getElem? hget)).mono (hsub₁.trans hsub₂)
    have hargs : OperandsAtHand Q₂ [left, right] := by
      intro arg harg
      rcases List.mem_cons.mp harg with rfl | harg
      · exact hleft.mono hsub₂
      · rw [List.mem_singleton.mp harg]
        exact hright
    exact (behaves_apply _ hfunction hargs).bind fun t _ _ ht => behaves_pure ht

section Elsewhere

variable {elsewhere : Elsewhere} (hscope : context.engine.scope.Frozen)
  (helsewhere : ElsewhereBehaves context elsewhere)

include hscope helsewhere

theorem behaves_operatorTypes (operators : List NameAt) :
    Behaves context Q (operatorTypes elsewhere operators)
      (fun Q found => ∀ precedences ts, found = some (precedences, ts) → ∀ t ∈ ts, t.Within Q) := by
  induction operators generalizing Q with
  | nil =>
    refine behaves_pure fun _ _ h => ?_
    cases h
    simp
  | cons operator rest ih =>
    rw [operatorTypes]
    refine (behaves_operatorType hscope helsewhere _ _).bind fun found Q₁ _ hfound => ?_
    split
    · exact behaves_pure fun _ _ h => by cases h
    · refine ih.bind fun more Q₂ hsub₂ hmore => ?_
      split
      · exact behaves_pure fun _ _ h => by cases h
      · refine behaves_pure fun _ _ h => ?_
        cases h
        exact List.forall_mem_cons.mpr ⟨(hfound _ _ rfl).mono hsub₂, hmore _ _ rfl⟩

theorem behaves_inferChain {operands : List (Nat × Ty)} (hoperands : OperandsAtHand Q operands)
    (operators : List NameAt) : Behaves context Q (inferChain elsewhere operands operators) AtHand := by
  refine (behaves_operatorTypes hscope helsewhere operators).bind fun found Q₁ hsub₁ hfound => ?_
  split
  · exact behaves_unknown
  · split
    · exact (behaves_applyTree (fun arg h => (hoperands arg h).mono hsub₁) (hfound _ _ rfl) _).bind
        fun _ _ _ ht => behaves_pure ht
    · exact (behaves_report _ _).bind fun _ _ _ _ => behaves_unknown
    · exact (behaves_report _ _).bind fun _ _ _ _ => behaves_unknown

/-! ### The recursion -/

omit hscope helsewhere in
theorem behaves_joinType (pos : Nat) {t : Ty} (ht : t.Within Q) {first : Option Ty} (hfirst : MaybeAtHand Q first) :
    Behaves context Q (joinType pos t first) AtHand := by
  cases first with
  | none => exact behaves_pure ht
  | some first =>
    have hfirst := hfirst first rfl
    exact (behaves_check pos ht hfirst).bind fun _ _ hsub _ => behaves_pure (hfirst.mono hsub)

end Elsewhere

mutual

theorem behaves_inferExpr {elsewhere : Elsewhere} (hscope : context.engine.scope.Frozen)
    (helsewhere : ElsewhereBehaves context elsewhere) (e : Expr) {Q : Set Mention} :
    Behaves context Q (inferExpr elsewhere e) AtHand := by
  match e with
  | .mk id pos kind =>
    rw [inferExpr]
    refine behaves_isCancelled.bind fun cancelled Q₁ _ _ => ?_
    split
    · exact behaves_unknown
    · refine (behaves_inferKind hscope helsewhere pos kind).bind fun t Q₂ _ ht => ?_
      exact (behaves_record id t).bind fun _ _ hsub _ => behaves_pure (Ty.Within.mono ht hsub)

theorem behaves_inferKind {elsewhere : Elsewhere} (hscope : context.engine.scope.Frozen)
    (helsewhere : ElsewhereBehaves context elsewhere) (pos : Nat) (kind : ExprKind Expr) {Q : Set Mention} :
    Behaves context Q (inferKind elsewhere pos kind) AtHand := by
  match kind with
  | .unit =>
    rw [inferKind]
    exact behaves_pure (by simp [Ty.Within, Ty.mentions])
  | .literal kind =>
    rw [inferKind]
    exact behaves_literalType kind
  | .var name =>
    rw [inferKind]
    exact behaves_reference hscope helsewhere pos name
  | .operator name =>
    rw [inferKind]
    refine (behaves_operatorType hscope helsewhere pos name).bind fun found Q₁ _ hfound => ?_
    split
    · exact behaves_pure (hfound _ _ rfl)
    · exact behaves_unknown
  | .call target args =>
    rw [inferKind]
    refine (behaves_inferExpr hscope helsewhere target).bind fun t Q₁ _ ht => ?_
    refine (behaves_inferAll hscope helsewhere args).bind fun types Q₂ hsub₂ htypes => ?_
    exact behaves_apply pos (Ty.Within.mono ht hsub₂) htypes
  | .binary operands operators =>
    rw [inferKind]
    refine (behaves_inferAll hscope helsewhere operands).bind fun types Q₁ _ htypes => ?_
    exact behaves_inferChain hscope helsewhere htypes operators
  | .negate operand =>
    rw [inferKind]
    refine (behaves_inferExpr hscope helsewhere operand).bind fun t Q₁ _ ht => ?_
    refine (behaves_freshVar "number").bind fun number Q₂ hsub₂ hnumber => ?_
    refine (behaves_check _ (Ty.Within.mono ht hsub₂) hnumber).bind fun _ Q₃ hsub₃ _ => ?_
    exact behaves_pure (Ty.Within.mono ht (hsub₂.trans hsub₃))
  | .tuple items =>
    rw [inferKind]
    refine (behaves_inferAll hscope helsewhere items).bind fun types Q₁ _ htypes => behaves_pure ?_
    exact within_tuple_of_operands htypes
  | .list items =>
    rw [inferKind]
    refine (behaves_inferItems hscope helsewhere items (fun _ h => by cases h)).bind fun found Q₁ _ hfound => ?_
    split
    · exact behaves_pure (Ty.within_list (hfound _ rfl))
    · exact (behaves_freshVar "a").bind fun t _ _ ht => behaves_pure (Ty.within_list ht)
  | .record fields =>
    rw [inferKind]
    refine (behaves_inferFields hscope helsewhere fields).bind fun types Q₁ _ htypes => ?_
    refine behaves_of_plain fun hplain => behaves_pure ?_
    exact Ty.within_recordWith (fun field hfield => ⟨hplain _ rfl, htypes field hfield⟩) (fun _ h => by cases h)
  | .update base fields =>
    rw [inferKind]
    refine (behaves_reference hscope helsewhere _ _).bind fun t Q₁ _ ht => ?_
    refine (behaves_inferUpdates hscope helsewhere _ true fields ht).bind fun _ Q₂ hsub₂ _ => ?_
    exact behaves_pure (Ty.Within.mono ht hsub₂)
  | .access target field =>
    rw [inferKind]
    exact (behaves_inferExpr hscope helsewhere target).bind fun t Q₁ _ ht => behaves_accessType _ ht field
  | .accessor field =>
    rw [inferKind]
    refine (behaves_freshVar "a").bind fun t Q₁ _ ht => ?_
    refine (behaves_freshVar "b").bind fun base Q₂ hsub₂ hbase => behaves_of_plain fun hplain => behaves_pure ?_
    exact Ty.within_accessor hplain field hbase (Ty.Within.mono ht hsub₂)
  | .conditional branches otherwise =>
    rw [inferKind]
    refine (behaves_inferBranches hscope helsewhere branches (fun _ h => by cases h)).bind
      fun found Q₁ _ hfound => ?_
    refine (behaves_inferExpr hscope helsewhere otherwise).bind fun t Q₂ hsub₂ ht => ?_
    exact behaves_joinType _ ht fun u hu => (hfound u hu).mono hsub₂
  | .caseOf scrutinee branches =>
    rw [inferKind]
    refine (behaves_inferExpr hscope helsewhere scrutinee).bind fun t Q₁ _ ht => ?_
    refine (behaves_inferCases hscope helsewhere branches ht (fun _ h => by cases h)).bind fun found Q₂ _ hfound =>
      behaves_of_plain fun hplain => behaves_pure ?_
    cases found with
    | none => exact Ty.within_unknown hplain
    | some u => exact hfound u rfl
  | .lambda params body =>
    rw [inferKind]
    refine (behaves_freshVars "a" params).bind fun types Q₁ _ htypes => ?_
    refine (behaves_pushScope (by simp)).bind fun _ Q₂ hsub₂ _ => ?_
    have htypes : ∀ t ∈ types, t.Within Q₂ := fun t h => (htypes t h).mono hsub₂
    refine (behaves_inferParams hscope params htypes).bind fun bound Q₃ hsub₃ hbound => ?_
    refine (behaves_bindAll _ hbound).bind fun _ Q₄ hsub₄ _ => ?_
    refine (behaves_deeper 1 fun Q' _ => behaves_inferExpr hscope helsewhere body).bind fun t Q₅ hsub₅ ht => ?_
    refine behaves_popScope.bind fun _ Q₆ hsub₆ _ => behaves_pure ?_
    have hsub := hsub₃.trans (hsub₄.trans (hsub₅.trans hsub₆))
    exact Ty.within_function (fun u h => (htypes u h).mono hsub) (Ty.Within.mono ht hsub₆)
  | .letIn definitions body =>
    rw [inferKind]
    refine (behaves_enterLet hscope helsewhere.body definitions).bind fun _ Q₁ _ _ => ?_
    refine (behaves_inferExpr hscope helsewhere body).bind fun t Q₂ _ ht => ?_
    exact behaves_popScope.bind fun _ _ hsub _ => behaves_pure (Ty.Within.mono ht hsub)

theorem behaves_inferAll {elsewhere : Elsewhere} (hscope : context.engine.scope.Frozen)
    (helsewhere : ElsewhereBehaves context elsewhere) (es : List Expr) {Q : Set Mention} :
    Behaves context Q (inferAll elsewhere es) OperandsAtHand := by
  match es with
  | [] =>
    rw [inferAll]
    exact behaves_pure (by simp)
  | e :: es =>
    rw [inferAll]
    refine (behaves_inferExpr hscope helsewhere e).bind fun t Q₁ _ ht => ?_
    refine (behaves_inferAll hscope helsewhere es).bind fun more Q₂ hsub₂ hmore => behaves_pure ?_
    exact List.forall_mem_cons.mpr ⟨Ty.Within.mono ht hsub₂, hmore⟩

theorem behaves_inferItems {elsewhere : Elsewhere} (hscope : context.engine.scope.Frozen)
    (helsewhere : ElsewhereBehaves context elsewhere) (es : List Expr) {first : Option Ty} {Q : Set Mention}
    (hfirst : MaybeAtHand Q first) : Behaves context Q (inferItems elsewhere first es) MaybeAtHand := by
  match es with
  | [] =>
    rw [inferItems]
    exact behaves_pure hfirst
  | e :: es =>
    rw [inferItems]
    refine (behaves_inferExpr hscope helsewhere e).bind fun t Q₁ hsub₁ ht => ?_
    refine (behaves_joinType _ ht fun u hu => (hfirst u hu).mono hsub₁).bind fun first Q₂ _ hfirst => ?_
    refine behaves_inferItems hscope helsewhere es fun u hu => ?_
    cases hu
    exact hfirst

theorem behaves_inferFields {elsewhere : Elsewhere} (hscope : context.engine.scope.Frozen)
    (helsewhere : ElsewhereBehaves context elsewhere) (fields : List (NameAt × Expr)) {Q : Set Mention} :
    Behaves context Q (inferFields elsewhere fields) (fun Q types => ∀ field ∈ types, field.2.Within Q) := by
  match fields with
  | [] =>
    rw [inferFields]
    exact behaves_pure (by simp)
  | (name, e) :: rest =>
    rw [inferFields]
    refine (behaves_inferExpr hscope helsewhere e).bind fun t Q₁ _ ht => ?_
    refine (behaves_inferFields hscope helsewhere rest).bind fun more Q₂ hsub₂ hmore => behaves_pure ?_
    exact List.forall_mem_cons.mpr ⟨Ty.Within.mono ht hsub₂, hmore⟩

theorem behaves_inferUpdates {elsewhere : Elsewhere} (hscope : context.engine.scope.Frozen)
    (helsewhere : ElsewhereBehaves context elsewhere) (basePos : Nat) (isRecord : Bool)
    (fields : List (NameAt × Expr)) {base : Ty} {Q : Set Mention} (hbase : base.Within Q) :
    Behaves context Q (inferUpdates elsewhere basePos base isRecord fields) Any := by
  match fields with
  | [] =>
    rw [inferUpdates]
    exact behaves_pure trivial
  | (name, e) :: rest =>
    rw [inferUpdates]
    refine (behaves_inferExpr hscope helsewhere e).bind fun t Q₁ hsub₁ ht => ?_
    have hbase := hbase.mono hsub₁
    split
    · refine (behaves_updateField basePos hbase name _ ht).bind fun isRecord Q₂ hsub₂ _ => ?_
      exact behaves_inferUpdates hscope helsewhere basePos isRecord rest (hbase.mono hsub₂)
    · exact behaves_inferUpdates hscope helsewhere basePos false rest hbase

theorem behaves_inferBranches {elsewhere : Elsewhere} (hscope : context.engine.scope.Frozen)
    (helsewhere : ElsewhereBehaves context elsewhere) (branches : List (Expr × Expr)) {first : Option Ty}
    {Q : Set Mention} (hfirst : MaybeAtHand Q first) :
    Behaves context Q (inferBranches elsewhere first branches) MaybeAtHand := by
  match branches with
  | [] =>
    rw [inferBranches]
    exact behaves_pure hfirst
  | (condition, branch) :: rest =>
    rw [inferBranches]
    refine (behaves_inferExpr hscope helsewhere condition).bind fun t Q₁ hsub₁ ht => ?_
    refine (behaves_check _ ht (Ty.within_named_nil _ _)).bind fun _ Q₂ hsub₂ _ => ?_
    refine (behaves_inferExpr hscope helsewhere branch).bind fun u Q₃ hsub₃ hu => ?_
    have hsub := hsub₁.trans (hsub₂.trans hsub₃)
    refine (behaves_joinType _ hu fun v hv => (hfirst v hv).mono hsub).bind fun first Q₄ _ hfirst => ?_
    refine behaves_inferBranches hscope helsewhere rest fun v hv => ?_
    cases hv
    exact hfirst

theorem behaves_inferCases {elsewhere : Elsewhere} (hscope : context.engine.scope.Frozen)
    (helsewhere : ElsewhereBehaves context elsewhere) (branches : List (Pattern × Expr)) {scrutinee : Ty}
    {first : Option Ty} {Q : Set Mention} (hscrutinee : scrutinee.Within Q) (hfirst : MaybeAtHand Q first) :
    Behaves context Q (inferCases elsewhere scrutinee first branches) MaybeAtHand := by
  match branches with
  | [] =>
    rw [inferCases]
    exact behaves_pure hfirst
  | (pattern, body) :: rest =>
    rw [inferCases]
    refine (behaves_pushScope (by simp)).bind fun _ Q₁ hsub₁ _ => ?_
    refine (behaves_inferPattern hscope .branch pattern (hscrutinee.mono hsub₁)).bind fun bound Q₂ hsub₂ hbound => ?_
    refine (behaves_bindAll _ hbound).bind fun _ Q₃ hsub₃ _ => ?_
    refine (behaves_inferExpr hscope helsewhere body).bind fun t Q₄ hsub₄ ht => ?_
    have hsub := hsub₁.trans (hsub₂.trans (hsub₃.trans hsub₄))
    refine (behaves_joinType _ ht fun u hu => (hfirst u hu).mono hsub).bind fun first Q₅ hsub₅ hfirst => ?_
    refine behaves_popScope.bind fun _ Q₆ hsub₆ _ => ?_
    refine behaves_inferCases hscope helsewhere rest (hscrutinee.mono (hsub.trans (hsub₅.trans hsub₆))) fun u hu => ?_
    cases hu
    exact Ty.Within.mono hfirst hsub₆

end

/-! ### Declarations -/

theorem behaves_mapKind (kind : ProblemKind) : Behaves context Q (kind.mapTypesM zonk) Any := by
  have hdiff : ∀ diff Q, Behaves context Q (ProblemKind.mapDiffM zonk diff) Any := by
    intro diff Q
    cases diff with
    | none => exact behaves_pure trivial
    | some diff => exact (behaves_mapDiff diff).bind fun _ _ _ _ => behaves_pure trivial
  cases kind with
  | typeMismatch found required diff =>
    refine (behaves_zonk_any _).bind fun _ _ _ _ => (behaves_zonk_any _).bind fun _ _ _ _ => ?_
    exact (hdiff diff _).bind fun _ _ _ _ => behaves_pure trivial
  | invalidPattern patternType required diff =>
    refine (behaves_zonk_any _).bind fun _ _ _ _ => (behaves_zonk_any _).bind fun _ _ _ _ => ?_
    exact (hdiff diff _).bind fun _ _ _ _ => behaves_pure trivial
  | typeMustBeRecord found => exact (behaves_zonk_any _).bind fun _ _ _ _ => behaves_pure trivial
  | fieldAccessOnNonRecord found => exact (behaves_zonk_any _).bind fun _ _ _ _ => behaves_pure trivial
  | _ => exact behaves_pure trivial

theorem behaves_finish (t : Ty) : Behaves context Q (finish t) (fun _ out => out.1.Frozen) := by
  refine behaves_getPass.bind fun pass Q₁ _ _ => ?_
  refine (behaves_mapM (V := Any) (fun _ _ _ _ _ => trivial) fun problem _ Q' _ => ?_).bind fun _ Q₂ _ _ => ?_
  · exact (behaves_mapKind _).bind fun _ _ _ _ => behaves_pure trivial
  refine (behaves_zonk_any t).bind fun ty Q₃ _ hty => ?_
  refine (behaves_mapM (V := fun _ (entry : NodeId × Ty) => entry.2.Frozen) (fun _ _ _ _ h => h)
    fun entry _ Q' _ => ?_).bind fun nodeTypes Q₄ _ hnodes => behaves_pure ⟨hty, hnodes⟩
  exact (behaves_zonk_any _).bind fun _ _ _ hz => behaves_pure hz

section Bodies

variable {inferBody : Expr → InferM Ty} (hscope : context.engine.scope.Frozen)
  (hbody : ∀ Q e, Behaves context Q (inferBody e) AtHand)

include hscope hbody

theorem behaves_inferTopFunction (name : NameAt) (params : List Pattern) (body : Expr)
    (signature : Option TypeExpr) :
    Behaves context Q (inferTopFunction inferBody name params body signature) Any := by
  cases signature with
  | some signature =>
    rw [inferTopFunction]
    refine (behaves_convertSignature signature (fun _ h => by cases h)).bind fun out Q₁ _ hout => ?_
    refine Behaves.bind (behaves_modifyPass (fun _ => rfl) fun p hp => ⟨hp.bindings, hout.2⟩) fun _ Q₂ hsub₂ _ => ?_
    have ht : out.1.Within Q₂ := hout.1.mono hsub₂
    have hchecking : ∀ entry ∈ [(name.name, Binding.checking (Scheme.closed out.1) (!params.isEmpty) 0)],
        entry.2.Within Q₂ := by
      intro entry hentry
      rw [List.mem_singleton.mp hentry]
      exact fun r hr => .inl (ht r hr)
    refine (behaves_pushScope hchecking).bind fun _ Q₃ hsub₃ _ => ?_
    refine (behaves_inferFunction hscope hbody name params body fun t heq => ?_).bind fun _ Q₄ _ _ => ?_
    · cases heq
      exact ht.mono hsub₃
    · exact behaves_popScope.bind fun _ _ _ _ => behaves_pure trivial
  | none =>
    rw [inferTopFunction]
    refine (behaves_freshVar "a").bind fun self Q₁ _ hself => ?_
    have hactive : ∀ entry ∈ [(name.name, Binding.active self (!params.isEmpty) 0)], entry.2.Within Q₁ := by
      intro entry hentry
      rw [List.mem_singleton.mp hentry]
      exact hself
    refine (behaves_pushScope hactive).bind fun _ Q₂ hsub₂ _ => ?_
    refine (behaves_inferFunction hscope hbody name params body fun _ h => by cases h).bind fun t Q₃ hsub₃ ht => ?_
    refine behaves_popScope.bind fun _ Q₄ hsub₄ _ => ?_
    have hself := Ty.Within.mono hself (hsub₂.trans (hsub₃.trans hsub₄))
    exact (behaves_check _ (Ty.Within.mono ht hsub₄) hself).bind fun _ _ _ _ => behaves_pure trivial

theorem behaves_inferTopPattern (pattern : Pattern) (body : Expr) :
    Behaves context Q (inferTopPattern inferBody pattern body) Any := by
  refine (behaves_pushScope (by simp)).bind fun _ Q₁ _ _ => ?_
  refine (behaves_inferDestructuring hscope hbody pattern body).bind fun out Q₂ _ hout => ?_
  refine (behaves_bindAll _ hout.2).bind fun _ Q₃ _ _ => ?_
  exact behaves_popScope.bind fun _ _ _ _ => behaves_pure trivial

theorem behaves_inferDeclaration (decl : ValueDecl) :
    Behaves context Q (inferDeclaration inferBody decl) (fun _ outcome => FrozenOutcome outcome) := by
  have hrest : ∀ t Q, Behaves context Q (do
      if (← getPass).cancelled then return .error .cancelled
      return .ok (← finish t) : InferM (Except InferError Inferred)) (fun _ outcome => FrozenOutcome outcome) := by
    intro t Q
    refine behaves_getPass.bind fun pass Q₁ _ _ => ?_
    split
    · exact behaves_pure fun _ _ h => by cases h
    · refine (behaves_finish t).bind fun out Q₂ _ hout => behaves_pure fun result recursive heq => ?_
      cases heq
      exact hout
  unfold inferDeclaration
  split
  · exact (behaves_inferTopFunction hscope hbody _ _ _ _).bind fun t Q₁ _ _ => hrest t Q₁
  · exact (behaves_inferTopPattern hscope hbody _ _).bind fun t Q₁ _ _ => hrest t Q₁

end Bodies

end InferM

theorem Session.Frozen.orderly {session : Session} (h : session.Frozen) :
    Work.Orderly ⟨session, {}⟩ {r | r.node? = none} :=
  ⟨orderly_empty, ⟨by simp, fun _ h => by cases h⟩, h⟩

namespace SessionM

variable {engine : Engine} {inferBody : Expr → InferM Ty}

/-- A pass of its own starts from an empty store, so an orderly session is all that it needs. -/
theorem behaves_inferTopLevel (hscope : engine.scope.Frozen)
    (hbody : ∀ current Q e, InferM.Behaves ⟨engine, current⟩ Q (inferBody e) InferM.AtHand) (index : Nat)
    (decl : ValueDecl) : Behaves engine (inferTopLevel inferBody index decl) InferM.FrozenOutcome := by
  intro session outcome session' hsession hrun
  have hpass : ∀ s out w, s.cache.Keeps InferenceResult.Frozen DeclaredType.Frozen →
      InferM.inferDeclaration inferBody decl ⟨engine, index⟩ ⟨s, {}⟩ = (.ok out, w) →
        w.session.cache.Keeps InferenceResult.Frozen DeclaredType.Frozen ∧ InferM.FrozenOutcome out := by
    intro s out w hs hdecl
    have hstart := (Session.frozen_iff.mpr hs).orderly
    obtain ⟨Q, -, hw, hout⟩ := InferM.behaves_inferDeclaration hscope (hbody index) decl _ _ _ hstart hdecl
    exact ⟨Session.frozen_iff.mp hw.session, hout⟩
  obtain ⟨hafter, hout⟩ := keeps_inferTopLevel (Session.frozen_iff.mp hsession) hpass hrun
  exact ⟨Session.frozen_iff.mpr hafter, hout⟩

end SessionM

/-- Inferring an expression keeps the state in order, however deep definitions and declarations are entered. -/
theorem InferM.behaves_exprAt (n : Nat) {context : Context} (hscope : context.engine.scope.Frozen) (Q : Set Mention)
    (e : Expr) : Behaves context Q (exprAt n e) AtHand := by
  induction n generalizing context Q e with
  | zero => exact behaves_throw
  | succ n ih =>
    refine behaves_inferExpr hscope ⟨fun Q e => ih hscope Q e, fun index decl => ?_⟩ e
    exact SessionM.behaves_inferTopLevel hscope (fun current => @ih ⟨context.engine, current⟩ hscope) index decl

end ElmInference
