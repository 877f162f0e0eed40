import ElmInference.Proofs.Infer.Conduct

/-!
# Patterns, references and definitions keep the state in order

Patterns bind names to types that are at hand, references look types up that are at hand or copy them with new
variables, and a `let` brings its definitions into scope. What lies elsewhere, the bodies of definitions and other
declarations, is assumed to behave.
-/

namespace ElmInference

open Store

variable {Q Q' : Set Mention}

/-! ### Parts of types -/

namespace Ty

theorem within_named_nil (m n : Name) : (Ty.named m n []).Within Q :=
  within_union.mpr (by simp)

theorem within_list {item : Ty} (h : item.Within Q) : (Ty.list item).Within Q :=
  within_union.mpr (by simpa using h)

theorem within_allParams {t : Ty} (h : t.Within Q) : ∀ u ∈ t.allParams, u.Within Q := by
  induction t using Ty.inductParts with
  | arrow params ret w _ ihr _ =>
    obtain ⟨hparams, hret⟩ := within_arrow.mp h
    intro u hu
    rcases List.mem_append.mp (by simpa only [allParams] using hu) with hu | hu
    · exact hparams u hu
    · exact ihr hret u hu
  | _ => simp [allParams]

theorem within_applyParams {t : Ty} (count : Nat) (h : t.Within Q) : (t.applyParams count).Within Q := by
  induction t using Ty.inductParts generalizing count with
  | arrow params ret w _ ihr _ =>
    cases count with
    | zero => simpa only [applyParams] using h
    | succ count =>
      obtain ⟨hparams, hret⟩ := within_arrow.mp h
      rw [applyParams]
      split
      · exact h
      · split
        · exact within_function (fun u hu => hparams u (List.mem_of_mem_drop hu)) hret
        · exact ihr _ hret
  | _ => cases count <;> simpa only [applyParams] using h

end Ty

/-! ### What names refer to -/

namespace ModuleScope

theorem mem_of_mem_preferLocal {α : Type} {own others : List α} {a : α} (h : a ∈ preferLocal own others) :
    a ∈ own ∨ a ∈ others := by
  unfold preferLocal at h
  split at h
  · exact .inr h
  · exact .inl h

theorem Frozen.external {scope : ModuleScope} (h : scope.Frozen) {r : Ref} {t : Ty}
    (hmem : .external t ∈ scope.findValues r) : t.Frozen := by
  rcases mem_of_mem_preferLocal hmem with hown | hother
  · split at hown
    · obtain ⟨⟨decl, index⟩, -, hoffered⟩ := List.mem_filterMap.mp hown
      cases decl <;> simp [offeredValue] at hoffered
    · cases hown
  · obtain ⟨v, hv, heq⟩ := List.mem_map.mp hother
    cases heq
    exact h.values v (List.mem_of_mem_filter hv)

theorem Frozen.operator {scope : ModuleScope} (h : scope.Frozen) {name : Name} {target : OperatorTarget} {t : Ty}
    (hmem : target ∈ scope.findOperators name) (ht : target.function = .external t) : t.Frozen := by
  rcases mem_of_mem_preferLocal hmem with hown | hother
  · obtain ⟨decl, -, hoffered⟩ := List.mem_filterMap.mp hown
    cases decl with
    | fixity decl =>
      simp only [offeredOperator] at hoffered
      split at hoffered
      · obtain ⟨function, hunique, rfl⟩ := Option.map_eq_some_iff.mp hoffered
        have hfound : scope.findValues decl.function = [function] := by
          unfold unique? at hunique
          split at hunique
          · next heq =>
            cases hunique
            exact heq
          · cases hunique
        refine h.external (r := decl.function) ?_
        rw [hfound, ← ht]
        exact List.mem_singleton_self _
      · cases hoffered
    | _ => cases hoffered
  · obtain ⟨o, ho, rfl⟩ := List.mem_map.mp hother
    cases ht
    exact h.operators o (List.mem_of_mem_filter ho)

end ModuleScope

/-! ### Types of finished declarations -/

namespace InferenceResult

theorem Frozen.typeOf? {r : InferenceResult} (h : r.Frozen) {id : NodeId} {t : Ty} (ht : r.typeOf? id = some t) :
    t.Frozen :=
  h.nodeTypes _ (Assoc.mem_of_get? ht)

mutual

/-- The type that a pattern gives to a name has been recorded, is that of a field of a recorded type, or is unknown. -/
theorem boundType?_cases {r : InferenceResult} (name : Name) (p : Pattern) {t : Ty} (ht : r.boundType? name p = some t) :
    (∃ id, r.typeOf? id = some t) ∨
      (∃ id fields base w refs, r.typeOf? id = some (.record fields base w refs) ∧ (name, t) ∈ fields) ∨
      t = .unknown := by
  match p with
  | .mk id _ (.var other) =>
    rw [InferenceResult.boundType?] at ht
    split at ht
    · exact .inl ⟨id, ht⟩
    · cases ht
  | .mk id _ (.record fields) =>
    rw [InferenceResult.boundType?] at ht
    split at ht
    · cases ht
    · next u hu =>
      split at ht
      · split at ht
        · next inner base w refs => exact .inr (.inl ⟨id, inner, base, w, refs, hu, Assoc.mem_of_get? ht⟩)
        · cases ht
          exact .inr (.inr rfl)
      · cases ht
  | .mk id _ (.named pattern other) =>
    rw [InferenceResult.boundType?] at ht
    split at ht
    · exact .inl ⟨id, ht⟩
    · exact boundType?_cases name pattern ht
  | .mk _ _ (.tuple items) | .mk _ _ (.list items) | .mk _ _ (.cons items) | .mk _ _ (.constructor _ items) =>
    rw [InferenceResult.boundType?] at ht
    exact boundTypeList?_cases name items ht
  | .mk _ _ .any | .mk _ _ .unit | .mk _ _ (.literal _) =>
    rw [InferenceResult.boundType?] at ht
    cases ht

theorem boundTypeList?_cases {r : InferenceResult} (name : Name) (ps : List Pattern) {t : Ty}
    (ht : r.boundTypeList? name ps = some t) :
    (∃ id, r.typeOf? id = some t) ∨
      (∃ id fields base w refs, r.typeOf? id = some (.record fields base w refs) ∧ (name, t) ∈ fields) ∨
      t = .unknown := by
  match ps with
  | [] =>
    rw [InferenceResult.boundTypeList?] at ht
    cases ht
  | p :: ps =>
    rw [InferenceResult.boundTypeList?] at ht
    split at ht
    · next hp =>
      cases ht
      exact boundType?_cases name p hp
    · exact boundTypeList?_cases name ps ht

end

theorem Frozen.boundType? {r : InferenceResult} (h : r.Frozen) (name : Name) (p : Pattern) {t : Ty}
    (ht : r.boundType? name p = some t) : t.Frozen := by
  rcases boundType?_cases name p ht with ⟨_, ht⟩ | ⟨_, fields, base, w, refs, hrecord, hfield⟩ | rfl
  · exact h.typeOf? ht
  · intro id hid
    refine h.typeOf? hrecord id ?_
    simp only [Ty.mentions, List.mem_append, Ty.mem_mentionsFields]
    exact .inl ⟨(name, t), hfield, .inr hid⟩
  · intro id hid
    simp [Ty.mentions] at hid

end InferenceResult

namespace InferM

variable {α : Type} {context : Context}

theorem frozen_resultType {r : InferenceResult} (h : r.Frozen) (decl : ValueDecl) (name : Name) :
    (resultType decl name r).Frozen := by
  unfold resultType
  split
  · exact h.ty
  · next pattern _ =>
    cases hbound : r.boundType? name pattern with
    | some t => exact h.boundType? name pattern hbound
    | none =>
      intro id hid
      simp [Ty.mentions] at hid

abbrev BoundAtHand : Set Mention → Bound → Prop := fun Q bound => ∀ entry ∈ bound, entry.2.Within Q

/-! ### Patterns -/

theorem behaves_literalType (kind : Literal) : Behaves context Q (literalType kind) AtHand := by
  cases kind with
  | int => exact behaves_freshVar _
  | float | char | string => exact behaves_pure (Ty.within_named_nil _ _)

theorem behaves_checkPattern (pos : Nat) {t u : Ty} (ht : t.Within Q) (hu : u.Within Q) :
    Behaves context Q (checkPattern pos t u) Any := by
  refine (behaves_unify ht hu).bind fun o Q₁ _ _ => ?_
  have hrest : ∀ diff Q, Behaves context Q (do
      let patternType ← zonk t
      let required ← zonk u
      report pos (.invalidPattern patternType required diff)
      return false : InferM Bool) Any :=
    fun diff Q => (behaves_zonk_any _).bind fun _ _ _ _ => (behaves_zonk_any _).bind fun _ _ _ _ =>
      behaves_reported_false _ _
  split
  · exact behaves_pure trivial
  · exact behaves_reported_false _ _
  · split
    · exact (behaves_mapDiff _).bind fun _ _ _ _ => hrest _ _
    · exact hrest _ _

theorem behaves_partialPattern (pos : Nat) (place : PatternPlace) :
    Behaves context Q (partialPattern pos place) Any := by
  unfold partialPattern
  split
  · exact behaves_report _ _
  · exact behaves_pure trivial

abbrev ConstructorAtHand : Set Mention → Option (List Ty × Ty) → Prop := fun Q found =>
  ∀ args t, found = some (args, t) → (∀ u ∈ args, u.Within Q) ∧ t.Within Q

theorem behaves_unionType (m : Name) (decl : UnionDecl) : Behaves context Q
    (session (SessionM.withTypes (TypeTable.unionType context.engine.scope m decl))) (fun _ d => d.Frozen) :=
  behaves_session (SessionM.behaves_withTypes fun _ htable =>
    TypeTable.frozen_unionType context.engine.scope m decl htable)

theorem behaves_variant {d : DeclaredType} (h : d.Frozen) (index : Nat) :
    Behaves context Q (allocate (d.variant? index)) ConstructorAtHand := by
  refine behaves_of_plain fun hplain => behaves_allocate fun s _ => ?_
  exact h.variant? index s hplain

theorem behaves_external {t : Ty} (h : t.Frozen) :
    Behaves context Q (instantiate (Scheme.closed t)) AtHand :=
  behaves_of_plain fun hplain => behaves_instantiate (Scheme.within_closed h hplain)

theorem behaves_constructorTypes (hscope : context.engine.scope.Frozen) (name : Ref) :
    Behaves context Q (constructorTypes name) ConstructorAtHand := by
  refine (behaves_session (SessionM.behaves_findValues name)).bind fun targets Q₁ _ htargets => ?_
  split
  · refine behaves_engine.bind fun engine Q₂ _ hengine => ?_
    subst hengine
    exact (behaves_unionType _ _).bind fun d Q₃ _ hd => behaves_variant hd _
  · have hfrozen := hscope.external (r := name) (by rw [← htargets]; exact List.mem_singleton_self _)
    refine (behaves_external hfrozen).bind fun t Q₂ _ ht => ?_
    split
    · refine behaves_pure fun args u heq => ?_
      cases heq
      exact Ty.within_arrow.mp ht
    · refine behaves_pure fun args u heq => ?_
      cases heq
      exact ⟨by simp, ht⟩
  · exact behaves_pure fun _ _ h => by cases h

theorem forall_ifFits {V : Ty → Prop} {types : List Ty} (fits : Bool) (h : ∀ t ∈ types, V t) :
    ∀ t ∈ ifFits fits types, V t := by
  unfold ifFits
  split
  · exact h
  · simp

/-- The parts of `a :: b :: c` are items, but for the last one. -/
theorem eq_of_mem_partTypes {n : Nat} {item u : Ty} (h : u ∈ List.replicate n item ++ [Ty.list item]) :
    u = item ∨ u = .list item :=
  (List.mem_append.mp h).imp (fun h => (List.mem_replicate.mp h).2) List.mem_singleton.mp

/-- Recording the type of a pattern is the last that is done for it. -/
theorem behaves_recorded (id : NodeId) (t : Ty) {bound : Bound} (h : BoundAtHand Q bound) :
    Behaves context Q (do record id t; return bound : InferM Bound) BoundAtHand :=
  (behaves_record id t).bind fun _ _ hsub _ => behaves_pure fun entry hentry => (h entry hentry).mono hsub

/-- What is left of a pattern of a list once its parts are seen to. -/
theorem behaves_listPattern (place : PatternPlace) (id : NodeId) (pos : Nat) {parts : List Pattern} (types : Ty → List Ty)
    {t : Ty} (ht : t.Within Q) (htypes : ∀ item, ∀ u ∈ types item, u = item ∨ u = .list item)
    (hparts : ∀ Q ts, (∀ u ∈ ts, u.Within Q) → Behaves context Q (inferPatterns place parts ts) BoundAtHand) :
    Behaves context Q (do
      partialPattern pos place
      let item ← freshVar "a"
      let fits ← checkPattern pos (.list item) t
      let bound ← inferPatterns place parts (ifFits fits (types item))
      record id t
      return bound : InferM Bound) BoundAtHand := by
  refine (behaves_partialPattern pos place).bind fun _ Q₁ hsub₁ _ => ?_
  refine (behaves_freshVar "a").bind fun item Q₂ hsub₂ hitem => ?_
  refine (behaves_checkPattern pos (Ty.within_list hitem) (ht.mono (hsub₁.trans hsub₂))).bind fun fits Q₃ hsub₃ _ => ?_
  have hitem : item.Within Q₃ := Ty.Within.mono hitem hsub₃
  refine (hparts Q₃ _ (forall_ifFits fits fun u hu => ?_)).bind fun bound Q₄ _ hbound => behaves_recorded id t hbound
  rcases htypes item u hu with rfl | rfl
  · exact hitem
  · exact Ty.within_list hitem

mutual

theorem behaves_inferPattern (hscope : context.engine.scope.Frozen) (place : PatternPlace) (p : Pattern) {t : Ty}
    {Q : Set Mention} (ht : t.Within Q) : Behaves context Q (inferPattern place p t) BoundAtHand := by
  match p with
  | .mk id pos .any =>
    rw [inferPattern]
    exact behaves_recorded id t (by simp)
  | .mk id pos (.var name) =>
    rw [inferPattern]
    exact behaves_recorded id t (by simpa using ht)
  | .mk id pos .unit =>
    rw [inferPattern]
    exact (behaves_checkPattern pos (by simp [Ty.Within, Ty.mentions]) ht).bind fun _ _ _ _ =>
      behaves_recorded id t (by simp)
  | .mk id pos (.literal kind) =>
    rw [inferPattern]
    refine (behaves_partialPattern pos place).bind fun _ Q₁ hsub₁ _ => ?_
    refine (behaves_literalType kind).bind fun u Q₂ hsub₂ hu => ?_
    exact (behaves_checkPattern pos hu (ht.mono (hsub₁.trans hsub₂))).bind fun _ _ _ _ =>
      behaves_recorded id t (by simp)
  | .mk id pos (.tuple items) =>
    rw [inferPattern]
    refine (behaves_freshVars "a" items).bind fun types Q₁ hsub₁ htypes => ?_
    refine (behaves_checkPattern pos (Ty.within_tuple.mpr htypes) (ht.mono hsub₁)).bind fun fits Q₂ hsub₂ _ => ?_
    refine (behaves_inferPatterns hscope place items
      (forall_ifFits fits fun u hu => (htypes u hu).mono hsub₂)).bind fun bound Q₃ _ hbound => ?_
    exact behaves_recorded id t hbound
  | .mk id pos (.list items) =>
    rw [inferPattern]
    refine behaves_listPattern place id pos (fun item => items.map fun _ => item) ht (fun item u hu => ?_)
      fun Q ts hts => behaves_inferPatterns hscope place items hts
    exact .inl (List.eq_of_mem_map_const hu)
  | .mk id pos (.cons parts) =>
    rw [inferPattern]
    exact behaves_listPattern place id pos (fun item => List.replicate (parts.length - 1) item ++ [Ty.list item]) ht
      (fun _ _ => eq_of_mem_partTypes) fun Q ts hts => behaves_inferPatterns hscope place parts hts
  | .mk id pos (.record fields) =>
    rw [inferPattern]
    refine (behaves_freshVars "a" fields).bind fun types Q₁ hsub₁ htypes => ?_
    refine (behaves_freshVar "b").bind fun base Q₂ hsub₂ hbase => behaves_of_plain fun hplain => ?_
    have hrecord : (Ty.recordWith ((fields.map NameAt.name).zip types) (some base)
        (fields.foldl (fun refs field => refs.add field.name field.pos) FieldReferences.empty)).Within Q₂ := by
      refine Ty.within_recordWith (fun field hfield => ⟨hplain _ rfl, ?_⟩) (fun b hb => ?_)
      · exact (htypes _ (List.of_mem_zip hfield).2).mono hsub₂
      · cases hb
        exact hbase
    refine (behaves_checkPattern pos hrecord (ht.mono (hsub₁.trans hsub₂))).bind fun fits Q₃ hsub₃ _ => ?_
    refine behaves_of_plain fun hplain => behaves_recorded id t fun entry hentry => ?_
    have hentry := (List.of_mem_zip (a := entry.1) (b := entry.2) hentry).2
    split at hentry
    · exact (htypes _ hentry).mono (hsub₂.trans hsub₃)
    · obtain ⟨_, -, heq⟩ := List.mem_map.mp hentry
      rw [← heq]
      exact Ty.within_unknown hplain
  | .mk id pos (.constructor name args) =>
    rw [inferPattern]
    have hrest : ∀ Q ts, (∀ u ∈ ts, u.Within Q) → Behaves context Q (do
        let bound ← inferPatterns place args ts
        record id t
        return bound : InferM Bound) BoundAtHand := fun Q ts hts =>
      (behaves_inferPatterns hscope place args hts).bind fun bound _ _ hbound => behaves_recorded id t hbound
    refine (behaves_constructorTypes hscope name).bind fun found Q₁ hsub₁ hfound => ?_
    split
    · exact hrest _ _ (by simp)
    · next params u =>
      obtain ⟨hparams, hu⟩ := hfound params u rfl
      split
      · exact (behaves_report _ _).bind fun _ _ _ _ => hrest _ _ (by simp)
      · refine (behaves_checkPattern pos hu (ht.mono hsub₁)).bind fun fits Q₂ hsub₂ _ => hrest _ _ ?_
        exact forall_ifFits fits fun v hv => (hparams v hv).mono hsub₂
  | .mk id pos (.named pattern name) =>
    rw [inferPattern]
    refine (behaves_inferPattern hscope place pattern ht).bind fun bound Q₁ hsub₁ hbound => ?_
    refine (behaves_record id t).bind fun _ Q₂ hsub₂ _ => behaves_pure fun entry hentry => ?_
    rcases List.mem_append.mp hentry with hentry | hentry
    · exact (hbound entry hentry).mono hsub₂
    · rw [List.mem_singleton.mp hentry]
      exact ht.mono (hsub₁.trans hsub₂)

theorem behaves_inferPatterns (hscope : context.engine.scope.Frozen) (place : PatternPlace) (ps : List Pattern)
    {ts : List Ty} {Q : Set Mention} (hts : ∀ t ∈ ts, t.Within Q) :
    Behaves context Q (inferPatterns place ps ts) BoundAtHand := by
  match ps with
  | [] =>
    rw [inferPatterns]
    exact behaves_pure (by simp)
  | p :: ps =>
    rw [inferPatterns]
    refine behaves_of_plain fun hplain => ?_
    have hhead : (ts.head?.getD .unknown).Within Q := by
      cases ts with
      | nil => exact Ty.within_unknown hplain
      | cons t ts => exact hts t List.mem_cons_self
    refine (behaves_inferPattern hscope place p hhead).bind fun bound Q₁ hsub₁ hbound => ?_
    have htail : ∀ t ∈ ts.tail, t.Within Q₁ := fun t ht => (hts t (List.mem_of_mem_tail ht)).mono hsub₁
    refine (behaves_inferPatterns hscope place ps htail).bind fun more Q₂ hsub₂ hmore => behaves_pure ?_
    intro entry hentry
    rcases List.mem_append.mp hentry with hentry | hentry
    · exact (hbound entry hentry).mono hsub₂
    · exact hmore entry hentry

end

/-! ### Functions and definitions -/

theorem behaves_expectedParams (name : NameAt) (params : List Pattern) {signature : Option Ty}
    (h : ∀ t, signature = some t → t.Within Q) :
    Behaves context Q (expectedParams name params signature) (fun Q found => ∀ ts, found = some ts →
      ∀ t ∈ ts, t.Within Q) := by
  cases signature with
  | none => exact behaves_pure fun _ h => by cases h
  | some t =>
    rw [expectedParams]
    split
    · exact (behaves_report _ _).bind fun _ _ _ _ => behaves_pure fun _ h => by cases h
    · refine behaves_pure fun ts heq u hu => ?_
      cases heq
      exact Ty.within_allParams (h t rfl) u (List.mem_of_mem_take hu)

theorem behaves_inferParams (hscope : context.engine.scope.Frozen) (ps : List Pattern) {ts : List Ty}
    (hts : ∀ t ∈ ts, t.Within Q) : Behaves context Q (inferParams ps ts) BoundAtHand := by
  induction ps generalizing ts Q with
  | nil =>
    rw [inferParams]
    · exact behaves_pure (by simp)
    · exact fun _ _ _ _ h => by cases h
  | cons p ps ih =>
    cases ts with
    | nil =>
      rw [inferParams]
      · exact behaves_pure (by simp)
      · exact fun _ _ _ _ _ h => by cases h
    | cons t ts =>
      obtain ⟨ht, hts⟩ := List.forall_mem_cons.mp hts
      rw [inferParams]
      refine (behaves_inferPattern hscope .parameter p ht).bind fun bound Q₁ hsub₁ hbound => ?_
      refine (ih fun u hu => (hts u hu).mono hsub₁).bind fun more Q₂ hsub₂ hmore => behaves_pure ?_
      intro entry hentry
      rcases List.mem_append.mp hentry with hentry | hentry
      · exact (hbound entry hentry).mono hsub₂
      · exact hmore entry hentry

theorem behaves_deeper (levels : Nat) {work : InferM Ty} (h : ∀ Q', Q ⊆ Q' → Behaves context Q' work AtHand) :
    Behaves context Q (deeper levels work) AtHand := by
  refine Behaves.bind (behaves_modifyRest fun _ => ⟨rfl, rfl, rfl⟩) fun _ Q₁ hsub₁ _ => ?_
  refine (h Q₁ hsub₁).bind fun t Q₂ _ ht => ?_
  refine Behaves.bind (behaves_modifyRest fun _ => ⟨rfl, rfl, rfl⟩) fun _ Q₃ hsub₃ _ => ?_
  exact behaves_pure (Ty.Within.mono ht hsub₃)

section Bodies

variable {inferBody : Expr → InferM Ty} (hscope : context.engine.scope.Frozen)
  (hbody : ∀ Q e, Behaves context Q (inferBody e) AtHand)

include hscope hbody

theorem behaves_inferFunction (name : NameAt) (params : List Pattern) (body : Expr) {signature : Option Ty}
    (h : ∀ t, signature = some t → t.Within Q) :
    Behaves context Q (inferFunction inferBody name params body signature) AtHand := by
  -- All but the last step is the same with and without a signature.
  have hrest : ∀ (last : Ty → InferM Ty) (types : List Ty) Q₁, (∀ t ∈ types, t.Within Q₁) →
      (∀ t Q₂, Q₁ ⊆ Q₂ → t.Within Q₂ → Behaves context Q₂ (last t) AtHand) →
      Behaves context Q₁ (do
        pushScope []
        let bound ← inferParams params types
        bindAll [name.name] bound
        let bodyType ← deeper (if params.isEmpty then 0 else 1) (inferBody body)
        popScope
        last bodyType) AtHand := by
    intro last types Q₁ htypes hlast
    refine (behaves_pushScope (by simp)).bind fun _ Q₂ hsub₂ _ => ?_
    refine (behaves_inferParams hscope params fun t ht => (htypes t ht).mono hsub₂).bind
      fun bound Q₃ hsub₃ hbound => ?_
    refine (behaves_bindAll _ hbound).bind fun _ Q₄ hsub₄ _ => ?_
    refine (behaves_deeper _ fun Q' _ => hbody Q' body).bind fun bodyType Q₅ hsub₅ hbodyType => ?_
    refine behaves_popScope.bind fun _ Q₆ hsub₆ _ => ?_
    exact hlast bodyType Q₆ (hsub₂.trans (hsub₃.trans (hsub₄.trans (hsub₅.trans hsub₆))))
      (Ty.Within.mono hbodyType hsub₆)
  refine (behaves_expectedParams name params h).bind fun expected Q₁ hsub₁ hexpected => ?_
  cases expected with
  | some types =>
    refine (behaves_pure (V := AllAtHand) (hexpected types rfl)).bind fun types Q₂ hsub₂ htypes =>
      hrest _ types Q₂ htypes fun t Q₃ hsub₃ ht => ?_
    cases signature with
    | some signature =>
      have hsignature := (h signature rfl).mono (hsub₁.trans (hsub₂.trans hsub₃))
      exact (behaves_check _ ht (Ty.within_applyParams _ hsignature)).bind
        fun _ _ hsub₄ _ => behaves_pure (hsignature.mono hsub₄)
    | none => exact behaves_pure (Ty.within_function (fun t ht => (htypes t ht).mono hsub₃) ht)
  | none =>
    refine (behaves_freshVars "a" params).bind fun types Q₂ hsub₂ htypes =>
      hrest _ types Q₂ htypes fun t Q₃ hsub₃ ht => ?_
    cases signature with
    | some signature => exact behaves_pure ((h signature rfl).mono (hsub₁.trans (hsub₂.trans hsub₃)))
    | none => exact behaves_pure (Ty.within_function (fun t ht => (htypes t ht).mono hsub₃) ht)

theorem behaves_inferDestructuring (pattern : Pattern) (body : Expr) :
    Behaves context Q (inferDestructuring inferBody pattern body)
      (fun Q out => out.1.Within Q ∧ BoundAtHand Q out.2) := by
  refine (hbody Q body).bind fun t Q₁ _ ht => ?_
  refine (behaves_inferPattern hscope .declaration pattern ht).bind fun bound Q₂ hsub₂ hbound => ?_
  exact behaves_pure ⟨Ty.Within.mono ht hsub₂, hbound⟩

omit hscope hbody

theorem behaves_hidingScopes (inner : Nat) {work : InferM Unit} (h : ∀ Q', Q ⊆ Q' → Behaves context Q' work Any) :
    Behaves context Q (hidingScopes inner work) Any := by
  refine behaves_getPass.bind fun pass Q₁ hsub₁ hpass => ?_
  refine Behaves.bind (behaves_modifyPass (fun _ => rfl) fun p hp => ⟨fun scope hscope =>
    hp.bindings scope (List.mem_of_mem_drop hscope), hp.typeVars⟩) fun _ Q₂ hsub₂ _ => ?_
  refine (h Q₂ (hsub₁.trans hsub₂)).bind fun _ Q₃ hsub₃ _ => ?_
  refine Behaves.bind (behaves_modifyPass (fun _ => rfl) fun p hp => ⟨fun scope hscope => ?_, hp.typeVars⟩)
    fun _ _ _ _ => behaves_pure trivial
  rcases List.mem_append.mp hscope with hscope | hscope
  · exact (hpass.mono (hsub₂.trans hsub₃)).bindings scope (List.mem_of_mem_take hscope)
  · exact hp.bindings scope hscope

theorem behaves_bindGeneralized {bound : Bound} (h : BoundAtHand Q bound) :
    Behaves context Q (bindGeneralized bound) Any := by
  induction bound generalizing Q with
  | nil => exact behaves_pure trivial
  | cons entry rest ih =>
    obtain ⟨name, t⟩ := entry
    obtain ⟨ht, hrest⟩ := List.forall_mem_cons.mp h
    rw [bindGeneralized]
    refine (behaves_generalize ht).bind fun scheme Q₁ hsub₁ hscheme => ?_
    have hbinding : (Binding.poly scheme).Within Q₁ := hscheme
    refine (behaves_bind _ hbinding).bind fun _ Q₂ hsub₂ _ => ?_
    exact ih fun entry hentry => (hrest entry hentry).mono (hsub₁.trans hsub₂)

include hscope hbody

omit hscope hbody in
/-- A definition up to the point where its names are generalized. -/
def definitionTypes (inferBody : Expr → InferM Ty) (definition : ValueDecl) (depth : Nat) : InferM Bound := do
  match definition.head with
  | .function name params =>
    let self ← freshVar "a"
    bind name.name (.active self (!params.isEmpty) depth)
    let t ← inferFunction inferBody name params definition.body none
    let _ ← check name.pos t self
    unbind name.name
    return [(name, t)]
  | .pattern pattern =>
    let names := pattern.boundNames
    names.forM (fun name => bind name.name (.mono .inProgress))
    let (_, bound) ← inferDestructuring inferBody pattern definition.body
    names.forM (fun name => unbind name.name)
    return bound

omit hscope hbody in
theorem inferDefinition_eq (definition : ValueDecl) (depth : Nat) :
    inferDefinition inferBody definition depth = definitionTypes inferBody definition depth >>= bindGeneralized := by
  obtain ⟨pos, signature, head, body⟩ := definition
  cases head with
  | function name params => simp [inferDefinition, definitionTypes, bindGeneralized]
  | pattern pattern => simp [inferDefinition, definitionTypes]

theorem behaves_definitionTypes (definition : ValueDecl) (depth : Nat) :
    Behaves context Q (definitionTypes inferBody definition depth) BoundAtHand := by
  unfold definitionTypes
  split
  · next name params _ =>
    refine (behaves_freshVar "a").bind fun self Q₁ _ hself => ?_
    have hactive : (Binding.active self (!params.isEmpty) depth).Within Q₁ := hself
    refine (behaves_bind _ hactive).bind fun _ Q₂ hsub₂ _ => ?_
    refine (behaves_inferFunction hscope hbody name params _ fun _ h => by cases h).bind fun t Q₃ hsub₃ ht => ?_
    refine (behaves_check _ ht (Ty.Within.mono hself (hsub₂.trans hsub₃))).bind fun _ Q₄ hsub₄ _ => ?_
    refine (behaves_unbind _).bind fun _ Q₅ hsub₅ _ => behaves_pure fun entry hentry => ?_
    rw [List.mem_singleton.mp hentry]
    exact Ty.Within.mono ht (hsub₄.trans hsub₅)
  · next pattern _ =>
    refine behaves_of_plain fun hplain => ?_
    refine (behaves_forM fun name _ Q' hsub => ?_).bind fun _ Q₁ _ _ => ?_
    · have hmono : (Binding.mono .inProgress).Within Q' := by
        intro r hr
        rw [List.mem_singleton.mp hr]
        exact hsub (hplain _ rfl)
      exact behaves_bind _ hmono
    refine (behaves_inferDestructuring hscope hbody pattern _).bind fun out Q₂ _ hout => ?_
    refine (behaves_forM fun name _ Q' _ => behaves_unbind _).bind fun _ Q₃ hsub₃ _ => behaves_pure ?_
    exact fun entry hentry => (hout.2 entry hentry).mono hsub₃

theorem behaves_inferDefinition (definition : ValueDecl) (depth : Nat) :
    Behaves context Q (inferDefinition inferBody definition depth) Any := by
  rw [inferDefinition_eq]
  exact (behaves_definitionTypes hscope hbody definition depth).bind fun _ _ _ hbound => behaves_bindGeneralized hbound

theorem behaves_inferPending (inner : Nat) (definition : ValueDecl) (depth : Nat) :
    Behaves context Q (inferPending inferBody inner definition depth) Any := by
  refine behaves_hidingScopes inner fun Q₁ _ => ?_
  refine behaves_getPass.bind fun pass Q₂ _ _ => ?_
  refine Behaves.bind (behaves_modifyRest fun _ => ⟨rfl, rfl, rfl⟩) fun _ Q₃ _ _ => ?_
  refine (behaves_inferDefinition hscope hbody definition depth).bind fun _ Q₄ _ _ => ?_
  exact behaves_modifyRest fun _ => ⟨rfl, rfl, rfl⟩

end Bodies

/-! ### References -/

theorem behaves_useBinding (pos : Nat) {binding : Binding} (h : binding.Within Q) :
    Behaves context Q (useBinding pos binding) AtHand := by
  unfold useBinding
  split
  · exact behaves_reported_unknown _ _
  · exact behaves_pure h
  · exact behaves_instantiate h
  · refine behaves_getPass.bind fun pass Q₁ hsub₁ _ => ?_
    split
    · exact behaves_reported_unknown _ _
    · exact behaves_instantiate (Scheme.Within.mono h hsub₁)
  · refine behaves_getPass.bind fun pass Q₁ hsub₁ _ => ?_
    split
    · exact behaves_reported_unknown _ _
    · exact behaves_pure (Ty.Within.mono h hsub₁)
  · exact behaves_unknown

abbrev FrozenOutcome (outcome : Except InferError Inferred) : Prop :=
  ∀ result recursive, outcome = .ok (result, recursive) → result.Frozen

/-- What lies elsewhere behaves: bodies of definitions, and other declarations, whose results have no growing
records. -/
structure ElsewhereBehaves (context : Context) (elsewhere : Elsewhere) : Prop where
  body : ∀ Q e, Behaves context Q (elsewhere.body e) AtHand
  declaration : ∀ index decl,
    SessionM.Behaves context.engine (elsewhere.declaration index decl) FrozenOutcome

abbrev MaybeAtHand : Set Mention → Option Ty → Prop := fun Q found => ∀ t, found = some t → t.Within Q

section Elsewhere

variable {elsewhere : Elsewhere} (hscope : context.engine.scope.Frozen)
  (helsewhere : ElsewhereBehaves context elsewhere)

include hscope helsewhere in
theorem behaves_localReference (pos : Nat) (name : Name) :
    Behaves context Q (localReference elsewhere pos name) MaybeAtHand := by
  have huse : ∀ binding Q, binding.Within Q → Behaves context Q
      (do return some (← useBinding pos binding) : InferM (Option Ty)) MaybeAtHand := by
    intro binding Q hbinding
    refine (behaves_useBinding pos hbinding).bind fun t Q₁ _ ht => behaves_pure fun u hu => ?_
    cases hu
    exact ht
  refine (behaves_lookup name).bind fun found Q₁ _ hfound => ?_
  split
  · exact behaves_pure fun _ h => by cases h
  · refine (behaves_inferPending hscope helsewhere.body _ _ _).bind fun _ Q₂ _ _ => ?_
    refine (behaves_lookup name).bind fun found Q₃ _ hfound => ?_
    split
    · exact huse _ _ (hfound _ _ rfl)
    · refine behaves_of_plain fun hplain => behaves_pure fun t ht => ?_
      cases ht
      exact Ty.within_unknown hplain
  · exact huse _ _ (hfound _ _ rfl)

theorem behaves_isEvaluatedCycle (index : Nat) (decl : ValueDecl) :
    Behaves context Q (isEvaluatedCycle index decl) Any := by
  refine behaves_getPass.bind fun pass Q₁ _ _ => ?_
  split
  · refine behaves_engine.bind fun engine Q₂ _ _ => behaves_read.bind fun _ Q₃ _ _ => ?_
    refine (behaves_forM fun name _ Q' _ => ?_).bind fun _ _ _ _ => behaves_pure trivial
    exact (behaves_session (SessionM.behaves_trip name)).imp fun _ _ _ => trivial
  · exact behaves_pure trivial

theorem behaves_checkCycle (pos index : Nat) (decl : ValueDecl) :
    Behaves context Q (checkCycle pos index decl) Any := by
  refine behaves_read.bind fun _ Q₁ _ _ => ?_
  split
  · split
    · exact behaves_report _ _
    · refine behaves_getPass.bind fun pass Q₂ _ _ => ?_
      split
      · exact behaves_report _ _
      · exact behaves_pure trivial
  · refine (behaves_isEvaluatedCycle index decl).bind fun _ Q₂ _ _ => ?_
    split
    · exact behaves_report _ _
    · exact behaves_pure trivial

include helsewhere in
theorem behaves_declarationType (pos : Nat) (name : Name) (index : Nat) (decl : ValueDecl) :
    Behaves context Q (declarationType elsewhere pos name index decl) AtHand := by
  refine (behaves_checkCycle pos index decl).bind fun _ Q₁ _ _ => ?_
  split
  · exact behaves_convertForeign _
  · refine behaves_get.bind fun w Q₂ _ _ => ?_
    split
    · exact Behaves.bind (behaves_modifyRest fun _ => ⟨rfl, rfl, rfl⟩) fun _ _ _ _ => behaves_unknown
    · refine (behaves_session (helsewhere.declaration index decl)).bind fun outcome Q₃ _ houtcome => ?_
      split
      · refine Behaves.bind (behaves_modifyRest fun _ => ⟨rfl, rfl, rfl⟩) fun _ _ _ _ => ?_
        exact behaves_external (frozen_resultType (houtcome _ _ rfl) decl name)
      · exact Behaves.bind (behaves_modifyRest fun _ => ⟨rfl, rfl, rfl⟩) fun _ _ _ _ => behaves_unknown
      · exact behaves_unknown

theorem behaves_recordConstructorType (m : Name) (decl : AliasDecl) :
    Behaves context Q (recordConstructorType m decl) AtHand := by
  refine behaves_engine.bind fun engine Q₁ _ hengine => ?_
  subst hengine
  have hexpand : SessionM.Behaves context.engine
      (SessionM.withTypes (TypeTable.expand context.engine.scope m decl))
      (fun found => ∀ d, found = some d → d.Frozen) :=
    SessionM.behaves_withTypes fun table htable => TypeTable.thaws_expand context.engine.scope m decl table htable
  refine (behaves_session hexpand).bind fun found Q₂ _ hfound => ?_
  split
  · exact behaves_unknown
  · next d =>
    refine Behaves.bind (V := AtHand) (behaves_of_plain fun hplain => behaves_allocate fun s _ =>
      (hfound d rfl).instantiate s hplain (by simp)) fun t Q₃ _ ht => ?_
    split
    · refine behaves_pure (Ty.within_function (fun u hu => ?_) ht)
      obtain ⟨field, hfield, rfl⟩ := List.mem_map.mp hu
      exact fun r hr => ht r ((Ty.Part.field hfield).mentions_subset hr)
    · exact behaves_unknown

include helsewhere in
theorem behaves_targetType (pos : Nat) (name : Name) {target : ValueTarget}
    (htarget : ∀ t, target = .external t → t.Frozen) :
    Behaves context Q (targetType elsewhere pos name target) AtHand := by
  cases target with
  | value index decl => exact behaves_declarationType helsewhere pos name index decl
  | variant m decl index =>
    rw [targetType]
    refine behaves_engine.bind fun engine Q₁ _ hengine => ?_
    subst hengine
    refine (behaves_unionType _ _).bind fun d Q₂ _ hd => (behaves_variant hd _).bind fun found Q₃ _ hfound => ?_
    split
    · obtain ⟨hargs, ht⟩ := hfound _ _ rfl
      exact behaves_pure (Ty.within_function hargs ht)
    · exact behaves_unknown
  | recordConstructor m decl => exact behaves_recordConstructorType m decl
  | hostValue decl => exact behaves_convertForeign _
  | external t => exact behaves_external (htarget t rfl)

include hscope helsewhere in
theorem behaves_globalReference (pos : Nat) (name : Ref) :
    Behaves context Q (globalReference elsewhere pos name) AtHand := by
  refine (behaves_session (SessionM.behaves_findValues name)).bind fun targets Q₁ _ htargets => ?_
  split
  · next target =>
    refine behaves_targetType helsewhere pos name.name fun t ht => hscope.external (r := name) ?_
    rw [← htargets, ht]
    exact List.mem_singleton_self _
  · exact behaves_unknown

include hscope helsewhere in
theorem behaves_reference (pos : Nat) (name : Ref) : Behaves context Q (reference elsewhere pos name) AtHand := by
  unfold reference
  split
  · exact behaves_globalReference hscope helsewhere pos name
  · refine (behaves_localReference hscope helsewhere pos name.name).bind fun found Q₁ _ hfound => ?_
    split
    · exact behaves_pure (hfound _ rfl)
    · exact behaves_globalReference hscope helsewhere pos name

include hscope helsewhere in
theorem behaves_operatorType (pos : Nat) (name : Name) :
    Behaves context Q (operatorType elsewhere pos name)
      (fun Q found => ∀ precedence t, found = some (precedence, t) → t.Within Q) := by
  refine behaves_engine.bind fun engine Q₁ _ hengine => ?_
  subst hengine
  split
  · next target htargets =>
    have hmem : target ∈ context.engine.scope.findOperators name := by
      rw [htargets]
      exact List.mem_singleton_self _
    refine (behaves_targetType helsewhere pos name fun t ht => hscope.operator hmem ht).bind
      fun t Q₂ _ ht => behaves_pure fun precedence u hu => ?_
    cases hu
    exact ht
  · exact behaves_pure fun _ _ h => by cases h

end Elsewhere

/-! ### Entering a `let` -/

structure LetScope.Within (l : LetScope) (Q : Set Mention) : Prop where
  bindings : ∀ entry ∈ l.scope, entry.2.Within Q
  signed : ∀ d ∈ l.signed, d.scheme.ty.Within Q ∧ VarsWithin d.vars Q

theorem LetScope.Within.mono {l : LetScope} (h : LetScope.Within l Q) (hQ : Q ⊆ Q') : LetScope.Within l Q' :=
  ⟨fun entry hentry => (h.bindings entry hentry).mono hQ,
    fun d hd => ⟨(h.signed d hd).1.mono hQ, (h.signed d hd).2.mono hQ⟩⟩

/-- A definition with signature is added to those that have been read. -/
theorem LetScope.Within.addSigned {l : LetScope} (h : LetScope.Within l Q) {t : Ty} {vars : Assoc Name Ty}
    (ht : t.Within Q) (hvars : VarsWithin vars Q) (names : List Name) (name : NameAt) (params : List Pattern)
    (body : Expr) (surroundings : Assoc Name Ty) :
    LetScope.Within
      { names
        scope := Assoc.set l.scope name.name (.poly (signatureScheme surroundings t))
        signed := l.signed ++ [⟨name, params, body, signatureScheme surroundings t, vars⟩] } Q := by
  refine ⟨fun entry hentry => ?_, fun d hd => ?_⟩
  · rcases Assoc.mem_set hentry with hentry | rfl
    · exact h.bindings entry hentry
    · exact fun r hr => .inl (ht r hr)
  · rcases List.mem_append.mp hd with hd | hd
    · exact h.signed d hd
    · rw [List.mem_singleton.mp hd]
      exact ⟨ht, hvars⟩

/-- The entries of a scope in which a definition comes to wait under its names. -/
theorem mem_foldl_pending {names : List NameAt} {slot : Nat} {definition : ValueDecl} {depth : Nat} {scope : Scope}
    {entry : Name × Binding}
    (h : entry ∈ names.foldl (fun scope name => Assoc.set scope name.name (.pending slot definition depth)) scope) :
    entry ∈ scope ∨ entry.2 = .pending slot definition depth := by
  induction names generalizing scope with
  | nil => exact .inl h
  | cons name rest ih =>
    rcases ih h with h | h
    · exact (Assoc.mem_set h).imp_right fun heq => by rw [heq]
    · exact .inr h

theorem behaves_declareAll (names : List Name) (more : List NameAt) :
    Behaves context Q (declareAll names more) Any := by
  induction more generalizing names Q with
  | nil => exact behaves_pure trivial
  | cons name rest ih => exact (behaves_declare names name).bind fun names Q₁ _ _ => ih names

theorem behaves_readDefinition (slot : Nat) (definition : ValueDecl) {l : LetScope} (h : LetScope.Within l Q) :
    Behaves context Q (readDefinition slot definition l) (fun Q l => LetScope.Within l Q) := by
  refine (behaves_declareAll _ _).bind fun names Q₁ hsub₁ _ => ?_
  refine behaves_getPass.bind fun pass Q₂ hsub₂ hpass => ?_
  have hl := h.mono (hsub₁.trans hsub₂)
  split
  · next name params signature _ _ =>
    refine (behaves_convertSignature signature hpass.typeVars).bind fun out Q₃ hsub₃ hout => behaves_pure ?_
    exact (hl.mono hsub₃).addSigned hout.1 hout.2 names name params _ pass.typeVars
  · refine behaves_pure ⟨fun entry hentry => ?_, hl.signed⟩
    rcases mem_foldl_pending hentry with hentry | hpending
    · exact hl.bindings entry hentry
    · rw [hpending]
      trivial

theorem behaves_readDefinitions (slot : Nat) (definitions : List ValueDecl) {l : LetScope}
    (h : LetScope.Within l Q) :
    Behaves context Q (readDefinitions slot definitions l) (fun Q l => LetScope.Within l Q) := by
  induction definitions generalizing slot l Q with
  | nil => exact behaves_pure h
  | cons definition rest ih =>
    exact (behaves_readDefinition slot definition h).bind fun l Q₁ _ hl => ih (slot + 1) hl

theorem behaves_isPending (slot : Nat) : Behaves context Q (isPending slot) Any := by
  refine behaves_getPass.bind fun pass Q₁ _ _ => ?_
  split
  · exact behaves_pure trivial
  · exact behaves_pure trivial

section Let

variable {inferBody : Expr → InferM Ty} (hscope : context.engine.scope.Frozen)
  (hbody : ∀ Q e, Behaves context Q (inferBody e) AtHand)

include hscope hbody

theorem behaves_inferWaiting (slot : Nat) (definitions : List ValueDecl) :
    Behaves context Q (inferWaiting inferBody slot definitions) Any := by
  induction definitions generalizing slot Q with
  | nil => exact behaves_pure trivial
  | cons definition rest ih =>
    refine (behaves_isPending slot).bind fun pending Q₁ _ _ => ?_
    split
    · refine behaves_getPass.bind fun pass Q₂ _ _ => ?_
      exact (behaves_inferPending hscope hbody 0 definition pass.depth).bind fun _ Q₃ _ _ => ih (slot + 1)
    · exact ih (slot + 1)

theorem behaves_checkSigned {d : SignedDefinition} (ht : d.scheme.ty.Within Q) (hvars : VarsWithin d.vars Q) :
    Behaves context Q (checkSigned inferBody d) Any := by
  have hscheme : ∀ Q', Q ⊆ Q' → d.scheme.Within Q' := fun Q' hsub r hr => .inl (hsub (ht r hr))
  refine behaves_getPass.bind fun pass Q₁ hsub₁ hpass => ?_
  have hchecking : (Binding.checking d.scheme (!d.params.isEmpty) pass.depth).Within Q₁ := hscheme Q₁ hsub₁
  refine (behaves_bind _ hchecking).bind fun _ Q₂ hsub₂ _ => ?_
  have hvars₂ := hvars.mono (hsub₁.trans hsub₂)
  refine Behaves.bind (behaves_modifyPass (fun _ => rfl) fun p hp => ⟨hp.bindings, hvars₂⟩) fun _ Q₃ hsub₃ _ => ?_
  have hsub : Q₁ ⊆ Q₃ := hsub₂.trans hsub₃
  refine (behaves_inferFunction hscope hbody d.name d.params d.body (?_ : ∀ t, some d.scheme.ty = some t → _)).bind
    fun _ Q₄ hsub₄ _ => ?_
  · intro t heq
    cases heq
    exact ht.mono (hsub₁.trans hsub)
  have houter := (hpass.mono (hsub.trans hsub₄)).typeVars
  refine Behaves.bind (behaves_modifyPass (fun _ => rfl) fun p hp => ⟨hp.bindings, houter⟩) fun _ Q₅ hsub₅ _ => ?_
  have hpoly : (Binding.poly d.scheme).Within Q₅ :=
    hscheme Q₅ (hsub₁.trans (hsub.trans (hsub₄.trans hsub₅)))
  exact behaves_bind _ hpoly

/-- What is done for the definitions of a `let` after they have been read. -/
theorem behaves_inferSigned (definitions : List ValueDecl) {l : LetScope} (hl : LetScope.Within l Q) :
    Behaves context Q (do
      pushScope l.scope
      inferWaiting inferBody 0 definitions
      l.signed.forM (checkSigned inferBody) : InferM Unit) Any := by
  refine (behaves_pushScope hl.bindings).bind fun _ Q₁ hsub₁ _ => ?_
  refine (behaves_inferWaiting hscope hbody 0 definitions).bind fun _ Q₂ hsub₂ _ => ?_
  refine behaves_forM fun d hd Q' hsub => ?_
  have hl := hl.mono (hsub₁.trans (hsub₂.trans hsub))
  exact behaves_checkSigned hscope hbody (hl.signed d hd).1 (hl.signed d hd).2

theorem behaves_enterLet (definitions : List ValueDecl) :
    Behaves context Q (enterLet inferBody definitions) Any :=
  (behaves_readDefinitions 0 definitions ⟨by simp, by simp⟩).bind fun _ _ _ hl =>
    behaves_inferSigned hscope hbody definitions hl

end Let

end InferM

end ElmInference
