import ElmInference.Proofs.Infer.Accounts

/-!
# Patterns, definitions and references in an account

Patterns are recorded with the types of the values they take apart, and a tuple pattern with the tuple of what its items
are recorded with. Definitions bring types without records into scope, whenever they are inferred, and references take
such types out of it.
-/

namespace ElmInference

open Relation Store StoreM

/-! ### Nodes of an account -/

namespace Account

/-- Whether nodes are among those of an account. -/
def Includes (A : Account) (m : Multiset Fragment) : Prop :=
  ∀ n ∈ m, n ∈ A.nodes

variable {A : Account} {n : Fragment} {m m' : Multiset Fragment}

theorem includes_cons : A.Includes (n ::ₘ m) ↔ n ∈ A.nodes ∧ A.Includes m :=
  Multiset.forall_mem_cons

theorem includes_add : A.Includes (m + m') ↔ A.Includes m ∧ A.Includes m' := by
  simp only [Includes, Multiset.mem_add, or_imp, forall_and]

end Account

namespace Pattern

theorem fragments_mk (id : NodeId) (pos : Nat) (kind : PatternKind Pattern) : (Pattern.mk id pos kind).fragments =
    .pattern (.mk id pos kind) ::ₘ (kindSites kind).map Site.fragment := by
  rw [fragments, sites, Multiset.map_cons]
  rfl

theorem fragmentsList_cons (p : Pattern) (ps : List Pattern) :
    fragmentsList (p :: ps) = p.fragments + fragmentsList ps := by
  rw [fragmentsList, sitesList, Multiset.map_add]
  rfl

end Pattern

namespace InferM

variable {α β : Type} {A : Account} {context : Context} {P : Prop} {w : World}

/-! ### Patterns -/

theorem derives_literalType (kind : Literal) : Derives A context P w (literalType kind) Recordless Anything := by
  cases kind with
  | int => exact (derives_freshVar _).imp (fun _ _ _ ht => ht.recordless) fun _ _ _ _ _ => trivial
  | float | char | string => exact derives_pure (Ty.recordlessIn_named _ _) fun _ => trivial

theorem derives_partialPattern (pos : Nat) (place : PatternPlace) :
    Derives A context P w (partialPattern pos place) Anything Anything := by
  unfold partialPattern
  split
  · exact (derives_report _ _).forget
  · exact derives_pure trivial fun _ => trivial

abbrev ConstructorRecordless : World → Option (List Ty × Ty) → Prop := fun w found =>
  ∀ args t, found = some (args, t) → (∀ u ∈ args, u.RecordlessIn w.2) ∧ t.RecordlessIn w.2

theorem derives_unionType (hscope : context.engine.scope.Recordfree) (m : Name) {decl : UnionDecl}
    (hdecl : (Declaration.unionType decl).Recordfree) : Derives A context P w
      (session (SessionM.withTypes (TypeTable.unionType context.engine.scope m decl))) (fun _ d => d.Recordless) Anything :=
  derives_session (SessionM.spares_withTypes fun _ htable => TypeTable.recordless_unionType hscope m hdecl htable)

theorem derives_variant {d : DeclaredType} (h : d.Recordless) (index : Nat) :
    Derives A context P w (allocate (d.variant? index)) ConstructorRecordless Anything := by
  refine derives_allocate fun hw => ?_
  obtain ⟨Q', hmints, hwithin⟩ := h.frozen.variant? index w.1 hw.plain
  refine ⟨Q', hmints, fun args t heq => ?_⟩
  obtain ⟨hargs, ht⟩ := hwithin args t heq
  obtain ⟨hargs', ht'⟩ := h.variant? index w.1 heq
  exact ⟨fun u hu => ⟨hargs u hu, hargs' u hu⟩, ht, ht'⟩

theorem derives_constructorTypes (hscope : context.engine.scope.Recordfree) (name : Ref) :
    Derives A context P w (constructorTypes name) ConstructorRecordless Anything := by
  refine (derives_session (SessionM.spares_findValues name)).bind fun targets w₁ _ htargets => ?_
  have htarget : ∀ target, targets = [target] → target.Recordfree := by
    rintro target rfl
    exact hscope.target (htargets ▸ List.mem_singleton_self _)
  split
  · refine derives_engine.bind fun engine w₂ _ hengine => ?_
    subst hengine
    exact (derives_unionType hscope _ (htarget _ rfl)).bind fun d _ _ hd => derives_variant hd _
  · refine (derives_external (htarget _ rfl)).bind fun t w₂ _ ht => ?_
    split
    · refine derives_pure (fun args u heq => ?_) fun _ => trivial
      cases heq
      exact ht.of_arrow
    · refine derives_pure (fun args u heq => ?_) fun _ => trivial
      cases heq
      exact ⟨fun _ hu => absurd hu List.not_mem_nil, ht⟩
  · exact derives_pure (fun _ _ h => by cases h) fun _ => trivial

/-- Recording the type of a pattern is the last that is done for it. -/
theorem derives_recorded {p : Pattern} {t : Ty} (hp : .pattern p ∈ A.nodes) (ht : t.RecordlessIn w.2) {bound : Bound}
    (hbound : BoundRecordless w bound) (hobeys : P → (p.id, t) ∈ A.log → Fragment.Obeys A.typing (.pattern p)) :
    Derives A context P w (do record p.id t; return bound : InferM Bound) BoundRecordless
      (fun _ _ => (p.id, t) ∈ A.log) :=
  (derives_record ht hp rfl hobeys).bind fun _ _ hlater _ =>
    derives_pure (fun entry hentry => (hbound entry hentry).mono hlater.subset) fun h => h.2

/-- What is left of a pattern of a list once its parts are seen to. The types of its items need not agree. -/
theorem derives_listPattern (hA : A.Proper) (place : PatternPlace) {id : NodeId} {pos : Nat} {kind : PatternKind Pattern}
    {parts : List Pattern} (types : Ty → List Ty) {t : Ty} (ht : t.RecordlessIn w.2)
    (hnode : .pattern (.mk id pos kind) ∈ A.nodes) (hobeys : Fragment.Obeys A.typing (.pattern (.mk id pos kind)))
    (htypes : ∀ item, ∀ u ∈ types item, u = item ∨ u = .list item)
    (hparts : ∀ (P : Prop) (w : World) ts, (∀ u ∈ ts, u.RecordlessIn w.2) →
      Derives A context P w (inferPatterns place parts ts) BoundRecordless Anything) :
    Derives A context P w (do
      partialPattern pos place
      let item ← freshVar "a"
      let fits ← checkPattern pos (.list item) t
      let bound ← inferPatterns place parts (ifFits fits (types item))
      record id t
      return bound : InferM Bound) BoundRecordless (fun _ _ => (id, t) ∈ A.log) := by
  refine (derives_partialPattern pos place).bind fun _ w₁ hlater₁ _ => ?_
  refine (derives_freshVar "a").bind fun item w₂ hlater₂ hitem => ?_
  have ht₂ := ht.mono (hlater₁.trans hlater₂).subset
  refine (derives_checkPattern hA pos hitem.recordless.list ht₂).bind fun fits w₃ hlater₃ _ => ?_
  have hitem := hitem.recordless.mono hlater₃.subset
  refine (hparts _ w₃ _ (forall_ifFits fits fun u hu => ?_)).bind fun bound w₄ hlater₄ hbound => ?_
  · rcases htypes item u hu with rfl | rfl
    · exact hitem
    · exact hitem.list
  · exact derives_recorded (p := .mk id pos kind) hnode (ht₂.mono (hlater₃.trans hlater₄).subset) hbound
      fun _ _ => hobeys

mutual

theorem derives_inferPattern (hA : A.Proper) (hscope : context.engine.scope.Recordfree) (place : PatternPlace)
    (p : Pattern) {t : Ty} {P : Prop} {w : World} (ht : t.RecordlessIn w.2) (hp : A.Includes p.fragments) :
    Derives A context P w (inferPattern place p t) BoundRecordless (fun _ _ => (p.id, t) ∈ A.log) := by
  have hempty : ∀ w : World, BoundRecordless w [] := fun _ _ h => absurd h List.not_mem_nil
  match p with
  | .mk id pos .any =>
    rw [Pattern.fragments_mk, Account.includes_cons] at hp
    rw [inferPattern]
    exact derives_recorded (p := .mk id pos .any) hp.1 ht (hempty w) fun _ _ => trivial
  | .mk id pos (.var name) =>
    rw [Pattern.fragments_mk, Account.includes_cons] at hp
    rw [inferPattern]
    exact derives_recorded (p := .mk id pos (.var name)) hp.1 ht (List.forall_mem_singleton.mpr ht) fun _ _ => trivial
  | .mk id pos .unit =>
    rw [Pattern.fragments_mk, Account.includes_cons] at hp
    rw [inferPattern]
    exact (derives_checkPattern hA pos Ty.recordlessIn_unit ht).bind fun _ w₁ hlater _ =>
      derives_recorded (p := .mk id pos .unit) hp.1 (ht.mono hlater.subset) (hempty w₁) fun _ _ => trivial
  | .mk id pos (.literal kind) =>
    rw [Pattern.fragments_mk, Account.includes_cons] at hp
    rw [inferPattern]
    refine (derives_partialPattern pos place).bind fun _ w₁ hlater₁ _ => ?_
    refine (derives_literalType kind).bind fun u w₂ hlater₂ hu => ?_
    have ht₂ := ht.mono (hlater₁.trans hlater₂).subset
    exact (derives_checkPattern hA pos hu ht₂).bind fun _ w₃ hlater₃ _ =>
      derives_recorded (p := .mk id pos (.literal kind)) hp.1 (ht₂.mono hlater₃.subset) (hempty w₃) fun _ _ => trivial
  | .mk id pos (.tuple items) =>
    rw [Pattern.fragments_mk, Account.includes_cons, Pattern.kindSites] at hp
    rw [inferPattern]
    refine (derives_freshVars "a" items).bind fun types w₁ hlater₁ htypes => ?_
    obtain ⟨hlength, htypes, -⟩ := htypes
    have ht₁ := ht.mono hlater₁.subset
    refine (derives_checkPattern hA pos (Ty.recordlessIn_tuple htypes) ht₁).bind fun fits w₂ hlater₂ _ => ?_
    refine (derives_inferPatterns hA hscope place items
      (forall_ifFits fits fun u hu => (htypes u hu).mono hlater₂.subset) hp.2).bind fun bound w₃ hlater₃ hbound => ?_
    refine derives_recorded (p := .mk id pos (.tuple items)) hp.1 (ht₁.mono (hlater₂.trans hlater₃).subset) hbound ?_
    rintro ⟨⟨-, rfl, hunifies⟩, hlogs⟩ hlog u us hhas hall
    obtain ⟨rfl, hknown⟩ := hA.eq_of_has hlog hhas
    obtain ⟨rfl, hknowns⟩ := hA.eq_of_hasAll (hlogs hlength.symm) hall
    change u.read A.env = .tuple (us.map (Ty.read A.env))
    rw [← Ty.read_tuple]
    exact (hunifies.agrees (known_tuple hknowns) hknown).symm
  | .mk id pos (.list items) =>
    rw [Pattern.fragments_mk, Account.includes_cons, Pattern.kindSites] at hp
    rw [inferPattern]
    refine derives_listPattern hA place (fun item => items.map fun _ => item) ht hp.1 trivial (fun item u hu => ?_)
      fun P w ts hts => (derives_inferPatterns hA hscope place items hts hp.2).forget
    exact .inl (List.eq_of_mem_map_const hu)
  | .mk id pos (.cons parts) =>
    rw [Pattern.fragments_mk, Account.includes_cons, Pattern.kindSites] at hp
    rw [inferPattern]
    exact derives_listPattern hA place (fun item => List.replicate (parts.length - 1) item ++ [Ty.list item]) ht hp.1
      trivial (fun _ _ => eq_of_mem_partTypes)
      fun P w ts hts => (derives_inferPatterns hA hscope place parts hts hp.2).forget
  | .mk id pos (.record fields) =>
    rw [Pattern.fragments_mk, Account.includes_cons] at hp
    cases hA.recordfree _ hp.1
  | .mk id pos (.constructor name args) =>
    rw [Pattern.fragments_mk, Account.includes_cons, Pattern.kindSites] at hp
    rw [inferPattern]
    have hrest : ∀ P (w : World) ts, t.RecordlessIn w.2 → (∀ u ∈ ts, u.RecordlessIn w.2) → Derives A context P w (do
        let bound ← inferPatterns place args ts
        record id t
        return bound : InferM Bound) BoundRecordless (fun _ _ => (id, t) ∈ A.log) := fun P w ts ht hts =>
      (derives_inferPatterns hA hscope place args hts hp.2).bind fun bound _ hlater hbound =>
        derives_recorded (p := .mk id pos (.constructor name args)) hp.1 (ht.mono hlater.subset) hbound fun _ _ => trivial
    refine (derives_constructorTypes hscope name).bind fun found w₁ hlater₁ hfound => ?_
    have ht₁ := ht.mono hlater₁.subset
    split
    · exact hrest _ _ _ ht₁ (by simp)
    · next params u =>
      obtain ⟨hparams, hu⟩ := hfound params u rfl
      split
      · exact (derives_report _ _).bind fun _ _ hlater₂ _ => hrest _ _ _ (ht₁.mono hlater₂.subset) (by simp)
      · refine (derives_checkPattern hA pos hu ht₁).bind fun fits w₂ hlater₂ _ =>
          hrest _ _ _ (ht₁.mono hlater₂.subset) ?_
        exact forall_ifFits fits fun v hv => (hparams v hv).mono hlater₂.subset
  | .mk id pos (.named pattern name) =>
    rw [Pattern.fragments_mk, Account.includes_cons, Pattern.kindSites] at hp
    rw [inferPattern]
    refine (derives_inferPattern hA hscope place pattern ht hp.2).bind fun bound w₁ hlater₁ hbound => ?_
    have ht₁ := ht.mono hlater₁.subset
    refine (derives_record (n := .pattern (.mk id pos (.named pattern name))) ht₁ hp.1 rfl fun _ _ => trivial).bind
      fun _ w₂ hlater₂ _ => derives_pure (fun entry hentry => ?_) fun h => h.2
    rcases List.mem_append.mp hentry with hentry | hentry
    · exact (hbound entry hentry).mono hlater₂.subset
    · rw [List.mem_singleton.mp hentry]
      exact ht₁.mono hlater₂.subset

theorem derives_inferPatterns (hA : A.Proper) (hscope : context.engine.scope.Recordfree) (place : PatternPlace)
    (ps : List Pattern) {ts : List Ty} {P : Prop} {w : World} (hts : ∀ t ∈ ts, t.RecordlessIn w.2)
    (hps : A.Includes (Pattern.fragmentsList ps)) :
    Derives A context P w (inferPatterns place ps ts) BoundRecordless
      (fun _ _ => ps.length = ts.length → A.Logs (ps.map Pattern.id) ts) := by
  match ps with
  | [] =>
    rw [inferPatterns]
    refine derives_pure (fun _ h => absurd h List.not_mem_nil) fun _ hlength => ?_
    rw [List.length_eq_zero_iff.mp hlength.symm]
    exact .nil
  | p :: ps =>
    rw [Pattern.fragmentsList_cons, Account.includes_add] at hps
    rw [inferPatterns]
    refine derives_of_fieldless fun hw => ?_
    have hhead : (ts.head?.getD .unknown).RecordlessIn w.2 := by
      cases ts with
      | nil => exact Ty.recordlessIn_unknown hw.plain
      | cons t ts => exact hts t List.mem_cons_self
    refine (derives_inferPattern hA hscope place p hhead hps.1).bind fun bound w₁ hlater₁ hbound => ?_
    have htail : ∀ t ∈ ts.tail, t.RecordlessIn w₁.2 :=
      fun t ht => (hts t (List.mem_of_mem_tail ht)).mono hlater₁.subset
    refine (derives_inferPatterns hA hscope place ps htail hps.2).bind fun more w₂ hlater₂ hmore =>
      derives_pure (fun entry hentry => ?_) fun h hlength => ?_
    · rcases List.mem_append.mp hentry with hentry | hentry
      · exact (hbound entry hentry).mono hlater₂.subset
      · exact hmore entry hentry
    · cases ts with
      | nil => cases hlength
      | cons t ts => exact .cons h.1.2 (h.2 (Nat.succ.inj hlength))

end

/-! ### Functions and definitions -/

theorem derives_expectedParams (name : NameAt) (params : List Pattern) {signature : Option Ty}
    (h : ∀ t, signature = some t → t.RecordlessIn w.2) :
    Derives A context P w (expectedParams name params signature)
      (fun w found => ∀ ts, found = some ts → ∀ t ∈ ts, t.RecordlessIn w.2) Anything := by
  cases signature with
  | none => exact derives_pure (fun _ h => by cases h) fun _ => trivial
  | some t =>
    rw [expectedParams]
    split
    · exact (derives_report _ _).bind fun _ _ _ _ => derives_pure (fun _ h => by cases h) fun _ => trivial
    · refine derives_pure (fun ts heq u hu => ?_) fun _ => trivial
      cases heq
      exact (h t rfl).allParams u (List.mem_of_mem_take hu)

theorem derives_inferParams (hA : A.Proper) (hscope : context.engine.scope.Recordfree) (ps : List Pattern)
    {ts : List Ty} (hts : ∀ t ∈ ts, t.RecordlessIn w.2) (hps : A.Includes (Pattern.fragmentsList ps)) :
    Derives A context P w (inferParams ps ts) BoundRecordless
      (fun _ _ => ps.length = ts.length → A.Logs (ps.map Pattern.id) ts) := by
  induction ps generalizing ts w P with
  | nil =>
    rw [inferParams]
    · refine derives_pure (fun _ h => absurd h List.not_mem_nil) fun _ hlength => ?_
      rw [List.length_eq_zero_iff.mp hlength.symm]
      exact .nil
    · exact fun _ _ _ _ h => by cases h
  | cons p ps ih =>
    cases ts with
    | nil =>
      rw [inferParams]
      · exact derives_pure (fun _ h => absurd h List.not_mem_nil) fun _ hlength => by cases hlength
      · exact fun _ _ _ _ _ h => by cases h
    | cons t ts =>
      rw [Pattern.fragmentsList_cons, Account.includes_add] at hps
      obtain ⟨ht, hts⟩ := List.forall_mem_cons.mp hts
      rw [inferParams]
      refine (derives_inferPattern hA hscope .parameter p ht hps.1).bind fun bound w₁ hlater₁ hbound => ?_
      refine (ih (fun u hu => (hts u hu).mono hlater₁.subset) hps.2).bind fun more w₂ hlater₂ hmore =>
        derives_pure (fun entry hentry => ?_) fun h hlength => .cons h.1.2 (h.2 (Nat.succ.inj hlength))
      rcases List.mem_append.mp hentry with hentry | hentry
      · exact (hbound entry hentry).mono hlater₂.subset
      · exact hmore entry hentry

/-- How many lambdas are around an expression concerns neither what is in scope nor what is recorded. -/
theorem derives_setDepth (f : Nat → Nat) :
    Derives A context P w (modifyPass fun pass => { pass with depth := f pass.depth }) Anything Anything :=
  derives_rescope (fun _ => rfl) (fun _ => rfl) (fun _ => ⟨List.prefix_rfl, id, List.Subset.refl _⟩)
    fun _ hpass => ⟨hpass.bindings, hpass.typeVars⟩

theorem derives_deeper (levels : Nat) {work : InferM Ty} {W : World → Ty → Prop}
    (hW : ∀ w w' t, Succeeds w w' → W w t → W w' t)
    (h : ∀ P w', Succeeds w w' → Derives A context P w' work Recordless W) :
    Derives A context P w (deeper levels work) Recordless W := by
  refine (derives_setDepth (· + levels)).bind fun _ w₁ hlater₁ _ => ?_
  refine (h _ w₁ hlater₁).bind fun t w₂ _ ht => ?_
  refine (derives_setDepth (· - levels)).bind fun _ w₃ hlater₃ _ => ?_
  exact derives_pure (Ty.RecordlessIn.mono ht hlater₃.subset) fun h => hW _ _ _ hlater₃ h.1.2

section Bodies

variable {inferBody : Expr → InferM Ty} (hA : A.Proper) (hscope : context.engine.scope.Recordfree)
  (hbody : ∀ P w e, A.Includes (Expr.fragments e) → Derives A context P w (inferBody e) Recordless Anything)

include hA hscope hbody

theorem derives_inferFunction (name : NameAt) {params : List Pattern} {body : Expr} {signature : Option Ty}
    (hparams : A.Includes (Pattern.fragmentsList params)) (hnodes : A.Includes body.fragments)
    (h : ∀ t, signature = some t → t.RecordlessIn w.2) :
    Derives A context P w (inferFunction inferBody name params body signature) Recordless Anything := by
  -- All but the last step is the same with and without a signature.
  have hrest : ∀ (last : Ty → InferM Ty) (types : List Ty) P₁ (w₁ : World), (∀ t ∈ types, t.RecordlessIn w₁.2) →
      (∀ t P₂ (w₂ : World), Succeeds w₁ w₂ → t.RecordlessIn w₂.2 → Derives A context P₂ w₂ (last t) Recordless Anything) →
      Derives A context P₁ w₁ (do
        pushScope []
        let bound ← inferParams params types
        bindAll [name.name] bound
        let bodyType ← deeper (if params.isEmpty then 0 else 1) (inferBody body)
        popScope
        last bodyType) Recordless Anything := by
    intro last types P₁ w₁ htypes hlast
    refine (derives_pushScope fun _ h => absurd h List.not_mem_nil).bind fun _ w₂ hlater₂ _ => ?_
    refine (derives_inferParams hA hscope params (fun t ht => (htypes t ht).mono hlater₂.subset) hparams).bind
      fun bound w₃ hlater₃ hbound => ?_
    refine (derives_bindAll _ hbound).bind fun _ w₄ hlater₄ _ => ?_
    refine (derives_deeper _ (fun _ _ _ _ _ => trivial) fun P' w' _ => hbody P' w' body hnodes).bind
      fun bodyType w₅ hlater₅ hbodyType => ?_
    refine derives_popScope.bind fun _ w₆ hlater₆ _ => ?_
    exact hlast bodyType _ w₆ (hlater₂.trans (hlater₃.trans (hlater₄.trans (hlater₅.trans hlater₆))))
      (Ty.RecordlessIn.mono hbodyType hlater₆.subset)
  refine (derives_expectedParams name params h).bind fun expected w₁ hlater₁ hexpected => ?_
  cases expected with
  | some types =>
    refine (derives_pure (V := fun w ts => ∀ t ∈ ts, t.RecordlessIn w.2) (W := Anything) (hexpected types rfl)
      fun _ => trivial).bind fun types w₂ hlater₂ htypes => hrest _ types _ w₂ htypes fun t P₃ w₃ hlater₃ ht => ?_
    cases signature with
    | some signature =>
      have hsignature := (h signature rfl).mono (hlater₁.trans (hlater₂.trans hlater₃)).subset
      exact (derives_check hA _ ht (hsignature.applyParams _)).bind
        fun _ _ hlater₄ _ => derives_pure (hsignature.mono hlater₄.subset) fun _ => trivial
    | none =>
      exact derives_pure (Ty.recordlessIn_function (fun t ht => (htypes t ht).mono hlater₃.subset) ht) fun _ => trivial
  | none =>
    refine (derives_freshVars "a" params).bind fun types w₂ hlater₂ htypes =>
      hrest _ types _ w₂ htypes.2.1 fun t P₃ w₃ hlater₃ ht => ?_
    cases signature with
    | some signature =>
      exact derives_pure ((h signature rfl).mono (hlater₁.trans (hlater₂.trans hlater₃)).subset) fun _ => trivial
    | none =>
      exact derives_pure (Ty.recordlessIn_function (fun t ht => (htypes.2.1 t ht).mono hlater₃.subset) ht)
        fun _ => trivial

theorem derives_inferDestructuring {pattern : Pattern} {body : Expr} (hpattern : A.Includes pattern.fragments)
    (hnodes : A.Includes body.fragments) : Derives A context P w (inferDestructuring inferBody pattern body)
      (fun w out => out.1.RecordlessIn w.2 ∧ BoundRecordless w out.2) Anything := by
  refine (hbody _ w body hnodes).bind fun t w₁ _ ht => ?_
  refine (derives_inferPattern hA hscope .declaration pattern ht hpattern).bind fun bound w₂ hlater₂ hbound => ?_
  exact derives_pure ⟨Ty.RecordlessIn.mono ht hlater₂.subset, hbound⟩ fun _ => trivial

omit hA hscope hbody

theorem derives_hidingScopes (inner : Nat) {work : InferM Unit}
    (h : ∀ P w', Succeeds w w' → Derives A context P w' work Anything Anything) :
    Derives A context P w (hidingScopes inner work) Anything Anything := by
  refine derives_getPass.bind fun pass w₁ hlater₁ hpass => ?_
  refine Derives.bind (V := Anything) (W := Anything) (derives_rescope (fun _ => rfl) (fun _ => rfl)
    (fun _ => ⟨List.prefix_rfl, id, List.Subset.refl _⟩) fun p hp =>
      ⟨fun scope hscope => hp.bindings scope (List.mem_of_mem_drop hscope), hp.typeVars⟩) fun _ w₂ hlater₂ _ => ?_
  refine (h _ w₂ (hlater₁.trans hlater₂)).bind fun _ w₃ hlater₃ _ => ?_
  refine Derives.bind (V := Anything) (W := Anything) (derives_rescope (fun _ => rfl) (fun _ => rfl)
    (fun _ => ⟨List.prefix_rfl, id, List.Subset.refl _⟩) fun p hp => ⟨fun scope hscope => ?_, hp.typeVars⟩)
      fun _ _ _ _ => derives_pure trivial fun _ => trivial
  rcases List.mem_append.mp hscope with hscope | hscope
  · exact (hpass.mono (hlater₂.trans hlater₃).subset).bindings scope (List.mem_of_mem_take hscope)
  · exact hp.bindings scope hscope

theorem derives_bindGeneralized {bound : Bound} (h : BoundRecordless w bound) :
    Derives A context P w (bindGeneralized bound) Anything Anything := by
  induction bound generalizing w P with
  | nil => exact derives_pure trivial fun _ => trivial
  | cons entry rest ih =>
    obtain ⟨name, t⟩ := entry
    obtain ⟨ht, hrest⟩ := List.forall_mem_cons.mp h
    rw [bindGeneralized]
    refine (derives_generalize ht).bind fun scheme w₁ hlater₁ hscheme => ?_
    have hbinding : (Binding.poly scheme).Admitted A w₁.2 := hscheme
    refine (derives_bindName _ hbinding).bind fun _ w₂ hlater₂ _ => ?_
    exact ih fun entry hentry => (hrest entry hentry).mono (hlater₁.trans hlater₂).subset

include hA hscope hbody

theorem derives_definitionTypes {definition : ValueDecl} (h : A.Includes definition.fragments) (depth : Nat) :
    Derives A context P w (definitionTypes inferBody definition depth) BoundRecordless Anything := by
  obtain ⟨hhead, hnodes⟩ := Account.includes_add.mp h
  unfold definitionTypes
  split
  · next name params heq =>
    rw [Head.fragments, heq, Head.sites] at hhead
    refine (derives_freshVar "a").bind fun self w₁ _ hself => ?_
    have hactive : (Binding.active self (!params.isEmpty) depth).Admitted A w₁.2 := hself.recordless
    refine (derives_bindName _ hactive).bind fun _ w₂ hlater₂ _ => ?_
    refine (derives_inferFunction hA hscope hbody name hhead hnodes fun _ h => by cases h).bind
      fun t w₃ hlater₃ ht => ?_
    have hself := hself.recordless.mono (hlater₂.trans hlater₃).subset
    refine (derives_check hA _ ht hself).bind fun _ w₄ hlater₄ _ => ?_
    refine (derives_unbind _).bind fun _ w₅ hlater₅ _ => derives_pure (fun entry hentry => ?_) fun _ => trivial
    rw [List.mem_singleton.mp hentry]
    exact Ty.RecordlessIn.mono ht (hlater₄.trans hlater₅).subset
  · next pattern heq =>
    rw [Head.fragments, heq, Head.sites] at hhead
    refine derives_of_fieldless fun hw => ?_
    refine (derives_forM fun name _ P' w' hlater => ?_).bind fun _ w₁ _ _ => ?_
    · have hmono : (Binding.mono .inProgress).Admitted A w'.2 := by
        refine ⟨fun r hr => ?_, Ty.recordless_inProgress⟩
        rw [List.mem_singleton.mp hr]
        exact hlater.subset (hw.plain _ rfl)
      exact derives_bindName _ hmono
    refine (derives_inferDestructuring hA hscope hbody hhead hnodes).bind fun out w₂ _ hout => ?_
    refine (derives_forM fun name _ P' w' _ => derives_unbind _).bind fun _ w₃ hlater₃ _ =>
      derives_pure (fun entry hentry => ?_) fun _ => trivial
    exact (hout.2 entry hentry).mono hlater₃.subset

theorem derives_inferPending (inner : Nat) {definition : ValueDecl} (h : A.Includes definition.fragments) (depth : Nat) :
    Derives A context P w (inferPending inferBody inner definition depth) Anything Anything := by
  refine derives_hidingScopes inner fun _ _ _ => ?_
  refine derives_getPass.bind fun pass w₁ _ _ => ?_
  refine (derives_setDepth fun _ => depth).bind fun _ w₂ _ _ => ?_
  rw [inferDefinition_eq, bind_assoc]
  refine (derives_definitionTypes hA hscope hbody h depth).bind fun bound w₃ _ hbound => ?_
  refine (derives_bindGeneralized hbound).bind fun _ w₄ _ _ => ?_
  exact derives_setDepth fun _ => pass.depth

end Bodies

/-! ### References -/

theorem derives_useBinding (pos : Nat) {binding : Binding} (h : binding.Admitted A w.2) :
    Derives A context P w (useBinding pos binding) Recordless Anything := by
  unfold useBinding
  split
  · exact derives_problem pos _
  · exact derives_pure h fun _ => trivial
  · exact derives_instantiate h
  · refine derives_getPass.bind fun pass w₁ hlater₁ _ => ?_
    split
    · exact derives_problem pos _
    · exact derives_instantiate (Scheme.RecordlessIn.mono h hlater₁.subset)
  · refine derives_getPass.bind fun pass w₁ hlater₁ _ => ?_
    split
    · exact derives_problem pos _
    · exact derives_pure (Ty.RecordlessIn.mono h hlater₁.subset) fun _ => trivial
  · exact derives_unknown fun _ _ => trivial

abbrev RecordlessOutcome (outcome : Except InferError Inferred) : Prop :=
  ∀ result recursive, outcome = .ok (result, recursive) → result.Recordless

/-- What lies elsewhere is accounted for: the bodies of definitions, as far as their nodes are in the account, and other
declarations, whose results have no records. -/
structure ElsewhereDerives (A : Account) (context : Context) (elsewhere : Elsewhere) : Prop where
  body : ∀ P w e, A.Includes (Expr.fragments e) → Derives A context P w (elsewhere.body e) Recordless Anything
  declaration : ∀ index decl, (Declaration.value decl).Recordfree →
    SessionM.Spares context.engine (elsewhere.declaration index decl) RecordlessOutcome

abbrev MaybeRecordless : World → Option Ty → Prop := fun w found => ∀ t, found = some t → t.RecordlessIn w.2

theorem derives_isEvaluatedCycle (index : Nat) (decl : ValueDecl) :
    Derives A context P w (isEvaluatedCycle index decl) Anything Anything := by
  refine derives_getPass.bind fun pass w₁ _ _ => ?_
  split
  · refine derives_engine.bind fun engine w₂ _ _ => derives_read.bind fun _ w₃ _ _ => ?_
    refine (derives_forM fun name _ P' w' _ => ?_).bind fun _ _ _ _ => derives_pure trivial fun _ => trivial
    exact (derives_session (SessionM.spares_trip name)).imp (fun _ _ _ _ => trivial) fun _ _ _ _ h => h
  · exact derives_pure trivial fun _ => trivial

theorem derives_checkCycle (pos index : Nat) (decl : ValueDecl) :
    Derives A context P w (checkCycle pos index decl) Anything Anything := by
  refine derives_read.bind fun _ w₁ _ _ => ?_
  split
  · split
    · exact (derives_report _ _).forget
    · refine derives_getPass.bind fun pass w₂ _ _ => ?_
      split
      · exact (derives_report _ _).forget
      · exact derives_pure trivial fun _ => trivial
  · refine (derives_isEvaluatedCycle index decl).bind fun _ w₂ _ _ => ?_
    split
    · exact (derives_report _ _).forget
    · exact derives_pure trivial fun _ => trivial

/-- The declarations in progress that were referred to concern neither what is in scope nor what is recorded. -/
theorem derives_noteRecursive (names : List Name) : Derives A context P w
    (modifyPass fun pass => { pass with recursive := pass.recursive ++ names }) Anything Anything :=
  derives_rescope (fun _ => rfl) (fun _ => rfl) (fun _ => ⟨List.prefix_rfl, id, List.subset_append_left _ _⟩)
    fun _ hpass => ⟨hpass.bindings, hpass.typeVars⟩

section Elsewhere

variable {elsewhere : Elsewhere} (hA : A.Proper) (hscope : context.engine.scope.Recordfree)
  (helsewhere : ElsewhereDerives A context elsewhere)

include hscope helsewhere

include hA in
theorem derives_localReference (pos : Nat) (name : Name) :
    Derives A context P w (localReference elsewhere pos name) MaybeRecordless Anything := by
  have huse : ∀ binding P (w : World), binding.Admitted A w.2 → Derives A context P w
      (do return some (← useBinding pos binding) : InferM (Option Ty)) MaybeRecordless Anything := by
    intro binding P w hbinding
    refine (derives_useBinding pos hbinding).bind fun t w₁ _ ht => derives_pure (fun u hu => ?_) fun _ => trivial
    cases hu
    exact ht
  refine (derives_lookup name).bind fun found w₁ _ hfound => ?_
  split
  · exact derives_pure (fun _ h => by cases h) fun _ => trivial
  · refine (derives_inferPending hA hscope helsewhere.body _ (hfound _ _ rfl) _).bind fun _ w₂ _ _ => ?_
    refine (derives_lookup name).bind fun found w₃ _ hfound => ?_
    split
    · exact huse _ _ _ (hfound _ _ rfl)
    · refine derives_of_fieldless fun hw => derives_pure (fun t ht => ?_) fun _ => trivial
      cases ht
      exact Ty.recordlessIn_unknown hw.plain
  · exact huse _ _ _ (hfound _ _ rfl)

theorem derives_declarationType (pos : Nat) (name : Name) (index : Nat) {decl : ValueDecl}
    (hdecl : (Declaration.value decl).Recordfree) :
    Derives A context P w (declarationType elsewhere pos name index decl) Recordless Anything := by
  refine (derives_checkCycle pos index decl).bind fun _ w₁ _ _ => ?_
  split
  · next signature hsignature =>
    refine derives_convertForeign hscope ?_
    obtain ⟨hsigned, -⟩ := hdecl
    unfold functionSignature? at hsignature
    split at hsignature
    · rw [Definition.isSignedRecordfree, hsignature] at hsigned
      exact hsigned
    · cases hsignature
  · refine derives_get.bind fun _ w₂ _ _ => ?_
    split
    · exact (derives_noteRecursive _).bind fun _ _ _ _ => derives_unknown fun _ _ => trivial
    · refine (derives_session (helsewhere.declaration index decl hdecl)).bind fun outcome w₃ _ houtcome => ?_
      split
      · refine (derives_noteRecursive _).bind fun _ _ _ _ => ?_
        exact derives_external ((houtcome _ _ rfl).resultType decl name)
      · exact derives_cancel.bind fun _ _ _ _ => derives_unknown fun _ _ => trivial
      · exact derives_unknown fun _ _ => trivial

theorem derives_targetType (pos : Nat) (name : Name) {target : ValueTarget} (htarget : target.Recordfree) :
    Derives A context P w (targetType elsewhere pos name target) Recordless Anything := by
  cases target with
  | value index decl => exact derives_declarationType hscope helsewhere pos name index htarget
  | variant m decl index =>
    rw [targetType]
    refine derives_engine.bind fun engine w₁ _ hengine => ?_
    subst hengine
    refine (derives_unionType hscope _ htarget).bind fun d w₂ _ hd =>
      (derives_variant hd _).bind fun found w₃ _ hfound => ?_
    split
    · obtain ⟨hargs, ht⟩ := hfound _ _ rfl
      exact derives_pure (Ty.recordlessIn_function hargs ht) fun _ => trivial
    · exact derives_unknown fun _ _ => trivial
  | recordConstructor m decl => exact htarget.elim
  | hostValue decl => exact derives_convertForeign hscope htarget
  | external t => exact derives_external htarget

theorem derives_globalReference (pos : Nat) (name : Ref) :
    Derives A context P w (globalReference elsewhere pos name) Recordless Anything := by
  refine (derives_session (SessionM.spares_findValues name)).bind fun targets w₁ _ htargets => ?_
  split
  · exact derives_targetType hscope helsewhere pos name.name (hscope.target (htargets ▸ List.mem_singleton_self _))
  · exact derives_unknown fun _ _ => trivial

include hA in
theorem derives_reference (pos : Nat) (name : Ref) :
    Derives A context P w (reference elsewhere pos name) Recordless Anything := by
  unfold reference
  split
  · exact derives_globalReference hscope helsewhere pos name
  · refine (derives_localReference hA hscope helsewhere pos name.name).bind fun found w₁ _ hfound => ?_
    split
    · exact derives_pure (hfound _ rfl) fun _ => trivial
    · exact derives_globalReference hscope helsewhere pos name

theorem derives_operatorType (pos : Nat) (name : Name) : Derives A context P w (operatorType elsewhere pos name)
    (fun w found => ∀ precedence t, found = some (precedence, t) → t.RecordlessIn w.2) Anything := by
  refine derives_engine.bind fun engine w₁ _ hengine => ?_
  subst hengine
  split
  · next target htargets =>
    refine (derives_targetType hscope helsewhere pos name
      (hscope.operator (htargets ▸ List.mem_singleton_self target))).bind fun t w₂ _ ht =>
        derives_pure (fun precedence u hu => ?_) fun _ => trivial
    cases hu
    exact ht
  · exact derives_pure (fun _ _ h => by cases h) fun _ => trivial

end Elsewhere

/-! ### Entering a `let` -/

structure LetScope.Admitted (A : Account) (Q : Set Mention) (l : LetScope) : Prop where
  bindings : ∀ entry ∈ l.scope, entry.2.Admitted A Q
  signed : ∀ d ∈ l.signed, d.scheme.ty.RecordlessIn Q ∧ VarsWithin d.vars Q ∧
    A.Includes (Pattern.fragmentsList d.params) ∧ A.Includes d.body.fragments

theorem LetScope.Admitted.mono {Q Q' : Set Mention} {l : LetScope} (h : LetScope.Admitted A Q l) (hQ : Q ⊆ Q') :
    LetScope.Admitted A Q' l :=
  ⟨fun entry hentry => (h.bindings entry hentry).mono hQ,
    fun d hd => ⟨(h.signed d hd).1.mono hQ, (h.signed d hd).2.1.mono hQ, (h.signed d hd).2.2⟩⟩

theorem derives_declareAll (names : List Name) (more : List NameAt) :
    Derives A context P w (declareAll names more) Anything Anything := by
  induction more generalizing names w P with
  | nil => exact derives_pure trivial fun _ => trivial
  | cons name rest ih => exact (derives_declare names name).bind fun names w₁ _ _ => ih names

theorem derives_readDefinition (hscope : context.engine.scope.Recordfree) (slot : Nat) {definition : ValueDecl}
    (hnodes : A.Includes definition.fragments) (hsigned : definition.isSignedRecordfree = true) {l : LetScope}
    (h : LetScope.Admitted A w.2 l) : Derives A context P w (readDefinition slot definition l)
      (fun w l => LetScope.Admitted A w.2 l) Anything := by
  refine (derives_declareAll _ _).bind fun names w₁ hlater₁ _ => ?_
  refine derives_getPass.bind fun pass w₂ hlater₂ hpass => ?_
  have hl := h.mono (hlater₁.trans hlater₂).subset
  split
  · next name params signature hhead hsignature =>
    obtain ⟨hparams, hbody⟩ := Account.includes_add.mp hnodes
    rw [Head.fragments, hhead, Head.sites] at hparams
    rw [Definition.isSignedRecordfree, hsignature] at hsigned
    refine (derives_convertSignature hscope hsigned hpass.typeVars).bind fun out w₃ hlater₃ hout =>
      derives_pure ?_ fun _ => trivial
    obtain ⟨hl, hread⟩ := hl.mono hlater₃.subset
    refine ⟨fun entry hentry => ?_, fun d hd => ?_⟩
    · rcases Assoc.mem_set hentry with hentry | rfl
      · exact hl entry hentry
      · exact hout.1.scheme _
    · rcases List.mem_append.mp hd with hd | hd
      · exact hread d hd
      · rw [List.mem_singleton.mp hd]
        exact ⟨hout.1, hout.2, hparams, hbody⟩
  · refine derives_pure ⟨?_, hl.signed⟩ fun _ => trivial
    refine List.foldlRecOn (motive := fun (scope : Scope) => ∀ entry ∈ scope, entry.2.Admitted A w₂.2) _ _ hl.bindings ?_
    intro scope hscope name _ entry hentry
    rcases Assoc.mem_set hentry with hentry | rfl
    · exact hscope entry hentry
    · exact hnodes

theorem derives_readDefinitions (hscope : context.engine.scope.Recordfree) (slot : Nat) {definitions : List ValueDecl}
    (hnodes : A.Includes (Expr.definitionFragments definitions))
    (hsigned : ∀ d ∈ definitions, Definition.isSignedRecordfree d = true) {l : LetScope}
    (h : LetScope.Admitted A w.2 l) : Derives A context P w (readDefinitions slot definitions l)
      (fun w l => LetScope.Admitted A w.2 l) Anything := by
  induction definitions generalizing slot l w P with
  | nil => exact derives_pure h fun _ => trivial
  | cons definition rest ih =>
    rw [Expr.definitionFragments, Account.includes_add] at hnodes
    obtain ⟨hfirst, hrest⟩ := List.forall_mem_cons.mp hsigned
    exact (derives_readDefinition hscope slot hnodes.1 hfirst h).bind fun l w₁ _ hl => ih (slot + 1) hnodes.2 hrest hl

theorem derives_isPending (slot : Nat) : Derives A context P w (isPending slot) Anything Anything := by
  refine derives_getPass.bind fun pass w₁ _ _ => ?_
  split
  · exact derives_pure trivial fun _ => trivial
  · exact derives_pure trivial fun _ => trivial

/-- The type variables of signatures concern nothing that is recorded. -/
theorem derives_setTypeVars {vars : Assoc Name Ty} (h : VarsWithin vars w.2) :
    Derives A context P w (modifyPass fun pass => { pass with typeVars := vars }) Anything Anything :=
  derives_rescope (fun _ => rfl) (fun _ => rfl) (fun _ => ⟨List.prefix_rfl, id, List.Subset.refl _⟩)
    fun _ hpass => ⟨hpass.bindings, h⟩

section Let

variable {inferBody : Expr → InferM Ty} (hA : A.Proper) (hscope : context.engine.scope.Recordfree)
  (hbody : ∀ P w e, A.Includes (Expr.fragments e) → Derives A context P w (inferBody e) Recordless Anything)

include hA hscope hbody

theorem derives_inferWaiting (slot : Nat) {definitions : List ValueDecl}
    (hnodes : A.Includes (Expr.definitionFragments definitions)) :
    Derives A context P w (inferWaiting inferBody slot definitions) Anything Anything := by
  induction definitions generalizing slot w P with
  | nil => exact derives_pure trivial fun _ => trivial
  | cons definition rest ih =>
    rw [Expr.definitionFragments, Account.includes_add] at hnodes
    refine (derives_isPending slot).bind fun pending w₁ _ _ => ?_
    split
    · refine derives_getPass.bind fun pass w₂ _ _ => ?_
      exact (derives_inferPending hA hscope hbody 0 hnodes.1 pass.depth).bind fun _ _ _ _ => ih (slot + 1) hnodes.2
    · exact ih (slot + 1) hnodes.2

theorem derives_checkSigned {d : SignedDefinition} (ht : d.scheme.ty.RecordlessIn w.2) (hvars : VarsWithin d.vars w.2)
    (hparams : A.Includes (Pattern.fragmentsList d.params)) (hnodes : A.Includes d.body.fragments) :
    Derives A context P w (checkSigned inferBody d) Anything Anything := by
  have hscheme : ∀ w' : World, Succeeds w w' → d.scheme.RecordlessIn w'.2 :=
    fun w' hlater => (ht.mono hlater.subset).scheme d.scheme.vars
  refine derives_getPass.bind fun pass w₁ hlater₁ hpass => ?_
  have hchecking : (Binding.checking d.scheme (!d.params.isEmpty) pass.depth).Admitted A w₁.2 := hscheme w₁ hlater₁
  refine (derives_bindName _ hchecking).bind fun _ w₂ hlater₂ _ => ?_
  refine (derives_setTypeVars (hvars.mono (hlater₁.trans hlater₂).subset)).bind fun _ w₃ hlater₃ _ => ?_
  have hlater := hlater₂.trans hlater₃
  refine (derives_inferFunction hA hscope hbody d.name hparams hnodes
    (?_ : ∀ t, some d.scheme.ty = some t → _)).bind fun _ w₄ hlater₄ _ => ?_
  · intro t heq
    cases heq
    exact ht.mono (hlater₁.trans hlater).subset
  have houter := (hpass.mono (hlater.trans hlater₄).subset).typeVars
  refine (derives_setTypeVars houter).bind fun _ w₅ hlater₅ _ => ?_
  have hpoly : (Binding.poly d.scheme).Admitted A w₅.2 :=
    hscheme w₅ (hlater₁.trans (hlater.trans (hlater₄.trans hlater₅)))
  exact derives_bindName _ hpoly

theorem derives_enterLet {definitions : List ValueDecl} (hnodes : A.Includes (Expr.definitionFragments definitions))
    (hsigned : ∀ d ∈ definitions, Definition.isSignedRecordfree d = true) :
    Derives A context P w (enterLet inferBody definitions) Anything Anything := by
  have hempty : LetScope.Admitted A w.2 {} :=
    ⟨fun _ h => absurd h List.not_mem_nil, fun _ h => absurd h List.not_mem_nil⟩
  refine (derives_readDefinitions hscope 0 hnodes hsigned hempty).bind fun l w₁ _ hl => ?_
  refine (derives_pushScope hl.bindings).bind fun _ w₂ hlater₂ _ => ?_
  refine (derives_inferWaiting hA hscope hbody 0 hnodes).bind fun _ w₃ hlater₃ _ => ?_
  refine derives_forM fun d hd P' w' hlater => ?_
  obtain ⟨ht, hvars, hparams, hnodes⟩ := (hl.mono (hlater₂.trans (hlater₃.trans hlater)).subset).signed d hd
  exact derives_checkSigned hA hscope hbody ht hvars hparams hnodes

end Let

end InferM

end ElmInference
