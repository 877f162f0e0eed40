import ElmInference.Proofs.Infer.Concord

/-!
# Two runs side by side, through definitions and expressions

Two runs of inference get the same for an expression if they get the same for all that is looked up in the module on
its behalf. Local names are found alike on both sides, because the passes hold the same scopes; what has to be said of
them is only that a name counted as local is bound, so that it is not looked up in the module after all.
-/

namespace ElmInference

namespace InferM

variable {α β : Type} {context : Context} {S : Session → Session → Prop} {P Q : List Scope → Prop}

/-! ### Scopes -/

theorem agree_pushScope {scope : Scope} (h : ∀ scopes, P scopes → Q (scope :: scopes)) :
    Agree context S P Q Eq (pushScope scope) (pushScope scope) :=
  agree_modifyPass fun pass _ hpass hP =>
    ⟨congrArg (fun pass : Pass => { pass with scopes := scope :: pass.scopes }) hpass, h pass.scopes hP⟩

theorem agree_popScope (h : ∀ scopes, P scopes → Q scopes.tail) : Agree context S P Q Eq popScope popScope :=
  agree_modifyPass fun pass _ hpass hP =>
    ⟨congrArg (fun pass : Pass => { pass with scopes := pass.scopes.tail }) hpass, h pass.scopes hP⟩

theorem agree_modifyScope {f : Scope → Scope}
    (h : ∀ scopes, P scopes → ∃ scope outer, scopes = scope :: outer ∧ Q (f scope :: outer)) :
    Agree context S P Q Eq (modifyScope f) (modifyScope f) := by
  intro w w' halike hP
  obtain ⟨scope, outer, hscopes, hQ⟩ := h _ hP
  have hscopes' : w'.pass.scopes = scope :: outer := (congrArg Pass.scopes halike.pass :).symm.trans hscopes
  rw [run_modifyScope hscopes, run_modifyScope hscopes']
  exact sameOutcome_ok rfl
    ⟨⟨congrArg (fun pass : Pass => { pass with scopes := f scope :: outer }) halike.pass, halike.session⟩, hQ⟩

/-- What follows the lookup of a local name may use what the scopes are. -/
theorem agree_lookup_bind {name : Name} {f f' : Option (Nat × Binding) → InferM α} {V : α → α → Prop}
    (h : ∀ scopes, P scopes → Agree context S (fun scopes' => scopes' = scopes) Q V (f (lookupIn name scopes))
      (f' (lookupIn name scopes))) : Agree context S P Q V (lookup name >>= f) (lookup name >>= f') := by
  intro w w' halike hP
  have hrun : ∀ (f : Option (Nat × Binding) → InferM α) (w : Work),
      (lookup name >>= f) context w = f (lookupIn name w.pass.scopes) context w := fun _ _ => rfl
  have hscopes : w'.pass.scopes = w.pass.scopes := (congrArg Pass.scopes halike.pass :).symm
  rw [hrun, hrun, hscopes]
  exact h _ hP w w' halike rfl

theorem agree_deeper (levels : Nat) {work work' : InferM α} (h : Agree context S P Q Eq work work') :
    Agree context S P Q Eq (deeper levels work) (deeper levels work') := by
  have hdepth : ∀ (P : List Scope → Prop) (f : Nat → Nat), Same context S P
      (modifyPass (fun pass => { pass with depth := f pass.depth })) :=
    fun P f => same_modifyPass (fun _ => rfl) fun _ => rfl
  exact (hdepth P (· + levels)).agree.bind_eq fun _ => h.bind_eq fun _ =>
    (hdepth Q (· - levels)).agree.bind_eq fun _ => agree_pure rfl

variable {fine : Use → Prop} {locals : List (List Name)}

theorem agree_bindName {present names : List Name} (name : Name) (binding : Binding) (hb : ¬ binding.IsPending) :
    Agree context S (HeldFor fine present names locals) (HeldFor fine (name :: present) names locals) Eq
      (InferM.bind name binding) (InferM.bind name binding) := by
  refine agree_modifyScope fun scopes h => ?_
  cases scopes with
  | nil => exact h.elim
  | cons scope outer => exact ⟨scope, outer, rfl, h.set name hb⟩

theorem agree_unbindName {present names : List Name} (name : Name) :
    Agree context S (HeldFor fine present names locals) (HeldFor fine (present.filter (· ≠ name)) names locals) Eq
      (unbind name) (unbind name) := by
  refine agree_modifyScope fun scopes h => ?_
  cases scopes with
  | nil => exact h.elim
  | cons scope outer => exact ⟨scope, outer, rfl, h.remove name⟩

theorem agree_bindNames {present names : List Name} (more : List NameAt) {binding : Binding} (hb : ¬ binding.IsPending) :
    Agree context S (HeldFor fine present names locals) (HeldFor fine present names locals) Eq
      (more.forM fun name => InferM.bind name.name binding) (more.forM fun name => InferM.bind name.name binding) := by
  induction more with
  | nil => exact agree_pure rfl
  | cons name rest ih =>
    refine ((agree_bindName name.name binding hb).mono (fun _ => id) (fun _ => ?_) fun _ _ => id).bind_eq fun _ => ih
    exact HeldFor.mono (List.subset_cons_self _ _)

theorem agree_unbindNames {present names : List Name} (more : List NameAt) :
    Agree context S (HeldFor fine present names locals)
      (HeldFor fine (present.filter (· ∉ more.map NameAt.name)) names locals) Eq
      (more.forM fun name => unbind name.name) (more.forM fun name => unbind name.name) := by
  induction more generalizing present with
  | nil => exact (agree_pure rfl).mono (fun _ => id) (fun _ => HeldFor.mono List.filter_sublist.subset) fun _ _ => id
  | cons name rest ih =>
    refine (agree_unbindName name.name).bind_eq fun _ => ih.mono (fun _ => id) (fun _ => HeldFor.mono ?_) fun _ _ => id
    intro other hother
    simp only [List.mem_filter, List.map_cons, List.mem_cons, not_or, decide_eq_true_eq] at hother ⊢
    exact ⟨⟨hother.1, hother.2.1⟩, hother.2.2⟩

theorem agree_forM {f f' : α → InferM PUnit} {xs : List α} (h : ∀ a ∈ xs, Agree context S P P Eq (f a) (f' a)) :
    Agree context S P P Eq (xs.forM f) (xs.forM f') := by
  induction xs with
  | nil => exact agree_pure rfl
  | cons x xs ih =>
    obtain ⟨hfirst, hrest⟩ := List.forall_mem_cons.mp h
    exact hfirst.bind_eq fun _ => ih hrest

/-- Work in scopes further out is hidden from the scopes inside. -/
theorem agree_hidingScopes (inner : Nat) {work work' : InferM α}
    (h : Agree context S (Held fine (locals.drop inner)) (Held fine (locals.drop inner)) Eq work work') :
    Agree context S (Held fine locals) (Held fine locals) Eq (hidingScopes inner work) (hidingScopes inner work') := by
  refine agree_getPass fun pass pass' hpass hheld => ?_
  have hscopes : pass'.scopes = pass.scopes := (congrArg Pass.scopes hpass :).symm
  rw [hscopes]
  have hdrop : Agree context S (fun scopes => scopes = pass.scopes) (Held fine (locals.drop inner)) Eq
      (modifyPass (fun pass => { pass with scopes := pass.scopes.drop inner }))
      (modifyPass (fun pass => { pass with scopes := pass.scopes.drop inner })) := by
    refine agree_modifyPass fun pass₁ _ hpass₁ heq => ⟨?_, ?_⟩
    · exact congrArg (fun pass : Pass => { pass with scopes := pass.scopes.drop inner }) hpass₁
    · rw [heq]
      exact hheld.drop inner
  refine hdrop.bind_eq fun _ => h.bind_eq fun a => ?_
  refine Agree.bind_eq (agree_modifyPass fun pass₁ _ hpass₁ houter => ⟨?_, hheld.restore houter⟩) fun _ => agree_pure rfl
  exact congrArg (fun pass' : Pass => { pass' with scopes := pass.scopes.take inner ++ pass'.scopes }) hpass₁

section Concordant

variable (hS : Concordant context.engine S)

include hS

/-- The names that a pattern binds come into the innermost scope. -/
theorem agree_bindAll (taken : List Name) {present names : List Name} (bound : Bound) :
    Agree context S (HeldFor fine present names locals) (HeldFor fine (bound.map (·.1.name) ++ present) names locals) Eq
      (bindAll taken bound) (bindAll taken bound) := by
  induction bound generalizing taken present with
  | nil => exact agree_pure rfl
  | cons entry rest ih =>
    rw [bindAll]
    refine ((contained_declare taken entry.1).agree hS).bind_eq fun taken => ?_
    refine (agree_bindName entry.1.name (.mono entry.2) id).bind_eq fun _ => ?_
    exact (ih taken).mono (fun _ => id) (fun _ => HeldFor.mono List.perm_middle.symm.subset) fun _ _ => id

/-- What lies inside of binders is inferred with their names in a scope of its own. -/
theorem agree_withBound (taken : List Name) {names : List Name} {binders : InferM Bound} (hbinders : Contained True True binders)
    (hnames : ∀ w bound w', binders context w = (.ok bound, w') → bound.map (·.1.name) = names) {rest rest' : InferM β}
    (h : Agree context S (Held fine (names :: locals)) Q Eq rest rest') :
    Agree context S (Held fine locals) Q Eq (do pushScope []; let bound ← binders; bindAll taken bound; rest)
      (do pushScope []; let bound ← binders; bindAll taken bound; rest') := by
  have hpush : Agree context S (Held fine locals) (HeldFor fine [] names locals) Eq (pushScope []) (pushScope []) :=
    agree_pushScope fun scopes hheld => ⟨nofun, nofun, hheld⟩
  have hbound := (hbinders.agree (P := HeldFor fine [] names locals) hS).yielding hnames
  refine hpush.bind_eq fun _ => hbound.bind fun bound _ hsame => ?_
  obtain ⟨rfl, hnames⟩ := hsame
  refine (agree_bindAll hS taken bound).bind_eq fun _ => h.mono (fun _ hheld => ?_) (fun _ => id) fun _ _ => id
  rw [hnames, List.append_nil] at hheld
  exact held_cons.mpr hheld

/-! ### Definitions -/

section Bodies

variable {inferBody inferBody' : Expr → InferM Ty}
  (hbody : ∀ locals e, (∀ u ∈ e.uses (List.flatten locals), fine u) →
    Agree context S (Held fine locals) (Held fine locals) Eq (inferBody e) (inferBody' e))

include hbody

omit hS hbody in
theorem names_inferPattern {place : PatternPlace} {p : Pattern} {t : Ty} {bound : Bound} {w w' : Work}
    (hrun : inferPattern place p t context w = (.ok bound, w')) :
    bound.map (·.1.name) = p.boundNames.map NameAt.name := by
  rw [← map_fst_inferPattern place p hrun, List.map_map]
  rfl

omit hS hbody in
theorem names_inferParams {params : List Pattern} {types : List Ty} {bound : Bound} {w w' : Work}
    (hlength : types.length = params.length) (hrun : inferParams params types context w = (.ok bound, w')) :
    bound.map (·.1.name) = (Pattern.boundNamesList params).map NameAt.name := by
  induction params generalizing types bound w with
  | nil =>
    cases types with
    | nil =>
      cases hrun
      rfl
    | cons _ _ => cases hlength
  | cons p ps ih =>
    cases types with
    | nil => cases hlength
    | cons t ts =>
      rw [inferParams] at hrun
      obtain ⟨first, w₁, hfirst, hrun⟩ := run_bind_inv hrun
      obtain ⟨rest, w₂, hrest, hrun⟩ := run_bind_inv hrun
      cases hrun
      rw [List.map_append, names_inferPattern hfirst, ih (Nat.succ.inj hlength) hrest, Pattern.boundNamesList,
        List.map_append]

omit hS hbody in
theorem length_expectedParams {name : NameAt} {params : List Pattern} {signature : Option Ty} {expected : Option (List Ty)}
    {w w' : Work} (hrun : expectedParams name params signature context w = (.ok expected, w')) :
    ∀ types, expected = some types → types.length = params.length := by
  rintro types rfl
  cases signature with
  | none => cases hrun
  | some signature =>
    rw [expectedParams] at hrun
    split at hrun
    · obtain ⟨_, _, -, hrun⟩ := run_bind_inv hrun
      cases hrun
    · next hle =>
      cases hrun
      rw [List.length_take]
      omega

theorem agree_inferFunction (name : NameAt) (params : List Pattern) (body : Expr) (signature : Option Ty)
    (h : ∀ u ∈ body.uses ((Pattern.boundNamesList params).map NameAt.name ++ locals.flatten), fine u) :
    Agree context S (Held fine locals) (Held fine locals) Eq (inferFunction inferBody name params body signature)
      (inferFunction inferBody' name params body signature) := by
  have hrest : ∀ types : List Ty, types.length = params.length → ∀ last : Ty → InferM Ty, (∀ t, Contained True True (last t)) →
      Agree context S (Held fine locals) (Held fine locals) Eq
        (do pushScope []
            let bound ← inferParams params types
            bindAll [name.name] bound
            let t ← deeper (if params.isEmpty then 0 else 1) (inferBody body)
            popScope
            last t)
        (do pushScope []
            let bound ← inferParams params types
            bindAll [name.name] bound
            let t ← deeper (if params.isEmpty then 0 else 1) (inferBody' body)
            popScope
            last t) := by
    intro types hlength last hlast
    refine agree_withBound hS _ (contained_inferParams params types) (fun _ _ _ => names_inferParams hlength) ?_
    refine (agree_deeper _ (hbody (_ :: locals) body h)).bind_eq fun t => ?_
    exact (agree_popScope fun _ => Held.tail).bind_eq fun _ => (hlast t).agree hS
  have hexpected := ((contained_expectedParams name params signature).agree (P := Held fine locals) hS).yielding
    fun _ _ _ => length_expectedParams
  refine hexpected.bind fun expected _ hsame => ?_
  obtain ⟨rfl, hlength⟩ := hsame
  cases expected with
  | some types =>
    refine hrest types (hlength types rfl) _ fun t => ?_
    cases signature with
    | some signature => exact (contained_check _ _ _).bind fun _ => .pure _
    | none => exact .pure _
  | none =>
    have hfresh := ((contained_freshVars "a" params).agree (P := Held fine locals) hS).yielding
      fun _ _ _ => length_freshVars
    refine hfresh.bind fun types _ hsame => ?_
    obtain ⟨rfl, hlength⟩ := hsame
    refine hrest types hlength _ fun t => ?_
    cases signature <;> exact .pure _

theorem agree_inferDestructuring (pattern : Pattern) {body : Expr} (h : ∀ u ∈ body.uses locals.flatten, fine u) :
    Agree context S (Held fine locals) (Held fine locals)
      (fun out out' => out = out' ∧ out.2.map (·.1.name) = pattern.boundNames.map NameAt.name)
      (inferDestructuring inferBody pattern body) (inferDestructuring inferBody' pattern body) := by
  refine Agree.yielding ?_ fun _ _ _ => map_fst_inferDestructuring
  exact (hbody locals body h).bind_eq fun t =>
    ((contained_inferPattern .declaration pattern t).agree hS).bind_eq fun _ => agree_pure rfl

omit hbody in
theorem agree_bindGeneralized {present names : List Name} (bound : Bound) :
    Agree context S (HeldFor fine present names locals) (HeldFor fine (bound.map (·.1.name) ++ present) names locals) Eq
      (bindGeneralized bound) (bindGeneralized bound) := by
  induction bound generalizing present with
  | nil => exact agree_pure rfl
  | cons entry rest ih =>
    rw [bindGeneralized]
    refine ((contained_generalize entry.2).agree hS).bind_eq fun scheme => ?_
    refine (agree_bindName entry.1.name (.poly scheme) id).bind_eq fun _ => ?_
    exact ih.mono (fun _ => id) (fun _ => HeldFor.mono List.perm_middle.symm.subset) fun _ _ => id

/-- Both sides infer a definition of the innermost scope alike; all names of that scope are bound again afterwards. -/
theorem agree_inferDefinition {names : List Name} {d : ValueDecl} (depth : Nat)
    (h : ∀ u ∈ d.uses (names ++ locals.flatten), fine u) :
    Agree context S (Held fine (names :: locals)) (Held fine (names :: locals)) Eq (inferDefinition inferBody d depth)
      (inferDefinition inferBody' d depth) := by
  unfold inferDefinition
  unfold Definition.uses Head.paramNames at h
  cases hhead : d.head with
  | function name params =>
    rw [hhead] at h
    refine ((contained_freshVar "a").agree hS).bind_eq fun self => ?_
    have hbind : Agree context S (Held fine (names :: locals)) (Held fine (names :: locals)) Eq
        (InferM.bind name.name (.active self (!params.isEmpty) depth))
        (InferM.bind name.name (.active self (!params.isEmpty) depth)) :=
      (agree_bindName name.name _ id).mono (fun _ => held_cons.mp)
        (fun _ hheld => held_cons.mpr (hheld.mono (List.subset_cons_self _ _))) fun _ _ => id
    have hfunction : Agree context S (Held fine (names :: locals)) (Held fine (names :: locals)) Eq
        (inferFunction inferBody name params d.body none) (inferFunction inferBody' name params d.body none) :=
      agree_inferFunction hS hbody name params d.body none h
    refine hbind.bind_eq fun _ => hfunction.bind_eq fun t => ?_
    refine ((contained_check _ _ _).agree hS).bind_eq fun _ => ?_
    refine ((agree_unbindName name.name).mono (fun _ => held_cons.mp) (fun _ => id) fun _ _ => id).bind_eq fun _ => ?_
    refine ((contained_generalize t).agree hS).bind_eq fun scheme => ?_
    refine (agree_bindName name.name (.poly scheme) id).mono (fun _ => id) (fun _ hheld => ?_) fun _ _ => id
    refine held_cons.mpr (hheld.mono fun other hother => ?_)
    by_cases heq : other = name.name
    · exact heq ▸ List.mem_cons_self
    · exact List.mem_cons_of_mem _ (List.mem_filter.mpr ⟨hother, decide_eq_true heq⟩)
  | pattern pattern =>
    rw [hhead] at h
    refine ((agree_bindNames pattern.boundNames id).mono (fun _ => held_cons.mp) (fun _ => held_cons.mpr)
      fun _ _ => id).bind_eq fun _ => ?_
    have hpattern : Agree context S (Held fine (names :: locals)) (Held fine (names :: locals))
        (fun out out' => out = out' ∧ out.2.map (·.1.name) = pattern.boundNames.map NameAt.name)
        (inferDestructuring inferBody pattern d.body) (inferDestructuring inferBody' pattern d.body) :=
      agree_inferDestructuring hS hbody pattern h
    refine hpattern.bind fun out _ hsame => ?_
    obtain ⟨rfl, hbound⟩ := hsame
    refine ((agree_unbindNames pattern.boundNames).mono (fun _ => held_cons.mp) (fun _ => id) fun _ _ => id).bind_eq
      fun _ => ?_
    refine (agree_bindGeneralized hS out.2).mono (fun _ => id) (fun _ hheld => ?_) fun _ _ => id
    refine held_cons.mpr (hheld.mono fun other hother => ?_)
    rw [hbound]
    by_cases hmem : other ∈ pattern.boundNames.map NameAt.name
    · exact List.mem_append_left _ hmem
    · exact List.mem_append_right _ (List.mem_filter.mpr ⟨hother, decide_eq_true hmem⟩)

theorem agree_inferPending {inner : Nat} {names : List Name} {outer : List (List Name)} {d : ValueDecl} (depth : Nat)
    (hlocals : locals.drop inner = names :: outer) (h : ∀ u ∈ d.uses (names ++ outer.flatten), fine u) :
    Agree context S (Held fine locals) (Held fine locals) Eq (inferPending inferBody inner d depth)
      (inferPending inferBody' inner d depth) := by
  refine agree_hidingScopes inner ?_
  rw [hlocals]
  refine agree_getPass fun pass pass' hpass hheld => ?_
  have houtside : pass'.depth = pass.depth := (congrArg Pass.depth hpass :).symm
  dsimp only
  rw [houtside]
  have hdepth : ∀ depth, Same context S (Held fine (names :: outer)) (modifyPass (fun pass => { pass with depth })) :=
    fun depth => same_modifyPass (fun _ => rfl) fun _ => rfl
  refine Agree.mono ?_ (fun _ heq => heq ▸ hheld) (fun _ => id) fun _ _ => id
  exact (hdepth depth).agree.bind_eq fun _ => (agree_inferDefinition hS hbody depth h).bind_eq fun _ => hdepth _

theorem agree_inferWaiting {names : List Name} (slot : Nat) {definitions : List ValueDecl}
    (h : ∀ d ∈ definitions, ∀ u ∈ d.uses (names ++ locals.flatten), fine u) :
    Agree context S (Held fine (names :: locals)) (Held fine (names :: locals)) Eq
      (inferWaiting inferBody slot definitions) (inferWaiting inferBody' slot definitions) := by
  induction definitions generalizing slot with
  | nil => exact agree_pure rfl
  | cons d rest ih =>
    obtain ⟨hfirst, hrest⟩ := List.forall_mem_cons.mp h
    rw [inferWaiting, inferWaiting]
    refine ((contained_isPending slot).agree hS).bind_eq fun waiting => ?_
    split
    · refine agree_getPass fun pass pass' hpass hheld => ?_
      have hdepth : pass'.depth = pass.depth := (congrArg Pass.depth hpass :).symm
      have hpending : Agree context S (fun scopes => scopes = pass.scopes) (Held fine (names :: locals)) Eq
          (inferPending inferBody 0 d pass.depth) (inferPending inferBody' 0 d pass.depth) :=
        (agree_inferPending hS hbody pass.depth rfl hfirst).mono (fun _ heq => heq ▸ hheld) (fun _ => id) fun _ _ => id
      rw [hdepth]
      exact hpending.bind_eq fun _ => ih (slot + 1) hrest
    · exact ih (slot + 1) hrest

theorem agree_checkSigned {names : List Name} {s : SignedDefinition}
    (h : ∀ u ∈ s.body.uses ((Pattern.boundNamesList s.params).map NameAt.name ++ (names ++ locals.flatten)), fine u) :
    Agree context S (Held fine (names :: locals)) (Held fine (names :: locals)) Eq (checkSigned inferBody s)
      (checkSigned inferBody' s) := by
  have hbind : ∀ binding : Binding, ¬ binding.IsPending →
      Agree context S (Held fine (names :: locals)) (Held fine (names :: locals)) Eq
        (InferM.bind s.name.name binding) (InferM.bind s.name.name binding) :=
    fun binding hb => (agree_bindName s.name.name binding hb).mono (fun _ => held_cons.mp)
      (fun _ hheld => held_cons.mpr (hheld.mono (List.subset_cons_self _ _))) fun _ _ => id
  have hvars : ∀ vars : Assoc Name Ty,
      Same context S (Held fine (names :: locals)) (modifyPass (fun pass => { pass with typeVars := vars })) :=
    fun vars => same_modifyPass (fun _ => rfl) fun _ => rfl
  have hfunction : Agree context S (Held fine (names :: locals)) (Held fine (names :: locals)) Eq
      (inferFunction inferBody s.name s.params s.body (some s.scheme.ty))
      (inferFunction inferBody' s.name s.params s.body (some s.scheme.ty)) :=
    agree_inferFunction hS hbody s.name s.params s.body _ h
  refine agree_getPass fun pass pass' hpass hheld => ?_
  have hdepth : pass'.depth = pass.depth := (congrArg Pass.depth hpass :).symm
  have htypeVars : pass'.typeVars = pass.typeVars := (congrArg Pass.typeVars hpass :).symm
  rw [hdepth, htypeVars]
  refine Agree.mono ?_ (fun _ heq => heq ▸ hheld) (fun _ => id) fun _ _ => id
  refine (hbind _ id).bind_eq fun _ => (hvars s.vars).agree.bind_eq fun _ => hfunction.bind_eq fun _ => ?_
  exact (hvars pass.typeVars).agree.bind_eq fun _ => hbind _ id

/-- Opening a `let` brings the names of its definitions into scope. -/
theorem agree_enterLet {definitions : List ValueDecl}
    (h : ∀ d ∈ definitions, ∀ u ∈ d.uses (definitions.flatMap Definition.names ++ locals.flatten), fine u) :
    Agree context S (Held fine locals) (Held fine (definitions.flatMap Definition.names :: locals)) Eq
      (enterLet inferBody definitions) (enterLet inferBody' definitions) := by
  have hread := ((contained_readDefinitions 0 definitions {}).agree (P := Held fine locals) hS).yielding
    fun _ _ _ => reads_empty.readDefinitions
  refine hread.bind fun l _ hsame => ?_
  obtain ⟨rfl, hreads⟩ := hsame
  have hpush : Agree context S (Held fine locals) (Held fine (definitions.flatMap Definition.names :: locals)) Eq
      (pushScope l.scope) (pushScope l.scope) := by
    refine agree_pushScope fun scopes hheld => ⟨fun name hname => ?_, fun name slot d depth hmem => ?_, hheld⟩
    · obtain ⟨d, hd, hname⟩ := List.mem_flatMap.mp hname
      exact hreads.bound d hd name hname
    · exact h d (hreads.pending name slot d depth hmem)
  refine hpush.bind_eq fun _ => (agree_inferWaiting hS hbody 0 h).bind_eq fun _ => agree_forM fun s hs => ?_
  obtain ⟨d, hd, hhead, hbodies⟩ := hreads.signed s hs
  refine agree_checkSigned hS hbody ?_
  have huses := h d hd
  rwa [Definition.uses, Head.paramNames, hhead, hbodies] at huses

end Bodies

/-! ### Names -/

section Elsewhere

variable {elsewhere elsewhere' : Elsewhere}
  (hfine : ∀ u, fine u → Fine context.engine S elsewhere elsewhere' u)
  (hbody : ∀ locals e, (∀ u ∈ e.uses (List.flatten locals), fine u) →
    Agree context S (Held fine locals) (Held fine locals) Eq (elsewhere.body e) (elsewhere'.body e))

include hbody

/-- A local name means the same on both sides; one that is none is looked up in the module. -/
theorem agree_localReference (pos : Nat) {name : Name}
    (h : ∀ u ∈ Expr.usesOf locals.flatten (Ref.plain name), fine u) :
    Agree context S (Held fine locals) (Held fine locals)
      (fun found found' => found = found' ∧ (found = none → fine (.value (Ref.plain name))))
      (localReference elsewhere pos name) (localReference elsewhere' pos name) := by
  have huse : ∀ (P : List Scope → Prop) (binding : Binding), Agree context S P P
      (fun found found' => found = found' ∧ (found = none → fine (.value (Ref.plain name))))
      (do return some (← useBinding pos binding)) (do return some (← useBinding pos binding)) :=
    fun P binding => ((contained_useBinding pos binding).agree hS).bind_eq fun _ => agree_pure ⟨rfl, nofun⟩
  refine agree_lookup_bind fun scopes hheld => ?_
  refine Agree.mono ?_ (fun _ heq => heq ▸ hheld) (fun _ => id) fun _ _ => id
  rcases hfound : lookupIn name scopes with _ | ⟨inner, binding⟩
  · exact agree_pure ⟨rfl, fun _ => h _ (mem_usesOf_of_lookupIn hheld hfound)⟩
  · cases binding with
    | pending slot d depth =>
      obtain ⟨names, outer, hlocals, huses⟩ := hheld.waiting_of_lookupIn hfound
      refine (agree_inferPending hS hbody depth hlocals huses).bind_eq fun _ => ?_
      refine ((contained_lookup name).agree hS).bind_eq fun found => ?_
      rcases found with _ | ⟨_, binding⟩
      · exact agree_pure ⟨rfl, nofun⟩
      · exact huse _ binding
    | mono t | poly scheme | checking scheme hasParams depth | active t hasParams depth => exact huse _ _

include hfine

theorem agree_reference (pos : Nat) {name : Ref} (h : ∀ u ∈ Expr.usesOf locals.flatten name, fine u) :
    Agree context S (Held fine locals) (Held fine locals) Eq (reference elsewhere pos name)
      (reference elsewhere' pos name) := by
  obtain ⟨qualifier, name⟩ := name
  cases qualifier with
  | some qualifier =>
    exact agree_globalReference hS pos (hfine _ (h _ (List.mem_singleton_self _)))
  | none =>
    refine (agree_localReference hS hbody pos h).bind fun found _ hsame => ?_
    obtain ⟨rfl, hnone⟩ := hsame
    cases found with
    | some t => exact agree_pure rfl
    | none => exact agree_globalReference hS pos (hfine _ (hnone rfl))

/-! ### Expressions -/

set_option linter.unusedSectionVars false in
mutual

theorem agree_inferExpr (e : Expr) {locals : List (List Name)} (h : ∀ u ∈ e.uses locals.flatten, fine u) :
    Agree context S (Held fine locals) (Held fine locals) Eq (inferExpr elsewhere e) (inferExpr elsewhere' e) := by
  match e with
  | .mk id pos kind =>
    rw [inferExpr, inferExpr]
    refine (Contained.isCancelled.agree hS).bind_eq fun cancelled => ?_
    split
    · exact agree_pure rfl
    · refine (agree_inferKind id pos kind h).bind_eq fun t => ?_
      exact ((Contained.record trivial id t).agree hS).bind_eq fun _ => agree_pure rfl

theorem agree_inferKind (id : NodeId) (pos : Nat) (kind : ExprKind Expr) {locals : List (List Name)}
    (h : ∀ u ∈ (Expr.mk id pos kind).uses locals.flatten, fine u) :
    Agree context S (Held fine locals) (Held fine locals) Eq (inferKind elsewhere pos kind)
      (inferKind elsewhere' pos kind) := by
  match kind with
  | .unit =>
    rw [inferKind, inferKind]
    exact agree_pure rfl
  | .literal kind =>
    rw [inferKind, inferKind]
    exact (contained_literalType kind).agree hS
  | .var name =>
    rw [Expr.uses] at h
    rw [inferKind, inferKind]
    exact agree_reference hS hfine hbody pos h
  | .operator name =>
    rw [Expr.uses] at h
    rw [inferKind, inferKind]
    refine (agree_operatorType hS pos (hfine _ (h _ (List.mem_singleton_self _)))).bind_eq fun found => ?_
    cases found <;> exact agree_pure rfl
  | .call target args =>
    rw [Expr.uses] at h
    obtain ⟨htarget, hargs⟩ := List.forall_mem_append.mp h
    rw [inferKind, inferKind]
    refine (agree_inferExpr target htarget).bind_eq fun t => (agree_inferAll args hargs).bind_eq fun types => ?_
    exact (contained_apply _ _ _).agree hS
  | .binary operands operators =>
    rw [Expr.uses] at h
    obtain ⟨hoperands, hoperators⟩ := List.forall_mem_append.mp h
    rw [inferKind, inferKind]
    refine (agree_inferAll operands hoperands).bind_eq fun types => agree_inferChain hS types fun operator hmem => ?_
    exact hfine _ (hoperators _ (List.mem_map_of_mem hmem))
  | .negate operand =>
    rw [Expr.uses] at h
    rw [inferKind, inferKind]
    refine (agree_inferExpr operand h).bind_eq fun t => ?_
    refine Contained.agree hS ((contained_freshVar _).bind fun number => ?_)
    exact (contained_check _ _ _).bind fun _ => .pure _
  | .tuple items =>
    rw [Expr.uses] at h
    rw [inferKind, inferKind]
    exact (agree_inferAll items h).bind_eq fun types => agree_pure rfl
  | .list items =>
    rw [Expr.uses] at h
    rw [inferKind, inferKind]
    refine (agree_inferItems none items h).bind_eq fun found => ?_
    cases found with
    | some item => exact agree_pure rfl
    | none => exact ((contained_freshVar _).agree hS).bind_eq fun _ => agree_pure rfl
  | .record fields =>
    rw [Expr.uses] at h
    rw [inferKind, inferKind]
    exact (agree_inferFields fields h).bind_eq fun _ => agree_pure rfl
  | .update base fields =>
    rw [Expr.uses] at h
    obtain ⟨hbase, hfields⟩ := List.forall_mem_append.mp h
    rw [inferKind, inferKind]
    refine (agree_reference hS hfine hbody _ hbase).bind_eq fun t => ?_
    exact (agree_inferUpdates _ t true fields hfields).bind_eq fun _ => agree_pure rfl
  | .access target field =>
    rw [Expr.uses] at h
    rw [inferKind, inferKind]
    exact (agree_inferExpr target h).bind_eq fun t => (contained_accessType _ _ _).agree hS
  | .accessor field =>
    rw [inferKind, inferKind]
    exact Contained.agree hS ((contained_freshVar _).bind fun _ => (contained_freshVar _).bind fun _ => .pure _)
  | .conditional branches otherwise =>
    rw [Expr.uses] at h
    obtain ⟨hbranches, hotherwise⟩ := List.forall_mem_append.mp h
    rw [inferKind, inferKind]
    refine (agree_inferBranches none branches hbranches).bind_eq fun found => ?_
    exact (agree_inferExpr otherwise hotherwise).bind_eq fun t => (contained_joinType _ _ _).agree hS
  | .caseOf scrutinee branches =>
    rw [Expr.uses] at h
    obtain ⟨hscrutinee, hbranches⟩ := List.forall_mem_append.mp h
    rw [inferKind, inferKind]
    refine (agree_inferExpr scrutinee hscrutinee).bind_eq fun t => ?_
    exact (agree_inferCases t none branches hbranches).bind_eq fun _ => agree_pure rfl
  | .lambda params body =>
    rw [Expr.uses] at h
    rw [inferKind, inferKind]
    have hfresh := ((contained_freshVars "a" params).agree (P := Held fine locals) hS).yielding
      fun _ _ _ => length_freshVars
    refine hfresh.bind fun types _ hsame => ?_
    obtain ⟨rfl, hlength⟩ := hsame
    refine agree_withBound hS _ (contained_inferParams params types) (fun _ _ _ => names_inferParams hlength) ?_
    have hinner : Agree context S (Held fine ((Pattern.boundNamesList params).map NameAt.name :: locals))
        (Held fine ((Pattern.boundNamesList params).map NameAt.name :: locals)) Eq (inferExpr elsewhere body)
        (inferExpr elsewhere' body) := agree_inferExpr body h
    exact (agree_deeper 1 hinner).bind_eq fun t => (agree_popScope fun _ => Held.tail).bind_eq fun _ => agree_pure rfl
  | .letIn definitions body =>
    rw [Expr.uses] at h
    obtain ⟨hdefinitions, hinside⟩ := List.forall_mem_append.mp h
    rw [inferKind, inferKind]
    refine (agree_enterLet hS hbody fun d hd u hu => hdefinitions u (Expr.mem_usesDefinitions hd hu)).bind_eq fun _ => ?_
    have hinner : Agree context S (Held fine (definitions.flatMap Definition.names :: locals))
        (Held fine (definitions.flatMap Definition.names :: locals)) Eq (inferExpr elsewhere body)
        (inferExpr elsewhere' body) := agree_inferExpr body hinside
    exact hinner.bind_eq fun t => (agree_popScope fun _ => Held.tail).bind_eq fun _ => agree_pure rfl

theorem agree_inferAll (es : List Expr) {locals : List (List Name)}
    (h : ∀ u ∈ Expr.usesList locals.flatten es, fine u) :
    Agree context S (Held fine locals) (Held fine locals) Eq (inferAll elsewhere es) (inferAll elsewhere' es) := by
  match es with
  | [] =>
    rw [inferAll, inferAll]
    exact agree_pure rfl
  | e :: es =>
    rw [Expr.usesList] at h
    obtain ⟨hfirst, hrest⟩ := List.forall_mem_append.mp h
    rw [inferAll, inferAll]
    exact (agree_inferExpr e hfirst).bind_eq fun t => (agree_inferAll es hrest).bind_eq fun _ => agree_pure rfl

theorem agree_inferItems (first : Option Ty) (es : List Expr) {locals : List (List Name)}
    (h : ∀ u ∈ Expr.usesList locals.flatten es, fine u) :
    Agree context S (Held fine locals) (Held fine locals) Eq (inferItems elsewhere first es)
      (inferItems elsewhere' first es) := by
  match es with
  | [] =>
    rw [inferItems, inferItems]
    exact agree_pure rfl
  | e :: es =>
    rw [Expr.usesList] at h
    obtain ⟨hfirst, hrest⟩ := List.forall_mem_append.mp h
    rw [inferItems, inferItems]
    refine (agree_inferExpr e hfirst).bind_eq fun t => ((contained_joinType _ _ _).agree hS).bind_eq fun first => ?_
    exact agree_inferItems (some first) es hrest

theorem agree_inferFields (fields : List (NameAt × Expr)) {locals : List (List Name)}
    (h : ∀ u ∈ Expr.usesFields locals.flatten fields, fine u) :
    Agree context S (Held fine locals) (Held fine locals) Eq (inferFields elsewhere fields)
      (inferFields elsewhere' fields) := by
  match fields with
  | [] =>
    rw [inferFields, inferFields]
    exact agree_pure rfl
  | (name, e) :: rest =>
    rw [Expr.usesFields] at h
    obtain ⟨hfirst, hrest⟩ := List.forall_mem_append.mp h
    rw [inferFields, inferFields]
    exact (agree_inferExpr e hfirst).bind_eq fun t => (agree_inferFields rest hrest).bind_eq fun _ => agree_pure rfl

theorem agree_inferUpdates (basePos : Nat) (base : Ty) (isRecord : Bool) (fields : List (NameAt × Expr))
    {locals : List (List Name)} (h : ∀ u ∈ Expr.usesFields locals.flatten fields, fine u) :
    Agree context S (Held fine locals) (Held fine locals) Eq (inferUpdates elsewhere basePos base isRecord fields)
      (inferUpdates elsewhere' basePos base isRecord fields) := by
  match fields with
  | [] =>
    rw [inferUpdates, inferUpdates]
    exact agree_pure rfl
  | (name, e) :: rest =>
    rw [Expr.usesFields] at h
    obtain ⟨hfirst, hrest⟩ := List.forall_mem_append.mp h
    rw [inferUpdates, inferUpdates]
    refine (agree_inferExpr e hfirst).bind_eq fun t => ?_
    split
    · refine ((contained_updateField _ _ _ _ _).agree hS).bind_eq fun isRecord => ?_
      exact agree_inferUpdates basePos base isRecord rest hrest
    · exact agree_inferUpdates basePos base false rest hrest

theorem agree_inferBranches (first : Option Ty) (branches : List (Expr × Expr)) {locals : List (List Name)}
    (h : ∀ u ∈ Expr.usesBranches locals.flatten branches, fine u) :
    Agree context S (Held fine locals) (Held fine locals) Eq (inferBranches elsewhere first branches)
      (inferBranches elsewhere' first branches) := by
  match branches with
  | [] =>
    rw [inferBranches, inferBranches]
    exact agree_pure rfl
  | (condition, branch) :: rest =>
    rw [Expr.usesBranches] at h
    obtain ⟨hfirst, hrest⟩ := List.forall_mem_append.mp h
    obtain ⟨hcondition, hbranch⟩ := List.forall_mem_append.mp hfirst
    rw [inferBranches, inferBranches]
    refine (agree_inferExpr condition hcondition).bind_eq fun t => ((contained_check _ _ _).agree hS).bind_eq fun _ => ?_
    refine (agree_inferExpr branch hbranch).bind_eq fun u => ((contained_joinType _ _ _).agree hS).bind_eq fun first => ?_
    exact agree_inferBranches (some first) rest hrest

theorem agree_inferCases (scrutinee : Ty) (first : Option Ty) (branches : List (Pattern × Expr))
    {locals : List (List Name)} (h : ∀ u ∈ Expr.usesCases locals.flatten branches, fine u) :
    Agree context S (Held fine locals) (Held fine locals) Eq (inferCases elsewhere scrutinee first branches)
      (inferCases elsewhere' scrutinee first branches) := by
  match branches with
  | [] =>
    rw [inferCases, inferCases]
    exact agree_pure rfl
  | (pattern, body) :: rest =>
    rw [Expr.usesCases] at h
    obtain ⟨hfirst, hrest⟩ := List.forall_mem_append.mp h
    rw [inferCases, inferCases]
    refine agree_withBound hS _ (contained_inferPattern .branch pattern scrutinee) (fun _ _ _ => names_inferPattern) ?_
    have hinner : Agree context S (Held fine (pattern.boundNames.map NameAt.name :: locals))
        (Held fine (pattern.boundNames.map NameAt.name :: locals)) Eq (inferExpr elsewhere body)
        (inferExpr elsewhere' body) := agree_inferExpr body hfirst
    refine hinner.bind_eq fun t => ((contained_joinType _ _ _).agree hS).bind_eq fun first => ?_
    refine (agree_popScope fun _ => Held.tail).bind_eq fun _ => ?_
    exact agree_inferCases scrutinee (some first) rest hrest

end

end Elsewhere

/-! ### Declarations -/

/-- Two runs get the same for an expression, unless one of them does not come to an end. They may go down to
different depths; `depths` tells which pairs of depths are of interest. -/
theorem agree_exprAt {depths : Nat → Nat → Prop} (hdepths : ∀ n n', depths (n + 1) (n' + 1) → depths n n')
    (hfine : ∀ u, fine u → ∀ n n', depths (n + 1) (n' + 1) → Fine context.engine S
      ⟨exprAt n, SessionM.inferTopLevel (exprAt n)⟩ ⟨exprAt n', SessionM.inferTopLevel (exprAt n')⟩ u)
    {n n' : Nat} (hn : depths n n') (locals : List (List Name)) (e : Expr)
    (h : ∀ u ∈ e.uses locals.flatten, fine u) :
    Agree context S (Held fine locals) (Held fine locals) Eq (exprAt n e) (exprAt n' e) := by
  induction n generalizing n' locals e with
  | zero => exact fun _ _ _ _ hout _ => absurd rfl hout
  | succ n ih =>
    cases n' with
    | zero => exact fun _ _ _ _ _ hout' => absurd rfl hout'
    | succ n' =>
      exact agree_inferExpr hS (fun u hu => hfine u hu n n' hn) (fun locals e => ih (hdepths n n' hn) locals e) e h

/-- The results of alike passes are the same. -/
theorem agree_finish (t : Ty) :
    Agree context S P P (fun out out' => out.1 = out'.1) (finish t) (finish t) := by
  refine agree_getPass fun pass pass' hpass hP => ?_
  have hproblems : pass'.problems = pass.problems := (congrArg Pass.problems hpass :).symm
  have hnodes : pass'.nodeTypes = pass.nodeTypes := (congrArg Pass.nodeTypes hpass :).symm
  rw [hproblems, hnodes]
  refine Agree.mono ?_ (fun _ heq => heq ▸ hP) (fun _ => id) fun _ _ => id
  refine ((contained_mapM contained_zonkProblem _).agree hS).bind_eq fun _ =>
    ((contained_zonk t).agree hS).bind_eq fun _ => ?_
  exact ((contained_mapM contained_zonkEntry _).agree hS).bind_eq fun _ => agree_pure rfl

section Bodies

variable {inferBody inferBody' : Expr → InferM Ty}
  (hbody : ∀ locals e, (∀ u ∈ e.uses (List.flatten locals), fine u) →
    Agree context S (Held fine locals) (Held fine locals) Eq (inferBody e) (inferBody' e))

include hbody

theorem agree_inferTopFunction (name : NameAt) (params : List Pattern) (body : Expr) (signature : Option TypeExpr)
    (h : ∀ u ∈ body.uses ((Pattern.boundNamesList params).map NameAt.name ++ [name.name]), fine u) :
    Agree context S (Held fine []) (Held fine []) Eq (inferTopFunction inferBody name params body signature)
      (inferTopFunction inferBody' name params body signature) := by
  have hpush : ∀ binding : Binding, ¬ binding.IsPending → Agree context S (Held fine []) (Held fine [[name.name]]) Eq
      (pushScope [(name.name, binding)]) (pushScope [(name.name, binding)]) := by
    intro binding hb
    refine agree_pushScope fun scopes hheld => ⟨fun other hother => ?_, fun other slot d depth hmem => ?_, hheld⟩
    · rw [List.mem_singleton.mp hother, Assoc.get?, if_pos rfl]
      rfl
    · cases List.mem_singleton.mp hmem
      exact absurd trivial hb
  have hfunction : ∀ signature : Option Ty, Agree context S (Held fine [[name.name]]) (Held fine [[name.name]]) Eq
      (inferFunction inferBody name params body signature) (inferFunction inferBody' name params body signature) :=
    fun signature => agree_inferFunction hS hbody name params body signature h
  cases signature with
  | some signature =>
    rw [inferTopFunction, inferTopFunction]
    refine ((contained_convertSignature [] signature).agree hS).bind_eq fun out => ?_
    have hvars : Same context S (Held fine []) (modifyPass (fun pass => { pass with typeVars := out.2 })) :=
      same_modifyPass (fun _ => rfl) fun _ => rfl
    refine hvars.agree.bind_eq fun _ => (hpush _ id).bind_eq fun _ => (hfunction _).bind_eq fun t => ?_
    exact (agree_popScope fun _ => Held.tail).bind_eq fun _ => agree_pure rfl
  | none =>
    rw [inferTopFunction, inferTopFunction]
    refine ((contained_freshVar "a").agree hS).bind_eq fun self => ?_
    refine (hpush _ id).bind_eq fun _ => (hfunction _).bind_eq fun t => ?_
    refine (agree_popScope fun _ => Held.tail).bind_eq fun _ => ?_
    exact ((contained_check _ _ _).agree hS).bind_eq fun _ => agree_pure rfl

theorem agree_inferTopPattern (pattern : Pattern) {body : Expr} (h : ∀ u ∈ body.uses [], fine u) :
    Agree context S (Held fine []) (Held fine []) Eq (inferTopPattern inferBody pattern body)
      (inferTopPattern inferBody' pattern body) := by
  have hpush : Agree context S (Held fine []) (Held fine [[]]) Eq (pushScope []) (pushScope []) :=
    agree_pushScope fun scopes hheld => ⟨nofun, nofun, hheld⟩
  have hpattern : Agree context S (Held fine [[]]) (Held fine [[]]) _ (inferDestructuring inferBody pattern body)
      (inferDestructuring inferBody' pattern body) := agree_inferDestructuring hS hbody pattern h
  refine hpush.bind_eq fun _ => hpattern.bind fun out _ hsame => ?_
  obtain ⟨rfl, -⟩ := hsame
  have hbind : Agree context S (Held fine [[]]) (Held fine [[]]) Eq (bindAll [] out.2) (bindAll [] out.2) :=
    (agree_bindAll hS [] out.2).mono (fun _ => held_cons.mp)
      (fun _ hheld => held_cons.mpr (hheld.mono (List.nil_subset _))) fun _ _ => id
  exact hbind.bind_eq fun _ => (agree_popScope fun _ => Held.tail).bind_eq fun _ => agree_pure rfl

/-- A declaration gets the same result on both sides. -/
theorem agree_inferDeclaration {decl : ValueDecl} (h : ∀ u ∈ decl.lookups, fine u) :
    Agree context S (Held fine []) (Held fine []) SameResult (inferDeclaration inferBody decl)
      (inferDeclaration inferBody' decl) := by
  have hrest : ∀ t, Agree context S (Held fine []) (Held fine []) SameResult
      (do
        if (← getPass).cancelled then return .error .cancelled
        return .ok (← finish t) : InferM (Except InferError Inferred))
      (do
        if (← getPass).cancelled then return .error .cancelled
        return .ok (← finish t)) := by
    intro t
    refine agree_getPass fun pass pass' hpass hheld => ?_
    have hcancelled : pass'.cancelled = pass.cancelled := (congrArg Pass.cancelled hpass :).symm
    rw [hcancelled]
    refine Agree.mono ?_ (fun _ heq => heq ▸ hheld) (fun _ => id) fun _ _ => id
    split
    · exact agree_pure rfl
    · exact (agree_finish hS t).bind fun out out' hsame => agree_pure (congrArg Except.ok hsame)
  unfold Definition.lookups Definition.uses Head.paramNames at h
  unfold inferDeclaration
  cases hhead : decl.head with
  | function name params =>
    rw [hhead] at h
    exact (agree_inferTopFunction hS hbody name params decl.body decl.signature h).bind_eq hrest
  | pattern pattern =>
    rw [hhead] at h
    exact (agree_inferTopPattern hS hbody pattern h).bind_eq hrest

end Bodies

/-- Two passes over a declaration, started from nothing in sessions that answer alike, get the same result. -/
theorem sameOutcome_inferDeclaration {decl : ValueDecl} (depths : Nat → Nat → Prop)
    (hdepths : ∀ n n', depths (n + 1) (n' + 1) → depths n n')
    (hfine : ∀ u ∈ decl.lookups, ∀ n n', depths (n + 1) (n' + 1) → Fine context.engine S
      ⟨exprAt n, SessionM.inferTopLevel (exprAt n)⟩ ⟨exprAt n', SessionM.inferTopLevel (exprAt n')⟩ u)
    {n n' : Nat} (hn : depths n n') {s s' : Session} (hs : S s s') :
    SameOutcome SameResult (fun w w' => S w.session w'.session)
      (inferDeclaration (exprAt n) decl context ⟨s, {}⟩) (inferDeclaration (exprAt n') decl context ⟨s', {}⟩) := by
  have hdecl : Agree context S (Held (· ∈ decl.lookups) []) (Held (· ∈ decl.lookups) []) SameResult
      (inferDeclaration (exprAt n) decl) (inferDeclaration (exprAt n') decl) :=
    agree_inferDeclaration hS (agree_exprAt hS hdepths hfine hn) fun _ => id
  exact (hdecl ⟨s, {}⟩ ⟨s', {}⟩ ⟨rfl, hs⟩ trivial).mono (fun _ _ => id) fun _ _ h => h.1.session

end Concordant

end InferM

end ElmInference
