import ElmInference.Proofs.Infer.Conversions
import ElmInference.Proofs.Infer.Waiting

/-!
# What an expression refers to outside of itself

A name that is bound around an expression, or inside of it around the place where it is used, is a local one. All
other names and all operators are looked up in the module. `Expr.uses` collects these, and `Held` ties the names that
are counted as local to the scopes of a pass: each of them is bound in its scope, and a definition that waits in a
scope is read with the names of that scope and of those around it.
-/

namespace ElmInference

inductive Use where
  | value (name : Ref)
  | operator (name : Name)

/-- The only candidate for a use. -/
def ModuleScope.target? (scope : ModuleScope) : Use → Option ValueTarget
  | .value name => unique? (scope.findValues name)
  | .operator name => (unique? (scope.findOperators name)).map OperatorTarget.function

namespace ModuleScope

/-- Whether a target is, or belongs to, a declaration of the module, if it is not from elsewhere. -/
def Offers (scope : ModuleScope) : ValueTarget → Prop
  | .value index decl => scope.module.valueAt? index = some decl ∧ decl.names ≠ []
  | .variant m decl _ => m = scope.module.name ∧ .unionType decl ∈ scope.module.declarations
  | .recordConstructor m decl => m = scope.module.name ∧ .typeAlias decl ∈ scope.module.declarations
  | .hostValue _ | .external _ => True

variable {scope : ModuleScope} {target : ValueTarget}

theorem offers_of_offeredValue {name : Name} {index : Nat} {declaration : Declaration}
    (h : offeredValue scope.module.name name index declaration = some target)
    (hmem : scope.module.declarations[index]? = some declaration) : scope.Offers target := by
  cases declaration with
  | value decl =>
    rw [offeredValue] at h
    split at h
    · next hname =>
      cases h
      obtain ⟨bound, hbound, -⟩ := List.any_eq_true.mp hname
      refine ⟨?_, List.ne_nil_of_mem (List.mem_map_of_mem hbound)⟩
      rw [Module.valueAt?, hmem]
      rfl
    · cases h
  | unionType decl =>
    obtain ⟨_, _, rfl⟩ := Option.map_eq_some_iff.mp h
    exact ⟨rfl, List.mem_of_getElem? hmem⟩
  | typeAlias decl =>
    rw [offeredValue] at h
    split at h
    · cases h
      exact ⟨rfl, List.mem_of_getElem? hmem⟩
    · cases h
  | fixity decl => cases h
  | hostValue decl =>
    rw [offeredValue] at h
    split at h
    · cases h
      trivial
    · cases h

theorem offers_of_mem_findValues {name : Ref} (h : target ∈ scope.findValues name) : scope.Offers target := by
  have hlocal : target ∈ scope.localValues name.name → scope.Offers target := by
    intro h
    obtain ⟨⟨declaration, index⟩, hmem, hoffered⟩ := List.mem_filterMap.mp h
    exact offers_of_offeredValue hoffered (List.mem_zipIdx_iff_getElem?.mp hmem)
  have hexternal : target ∈ ((scope.values.filter (fun v => name.denotes v.moduleName v.name)).map
      (fun v => ValueTarget.external v.type)) → scope.Offers target := by
    intro h
    obtain ⟨_, _, rfl⟩ := List.mem_map.mp h
    trivial
  rw [findValues, preferLocal] at h
  by_cases hempty : (if scope.isLocal name then scope.localValues name.name else []).isEmpty
  · rw [if_pos hempty] at h
    exact hexternal h
  · rw [if_neg hempty] at h
    split at h
    · exact hlocal h
    · cases h

/-- The names of a value of the module refer to it. -/
theorem value_mem_findValues {index : Nat} {decl : ValueDecl} (h : scope.module.valueAt? index = some decl) {name : Name}
    (hname : name ∈ decl.names) : .value index decl ∈ scope.findValues (.plain name) := by
  have hlocal : .value index decl ∈ scope.localValues name := by
    obtain ⟨declaration, hdeclaration, hvalue⟩ := Option.bind_eq_some_iff.mp h
    refine List.mem_filterMap.mpr ⟨(declaration, index), List.mem_zipIdx_iff_getElem?.mpr hdeclaration, ?_⟩
    cases declaration with
    | value other =>
      cases hvalue
      obtain ⟨bound, hbound, rfl⟩ := List.mem_map.mp hname
      rw [offeredValue, if_pos (List.any_eq_true.mpr ⟨bound, hbound, beq_self_eq_true bound.name⟩)]
    | unionType _ | typeAlias _ | hostValue _ | fixity _ => cases hvalue
  have hplain : scope.isLocal (.plain name) = true := rfl
  rw [findValues, if_pos hplain, preferLocal, if_neg fun hempty => ?_]
  · exact hlocal
  · exact List.not_mem_nil (List.isEmpty_iff.mp hempty ▸ hlocal)

theorem mem_of_unique? {α : Type} {xs : List α} {a : α} (h : unique? xs = some a) : xs = [a] := by
  unfold unique? at h
  split at h <;> cases h
  rfl

theorem offers_of_mem_findOperators {name : Name} {operator : OperatorTarget}
    (h : operator ∈ scope.findOperators name) : scope.Offers operator.function := by
  rw [findOperators, preferLocal] at h
  split at h
  · obtain ⟨_, _, rfl⟩ := List.mem_map.mp h
    trivial
  · obtain ⟨declaration, _, hoffered⟩ := List.mem_filterMap.mp h
    cases declaration with
    | fixity decl =>
      rw [offeredOperator] at hoffered
      split at hoffered
      · obtain ⟨function, hunique, rfl⟩ := Option.map_eq_some_iff.mp hoffered
        exact offers_of_mem_findValues (mem_of_unique? hunique ▸ List.mem_singleton_self _)
      · cases hoffered
    | _ => cases hoffered

theorem offers_of_target? {u : Use} (h : scope.target? u = some target) : scope.Offers target := by
  cases u with
  | value name => exact offers_of_mem_findValues (mem_of_unique? h ▸ List.mem_singleton_self _)
  | operator name =>
    obtain ⟨operator, hoperator, rfl⟩ := Option.map_eq_some_iff.mp h
    exact offers_of_mem_findOperators (mem_of_unique? hoperator ▸ List.mem_singleton_self _)

end ModuleScope

def Head.paramNames (head : Head) : List Name :=
  (Pattern.boundNamesList head.params).map NameAt.name

namespace Expr

/-- A name, unless it is a local one. -/
def usesOf (locals : List Name) (name : Ref) : List Use :=
  (Evaluation.unlessLocal locals name).map .value

mutual

/-- What is looked up in the module when an expression is inferred among local names. -/
def uses (locals : List Name) : Expr → List Use
  | .mk _ _ .unit => []
  | .mk _ _ (.literal _) => []
  | .mk _ _ (.accessor _) => []
  | .mk _ _ (.var name) => usesOf locals name
  | .mk _ _ (.operator name) => [.operator name]
  | .mk _ _ (.call target args) => uses locals target ++ usesList locals args
  | .mk _ _ (.binary operands operators) => usesList locals operands ++ operators.map (fun o => .operator o.name)
  | .mk _ _ (.negate operand) => uses locals operand
  | .mk _ _ (.tuple items) => usesList locals items
  | .mk _ _ (.list items) => usesList locals items
  | .mk _ _ (.record fields) => usesFields locals fields
  | .mk _ _ (.update base fields) => usesOf locals (Ref.plain base.name) ++ usesFields locals fields
  | .mk _ _ (.access target _) => uses locals target
  | .mk _ _ (.conditional branches otherwise) => usesBranches locals branches ++ uses locals otherwise
  | .mk _ _ (.caseOf scrutinee branches) => uses locals scrutinee ++ usesCases locals branches
  | .mk _ _ (.lambda params body) => uses ((Pattern.boundNamesList params).map NameAt.name ++ locals) body
  | .mk _ _ (.letIn definitions body) =>
    let inner := definitions.flatMap (fun d => d.head.boundNames.map NameAt.name) ++ locals
    usesDefinitions inner definitions ++ uses inner body

def usesList (locals : List Name) : List Expr → List Use
  | [] => []
  | e :: es => uses locals e ++ usesList locals es

def usesFields (locals : List Name) : List (NameAt × Expr) → List Use
  | [] => []
  | (_, e) :: rest => uses locals e ++ usesFields locals rest

def usesBranches (locals : List Name) : List (Expr × Expr) → List Use
  | [] => []
  | (c, e) :: rest => uses locals c ++ uses locals e ++ usesBranches locals rest

def usesCases (locals : List Name) : List (Pattern × Expr) → List Use
  | [] => []
  | (p, e) :: rest => uses (p.boundNames.map NameAt.name ++ locals) e ++ usesCases locals rest

def usesDefinitions (locals : List Name) : List (Definition Expr) → List Use
  | [] => []
  | d :: rest => uses (d.head.paramNames ++ locals) d.body ++ usesDefinitions locals rest

end

theorem mem_usesDefinitions {locals : List Name} {definitions : List ValueDecl} {d : ValueDecl}
    (hd : d ∈ definitions) {u : Use} (hu : u ∈ uses (d.head.paramNames ++ locals) d.body) :
    u ∈ usesDefinitions locals definitions := by
  induction definitions with
  | nil => cases hd
  | cons first rest ih =>
    rcases List.mem_cons.mp hd with rfl | hd
    · exact List.mem_append_left _ hu
    · exact List.mem_append_right _ (ih hd)

end Expr

def Definition.uses (locals : List Name) (d : ValueDecl) : List Use :=
  d.body.uses (d.head.paramNames ++ locals)

/-- What is looked up in the module when one of its declarations is inferred; a function knows its own name. -/
def Definition.lookups (d : ValueDecl) : List Use :=
  d.uses d.head.name?.toList

namespace InferM

variable {fine : Use → Prop} {locals : List (List Name)}

/-- Whether the local names are bound in their scopes, and what is looked up for the definitions that wait there is
fine. -/
def Held (fine : Use → Prop) : List (List Name) → List Scope → Prop
  | [], [] => True
  | names :: locals, scope :: outer =>
    (∀ name ∈ names, (Assoc.get? scope name).isSome) ∧
      (∀ name slot d depth, (name, .pending slot d depth) ∈ scope → ∀ u ∈ d.uses (names ++ locals.flatten), fine u) ∧
      Held fine locals outer
  | _, _ => False

theorem Held.cons_inv {scopes : List Scope} {names : List Name} (h : Held fine (names :: locals) scopes) :
    ∃ scope outer, scopes = scope :: outer := by
  cases scopes with
  | nil => exact h.elim
  | cons scope outer => exact ⟨scope, outer, rfl⟩

theorem Held.tail {scopes : List Scope} {names : List Name} (h : Held fine (names :: locals) scopes) :
    Held fine locals scopes.tail := by
  obtain ⟨scope, outer, rfl⟩ := h.cons_inv
  exact h.2.2

theorem Held.drop {scopes : List Scope} (h : Held fine locals scopes) (k : Nat) :
    Held fine (locals.drop k) (scopes.drop k) := by
  induction k generalizing locals scopes with
  | zero => exact h
  | succ k ih =>
    cases locals with
    | nil =>
      cases scopes with
      | nil => exact h
      | cons scope outer => exact h.elim
    | cons names locals =>
      obtain ⟨scope, outer, rfl⟩ := h.cons_inv
      exact ih h.2.2

/-- Work in the scopes further out does not concern the ones inside. -/
theorem Held.restore {scopes outer' : List Scope} (h : Held fine locals scopes) {k : Nat}
    (hrest : Held fine (locals.drop k) outer') : Held fine locals (scopes.take k ++ outer') := by
  induction k generalizing locals scopes with
  | zero => exact hrest
  | succ k ih =>
    cases locals with
    | nil =>
      cases scopes with
      | nil => exact hrest
      | cons scope outer => exact h.elim
    | cons names locals =>
      obtain ⟨scope, outer, rfl⟩ := h.cons_inv
      exact ⟨h.1, h.2.1, ih h.2.2 hrest⟩

theorem Held.lookupIn_isSome {scopes : List Scope} (h : Held fine locals scopes) {name : Name}
    (hname : name ∈ locals.flatten) : (lookupIn name scopes).isSome := by
  induction locals generalizing scopes with
  | nil => cases hname
  | cons names locals ih =>
    obtain ⟨scope, outer, rfl⟩ := h.cons_inv
    rw [lookupIn]
    split
    · rfl
    · next hnone =>
      rcases List.mem_append.mp (List.flatten_cons ▸ hname) with hmem | hmem
      · have hsome := h.1 name hmem
        rw [hnone] at hsome
        cases hsome
      · rw [Option.isSome_map]
        exact ih h.2.2 hmem

/-- A name that is not found in the scopes is looked up in the module. -/
theorem mem_usesOf_of_lookupIn {scopes : List Scope} (h : Held fine locals scopes) {name : Name}
    (hnone : lookupIn name scopes = none) : .value (Ref.plain name) ∈ Expr.usesOf locals.flatten (Ref.plain name) := by
  have hname : name ∉ locals.flatten := by
    intro hname
    have hsome := h.lookupIn_isSome hname
    rw [hnone] at hsome
    cases hsome
  unfold Expr.usesOf Evaluation.unlessLocal
  rw [if_neg]
  · exact List.mem_singleton_self _
  · simpa [Ref.plain] using hname

/-- A definition that waits is read among the names of the scope where it waits. -/
theorem Held.waiting_of_lookupIn {scopes : List Scope} (h : Held fine locals scopes) {name : Name} {inner slot : Nat}
    {d : ValueDecl} {depth : Nat} (hfound : lookupIn name scopes = some (inner, .pending slot d depth)) :
    ∃ names outer, locals.drop inner = names :: outer ∧ ∀ u ∈ d.uses (names ++ outer.flatten), fine u := by
  obtain ⟨scope, outer, hdrop, hget⟩ := drop_of_lookupIn hfound
  have hheld := h.drop inner
  rw [hdrop] at hheld
  rcases hlocals : locals.drop inner with _ | ⟨names, rest⟩
  · rw [hlocals] at hheld
    exact hheld.elim
  · rw [hlocals] at hheld
    exact ⟨names, rest, rfl, hheld.2.1 _ _ _ _ (Assoc.mem_of_get? hget)⟩

/-- Whether the innermost scope binds the names `present`, while what waits there is read among the names `names` and
those of the scopes around. -/
def HeldFor (fine : Use → Prop) (present names : List Name) (locals : List (List Name)) : List Scope → Prop
  | [] => False
  | scope :: outer =>
    (∀ name ∈ present, (Assoc.get? scope name).isSome) ∧
      (∀ name slot d depth, (name, .pending slot d depth) ∈ scope → ∀ u ∈ d.uses (names ++ locals.flatten), fine u) ∧
      Held fine locals outer

theorem held_cons {names : List Name} {scopes : List Scope} :
    Held fine (names :: locals) scopes ↔ HeldFor fine names names locals scopes := by
  cases scopes <;> exact Iff.rfl

theorem HeldFor.mono {present present' names : List Name} (hsubset : present' ⊆ present) {scopes : List Scope}
    (h : HeldFor fine present names locals scopes) : HeldFor fine present' names locals scopes := by
  cases scopes with
  | nil => exact h
  | cons scope outer => exact ⟨fun name hname => h.1 name (hsubset hname), h.2⟩

/-- A name gets a meaning and is not to wait for it. -/
theorem HeldFor.set {present names : List Name} {scope : Scope} {outer : List Scope}
    (h : HeldFor fine present names locals (scope :: outer)) (name : Name) {binding : Binding}
    (hb : ¬ binding.IsPending) :
    HeldFor fine (name :: present) names locals (Assoc.set scope name binding :: outer) := by
  refine ⟨fun other hother => ?_, fun other slot d depth hmem => ?_, h.2.2⟩
  · by_cases heq : name = other
    · rw [heq, Assoc.get?_set_self]
      rfl
    · rw [Assoc.get?_set_of_ne _ _ heq]
      exact h.1 other ((List.mem_cons.mp hother).resolve_left (Ne.symm heq))
  · rcases Assoc.mem_set hmem with hmem | heq
    · exact h.2.1 other slot d depth hmem
    · cases heq
      exact absurd trivial hb

theorem HeldFor.remove {present names : List Name} {scope : Scope} {outer : List Scope}
    (h : HeldFor fine present names locals (scope :: outer)) (name : Name) :
    HeldFor fine (present.filter (· ≠ name)) names locals (Assoc.remove scope name :: outer) := by
  refine ⟨fun other hother => ?_, fun other slot d depth hmem => ?_, h.2.2⟩
  · obtain ⟨hmem, hne⟩ := List.mem_filter.mp hother
    rw [Assoc.get?_remove_of_ne _ (Ne.symm (of_decide_eq_true hne))]
    exact h.1 other hmem
  · exact h.2.1 other slot d depth (List.mem_of_mem_filter hmem)

/-! ### Reading the definitions of a `let` -/

/-- Whether the scope of a `let` binds the names of the definitions read so far, and holds nothing but these. -/
structure LetScope.Reads (definitions : List ValueDecl) (l : LetScope) : Prop where
  bound : ∀ d ∈ definitions, ∀ name ∈ d.names, (Assoc.get? l.scope name).isSome
  pending : ∀ name slot d depth, (name, .pending slot d depth) ∈ l.scope → d ∈ definitions
  signed : ∀ s ∈ l.signed, ∃ d ∈ definitions, d.head = .function s.name s.params ∧ d.body = s.body

theorem reads_empty : LetScope.Reads [] {} :=
  ⟨nofun, nofun, nofun⟩

theorem mem_foldl_set {names : List NameAt} {binding : Binding} {scope : Scope} {entry : Name × Binding}
    (h : entry ∈ names.foldl (fun scope n => Assoc.set scope n.name binding) scope) :
    entry ∈ scope ∨ entry.2 = binding := by
  induction names generalizing scope with
  | nil => exact .inl h
  | cons n names ih =>
    rcases ih h with hmem | heq
    · exact (Assoc.mem_set hmem).imp_right fun heq => congrArg Prod.snd heq
    · exact .inr heq

variable {context : Context} {w w' : Work}

/-- A definition is bound at once if it has a signature, and waits otherwise. -/
theorem run_readDefinition_inv {slot : Nat} {d : ValueDecl} {l l' : LetScope}
    (hrun : readDefinition slot d l context w = (.ok l', w')) :
    ∃ names w₁, declareAll l.names d.head.boundNames context w = (.ok names, w₁) ∧ w₁.pass.problems <+: w'.pass.problems ∧
      ((∃ name params scheme vars, d.head = .function name params ∧ l' = {
        names
        scope := Assoc.set l.scope name.name (.poly scheme)
        signed := l.signed ++ [⟨name, params, d.body, scheme, vars⟩] }) ∨
      l' = { l with
        names
        scope := d.head.boundNames.foldl (fun scope n => Assoc.set scope n.name (.pending slot d w₁.pass.depth)) l.scope }) := by
  obtain ⟨names, w₁, hnames, hrun⟩ := run_bind_inv hrun
  obtain ⟨_, _, hpass, hrun⟩ := run_bind_inv hrun
  cases hpass
  refine ⟨names, w₁, hnames, ?_⟩
  obtain ⟨pos, signature, head, body⟩ := d
  cases head with
  | pattern p =>
    cases hrun
    exact ⟨List.prefix_rfl, .inr rfl⟩
  | function name params =>
    cases signature with
    | none =>
      cases hrun
      exact ⟨List.prefix_rfl, .inr rfl⟩
    | some signature =>
      obtain ⟨out, w₃, hconvert, hrun⟩ := run_bind_inv hrun
      cases hrun
      cases hconvert
      exact ⟨List.prefix_append _ _, .inl ⟨name, params, _, _, rfl, rfl⟩⟩

theorem LetScope.Reads.readDefinition {definitions : List ValueDecl} {l l' : LetScope} (h : l.Reads definitions)
    {slot : Nat} {d : ValueDecl} (hrun : readDefinition slot d l context w = (.ok l', w')) :
    l'.Reads (definitions ++ [d]) := by
  have hold : ∀ {d'}, d' ∈ definitions → d' ∈ definitions ++ [d] := List.mem_append_left _
  have hnew : d ∈ definitions ++ [d] := List.mem_append_right _ (List.mem_singleton_self d)
  obtain ⟨names, w₁, -, -, ⟨name, params, scheme, vars, hhead, rfl⟩ | rfl⟩ := run_readDefinition_inv hrun
  · have hnames : d.names = [name.name] := by
      rw [Definition.names, hhead]
      rfl
    refine ⟨fun d' hd' other hother => ?_, fun other slot d' depth hmem => ?_, fun s hs => ?_⟩
    · by_cases heq : name.name = other
      · dsimp only
        rw [heq, Assoc.get?_set_self]
        rfl
      · rw [Assoc.get?_set_of_ne _ _ heq]
        rcases List.mem_append.mp hd' with hd' | hd'
        · exact h.bound d' hd' other hother
        · rw [List.mem_singleton.mp hd', hnames] at hother
          exact absurd (List.mem_singleton.mp hother).symm heq
    · rcases Assoc.mem_set hmem with hmem | heq
      · exact hold (h.pending _ _ _ _ hmem)
      · cases heq
    · rcases List.mem_append.mp hs with hs | hs
      · obtain ⟨d', hd', hparts⟩ := h.signed s hs
        exact ⟨d', hold hd', hparts⟩
      · rw [List.mem_singleton.mp hs]
        exact ⟨d, hnew, hhead, rfl⟩
  · refine ⟨fun d' hd' other hother => ?_, fun other slot d' depth hmem => ?_, fun s hs => ?_⟩
    · by_cases hmem : other ∈ d.head.boundNames.map NameAt.name
      · exact (Scope.get?_foldl_set_of_mem _ hmem).symm ▸ rfl
      · dsimp only
        rw [Scope.get?_foldl_set_of_notMem _ hmem]
        rcases List.mem_append.mp hd' with hd' | hd'
        · exact h.bound d' hd' other hother
        · rw [List.mem_singleton.mp hd'] at hother
          exact absurd hother hmem
    · rcases mem_foldl_set hmem with hmem | heq
      · exact hold (h.pending _ _ _ _ hmem)
      · cases heq
        exact hnew
    · obtain ⟨d', hd', hparts⟩ := h.signed s hs
      exact ⟨d', hold hd', hparts⟩

theorem LetScope.Reads.readDefinitions {done definitions : List ValueDecl} {l l' : LetScope} (h : l.Reads done)
    {slot : Nat} (hrun : readDefinitions slot definitions l context w = (.ok l', w')) :
    l'.Reads (done ++ definitions) := by
  induction definitions generalizing slot done l w with
  | nil =>
    cases hrun
    rwa [List.append_nil]
  | cons d rest ih =>
    obtain ⟨l₁, w₁, hfirst, hrest⟩ := run_bind_inv hrun
    have hreads := ih (h.readDefinition hfirst) hrest
    rwa [List.append_assoc] at hreads

end InferM

end ElmInference
