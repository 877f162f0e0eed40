import ElmInference.Proofs.Infer.Composition
import Mathlib.Algebra.BigOperators.Group.Finset.Piecewise
import Mathlib.Data.Multiset.AddSub

/-!
# Where an expression stands

An expression is inferred among local names and under a number of lambdas, and both can be told from the program
alone: a definition that waits is inferred in the scope where it was written, whoever asks for it. A `Site` is a node of
the program with the place where it stands, and `Expr.sites` lists those that inference comes by. Definitions that bind
no name are left out, since nothing waits under a name of theirs and nobody ever asks for them.

A `Frame` tells which names a scope may bind and which definitions may wait there, and a `Setting` describes all scopes
of a pass. What is owed in a setting are the sites of the definitions that still wait.
-/

namespace ElmInference

/-! ### Inert work -/

/-- Whether a pass still has its scopes, recorded types and depth, and has taken nothing back. -/
structure Pass.Stays (pass pass' : Pass) : Prop extends Pass.Grows pass pass' where
  scopes : pass'.scopes = pass.scopes
  nodeTypes : pass'.nodeTypes = pass.nodeTypes
  depth : pass'.depth = pass.depth

theorem Pass.Stays.refl (pass : Pass) : pass.Stays pass :=
  ⟨.refl pass, rfl, rfl, rfl⟩

theorem Pass.Stays.trans {pass pass₁ pass' : Pass} (h : pass.Stays pass₁) (h' : pass₁.Stays pass') : pass.Stays pass' :=
  ⟨h.toGrows.trans h'.toGrows, h'.scopes.trans h.scopes, h'.nodeTypes.trans h.nodeTypes, h'.depth.trans h.depth⟩

namespace InferM

variable {α β : Type} {context : Context}

/-- Work that leaves scopes, recorded types and depth alone, and takes nothing back. -/
def Inert (context : Context) (x : InferM α) : Prop :=
  ∀ w a w', x context w = (.ok a, w') → w.pass.Stays w'.pass

theorem inert_pure (a : α) : Inert context (pure a) := by
  intro w b w' hrun
  obtain ⟨-, rfl⟩ := run_pure_inv hrun
  exact .refl _

theorem Inert.bind {x : InferM α} {f : α → InferM β} (hx : Inert context x) (hf : ∀ a, Inert context (f a)) :
    Inert context (x >>= f) := by
  intro w b w' hrun
  obtain ⟨a, w₁, hrun₁, hrun₂⟩ := run_bind_inv hrun
  exact (hx _ _ _ hrun₁).trans (hf a _ _ _ hrun₂)

theorem inert_of_unchanged {x : InferM α} (h : ∀ w, (x context w).2.pass = w.pass) : Inert context x := by
  intro w a w' hrun
  have hpass := h w
  rw [hrun] at hpass
  exact hpass ▸ .refl _

theorem inert_modifyPass {f : Pass → Pass} (h : ∀ pass : Pass, pass.Stays (f pass)) : Inert context (modifyPass f) := by
  intro w a w' hrun
  cases hrun
  exact h _

theorem inert_session (x : SessionM α) : Inert context (session x) :=
  inert_of_unchanged fun _ => rfl

/-- Work that keeps names and recorded types and takes nothing back is inert, if it keeps the depth. -/
theorem Keeps.inert {x : InferM α} (hstill : Still context x) (hgrows : Growing context x)
    (hdepth : Keeps context Pass.depth x) : Inert context x := by
  intro w a w' hrun
  have hnames := hstill _ _ _ hrun
  exact ⟨hgrows _ _ _ hrun, congrArg (fun n => n.1.1) hnames, congrArg Prod.snd hnames, hdepth _ _ _ hrun⟩

theorem keeps_depth_allocate (work : Store → α × Store) : Keeps context Pass.depth (allocate work) := by
  intro w a w' hrun
  rw [run_allocate] at hrun
  cases hrun
  rfl

theorem Contained.inert {x : InferM α} (h : Contained False True x) : Inert context x := by
  refine Keeps.inert h.still h.growing ?_
  induction h with
  | pure a => exact keeps_pure a
  | bind _ _ hx hf => exact hx.bind hf
  | throw fault => exact keeps_throw fault
  | read => exact keeps_of_unchanged fun _ => rfl
  | inspect _ _ _ h => exact Keeps.bind (keeps_of_unchanged fun _ => rfl) h
  | modify _ _ _ hgrows => exact keeps_modifyPass fun pass => (hgrows pass).2.2.1
  | record h id t => exact h.elim
  | store work =>
    intro w a w' hrun
    obtain ⟨s', -, rfl⟩ := run_store_inv hrun
    rfl
  | allocate work => exact keeps_depth_allocate work
  | isCancelled =>
    refine (keeps_of_unchanged fun _ => rfl : Keeps context Pass.depth getPass).bind fun pass => ?_
    split
    · exact keeps_pure _
    · refine (keeps_session _).bind fun seen => ?_
      split
      · exact Keeps.bind (keeps_modifyPass fun _ => rfl) fun _ => keeps_pure _
      · exact keeps_pure _
  | trip _ | findValues _ => exact keeps_session _
  | convert rigid vars t =>
    intro w a w' hrun
    rw [run_convert] at hrun
    cases hrun
    rfl
  | constructorTypes name =>
    refine (keeps_session _).bind fun targets => ?_
    split
    · exact Keeps.bind (keeps_of_unchanged fun _ => rfl) fun _ => (keeps_session _).bind fun _ => keeps_depth_allocate _
    · refine (keeps_depth_allocate _).bind fun t => ?_
      split <;> exact keeps_pure _
    · exact keeps_pure _

/-- A use of a declaration looks for a cycle first, and the rest of it is inert. -/
theorem exists_inert_declarationType (elsewhere : Elsewhere) (pos : Nat) (name : Name) (index : Nat) (decl : ValueDecl) :
    ∃ rest, declarationType elsewhere pos name index decl = checkCycle pos index decl >>= rest ∧
      ∀ u, Inert context (rest u) := by
  have hnoted : ∀ notes (pass : Pass), pass.Stays { pass with recursive := pass.recursive ++ notes } :=
    fun notes pass => ⟨⟨List.prefix_rfl, id, List.subset_append_left _ _⟩, rfl, rfl, rfl⟩
  refine ⟨_, rfl, fun _ => ?_⟩
  split
  · exact (contained_convertForeign _).inert
  · refine Inert.bind (inert_of_unchanged fun _ => rfl) fun w => ?_
    split
    · exact Inert.bind (inert_modifyPass (hnoted [decl.head.label])) fun _ => inert_pure _
    · refine (inert_session _).bind fun outcome => ?_
      split
      · exact Inert.bind (inert_modifyPass (hnoted _)) fun _ => (contained_instantiate _).inert
      · refine Inert.bind (inert_modifyPass fun _ => ?_) fun _ => inert_pure _
        exact ⟨⟨List.prefix_rfl, fun _ => rfl, List.Subset.refl _⟩, rfl, rfl, rfl⟩
      · exact inert_pure _

theorem inert_declarationType (elsewhere : Elsewhere) (pos : Nat) (name : Name) (index : Nat) (decl : ValueDecl) :
    Inert context (declarationType elsewhere pos name index decl) := by
  obtain ⟨rest, heq, hrest⟩ := @exists_inert_declarationType context elsewhere pos name index decl
  rw [heq]
  exact (contained_checkCycle pos index decl).inert.bind hrest

theorem inert_targetType (elsewhere : Elsewhere) (pos : Nat) (name : Name) (target : ValueTarget) :
    Inert context (targetType elsewhere pos name target) := by
  cases target with
  | value index decl => exact inert_declarationType elsewhere pos name index decl
  | variant m decl index =>
    refine contained_engine.inert.bind fun _ => (inert_session _).bind fun _ => ?_
    refine (Contained.allocate _).inert.bind fun found => ?_
    split <;> exact inert_pure _
  | recordConstructor m decl =>
    refine contained_engine.inert.bind fun _ => (inert_session _).bind fun found => ?_
    split
    · exact inert_pure _
    · refine (Contained.allocate _).inert.bind fun t => ?_
      split <;> exact inert_pure _
  | hostValue decl => exact (contained_convertForeign _).inert
  | external t => exact (contained_instantiate _).inert

theorem inert_globalReference (elsewhere : Elsewhere) (pos : Nat) (name : Ref) :
    Inert context (globalReference elsewhere pos name) := by
  refine (inert_session _).bind fun targets => ?_
  split
  · exact inert_targetType elsewhere _ _ _
  · exact inert_pure _

theorem inert_operatorType (elsewhere : Elsewhere) (pos : Nat) (name : Name) :
    Inert context (operatorType elsewhere pos name) := by
  refine contained_engine.inert.bind fun engine => ?_
  split
  · exact (inert_targetType elsewhere _ _ _).bind fun _ => inert_pure _
  · exact inert_pure _

theorem inert_operatorTypes (elsewhere : Elsewhere) (operators : List NameAt) :
    Inert context (operatorTypes elsewhere operators) := by
  induction operators with
  | nil => exact inert_pure _
  | cons operator rest ih =>
    rw [operatorTypes]
    refine (inert_operatorType elsewhere _ _).bind fun found => ?_
    split
    · exact inert_pure _
    · refine ih.bind fun more => ?_
      split <;> exact inert_pure _

/-- A chain looks at its operators first, and the rest of it is inert. -/
theorem exists_inert_inferChain (elsewhere : Elsewhere) (operands : List (Nat × Ty)) (operators : List NameAt) :
    ∃ rest, inferChain elsewhere operands operators = operatorTypes elsewhere operators >>= rest ∧
      ∀ found, Inert context (rest found) := by
  refine ⟨_, rfl, fun found => ?_⟩
  split
  · exact inert_pure _
  · split
    · exact (contained_applyTree _ _ _).inert.bind fun _ => inert_pure _
    · exact (contained_reported _ _ _).inert
    · exact (contained_reported _ _ _).inert

theorem inert_inferChain (elsewhere : Elsewhere) (operands : List (Nat × Ty)) (operators : List NameAt) :
    Inert context (inferChain elsewhere operands operators) := by
  obtain ⟨rest, heq, hrest⟩ := @exists_inert_inferChain context elsewhere operands operators
  rw [heq]
  exact (inert_operatorTypes elsewhere operators).bind hrest

end InferM

/-! ### Sites -/

/-- A node of a declaration: an expression among local names and under a number of lambdas, or a pattern. -/
inductive Site where
  | expr (locals : List Name) (depth : Nat) (e : Expr)
  | pattern (p : Pattern)

def Site.id : Site → NodeId
  | .expr _ _ e => e.id
  | .pattern p => p.id

namespace Pattern

mutual

def sites : Pattern → Multiset Site
  | .mk id pos kind => .pattern (.mk id pos kind) ::ₘ kindSites kind

def kindSites : PatternKind Pattern → Multiset Site
  | .any => 0
  | .var _ => 0
  | .unit => 0
  | .literal _ => 0
  | .record _ => 0
  | .tuple items => sitesList items
  | .list items => sitesList items
  | .cons parts => sitesList parts
  | .constructor _ args => sitesList args
  | .named pattern _ => sites pattern

def sitesList : List Pattern → Multiset Site
  | [] => 0
  | p :: ps => sites p + sitesList ps

end

end Pattern

namespace Head

def sites : Head → Multiset Site
  | .function _ params => Pattern.sitesList params
  | .pattern p => p.sites

/-- The number of lambdas that the parameters of a definition stand for. -/
def levels (head : Head) : Nat :=
  if head.params.isEmpty then 0 else 1

end Head

namespace Expr

mutual

/-- The nodes that inference comes by when it infers an expression among local names and under a number of lambdas. -/
def sites (locals : List Name) (depth : Nat) : Expr → Multiset Site
  | .mk id pos kind => .expr locals depth (.mk id pos kind) ::ₘ kindSites locals depth kind

def kindSites (locals : List Name) (depth : Nat) : ExprKind Expr → Multiset Site
  | .unit => 0
  | .literal _ => 0
  | .var _ => 0
  | .operator _ => 0
  | .accessor _ => 0
  | .call target args => sites locals depth target + sitesList locals depth args
  | .binary operands _ => sitesList locals depth operands
  | .negate operand => sites locals depth operand
  | .tuple items => sitesList locals depth items
  | .list items => sitesList locals depth items
  | .record fields => sitesFields locals depth fields
  | .update _ fields => sitesFields locals depth fields
  | .access target _ => sites locals depth target
  | .conditional branches otherwise => sitesBranches locals depth branches + sites locals depth otherwise
  | .caseOf scrutinee branches => sites locals depth scrutinee + sitesCases locals depth branches
  | .lambda params body =>
    Pattern.sitesList params + sites ((Pattern.boundNamesList params).map NameAt.name ++ locals) (depth + 1) body
  | .letIn definitions body =>
    let inner := definitions.flatMap (fun d => d.head.boundNames.map NameAt.name) ++ locals
    sitesDefinitions inner depth definitions + sites inner depth body

def sitesList (locals : List Name) (depth : Nat) : List Expr → Multiset Site
  | [] => 0
  | e :: es => sites locals depth e + sitesList locals depth es

def sitesFields (locals : List Name) (depth : Nat) : List (NameAt × Expr) → Multiset Site
  | [] => 0
  | (_, e) :: rest => sites locals depth e + sitesFields locals depth rest

def sitesBranches (locals : List Name) (depth : Nat) : List (Expr × Expr) → Multiset Site
  | [] => 0
  | (c, e) :: rest => sites locals depth c + sites locals depth e + sitesBranches locals depth rest

def sitesCases (locals : List Name) (depth : Nat) : List (Pattern × Expr) → Multiset Site
  | [] => 0
  | (p, e) :: rest =>
    p.sites + sites (p.boundNames.map NameAt.name ++ locals) depth e + sitesCases locals depth rest

/-- Definitions that bind no name are never inferred. -/
def sitesDefinitions (locals : List Name) (depth : Nat) : List (Definition Expr) → Multiset Site
  | [] => 0
  | d :: rest =>
    (if d.head.boundNames.isEmpty then 0
      else d.head.sites + sites (d.head.paramNames ++ locals) (depth + d.head.levels) d.body) +
      sitesDefinitions locals depth rest

end

end Expr

def Definition.sites (locals : List Name) (depth : Nat) (d : ValueDecl) : Multiset Site :=
  d.head.sites + d.body.sites (d.head.paramNames ++ locals) (depth + d.head.levels)

/-- The nodes of a declaration of a module; a function knows its own name. -/
def Definition.declaredSites (d : ValueDecl) : Multiset Site :=
  d.sites d.head.name?.toList 0

theorem Expr.sitesDefinitions_cons (locals : List Name) (depth : Nat) (d : ValueDecl) (rest : List ValueDecl) :
    Expr.sitesDefinitions locals depth (d :: rest) =
      (if d.names = [] then 0 else d.sites locals depth) + Expr.sitesDefinitions locals depth rest := by
  rw [Expr.sitesDefinitions]
  simp only [Definition.names, List.isEmpty_iff, List.map_eq_nil_iff]
  rfl

/-! ### Frames and settings -/

namespace Scope

/-- Whether a scope binds each name once. -/
def Keyed (scope : Scope) : Prop := (scope.map Prod.fst).Nodup

theorem keyed_foldl_set {scope : Scope} (h : scope.Keyed) (names : List NameAt) (binding : Binding) :
    Keyed (names.foldl (fun scope n => Assoc.set scope n.name binding) scope) := by
  induction names generalizing scope with
  | nil => exact h
  | cons n names ih => exact ih (Assoc.nodup_keys_set h _ _)

theorem keyed_foldl_remove {scope : Scope} (h : scope.Keyed) (names : List NameAt) :
    Keyed (names.foldl (fun scope n => Assoc.remove scope n.name) scope) := by
  induction names generalizing scope with
  | nil => exact h
  | cons n names ih => exact ih (Assoc.nodup_keys_remove h _)

end Scope

/-- A definition that may wait: its place in the `let`, and the number of lambdas around it. -/
structure Awaited where
  slot : Nat
  definition : ValueDecl
  depth : Nat

/-- What is known of a scope: the names that it may bind, and the definitions that may wait there. -/
structure Frame where
  names : List Name
  awaited : List Awaited := []

/-- The sites of a definition that waits, counted at the first of its names. -/
def Binding.owedAt (locals : List Name) (name : Name) : Option Binding → Multiset Site
  | some (.pending _ d depth) => if d.names.head? = some name then d.sites locals depth else 0
  | _ => 0

theorem Binding.owedAt_of_not_isPending {locals : List Name} {name : Name} {binding : Option Binding}
    (h : ∀ b, binding = some b → ¬ b.IsPending) : owedAt locals name binding = 0 := by
  unfold owedAt
  split
  · exact absurd trivial (h _ rfl)
  · rfl

namespace Frame

variable {f : Frame} {scope scope' : Scope} {locals : List Name}

structure Fits (f : Frame) (scope : Scope) : Prop where
  keyed : scope.Keyed
  coherent : scope.Coherent
  bound : ∀ name, (Assoc.get? scope name).isSome → name ∈ f.names
  waits : ∀ name slot d depth, Assoc.get? scope name = some (.pending slot d depth) → ⟨slot, d, depth⟩ ∈ f.awaited

def owed (f : Frame) (locals : List Name) (scope : Scope) : Multiset Site :=
  ∑ name ∈ f.names.toFinset, Binding.owedAt locals name (Assoc.get? scope name)

theorem fits_nil (names : List Name) : Fits ⟨names, []⟩ [] :=
  ⟨List.nodup_nil, ⟨nofun, nofun⟩, nofun, nofun⟩

/-- Names of a frame may get other meanings, if no definition that goes on waiting has one of them. -/
theorem Fits.of_rebinds (h : f.Fits scope) {names : List Name} (hnames : names ⊆ f.names) (hkeyed : scope'.Keyed)
    (hrebinds : Scope.Rebinds names scope scope')
    (hapart : ∀ name slot d depth, name ∉ names → Assoc.get? scope name = some (.pending slot d depth) →
      ∀ other ∈ d.names, other ∉ names) : f.Fits scope' := by
  refine ⟨hkeyed, hrebinds.coherent h.coherent hapart, fun name hsome => ?_, fun name slot d depth hget => ?_⟩
  · by_cases hname : name ∈ names
    · exact hnames hname
    · exact h.bound name (hrebinds.others name hname ▸ hsome)
  · have hname : name ∉ names := fun hname => hrebinds.settled name hname _ hget trivial
    exact h.waits name slot d depth (hrebinds.others name hname ▸ hget)

/-- A definition may come to wait under names that had no meaning before. -/
theorem Fits.await (h : f.Fits scope) {slot depth : Nat} {d : ValueDecl}
    (hkeyed : scope'.Keyed) (hnames : d.names ⊆ f.names) (hawaited : ⟨slot, d, depth⟩ ∈ f.awaited)
    (hfresh : ∀ name ∈ d.names, Assoc.get? scope name = none)
    (hothers : ∀ name, name ∉ d.names → Assoc.get? scope' name = Assoc.get? scope name)
    (hpending : ∀ name ∈ d.names, Assoc.get? scope' name = some (.pending slot d depth)) : f.Fits scope' := by
  -- What waits is this definition, or it waited before under names that are all others.
  have hcases : ∀ name slot' d' depth', Assoc.get? scope' name = some (.pending slot' d' depth') →
      (⟨slot', d', depth'⟩ : Awaited) = ⟨slot, d, depth⟩ ∧ name ∈ d.names ∨
        name ∉ d.names ∧ Assoc.get? scope name = some (.pending slot' d' depth') := by
    intro name slot' d' depth' hget
    by_cases hname : name ∈ d.names
    · cases hget.symm.trans (hpending name hname)
      exact .inl ⟨rfl, hname⟩
    · exact .inr ⟨hname, hothers name hname ▸ hget⟩
  refine ⟨hkeyed, ⟨?_, ?_⟩, fun name hsome => ?_, ?_⟩
  · intro name slot' d' depth' hget
    obtain ⟨heq, hname⟩ | ⟨-, hget⟩ := hcases _ _ _ _ hget
    · cases heq
      exact hname
    · exact h.coherent.named _ _ _ _ hget
  · intro name slot' d' depth' hget other hother
    obtain ⟨heq, -⟩ | ⟨-, hget⟩ := hcases _ _ _ _ hget
    · cases heq
      exact hpending other hother
    · have hshared := h.coherent.shared _ _ _ _ hget other hother
      have hnot : other ∉ d.names := fun hmem => nomatch (hfresh other hmem).symm.trans hshared
      exact (hothers other hnot).trans hshared
  · by_cases hname : name ∈ d.names
    · exact hnames hname
    · exact h.bound name (hothers name hname ▸ hsome)
  · intro name slot' d' depth' hget
    obtain ⟨heq, -⟩ | ⟨-, hget⟩ := hcases _ _ _ _ hget
    · exact heq ▸ hawaited
    · exact h.waits _ _ _ _ hget

/-- Nothing is owed where nothing may wait. -/
theorem Fits.owed_eq_zero (h : f.Fits scope) (hawaited : f.awaited = []) : f.owed locals scope = 0 := by
  refine Finset.sum_eq_zero fun name _ => Binding.owedAt_of_not_isPending fun b hget hpending => ?_
  obtain ⟨slot, d, depth, rfl⟩ := hpending.eq_pending
  have hmem := h.waits name slot d depth hget
  rw [hawaited] at hmem
  cases hmem

/-- When the names of a waiting definition get other meanings, just this definition waits no longer. -/
theorem Fits.owed_of_rebinds (h : f.Fits scope) {name : Name} {slot : Nat} {d : ValueDecl} {depth : Nat}
    (hget : Assoc.get? scope name = some (.pending slot d depth)) (hrebinds : Scope.Rebinds d.names scope scope') :
    f.owed locals scope = d.sites locals depth + f.owed locals scope' := by
  have hshared := h.coherent.shared _ _ _ _ hget
  obtain ⟨first, rest, hfirst⟩ := List.exists_cons_of_ne_nil (List.ne_nil_of_mem (h.coherent.named _ _ _ _ hget))
  have hmem : first ∈ d.names := hfirst ▸ List.mem_cons_self
  have hnames : first ∈ f.names.toFinset :=
    List.mem_toFinset.mpr (h.bound first (Option.isSome_iff_exists.mpr ⟨_, hshared first hmem⟩))
  have hpointwise : ∀ other, Binding.owedAt locals other (Assoc.get? scope other) =
      (if first = other then d.sites locals depth else 0) + Binding.owedAt locals other (Assoc.get? scope' other) := by
    intro other
    by_cases hother : other ∈ d.names
    · rw [Binding.owedAt_of_not_isPending (hrebinds.settled other hother), add_zero, hshared other hother,
        Binding.owedAt, hfirst, List.head?_cons]
      simp only [Option.some.injEq]
    · have hne : first ≠ other := fun heq => hother (heq ▸ hmem)
      rw [if_neg hne, zero_add, hrebinds.others other hother]
  rw [owed, owed, Finset.sum_congr rfl fun other _ => hpointwise other, Finset.sum_add_distrib, Finset.sum_ite_eq,
    if_pos hnames]

/-- Names under which nothing waits may get other meanings. -/
theorem owed_of_settled {names : List Name} (hrebinds : Scope.Rebinds names scope scope')
    (hsettled : ∀ name ∈ names, ∀ b, Assoc.get? scope name = some b → ¬ b.IsPending) :
    f.owed locals scope' = f.owed locals scope := by
  refine Finset.sum_congr rfl fun name _ => ?_
  by_cases hname : name ∈ names
  · rw [Binding.owedAt_of_not_isPending (hrebinds.settled name hname), Binding.owedAt_of_not_isPending (hsettled name hname)]
  · rw [hrebinds.others name hname]

end Frame

/-- The scopes of a pass, the innermost first, and the number of lambdas around. -/
structure Setting where
  frames : List Frame
  depth : Nat

def Frame.locals (frames : List Frame) : List Name :=
  frames.flatMap Frame.names

/-- The sites of the definitions that wait in scopes; they know the names of their own scope and of those around. -/
def Frame.owedIn : List Frame → List Scope → Multiset Site
  | f :: frames, scope :: outer => f.owed (Frame.locals (f :: frames)) scope + owedIn frames outer
  | _, _ => 0

namespace Setting

variable {σ : Setting} {pass pass' : Pass}

def locals (σ : Setting) : List Name :=
  Frame.locals σ.frames

def push (σ : Setting) (f : Frame) : Setting :=
  ⟨f :: σ.frames, σ.depth⟩

def under (σ : Setting) (levels : Nat) : Setting :=
  ⟨σ.frames, σ.depth + levels⟩

structure Fits (σ : Setting) (pass : Pass) : Prop where
  frames : List.Forall₂ Frame.Fits σ.frames pass.scopes
  depth : pass.depth = σ.depth

def owed (σ : Setting) (pass : Pass) : Multiset Site :=
  Frame.owedIn σ.frames pass.scopes

theorem Fits.of_stays (h : σ.Fits pass) (hstays : pass.Stays pass') : σ.Fits pass' :=
  ⟨hstays.scopes ▸ h.frames, hstays.depth.trans h.depth⟩

theorem owed_of_stays (hstays : pass.Stays pass') : σ.owed pass' = σ.owed pass := by
  rw [owed, owed, hstays.scopes]

/-- What is owed depends on what waits, not on what may wait. -/
theorem owed_push (names : List Name) (awaited awaited' : List Awaited) :
    (σ.push ⟨names, awaited⟩).owed pass = (σ.push ⟨names, awaited'⟩).owed pass := by
  unfold owed push
  cases pass.scopes <;> rfl

/-- A name that is no local one is bound in no scope. -/
theorem lookupIn_eq_none {frames : List Frame} {scopes : List Scope} (h : List.Forall₂ Frame.Fits frames scopes)
    {name : Name} (hname : name ∉ Frame.locals frames) : InferM.lookupIn name scopes = none := by
  induction h with
  | nil => rfl
  | cons hfirst _ ih =>
    obtain ⟨hnot, hrest⟩ := not_or.mp (mt List.mem_append.mpr hname)
    rw [InferM.lookupIn, Option.not_isSome_iff_eq_none.mp (mt (hfirst.bound name) hnot), ih hrest]
    rfl

end Setting

/-- What is owed in outer scopes does not depend on the scopes inside of them. -/
theorem Frame.exists_owedIn_append {frames : List Frame} {hidden : List Scope} (h : hidden.length ≤ frames.length) :
    ∃ inner, ∀ scopes, owedIn frames (hidden ++ scopes) = inner + owedIn (frames.drop hidden.length) scopes := by
  induction hidden generalizing frames with
  | nil => exact ⟨0, fun scopes => (zero_add _).symm⟩
  | cons scope hidden ih =>
    cases frames with
    | nil => cases h
    | cons f frames =>
      obtain ⟨inner, hinner⟩ := ih (Nat.le_of_succ_le_succ h)
      refine ⟨f.owed (Frame.locals (f :: frames)) scope + inner, fun scopes => ?_⟩
      rw [List.cons_append, owedIn, hinner, List.length_cons, List.drop_succ_cons, add_assoc]

end ElmInference
