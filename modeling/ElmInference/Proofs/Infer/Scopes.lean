import ElmInference.Proofs.Infer.Runs
import ElmInference.Proofs.Infer.Sessions

/-!
# What inference does to the names in scope

Most of inference is contained work: it reads the pass and the module, adds to the store and to the problems found,
and leaves the names in scope alone, as well as the type variables of the signatures around. Only patterns record
types on the way. What contained work does can be told from its parts, so it is enough to see once how each piece of
inference is put together. References to other declarations infer these in passes of their own and leave the names
alone, too.
-/

namespace ElmInference

/-- The state of a pass without its notes on declarations in progress. -/
def Pass.known (pass : Pass) : Pass :=
  { pass with recursive := [] }

/-- What inference never takes back: the problems found, that the work was called off, and the notes on declarations in
progress. -/
structure Pass.Grows (pass pass' : Pass) : Prop where
  problems : pass.problems <+: pass'.problems
  cancelled : pass.cancelled = true → pass'.cancelled = true
  recursive : pass.recursive ⊆ pass'.recursive

theorem Pass.Grows.refl (pass : Pass) : pass.Grows pass :=
  ⟨List.prefix_rfl, id, List.Subset.refl _⟩

theorem Pass.Grows.trans {pass pass₁ pass' : Pass} (h : pass.Grows pass₁) (h' : pass₁.Grows pass') : pass.Grows pass' :=
  ⟨h.problems.trans h'.problems, h'.cancelled ∘ h.cancelled, List.Subset.trans h.recursive h'.recursive⟩

namespace InferM

variable {α β : Type} {context : Context}

/-! ### Work that leaves the names alone -/

/-- Whether a part of the pass is the same after every run that returns. -/
def Keeps {γ : Type} (context : Context) (part : Pass → γ) (x : InferM α) : Prop :=
  ∀ w a w', x context w = (.ok a, w') → part w'.pass = part w.pass

def names (pass : Pass) : List Scope × Assoc Name Ty :=
  (pass.scopes, pass.typeVars)

def namesAndNodes (pass : Pass) : (List Scope × Assoc Name Ty) × List (NodeId × Ty) :=
  (names pass, pass.nodeTypes)

/-- Work that leaves the names in scope alone and records nothing. -/
abbrev Still (context : Context) (x : InferM α) : Prop :=
  Keeps context namesAndNodes x

/-- Work that leaves the names in scope alone. -/
abbrev Quiet (context : Context) (x : InferM α) : Prop :=
  Keeps context names x

section Parts

variable {γ : Type} {part : Pass → γ}

theorem keeps_pure (a : α) : Keeps context part (pure a) := by
  intro w b w' hrun
  obtain ⟨-, rfl⟩ := run_pure_inv hrun
  rfl

theorem Keeps.bind {x : InferM α} {f : α → InferM β} (hx : Keeps context part x) (hf : ∀ a, Keeps context part (f a)) :
    Keeps context part (x >>= f) := by
  intro w b w' hrun
  obtain ⟨a, w₁, hrun₁, hrun₂⟩ := run_bind_inv hrun
  exact (hf a _ _ _ hrun₂).trans (hx _ _ _ hrun₁)

theorem keeps_throw (fault : Fault) : Keeps context part (throw fault : InferM α) := by
  intro w a w' hrun
  cases hrun

/-- What only looks at the state keeps it. -/
theorem keeps_of_unchanged {x : InferM α} (h : ∀ w, (x context w).2 = w) : Keeps context part x := by
  intro w a w' hrun
  have hw := h w
  rw [hrun] at hw
  rw [← hw]

theorem keeps_modifyPass {f : Pass → Pass} (h : ∀ pass, part (f pass) = part pass) :
    Keeps context part (modifyPass f) := by
  intro w a w' hrun
  cases hrun
  exact h _

theorem keeps_session (x : SessionM α) : Keeps context part (session x) := by
  intro w a w' hrun
  obtain ⟨session', -, rfl⟩ := run_session_inv hrun
  rfl

end Parts

theorem Keeps.quiet {x : InferM α} (h : Still context x) : Quiet context x :=
  fun w a w' hrun => congrArg Prod.fst (h w a w' hrun)

theorem still_getPass : Still context getPass :=
  keeps_of_unchanged fun _ => rfl

theorem still_get : Still context get :=
  keeps_of_unchanged fun _ => rfl

/-! ### Contained work -/

/-- Work that adds to the store and to the problems of a pass, and reads of the pass what does not concern
declarations in progress. It may record types if `records` holds, and look at the type variables of the signatures
around if `looks` does. -/
inductive Contained (records looks : Prop) : {α : Type} → InferM α → Prop where
  | pure {α : Type} (a : α) : Contained records looks (pure a)
  | bind {α β : Type} {x : InferM α} {f : α → InferM β} (hx : Contained records looks x)
      (hf : ∀ a, Contained records looks (f a)) : Contained records looks (x >>= f)
  | throw {α : Type} (fault : Fault) : Contained records looks (throw fault : InferM α)
  | read : Contained records looks read
  | inspect {α : Type} {f : Pass → InferM α} (hf : ∀ pass, f pass = f pass.known)
      (hlooks : looks ∨ ∀ pass vars, f { pass with typeVars := vars } = f pass)
      (h : ∀ pass, Contained records looks (f pass)) : Contained records looks (getPass >>= f)
  | modify {f : Pass → Pass} (hknown : ∀ pass, (f pass).known = (f pass.known).known)
      (hblind : ∀ pass vars, f { pass with typeVars := vars } = { f pass with typeVars := vars })
      (hnames : ∀ pass, namesAndNodes (f pass) = namesAndNodes pass)
      (hgrows : ∀ pass, pass.problems <+: (f pass).problems ∧ (f pass).cancelled = pass.cancelled ∧
        (f pass).depth = pass.depth ∧ (f pass).recursive = pass.recursive) : Contained records looks (modifyPass f)
  | record (h : records) (id : NodeId) (t : Ty) : Contained records looks (record id t)
  | store {α : Type} (work : StoreM α) : Contained records looks (store work)
  | allocate {α : Type} (work : Store → α × Store) : Contained records looks (allocate work)
  | isCancelled : Contained records looks isCancelled
  | trip (name : Ref) : Contained records looks (session (SessionM.trip name))
  | findValues (name : Ref) : Contained records looks (session (SessionM.findValues name))
  | convert (rigid : Bool) (vars : Assoc Name Ty) (t : TypeExpr) : Contained records looks (convert rigid vars t)
  | constructorTypes (name : Ref) : Contained records looks (constructorTypes name)

theorem still_store (work : StoreM α) : Still context (store work) := by
  intro w a w' hrun
  obtain ⟨s', -, rfl⟩ := run_store_inv hrun
  rfl

theorem still_allocate (work : Store → α × Store) : Still context (allocate work) := by
  intro w a w' hrun
  rw [run_allocate] at hrun
  cases hrun
  rfl

theorem still_convert (rigid : Bool) (vars : Assoc Name Ty) (t : TypeExpr) :
    Still context (convert rigid vars t) := by
  refine Keeps.bind (keeps_of_unchanged fun _ => rfl) fun _ => still_getPass.bind fun _ => ?_
  exact (keeps_session _).bind fun _ => Keeps.bind (keeps_modifyPass fun _ => rfl) fun _ => keeps_pure _

theorem still_constructorTypes (name : Ref) : Still context (constructorTypes name) := by
  refine (keeps_session _).bind fun targets => ?_
  split
  · exact Keeps.bind (keeps_of_unchanged fun _ => rfl) fun _ => (keeps_session _).bind fun _ => still_allocate _
  · refine (still_allocate _).bind fun t => ?_
    split <;> exact keeps_pure _
  · exact keeps_pure _

theorem still_isCancelled : Still context isCancelled := by
  refine still_getPass.bind fun pass => ?_
  split
  · exact keeps_pure _
  · refine (keeps_session _).bind fun seen => ?_
    split
    · exact Keeps.bind (keeps_modifyPass fun _ => rfl) fun _ => keeps_pure _
    · exact keeps_pure _

/-- Contained work keeps what concerns names and recorded types, unless it records something. -/
theorem Contained.keeps {γ : Type} {part : Pass → γ} {records looks : Prop} {x : InferM α}
    (h : Contained records looks x) (hpart : ∀ pass pass', namesAndNodes pass = namesAndNodes pass' → part pass = part pass')
    (hrecord : records → ∀ id t, Keeps context part (InferM.record id t)) : Keeps context part x := by
  have hstill : ∀ {β : Type} {y : InferM β}, Still context y → Keeps context part y :=
    fun hy w a w' hrun => hpart _ _ (hy w a w' hrun)
  induction h with
  | pure a => exact keeps_pure a
  | bind _ _ hx hf => exact hx.bind hf
  | throw fault => exact keeps_throw fault
  | read => exact keeps_of_unchanged fun _ => rfl
  | inspect _ _ _ h => exact (hstill still_getPass).bind h
  | modify _ _ hnames _ => exact hstill (keeps_modifyPass hnames)
  | record h id t => exact hrecord h id t
  | store work => exact hstill (still_store work)
  | allocate work => exact hstill (still_allocate work)
  | isCancelled => exact hstill still_isCancelled
  | trip _ | findValues _ => exact keeps_session _
  | convert rigid vars t => exact hstill (still_convert rigid vars t)
  | constructorTypes name => exact hstill (still_constructorTypes name)

theorem Contained.still {x : InferM α} (h : Contained False True x) : Still context x :=
  h.keeps (fun _ _ => id) fun hfalse => hfalse.elim

theorem Contained.quiet {x : InferM α} (h : Contained True True x) : Quiet context x :=
  h.keeps (fun _ _ => congrArg Prod.fst) fun _ _ _ => keeps_modifyPass fun _ => rfl

section Pieces

variable {records looks : Prop}

theorem contained_mapM {f : α → InferM β} (h : ∀ a, Contained records looks (f a)) (xs : List α) :
    Contained records looks (xs.mapM f) := by
  induction xs with
  | nil => exact .pure _
  | cons x xs ih =>
    rw [List.mapM_cons]
    exact (h x).bind fun _ => ih.bind fun _ => .pure _

theorem contained_forM {f : α → InferM PUnit} (h : ∀ a, Contained records looks (f a)) (xs : List α) :
    Contained records looks (xs.forM f) := by
  induction xs with
  | nil => exact .pure _
  | cons x xs ih => exact (h x).bind fun _ => ih

theorem contained_zonk (t : Ty) : Contained records looks (zonk t) :=
  .store _

theorem contained_freshVar (name : Name) : Contained records looks (freshVar name) :=
  .store _

theorem contained_freshVars (name : Name) (xs : List α) : Contained records looks (freshVars name xs) :=
  contained_mapM (fun _ => contained_freshVar name) xs

theorem contained_instantiate (scheme : Scheme) : Contained records looks (instantiate scheme) :=
  .allocate _

theorem contained_engine : Contained records looks engine :=
  .bind .read fun _ => .pure _

theorem contained_report (pos : Nat) (kind : ProblemKind) : Contained records looks (report pos kind) :=
  .modify (fun _ => rfl) (fun _ _ => rfl) (fun _ => rfl) fun _ => ⟨List.prefix_append _ _, rfl, rfl, rfl⟩

/-- A problem is reported, and nothing is known of a type. -/
theorem contained_reported (pos : Nat) (kind : ProblemKind) (a : α) :
    Contained records looks (do report pos kind; return a : InferM α) :=
  (contained_report pos kind).bind fun _ => .pure a

theorem contained_mapDiff (diff : RecordDiff) : Contained records looks (diff.mapTypesM zonk) := by
  have hfield : ∀ field : Name × Ty,
      Contained records looks (do return (field.1, ← zonk field.2) : InferM (Name × Ty)) :=
    fun field => (contained_zonk field.2).bind fun _ => .pure _
  refine (contained_mapM hfield _).bind fun _ => (contained_mapM hfield _).bind fun _ => ?_
  refine (contained_mapM (fun field => ?_) _).bind fun _ => .pure _
  exact (contained_zonk _).bind fun _ => (contained_zonk _).bind fun _ => .pure _

theorem contained_mapKind (kind : ProblemKind) : Contained records looks (kind.mapTypesM zonk) := by
  have hdiff : ∀ diff, Contained records looks (ProblemKind.mapDiffM zonk diff) := by
    intro diff
    cases diff with
    | none => exact .pure _
    | some diff => exact (contained_mapDiff diff).bind fun _ => .pure _
  have hzonk : ∀ (t : Ty) (f : Ty → ProblemKind),
      Contained records looks (do return f (← zonk t) : InferM ProblemKind) :=
    fun t f => (contained_zonk t).bind fun _ => .pure _
  cases kind with
  | typeMismatch found required diff | invalidPattern found required diff =>
    refine (contained_zonk _).bind fun _ => (contained_zonk _).bind fun _ => ?_
    exact (hdiff diff).bind fun _ => .pure _
  | typeMustBeRecord found | fieldAccessOnNonRecord found => exact hzonk found _
  | _ => exact .pure _

theorem contained_zonkProblem (problem : Problem) : Contained records looks (do
    return { problem with kind := ← problem.kind.mapTypesM zonk } : InferM Problem) :=
  (contained_mapKind _).bind fun _ => .pure _

theorem contained_zonkEntry {κ : Type} (entry : κ × Ty) :
    Contained records looks (do return (entry.1, ← zonk entry.2) : InferM (κ × Ty)) :=
  (contained_zonk _).bind fun _ => .pure _

theorem contained_check (pos : Nat) (t u : Ty) : Contained records looks (check pos t u) := by
  refine (Contained.store _).bind fun outcome => ?_
  split
  · exact .pure _
  · exact contained_reported _ _ _
  · exact (contained_zonk _).bind fun _ => (contained_zonk _).bind fun _ => contained_reported _ _ _
  · refine (contained_zonk _).bind fun _ => (contained_zonk _).bind fun _ => ?_
    exact (contained_mapDiff _).bind fun _ => contained_reported _ _ _

theorem contained_convertSignature (vars : Assoc Name Ty) (t : TypeExpr) :
    Contained records looks (convertSignature vars t) := by
  refine (Contained.convert _ _ _).bind fun _ => Contained.bind ?_ fun _ => .pure _
  exact .modify (fun _ => rfl) (fun _ _ => rfl) (fun _ => rfl) fun _ => ⟨List.prefix_append _ _, rfl, rfl, rfl⟩

theorem contained_convertForeign (t : TypeExpr) : Contained records looks (convertForeign t) :=
  (Contained.convert _ _ _).bind fun _ => .pure _

/-! ### Patterns -/

theorem contained_literalType (kind : Literal) : Contained records looks (literalType kind) := by
  cases kind with
  | int => exact contained_freshVar _
  | float | char | string => exact .pure _

theorem contained_checkPattern (pos : Nat) (t u : Ty) : Contained records looks (checkPattern pos t u) := by
  have hrest : ∀ diff, Contained records looks (do
      let patternType ← zonk t
      let required ← zonk u
      report pos (.invalidPattern patternType required diff)
      return false : InferM Bool) :=
    fun diff => (contained_zonk _).bind fun _ => (contained_zonk _).bind fun _ => contained_reported _ _ _
  refine (Contained.store _).bind fun outcome => ?_
  split
  · exact .pure _
  · exact contained_reported _ _ _
  · split
    · exact (contained_mapDiff _).bind fun _ => hrest _
    · exact hrest _

theorem contained_partialPattern (pos : Nat) (place : PatternPlace) :
    Contained records looks (partialPattern pos place) := by
  unfold partialPattern
  split
  · exact contained_report _ _
  · exact .pure _

theorem contained_recorded (id : NodeId) (t : Ty) (bound : Bound) :
    Contained True looks (do record id t; return bound : InferM Bound) :=
  (Contained.record trivial id t).bind fun _ => .pure _

mutual

theorem contained_inferPattern (place : PatternPlace) (p : Pattern) (t : Ty) :
    Contained True looks (inferPattern place p t) := by
  match p with
  | .mk id pos .any | .mk id pos (.var name) =>
    rw [inferPattern]
    exact contained_recorded _ _ _
  | .mk id pos .unit =>
    rw [inferPattern]
    exact (contained_checkPattern _ _ _).bind fun _ => contained_recorded _ _ _
  | .mk id pos (.literal kind) =>
    rw [inferPattern]
    refine (contained_partialPattern _ _).bind fun _ => (contained_literalType kind).bind fun u => ?_
    exact (contained_checkPattern _ _ _).bind fun _ => contained_recorded _ _ _
  | .mk id pos (.tuple items) =>
    rw [inferPattern]
    refine (contained_freshVars _ _).bind fun types => (contained_checkPattern _ _ _).bind fun fits => ?_
    exact (contained_inferPatterns place items _).bind fun _ => contained_recorded _ _ _
  | .mk id pos (.list items) =>
    rw [inferPattern]
    refine (contained_partialPattern _ _).bind fun _ => (contained_freshVar _).bind fun item => ?_
    refine (contained_checkPattern _ _ _).bind fun fits => ?_
    exact (contained_inferPatterns place items _).bind fun _ => contained_recorded _ _ _
  | .mk id pos (.cons parts) =>
    rw [inferPattern]
    refine (contained_partialPattern _ _).bind fun _ => (contained_freshVar _).bind fun item => ?_
    refine (contained_checkPattern _ _ _).bind fun fits => ?_
    exact (contained_inferPatterns place parts _).bind fun _ => contained_recorded _ _ _
  | .mk id pos (.record fields) =>
    rw [inferPattern]
    refine (contained_freshVars _ _).bind fun types => (contained_freshVar _).bind fun base => ?_
    exact (contained_checkPattern _ _ _).bind fun fits => contained_recorded _ _ _
  | .mk id pos (.constructor name args) =>
    rw [inferPattern]
    have hrest : ∀ types, Contained True looks (do
        let bound ← inferPatterns place args types
        record id t
        return bound : InferM Bound) :=
      fun types => (contained_inferPatterns place args types).bind fun _ => contained_recorded _ _ _
    refine (Contained.constructorTypes name).bind fun found => ?_
    split
    · exact hrest _
    · split
      · exact (contained_report _ _).bind fun _ => hrest _
      · exact (contained_checkPattern _ _ _).bind fun fits => hrest _
  | .mk id pos (.named pattern name) =>
    rw [inferPattern]
    exact (contained_inferPattern place pattern t).bind fun _ => contained_recorded _ _ _

theorem contained_inferPatterns (place : PatternPlace) (ps : List Pattern) (types : List Ty) :
    Contained True looks (inferPatterns place ps types) := by
  match ps with
  | [] =>
    rw [inferPatterns]
    exact .pure _
  | p :: ps =>
    rw [inferPatterns]
    exact (contained_inferPattern place p _).bind fun _ => (contained_inferPatterns place ps _).bind fun _ => .pure _

end

theorem contained_expectedParams (name : NameAt) (params : List Pattern) (signature : Option Ty) :
    Contained records looks (expectedParams name params signature) := by
  cases signature with
  | none => exact .pure _
  | some t =>
    rw [expectedParams]
    split
    · exact contained_reported _ _ _
    · exact .pure _

theorem contained_inferParams (ps : List Pattern) (types : List Ty) : Contained True looks (inferParams ps types) := by
  induction ps generalizing types with
  | nil =>
    rw [inferParams]
    · exact .pure _
    · exact fun _ _ _ _ h => by cases h
  | cons p ps ih =>
    cases types with
    | nil =>
      rw [inferParams]
      · exact .pure _
      · exact fun _ _ _ _ _ h => by cases h
    | cons t types =>
      rw [inferParams]
      exact (contained_inferPattern .parameter p t).bind fun _ => (ih types).bind fun _ => .pure _

/-! ### Declaring and generalizing -/

theorem contained_lookup (name : Name) : Contained records looks (lookup name) :=
  .inspect (fun _ => rfl) (.inr fun _ _ => rfl) fun _ => .pure _

theorem contained_shadows (name : Name) : Contained records looks (shadows name) := by
  refine .inspect (fun _ => rfl) (.inr fun _ _ => rfl) fun pass => ?_
  split
  · exact .pure _
  · exact (Contained.findValues _).bind fun _ => Contained.read.bind fun _ => .pure _

theorem contained_declare (taken : List Name) (name : NameAt) : Contained records looks (declare taken name) := by
  refine contained_engine.bind fun engine => ?_
  have hrest : ∀ hidden, Contained records looks (do
      if taken.contains name.name || hidden then report name.pos .conflictingName
      return name.name :: taken : InferM (List Name)) := by
    intro hidden
    split
    · exact contained_reported _ _ _
    · exact .pure _
  split
  · exact hrest _
  · exact (contained_shadows _).bind fun hidden => hrest hidden

theorem contained_declareAll (taken : List Name) (more : List NameAt) :
    Contained records looks (declareAll taken more) := by
  induction more generalizing taken with
  | nil => exact .pure _
  | cons name rest ih => exact (contained_declare taken name).bind fun taken => ih taken

theorem contained_generalize (t : Ty) : Contained records True (generalize t) := by
  refine .inspect (fun _ => rfl) (.inl trivial) fun pass => ?_
  split
  · exact .throw _
  · split
    · exact .throw _
    · exact .pure _

/-! ### References that infer no local definition -/

theorem contained_useBinding (pos : Nat) (binding : Binding) : Contained records looks (useBinding pos binding) := by
  unfold useBinding
  split
  · exact contained_reported _ _ _
  · exact .pure _
  · exact contained_instantiate _
  · refine .inspect (fun _ => rfl) (.inr fun _ _ => rfl) fun pass => ?_
    split
    · exact contained_reported _ _ _
    · exact contained_instantiate _
  · refine .inspect (fun _ => rfl) (.inr fun _ _ => rfl) fun pass => ?_
    split
    · exact contained_reported _ _ _
    · exact .pure _
  · exact .pure _

theorem contained_checkCycle (pos index : Nat) (decl : ValueDecl) :
    Contained records looks (checkCycle pos index decl) := by
  refine Contained.read.bind fun _ => ?_
  split
  · split
    · exact contained_report _ _
    · refine .inspect (fun _ => rfl) (.inr fun _ _ => rfl) fun pass => ?_
      split
      · exact contained_report _ _
      · exact .pure _
  · have hcycle : Contained records looks (isEvaluatedCycle index decl) := by
      refine .inspect (fun _ => rfl) (.inr fun _ _ => rfl) fun pass => ?_
      split
      · refine contained_engine.bind fun _ => Contained.read.bind fun _ => ?_
        exact (contained_forM (fun _ => .trip _) _).bind fun _ => .pure _
      · exact .pure _
    refine hcycle.bind fun found => ?_
    split
    · exact contained_report _ _
    · exact .pure _

/-! ### Calls, operators and fields -/

theorem contained_joinType (pos : Nat) (t : Ty) (first : Option Ty) :
    Contained records looks (joinType pos t first) := by
  cases first with
  | none => exact .pure _
  | some first => exact (contained_check _ _ _).bind fun _ => .pure _

theorem contained_checkArgs (args : List (Nat × Ty)) (params : List Ty) :
    Contained records looks (checkArgs args params) := by
  induction args generalizing params with
  | nil =>
    unfold checkArgs
    exact .pure _
  | cons arg args ih =>
    cases params with
    | nil =>
      unfold checkArgs
      exact .pure _
    | cons param params =>
      rw [checkArgs]
      exact (contained_check _ _ _).bind fun _ => ih params

theorem contained_applyTo (pos total : Nat) (params : List Ty) (ret : Ty) (args : List (Nat × Ty)) :
    Contained records looks (applyTo pos total params ret args) := by
  induction args generalizing params ret with
  | nil =>
    rw [applyTo]
    exact .pure _
  | cons arg rest ih =>
    cases params with
    | cons param params =>
      rw [applyTo]
      exact (contained_check _ _ _).bind fun _ => ih params ret
    | nil =>
      rw [applyTo]
      refine (Contained.store _).bind fun found => ?_
      dsimp only
      split
      · exact (contained_check _ _ _).bind fun _ => ih _ _
      · split
        · exact contained_reported _ _ _
        · refine (contained_freshVars _ _).bind fun params => (contained_freshVar _).bind fun result => ?_
          refine (contained_check _ _ _).bind fun fits => ?_
          split
          · exact (contained_checkArgs _ _).bind fun _ => .pure _
          · exact .pure _
      · exact .pure _
      · exact .pure _
      · exact contained_reported _ _ _

theorem contained_apply (pos : Nat) (target : Ty) (args : List (Nat × Ty)) :
    Contained records looks (apply pos target args) :=
  contained_applyTo _ _ _ _ _

theorem contained_applyTree (operands : List (Nat × Ty)) (functions : List Ty) (tree : OperatorTree) :
    Contained records looks (applyTree operands functions tree) := by
  induction tree with
  | operand index => exact .pure _
  | node left operator right ihl ihr =>
    exact ihl.bind fun _ => ihr.bind fun _ => (contained_apply _ _ _).bind fun _ => .pure _

theorem contained_openRecord (field : NameAt) : Contained records looks (openRecord field) :=
  (contained_freshVar _).bind fun _ => (contained_freshVar _).bind fun _ => (Contained.allocate _).bind fun _ => .pure _

theorem contained_growField (resolved : Ty) (v : TyVar) (field : NameAt) :
    Contained records looks (growField resolved v field) := by
  unfold growField
  split
  on_goal 1 => refine (Contained.store _).bind fun _ => (Contained.pure _).bind fun owner => ?_
  on_goal 2 => refine (Contained.pure _).bind fun owner => ?_
  all_goals
    cases owner with
    | some id =>
      refine (contained_freshVar _).bind fun t => (Contained.store _).bind fun outcome => ?_
      split <;> exact .pure _
    | none => exact (contained_openRecord field).bind fun _ => (Contained.store _).bind fun _ => .pure _

theorem contained_recordField (resolved : Ty) (field : NameAt) :
    Contained records looks (recordField resolved field) := by
  refine (Contained.store _).bind fun flattened => ?_
  split
  · split
    · exact (Contained.store _).bind fun _ => .pure _
    · exact .pure _
  · split
    · exact .pure _
    · split
      · exact .pure _
      · exact (contained_growField _ _ _).bind fun _ => .pure _
    · exact .pure _

theorem contained_fieldType (record : Ty) (field : NameAt) : Contained records looks (fieldType record field) := by
  refine (Contained.store _).bind fun resolved => ?_
  split
  · exact .pure _
  · exact .pure _
  · split
    · exact (contained_openRecord field).bind fun _ => (Contained.store _).bind fun _ => .pure _
    · exact .pure _
  · exact contained_recordField _ _
  · exact contained_recordField _ _
  · exact .pure _

theorem contained_accessType (targetPos : Nat) (target : Ty) (field : NameAt) :
    Contained records looks (accessType targetPos target field) := by
  refine (contained_fieldType _ _).bind fun found => ?_
  split
  · exact .pure _
  · exact contained_reported _ _ _
  · exact (contained_zonk _).bind fun _ => contained_reported _ _ _

theorem contained_updateField (basePos : Nat) (base : Ty) (field : NameAt) (valuePos : Nat) (value : Ty) :
    Contained records looks (updateField basePos base field valuePos value) := by
  refine (contained_fieldType _ _).bind fun found => ?_
  split
  · exact (contained_check _ _ _).bind fun _ => .pure _
  · exact contained_reported _ _ _
  · exact (contained_zonk _).bind fun _ => contained_reported _ _ _

/-! ### Reading the definitions of a `let` -/

theorem contained_readDefinition (slot : Nat) (definition : ValueDecl) (l : LetScope) :
    Contained records True (readDefinition slot definition l) := by
  refine (contained_declareAll _ _).bind fun taken => .inspect (fun _ => rfl) (.inl trivial) fun pass => ?_
  split
  · exact (contained_convertSignature _ _).bind fun _ => .pure _
  · exact .pure _

theorem contained_readDefinitions (slot : Nat) (definitions : List ValueDecl) (l : LetScope) :
    Contained records True (readDefinitions slot definitions l) := by
  induction definitions generalizing slot l with
  | nil => exact .pure _
  | cons definition rest ih => exact (contained_readDefinition slot definition l).bind fun l => ih (slot + 1) l

theorem contained_isPending (slot : Nat) : Contained records looks (isPending slot) := by
  refine .inspect (fun _ => rfl) (.inr fun _ _ => rfl) fun pass => ?_
  split <;> exact .pure _

end Pieces

/-! ### References to other declarations -/

section Elsewhere

variable (elsewhere : Elsewhere)

theorem still_declarationType (pos : Nat) (name : Name) (index : Nat) (decl : ValueDecl) :
    Still context (declarationType elsewhere pos name index decl) := by
  refine (contained_checkCycle pos index decl).still.bind fun _ => ?_
  split
  · exact (contained_convertForeign _).still
  · refine still_get.bind fun w => ?_
    split
    · exact Keeps.bind (keeps_modifyPass fun _ => rfl) fun _ => keeps_pure _
    · refine (keeps_session _).bind fun outcome => ?_
      split
      · exact Keeps.bind (keeps_modifyPass fun _ => rfl) fun _ => still_allocate _
      · exact Keeps.bind (keeps_modifyPass fun _ => rfl) fun _ => keeps_pure _
      · exact keeps_pure _

theorem still_targetType (pos : Nat) (name : Name) (target : ValueTarget) :
    Still context (targetType elsewhere pos name target) := by
  cases target with
  | value index decl => exact still_declarationType elsewhere pos name index decl
  | variant m decl index =>
    refine contained_engine.still.bind fun _ => (keeps_session _).bind fun _ => (still_allocate _).bind fun found => ?_
    split <;> exact keeps_pure _
  | recordConstructor m decl =>
    refine contained_engine.still.bind fun _ => (keeps_session _).bind fun found => ?_
    split
    · exact keeps_pure _
    · refine (still_allocate _).bind fun t => ?_
      split <;> exact keeps_pure _
  | hostValue decl => exact (contained_convertForeign _).still
  | external t => exact (contained_instantiate _).still

theorem still_globalReference (pos : Nat) (name : Ref) : Still context (globalReference elsewhere pos name) := by
  refine (keeps_session _).bind fun targets => ?_
  split
  · exact still_targetType elsewhere _ _ _
  · exact keeps_pure _

theorem still_operatorType (pos : Nat) (name : Name) : Still context (operatorType elsewhere pos name) := by
  refine contained_engine.still.bind fun engine => ?_
  split
  · exact (still_targetType elsewhere _ _ _).bind fun _ => keeps_pure _
  · exact keeps_pure _

end Elsewhere

theorem still_operatorTypes (elsewhere : Elsewhere) (operators : List NameAt) :
    Still context (operatorTypes elsewhere operators) := by
  induction operators with
  | nil => exact keeps_pure _
  | cons operator rest ih =>
    rw [operatorTypes]
    refine (still_operatorType elsewhere _ _).bind fun found => ?_
    split
    · exact keeps_pure _
    · refine ih.bind fun more => ?_
      split <;> exact keeps_pure _

theorem still_inferChain (elsewhere : Elsewhere) (operands : List (Nat × Ty)) (operators : List NameAt) :
    Still context (inferChain elsewhere operands operators) := by
  refine (still_operatorTypes elsewhere operators).bind fun found => ?_
  split
  · exact keeps_pure _
  · split
    · exact (contained_applyTree _ _ _).still.bind fun _ => keeps_pure _
    · exact (contained_reported _ _ _).still
    · exact (contained_reported _ _ _).still

end InferM

end ElmInference
