import ElmInference.Proofs.Infer.ValueCycles

/-!
# What the search for value cycles decides

A reference counts where it is evaluated: outside of every lambda and of every local function, and only if no name that
is bound around it captures it. Values of the module and such references between them form a graph, and the search
decides which values a path leads to. It visits the values in the order in which a loop with a stack and a set of visited
values does, and that loop comes to an end because every value is expanded once.
-/

namespace ElmInference

open Relation

/-! ### Evaluated references -/

namespace Expr

/-- A part that is evaluated with an expression, with the names that are bound around the part. A lambda has no such
part, and a local function with parameters is none. -/
inductive EvaluatedPart : Expr → List Name → Expr → Prop
  | target {id pos : Nat} {target : Expr} {args : List Expr} : EvaluatedPart (.mk id pos (.call target args)) [] target
  | arg {id pos : Nat} {target arg : Expr} {args : List Expr} (h : arg ∈ args) :
      EvaluatedPart (.mk id pos (.call target args)) [] arg
  | operand {id pos : Nat} {operand : Expr} {operands : List Expr} {operators : List NameAt} (h : operand ∈ operands) :
      EvaluatedPart (.mk id pos (.binary operands operators)) [] operand
  | negated {id pos : Nat} {operand : Expr} : EvaluatedPart (.mk id pos (.negate operand)) [] operand
  | tupleItem {id pos : Nat} {item : Expr} {items : List Expr} (h : item ∈ items) :
      EvaluatedPart (.mk id pos (.tuple items)) [] item
  | listItem {id pos : Nat} {item : Expr} {items : List Expr} (h : item ∈ items) :
      EvaluatedPart (.mk id pos (.list items)) [] item
  | field {id pos : Nat} {name : NameAt} {value : Expr} {fields : List (NameAt × Expr)} (h : (name, value) ∈ fields) :
      EvaluatedPart (.mk id pos (.record fields)) [] value
  | updated {id pos : Nat} {base name : NameAt} {value : Expr} {fields : List (NameAt × Expr)}
      (h : (name, value) ∈ fields) : EvaluatedPart (.mk id pos (.update base fields)) [] value
  | accessed {id pos : Nat} {target : Expr} {field : NameAt} : EvaluatedPart (.mk id pos (.access target field)) [] target
  | condition {id pos : Nat} {condition value otherwise : Expr} {branches : List (Expr × Expr)}
      (h : (condition, value) ∈ branches) : EvaluatedPart (.mk id pos (.conditional branches otherwise)) [] condition
  | consequence {id pos : Nat} {condition value otherwise : Expr} {branches : List (Expr × Expr)}
      (h : (condition, value) ∈ branches) : EvaluatedPart (.mk id pos (.conditional branches otherwise)) [] value
  | otherwise {id pos : Nat} {branches : List (Expr × Expr)} {otherwise : Expr} :
      EvaluatedPart (.mk id pos (.conditional branches otherwise)) [] otherwise
  | scrutinee {id pos : Nat} {scrutinee : Expr} {branches : List (Pattern × Expr)} :
      EvaluatedPart (.mk id pos (.caseOf scrutinee branches)) [] scrutinee
  | branch {id pos : Nat} {scrutinee value : Expr} {pattern : Pattern} {branches : List (Pattern × Expr)}
      (h : (pattern, value) ∈ branches) :
      EvaluatedPart (.mk id pos (.caseOf scrutinee branches)) (pattern.boundNames.map NameAt.name) value
  | definition {id pos : Nat} {d : Definition Expr} {definitions : List (Definition Expr)} {body : Expr}
      (h : d ∈ definitions) (hparams : d.head.params.isEmpty = true) :
      EvaluatedPart (.mk id pos (.letIn definitions body))
        (definitions.flatMap fun d => d.head.boundNames.map NameAt.name) d.body
  | body {id pos : Nat} {definitions : List (Definition Expr)} {body : Expr} :
      EvaluatedPart (.mk id pos (.letIn definitions body))
        (definitions.flatMap fun d => d.head.boundNames.map NameAt.name) body

/-- A variable or the base of a record update that is evaluated with an expression, with the names that are bound around
it. -/
inductive Evaluates : Expr → List Name → Ref → Prop
  | var {id pos : Nat} {name : Ref} : Evaluates (.mk id pos (.var name)) [] name
  | base {id pos : Nat} {base : NameAt} {fields : List (NameAt × Expr)} :
      Evaluates (.mk id pos (.update base fields)) [] (Ref.plain base.name)
  | part {e e' : Expr} {bound captured : List Name} {name : Ref} :
      EvaluatedPart e bound e' → Evaluates e' captured name → Evaluates e (bound ++ captured) name

theorem EvaluatedPart.sizeOf_lt {e e' : Expr} {bound : List Name} (h : e.EvaluatedPart bound e') : sizeOf e' < sizeOf e := by
  cases h with
  | target | negated | accessed | otherwise | scrutinee | body =>
    simp only [mk.sizeOf_spec, ExprKind.call.sizeOf_spec, ExprKind.negate.sizeOf_spec, ExprKind.access.sizeOf_spec,
      ExprKind.conditional.sizeOf_spec, ExprKind.caseOf.sizeOf_spec, ExprKind.letIn.sizeOf_spec]
    omega
  | arg h | operand h | tupleItem h | listItem h =>
    have := List.sizeOf_lt_of_mem h
    simp only [mk.sizeOf_spec, ExprKind.call.sizeOf_spec, ExprKind.binary.sizeOf_spec, ExprKind.tuple.sizeOf_spec,
      ExprKind.list.sizeOf_spec]
    omega
  | field h | updated h | condition h | consequence h | branch h =>
    have hlt := List.sizeOf_lt_of_mem h
    simp only [Prod.mk.sizeOf_spec] at hlt
    simp only [mk.sizeOf_spec, ExprKind.record.sizeOf_spec, ExprKind.update.sizeOf_spec, ExprKind.conditional.sizeOf_spec,
      ExprKind.caseOf.sizeOf_spec]
    omega
  | @definition _ _ d _ _ h _ =>
    have hlt := List.sizeOf_lt_of_mem h
    obtain ⟨dpos, signature, head, body⟩ := d
    simp only [Definition.mk.sizeOf_spec] at hlt
    simp only [mk.sizeOf_spec, ExprKind.letIn.sizeOf_spec]
    omega

end Expr

namespace Evaluation

section Lists

variable {locals : List Name} {name : Ref}

theorem mem_referencesList {es : List Expr} : name ∈ referencesList locals es ↔ ∃ e ∈ es, name ∈ references locals e := by
  induction es with
  | nil => simp [referencesList]
  | cons e es ih => simp [referencesList, ih]

theorem mem_referencesFields {fields : List (NameAt × Expr)} :
    name ∈ referencesFields locals fields ↔ ∃ field value, (field, value) ∈ fields ∧ name ∈ references locals value := by
  induction fields with
  | nil => simp [referencesFields]
  | cons field rest ih =>
    obtain ⟨field, value⟩ := field
    simp only [referencesFields, List.mem_append, ih, List.mem_cons, Prod.mk.injEq, or_and_right, exists_or]
    simp only [and_assoc, exists_and_left, exists_eq_left]

theorem mem_referencesBranches {branches : List (Expr × Expr)} :
    name ∈ referencesBranches locals branches ↔
      ∃ condition value, (condition, value) ∈ branches ∧ (name ∈ references locals condition ∨ name ∈ references locals value) := by
  induction branches with
  | nil => simp [referencesBranches]
  | cons branch rest ih =>
    obtain ⟨condition, value⟩ := branch
    simp only [referencesBranches, List.mem_append, ih, List.mem_cons, Prod.mk.injEq, or_and_right, exists_or]
    simp only [and_assoc, exists_and_left, exists_eq_left]

theorem mem_referencesCases {branches : List (Pattern × Expr)} :
    name ∈ referencesCases locals branches ↔
      ∃ p value, (p, value) ∈ branches ∧ name ∈ references (locals ++ p.boundNames.map NameAt.name) value := by
  induction branches with
  | nil => simp [referencesCases]
  | cons branch rest ih =>
    obtain ⟨p, value⟩ := branch
    simp only [referencesCases, List.mem_append, ih, List.mem_cons, Prod.mk.injEq, or_and_right, exists_or]
    simp only [and_assoc, exists_and_left, exists_eq_left]

theorem mem_referencesDefinitions {definitions : List (Definition Expr)} :
    name ∈ referencesDefinitions locals definitions ↔
      ∃ d ∈ definitions, d.head.params.isEmpty = true ∧ name ∈ references locals d.body := by
  induction definitions with
  | nil => simp [referencesDefinitions]
  | cons d rest ih =>
    rw [referencesDefinitions, List.mem_append, ih, List.exists_mem_cons_iff]
    refine or_congr_left ?_
    split
    · next h => simp [h]
    · next h => simp [h]

end Lists

section

variable {locals bound : List Name} {name : Ref} {e e' : Expr}

theorem mem_unlessLocal_iff {other : Ref} :
    name ∈ unlessLocal locals other ↔ name = other ∧ (name.qualifier = none → name.name ∉ locals) := by
  refine ⟨eq_of_mem_unlessLocal, ?_⟩
  rintro ⟨rfl, hnot⟩
  rw [unlessLocal, if_neg]
  · exact List.mem_singleton_self _
  · rw [Bool.and_eq_true, Option.isNone_iff_eq_none, List.contains_iff_mem]
    exact fun hlocal => hnot hlocal.1 hlocal.2

/-- The walk comes by every part that is evaluated, with the names that are bound around it. -/
theorem mem_references_of_part (hpart : e.EvaluatedPart bound e') (h : name ∈ references (locals ++ bound) e') :
    name ∈ references locals e := by
  cases hpart with
  | target | negated | accessed | otherwise | scrutinee | body =>
    simp_all [references]
  | arg hmem =>
    rw [List.append_nil] at h
    rw [references, List.mem_append, mem_referencesList]
    exact .inr ⟨_, hmem, h⟩
  | operand hmem | tupleItem hmem | listItem hmem =>
    rw [List.append_nil] at h
    rw [references, mem_referencesList]
    exact ⟨_, hmem, h⟩
  | field hmem =>
    rw [List.append_nil] at h
    rw [references, mem_referencesFields]
    exact ⟨_, _, hmem, h⟩
  | updated hmem =>
    rw [List.append_nil] at h
    rw [references, List.mem_append, mem_referencesFields]
    exact .inr ⟨_, _, hmem, h⟩
  | condition hmem =>
    rw [List.append_nil] at h
    rw [references, List.mem_append, mem_referencesBranches]
    exact .inl ⟨_, _, hmem, .inl h⟩
  | consequence hmem =>
    rw [List.append_nil] at h
    rw [references, List.mem_append, mem_referencesBranches]
    exact .inl ⟨_, _, hmem, .inr h⟩
  | branch hmem =>
    rw [references, List.mem_append, mem_referencesCases]
    exact .inr ⟨_, _, hmem, h⟩
  | definition hmem hparams =>
    rw [references, List.mem_append, mem_referencesDefinitions]
    exact .inl ⟨_, hmem, hparams, h⟩

/-- What the walk finds stands in the expression itself or in a part that is evaluated with it. -/
theorem cases_mem_references (h : name ∈ references locals e) :
    (e.Evaluates [] name ∧ (name.qualifier = none → name.name ∉ locals)) ∨
      ∃ bound e', e.EvaluatedPart bound e' ∧ name ∈ references (locals ++ bound) e' := by
  obtain ⟨id, pos, kind⟩ := e
  have hpart : ∀ {e'}, (Expr.mk id pos kind).EvaluatedPart [] e' → name ∈ references locals e' →
      ∃ bound e', (Expr.mk id pos kind).EvaluatedPart bound e' ∧ name ∈ references (locals ++ bound) e' :=
    fun hpart h => ⟨[], _, hpart, by rwa [List.append_nil]⟩
  cases kind with
  | unit | literal _ | operator _ | accessor _ | lambda _ _ =>
    rw [references] at h
    cases h
  | var other =>
    rw [references, mem_unlessLocal_iff] at h
    obtain ⟨rfl, hnot⟩ := h
    exact .inl ⟨.var, hnot⟩
  | call target args =>
    rw [references, List.mem_append, mem_referencesList] at h
    rcases h with h | ⟨arg, hmem, h⟩
    · exact .inr (hpart .target h)
    · exact .inr (hpart (.arg hmem) h)
  | binary operands operators =>
    rw [references, mem_referencesList] at h
    obtain ⟨operand, hmem, h⟩ := h
    exact .inr (hpart (.operand hmem) h)
  | negate operand =>
    rw [references] at h
    exact .inr (hpart .negated h)
  | tuple items =>
    rw [references, mem_referencesList] at h
    obtain ⟨item, hmem, h⟩ := h
    exact .inr (hpart (.tupleItem hmem) h)
  | list items =>
    rw [references, mem_referencesList] at h
    obtain ⟨item, hmem, h⟩ := h
    exact .inr (hpart (.listItem hmem) h)
  | record fields =>
    rw [references, mem_referencesFields] at h
    obtain ⟨field, value, hmem, h⟩ := h
    exact .inr (hpart (.field hmem) h)
  | update base fields =>
    rw [references, List.mem_append, mem_unlessLocal_iff, mem_referencesFields] at h
    rcases h with ⟨rfl, hnot⟩ | ⟨field, value, hmem, h⟩
    · exact .inl ⟨.base, hnot⟩
    · exact .inr (hpart (.updated hmem) h)
  | access target field =>
    rw [references] at h
    exact .inr (hpart .accessed h)
  | conditional branches otherwise =>
    rw [references, List.mem_append, mem_referencesBranches] at h
    rcases h with ⟨condition, value, hmem, h | h⟩ | h
    · exact .inr (hpart (.condition hmem) h)
    · exact .inr (hpart (.consequence hmem) h)
    · exact .inr (hpart .otherwise h)
  | caseOf scrutinee branches =>
    rw [references, List.mem_append, mem_referencesCases] at h
    rcases h with h | ⟨p, value, hmem, h⟩
    · exact .inr (hpart .scrutinee h)
    · exact .inr ⟨_, _, .branch hmem, h⟩
  | letIn definitions body =>
    rw [references, List.mem_append, mem_referencesDefinitions] at h
    rcases h with ⟨d, hmem, hparams, h⟩ | h
    · exact .inr ⟨_, _, .definition hmem hparams, h⟩
    · exact .inr ⟨_, _, .body, h⟩

/-- The walk finds the references that are evaluated and that no name around them captures. -/
theorem mem_references_iff :
    name ∈ references locals e ↔
      ∃ captured, e.Evaluates captured name ∧ (name.qualifier = none → name.name ∉ locals ++ captured) := by
  constructor
  · intro h
    induction hsize : sizeOf e using Nat.strongRecOn generalizing e locals with
    | _ n ih =>
      rcases cases_mem_references h with ⟨hevaluates, hnot⟩ | ⟨bound, e', hpart, h⟩
      · exact ⟨[], hevaluates, by rwa [List.append_nil]⟩
      · obtain ⟨captured, hevaluates, hnot⟩ := ih (sizeOf e') (hsize ▸ hpart.sizeOf_lt) h rfl
        exact ⟨bound ++ captured, .part hpart hevaluates, by rwa [← List.append_assoc]⟩
  · rintro ⟨captured, hevaluates, hnot⟩
    induction hevaluates generalizing locals with
    | var =>
      rw [references, mem_unlessLocal_iff]
      exact ⟨rfl, by rwa [List.append_nil] at hnot⟩
    | base =>
      rw [references, List.mem_append, mem_unlessLocal_iff]
      exact .inl ⟨rfl, by rwa [List.append_nil] at hnot⟩
    | part hpart _ ih => exact mem_references_of_part hpart (ih (by rwa [List.append_assoc]))

end

end Evaluation

/-- Whether evaluating a value of the module evaluates another one directly: both have no parameters, and a reference in
the first one, which no name around it captures, means the second one and nothing else. -/
def ModuleScope.Evaluates (scope : ModuleScope) (k k' : Nat) : Prop :=
  ∃ d d' captured name, scope.module.valueAt? k = some d ∧ d.head.params.isEmpty = true ∧
    d.body.Evaluates captured name ∧ (name.qualifier = none → name.name ∉ captured) ∧
    scope.findValues name = [.value k' d'] ∧ d'.head.params.isEmpty = true

namespace Evaluation

variable {scope : ModuleScope} {target : Nat}

theorem valueOf?_eq_some {name : Ref} {entry : Nat × ValueDecl} :
    valueOf? scope name = some entry ↔
      scope.findValues name = [.value entry.1 entry.2] ∧ entry.2.head.params.isEmpty = true := by
  unfold valueOf?
  split
  · next index decl hfind =>
    obtain ⟨k, d⟩ := entry
    rw [hfind]
    by_cases hparams : decl.head.params.isEmpty = true
    · simp only [hparams, if_true, Option.some.injEq, Prod.mk.injEq, List.cons.injEq, ValueTarget.value.injEq, and_true]
      exact ⟨fun ⟨hk, hd⟩ => ⟨⟨hk, hd⟩, hd ▸ hparams⟩, And.left⟩
    · simp only [hparams, Option.ite_none_right_eq_some, List.cons.injEq, ValueTarget.value.injEq, and_true]
      exact ⟨fun h => absurd h.1 Bool.false_ne_true, fun ⟨⟨_, hd⟩, h⟩ => absurd (hd ▸ h) hparams⟩
  · next hother => exact ⟨nofun, fun h => absurd h.1 (hother _ _)⟩

theorem mem_successors_iff {d : ValueDecl} {entry : Nat × ValueDecl} :
    entry ∈ successors scope d ↔ ∃ captured name, d.body.Evaluates captured name ∧
      (name.qualifier = none → name.name ∉ captured) ∧ scope.findValues name = [.value entry.1 entry.2] ∧
      entry.2.head.params.isEmpty = true := by
  simp only [successors, referencesOf, List.mem_filterMap, mem_references_iff, valueOf?_eq_some, List.nil_append]
  constructor
  · rintro ⟨name, ⟨captured, hevaluates, hnot⟩, hfind⟩
    exact ⟨captured, name, hevaluates, hnot, hfind⟩
  · rintro ⟨captured, name, hevaluates, hnot, hfind⟩
    exact ⟨name, ⟨captured, hevaluates, hnot⟩, hfind⟩

/-- An edge is a step of the search out of a value without parameters. -/
theorem evaluates_iff {k k' : Nat} :
    scope.Evaluates k k' ↔ ∃ d d', scope.module.valueAt? k = some d ∧ d.head.params.isEmpty = true ∧
      (k', d') ∈ successors scope d := by
  simp only [ModuleScope.Evaluates, mem_successors_iff]
  constructor
  · rintro ⟨d, d', captured, name, hd, hparams, hfound⟩
    exact ⟨d, d', hd, hparams, captured, name, hfound⟩
  · rintro ⟨d, d', hd, hparams, captured, name, hfound⟩
    exact ⟨d, d', captured, name, hd, hparams, hfound⟩

/-! ### The loop -/

/-- A run of the loop: it takes values from the stack until the target comes up or nothing is left. A value without
parameters that was not visited is visited, and what it evaluates is put on the stack. -/
inductive Search (scope : ModuleScope) (target : Nat) : List Nat → List (Nat × ValueDecl) → Bool → Prop
  | exhausted {visited : List Nat} : Search scope target visited [] false
  | found {visited : List Nat} {entry : Nat × ValueDecl} {rest : List (Nat × ValueDecl)} (h : entry.1 = target) :
      Search scope target visited (entry :: rest) true
  | skipped {visited : List Nat} {entry : Nat × ValueDecl} {rest : List (Nat × ValueDecl)} {answer : Bool}
      (hother : entry.1 ≠ target) (h : entry.2.head.params.isEmpty = false ∨ entry.1 ∈ visited) :
      Search scope target visited rest answer → Search scope target visited (entry :: rest) answer
  | expanded {visited : List Nat} {entry : Nat × ValueDecl} {rest : List (Nat × ValueDecl)} {answer : Bool}
      (hother : entry.1 ≠ target) (hparams : entry.2.head.params.isEmpty = true) (hnew : entry.1 ∉ visited) :
      Search scope target (entry.1 :: visited) ((successors scope entry.2).reverse ++ rest) answer →
      Search scope target visited (entry :: rest) answer

theorem Search.unique {visited : List Nat} {stack : List (Nat × ValueDecl)} {answer answer' : Bool}
    (h : Search scope target visited stack answer) (h' : Search scope target visited stack answer') : answer = answer' := by
  induction h with
  | exhausted =>
    cases h'
    rfl
  | found hfound =>
    cases h' with
    | found => rfl
    | skipped hother | expanded hother => exact absurd hfound hother
  | skipped hother hskip _ ih =>
    cases h' with
    | found hfound => exact absurd hfound hother
    | skipped _ _ h' => exact ih h'
    | expanded _ hparams hnew => exact absurd hskip (by simp [hparams, hnew])
  | expanded hother hparams hnew _ ih =>
    cases h' with
    | found hfound => exact absurd hfound hother
    | skipped _ hskip => exact absurd hskip (by simp [hparams, hnew])
    | expanded _ _ _ h' => exact ih h'

/-- What the loop finds is reached from what was on the stack. -/
theorem Search.sound {visited : List Nat} {stack : List (Nat × ValueDecl)} (h : Search scope target visited stack true)
    (hstack : ∀ entry ∈ stack, scope.module.valueAt? entry.1 = some entry.2) :
    ∃ entry ∈ stack, ReflTransGen scope.Evaluates entry.1 target := by
  generalize hanswer : true = answer at h
  induction h with
  | exhausted => cases hanswer
  | found hfound => exact ⟨_, List.mem_cons_self, hfound ▸ .refl⟩
  | skipped _ _ _ ih =>
    obtain ⟨entry, hentry, hpath⟩ := ih (List.forall_mem_cons.mp hstack).2 hanswer
    exact ⟨entry, List.mem_cons_of_mem _ hentry, hpath⟩
  | @expanded _ entry rest _ _ hparams _ _ ih =>
    obtain ⟨hentry, hrest⟩ := List.forall_mem_cons.mp hstack
    have hnext : ∀ next ∈ (successors scope entry.2).reverse, scope.module.valueAt? next.1 = some next.2 :=
      fun next hnext => (onStack_successors scope entry.2 next (List.mem_reverse.mp hnext)).1
    obtain ⟨next, hmem, hpath⟩ := ih (List.forall_mem_append.mpr ⟨hnext, hrest⟩) hanswer
    rcases List.mem_append.mp hmem with hmem | hmem
    · have hedge : scope.Evaluates entry.1 next.1 :=
        evaluates_iff.mpr ⟨entry.2, next.2, hentry, hparams, List.mem_reverse.mp hmem⟩
      exact ⟨entry, List.mem_cons_self, .head hedge hpath⟩
    · exact ⟨next, List.mem_cons_of_mem _ hmem, hpath⟩

/-! ### The bounded search runs the loop -/

/-- Whether the unvisited places are the places of the module that were not visited. -/
def Complements (scope : ModuleScope) (unvisited visited : List Nat) : Prop :=
  ∀ k ∈ scope.module.values.map Prod.fst, k ∈ unvisited ↔ k ∉ visited

theorem Complements.erase {unvisited visited : List Nat} (h : Complements scope unvisited visited)
    (hnodup : unvisited.Nodup) (index : Nat) : Complements scope (unvisited.erase index) (index :: visited) := by
  intro k hk
  rw [hnodup.mem_erase_iff, h k hk, List.mem_cons, not_or]

/-- The search runs the loop if what goes on behind an expansion does. -/
theorem search_searchWith {expand : List Nat → List Ref → List (Nat × ValueDecl) → Bool × List Ref}
    {unvisited visited : List Nat} {lookups : List Ref} {stack : List (Nat × ValueDecl)}
    (hcomplements : Complements scope unvisited visited)
    (hstack : ∀ entry ∈ stack, scope.module.valueAt? entry.1 = some entry.2)
    (hexpand : ∀ index ∈ unvisited, ∀ lookups stack, (∀ entry ∈ stack, scope.module.valueAt? entry.1 = some entry.2) →
      Search scope target (index :: visited) stack (expand (unvisited.erase index) lookups stack).1) :
    Search scope target visited stack (searchWith scope target expand unvisited lookups stack).1 := by
  induction stack with
  | nil => exact .exhausted
  | cons entry rest ih =>
    obtain ⟨index, decl⟩ := entry
    obtain ⟨hdecl, hrest⟩ := List.forall_mem_cons.mp hstack
    have hplace : index ∈ scope.module.values.map Prod.fst := List.mem_map_of_mem (Module.mem_values hdecl)
    rw [searchWith]
    split
    · next htarget => exact .found htarget
    next hother =>
    split
    · next hnew =>
      rw [Bool.and_eq_true, List.contains_iff_mem] at hnew
      obtain ⟨hparams, hmem⟩ := hnew
      refine .expanded hother hparams ((hcomplements index hplace).mp hmem) (hexpand index hmem _ _ ?_)
      refine List.forall_mem_append.mpr ⟨fun next hnext => ?_, hrest⟩
      exact (onStack_successors scope decl next (List.mem_reverse.mp hnext)).1
    · next hold =>
      refine .skipped hother ?_ (ih hrest)
      rw [Bool.and_eq_true, List.contains_iff_mem, not_and_or, Bool.not_eq_true] at hold
      exact hold.imp_right fun hmem => not_not.mp (mt (hcomplements index hplace).mpr hmem)

theorem search_searchAt {n : Nat} {unvisited visited : List Nat} {lookups : List Ref} {stack : List (Nat × ValueDecl)}
    (hlength : unvisited.length ≤ n) (hnodup : unvisited.Nodup) (hcomplements : Complements scope unvisited visited)
    (hstack : ∀ entry ∈ stack, scope.module.valueAt? entry.1 = some entry.2) :
    Search scope target visited stack (searchAt scope target n unvisited lookups stack).1 := by
  induction n generalizing unvisited visited lookups stack with
  | zero =>
    rw [List.length_eq_zero_iff.mp (Nat.le_zero.mp hlength)] at hcomplements ⊢
    exact search_searchWith hcomplements hstack nofun
  | succ n ih =>
    refine search_searchWith hcomplements hstack fun index hmem lookups stack hstack => ?_
    refine ih ?_ (hnodup.erase index) (hcomplements.erase hnodup index) hstack
    rw [List.length_erase_of_mem hmem]
    omega

/-- The loop ends with the answer of the search, whatever the bound is. -/
theorem search_reaches {i : Nat} {d : ValueDecl} (hstart : scope.module.valueAt? i = some d) (target : Nat) :
    Search scope target [] [(i, d)] (reaches scope (i, d) target).1 := by
  refine search_searchAt (Nat.le_refl _) (nodup_places _) (fun k hk => ?_) fun entry hentry => ?_
  · exact ⟨fun _ => List.not_mem_nil, fun _ => hk⟩
  · rw [List.mem_singleton.mp hentry]
    exact hstart

theorem target_mem {i : Nat} {d : ValueDecl} (hstart : scope.module.valueAt? i = some d)
    (hpath : ReflTransGen scope.Evaluates i target) : (scope.module.valueAt? target).isSome := by
  rcases hpath.cases_tail with rfl | ⟨k, -, hedge⟩
  · rw [hstart]
    rfl
  · obtain ⟨dk, d', -, -, hmem⟩ := evaluates_iff.mp hedge
    rw [(onStack_successors scope dk _ hmem).1]
    rfl

/-- The search finds every value that a path leads to. -/
theorem reaches_of_path {i : Nat} {d : ValueDecl} (hstart : scope.module.valueAt? i = some d)
    (hpath : ReflTransGen scope.Evaluates i target) : (reaches scope (i, d) target).1 = true := by
  rcases hpath.cases_head with rfl | ⟨k, hedge, -⟩
  · exact (search_reaches hstart i).unique (.found rfl)
  · obtain ⟨d₀, _, hd₀, hparams, -⟩ := evaluates_iff.mp hedge
    obtain rfl := Option.some.inj (hd₀.symm.trans hstart)
    have hnext : ∀ k k', scope.Evaluates k k' → Next scope k k' := by
      intro k k' h
      obtain ⟨dk, d', hdk, -, hmem⟩ := evaluates_iff.mp h
      exact ⟨dk, d', hdk, hmem⟩
    exact reaches_of_transGen hstart hparams (target_mem hstart hpath) (ReflTransGen.mono hnext _ _ hpath)

/-- From every value of the module the loop ends, with one answer, and it finds the target exactly if a path of evaluated
references leads there. -/
theorem reaches_decides_reachability {i : Nat} {d : ValueDecl} (hstart : scope.module.valueAt? i = some d) (target : Nat) :
    (∀ answer, Search scope target [] [(i, d)] answer ↔ answer = (reaches scope (i, d) target).1) ∧
      ((reaches scope (i, d) target).1 = true ↔ ReflTransGen scope.Evaluates i target) := by
  have hrun := search_reaches hstart target
  refine ⟨fun answer => ⟨fun h => h.unique hrun, fun h => h ▸ hrun⟩, fun htrue => ?_, reaches_of_path hstart⟩
  obtain ⟨entry, hentry, hpath⟩ := Search.sound (htrue ▸ hrun) fun entry hentry => List.mem_singleton.mp hentry ▸ hstart
  rwa [List.mem_singleton.mp hentry] at hpath

/-- In `a = case b of a -> a`, `b = c a` and `c x = b`, a path leads from `b` to `a` and none to the function `c`. -/
theorem reaches_around_function :
    let a : ValueDecl := ⟨0, none, .function ⟨1, "a"⟩ [],
      .mk 0 2 (.caseOf (.mk 1 3 (.var (.plain "b"))) [(.mk 2 4 (.var "a"), .mk 3 5 (.var (.plain "a")))])⟩
    let b : ValueDecl := ⟨6, none, .function ⟨7, "b"⟩ [],
      .mk 4 8 (.call (.mk 5 9 (.var (.plain "c"))) [.mk 6 10 (.var (.plain "a"))])⟩
    let c : ValueDecl := ⟨11, none, .function ⟨12, "c"⟩ [.mk 7 13 (.var "x")], .mk 8 14 (.var (.plain "b"))⟩
    let scope : ModuleScope := { module := ⟨"Main", [.value a, .value b, .value c]⟩ }
    scope.module.valueAt? 1 = some b ∧ ReflTransGen scope.Evaluates 1 0 ∧ ¬ ReflTransGen scope.Evaluates 1 2 := by
  intro a b c scope
  have hstart : scope.module.valueAt? 1 = some b := rfl
  obtain ⟨-, ha⟩ := reaches_decides_reachability hstart 0
  obtain ⟨-, hc⟩ := reaches_decides_reachability hstart 2
  exact ⟨hstart, ha.mp (by decide +kernel), mt hc.mpr (by decide +kernel)⟩

end Evaluation

end ElmInference
