import ElmInference.Infer.Expr
import ElmInference.Proofs.Unify.AliasLoops
import ElmInference.Proofs.Unify.Plain

/-!
# The types that a definition has

`HasType` is a system of typing rules that knows nothing of inference. It gives closed types to the expressions that
are made of literals, parameters, values from elsewhere, calls, negation, tuples, lists, conditionals and lambdas. A
value from elsewhere has, at each use, any instance of its type that gives the variables types of their classes, an
integer has any number type, and functions of several parameters are curried.

`Expr.Core` says which expressions these rules are about: each name is a parameter in scope or has one meaning
elsewhere, and lambdas bind distinct names.
-/

namespace ElmInference

/-! ### Instances -/

/-- Whether a closed type comes of a type by giving each variable a plain type of the variable's class. -/
def Ty.Instance (t : Ty) (x : Reading Rigid) : Prop :=
  ∃ η : Env Rigid, t.read η = x ∧
    ∀ v ∈ t.vars, (η (.var v.id)).Plain ∧ ∀ c, v.typeclass = some c → c.Contains (η (.var v.id))

/-- A type that a value from elsewhere can be given: without records and unknown parts, and with aliases that show
in the type what they hold. -/
structure Ty.Importable (t : Ty) : Prop where
  regular : t.Regular
  overt : t.Overt

/-- The closed types that a literal has. -/
def Literal.Admits : Literal → Reading Rigid → Prop
  | .int, x => x.Plain ∧ Typeclass.number.Contains x
  | .float, x => x = .union "Basics" "Float" []
  | .char, x => x = .union "Char" "Char" []
  | .string, x => x = .union "String" "String" []

/-! ### Parameters -/

namespace Pattern

/-- Whether a pattern is a variable or matches anything without a name. -/
def IsSimple : Pattern → Prop
  | .mk _ _ .any => True
  | .mk _ _ (.var _) => True
  | _ => False

/-- The name of a variable pattern with what is given to the pattern. -/
def given {α : Type} (a : α) : Pattern → Assoc Name α
  | .mk _ _ (.var name) => [(name, a)]
  | _ => []

def givenAll {α : Type} : List Pattern → List α → Assoc Name α
  | p :: ps, a :: as => p.given a ++ givenAll ps as
  | _, _ => []

theorem map_given {α β : Type} (f : α → β) (p : Pattern) (a : α) :
    (p.given a).map (fun entry => (entry.1, f entry.2)) = p.given (f a) := by
  unfold given
  split <;> rfl

theorem map_givenAll {α β : Type} (f : α → β) (ps : List Pattern) (as : List α) :
    (givenAll ps as).map (fun entry => (entry.1, f entry.2)) = givenAll ps (as.map f) := by
  induction ps generalizing as with
  | nil => rfl
  | cons p ps ih =>
    cases as with
    | nil => rfl
    | cons a as => rw [givenAll, List.map_append, map_given, ih, List.map_cons, givenAll]

theorem mem_of_mem_given {α : Type} {a : α} {p : Pattern} {entry : Name × α} (h : entry ∈ p.given a) :
    entry.2 = a := by
  unfold given at h
  split at h
  · rw [List.mem_singleton.mp h]
  · cases h

theorem mem_of_mem_givenAll {α : Type} {ps : List Pattern} {as : List α} {entry : Name × α}
    (h : entry ∈ givenAll ps as) : entry.2 ∈ as := by
  induction ps generalizing as with
  | nil => cases h
  | cons p ps ih =>
    cases as with
    | nil => cases h
    | cons a as =>
      rcases List.mem_append.mp h with h | h
      · rw [mem_of_mem_given h]
        exact List.mem_cons_self
      · exact List.mem_cons_of_mem _ (ih h)

end Pattern

/-! ### The rules -/

/-- Whether an expression has a closed type when the parameters in scope have the given ones. -/
inductive HasType (scope : ModuleScope) : Assoc Name (Reading Rigid) → Expr → Reading Rigid → Prop
  | unit {Γ : Assoc Name (Reading Rigid)} {id : NodeId} {pos : Nat} : HasType scope Γ (.mk id pos .unit) .unit
  | literal {Γ : Assoc Name (Reading Rigid)} {id : NodeId} {pos : Nat} {kind : Literal} {x : Reading Rigid} :
      kind.Admits x → HasType scope Γ (.mk id pos (.literal kind)) x
  | param {Γ : Assoc Name (Reading Rigid)} {id : NodeId} {pos : Nat} {name : Name} {x : Reading Rigid} :
      Assoc.get? Γ name = some x → HasType scope Γ (.mk id pos (.var ⟨none, name⟩)) x
  | external {Γ : Assoc Name (Reading Rigid)} {id : NodeId} {pos : Nat} {name : Ref} {t : Ty} {x : Reading Rigid} :
      (name.qualifier = none → Assoc.get? Γ name.name = none) → scope.findValues name = [.external t] →
      t.Instance x → HasType scope Γ (.mk id pos (.var name)) x
  | call {Γ : Assoc Name (Reading Rigid)} {id : NodeId} {pos : Nat} {target : Expr} {args : List Expr}
      {xs : List (Reading Rigid)} {x : Reading Rigid} : HasType scope Γ target (.arrows xs x) →
      args.length = xs.length → (∀ p ∈ args.zip xs, HasType scope Γ p.1 p.2) →
      HasType scope Γ (.mk id pos (.call target args)) x
  | negate {Γ : Assoc Name (Reading Rigid)} {id : NodeId} {pos : Nat} {operand : Expr} {x : Reading Rigid} :
      HasType scope Γ operand x → Typeclass.number.Contains x → HasType scope Γ (.mk id pos (.negate operand)) x
  | tuple {Γ : Assoc Name (Reading Rigid)} {id : NodeId} {pos : Nat} {items : List Expr}
      {xs : List (Reading Rigid)} : items.length = xs.length → (∀ p ∈ items.zip xs, HasType scope Γ p.1 p.2) →
      HasType scope Γ (.mk id pos (.tuple items)) (.tuple xs)
  | list {Γ : Assoc Name (Reading Rigid)} {id : NodeId} {pos : Nat} {items : List Expr} {x : Reading Rigid} :
      x.Plain → (∀ item ∈ items, HasType scope Γ item x) →
      HasType scope Γ (.mk id pos (.list items)) (.union "List" "List" [x])
  | conditional {Γ : Assoc Name (Reading Rigid)} {id : NodeId} {pos : Nat} {branches : List (Expr × Expr)}
      {otherwise : Expr} {x : Reading Rigid} :
      (∀ branch ∈ branches, HasType scope Γ branch.1 (.union "Basics" "Bool" [])) →
      (∀ branch ∈ branches, HasType scope Γ branch.2 x) → HasType scope Γ otherwise x →
      HasType scope Γ (.mk id pos (.conditional branches otherwise)) x
  | lambda {Γ : Assoc Name (Reading Rigid)} {id : NodeId} {pos : Nat} {params : List Pattern} {body : Expr}
      {xs : List (Reading Rigid)} {x : Reading Rigid} : params.length = xs.length → (∀ y ∈ xs, y.Plain) →
      HasType scope (Pattern.givenAll params xs ++ Γ) body x →
      HasType scope Γ (.mk id pos (.lambda params body)) (.arrows xs x)

def HaveTypes (scope : ModuleScope) (Γ : Assoc Name (Reading Rigid)) (es : List Expr) (xs : List (Reading Rigid)) :
    Prop :=
  es.length = xs.length ∧ ∀ p ∈ es.zip xs, HasType scope Γ p.1 p.2

theorem haveTypes_cons {scope : ModuleScope} {Γ : Assoc Name (Reading Rigid)} {e : Expr} {es : List Expr}
    {x : Reading Rigid} {xs : List (Reading Rigid)} :
    HaveTypes scope Γ (e :: es) (x :: xs) ↔ HasType scope Γ e x ∧ HaveTypes scope Γ es xs := by
  unfold HaveTypes
  rw [List.zip_cons_cons, List.forall_mem_cons, List.length_cons, List.length_cons, Nat.add_right_cancel_iff]
  exact and_left_comm

def Definition.HasType (scope : ModuleScope) (d : ValueDecl) (x : Reading Rigid) : Prop :=
  ∃ xs y, d.head.params.length = xs.length ∧ (∀ z ∈ xs, z.Plain) ∧
    ElmInference.HasType scope (Pattern.givenAll d.head.params xs) d.body y ∧ x = .arrows xs y

/-! ### What the rules are about -/

def Pattern.names (ps : List Pattern) : List Name :=
  (boundNamesList ps).map NameAt.name

/-- The expressions that the typing rules are about. `locals` are the names of the parameters in scope. -/
inductive Expr.Core (scope : ModuleScope) : List Name → Expr → Prop
  | unit {locals : List Name} {id : NodeId} {pos : Nat} : Core scope locals (.mk id pos .unit)
  | literal {locals : List Name} {id : NodeId} {pos : Nat} (kind : Literal) :
      Core scope locals (.mk id pos (.literal kind))
  | param {locals : List Name} {id : NodeId} {pos : Nat} {name : Name} : name ∈ locals →
      Core scope locals (.mk id pos (.var ⟨none, name⟩))
  | external {locals : List Name} {id : NodeId} {pos : Nat} {name : Ref} {t : Ty} :
      (name.qualifier = none → name.name ∉ locals) → scope.findValues name = [.external t] → t.Importable →
      Core scope locals (.mk id pos (.var name))
  | call {locals : List Name} {id : NodeId} {pos : Nat} {target : Expr} {args : List Expr} :
      Core scope locals target → (∀ arg ∈ args, Core scope locals arg) →
      Core scope locals (.mk id pos (.call target args))
  | negate {locals : List Name} {id : NodeId} {pos : Nat} {operand : Expr} : Core scope locals operand →
      Core scope locals (.mk id pos (.negate operand))
  | tuple {locals : List Name} {id : NodeId} {pos : Nat} {items : List Expr} :
      (∀ item ∈ items, Core scope locals item) → Core scope locals (.mk id pos (.tuple items))
  | list {locals : List Name} {id : NodeId} {pos : Nat} {items : List Expr} :
      (∀ item ∈ items, Core scope locals item) → Core scope locals (.mk id pos (.list items))
  | conditional {locals : List Name} {id : NodeId} {pos : Nat} {branches : List (Expr × Expr)} {otherwise : Expr} :
      (∀ branch ∈ branches, Core scope locals branch.1) → (∀ branch ∈ branches, Core scope locals branch.2) →
      Core scope locals otherwise → Core scope locals (.mk id pos (.conditional branches otherwise))
  | lambda {locals : List Name} {id : NodeId} {pos : Nat} {params : List Pattern} {body : Expr} :
      (∀ p ∈ params, p.IsSimple) → (Pattern.names params).Nodup → Core scope (Pattern.names params ++ locals) body →
      Core scope locals (.mk id pos (.lambda params body))

/-- The definitions that the typing rules are about: functions and values without signature. -/
structure Definition.Core (scope : ModuleScope) (d : ValueDecl) (name : NameAt) (params : List Pattern) : Prop where
  head : d.head = .function name params
  signature : d.signature = none
  simple : ∀ p ∈ params, p.IsSimple
  nodup : (Pattern.names params).Nodup
  own : name.name ∉ Pattern.names params
  body : d.body.Core scope (Pattern.names params)

end ElmInference
