import ElmInference.Assoc

/-!
# Syntax trees

The trees a parser hands over. Every node knows its source position, and expressions and patterns
have an id under which their type is recorded. Literals keep only their kind: no rule of inference
looks at a value. Operator chains are stored flat, because associating them needs the operators'
precedences.
-/

namespace ElmInference

/-- Identity of an expression or pattern within a module. -/
abbrev NodeId := Nat

/-- A name together with the place where it stands. -/
structure NameAt where
  pos : Nat
  name : Name
deriving DecidableEq, Inhabited

/-- A possibly qualified name, such as `Maybe.Just` or `x`. -/
structure Ref where
  qualifier : Option Name
  name : Name
deriving DecidableEq, Inhabited

namespace Ref

/-- A name without a module. -/
def plain (name : Name) : Ref := ⟨none, name⟩

/-- Splits at the last dot of reversed text into the reversed parts after and before it. -/
def splitLastDot : List Char → Option (List Char × List Char)
  | [] => none
  | c :: rest =>
    if c = '.' then some ([], rest)
    else (splitLastDot rest).map (fun parts => (c :: parts.1, parts.2))

/-- Reads a dotted name: what stands before the last dot is the module. A name with nothing before
or after that dot is left whole. -/
def ofDotted (text : Name) : Ref :=
  match splitLastDot text.toList.reverse with
  | some (name, qualifier) =>
    if name.isEmpty || qualifier.isEmpty then plain text
    else ⟨some (String.ofList qualifier.reverse), String.ofList name.reverse⟩
  | none => plain text

end Ref

inductive Literal where
  | int
  | float
  | char
  | string
deriving DecidableEq, Inhabited

/-- How operators of equal precedence group. -/
inductive Associativity where
  | left
  | right
  | non
deriving DecidableEq, Inhabited

structure FieldDecl (τ : Type) where
  pos : Nat
  name : Name
  type : τ
deriving Inhabited

inductive TypeExprKind (τ : Type) where
  | var (name : Name)
  | ref (name : Ref) (args : List τ)
  | unit
  | tuple (items : List τ)
  | record (base : Option Name) (fields : List (FieldDecl τ))
  /-- Written `a -> b -> c`. -/
  | function (segments : List τ)
deriving Inhabited

/-- A type as written in the source. -/
inductive TypeExpr where
  | mk (pos : Nat) (kind : TypeExprKind TypeExpr)
deriving Inhabited

namespace TypeExpr

def pos : TypeExpr → Nat
  | .mk pos _ => pos

def kind : TypeExpr → TypeExprKind TypeExpr
  | .mk _ kind => kind

def movedTo (t : TypeExpr) (pos : Nat) : TypeExpr := .mk pos t.kind

def isClosedRecord : TypeExpr → Bool
  | .mk _ (.record none _) => true
  | _ => false

end TypeExpr

inductive PatternKind (π : Type) where
  | any
  | var (name : Name)
  | unit
  | literal (kind : Literal)
  | tuple (items : List π)
  | list (items : List π)
  /-- Written `a :: b :: rest`. -/
  | cons (parts : List π)
  | record (fields : List NameAt)
  | constructor (name : Ref) (args : List π)
  /-- Written `pattern as name`. -/
  | named (pattern : π) (name : NameAt)
deriving Inhabited

inductive Pattern where
  | mk (id : NodeId) (pos : Nat) (kind : PatternKind Pattern)
deriving Inhabited

namespace Pattern

def id : Pattern → NodeId
  | .mk id _ _ => id

def pos : Pattern → Nat
  | .mk _ pos _ => pos

def kind : Pattern → PatternKind Pattern
  | .mk _ _ kind => kind

def movedTo (p : Pattern) (pos : Nat) : Pattern := .mk p.id pos p.kind

def relabel (p : Pattern) (id : NodeId) : Pattern := .mk id p.pos p.kind

mutual

/-- Every name a pattern binds, in source order. -/
def boundNames : Pattern → List NameAt
  | .mk _ _ .any => []
  | .mk _ _ .unit => []
  | .mk _ _ (.literal _) => []
  | .mk _ pos (.var name) => [⟨pos, name⟩]
  | .mk _ _ (.tuple items) => boundNamesList items
  | .mk _ _ (.list items) => boundNamesList items
  | .mk _ _ (.cons parts) => boundNamesList parts
  | .mk _ _ (.record fields) => fields
  | .mk _ _ (.constructor _ args) => boundNamesList args
  | .mk _ _ (.named pattern name) => boundNames pattern ++ [name]

def boundNamesList : List Pattern → List NameAt
  | [] => []
  | p :: ps => boundNames p ++ boundNamesList ps

end

theorem boundNamesList_eq_flatMap (ps : List Pattern) :
    boundNamesList ps = ps.flatMap boundNames := by
  induction ps with
  | nil => rfl
  | cons p ps ih => simp [boundNamesList, ih]

end Pattern

/-- What a value declaration defines: a name with parameters, or every name of a pattern. -/
inductive Head where
  | function (name : NameAt) (params : List Pattern)
  | pattern (pattern : Pattern)
deriving Inhabited

namespace Head

/-- The names a declaration binds: its own, or those of its pattern. -/
def boundNames : Head → List NameAt
  | .function name _ => [name]
  | .pattern p => p.boundNames

/-- The parameters; a pattern has none. -/
def params : Head → List Pattern
  | .function _ params => params
  | .pattern _ => []

def name? : Head → Option Name
  | .function name _ => some name.name
  | .pattern _ => none

/-- The name under which results are kept: the function's own, or the bound names in parentheses,
like `(x,y)`. -/
def label : Head → Name
  | .function name _ => name.name
  | .pattern p => "(" ++ String.intercalate "," (p.boundNames.map NameAt.name) ++ ")"

end Head

/-- A function, value or pattern declaration, at the top level or in a `let`. -/
structure Definition (ε : Type) where
  pos : Nat
  /-- The written type, if there is one. -/
  signature : Option TypeExpr
  head : Head
  body : ε
deriving Inhabited

inductive ExprKind (ε : Type) where
  | unit
  | literal (kind : Literal)
  | var (name : Ref)
  /-- An operator used as a function, `(+)`. -/
  | operator (name : Name)
  | call (target : ε) (args : List ε)
  /-- A chain of operators between one more operand. -/
  | binary (operands : List ε) (operators : List NameAt)
  | negate (operand : ε)
  | tuple (items : List ε)
  | list (items : List ε)
  | record (fields : List (NameAt × ε))
  /-- Written `{ base | field = value }`. -/
  | update (base : NameAt) (fields : List (NameAt × ε))
  | access (target : ε) (field : NameAt)
  /-- Written `.field`: the function that takes a field. -/
  | accessor (field : Name)
  | conditional (branches : List (ε × ε)) (otherwise : ε)
  | caseOf (scrutinee : ε) (branches : List (Pattern × ε))
  | lambda (params : List Pattern) (body : ε)
  | letIn (definitions : List (Definition ε)) (body : ε)
deriving Inhabited

inductive Expr where
  | mk (id : NodeId) (pos : Nat) (kind : ExprKind Expr)
deriving Inhabited

namespace Expr

def id : Expr → NodeId
  | .mk id _ _ => id

def pos : Expr → Nat
  | .mk _ pos _ => pos

def kind : Expr → ExprKind Expr
  | .mk _ _ kind => kind

def movedTo (e : Expr) (pos : Nat) : Expr := .mk e.id pos e.kind

def relabel (e : Expr) (id : NodeId) : Expr := .mk id e.pos e.kind

mutual

/-- How many `let` definitions an expression holds, at any depth. -/
def letCount : Expr → Nat
  | .mk _ _ .unit => 0
  | .mk _ _ (.literal _) => 0
  | .mk _ _ (.var _) => 0
  | .mk _ _ (.operator _) => 0
  | .mk _ _ (.accessor _) => 0
  | .mk _ _ (.call target args) => letCount target + letCountList args
  | .mk _ _ (.binary operands _) => letCountList operands
  | .mk _ _ (.negate operand) => letCount operand
  | .mk _ _ (.tuple items) => letCountList items
  | .mk _ _ (.list items) => letCountList items
  | .mk _ _ (.record fields) => letCountFields fields
  | .mk _ _ (.update _ fields) => letCountFields fields
  | .mk _ _ (.access target _) => letCount target
  | .mk _ _ (.conditional branches otherwise) => letCountBranches branches + letCount otherwise
  | .mk _ _ (.caseOf scrutinee branches) => letCount scrutinee + letCountCases branches
  | .mk _ _ (.lambda _ body) => letCount body
  | .mk _ _ (.letIn definitions body) => letCountDefinitions definitions + letCount body

def letCountList : List Expr → Nat
  | [] => 0
  | e :: es => letCount e + letCountList es

def letCountFields : List (NameAt × Expr) → Nat
  | [] => 0
  | (_, e) :: rest => letCount e + letCountFields rest

def letCountBranches : List (Expr × Expr) → Nat
  | [] => 0
  | (c, e) :: rest => letCount c + letCount e + letCountBranches rest

def letCountCases : List (Pattern × Expr) → Nat
  | [] => 0
  | (_, e) :: rest => letCount e + letCountCases rest

def letCountDefinitions : List (Definition Expr) → Nat
  | [] => 0
  | d :: rest => 1 + letCount d.body + letCountDefinitions rest

end

end Expr

abbrev ValueDecl := Definition Expr

structure Variant where
  pos : Nat
  name : Name
  args : List TypeExpr
deriving Inhabited

structure UnionDecl where
  pos : Nat
  name : Name
  params : List Name
  variants : List Variant
deriving Inhabited

/-- A name for a type expression. -/
structure AliasDecl where
  pos : Nat
  name : Name
  params : List Name
  body : TypeExpr
deriving Inhabited

/-- The fixity of an operator and the function behind it. -/
structure FixityDecl where
  pos : Nat
  operator : Name
  associativity : Associativity
  precedence : Nat
  function : Ref
deriving Inhabited

/-- A value that the host provides, declared by its type. -/
structure HostDecl where
  pos : Nat
  name : Name
  type : TypeExpr
deriving Inhabited

inductive Declaration where
  | value (decl : ValueDecl)
  | unionType (decl : UnionDecl)
  | typeAlias (decl : AliasDecl)
  | fixity (decl : FixityDecl)
  | hostValue (decl : HostDecl)
deriving Inhabited

namespace Declaration

def value? : Declaration → Option ValueDecl
  | .value decl => some decl
  | _ => none

def typeAlias? : Declaration → Option AliasDecl
  | .typeAlias decl => some decl
  | _ => none

end Declaration

structure Module where
  name : Name
  declarations : List Declaration
deriving Inhabited

namespace Module

/-- The value declarations of a module with their places among all declarations. -/
def values (m : Module) : List (Nat × ValueDecl) :=
  m.declarations.zipIdx.filterMap (fun entry => entry.1.value?.map (fun decl => (entry.2, decl)))

/-- The first function or value of a name, with its place. -/
def value? (m : Module) (name : Name) : Option (Nat × ValueDecl) :=
  m.values.find? (fun entry => entry.2.head.name? == some name)

/-- The declaration at a place, when it is a value declaration. -/
def valueAt? (m : Module) (index : Nat) : Option ValueDecl :=
  m.declarations[index]?.bind Declaration.value?

/-- How many value declarations a module holds, those inside `let` included. -/
def definitionCount (m : Module) : Nat :=
  m.values.foldl (fun count entry => count + 1 + entry.2.body.letCount) 0

def aliasCount (m : Module) : Nat :=
  (m.declarations.filterMap Declaration.typeAlias?).length

end Module

end ElmInference
