import ElmInference.Ast.Basic

/-!
# Numbered trees

Trees put together without a parser. Each node is made after its children and takes the next id and
the next position, so that problems found in a built tree sort in the order in which it was built.
Names that carry a position of their own take it right before the node they belong to.
-/

namespace ElmInference

/-- The next free id and position. -/
structure Numbering where
  nextId : NodeId := 0
  nextPos : Nat := 0
deriving Inhabited

/-- Construction of trees that hands out ids and positions. -/
abbrev Build := StateM Numbering

namespace Build

def pos : Build Nat :=
  fun n => (n.nextPos, { n with nextPos := n.nextPos + 1 })

def id : Build NodeId :=
  fun n => (n.nextId, { n with nextId := n.nextId + 1 })

def nameAt (name : Name) : Build NameAt := do
  return ⟨← pos, name⟩

def expr (kind : ExprKind Expr) : Build Expr := do
  let i ← id
  return .mk i (← pos) kind

def pattern (kind : PatternKind Pattern) : Build Pattern := do
  let i ← id
  return .mk i (← pos) kind

def typeExpr (kind : TypeExprKind TypeExpr) : Build TypeExpr := do
  return .mk (← pos) kind

/-! ### Expressions -/

def var (name : Name) : Build Expr :=
  expr (.var (Ref.ofDotted name))

/-- A chain `first op₁ e₁ op₂ e₂ …`. -/
def binary (first : Expr) (rest : List (Name × Expr)) : Build Expr := do
  let operators ← rest.mapM (fun step => nameAt step.1)
  expr (.binary (first :: rest.map Prod.snd) operators)

/-- Fields of a record expression, with a position for each name. -/
def assignments (fields : List (Name × Expr)) : Build (List (NameAt × Expr)) :=
  fields.mapM (fun field => do return (← nameAt field.1, field.2))

def record (fields : List (Name × Expr)) : Build Expr := do
  expr (.record (← assignments fields))

def update (base : Name) (fields : List (Name × Expr)) : Build Expr := do
  let base ← nameAt base
  expr (.update base (← assignments fields))

def access (target : Expr) (field : Name) : Build Expr := do
  expr (.access target (← nameAt field))

/-! ### Patterns -/

def recordPattern (fields : List Name) : Build Pattern := do
  pattern (.record (← fields.mapM nameAt))

def constructorPattern (name : Name) (args : List Pattern) : Build Pattern :=
  pattern (.constructor (Ref.ofDotted name) args)

def namedPattern (inner : Pattern) (name : Name) : Build Pattern := do
  pattern (.named inner (← nameAt name))

/-! ### Type expressions -/

def typeRef (name : Name) (args : List TypeExpr) : Build TypeExpr :=
  typeExpr (.ref (Ref.ofDotted name) args)

def typeRecord (base : Option Name) (fields : List (Name × TypeExpr)) : Build TypeExpr := do
  let fields ← fields.mapM (fun (name, ty) => do return (⟨← pos, name, ty⟩ : FieldDecl TypeExpr))
  typeExpr (.record base fields)

/-! ### Declarations -/

def function (name : Name) (signature : Option TypeExpr) (params : List Pattern) (body : Expr) :
    Build ValueDecl := do
  let p ← pos
  return ⟨p, signature, .function (← nameAt name) params, body⟩

def destructuring (signature : Option TypeExpr) (p : Pattern) (body : Expr) : Build ValueDecl := do
  return ⟨← pos, signature, .pattern p, body⟩

def unionType (name : Name) (params : List Name) (variants : List (Name × List TypeExpr)) :
    Build UnionDecl := do
  let p ← pos
  return ⟨p, name, params, ← variants.mapM (fun v => do return ⟨← pos, v.1, v.2⟩)⟩

def typeAlias (name : Name) (params : List Name) (body : TypeExpr) : Build AliasDecl := do
  return ⟨← pos, name, params, body⟩

def fixity (operator : Name) (associativity : Associativity) (precedence : Nat) (function : Name) :
    Build FixityDecl := do
  return ⟨← pos, operator, associativity, precedence, Ref.ofDotted function⟩

def hostValue (name : Name) (type : TypeExpr) : Build HostDecl := do
  return ⟨← pos, name, type⟩

end Build

end ElmInference
