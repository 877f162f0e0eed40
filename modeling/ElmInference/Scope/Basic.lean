import ElmInference.Ast.Basic
import ElmInference.OperatorChain
import ElmInference.Ty.Basic

/-!
# What names refer to

A `ModuleScope` answers what a name means in one module: the module's own declarations first, and
values and types known from elsewhere when it has none of that name. A name with no candidate is
unresolved and one with several is ambiguous; inference treats both alike.
-/

namespace ElmInference

/-- What a value name can refer to. -/
inductive ValueTarget where
  /-- A value declaration of the module, with its place among the declarations. -/
  | value (index : Nat) (decl : ValueDecl)
  /-- A constructor of a union type. -/
  | variant (moduleName : Name) (decl : UnionDecl) (index : Nat)
  /-- A record alias, used as the function that builds the record. -/
  | recordConstructor (moduleName : Name) (decl : AliasDecl)
  /-- A value that the host provides. -/
  | hostValue (decl : HostDecl)
  /-- A value from elsewhere, with every variable of its type quantified. -/
  | external (type : Ty)
deriving Inhabited

/-- What a type name can refer to. -/
inductive TypeTarget where
  | unionType (moduleName : Name) (decl : UnionDecl)
  | typeAlias (moduleName : Name) (decl : AliasDecl)
  /-- A union type from elsewhere. -/
  | external (moduleName name : Name) (arity : Nat)
deriving Inhabited

/-- What an operator stands for. -/
structure OperatorTarget where
  precedence : Precedence
  function : ValueTarget
deriving Inhabited

structure ExternalValue where
  moduleName : Name
  name : Name
  type : Ty
deriving Inhabited

structure ExternalType where
  moduleName : Name
  name : Name
  arity : Nat
deriving Inhabited

structure ExternalOperator where
  name : Name
  precedence : Precedence
  type : Ty
deriving Inhabited

/-- A module and what it sees from elsewhere. -/
structure ModuleScope where
  module : Module
  values : List ExternalValue := []
  types : List ExternalType := []
  operators : List ExternalOperator := []
deriving Inhabited

/-- The only candidate of a list. -/
def unique? {α : Type} : List α → Option α
  | [a] => some a
  | _ => none

namespace Ref

/-- Whether a reference can mean a name of a module. -/
def denotes (r : Ref) (moduleName name : Name) : Bool :=
  r.name == name &&
    (match r.qualifier with
      | none => true
      | some qualifier => qualifier == moduleName)

end Ref

namespace ModuleScope

/-- Makes a value visible, qualified and unqualified. -/
def withValue (scope : ModuleScope) (moduleName name : Name) (type : Ty) : ModuleScope :=
  { scope with values := scope.values ++ [⟨moduleName, name, type⟩] }

/-- Makes a union type visible, qualified and unqualified. -/
def withType (scope : ModuleScope) (moduleName name : Name) (arity : Nat) : ModuleScope :=
  { scope with types := scope.types ++ [⟨moduleName, name, arity⟩] }

def withOperator (scope : ModuleScope) (name : Name) (precedence : Precedence) (type : Ty) :
    ModuleScope :=
  { scope with operators := scope.operators ++ [⟨name, precedence, type⟩] }

/-- Whether a reference can mean something of the module itself. -/
def isLocal (scope : ModuleScope) (r : Ref) : Bool :=
  match r.qualifier with
  | none => true
  | some qualifier => qualifier == scope.module.name

/-- What a declaration of the module offers under a value name. -/
def offeredValue (moduleName name : Name) (index : Nat) : Declaration → Option ValueTarget
  | .value decl =>
    if decl.head.boundNames.any (·.name == name) then some (.value index decl) else none
  | .unionType decl =>
    (decl.variants.findIdx? (·.name == name)).map (fun variant => .variant moduleName decl variant)
  | .typeAlias decl =>
    if decl.name == name && decl.body.isClosedRecord then some (.recordConstructor moduleName decl)
    else none
  | .hostValue decl => if decl.name == name then some (.hostValue decl) else none
  | .fixity _ => none

/-- What a declaration of the module offers under a type name. -/
def offeredType (moduleName name : Name) : Declaration → Option TypeTarget
  | .unionType decl => if decl.name == name then some (.unionType moduleName decl) else none
  | .typeAlias decl => if decl.name == name then some (.typeAlias moduleName decl) else none
  | _ => none

def localValues (scope : ModuleScope) (name : Name) : List ValueTarget :=
  scope.module.declarations.zipIdx.filterMap
    (fun entry => offeredValue scope.module.name name entry.2 entry.1)

def localTypes (scope : ModuleScope) (name : Name) : List TypeTarget :=
  scope.module.declarations.filterMap (offeredType scope.module.name name)

/-- The candidates of the module, or those from elsewhere if there are none. -/
def preferLocal {α : Type} (own others : List α) : List α :=
  if own.isEmpty then others else own

def findValues (scope : ModuleScope) (r : Ref) : List ValueTarget :=
  preferLocal (if scope.isLocal r then scope.localValues r.name else [])
    ((scope.values.filter (fun v => r.denotes v.moduleName v.name)).map (fun v => .external v.type))

def findTypes (scope : ModuleScope) (r : Ref) : List TypeTarget :=
  preferLocal (if scope.isLocal r then scope.localTypes r.name else [])
    ((scope.types.filter (fun t => r.denotes t.moduleName t.name)).map
      (fun t => .external t.moduleName t.name t.arity))

/-- An operator the module declares, when its function is unambiguous. -/
def offeredOperator (scope : ModuleScope) (name : Name) : Declaration → Option OperatorTarget
  | .fixity decl =>
    if decl.operator == name then
      (unique? (scope.findValues decl.function)).map
        (fun function => ⟨⟨decl.precedence, decl.associativity⟩, function⟩)
    else none
  | _ => none

def findOperators (scope : ModuleScope) (name : Name) : List OperatorTarget :=
  preferLocal (scope.module.declarations.filterMap (scope.offeredOperator name))
    ((scope.operators.filter (·.name == name)).map (fun o => ⟨o.precedence, .external o.type⟩))

/-- The type a name refers to. A plain `List` that nothing else claims is the built-in list. -/
def findType? (scope : ModuleScope) (r : Ref) : Option TypeTarget :=
  match unique? (scope.findTypes r) with
  | some target => some target
  | none => if r = Ref.plain "List" then some (.external "List" "List" 1) else none

end ModuleScope

end ElmInference
