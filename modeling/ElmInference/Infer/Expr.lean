import ElmInference.Infer.Reference

/-!
# Expressions

Inference follows an expression from the inside out, recording the type of every node. It is
structural: bodies of `let` definitions and other declarations, which may be needed at any point,
are left to `Elsewhere`.
-/

namespace ElmInference

namespace InferM

/-! ### Calls -/

def checkArgs : List (Nat × Ty) → List Ty → InferM Unit
  | (pos, arg) :: args, param :: params => do
    let _ ← check pos arg param
    checkArgs args params
  | _, _ => pure ()

/-- Applies a function with the given parameters left to arguments. When the parameters run out the
result is applied to what is left of the arguments, and a flexible variable there becomes a function
of all of these. `total` is the number of arguments of the whole call. -/
def applyTo (pos total : Nat) : List Ty → Ty → List (Nat × Ty) → InferM Ty
  | params, ret, [] => return Ty.function params ret
  | param :: params, ret, (argPos, arg) :: rest => do
    let _ ← check argPos arg param
    applyTo pos total params ret rest
  | [], ret, (argPos, arg) :: rest => do
    let (function, resolved) ← store (StoreM.read (fun s => s.callee ret))
    match resolved with
    | .arrow (param :: params) ret _ =>
      let _ ← check argPos arg param
      applyTo pos total params ret rest
    | .var v =>
      if v.rigid then do
        report pos (.argumentCount total (total - (rest.length + 1)))
        return .unknown
      let params ← freshVars "a" ((argPos, arg) :: rest)
      let result ← freshVar "b"
      if ← check pos function (Ty.function params result) then do
        checkArgs ((argPos, arg) :: rest) params
        return result
      return .unknown
    | .unknown => return .unknown
    | .inProgress => return .unknown
    | _ =>
      report pos (.argumentCount total (total - (rest.length + 1)))
      return .unknown

/-- Applies a type to arguments with their positions. -/
def apply (pos : Nat) (target : Ty) (args : List (Nat × Ty)) : InferM Ty :=
  applyTo pos args.length [] target args

/-! ### Operators -/

/-- The precedences and types of the operators of a chain, or nothing if one of them is unknown. -/
def operatorTypes (elsewhere : Elsewhere) :
    List NameAt → InferM (Option (List Precedence × List Ty))
  | [] => return some ([], [])
  | operator :: rest => do
    match ← operatorType elsewhere operator.pos operator.name with
    | none => return none
    | some (precedence, t) =>
      match ← operatorTypes elsewhere rest with
      | none => return none
      | some (precedences, types) => return some (precedence :: precedences, t :: types)

/-- Applies the operators of a grouped chain. An application stands where its first operand does. -/
def applyTree (operands : List (Nat × Ty)) (functions : List Ty) :
    OperatorTree → InferM (Nat × Ty)
  | .operand index => return operands[index]?.getD (0, .unknown)
  | .node left operator right => do
    let left ← applyTree operands functions left
    let right ← applyTree operands functions right
    let t ← apply left.1 (functions[operator]?.getD .unknown) [left, right]
    return (left.1, t)

def inferChain (elsewhere : Elsewhere) (operands : List (Nat × Ty)) (operators : List NameAt) :
    InferM Ty := do
  match ← operatorTypes elsewhere operators with
  | none => return .unknown
  | some (precedences, functions) =>
    match OperatorChain.parse precedences with
    | .ok tree => return (← applyTree operands functions tree).2
    | .error (.nonAssociative index) =>
      let operator := operators[index]?.getD default
      report operator.pos (.nonAssociativeOperator operator.name)
      return .unknown
    | .error (.mixedAssociativity left right) =>
      let left := operators[left]?.getD default
      let right := operators[right]?.getD default
      report right.pos (.mixedAssociativity left.name right.name)
      return .unknown

/-! ### Fields -/

inductive FieldError where
  | notARecord
  | missing

/-- A new growing record with one field of unknown type, and that type. -/
def openRecord (field : NameAt) : InferM (Ty × Ty) := do
  let t ← freshVar "a"
  let base ← freshVar "b"
  let refs := FieldReferences.empty.add field.name field.pos
  let record ← allocate (fun s => s.allocate { fields := [(field.name, t)], base, refs })
  return (record, t)

/-- Adds a field at the open end `v` of a record, which is known by its resolved type. -/
def growField (resolved : Ty) (v : TyVar) (field : NameAt) : InferM Ty := do
  let owner ← match resolved with
    | .growing id => do
      let base ← store (StoreM.read (fun s => s.openBase id))
      pure (if base.map TyVar.id = some v.id then some id else none)
    | _ => pure none
  match owner with
  | some id =>
    let t ← freshVar "a"
    match ← store (StoreM.insertField id field.name t (some field.pos)) with
    | .ok () => return t
    | .error _ => return .unknown
  | none =>
    let (grown, t) ← openRecord field
    store (StoreM.bind v grown)
    return t

/-- The type of a field of a record type that is not a variable. -/
def recordField (resolved : Ty) (field : NameAt) : InferM (Except FieldError Ty) := do
  let flattened ← store (StoreM.read (fun s => s.flatten resolved))
  match flattened.field? field.name with
  | some t =>
    match resolved with
    | .growing id => store (StoreM.change (fun s => s.addReference id field.name field.pos))
    | _ => pure ()
    return .ok t
  | none =>
    match flattened.tail with
    | .unknown => return .ok .unknown
    | .opened v =>
      if v.rigid then return .error .missing
      return .ok (← growField resolved v field)
    | .closed => return .error .missing

/-- The type of a field. A record that ends in a flexible variable gains the field when it lacks it.
-/
def fieldType (record : Ty) (field : NameAt) : InferM (Except FieldError Ty) := do
  let resolved ← store (StoreM.read (fun s => s.resolve record))
  match resolved with
  | .unknown => return .ok .unknown
  | .inProgress => return .ok .unknown
  | .var v =>
    if !v.rigid && v.typeclass.isNone then do
      let (grown, t) ← openRecord field
      store (StoreM.bind v grown)
      return .ok t
    return .error .notARecord
  | .record _ _ _ _ => recordField resolved field
  | .growing _ => recordField resolved field
  | _ => return .error .notARecord

/-- The type of a field access; `targetPos` is where the record stands. -/
def accessType (targetPos : Nat) (target : Ty) (field : NameAt) : InferM Ty := do
  match ← fieldType target field with
  | .ok t => return t
  | .error .missing =>
    report field.pos (.unknownField field.name)
    return .unknown
  | .error .notARecord =>
    report targetPos (.fieldAccessOnNonRecord (← zonk target))
    return .unknown

/-- Checks the new value of a field in an update. Yields whether the base is still taken for a
record. -/
def updateField (basePos : Nat) (base : Ty) (field : NameAt) (valuePos : Nat) (value : Ty) :
    InferM Bool := do
  match ← fieldType base field with
  | .ok t =>
    let _ ← check valuePos value t
    return true
  | .error .missing =>
    report field.pos (.unknownField field.name)
    return true
  | .error .notARecord =>
    report basePos (.typeMustBeRecord (← zonk base))
    return false

/-- Requires a type to be that of earlier alternatives, the first of which sets it. -/
def joinType (pos : Nat) (t : Ty) : Option Ty → InferM Ty
  | none => return t
  | some first => do
    let _ ← check pos t first
    return first

/-- Where the fields of a record expression stand. -/
def assignedAt (fields : List (NameAt × Expr)) : FieldReferences :=
  fields.foldl (fun refs field => refs.add field.1.name field.1.pos) .empty

/-! ### The recursion -/

mutual

/-- Infers an expression and records its type. A cancelled pass learns nothing more. -/
def inferExpr (elsewhere : Elsewhere) : Expr → InferM Ty
  | .mk id pos kind => do
    if ← isCancelled then return .unknown
    let t ← inferKind elsewhere pos kind
    record id t
    return t

def inferKind (elsewhere : Elsewhere) (pos : Nat) : ExprKind Expr → InferM Ty
  | .unit => return .unit
  | .literal kind => literalType kind
  | .var name => reference elsewhere pos name
  | .operator name => do
    match ← operatorType elsewhere pos name with
    | some (_, t) => return t
    | none => return .unknown
  | .call target args => do
    let targetType ← inferExpr elsewhere target
    apply pos targetType (← inferAll elsewhere args)
  | .binary operands operators => do
    inferChain elsewhere (← inferAll elsewhere operands) operators
  | .negate operand => do
    let t ← inferExpr elsewhere operand
    let number ← freshVar "number"
    let _ ← check operand.pos t number
    return t
  | .tuple items => do
    return .tuple ((← inferAll elsewhere items).map Prod.snd)
  | .list items => do
    match ← inferItems elsewhere none items with
    | some item => return .list item
    | none => return .list (← freshVar "a")
  | .record fields => do
    return Ty.recordWith (← inferFields elsewhere fields) none (assignedAt fields)
  | .update base fields => do
    let baseType ← reference elsewhere base.pos (Ref.plain base.name)
    inferUpdates elsewhere base.pos baseType true fields
    return baseType
  | .access target field => do
    let targetType ← inferExpr elsewhere target
    accessType target.pos targetType field
  | .accessor field => do
    let t ← freshVar "a"
    let base ← freshVar "b"
    return Ty.function [Ty.extension base [(field, t)]] t
  | .conditional branches otherwise => do
    let result ← inferBranches elsewhere none branches
    joinType otherwise.pos (← inferExpr elsewhere otherwise) result
  | .caseOf scrutinee branches => do
    let scrutineeType ← inferExpr elsewhere scrutinee
    return (← inferCases elsewhere scrutineeType none branches).getD .unknown
  | .lambda params body => do
    let types ← freshVars "a" params
    pushScope []
    bindAll [] (← inferParams params types)
    let bodyType ← deeper 1 (inferExpr elsewhere body)
    popScope
    return Ty.function types bodyType
  | .letIn definitions body => do
    enterLet elsewhere.body definitions
    let t ← inferExpr elsewhere body
    popScope
    return t

/-- Infers expressions in order, keeping their positions. -/
def inferAll (elsewhere : Elsewhere) : List Expr → InferM (List (Nat × Ty))
  | [] => return []
  | e :: es => do
    let t ← inferExpr elsewhere e
    return (e.pos, t) :: (← inferAll elsewhere es)

/-- Infers expressions that all have the type of the first one. -/
def inferItems (elsewhere : Elsewhere) (first : Option Ty) : List Expr → InferM (Option Ty)
  | [] => return first
  | e :: es => do
    let t ← inferExpr elsewhere e
    let first ← joinType e.pos t first
    inferItems elsewhere (some first) es

def inferFields (elsewhere : Elsewhere) : List (NameAt × Expr) → InferM (List (Name × Ty))
  | [] => return []
  | (name, e) :: rest => do
    let t ← inferExpr elsewhere e
    return (name.name, t) :: (← inferFields elsewhere rest)

/-- Infers the new values of an update; after the base turned out to be no record they are not
compared with it. -/
def inferUpdates (elsewhere : Elsewhere) (basePos : Nat) (base : Ty) (isRecord : Bool) :
    List (NameAt × Expr) → InferM Unit
  | [] => pure ()
  | (name, e) :: rest => do
    let value ← inferExpr elsewhere e
    if isRecord then
      let isRecord ← updateField basePos base name e.pos value
      inferUpdates elsewhere basePos base isRecord rest
    else
      inferUpdates elsewhere basePos base false rest

def inferBranches (elsewhere : Elsewhere) (first : Option Ty) :
    List (Expr × Expr) → InferM (Option Ty)
  | [] => return first
  | (condition, branch) :: rest => do
    let conditionType ← inferExpr elsewhere condition
    let _ ← check condition.pos conditionType .bool
    let t ← inferExpr elsewhere branch
    let first ← joinType branch.pos t first
    inferBranches elsewhere (some first) rest

def inferCases (elsewhere : Elsewhere) (scrutinee : Ty) (first : Option Ty) :
    List (Pattern × Expr) → InferM (Option Ty)
  | [] => return first
  | (pattern, body) :: rest => do
    pushScope []
    bindAll [] (← inferPattern .branch pattern scrutinee)
    let t ← inferExpr elsewhere body
    let first ← joinType body.pos t first
    popScope
    inferCases elsewhere scrutinee (some first) rest

end

end InferM

end ElmInference
