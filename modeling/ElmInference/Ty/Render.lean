import ElmInference.Ty.Subst

/-!
# Types as source text

A type is written the way it would stand in a source file, by the alias it was written with when it
has one. Distinct variables must not read the same, so a variable whose name is already taken gets
the first unused name of the sequence `a, b, …, z, a1, b1, …`. A constrained variable keeps its
name, because the name is its constraint.
-/

namespace ElmInference

/-- The `n`th name in `a, b, …, z, a1, b1, …, z1, a2, …`. -/
def nthVarName (n : Nat) : Name :=
  let letter := Char.ofNat ('a'.toNat + n % 26)
  if n < 26 then letter.toString else letter.toString ++ toString (n / 26)

/-- The names given out so far while a type is written. -/
structure Naming where
  /-- The name of each variable met so far. -/
  names : Assoc VarId Name := []
  /-- Names in use. -/
  taken : List Name := []
deriving Inhabited

namespace Naming

/-- The first name of the sequence that is not in use. One of the first `taken.length + 1` names is
free, since they are all different. -/
def unused (taken : List Name) : Name :=
  let names := (List.range (taken.length + 1)).map nthVarName
  (names.find? (fun name => !taken.contains name)).getD ""

/-- The name a new variable gets. -/
def choose (naming : Naming) (v : TyVar) : Name :=
  if v.typeclass.isSome || !naming.taken.contains v.name then v.name else unused naming.taken

/-- The name of a variable; a new one is added to the names in use. -/
def nameOf (v : TyVar) (naming : Naming) : Name × Naming :=
  match Assoc.get? naming.names v.id with
  | some name => (name, naming)
  | none =>
    let name := naming.choose v
    (name, { names := naming.names ++ [(v.id, name)], taken := naming.taken ++ [name] })

end Naming

namespace Ty

/-- Whether a type needs parentheses as an argument of a type constructor: what is applied itself,
and functions. -/
def needsParens (t : Ty) : Bool :=
  match t.written? with
  | some use => !use.args.isEmpty
  | none =>
    match t with
    | .arrow _ _ _ => true
    | .union _ _ args _ => !args.isEmpty
    | _ => false

def parens (needed : Bool) (text : String) : String :=
  if needed then "(" ++ text ++ ")" else text

def typeName (qualify : Bool) (moduleName name : Name) : String :=
  if qualify && !moduleName.isEmpty then moduleName ++ "." ++ name else name

/-- A record with written-out fields and base. A base without further fields reads as the base
itself. -/
def recordText (fields : List String) : Option String → String
  | some base =>
    if fields.isEmpty then base
    else "\x7b " ++ base ++ " | " ++ String.intercalate ", " fields ++ " \x7d"
  | none =>
    if fields.isEmpty then "\x7b\x7d"
    else "\x7b " ++ String.intercalate ", " fields ++ " \x7d"

mutual

/-- Writes a type, carrying along the variable names in use. -/
def write (qualify : Bool) : Ty → StateM Naming String
  | .unit => pure "()"
  | .unknown => pure "unknown"
  | .inProgress => pure "unknown"
  | .growing _ => pure "\x7b .. \x7d"
  | .var v => fun naming => naming.nameOf v
  | .union m n args none => do
    return typeName qualify m n ++ (← writeArgs qualify args)
  | .union _ _ _ (some ⟨m, n, args⟩) => do
    return typeName qualify m n ++ (← writeArgs qualify args)
  | .tuple items => do
    return "( " ++ String.intercalate ", " (← writeList qualify items) ++ " )"
  | .record fields base none _ => do
    let fields ← writeFields qualify fields
    return recordText fields (← writeBase qualify base)
  | .record _ _ (some ⟨m, n, args⟩) _ => do
    return typeName qualify m n ++ (← writeArgs qualify args)
  | .arrow params ret none => do
    let params ← writeSegments qualify params
    let last ← write qualify ret
    return String.intercalate " -> " (params ++ [parens ret.isBareArrow last])
  | .arrow _ _ (some ⟨m, n, args⟩) => do
    return typeName qualify m n ++ (← writeArgs qualify args)

/-- Arguments of a type constructor, each with the blank before it. -/
def writeArgs (qualify : Bool) : List Ty → StateM Naming String
  | [] => pure ""
  | t :: ts => do
    let text ← write qualify t
    return " " ++ parens t.needsParens text ++ (← writeArgs qualify ts)

def writeList (qualify : Bool) : List Ty → StateM Naming (List String)
  | [] => pure []
  | t :: ts => do
    let text ← write qualify t
    return text :: (← writeList qualify ts)

/-- Parameters of a function type. -/
def writeSegments (qualify : Bool) : List Ty → StateM Naming (List String)
  | [] => pure []
  | t :: ts => do
    let text ← write qualify t
    return parens t.isBareArrow text :: (← writeSegments qualify ts)

def writeFields (qualify : Bool) : List (Name × Ty) → StateM Naming (List String)
  | [] => pure []
  | (name, t) :: rest => do
    let text ← write qualify t
    return (name ++ " : " ++ text) :: (← writeFields qualify rest)

def writeBase (qualify : Bool) : Option Ty → StateM Naming (Option String)
  | none => pure none
  | some t => do
    return some (← write qualify t)

end

/-- The source text of a type, with module names when asked to qualify. -/
def render (qualify : Bool) (t : Ty) : String :=
  (write qualify t {}).1

end Ty

end ElmInference
