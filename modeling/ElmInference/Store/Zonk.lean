import ElmInference.Store.Basic

/-!
# Reading types through a store

`resolve` follows a variable to the type it stands for, and `zonk` does so everywhere inside a type,
so that neither a solved variable nor a growing record is left.
-/

namespace ElmInference

namespace Store

/-! ### Resolving -/

def resolveAt (s : Store) : Nat → Ty → Except Fault Ty
  | n, .var v =>
    match s.solution v.id with
    | .error fault => .error fault
    | .ok none => .ok (.var v)
    | .ok (some t) =>
      match n with
      | 0 => .error .diverged
      | n + 1 => resolveAt s n t
  | _, t => .ok t

/-- The type behind a chain of solved variables. -/
def resolve (s : Store) (t : Ty) : Except Fault Ty :=
  s.resolveAt s.crossings t

/-- The type that takes the next argument, with what it resolves to. A function without parameters
takes none, so that its result is asked. -/
def calleeAt (s : Store) : Nat → Ty → Except Fault (Ty × Ty)
  | n, t => do
    match ← s.resolve t with
    | .arrow [] ret _ =>
      match n with
      | 0 => throw .diverged
      | n + 1 => calleeAt s n ret
    | resolved => return (t, resolved)

def callee (s : Store) (t : Ty) : Except Fault (Ty × Ty) :=
  s.calleeAt (t.size + s.weight) t

/-! ### Zonking -/

mutual

/-- Zonks a type; `follow` goes on behind solved variables and inside growing records. -/
def zonkWith (s : Store) (follow : Ty → Except Fault Ty) : Ty → Except Fault Ty
  | .unit => .ok .unit
  | .unknown => .ok .unknown
  | .inProgress => .ok .inProgress
  | .var v => do
    match ← s.solution v.id with
    | none => return .var v
    | some t => follow t
  | .union m n args w => do
    let args ← zonkList s follow args
    return .union m n args (← zonkAlias s follow w)
  | .tuple items => do
    return .tuple (← zonkList s follow items)
  | .record fields base w refs => do
    let fields ← zonkFields s follow fields
    let base ← zonkBase s follow base
    return (Ty.recordWith fields base refs).writtenAs? (← zonkAlias s follow w)
  | .growing id => do
    let r ← s.record id
    let fields ← r.fields.mapM (fun field => do return (field.1, ← follow field.2))
    match ← follow r.base with
    | .unknown => return Ty.recordWith fields none r.refs
    | base => return Ty.recordWith fields (some base) r.refs
  | .arrow params ret w => do
    let params ← zonkList s follow params
    let ret ← zonkWith s follow ret
    return (Ty.function params ret).writtenAs? (← zonkAlias s follow w)

def zonkList (s : Store) (follow : Ty → Except Fault Ty) : List Ty → Except Fault (List Ty)
  | [] => .ok []
  | t :: ts => do
    let t ← zonkWith s follow t
    return t :: (← zonkList s follow ts)

def zonkFields (s : Store) (follow : Ty → Except Fault Ty) :
    List (Name × Ty) → Except Fault (List (Name × Ty))
  | [] => .ok []
  | (name, t) :: rest => do
    let t ← zonkWith s follow t
    return (name, t) :: (← zonkFields s follow rest)

def zonkBase (s : Store) (follow : Ty → Except Fault Ty) :
    Option Ty → Except Fault (Option Ty)
  | none => .ok none
  | some t => do
    return some (← zonkWith s follow t)

def zonkAlias (s : Store) (follow : Ty → Except Fault Ty) :
    Option (AliasUse Ty) → Except Fault (Option (AliasUse Ty))
  | none => .ok none
  | some ⟨m, n, args⟩ => do
    return some ⟨m, n, ← zonkList s follow args⟩

end

def zonkAt (s : Store) : Nat → Ty → Except Fault Ty
  | 0 => s.zonkWith (fun _ => .error .diverged)
  | n + 1 => s.zonkWith (zonkAt s n)

/-- Replaces every solved variable of a type by its solution and every growing record by the record
it is now. A growing record with an unknown base becomes a closed record. -/
def zonk (s : Store) (t : Ty) : Except Fault Ty :=
  s.zonkAt s.crossings t

end Store

end ElmInference
