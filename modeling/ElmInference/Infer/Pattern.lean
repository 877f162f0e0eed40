import ElmInference.Infer.Monad

/-!
# Patterns

A pattern is checked against the type of the value it takes apart, and yields the names it binds.
Inside a pattern that does not fit nothing is known, so that one mistake is reported once.
-/

namespace ElmInference

/-- Where a pattern stands. -/
inductive PatternPlace where
  | parameter
  | declaration
  | branch
deriving DecidableEq, Inhabited

/-- Only the patterns of a `case` may leave values to other branches. -/
def PatternPlace.mustBeTotal : PatternPlace → Bool
  | .parameter => true
  | .declaration => true
  | .branch => false

namespace InferM

def literalType : Literal → InferM Ty
  | .int => freshVar "number"
  | .float => pure .float
  | .char => pure .char
  | .string => pure .string

/-- Requires the type of a pattern to be that of the value. -/
def checkPattern (pos : Nat) (patternType expected : Ty) : InferM Bool := do
  match ← store (StoreM.unify patternType expected) with
  | .ok () => return true
  | .error .infiniteType =>
    report pos .infiniteType
    return false
  | .error error =>
    let diff ← match error with
      | .record diff => do pure (some (← diff.mapTypesM zonk))
      | _ => pure none
    let patternType ← zonk patternType
    let required ← zonk expected
    report pos (.invalidPattern patternType required diff)
    return false

/-- Reports a pattern that leaves values over where none may be left. -/
def partialPattern (pos : Nat) (place : PatternPlace) : InferM Unit :=
  if place.mustBeTotal then report pos .partialPattern else pure ()

/-- The types of a constructor's arguments and of what it builds. -/
def constructorTypes (name : Ref) : InferM (Option (List Ty × Ty)) := do
  match ← session (SessionM.findValues name) with
  | [.variant m decl index] =>
    let scope := (← engine).scope
    let declared ← session (SessionM.withTypes (TypeTable.unionType scope m decl))
    allocate (declared.variant? index)
  | [.external type] =>
    match ← instantiate (Scheme.closed type) with
    | .arrow params ret _ => return some (params, ret)
    | t => return some ([], t)
  | _ => return none

/-- The types of sub-patterns, or nothing when the pattern does not fit. -/
def ifFits (fits : Bool) (types : List Ty) : List Ty :=
  if fits then types else []

mutual

def inferPattern (place : PatternPlace) : Pattern → Ty → InferM Bound
  | .mk id _ .any, expected => do
    record id expected
    return []
  | .mk id pos (.var name), expected => do
    record id expected
    return [(⟨pos, name⟩, expected)]
  | .mk id pos .unit, expected => do
    let _ ← checkPattern pos .unit expected
    record id expected
    return []
  | .mk id pos (.literal kind), expected => do
    partialPattern pos place
    let t ← literalType kind
    let _ ← checkPattern pos t expected
    record id expected
    return []
  | .mk id pos (.tuple items), expected => do
    let types ← freshVars "a" items
    let fits ← checkPattern pos (.tuple types) expected
    let bound ← inferPatterns place items (ifFits fits types)
    record id expected
    return bound
  | .mk id pos (.list items), expected => do
    partialPattern pos place
    let item ← freshVar "a"
    let fits ← checkPattern pos (.list item) expected
    let bound ← inferPatterns place items (ifFits fits (items.map (fun _ => item)))
    record id expected
    return bound
  | .mk id pos (.cons parts), expected => do
    partialPattern pos place
    let item ← freshVar "a"
    let fits ← checkPattern pos (.list item) expected
    let types := List.replicate (parts.length - 1) item ++ [Ty.list item]
    let bound ← inferPatterns place parts (ifFits fits types)
    record id expected
    return bound
  | .mk id pos (.record fields), expected => do
    let types ← freshVars "a" fields
    let base ← freshVar "b"
    let refs := fields.foldl (fun refs field => refs.add field.name field.pos) FieldReferences.empty
    let record' := Ty.recordWith ((fields.map NameAt.name).zip types) (some base) refs
    let fits ← checkPattern pos record' expected
    record id expected
    return fields.zip (if fits then types else fields.map (fun _ => Ty.unknown))
  | .mk id pos (.constructor name args), expected => do
    let bound ← match ← constructorTypes name with
      | none => inferPatterns place args []
      | some (params, t) =>
        if params.length ≠ args.length then do
          report pos (.typeArgumentCount args.length params.length)
          inferPatterns place args []
        else do
          let fits ← checkPattern pos t expected
          inferPatterns place args (ifFits fits params)
    record id expected
    return bound
  | .mk id _ (.named pattern name), expected => do
    let bound ← inferPattern place pattern expected
    record id expected
    return bound ++ [(name, expected)]

/-- Checks patterns against types; where these run out nothing is known. -/
def inferPatterns (place : PatternPlace) : List Pattern → List Ty → InferM Bound
  | [], _ => return []
  | p :: ps, types => do
    let bound ← inferPattern place p (types.head?.getD .unknown)
    return bound ++ (← inferPatterns place ps types.tail)

end

end InferM

namespace InferenceResult

mutual

/-- The type that a finished destructuring gave to one of its names, read off the types recorded for
its patterns. -/
def boundType? (r : InferenceResult) (name : Name) : Pattern → Option Ty
  | .mk id _ (.var other) => if other = name then r.typeOf? id else none
  | .mk id _ (.record fields) =>
    match r.typeOf? id with
    | none => none
    | some t =>
      if fields.any (·.name == name) then
        match t with
        | .record inner _ _ _ => Assoc.get? inner name
        | _ => some .unknown
      else none
  | .mk id _ (.named pattern other) =>
    if other.name = name then r.typeOf? id else boundType? r name pattern
  | .mk _ _ (.tuple items) => boundTypeList? r name items
  | .mk _ _ (.list items) => boundTypeList? r name items
  | .mk _ _ (.cons parts) => boundTypeList? r name parts
  | .mk _ _ (.constructor _ args) => boundTypeList? r name args
  | .mk _ _ .any => none
  | .mk _ _ .unit => none
  | .mk _ _ (.literal _) => none

def boundTypeList? (r : InferenceResult) (name : Name) : List Pattern → Option Ty
  | [] => none
  | p :: ps =>
    match boundType? r name p with
    | some t => some t
    | none => boundTypeList? r name ps

end

end InferenceResult

end ElmInference
