import ElmInference.Report.Basic
import ElmInference.Store.Constrain
import ElmInference.Ty.Render

/-!
# Problems found by inference

Each kind of problem carries the types and names it is about; `ProblemKind.message` is the one place
that puts it into words.
-/

namespace ElmInference

inductive ProblemKind where
  | typeMismatch (found required : Ty) (diff : Option RecordDiff)
  | invalidPattern (patternType required : Ty) (diff : Option RecordDiff)
  /-- Too many arguments in a call, or a call of something that is no function. -/
  | argumentCount (actual expected : Nat)
  | parameterCount (actual expected : Nat)
  /-- A type or a constructor pattern with the wrong number of arguments. -/
  | typeArgumentCount (actual expected : Nat)
  | unknownField (name : Name)
  | typeMustBeRecord (found : Ty)
  | fieldAccessOnNonRecord (found : Ty)
  | infiniteType
  | infiniteRecursion
  | cyclicDefinition
  | conflictingName
  | partialPattern
  | nonAssociativeOperator (operator : Name)
  | mixedAssociativity (left right : Name)
deriving Inhabited

structure Problem where
  pos : Nat
  kind : ProblemKind
deriving Inhabited

namespace ProblemKind

/-- A noun for a count. -/
def plural (n : Nat) (singular : String) : String :=
  if n = 1 then singular else singular ++ "s"

/-- Whether two union types of different modules share their name. -/
def sameNameElsewhere : Ty → Ty → Bool
  | .union m n _ _, .union m' n' _ _ => n == n' && m != m'
  | _, _ => false

/-- Two types as text, with module names when they would read the same otherwise. -/
def renderPair (found required : Ty) : String × String :=
  let foundText := found.render false
  let requiredText := required.render false
  if foundText == requiredText || sameNameElsewhere found required then
    (found.render true, required.render true)
  else (foundText, requiredText)

/-- A line about a field that has two types. -/
def mismatchText (field : Name × Ty × Ty) : String :=
  "\n  Field " ++ field.1 ++ ":\n    Required: " ++ field.2.2.render false ++
    "\n    Found: " ++ field.2.1.render false

/-- A line that lists fields, when there are any. -/
def fieldsText (title : String) (fields : List (Name × Ty)) : String :=
  if fields.isEmpty then "" else "\n" ++ title ++ ": " ++ (Ty.closedRecord fields).render false

def diffText (diff : RecordDiff) : String :=
  fieldsText "Extra fields" diff.extra ++ fieldsText "Missing fields" diff.missing ++
    (if diff.mismatched.isEmpty then ""
      else "\nMismatched fields:" ++ String.join (diff.mismatched.map mismatchText))

def diffText? : Option RecordDiff → String
  | some diff => diffText diff
  | none => ""

def countText (subject noun : String) (actual expected : Nat) : String :=
  "The " ++ subject ++ " expects " ++ toString expected ++ " " ++ plural expected noun ++
    ", but it got " ++ toString actual ++ " instead."

def message : ProblemKind → String
  | .typeMismatch found required diff =>
    let (found, required) := renderPair found required
    "Type mismatch.\nRequired: " ++ required ++ "\nFound: " ++ found ++ diffText? diff
  | .invalidPattern patternType required diff =>
    let (found, required) := renderPair patternType required
    "Invalid pattern.\nRequired type: " ++ required ++ "\nPattern type: " ++ found ++ diffText? diff
  | .argumentCount actual 0 =>
    "This value is not a function, but it was given " ++ toString actual ++ " " ++
      plural actual "argument" ++ "."
  | .argumentCount actual expected => countText "function" "argument" actual expected
  | .parameterCount actual expected => countText "function" "parameter" actual expected
  | .typeArgumentCount actual expected => countText "type" "argument" actual expected
  | .unknownField name => "Record does not have field '" ++ name ++ "'"
  | .typeMustBeRecord found => "Type must be a record.\nFound: " ++ found.render false
  | .fieldAccessOnNonRecord found =>
    "Value is not a record, cannot access fields.\nType: " ++ found.render false
  | .infiniteType => "Infinite self-referential type"
  | .infiniteRecursion => "Infinite recursion"
  | .cyclicDefinition => "Value cannot be defined in terms of itself"
  | .conflictingName => "Conflicting name declaration"
  | .partialPattern => "Pattern does not cover all possibilities"
  | .nonAssociativeOperator operator =>
    "Operator (" ++ operator ++ ") is not associative, and so cannot be chained"
  | .mixedAssociativity left right =>
    "Operators (" ++ left ++ ") and (" ++ right ++
      ") have the same precedence but different associativity, and so cannot be mixed"

/-- Whether the problem is a definition that needs itself. -/
def isInfiniteRecursion : ProblemKind → Bool
  | .infiniteRecursion => true
  | _ => false

variable {m : Type → Type} [Monad m]

/-- Applies a function that may fail to the types of an optional record difference. -/
def mapDiffM (f : Ty → m Ty) : Option RecordDiff → m (Option RecordDiff)
  | none => pure none
  | some diff => do return some (← diff.mapTypesM f)

/-- Applies a function that may fail to every type of a problem. -/
def mapTypesM (f : Ty → m Ty) : ProblemKind → m ProblemKind
  | .typeMismatch found required diff => do
    let found ← f found
    let required ← f required
    return .typeMismatch found required (← mapDiffM f diff)
  | .invalidPattern patternType required diff => do
    let patternType ← f patternType
    let required ← f required
    return .invalidPattern patternType required (← mapDiffM f diff)
  | .typeMustBeRecord found => do return .typeMustBeRecord (← f found)
  | .fieldAccessOnNonRecord found => do return .fieldAccessOnNonRecord (← f found)
  | kind => pure kind

end ProblemKind

namespace Problem

def message (p : Problem) : String := p.kind.message

def addTo (p : Problem) (report : Report) (source : Source) : Report :=
  report.add (some ⟨source, some p.pos⟩) (Message.ofText p.message)

end Problem

end ElmInference
