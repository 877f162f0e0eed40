import ElmInference.Assoc

/-!
# Constrained type variables

Four classes of types are built into the language. A variable belongs to one exactly when its name
starts with the class's name, so `number`, `number1` and `numbers` all stand for number types.
-/

namespace ElmInference

/-- The built-in constraints on type variables. -/
inductive Typeclass where
  | number
  | comparable
  | appendable
  | compAppend
deriving DecidableEq, Inhabited

namespace Typeclass

/-- The name that variables of the class start with. -/
def name : Typeclass → Name
  | .number => "number"
  | .comparable => "comparable"
  | .appendable => "appendable"
  | .compAppend => "compappend"

def all : List Typeclass := [.number, .comparable, .appendable, .compAppend]

/-- Whether a variable name starts with the name of the class. -/
def marks (c : Typeclass) (varName : Name) : Bool :=
  c.name.toList.isPrefixOf varName.toList

/-- The class a variable name stands for. -/
def ofName (varName : Name) : Option Typeclass :=
  all.find? (fun c => c.marks varName)

/-- The class of a variable that has to belong to both classes, when there is one: comparable
numbers are the numbers, and what is comparable and appendable is `compAppend`. No number is
appendable. -/
def join : Typeclass → Typeclass → Option Typeclass
  | .number, .number => some .number
  | .number, .comparable => some .number
  | .number, .appendable => none
  | .number, .compAppend => none
  | .comparable, .number => some .number
  | .comparable, .comparable => some .comparable
  | .comparable, .appendable => some .compAppend
  | .comparable, .compAppend => some .compAppend
  | .appendable, .number => none
  | .appendable, .comparable => some .compAppend
  | .appendable, .appendable => some .appendable
  | .appendable, .compAppend => some .compAppend
  | .compAppend, .number => none
  | .compAppend, .comparable => some .compAppend
  | .compAppend, .appendable => some .compAppend
  | .compAppend, .compAppend => some .compAppend

theorem join_comm (c d : Typeclass) : join c d = join d c := by
  cases c <;> cases d <;> rfl

theorem join_joined {c d both : Typeclass} (h : join c d = some both) :
    join c both = some both ∧ join d both = some both := by
  cases c <;> cases d <;> cases h <;> exact ⟨rfl, rfl⟩

theorem join_self (c : Typeclass) : join c c = some c := by
  cases c <;> rfl

end Typeclass

end ElmInference
