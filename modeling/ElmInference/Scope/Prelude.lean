import ElmInference.Scope.Basic

/-!
# The prelude

The types, values and operators that every module sees without declaring or importing them.
-/

namespace ElmInference

namespace Prelude

def a : Ty := .var ⟨0, "a", false⟩

def b : Ty := .var ⟨1, "b", false⟩

def c : Ty := .var ⟨2, "c", false⟩

def number : Ty := .var ⟨0, "number", false⟩

def comparable : Ty := .var ⟨0, "comparable", false⟩

def appendable : Ty := .var ⟨0, "appendable", false⟩

def maybe (item : Ty) : Ty := .named "Maybe" "Maybe" [item]

def unary (param ret : Ty) : Ty := .function [param] ret

def binary (left right ret : Ty) : Ty := .function [left, right] ret

def types : List ExternalType :=
  [ ⟨"Basics", "Int", 0⟩,
    ⟨"Basics", "Float", 0⟩,
    ⟨"Basics", "Bool", 0⟩,
    ⟨"String", "String", 0⟩,
    ⟨"Char", "Char", 0⟩,
    ⟨"List", "List", 1⟩,
    ⟨"Maybe", "Maybe", 1⟩ ]

def values : List ExternalValue :=
  [ ⟨"Basics", "True", .bool⟩,
    ⟨"Basics", "False", .bool⟩,
    ⟨"Maybe", "Just", unary a (maybe a)⟩,
    ⟨"Maybe", "Nothing", maybe a⟩,
    ⟨"Basics", "identity", unary a a⟩,
    ⟨"Basics", "not", unary .bool .bool⟩,
    ⟨"Basics", "toFloat", unary .int .float⟩,
    ⟨"Basics", "round", unary .float .int⟩,
    ⟨"Basics", "max", binary comparable comparable comparable⟩,
    ⟨"List", "map", binary (unary a b) (.list a) (.list b)⟩,
    ⟨"List", "length", unary (.list a) .int⟩,
    ⟨"String", "length", unary .string .int⟩ ]

def operators : List ExternalOperator :=
  [ ⟨"|>", ⟨0, .left⟩, binary a (unary a b) b⟩,
    ⟨"<|", ⟨0, .right⟩, binary (unary a b) a b⟩,
    ⟨"||", ⟨2, .right⟩, binary .bool .bool .bool⟩,
    ⟨"&&", ⟨3, .right⟩, binary .bool .bool .bool⟩,
    ⟨"==", ⟨4, .non⟩, binary a a .bool⟩,
    ⟨"/=", ⟨4, .non⟩, binary a a .bool⟩,
    ⟨"<", ⟨4, .non⟩, binary comparable comparable .bool⟩,
    ⟨">", ⟨4, .non⟩, binary comparable comparable .bool⟩,
    ⟨"<=", ⟨4, .non⟩, binary comparable comparable .bool⟩,
    ⟨">=", ⟨4, .non⟩, binary comparable comparable .bool⟩,
    ⟨"++", ⟨5, .right⟩, binary appendable appendable appendable⟩,
    ⟨"::", ⟨5, .right⟩, binary a (.list a) (.list a)⟩,
    ⟨"+", ⟨6, .left⟩, binary number number number⟩,
    ⟨"-", ⟨6, .left⟩, binary number number number⟩,
    ⟨"*", ⟨7, .left⟩, binary number number number⟩,
    ⟨"/", ⟨7, .left⟩, binary .float .float .float⟩,
    ⟨"//", ⟨7, .left⟩, binary .int .int .int⟩,
    ⟨"^", ⟨8, .right⟩, binary number number number⟩,
    ⟨"<<", ⟨9, .left⟩, binary (unary b c) (unary a b) (unary a c)⟩,
    ⟨">>", ⟨9, .right⟩, binary (unary a b) (unary b c) (unary a c)⟩ ]

end Prelude

/-- A module in the presence of the prelude. -/
def ModuleScope.ofModule (module : Module) : ModuleScope :=
  { module, values := Prelude.values, types := Prelude.types, operators := Prelude.operators }

end ElmInference
