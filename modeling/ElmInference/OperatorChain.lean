import ElmInference.Ast.Basic

/-!
# Grouping operator chains

A chain `e₀ op₀ e₁ op₁ e₂ …` is stored flat. `OperatorChain.parse` rebuilds its tree by descending
into the right operand of every operator, which ends at the first operator that does not bind tighter
than it has to. `OperatorChain.group` does so from left to right with a stack of operators that still
wait for their right operand: a new operator first completes every waiting operator that binds
tighter, and of an equally tight one its associativity decides. In both, two neighbours of equal
precedence have to agree on an associativity, and operators without one cannot be neighbours at all.
-/

namespace ElmInference

/-- How tightly an operator binds, and how it groups with its equals. -/
structure Precedence where
  level : Nat
  associativity : Associativity
deriving DecidableEq, Inhabited

/-- A grouped chain, with operands and operators given by their place in the chain. -/
inductive OperatorTree where
  | operand (index : Nat)
  | node (left : OperatorTree) (operator : Nat) (right : OperatorTree)
deriving DecidableEq, Inhabited

inductive ChainError where
  /-- Two neighbours of equal precedence do not associate. -/
  | nonAssociative (operator : Nat)
  /-- Two neighbours of equal precedence associate differently. -/
  | mixedAssociativity (left right : Nat)
deriving DecidableEq, Inhabited

namespace OperatorChain

/-! ### By descent -/

/-- Two operators of one level that meet have to associate to the same side. -/
def check (left right : Nat × Precedence) : Except ChainError Unit :=
  match left.2.associativity, right.2.associativity with
  | .non, .non => .error (.nonAssociative right.1)
  | a, b => if a ≠ b then .error (.mixedAssociativity left.1 right.1) else .ok ()

/-- Compares an operator with its neighbour of the same level: the operator just completed on its
left, or else the one whose right operand is being parsed. -/
def checkNeighbour (previous parent : Option (Nat × Precedence)) (operator : Nat × Precedence) :
    Except ChainError Unit :=
  let same (other : Nat × Precedence) := other.2.level == operator.2.level
  match (previous.filter same).or (parent.filter same) with
  | some neighbour => check neighbour operator
  | none => .ok ()

/-- Operators in the right operand of an operator bind tighter than this. -/
def rightMin (p : Precedence) : Int :=
  match p.associativity with
  | .left | .non => p.level
  | .right => p.level - 1

/-- A tree with the operators behind it, the first of which is at place `next`. -/
structure Parsed (operators : List Precedence) where
  tree : OperatorTree
  next : Nat
  rest : List Precedence
  shorter : rest.length ≤ operators.length

/-- Parses on behind a tree, as long as operators bind tighter than `min`. `parent` is the operator
whose right operand is being parsed, `previous` the one at the root of the tree. -/
def parseFrom (min : Int) (parent previous : Option (Nat × Precedence)) (tree : OperatorTree) (next : Nat) :
    (operators : List Precedence) → Except ChainError (Parsed operators)
  | [] => .ok ⟨tree, next, [], Nat.le_refl _⟩
  | p :: rest =>
    if p.level ≤ min then .ok ⟨tree, next, p :: rest, Nat.le_refl _⟩
    else
      match checkNeighbour previous parent (next, p) with
      | .error e => .error e
      | .ok () =>
        match parseFrom (rightMin p) (some (next, p)) none (.operand (next + 1)) (next + 1) rest with
        | .error e => .error e
        | .ok right =>
          match parseFrom min parent (some (next, p)) (.node tree next right.tree) right.next right.rest with
          | .error e => .error e
          | .ok all => .ok ⟨all.tree, all.next, all.rest,
              Nat.le_succ_of_le (Nat.le_trans all.shorter right.shorter)⟩
termination_by operators => operators.length
decreasing_by
  · exact Nat.lt_succ_self _
  · exact Nat.lt_succ_of_le right.shorter

/-- The tree of a chain with the given operators and one operand more. -/
def parse (operators : List Precedence) : Except ChainError OperatorTree :=
  (parseFrom (-1) none none (.operand 0) 0 operators).map Parsed.tree

/-! ### With a stack -/

/-- An operator that has its left operand and waits for the right one. -/
structure Waiting where
  left : OperatorTree
  operator : Nat
  precedence : Precedence
deriving DecidableEq, Inhabited

/-- Completes the waiting operators that bind tighter than `level`, innermost first. -/
def complete (level : Nat) : List Waiting → OperatorTree → List Waiting × OperatorTree
  | [], right => ([], right)
  | w :: waiting, right =>
    if level < w.precedence.level then complete level waiting (.node w.left w.operator right)
    else (w :: waiting, right)

def completeAll : List Waiting → OperatorTree → OperatorTree
  | [], right => right
  | w :: waiting, right => completeAll waiting (.node w.left w.operator right)

/-- Lets an operator wait, given the tree read since the last one. -/
def push (operator : Nat) (p : Precedence) (waiting : List Waiting) (tree : OperatorTree) :
    Except ChainError (List Waiting) :=
  match complete p.level waiting tree with
  | ([], left) => .ok [⟨left, operator, p⟩]
  | (w :: rest, left) =>
    if w.precedence.level = p.level then
      match w.precedence.associativity, p.associativity with
      | .left, .left => .ok (⟨.node w.left w.operator left, operator, p⟩ :: rest)
      | .right, .right => .ok (⟨left, operator, p⟩ :: w :: rest)
      | .non, .non => .error (.nonAssociative operator)
      | _, _ => .error (.mixedAssociativity w.operator operator)
    else .ok (⟨left, operator, p⟩ :: w :: rest)

/-- Reads the operators from place `next` on; operand `next` has just been read. -/
def read (next : Nat) (waiting : List Waiting) : List Precedence → Except ChainError OperatorTree
  | [] => .ok (completeAll waiting (.operand next))
  | p :: rest =>
    match push next p waiting (.operand next) with
    | .ok waiting => read (next + 1) waiting rest
    | .error e => .error e

/-- The tree of a chain, as a stack builds it. -/
def group (operators : List Precedence) : Except ChainError OperatorTree :=
  read 0 [] operators

end OperatorChain

end ElmInference
