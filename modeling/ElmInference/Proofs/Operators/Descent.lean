import ElmInference.Proofs.Operators.Grouping

/-!
# Parsing by descent

The parser that descends into right operands builds the tree that the stack builds. Its calls in progress are the
operators on the stack: each of them waits for its right operand, and when the descent below it ends it takes what has
been parsed and goes on. So a call that ends early, at an operator that binds no tighter than it has to, is a waiting
operator that is completed.
-/

namespace ElmInference

namespace OperatorChain

variable {operators rest : List Precedence} {next : Nat} {p : Precedence} {waiting ws : List Waiting} {w : Waiting}
  {tree : OperatorTree} {previous : Option (Nat × Precedence)}

def Waiting.place (w : Waiting) : Nat × Precedence := (w.operator, w.precedence)

/-- What the right operand of the innermost waiting operator has to bind tighter than. -/
def minOf : List Waiting → Int
  | [] => -1
  | w :: _ => rightMin w.precedence

def parentOf (waiting : List Waiting) : Option (Nat × Precedence) :=
  waiting.head?.map Waiting.place

/-- Goes on with the calls in progress, once the innermost of them has its right operand. -/
def resume : List Waiting → {operators : List Precedence} → Except ChainError (Parsed operators) →
    Except ChainError OperatorTree
  | _, _, .error e => .error e
  | [], _, .ok right => .ok right.tree
  | w :: waiting, _, .ok right =>
    resume waiting (parseFrom (minOf waiting) (parentOf waiting) (some w.place) (.node w.left w.operator right.tree)
      right.next right.rest)

/-- Parses on behind a tree, inside of the calls in progress. -/
def proceed (waiting : List Waiting) (previous : Option (Nat × Precedence)) (tree : OperatorTree) (next : Nat)
    (operators : List Precedence) : Except ChainError OperatorTree :=
  resume waiting (parseFrom (minOf waiting) (parentOf waiting) previous tree next operators)

theorem resume_error (waiting : List Waiting) (e : ChainError) :
    resume waiting (.error e : Except ChainError (Parsed operators)) = .error e := by
  cases waiting <;> rfl

theorem proceed_nil (waiting : List Waiting) (previous : Option (Nat × Precedence)) (tree : OperatorTree)
    (next : Nat) : proceed waiting previous tree next [] = .ok (completeAll waiting tree) := by
  induction waiting generalizing previous tree with
  | nil =>
    rw [proceed, parseFrom]
    rfl
  | cons w waiting ih =>
    rw [proceed, parseFrom]
    exact ih _ _

/-- An operator that does not bind tighter than it has to ends the innermost call. -/
theorem proceed_break (hmin : p.level ≤ minOf (w :: ws)) :
    proceed (w :: ws) previous tree next (p :: rest) =
      proceed ws (some w.place) (.node w.left w.operator tree) next (p :: rest) := by
  rw [proceed, parseFrom, if_pos hmin]
  rfl

/-- An operator that binds tighter is compared with its neighbour and begins a call of its own. -/
theorem proceed_descend (hmin : ¬ p.level ≤ minOf waiting) :
    proceed waiting previous tree next (p :: rest) =
      match checkNeighbour previous (parentOf waiting) (next, p) with
      | .ok () => proceed (⟨tree, next, p⟩ :: waiting) none (.operand (next + 1)) (next + 1) rest
      | .error e => .error e := by
  rw [proceed, parseFrom, if_neg hmin]
  cases checkNeighbour previous (parentOf waiting) (next, p) with
  | error e => exact resume_error waiting e
  | ok _ =>
    change _ = resume (⟨tree, next, p⟩ :: waiting)
      (parseFrom (rightMin p) (some (next, p)) none (.operand (next + 1)) (next + 1) rest)
    cases parseFrom (rightMin p) (some (next, p)) none (.operand (next + 1)) (next + 1) rest with
    | error e => exact (resume_error waiting e).trans (resume_error _ e).symm
    | ok right =>
      rw [resume]
      dsimp only [Waiting.place]
      cases parseFrom (minOf waiting) (parentOf waiting) (some (next, p)) (.node tree next right.tree) right.next
          right.rest with
      | error e => exact (resume_error waiting e).trans (resume_error waiting e).symm
      | ok all => cases waiting <;> rfl

/-! ### Neighbours -/

theorem filter_level_none {o : Option (Nat × Precedence)} (h : ∀ q ∈ o, q.2.level ≠ p.level) :
    o.filter (fun q => q.2.level == p.level) = none := by
  cases o with
  | none => rfl
  | some q => simpa using h q rfl

theorem filter_level_some {q : Nat × Precedence} (h : q.2.level = p.level) :
    (some q).filter (fun q => q.2.level == p.level) = some q := by
  simp [Option.filter, h]

theorem checkNeighbour_of_ne {parent : Option (Nat × Precedence)} (hprevious : ∀ q ∈ previous, q.2.level ≠ p.level)
    (hparent : ∀ q ∈ parent, q.2.level ≠ p.level) : checkNeighbour previous parent (next, p) = .ok () := by
  simp only [checkNeighbour, filter_level_none hprevious, filter_level_none hparent, Option.or]

theorem checkNeighbour_previous {parent : Option (Nat × Precedence)} {q : Nat × Precedence}
    (h : q.2.level = p.level) : checkNeighbour (some q) parent (next, p) = check q (next, p) := by
  simp only [checkNeighbour, filter_level_some h, Option.or]

theorem checkNeighbour_parent {q : Nat × Precedence} (hprevious : ∀ q ∈ previous, q.2.level ≠ p.level)
    (h : q.2.level = p.level) : checkNeighbour previous (some q) (next, p) = check q (next, p) := by
  simp only [checkNeighbour, filter_level_none hprevious, filter_level_some h, Option.or]

/-- What waits inside of other operators binds tighter than it has to there. -/
theorem Nested.minOf_lt (h : Nested (w :: ws)) : minOf ws < w.precedence.level := by
  cases ws with
  | nil => simp [minOf]; omega
  | cons v ws =>
    have hright := (nested_cons.1 h).1 v rfl
    unfold Precedence.GroupsRightOf at hright
    simp only [minOf, rightMin]
    split <;> grind

/-! ### The stack -/

/-- An operator completes, by ending calls, what it completes on the stack. -/
theorem proceed_eq_push (hnested : Nested waiting) (hprevious : ∀ q ∈ previous, q.2.level ≠ p.level) :
    proceed waiting previous tree next (p :: rest) =
      match push next p waiting tree with
      | .ok waiting' => proceed waiting' none (.operand (next + 1)) (next + 1) rest
      | .error e => .error e := by
  induction waiting generalizing previous tree with
  | nil =>
    rw [proceed_descend (by simp [minOf]; omega), checkNeighbour_of_ne hprevious (by simp [parentOf])]
    rfl
  | cons w ws ih =>
    have hws := (nested_cons.1 hnested).2
    have hmin := hnested.minOf_lt
    have hstays : ¬ p.level < w.precedence.level → complete p.level (w :: ws) tree = (w :: ws, tree) :=
      fun hlt => by rw [complete, if_neg hlt]
    obtain hlt | heq | hgt := Nat.lt_trichotomy p.level w.precedence.level
    · have hbreak : p.level ≤ minOf (w :: ws) := by
        simp only [minOf, rightMin]
        split <;> omega
      rw [proceed_break hbreak, ih hws (by simp [Waiting.place]; omega), push, push, complete, if_pos hlt]
    · rw [push, hstays (by omega)]
      dsimp only
      rw [if_pos heq.symm]
      -- Of two operators of one level the earlier is completed unless it associates to the right.
      cases hw : w.precedence.associativity with
      | right =>
        have hstay : ¬ p.level ≤ minOf (w :: ws) := by
          simp only [minOf, rightMin, hw]
          omega
        rw [proceed_descend hstay, parentOf, List.head?_cons, Option.map_some,
          checkNeighbour_parent hprevious heq.symm]
        cases hp : p.associativity <;> simp [check, Waiting.place, hw, hp]
      | left | non =>
        have hbreak : p.level ≤ minOf (w :: ws) := by
          simp only [minOf, rightMin, hw]
          omega
        rw [proceed_break hbreak, proceed_descend (by omega), checkNeighbour_previous heq.symm]
        cases hp : p.associativity <;> simp [check, Waiting.place, hw, hp]
    · have hstay : ¬ p.level ≤ minOf (w :: ws) := by
        simp only [minOf, rightMin]
        split <;> omega
      rw [proceed_descend hstay, checkNeighbour_of_ne hprevious (by simp [parentOf, Waiting.place]; omega), push,
        hstays (by omega)]
      dsimp only
      rw [if_neg (by omega)]

theorem Nested.push {waiting' : List Waiting} (h : Nested waiting) (hpush : push next p waiting tree = .ok waiting') :
    Nested waiting' := by
  obtain ⟨done, rest, rfl, rfl, -, hrest⟩ := push_ok h hpush
  exact nested_cons.2 ⟨hrest, h.of_append⟩

theorem proceed_eq_read (h : Nested waiting) (next : Nat) (operators : List Precedence) :
    proceed waiting none (.operand next) next operators = read next waiting operators := by
  induction operators generalizing waiting next with
  | nil => exact proceed_nil waiting none (.operand next) next
  | cons p rest ih =>
    rw [proceed_eq_push h (by simp), read]
    cases hpush : OperatorChain.push next p waiting (.operand next) with
    | ok waiting' => exact ih (h.push hpush) (next + 1)
    | error e => rfl

/-- The parser that descends and the stack build the same trees and refuse the same chains. -/
theorem parse_eq_group (operators : List Precedence) : parse operators = group operators := by
  rw [group, ← proceed_eq_read List.IsChain.nil, proceed, parse]
  change _ = resume [] (parseFrom (-1) none none (.operand 0) 0 operators)
  cases parseFrom (-1) none none (.operand 0) 0 operators <;> rfl

end OperatorChain

end ElmInference
