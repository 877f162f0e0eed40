import Mathlib.Data.List.Chain
import ElmInference.Infer.Expr

/-!
# The tree of an operator chain

Grouping a chain keeps its operands and operators in their order and puts each operator under one that binds weaker, or
equally and to the same side. No other tree does both: an operator of a tree is outbound by everything below it, so two
trees of one chain with different roots would have to associate to the left and to the right at once.

Everything about the stack of waiting operators is said here once, by `complete_append`, `push_ok` and `push_error`; what
waits is a tree with holes, and reading a chain never loses what has been read.
-/

namespace ElmInference

inductive ChainItem where
  | operand (index : Nat)
  | operator (index : Nat)
deriving DecidableEq

/-- A chain of so many operators, from operand `next` on: operands and operators take turns. -/
def ChainItem.chain (next : Nat) : Nat → List ChainItem
  | 0 => [.operand next]
  | n + 1 => .operand next :: .operator next :: chain (next + 1) n

namespace Precedence

/-- Whether an operator may be at the root of the left operand of another one. -/
def GroupsLeftOf (p q : Precedence) : Prop :=
  q.level < p.level ∨ p.level = q.level ∧ p.associativity = .left ∧ q.associativity = .left

/-- Whether an operator may be at the root of the right operand of another one. -/
def GroupsRightOf (p q : Precedence) : Prop :=
  q.level < p.level ∨ p.level = q.level ∧ p.associativity = .right ∧ q.associativity = .right

variable {p q r : Precedence}

theorem GroupsLeftOf.trans (hpq : p.GroupsLeftOf q) (hqr : q.GroupsLeftOf r) : p.GroupsLeftOf r := by
  unfold GroupsLeftOf at *
  grind

theorem GroupsRightOf.trans (hpq : p.GroupsRightOf q) (hqr : q.GroupsRightOf r) : p.GroupsRightOf r := by
  unfold GroupsRightOf at *
  grind

/-- Equals that associate to the left are not found below the right operand of one of them. -/
theorem GroupsRightOf.of_left (hpq : p.GroupsLeftOf q) (hqr : q.GroupsRightOf r) : p.GroupsRightOf r := by
  unfold GroupsLeftOf GroupsRightOf at *
  grind

theorem GroupsLeftOf.of_right (hpq : p.GroupsRightOf q) (hqr : q.GroupsLeftOf r) : p.GroupsLeftOf r := by
  unfold GroupsLeftOf GroupsRightOf at *
  grind

theorem not_groupsLeftOf_of_groupsRightOf (hpq : p.GroupsRightOf q) : ¬ q.GroupsLeftOf p := by
  unfold GroupsLeftOf GroupsRightOf at *
  grind

/-- Whether two neighbours of one level disagree on how they group. -/
def Clashes (p q : Precedence) : Prop :=
  p.associativity ≠ q.associativity ∨ p.associativity = .non ∧ q.associativity = .non

def clash (p q : Precedence) (i j : Nat) : ChainError :=
  if p.associativity = .non ∧ q.associativity = .non then .nonAssociative j else .mixedAssociativity i j

end Precedence

namespace OperatorTree

def inorder : OperatorTree → List ChainItem
  | .operand index => [.operand index]
  | .node left operator right => left.inorder ++ .operator operator :: right.inorder

def root? : OperatorTree → Option Nat
  | .operand _ => none
  | .node _ operator _ => some operator

def FitsLeftOf (operators : List Precedence) (t : OperatorTree) (o : Nat) : Prop :=
  ∀ i, t.root? = some i →
    ∃ p q, operators[i]? = some p ∧ operators[o]? = some q ∧ p.GroupsLeftOf q

def FitsRightOf (operators : List Precedence) (t : OperatorTree) (o : Nat) : Prop :=
  ∀ i, t.root? = some i →
    ∃ p q, operators[i]? = some p ∧ operators[o]? = some q ∧ p.GroupsRightOf q

def Respects (operators : List Precedence) : OperatorTree → Prop
  | .operand _ => True
  | .node left o right =>
    left.FitsLeftOf operators o ∧ right.FitsRightOf operators o ∧ left.Respects operators ∧ right.Respects operators

variable {operators : List Precedence} {t u l r : OperatorTree} {o i : Nat}

theorem inorder_ne_nil (t : OperatorTree) : t.inorder ≠ [] := by
  cases t <;> simp [inorder]

/-! ### Only one tree

What is below an operator groups with it as its operand does, at any depth. -/

/-- All operators of a tree group with an operator of which it may be the operand. -/
theorem Respects.groups (ht : t.Respects operators) :
    (t.FitsLeftOf operators o → ∀ i, .operator i ∈ t.inorder →
      ∃ p q, operators[i]? = some p ∧ operators[o]? = some q ∧ p.GroupsLeftOf q) ∧
    (t.FitsRightOf operators o → ∀ i, .operator i ∈ t.inorder →
      ∃ p q, operators[i]? = some p ∧ operators[o]? = some q ∧ p.GroupsRightOf q) := by
  induction t generalizing o with
  | operand index => simp [inorder]
  | node left root right ihl ihr =>
    obtain ⟨hfl, hfr, hl, hr⟩ := ht
    have hbelow : ∀ i, ChainItem.operator i ∈ (OperatorTree.node left root right).inorder → i = root ∨
        (∃ p q, operators[i]? = some p ∧ operators[root]? = some q ∧ p.GroupsLeftOf q) ∨
        ∃ p q, operators[i]? = some p ∧ operators[root]? = some q ∧ p.GroupsRightOf q := by
      intro i hi
      simp only [inorder, List.mem_append, List.mem_cons, ChainItem.operator.injEq] at hi
      obtain hi | rfl | hi := hi
      · exact .inr (.inl ((ihl hl).1 hfl i hi))
      · exact .inl rfl
      · exact .inr (.inr ((ihr hr).2 hfr i hi))
    constructor
    · intro hfits i hi
      obtain ⟨p, q, hp, hq, hpq⟩ := hfits root rfl
      obtain rfl | ⟨p', q', hp', hq', hpq'⟩ | ⟨p', q', hp', hq', hpq'⟩ := hbelow i hi
      · exact ⟨p, q, hp, hq, hpq⟩
      · obtain rfl : q' = p := by simpa [hp] using hq'.symm
        exact ⟨p', q, hp', hq, hpq'.trans hpq⟩
      · obtain rfl : q' = p := by simpa [hp] using hq'.symm
        exact ⟨p', q, hp', hq, .of_right hpq' hpq⟩
    · intro hfits i hi
      obtain ⟨p, q, hp, hq, hpq⟩ := hfits root rfl
      obtain rfl | ⟨p', q', hp', hq', hpq'⟩ | ⟨p', q', hp', hq', hpq'⟩ := hbelow i hi
      · exact ⟨p, q, hp, hq, hpq⟩
      · obtain rfl : q' = p := by simpa [hp] using hq'.symm
        exact ⟨p', q, hp', hq, .of_left hpq' hpq⟩
      · obtain rfl : q' = p := by simpa [hp] using hq'.symm
        exact ⟨p', q, hp', hq, hpq'.trans hpq⟩

/-- An operator cannot be the root while another one to its right is. -/
theorem not_left_and_right {l' r' : OperatorTree} {o' : Nat} (ht : (node l o r).Respects operators)
    (ht' : (node l' o' r').Respects operators) (hright : .operator o' ∈ r.inorder)
    (hleft : .operator o ∈ l'.inorder) : False := by
  obtain ⟨-, hfr, -, hr⟩ := ht
  obtain ⟨hfl, -, hl, -⟩ := ht'
  obtain ⟨p, q, hp, hq, hpq⟩ := hr.groups.2 hfr o' hright
  obtain ⟨q', p', hq', hp', hqp⟩ := hl.groups.1 hfl o hleft
  obtain rfl : p' = p := by simpa [hp] using hp'.symm
  obtain rfl : q' = q := by simpa [hq] using hq'.symm
  exact Precedence.not_groupsLeftOf_of_groupsRightOf hpq hqp

theorem inorder_node_ne_operand (l r : OperatorTree) (o index : Nat) :
    (node l o r).inorder ≠ (operand index).inorder := by
  intro hsame
  have hlength := congrArg List.length hsame
  have hpos := List.length_pos_iff.2 l.inorder_ne_nil
  simp only [inorder, List.length_append, List.length_cons, List.length_nil] at hlength
  omega

/-- Trees of one chain that respect its precedences are equal. -/
theorem Respects.unique (ht : t.Respects operators) (hu : u.Respects operators)
    (hsame : t.inorder = u.inorder) : t = u := by
  induction t generalizing u with
  | operand index =>
    cases u with
    | operand index' => simpa [inorder] using hsame
    | node l' o' r' => exact (inorder_node_ne_operand l' r' o' index hsame.symm).elim
  | node l o r ihl ihr =>
    cases u with
    | operand index' => exact (inorder_node_ne_operand l r o index' hsame).elim
    | node l' o' r' =>
      simp only [inorder] at hsame
      -- The two chains are cut at their roots, so either both at one place or one before the other.
      obtain ⟨mid, hl', hr⟩ | ⟨mid, hl, hr'⟩ := List.append_eq_append_iff.1 hsame
      · cases mid with
        | nil =>
          obtain ⟨rfl, hrs⟩ : o = o' ∧ r.inorder = r'.inorder := by simpa using hr
          rw [ihl ht.2.2.1 hu.2.2.1 (by simpa using hl'.symm), ihr ht.2.2.2 hu.2.2.2 hrs]
        | cons item mid =>
          obtain ⟨rfl, hrs⟩ : .operator o = item ∧ r.inorder = mid ++ .operator o' :: r'.inorder := by
            simpa using hr
          exact (not_left_and_right ht hu (by simp [hrs]) (by simp [hl'])).elim
      · cases mid with
        | nil =>
          obtain ⟨rfl, hrs⟩ : o' = o ∧ r'.inorder = r.inorder := by simpa using hr'
          rw [ihl ht.2.2.1 hu.2.2.1 (by simpa using hl), ihr ht.2.2.2 hu.2.2.2 hrs.symm]
        | cons item mid =>
          obtain ⟨rfl, hrs⟩ : .operator o' = item ∧ r'.inorder = mid ++ .operator o :: r.inorder := by
            simpa using hr'
          exact (not_left_and_right hu ht (by simp [hrs]) (by simp [hl])).elim

end OperatorTree

namespace OperatorChain

open OperatorTree

variable {operators : List Precedence} {level next operator : Nat} {p : Precedence}
  {waiting ws : List Waiting} {tree left t : OperatorTree}

/-! ### What pushing an operator does -/

theorem complete_append (level : Nat) (waiting : List Waiting) (tree : OperatorTree) :
    ∃ done, waiting = done ++ (complete level waiting tree).1 ∧
      (complete level waiting tree).2 = completeAll done tree ∧
      (∀ w ∈ done, level < w.precedence.level) ∧
      ∀ w ∈ (complete level waiting tree).1.head?, w.precedence.level ≤ level := by
  induction waiting generalizing tree with
  | nil => exact ⟨[], rfl, rfl, by simp, by simp [complete]⟩
  | cons w waiting ih =>
    rw [complete]
    split
    case isTrue htighter =>
      obtain ⟨done, hsplit, htree, hdone, hhead⟩ := ih (.node w.left w.operator tree)
      refine ⟨w :: done, by simpa using hsplit, htree, ?_, hhead⟩
      simpa [htighter] using hdone
    case isFalse htighter => exact ⟨[], rfl, rfl, by simp, by simpa using htighter⟩

theorem completeAll_append (done rest : List Waiting) (tree : OperatorTree) :
    completeAll (done ++ rest) tree = completeAll rest (completeAll done tree) := by
  induction done generalizing tree with
  | nil => rfl
  | cons w done ih => exact ih _

def Nested (waiting : List Waiting) : Prop :=
  waiting.IsChain (fun w v => w.precedence.GroupsRightOf v.precedence)

theorem nested_cons {w : Waiting} :
    Nested (w :: ws) ↔ (∀ v ∈ ws.head?, w.precedence.GroupsRightOf v.precedence) ∧ Nested ws := by
  cases ws <;> simp [Nested]

theorem Nested.of_append {done : List Waiting} (h : Nested (done ++ ws)) : Nested ws :=
  (List.isChain_append.1 h).2.1

/-- A new operator takes over what it outbinds as its left operand, and waits inside of what is left. -/
theorem push_ok {waiting' : List Waiting} (hnested : Nested waiting)
    (h : push operator p waiting tree = .ok waiting') :
    ∃ done rest, waiting = done ++ rest ∧ waiting' = ⟨completeAll done tree, operator, p⟩ :: rest ∧
      (∀ w ∈ done, w.precedence.GroupsLeftOf p) ∧ ∀ w ∈ rest.head?, p.GroupsRightOf w.precedence := by
  obtain ⟨done, hsplit, htree, hdone, hhead⟩ := complete_append p.level waiting tree
  unfold push at h
  generalize complete p.level waiting tree = completed at *
  obtain ⟨rest, left⟩ := completed
  subst htree
  have hgroups : ∀ w ∈ done, w.precedence.GroupsLeftOf p := fun w hw => .inl (hdone w hw)
  cases rest with
  | nil => exact ⟨done, [], hsplit, by simpa using h.symm, hgroups, by simp⟩
  | cons w outer =>
    have hle : w.precedence.level ≤ p.level := hhead w rfl
    simp only at h
    split at h
    case isTrue hlevel =>
      split at h
      case h_1 hw hp =>
        -- The equal operator is completed too. What it waits in binds weaker, since equals there associate to the right.
        have hself : w.precedence.GroupsLeftOf p := .inr ⟨hlevel, hw, hp⟩
        refine ⟨done ++ [w], outer, by simpa using hsplit, by simpa [completeAll_append, completeAll] using h.symm, ?_, ?_⟩
        · simpa [or_imp, forall_and] using ⟨hgroups, hself⟩
        · intro v hv
          obtain hlt | ⟨-, hright, -⟩ := (nested_cons.1 (hsplit ▸ hnested).of_append).1 v hv
          · exact .inl (hlevel ▸ hlt)
          · simp [hw] at hright
      case h_2 hw hp =>
        have hself : p.GroupsRightOf w.precedence := .inr ⟨hlevel.symm, hp, hw⟩
        exact ⟨done, w :: outer, hsplit, by simpa using h.symm, hgroups, by simpa using hself⟩
      all_goals cases h
    case isFalse hlevel =>
      have hself : p.GroupsRightOf w.precedence := .inl (Nat.lt_of_le_of_ne hle hlevel)
      exact ⟨done, w :: outer, hsplit, by simpa using h.symm, hgroups, by simpa using hself⟩

/-- An operator is refused for the innermost waiting one that it does not outbind or is outbound by. -/
theorem push_error {e : ChainError} (h : push operator p waiting tree = .error e) :
    ∃ done w rest, waiting = done ++ w :: rest ∧ (∀ v ∈ done, p.level < v.precedence.level) ∧
      w.precedence.level = p.level ∧ w.precedence.Clashes p ∧
      e = w.precedence.clash p w.operator operator := by
  obtain ⟨done, hsplit, htree, hdone, -⟩ := complete_append p.level waiting tree
  unfold push at h
  generalize complete p.level waiting tree = completed at *
  obtain ⟨rest, left⟩ := completed
  cases rest with
  | nil => cases h
  | cons w outer =>
    simp only at h
    split at h
    case isTrue hlevel =>
      refine ⟨done, w, outer, hsplit, hdone, hlevel, ?_⟩
      split at h
      case h_1 => cases h
      case h_2 => cases h
      case h_3 hw hp => simp_all [Precedence.Clashes, Precedence.clash]
      case h_4 hll hrr hnn =>
        cases h
        revert hll hrr hnn
        unfold Precedence.Clashes Precedence.clash
        cases w.precedence.associativity <;> cases p.associativity <;> simp
    case isFalse => cases h

/-! ### What the waiting operators hold -/

/-- What has been read of a chain, from the first item to the last waiting operator. -/
def items : List Waiting → List ChainItem
  | [] => []
  | w :: outer => items outer ++ (w.left.inorder ++ [.operator w.operator])

theorem items_append (done rest : List Waiting) : items (done ++ rest) = items rest ++ items done := by
  induction done with
  | nil => simp [items]
  | cons w done ih => simp [items, ih]

theorem inorder_completeAll (done : List Waiting) (tree : OperatorTree) :
    (completeAll done tree).inorder = items done ++ tree.inorder := by
  induction done generalizing tree with
  | nil => simp [completeAll, items]
  | cons w done ih => simp [completeAll, items, inorder, ih]

theorem root?_completeAll {done : List Waiting} {i : Nat} (h : (completeAll done tree).root? = some i) :
    (∃ w ∈ done, w.operator = i) ∨ tree.root? = some i := by
  induction done generalizing tree with
  | nil => exact .inr h
  | cons w done ih =>
    obtain ⟨v, hv, rfl⟩ | hroot := ih h
    · exact .inl ⟨v, List.mem_cons_of_mem w hv, rfl⟩
    · exact .inl ⟨w, List.mem_cons_self, by simpa [root?] using hroot⟩

/-- Waiting operators that can be completed in any way that their right operands allow. -/
structure Ready (operators : List Precedence) (waiting : List Waiting) : Prop where
  known : ∀ w ∈ waiting, operators[w.operator]? = some w.precedence
  fits : ∀ w ∈ waiting, w.left.FitsLeftOf operators w.operator
  respects : ∀ w ∈ waiting, w.left.Respects operators
  nested : Nested waiting

namespace Ready

theorem nil : Ready operators [] :=
  ⟨by simp, by simp, by simp, .nil⟩

theorem cons {w : Waiting} (hknown : operators[w.operator]? = some w.precedence)
    (hfits : w.left.FitsLeftOf operators w.operator) (hrespects : w.left.Respects operators)
    (hinner : ∀ v ∈ ws.head?, w.precedence.GroupsRightOf v.precedence) (h : Ready operators ws) :
    Ready operators (w :: ws) :=
  ⟨by simpa using ⟨hknown, h.known⟩, by simpa using ⟨hfits, h.fits⟩, by simpa using ⟨hrespects, h.respects⟩,
    nested_cons.2 ⟨hinner, h.nested⟩⟩

theorem tail {w : Waiting} (h : Ready operators (w :: ws)) : Ready operators ws :=
  ⟨fun v hv => h.known v (List.mem_cons_of_mem w hv), fun v hv => h.fits v (List.mem_cons_of_mem w hv),
    fun v hv => h.respects v (List.mem_cons_of_mem w hv), (nested_cons.1 h.nested).2⟩

theorem of_append {done : List Waiting} (h : Ready operators (done ++ ws)) : Ready operators ws :=
  ⟨fun v hv => h.known v (List.mem_append_right done hv), fun v hv => h.fits v (List.mem_append_right done hv),
    fun v hv => h.respects v (List.mem_append_right done hv), h.nested.of_append⟩

/-- Completing operators gives a tree that fits into what still waits. -/
theorem completeAll {done rest : List Waiting} (h : Ready operators (done ++ rest)) (htree : tree.Respects operators)
    (hfits : ∀ w ∈ (done ++ rest).head?, tree.FitsRightOf operators w.operator) :
    (completeAll done tree).Respects operators ∧
      ∀ w ∈ rest.head?, (OperatorChain.completeAll done tree).FitsRightOf operators w.operator := by
  induction done generalizing tree with
  | nil => exact ⟨htree, hfits⟩
  | cons w done ih =>
    have hw : w ∈ (w :: done) ++ rest := by simp
    refine ih h.tail ⟨h.fits w hw, hfits w (by simp), h.respects w hw, htree⟩ ?_
    intro v hv i hi
    obtain rfl : w.operator = i := by simpa [root?] using hi
    exact ⟨w.precedence, v.precedence, h.known w hw, h.known v (by simp [List.mem_of_mem_head? hv]),
      (nested_cons.1 h.nested).1 v hv⟩

/-- Pushing an operator keeps what waits ready and appends to what has been read. -/
theorem push {waiting' : List Waiting} (h : Ready operators waiting) (hp : operators[operator]? = some p)
    (hpush : push operator p waiting (.operand next) = .ok waiting') :
    Ready operators waiting' ∧ items waiting' = items waiting ++ [.operand next, .operator operator] := by
  obtain ⟨done, rest, rfl, rfl, hdone, hrest⟩ := push_ok h.nested hpush
  have hoperand : (OperatorTree.operand next).Respects operators := trivial
  obtain ⟨hrespects, -⟩ := h.completeAll hoperand (by simp [FitsRightOf, root?])
  refine ⟨.cons hp ?_ hrespects hrest h.of_append, ?_⟩
  · intro i hi
    obtain ⟨w, hw, rfl⟩ | hroot := root?_completeAll hi
    · exact ⟨w.precedence, p, h.known w (List.mem_append_left rest hw), hp, hdone w hw⟩
    · cases hroot
  · simp [items, items_append, inorder_completeAll, inorder]

end Ready

/-- What is still to be read starts with the next operator. -/
theorem next_of_drop {rest : List Precedence} (h : operators.drop next = p :: rest) :
    operators[next]? = some p ∧ operators.drop (next + 1) = rest := by
  constructor
  · rw [← List.head?_drop, h, List.head?_cons]
  · rw [← List.tail_drop, h, List.tail_cons]

/-- Reading the rest of a chain completes what waits with all of it. -/
theorem read_ok {rest : List Precedence} (hwaiting : Ready operators waiting) (hrest : operators.drop next = rest)
    (h : read next waiting rest = .ok t) :
    t.inorder = items waiting ++ ChainItem.chain next rest.length ∧ t.Respects operators := by
  induction rest generalizing next waiting with
  | nil =>
    obtain rfl : completeAll waiting (.operand next) = t := by simpa [read] using h
    have hall : Ready operators (waiting ++ []) := by simpa using hwaiting
    have hoperand : (OperatorTree.operand next).Respects operators := trivial
    exact ⟨by simp [inorder_completeAll, inorder, ChainItem.chain],
      (hall.completeAll hoperand (by simp [FitsRightOf, root?])).1⟩
  | cons p rest ih =>
    obtain ⟨hp, hdrop⟩ := next_of_drop hrest
    rw [read] at h
    split at h
    case h_1 waiting' hpush =>
      obtain ⟨hready, hitems⟩ := hwaiting.push hp hpush
      obtain ⟨hinorder, hrespects⟩ := ih hready hdrop h
      exact ⟨by simp [hinorder, hitems, ChainItem.chain], hrespects⟩
    case h_2 => cases h

end OperatorChain

namespace InferM

open OperatorTree

/-- Applying a tree asks only for the operands and functions that it names. -/
theorem applyTree_append {operands : List (Nat × Ty)} {functions : List Ty} (extra : List (Nat × Ty)) (more : List Ty)
    {t : OperatorTree} (hoperands : ∀ i, .operand i ∈ t.inorder → i < operands.length)
    (hfunctions : ∀ o, .operator o ∈ t.inorder → o < functions.length) :
    applyTree (operands ++ extra) (functions ++ more) t = applyTree operands functions t := by
  induction t with
  | operand index =>
    have hindex : index < operands.length := hoperands index (by simp [inorder])
    simp [applyTree, List.getElem?_append_left hindex]
  | node left o right ihl ihr =>
    have ho : o < functions.length := hfunctions o (by simp [inorder])
    simp only [applyTree, List.getElem?_append_left ho]
    rw [ihl (fun i hi => hoperands i (by simp [inorder, hi])) (fun o ho => hfunctions o (by simp [inorder, ho])),
      ihr (fun i hi => hoperands i (by simp [inorder, hi])) (fun o ho => hfunctions o (by simp [inorder, ho]))]

end InferM

theorem ChainItem.operand_mem_chain {next n i : Nat} (h : .operand i ∈ chain next n) : i < next + n + 1 := by
  induction n generalizing next with
  | zero =>
    obtain rfl : i = next := by simpa [chain] using h
    omega
  | succ n ih =>
    simp only [chain, List.mem_cons, ChainItem.operand.injEq, reduceCtorEq, false_or] at h
    obtain rfl | h := h
    · omega
    · have := ih h
      omega

theorem ChainItem.operator_mem_chain {next n o : Nat} (h : .operator o ∈ chain next n) : o < next + n := by
  induction n generalizing next with
  | zero => simp [chain] at h
  | succ n ih =>
    simp only [chain, List.mem_cons, ChainItem.operator.injEq, reduceCtorEq, false_or] at h
    obtain rfl | h := h
    · omega
    · have := ih h
      omega

namespace OperatorChain

open OperatorTree

/-- Grouping a chain yields the one tree that has its operands and operators in order and respects its precedences. When
there is one operand more than operators, all that the tree names is there. -/
theorem group_is_only_tree_that_respects (operators : List Precedence) (t : OperatorTree)
    (h : group operators = .ok t) :
    t.inorder = ChainItem.chain 0 operators.length ∧ t.Respects operators ∧
      (∀ u : OperatorTree, u.inorder = ChainItem.chain 0 operators.length → u.Respects operators → u = t) ∧
      (∀ i, .operand i ∈ t.inorder → i < operators.length + 1) ∧
      (∀ o, .operator o ∈ t.inorder → o < operators.length) ∧
      ∀ (operands extra : List (Nat × Ty)) (functions more : List Ty),
        operands.length = functions.length + 1 → functions.length = operators.length →
        InferM.applyTree (operands ++ extra) (functions ++ more) t = InferM.applyTree operands functions t := by
  obtain ⟨hinorder, hrespects⟩ := read_ok Ready.nil (List.drop_zero) h
  have hoperands : ∀ i, .operand i ∈ t.inorder → i < operators.length + 1 := fun i hi => by
    have := ChainItem.operand_mem_chain (hinorder ▸ hi)
    omega
  have hoperators : ∀ o, .operator o ∈ t.inorder → o < operators.length := fun o ho => by
    have := ChainItem.operator_mem_chain (hinorder ▸ ho)
    omega
  refine ⟨hinorder, hrespects, ?_, hoperands, hoperators, ?_⟩
  · intro u hu hru
    exact hru.unique hrespects (hu.trans hinorder.symm)
  · intro operands extra functions more hlength hfunctions
    exact InferM.applyTree_append extra more (fun i hi => by simpa [hlength, hfunctions] using hoperands i hi)
      (fun o ho => by simpa [hfunctions] using hoperators o ho)

/-- `a + b * c ^ d ^ e == f`, where powers associate to the right and comparisons do not associate. -/
theorem group_is_only_tree_that_respects_of_comparison :
    let operators : List Precedence := [⟨6, .left⟩, ⟨7, .left⟩, ⟨8, .right⟩, ⟨8, .right⟩, ⟨4, .non⟩]
    let power : OperatorTree := .node (.operand 2) 2 (.node (.operand 3) 3 (.operand 4))
    let t : OperatorTree := .node (.node (.operand 0) 0 (.node (.operand 1) 1 power)) 4 (.operand 5)
    group operators = .ok t ∧ t.inorder = ChainItem.chain 0 5 ∧
      ∀ u : OperatorTree, u.inorder = ChainItem.chain 0 5 → u.Respects operators → u = t := by
  intro operators power t
  have hgroup : group operators = .ok t := by decide
  obtain ⟨hinorder, -, hunique, -⟩ := group_is_only_tree_that_respects operators t hgroup
  exact ⟨hgroup, hinorder, hunique⟩

end OperatorChain

end ElmInference
