import ElmInference.Proofs.Operators.Grouping

/-!
# Operators that cannot be neighbours

A chain cannot be grouped when two operators of one level, with nothing but tighter operators between them, do not agree
on a side. An operator is compared with at most one waiting operator, and that is enough: every operator that has been
read is waiting, or a later one that binds no tighter is. So the waiting operator that a new one meets at its own level
is its neighbour, and a neighbour is never hidden.
-/

namespace ElmInference

namespace OperatorChain

/-- Two operators of one level with only tighter operators between them. -/
def Adjacent (operators : List Precedence) (i j : Nat) : Prop :=
  i < j ∧ ∃ p q, operators[i]? = some p ∧ operators[j]? = some q ∧ p.level = q.level ∧
    ∀ k r, i < k → k < j → operators[k]? = some r → p.level < r.level

def Conflict (operators : List Precedence) (i j : Nat) : Prop :=
  Adjacent operators i j ∧ ∃ p q, operators[i]? = some p ∧ operators[j]? = some q ∧ p.Clashes q

variable {operators : List Precedence} {next i i' j : Nat} {p : Precedence} {waiting : List Waiting}
  {tree : OperatorTree}

theorem Adjacent.unique (h : Adjacent operators i j) (h' : Adjacent operators i' j) : i = i' := by
  obtain ⟨hij, p, q, hp, hq, hlevel, hbetween⟩ := h
  obtain ⟨hij', p', q', hp', hq', hlevel', hbetween'⟩ := h'
  obtain rfl : q' = q := by simpa [hq] using hq'.symm
  obtain hlt | rfl | hgt := Nat.lt_trichotomy i i'
  · have := hbetween i' p' hlt hij' hp'
    omega
  · rfl
  · have := hbetween' i p hgt hij hp
    omega

/-- What waits stands for all that has been read: an operator is waiting, or a later one that binds no tighter is. -/
structure Covers (operators : List Precedence) (next : Nat) (waiting : List Waiting) : Prop where
  read : ∀ w ∈ waiting, w.operator < next
  sorted : waiting.Pairwise (fun w v => v.operator < w.operator)
  hides : ∀ k r, k < next → operators[k]? = some r →
    ∃ w ∈ waiting, k ≤ w.operator ∧ w.precedence.level ≤ r.level

/-- A neighbour of the next operator is waiting. -/
theorem Covers.exists_of_adjacent (h : Covers operators next waiting) (hready : Ready operators waiting)
    (hadjacent : Adjacent operators i next) : ∃ w ∈ waiting, w.operator = i := by
  obtain ⟨hlt, p, q, hp, hq, hlevel, hbetween⟩ := hadjacent
  obtain ⟨w, hw, hle, hbinds⟩ := h.hides i p hlt hp
  obtain hhidden | rfl := Nat.lt_or_eq_of_le hle
  · have := hbetween w.operator w.precedence hhidden (h.read w hw) (hready.known w hw)
    omega
  · exact ⟨w, hw, rfl⟩

/-- An operator that is let in has no conflict with an earlier one, and what waits then covers it too. -/
theorem Covers.push {waiting' : List Waiting} (h : Covers operators next waiting) (hready : Ready operators waiting)
    (hp : operators[next]? = some p) (hpush : push next p waiting tree = .ok waiting') :
    Covers operators (next + 1) waiting' ∧ ∀ i, ¬ Conflict operators i next := by
  obtain ⟨done, rest, rfl, rfl, hdone, hrest⟩ := push_ok hready.nested hpush
  have hsorted := List.pairwise_append.1 h.sorted
  refine ⟨⟨?_, ?_, ?_⟩, ?_⟩
  · intro w hw
    obtain rfl | hw := List.mem_cons.1 hw
    · exact Nat.lt_succ_self next
    · exact Nat.lt_succ_of_lt (h.read w (List.mem_append_right done hw))
  · exact List.pairwise_cons.2 ⟨fun w hw => h.read w (List.mem_append_right done hw), hsorted.2.1⟩
  · intro k r hk hr
    obtain hk | rfl := Nat.lt_or_eq_of_le (Nat.le_of_lt_succ hk)
    · obtain ⟨w, hw, hle, hlevel⟩ := h.hides k r hk hr
      obtain hw | hw := List.mem_append.1 hw
      · -- What hid the operator has been taken over, by one that binds no tighter.
        refine ⟨_, List.mem_cons_self, Nat.le_of_lt hk, ?_⟩
        have := hdone w hw
        unfold Precedence.GroupsLeftOf at this
        dsimp only
        omega
      · exact ⟨w, List.mem_cons_of_mem _ hw, hle, hlevel⟩
    · obtain rfl : p = r := by simpa [hp] using hr
      exact ⟨_, List.mem_cons_self, Nat.le_refl k, Nat.le_refl p.level⟩
  · rintro i ⟨hadjacent, p', q, hp', hq, hclash⟩
    obtain rfl : q = p := by simpa [hp] using hq.symm
    obtain ⟨w, hw, rfl⟩ := h.exists_of_adjacent hready hadjacent
    obtain rfl : p' = w.precedence := by simpa [hready.known w hw] using hp'.symm
    obtain ⟨hlt, p', q', hp', hq', hlevel, hbetween⟩ := hadjacent
    obtain rfl : p' = w.precedence := by simpa [hready.known w hw] using hp'.symm
    obtain rfl : q' = q := by simpa [hp] using hq'.symm
    obtain hw | hw := List.mem_append.1 hw
    · have hleft := hdone w hw
      unfold Precedence.GroupsLeftOf at hleft
      unfold Precedence.Clashes at hclash
      grind
    · cases rest with
      | nil => cases hw
      | cons v outer =>
        have hright := hrest v rfl
        unfold Precedence.GroupsRightOf at hright
        obtain rfl | hw := List.mem_cons.1 hw
        · unfold Precedence.Clashes at hclash
          grind
        · -- An operator that is not met lies behind one that would have to bind tighter.
          have hv : v ∈ done ++ v :: outer := by simp
          have := hbetween v.operator v.precedence ((List.pairwise_cons.1 hsorted.2.1).1 w hw) (h.read v hv)
            (hready.known v hv)
          omega

/-- An operator that is refused has a conflict with the one that the refusal names. -/
theorem Covers.push_error {e : ChainError} (h : Covers operators next waiting) (hready : Ready operators waiting)
    (hp : operators[next]? = some p) (hpush : OperatorChain.push next p waiting tree = .error e) :
    ∃ i p', operators[i]? = some p' ∧ Conflict operators i next ∧ e = p'.clash p i next := by
  obtain ⟨done, w, rest, rfl, hdone, hlevel, hclash, rfl⟩ := OperatorChain.push_error hpush
  have hw : w ∈ done ++ w :: rest := by simp
  have hknown := hready.known w hw
  refine ⟨w.operator, w.precedence, hknown, ⟨⟨h.read w hw, ?_⟩, _, _, hknown, hp, hclash⟩, rfl⟩
  refine ⟨_, _, hknown, hp, hlevel, ?_⟩
  intro k r hwk hk hr
  obtain ⟨v, hv, hle, hbinds⟩ := h.hides k r hk hr
  -- What stands for an operator behind `w` is waiting inside of `w`, so it is tighter.
  obtain hv | hv := List.mem_append.1 hv
  · have := hdone v hv
    omega
  · obtain rfl | hv := List.mem_cons.1 hv
    · omega
    · have := (List.pairwise_cons.1 (List.pairwise_append.1 h.sorted).2.1).1 v hv
      omega

/-- Reading on finds the first conflict there is. -/
theorem Covers.read_rest {rest : List Precedence} (h : Covers operators next waiting)
    (hready : Ready operators waiting) (hrest : operators.drop next = rest)
    (hbefore : ∀ i j, Conflict operators i j → next ≤ j) :
    match OperatorChain.read next waiting rest with
    | .ok _ => ∀ i j, ¬ Conflict operators i j
    | .error e => ∃ i j p q, operators[i]? = some p ∧ operators[j]? = some q ∧ Conflict operators i j ∧
        (∀ i' j', Conflict operators i' j' → j ≤ j') ∧ e = p.clash q i j := by
  induction rest generalizing next waiting with
  | nil =>
    intro i j hconflict
    obtain ⟨p, q, -, hq, -⟩ := hconflict.2
    obtain ⟨hj, -⟩ := List.getElem?_eq_some_iff.1 hq
    have hlength : operators.length ≤ next := List.drop_eq_nil_iff.1 hrest
    have hnext := hbefore i j hconflict
    omega
  | cons p rest ih =>
    obtain ⟨hp, hdrop⟩ := next_of_drop hrest
    rw [OperatorChain.read]
    cases hpush : OperatorChain.push next p waiting (.operand next) with
    | ok waiting' =>
      obtain ⟨hcovers, hfree⟩ := h.push hready hp hpush
      refine ih hcovers (hready.push hp hpush).1 hdrop fun i j hconflict => ?_
      obtain hlt | rfl := Nat.lt_or_eq_of_le (hbefore i j hconflict)
      · exact hlt
      · exact (hfree i hconflict).elim
    | error e =>
      obtain ⟨i, p', hp', hconflict, he⟩ := h.push_error hready hp hpush
      exact ⟨i, next, p', p, hp', hp, hconflict, hbefore, he⟩

/-- A chain has no tree exactly when it has a conflict. The error is that of the first operator with a conflict and of
its only neighbour. -/
theorem group_fails_exactly_at_first_conflict (operators : List Precedence) :
    (∀ i i' j, Adjacent operators i j → Adjacent operators i' j → i = i') ∧
      ((∃ e, group operators = .error e) ↔ ∃ i j, Conflict operators i j) ∧
      ∀ i j p q, Conflict operators i j → (∀ i' j', Conflict operators i' j' → j ≤ j') →
        operators[i]? = some p → operators[j]? = some q →
        group operators = .error
          (if p.associativity = .non ∧ q.associativity = .non then .nonAssociative j else .mixedAssociativity i j) := by
  refine ⟨fun i i' j => Adjacent.unique, ?_⟩
  have hstart : Covers operators 0 [] := ⟨by simp, List.Pairwise.nil, by simp⟩
  have hrun := hstart.read_rest Ready.nil List.drop_zero (fun i j _ => Nat.zero_le j)
  change match group operators with | .ok _ => _ | .error e => _ at hrun
  cases hgroup : group operators with
  | ok t =>
    rw [hgroup] at hrun
    refine ⟨⟨?_, ?_⟩, ?_⟩
    · rintro ⟨e, he⟩
      cases he
    · rintro ⟨i, j, hconflict⟩
      exact (hrun i j hconflict).elim
    · intro i j p q hconflict
      exact (hrun i j hconflict).elim
  | error e =>
    rw [hgroup] at hrun
    obtain ⟨i, j, p, q, hp, hq, hconflict, hfirst, rfl⟩ := hrun
    refine ⟨⟨fun _ => ⟨i, j, hconflict⟩, fun _ => ⟨_, rfl⟩⟩, ?_⟩
    intro i' j' p' q' hconflict' hfirst' hp' hq'
    obtain rfl : j = j' := Nat.le_antisymm (hfirst i' j' hconflict') (hfirst' i j hconflict)
    obtain rfl : i = i' := hconflict.1.unique hconflict'.1
    obtain rfl : p = p' := by simpa [hp] using hp'
    obtain rfl : q = q' := by simpa [hq] using hq'
    rfl

-- The first and the last operator are neighbours across a tighter one.
example : group [⟨3, .right⟩, ⟨4, .left⟩, ⟨3, .left⟩] = .error (.mixedAssociativity 0 2) := by decide

end OperatorChain

end ElmInference
