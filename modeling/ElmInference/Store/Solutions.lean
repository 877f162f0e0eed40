import ElmInference.Assoc

/-!
# Variables and their solutions

A table of solutions hands out variables as consecutive numbers and solves each at most once. Asking
for a variable of another table, or solving one twice, is a fault: a mistake in the program rather
than in the types it works on. Faults also cover walks that would not end, which only a cyclic store
can cause.
-/

namespace ElmInference

/-- What goes wrong when a store is used against its rules. -/
inductive Fault where
  | foreignVariable (id : Nat)
  | alreadyBound (id : Nat)
  | missingRecord (id : Nat)
  /-- A walk ran out of the steps that an acyclic store allows. -/
  | diverged
deriving DecidableEq, Inhabited

def Fault.message? : Fault → Option String
  | .foreignVariable id =>
    some ("type variable VarId(" ++ toString id ++ ") belongs to another store")
  | .alreadyBound id => some ("type variable VarId(" ++ toString id ++ ") is already bound")
  | .missingRecord id => some ("record RecordId(" ++ toString id ++ ") not found")
  | .diverged => none

/-- Solutions of the variables handed out so far. -/
structure Solutions (α : Type) where
  entries : Array (Option α) := #[]
deriving Inhabited

namespace Solutions

variable {α : Type}

def size (s : Solutions α) : Nat := s.entries.size

def isEmpty (s : Solutions α) : Bool := s.entries.isEmpty

/-- The solution of a variable, when it has one. -/
def get (s : Solutions α) (id : Nat) : Except Fault (Option α) :=
  match s.entries[id]? with
  | some solution => .ok solution
  | none => .error (.foreignVariable id)

def fresh (s : Solutions α) : Nat × Solutions α :=
  (s.size, ⟨s.entries.push none⟩)

/-- Solves a variable that has no solution yet. -/
def set (s : Solutions α) (id : Nat) (value : α) : Except Fault (Solutions α) :=
  match s.entries[id]? with
  | none => .error (.foreignVariable id)
  | some (some _) => .error (.alreadyBound id)
  | some none => .ok ⟨s.entries.setIfInBounds id (some value)⟩

@[simp] theorem size_fresh (s : Solutions α) : s.fresh.2.size = s.size + 1 := by
  simp [fresh, size]

@[simp] theorem get_fresh_self (s : Solutions α) : s.fresh.2.get s.size = .ok none := by
  simp [fresh, get, size]

theorem get_fresh_of_lt (s : Solutions α) {id : Nat} (h : id < s.size) :
    s.fresh.2.get id = s.get id := by
  simp only [size] at h
  simp [fresh, get, Array.getElem?_push, Nat.ne_of_lt h]

end Solutions

end ElmInference
