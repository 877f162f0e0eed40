import ElmInference.Store.Basic
import ElmInference.Proofs.Store.Mentions

/-!
# Reading and changing the entries of a store

A store is changed in four ways only: a variable is allocated, an unsolved variable is solved, a growing
record is allocated, a growing record is replaced. This module says what each change does to every
entry, so that no other proof looks into the arrays behind a store.

A store owns a type when the type refers only to variables and records of that store, and it is closed
when it owns what its own entries hold. Faults about foreign variables and missing records come from
types that the store does not own.
-/

namespace ElmInference

def GrowingRecord.links (aliases : Bool) (r : GrowingRecord) : List Mention :=
  Ty.mentionsFields aliases r.fields ++ r.base.mentions aliases

namespace Store

/-- The solution of a variable; foreign variables have none. -/
def solution? (s : Store) (id : VarId) : Option Ty :=
  s.solutions.entries[id]?.join

def Unsolved (s : Store) (id : VarId) : Prop :=
  id < s.size ∧ s.solution? id = none

def solved (s : Store) (id : VarId) (t : Ty) : Store :=
  { s with solutions := ⟨s.solutions.entries.setIfInBounds id (some t)⟩ }

def extended (s : Store) : Store :=
  { s with solutions := s.solutions.fresh.2 }

def recorded (s : Store) (r : GrowingRecord) : Store :=
  { s with records := s.records.push r }

/-! ### Solutions -/

theorem lt_size_of_solution? {s : Store} {id : VarId} {t : Ty} (h : s.solution? id = some t) :
    id < s.size := by
  by_contra hge
  have hnone : s.solutions.entries[id]? = none :=
    Array.getElem?_eq_none (by simpa [size, Solutions.size] using hge)
  simp [solution?, hnone] at h

theorem solution_of_lt {s : Store} {id : VarId} (h : id < s.size) :
    s.solution id = .ok (s.solution? id) := by
  have hsome : s.solutions.entries[id]? = some s.solutions.entries[id] :=
    Array.getElem?_eq_getElem (by simpa [size, Solutions.size] using h)
  simp [solution, Solutions.get, solution?, hsome]

theorem solution_of_ge {s : Store} {id : VarId} (h : s.size ≤ id) :
    s.solution id = .error (.foreignVariable id) := by
  have hnone : s.solutions.entries[id]? = none :=
    Array.getElem?_eq_none (by simpa [size, Solutions.size] using h)
  simp [solution, Solutions.get, hnone]

theorem Unsolved.solution_eq {s : Store} {id : VarId} (h : s.Unsolved id) :
    s.solution id = .ok none := by
  rw [solution_of_lt h.1, h.2]

theorem solution_of_some {s : Store} {id : VarId} {t : Ty} (h : s.solution? id = some t) :
    s.solution id = .ok (some t) := by
  rw [solution_of_lt (lt_size_of_solution? h), h]

/-- An allocated variable is solved or not. -/
theorem unsolved_or_some {s : Store} {id : VarId} (h : id < s.size) :
    s.Unsolved id ∨ ∃ t, s.solution? id = some t := by
  cases hsol : s.solution? id with
  | none => exact .inl ⟨h, hsol⟩
  | some t => exact .inr ⟨t, rfl⟩

theorem not_unsolved_of_some {s : Store} {id : VarId} {t : Ty} (h : s.solution? id = some t) :
    ¬ s.Unsolved id := by
  intro hun
  rw [hun.2] at h
  cases h

/-! ### Solving -/

@[simp] theorem size_solved (s : Store) (id : VarId) (t : Ty) : (s.solved id t).size = s.size := by
  simp [solved, size, Solutions.size]

@[simp] theorem records_solved (s : Store) (id : VarId) (t : Ty) :
    (s.solved id t).records = s.records := rfl

theorem solution?_solved_self {s : Store} {id : VarId} (t : Ty) (h : id < s.size) :
    (s.solved id t).solution? id = some t := by
  have hlt : id < s.solutions.entries.size := by simpa [size, Solutions.size] using h
  simp [solved, solution?, hlt]

theorem solution?_solved_of_ne (s : Store) {id other : VarId} (t : Ty) (h : other ≠ id) :
    (s.solved id t).solution? other = s.solution? other := by
  simp [solved, solution?, Ne.symm h]

/-- A solution there is after a variable was solved is the new one, or was there before. -/
theorem solution?_solved_cases {s : Store} {id other : VarId} {t u : Ty}
    (h : (s.solved id t).solution? other = some u) : other = id ∧ u = t ∨ s.solution? other = some u := by
  by_cases hid : other = id
  · have hlt := lt_size_of_solution? h
    rw [size_solved, hid] at hlt
    rw [hid, solution?_solved_self t hlt] at h
    exact .inl ⟨hid, (Option.some.inj h).symm⟩
  · rw [solution?_solved_of_ne s t hid] at h
    exact .inr h

theorem solved_comm (s : Store) {id other : VarId} (t u : Ty) (h : id ≠ other) :
    (s.solved id t).solved other u = (s.solved other u).solved id t := by
  simp only [solved]
  rw [Array.setIfInBounds_comm _ _ h]

theorem bind_of_unsolved {s : Store} {v : TyVar} (t : Ty) (h : s.Unsolved v.id) :
    s.bind v t = .ok (s.solved v.id t) := by
  obtain ⟨hlt, hnone⟩ := h
  have hget : s.solutions.entries[v.id]? = some s.solutions.entries[v.id] :=
    Array.getElem?_eq_getElem (by simpa [size, Solutions.size] using hlt)
  have hentry : s.solutions.entries[v.id] = none := by simpa [solution?, hget] using hnone
  simp [bind, Solutions.set, hget, hentry, solved, Except.map]

theorem bind_of_some {s : Store} {v : TyVar} {u : Ty} (t : Ty) (h : s.solution? v.id = some u) :
    s.bind v t = .error (.alreadyBound v.id) := by
  have hlt : v.id < s.solutions.entries.size := lt_size_of_solution? h
  have hget : s.solutions.entries[v.id]? = some s.solutions.entries[v.id] :=
    Array.getElem?_eq_getElem hlt
  have hentry : s.solutions.entries[v.id] = some u := by simpa [solution?, hget] using h
  simp [bind, Solutions.set, hget, hentry, Except.map]

/-! ### Allocating -/

@[simp] theorem size_extended (s : Store) : s.extended.size = s.size + 1 := by
  simp [extended, size]

@[simp] theorem records_extended (s : Store) : s.extended.records = s.records := rfl

@[simp] theorem solution?_extended (s : Store) (id : VarId) :
    s.extended.solution? id = s.solution? id := by
  simp only [extended, solution?, Solutions.fresh, Array.getElem?_push]
  split
  · next heq =>
    subst heq
    simp
  · rfl

theorem unsolved_extended_self (s : Store) : s.extended.Unsolved s.size := by
  refine ⟨by simp, ?_⟩
  rw [solution?_extended]
  cases hsol : s.solution? s.size with
  | none => rfl
  | some t => exact absurd (lt_size_of_solution? hsol) (Nat.lt_irrefl _)

theorem Unsolved.extended {s : Store} {id : VarId} (h : s.Unsolved id) : s.extended.Unsolved id :=
  ⟨by simpa using Nat.lt_succ_of_lt h.1, by simpa using h.2⟩

@[simp] theorem size_recorded (s : Store) (r : GrowingRecord) : (s.recorded r).size = s.size := rfl

@[simp] theorem solution?_recorded (s : Store) (r : GrowingRecord) (id : VarId) :
    (s.recorded r).solution? id = s.solution? id := rfl

theorem records_recorded (s : Store) (r : GrowingRecord) :
    (s.recorded r).records = s.records.push r := rfl

@[simp] theorem records_size_recorded (s : Store) (r : GrowingRecord) :
    (s.recorded r).records.size = s.records.size + 1 := by
  simp [recorded]

theorem record?_recorded_of_lt {s : Store} {id : RecordId} (r : GrowingRecord)
    (h : id < s.records.size) : (s.recorded r).records[id]? = s.records[id]? := by
  rw [records_recorded, Array.getElem?_push, if_neg (Nat.ne_of_lt h)]

theorem record?_recorded_self (s : Store) (r : GrowingRecord) :
    (s.recorded r).records[s.records.size]? = some r := by
  rw [records_recorded, Array.getElem?_push, if_pos rfl]

/-- A record there is after one was recorded is the new one, or was there before. -/
theorem record?_recorded_cases {s : Store} {id : RecordId} {r g : GrowingRecord}
    (h : (s.recorded r).records[id]? = some g) : id = s.records.size ∧ g = r ∨ s.records[id]? = some g := by
  rw [records_recorded, Array.getElem?_push] at h
  split at h
  · next hid => exact .inl ⟨hid, (Option.some.inj h).symm⟩
  · exact .inr h

theorem lt_size_of_record? {s : Store} {id : RecordId} {r : GrowingRecord}
    (h : s.records[id]? = some r) : id < s.records.size := by
  by_contra hge
  rw [Array.getElem?_eq_none (Nat.le_of_not_lt hge)] at h
  cases h

theorem record_of_some {s : Store} {id : RecordId} {r : GrowingRecord}
    (h : s.records[id]? = some r) : s.record id = .ok r := by
  simp [record, h]

theorem exists_record {s : Store} {id : RecordId} (h : id < s.records.size) :
    ∃ r, s.records[id]? = some r :=
  ⟨_, Array.getElem?_eq_getElem h⟩

/-! ### Owned types -/

def Has (s : Store) : Mention → Prop
  | .var v => v.id < s.size
  | .record id => id < s.records.size
  | .field _ => True
  | .hole => True

/-- Whether the store owns a type: its variables and growing records are the store's own. -/
def Owns (s : Store) (t : Ty) : Prop :=
  ∀ r ∈ t.mentions false, s.Has r

instance (s : Store) : DecidablePred s.Has
  | .var v => inferInstanceAs (Decidable (v.id < s.size))
  | .record id => inferInstanceAs (Decidable (id < s.records.size))
  | .field _ => inferInstanceAs (Decidable True)
  | .hole => inferInstanceAs (Decidable True)

instance (s : Store) (t : Ty) : Decidable (s.Owns t) :=
  inferInstanceAs (Decidable (∀ r ∈ t.mentions false, s.Has r))

/-- A set of references that the entries of a store do not lead out of. -/
structure Keeps (s : Store) (Q : Mention → Prop) : Prop where
  solution : ∀ v t, Q (.var v) → s.solution? v.id = some t → ∀ r ∈ t.mentions false, Q r
  record : ∀ id g, Q (.record id) → s.records[id]? = some g → ∀ r ∈ g.links false, Q r

/-- A store whose entries refer only to the store itself. -/
def Closed (s : Store) : Prop :=
  s.Keeps s.Has

theorem Owns.var_lt {s : Store} {v : TyVar} (h : s.Owns (.var v)) : v.id < s.size :=
  h (.var v) (by simp [Ty.mentions])

theorem owns_var {s : Store} {v : TyVar} (h : v.id < s.size) : s.Owns (.var v) := by
  intro r hr
  obtain rfl : r = .var v := by simpa [Ty.mentions] using hr
  exact h

theorem Owns.growing_lt {s : Store} {id : RecordId} (h : s.Owns (.growing id)) :
    id < s.records.size :=
  h (.record id) (by simp [Ty.mentions])

theorem Closed.owns_solution {s : Store} (h : s.Closed) {id : VarId} {t : Ty}
    (hsol : s.solution? id = some t) : s.Owns t :=
  h.solution ⟨id, "", false⟩ t (lt_size_of_solution? hsol) hsol

theorem Closed.has_link {s : Store} (h : s.Closed) {id : RecordId} {g : GrowingRecord}
    (hrec : s.records[id]? = some g) : ∀ r ∈ g.links false, s.Has r :=
  h.record id g (lt_size_of_record? hrec) hrec

theorem Closed.owns_base {s : Store} (h : s.Closed) {id : RecordId} {g : GrowingRecord}
    (hrec : s.records[id]? = some g) : s.Owns g.base :=
  fun r hr => h.has_link hrec r (List.mem_append_right _ hr)

theorem Closed.owns_field {s : Store} (h : s.Closed) {id : RecordId} {g : GrowingRecord}
    (hrec : s.records[id]? = some g) {field : Name × Ty} (hfield : field ∈ g.fields) :
    s.Owns field.2 :=
  fun r hr => h.has_link hrec r
    (List.mem_append_left _ (Ty.mem_mentionsFields.mpr ⟨field, hfield, .inr hr⟩))

end Store

end ElmInference
