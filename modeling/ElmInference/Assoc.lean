/-!
# Association lists

Small finite maps whose order of insertion can be observed: record fields, scopes, memo tables. The
first entry of a key is the one that counts, and `set` never creates a second one.
-/

namespace ElmInference

/-- Identifiers of the source language. -/
abbrev Name := String

/-- A finite map as a list of entries, in order of first insertion. -/
abbrev Assoc (κ α : Type) := List (κ × α)

namespace Assoc

variable {κ α : Type} [DecidableEq κ]

def get? : Assoc κ α → κ → Option α
  | [], _ => none
  | (k, a) :: rest, key => if k = key then some a else get? rest key

def has (m : Assoc κ α) (key : κ) : Bool :=
  (get? m key).isSome

/-- Gives a key a new value where the old one stood, or at the end when the key is new. -/
def set : Assoc κ α → κ → α → Assoc κ α
  | [], key, value => [(key, value)]
  | (k, a) :: rest, key, value =>
    if k = key then (k, value) :: rest else (k, a) :: set rest key value

def remove (m : Assoc κ α) (key : κ) : Assoc κ α :=
  m.filter (fun entry => decide (entry.1 ≠ key))

@[simp] theorem get?_set_self (m : Assoc κ α) (key : κ) (value : α) :
    get? (set m key value) key = some value := by
  induction m with
  | nil => simp [set, get?]
  | cons entry rest ih =>
    by_cases h : entry.1 = key <;> simp [set, get?, h, ih]

theorem get?_set_of_ne (m : Assoc κ α) {key other : κ} (value : α) (h : key ≠ other) :
    get? (set m key value) other = get? m other := by
  induction m with
  | nil => simp [set, get?, h]
  | cons entry rest ih =>
    by_cases hk : entry.1 = key
    · simp [set, get?, hk, h]
    · simp [set, get?, hk, ih]

@[simp] theorem get?_remove_self (m : Assoc κ α) (key : κ) : get? (remove m key) key = none := by
  induction m with
  | nil => rfl
  | cons entry rest ih =>
    by_cases h : entry.1 = key
    · simpa [remove, h] using ih
    · simpa [remove, get?, h] using ih

theorem get?_remove_of_ne (m : Assoc κ α) {key other : κ} (h : key ≠ other) :
    get? (remove m key) other = get? m other := by
  induction m with
  | nil => rfl
  | cons entry rest ih =>
    obtain ⟨k, a⟩ := entry
    by_cases hk : k = key
    · subst hk
      simpa [remove, get?, h] using ih
    · by_cases ho : k = other
      · subst ho
        simp [remove, get?, hk]
      · simpa [remove, get?, hk, ho] using ih

end Assoc

end ElmInference
