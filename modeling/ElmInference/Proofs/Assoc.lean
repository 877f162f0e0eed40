import ElmInference.Assoc
import Mathlib.Data.List.Nodup

/-!
# Entries of association lists

What a look-up finds is an entry, and when keys are distinct every entry is found. What `set`, `remove` and the
operations of lists change of the entries, and of what is found for a key.
-/

namespace ElmInference.Assoc

variable {κ α : Type} [DecidableEq κ]

/-! ### Finding an entry -/

theorem mem_of_get? {m : Assoc κ α} {key : κ} {a : α} (h : get? m key = some a) : (key, a) ∈ m := by
  induction m with
  | nil => cases h
  | cons entry rest ih =>
    rw [get?] at h
    split at h
    · next heq =>
      cases h
      rw [← heq]
      exact List.mem_cons_self
    · exact List.mem_cons_of_mem _ (ih h)

/-- When the keys are distinct, no entry hides another one. -/
theorem get?_of_mem {m : Assoc κ α} (hnodup : (m.map Prod.fst).Nodup) {key : κ} {a : α} (h : (key, a) ∈ m) :
    get? m key = some a := by
  induction m with
  | nil => cases h
  | cons entry rest ih =>
    obtain ⟨hfirst, hrest⟩ := List.nodup_cons.mp hnodup
    rw [get?]
    rcases List.mem_cons.mp h with rfl | h
    · exact if_pos rfl
    · rw [if_neg, ih hrest h]
      rintro rfl
      exact hfirst (List.mem_map.mpr ⟨_, h, rfl⟩)

theorem isSome_get?_iff {m : Assoc κ α} {key : κ} : (get? m key).isSome ↔ key ∈ m.map Prod.fst := by
  induction m with
  | nil => simp [get?]
  | cons entry rest ih =>
    rw [get?, List.map_cons, List.mem_cons]
    split
    · next heq => exact ⟨fun _ => .inl heq.symm, fun _ => rfl⟩
    · next hne => rw [ih, or_iff_right (Ne.symm hne)]

theorem get?_eq_none {m : Assoc κ α} {key : κ} (h : key ∉ m.map Prod.fst) : get? m key = none :=
  Option.not_isSome_iff_eq_none.mp (h ∘ isSome_get?_iff.mp)

/-! ### Setting and removing -/

theorem mem_set {m : Assoc κ α} {key : κ} {a : α} {entry : κ × α} (h : entry ∈ set m key a) :
    entry ∈ m ∨ entry = (key, a) := by
  induction m with
  | nil => exact .inr (List.mem_singleton.mp h)
  | cons first rest ih =>
    rw [set] at h
    split at h
    · next heq =>
      rcases List.mem_cons.mp h with rfl | h
      · exact .inr (by rw [heq])
      · exact .inl (List.mem_cons_of_mem _ h)
    · rcases List.mem_cons.mp h with rfl | h
      · exact .inl List.mem_cons_self
      · exact (ih h).imp_left (List.mem_cons_of_mem _ ·)

theorem mem_set_of_mem {m : Assoc κ α} {key : κ} {entry : κ × α} (a : α) (hget : get? m key = none) (h : entry ∈ m) :
    entry ∈ set m key a := by
  induction m with
  | nil => cases h
  | cons first rest ih =>
    obtain ⟨k, b⟩ := first
    by_cases hk : k = key
    · simp [get?, hk] at hget
    · rw [get?, if_neg hk] at hget
      rw [set, if_neg hk]
      rcases List.mem_cons.mp h with rfl | h
      · exact List.mem_cons_self
      · exact List.mem_cons_of_mem _ (ih hget h)

theorem mem_set_self (m : Assoc κ α) (key : κ) (a : α) : (key, a) ∈ set m key a :=
  mem_of_get? (get?_set_self m key a)

theorem mem_keys_set {m : Assoc κ α} {key : κ} {a : α} {other : κ} (h : other ∈ (set m key a).map Prod.fst) :
    other ∈ m.map Prod.fst ∨ other = key := by
  obtain ⟨entry, hentry, rfl⟩ := List.mem_map.mp h
  exact (mem_set hentry).imp (fun hmem => List.mem_map_of_mem hmem) fun heq => congrArg Prod.fst heq

theorem nodup_keys_set {m : Assoc κ α} (h : (m.map Prod.fst).Nodup) (key : κ) (a : α) :
    ((set m key a).map Prod.fst).Nodup := by
  induction m with
  | nil => exact List.nodup_singleton key
  | cons entry rest ih =>
    obtain ⟨hfirst, hrest⟩ := List.nodup_cons.mp h
    rw [set]
    split
    · exact List.nodup_cons.mpr ⟨hfirst, hrest⟩
    · next hne =>
      refine List.nodup_cons.mpr ⟨fun hmem => ?_, ih hrest⟩
      exact (mem_keys_set hmem).elim hfirst hne

theorem nodup_keys_remove {m : Assoc κ α} (h : (m.map Prod.fst).Nodup) (key : κ) :
    ((remove m key).map Prod.fst).Nodup :=
  h.sublist (List.filter_sublist.map _)

/-! ### Operations of lists -/

theorem get?_append (m m' : Assoc κ α) (key : κ) : get? (m ++ m') key = (get? m key).or (get? m' key) := by
  induction m with
  | nil => rfl
  | cons entry rest ih =>
    simp only [List.cons_append, get?]
    split
    · rfl
    · exact ih

theorem get?_filter {m : Assoc κ α} {p : κ × α → Bool} {key : κ} (h : ∀ a, p (key, a) = true) :
    get? (m.filter p) key = get? m key := by
  induction m with
  | nil => rfl
  | cons entry rest ih =>
    obtain ⟨other, a⟩ := entry
    by_cases heq : other = key
    · rw [List.filter_cons_of_pos (heq ▸ h a), get?, get?, if_pos heq, if_pos heq]
    · rw [get?, if_neg heq, List.filter_cons]
      split
      · rw [get?, if_neg heq, ih]
      · exact ih

theorem get?_filter_of_not {m : Assoc κ α} {p : κ × α → Bool} {key : κ} (h : ∀ a, p (key, a) = false) :
    get? (m.filter p) key = none := by
  induction m with
  | nil => rfl
  | cons entry rest ih =>
    obtain ⟨other, a⟩ := entry
    rw [List.filter_cons]
    split
    · next hkept =>
      have hne : other ≠ key := fun heq => Bool.eq_false_iff.mp (h a) (heq ▸ hkept)
      rw [get?, if_neg hne, ih]
    · exact ih

theorem get?_map {β : Type} (m : Assoc κ α) (f : κ → α → β) (key : κ) :
    get? (m.map (fun entry => (entry.1, f entry.1 entry.2))) key = (get? m key).map (f key) := by
  induction m with
  | nil => rfl
  | cons entry rest ih =>
    rw [List.map_cons, get?, get?]
    split
    · next heq => rw [← heq, Option.map_some]
    · exact ih

end ElmInference.Assoc
