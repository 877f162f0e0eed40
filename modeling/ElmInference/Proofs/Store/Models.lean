import ElmInference.Proofs.Store.Moves
import ElmInference.Proofs.Store.Reading
import ElmInference.Proofs.Store.Rows

/-!
# Environments that agree with a store

An environment models a store when each solved variable says what its solution says, and each growing
record what its fields and its base say. A store without loops has models, and what its unsolved variables
say can be chosen freely. An environment that models a store models every earlier one.

Resolving a type does not change what it says, and neither does flattening a record, as long as records
rest on records.
-/

namespace ElmInference

namespace Store

open Relation

variable {κ : Type}

/-- Whether an environment agrees with the entries of a store. -/
structure Models (s : Store) (η : Env κ) : Prop where
  solution : ∀ id t, s.solution? id = some t → η (.var id) = t.read η
  record : ∀ (id : RecordId) g, s.records[id]? = some g → η (.record id) = g.read η

variable {s s' : Store} {η : Env κ}

theorem Models.earlier (h : s'.Models η) (hext : s.Extends s') : s.Models η :=
  ⟨fun id t hsol => h.solution id t (hext.solution id t hsol),
    fun id g hrec => h.record id g (hext.record id g hrec)⟩

theorem ResolvesTo.read {t r : Ty} (hr : s.ResolvesTo t r)
    (h : ∀ id u, s.solution? id = some u → η (.var id) = u.read η) : t.read η = r.read η := by
  induction hr with
  | solved hsol _ ih => exact (h _ _ hsol).trans ih
  | unsolved _ => rfl
  | other _ => rfl

theorem Models.read_resolve (h : s.Models η) {t r : Ty} (hr : s.ResolvesTo t r) : t.read η = r.read η :=
  hr.read h.solution

/-! ### Models exist -/

/-- What the nodes of a store say, as far as `n` crossings tell; `free` is for unsolved variables, and `rest` says
what the base of a growing record adds to its fields. -/
def envAt (s : Store) (rest : Reading κ → Reading κ) (free : VarId → Reading κ) : Nat → Env κ
  | 0, _ => .unit
  | n + 1, .var id =>
    match s.solution? id with
    | none => free id
    | some t => t.read (envAt s rest free n)
  | n + 1, .record id =>
    match s.records[id]? with
    | none => .unit
    | some g => .extend (Ty.fieldReadings (envAt s rest free n) g.fields) (rest (g.base.read (envAt s rest free n)))

/-- More crossings than the rank of a type tell no more about it. -/
theorem read_envAt (hloop : s.Loopfree false) (rest : Reading κ → Reading κ) (free : VarId → Reading κ) (n m : Nat)
    {t : Ty} (hn : s.rank false t ≤ n) (hm : s.rank false t ≤ m) :
    t.read (s.envAt rest free (n + 1)) = t.read (s.envAt rest free (m + 1)) := by
  induction n generalizing m t with
  | zero =>
    -- a type of rank zero leads to no node of the store, so neither side looks behind one
    refine Ty.read_congr (fun node hnode => ?_)
    have hleads : s.Leads false t node := leads_of_holds hnode
    have hnot : node ∉ s.nodes := by
      intro hmem
      have hpos := Finset.card_pos.mpr ⟨node, mem_reach.mpr ⟨hmem, hleads⟩⟩
      rw [rank] at hn
      omega
    cases node with
    | var id =>
      have hsol : s.solution? id = none := by
        cases hsol : s.solution? id with
        | none => rfl
        | some u => exact absurd (var_mem_nodes.mpr (lt_size_of_solution? hsol)) hnot
      simp only [envAt, hsol]
    | record id =>
      have hrec : s.records[id]? = none := by
        cases hrec : s.records[id]? with
        | none => rfl
        | some g => exact absurd (record_mem_nodes.mpr (lt_size_of_record? hrec)) hnot
      simp only [envAt, hrec]
  | succ n ih =>
    refine Ty.read_congr (fun node hnode => ?_)
    have hleads : s.Leads false t node := leads_of_holds hnode
    have hbehind : ∀ u, node ∈ s.nodes → s.Behind false node u →
        u.read (s.envAt rest free (n + 1)) = u.read (s.envAt rest free m) := by
      intro u hmem hu
      have hlt := hu.rank_lt hloop hmem hleads
      obtain ⟨k, rfl⟩ : ∃ k, m = k + 1 := ⟨m - 1, by omega⟩
      exact ih k (by omega) (by omega)
    cases node with
    | var id =>
      cases hsol : s.solution? id with
      | none => simp only [envAt, hsol]
      | some u =>
        have hmem := var_mem_nodes.mpr (lt_size_of_solution? hsol)
        simpa only [envAt, hsol] using hbehind u hmem (behind_solution hsol)
    | record id =>
      cases hrec : s.records[id]? with
      | none => simp only [envAt, hrec]
      | some g =>
        have hmem := record_mem_nodes.mpr (lt_size_of_record? hrec)
        simp only [envAt, hrec]
        rw [Ty.fieldReadings_congr (fun field hfield => hbehind _ hmem (behind_field hrec hfield)),
          hbehind _ hmem (behind_base hrec)]

/-- A store without loops determines what its nodes say, once it is said what unsolved variables are and what bases
add to growing records. -/
theorem exists_env (hloop : s.Loopfree false) (rest : Reading κ → Reading κ) (free : VarId → Reading κ) :
    ∃ η : Env κ, (∀ id t, s.solution? id = some t → η (.var id) = t.read η) ∧
      (∀ id, s.solution? id = none → η (.var id) = free id) ∧
      ∀ (id : RecordId) g, s.records[id]? = some g →
        η (.record id) = .extend (Ty.fieldReadings η g.fields) (rest (g.base.read η)) := by
  have hsame : ∀ n u, n ∈ s.nodes → s.Behind false n u →
      u.read (s.envAt rest free s.crossings) = u.read (s.envAt rest free (s.crossings + 1)) := by
    intro n u hmem hu
    have hlt : s.rank false u < s.crossings := by
      have hcard := Finset.card_le_card (Finset.insert_subset hmem (s.reach_subset_nodes false u))
      rw [Finset.card_insert_of_notMem (hu.not_mem_reach hloop)] at hcard
      exact hcard.trans s.card_nodes_le
    obtain ⟨k, hk⟩ : ∃ k, s.crossings = k + 1 := ⟨s.crossings - 1, by omega⟩
    rw [hk]
    exact read_envAt hloop rest free k (k + 1) (by omega) (by omega)
  refine ⟨s.envAt rest free (s.crossings + 1), fun id t hsol => ?_, fun id hsol => ?_, fun id g hrec => ?_⟩
  · have hmem := var_mem_nodes.mpr (lt_size_of_solution? hsol)
    rw [← hsame _ t hmem (behind_solution hsol)]
    simp only [envAt, hsol]
  · simp only [envAt, hsol]
  · have hmem := record_mem_nodes.mpr (lt_size_of_record? hrec)
    have hread : s.envAt rest free (s.crossings + 1) (.record id) =
        .extend (Ty.fieldReadings (s.envAt rest free s.crossings) g.fields)
          (rest (g.base.read (s.envAt rest free s.crossings))) := by
      simp only [envAt, hrec]
    rw [hread, Ty.fieldReadings_congr (fun field hfield => hsame _ _ hmem (behind_field hrec hfield)),
      hsame _ _ hmem (behind_base hrec)]

theorem exists_models (hloop : s.Loopfree false) (free : VarId → Reading κ) :
    ∃ η, s.Models η ∧ ∀ id, s.solution? id = none → η (.var id) = free id := by
  obtain ⟨η, hsolution, hfree, hrecord⟩ := exists_env hloop id free
  exact ⟨η, ⟨hsolution, hrecord⟩, hfree⟩

/-! ### Records that rest on records -/

inductive Rests (s : Store) : Ty → Ty → Prop
  | base {fields : List (Name × Ty)} {b : Ty} {w : Option (AliasUse Ty)} {refs : FieldReferences} :
      Rests s (.record fields (some b) w refs) b
  | growing {id : RecordId} {g : GrowingRecord} : s.records[id]? = some g →
      Rests s (.growing id) g.base

/-- Whether a type resolves to a record or to an unsolved variable. -/
def IsBase (s : Store) (t : Ty) : Prop :=
  ∃ r, s.ResolvesTo t r ∧ ((∃ fields base w refs, r = .record fields base w refs) ∨
    (∃ id, r = .growing id) ∨ ∃ v, r = .var v)

/-- Whether all records that can be read in a type rest on records or on unsolved variables. -/
def Based (s : Store) (t : Ty) : Prop :=
  ∀ u b, ReflTransGen s.Child t u → s.Rests u b → s.IsBase b

theorem Rests.child {u b : Ty} (h : s.Rests u b) : s.Child u b := by
  cases h with
  | base => exact .base
  | growing hrec => exact .growingBase hrec

theorem Based.child {t u : Ty} (h : s.Based t) (hchild : s.Child t u) : s.Based u :=
  fun w b hreads hrests => h w b (.head hchild hreads) hrests

theorem Based.isBase {t b : Ty} (h : s.Based t) (hrests : s.Rests t b) : s.IsBase b :=
  h t b .refl hrests

theorem IsBase.solution {v : TyVar} {t : Ty} (h : s.IsBase (.var v)) (hsol : s.solution? v.id = some t) :
    s.IsBase t := by
  obtain ⟨r, hresolves, hr⟩ := h
  cases hresolves with
  | solved hsol' hrest =>
    rw [hsol] at hsol'
    cases hsol'
    exact ⟨r, hrest, hr⟩
  | unsolved hun => exact absurd hun (not_unsolved_of_some hsol)
  | other hnot => exact absurd rfl (hnot v)

theorem IsBase.not_baseless {t : Ty} (h : s.IsBase t) : isBaseless t = false := by
  obtain ⟨r, hresolves, hr⟩ := h
  cases hresolves with
  | solved _ _ => rfl
  | unsolved _ => rfl
  | other hnot =>
    rcases hr with ⟨fields, base, w, refs, rfl⟩ | ⟨id, rfl⟩ | ⟨v, rfl⟩ <;> rfl

/-- Flattening keeps what a record says. The chain of bases may be read in a later store, as what is on it
stays there. -/
theorem FlattensTo.read {t : Ty} {above : List (Name × Ty)} {f : Flattened} (h : s.FlattensTo t above f)
    (hext : s.Extends s') (hmodels : s'.Models η) (hbased : s'.Based t) (hbase : s'.IsBase t) :
    Reading.extend (Ty.fieldReadings η above) (t.read η) =
      Reading.extend (Ty.fieldReadings η f.fields) (f.tail.toTy.read η) := by
  induction h with
  | closed =>
    rw [Ty.read_record, Reading.extend_extend, ← Ty.fieldReadings_addFields]
    rfl
  | base _ ih =>
    rw [← ih (hbased.child .base) (hbased.isBase .base), Ty.read_record, Reading.extend_extend,
      ← Ty.fieldReadings_addFields]
    rfl
  | growing hrec _ ih =>
    have hrec' := hext.record _ _ hrec
    rw [← ih (hbased.child (.growingBase hrec')) (hbased.isBase (.growing hrec')), Ty.read_growing,
      hmodels.record _ _ hrec', GrowingRecord.read, Reading.extend_extend, ← Ty.fieldReadings_addFields]
  | unsolved _ => rfl
  | solved hsol _ ih =>
    have hsol' := hext.solution _ _ hsol
    rw [← ih (hbased.child (.solution hsol')) (hbase.solution hsol'), Ty.read_var,
      hmodels.solution _ _ hsol']
  | unknown => rfl
  | baseless hbaseless =>
    rw [hbase.not_baseless] at hbaseless
    cases hbaseless

end Store

end ElmInference
