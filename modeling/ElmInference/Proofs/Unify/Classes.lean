import ElmInference.Proofs.Store.Reading
import ElmInference.Proofs.Unify.Joining
import Mathlib.Data.Fintype.Basic

/-!
# Membership of a class

What belongs to a class is said here of closed types, in which nothing but rigid variables is left open:
`Typeclass.Contains`. The join of two classes contains what both contain, and two classes that have no join
have nothing in common. A rigid variable belongs to a class when everything it can stand for does.

A closed type fits a flexible variable when it belongs to its class, and nothing fits a rigid variable but
the variable itself. Variables can be joined exactly when something fits both.
-/

namespace ElmInference

/-- A rigid variable, which stands for nothing but itself. -/
abbrev Rigid := {v : TyVar // v.rigid = true}

namespace Typeclass

/-- The types that belong to a class whatever their arguments are, by module and name. -/
def basics : Typeclass → List (Name × Name)
  | .number => [("Basics", "Int"), ("Basics", "Float")]
  | .comparable => [("Basics", "Int"), ("Basics", "Float"), ("Char", "Char"), ("String", "String")]
  | .appendable => [("String", "String")]
  | .compAppend => [("String", "String")]

inductive Contains : Typeclass → Reading Rigid → Prop
  | basic {c : Typeclass} {m n : Name} {args : List (Reading Rigid)} : (m, n) ∈ c.basics →
      Contains c (.union m n args)
  | tuple {items : List (Reading Rigid)} : (∀ x ∈ items, Contains .comparable x) →
      Contains .comparable (.tuple items)
  | list {c : Typeclass} {item : Reading Rigid} : c ≠ .number →
      (c.needsComparableItems = true → Contains .comparable item) →
      Contains c (.union "List" "List" [item])
  | rigid {c d : Typeclass} {w : Rigid} : w.1.typeclass = some d → join c d = some d →
      Contains c (.const w)

theorem contains_union {c : Typeclass} {m n : Name} {args : List (Reading Rigid)} :
    c.Contains (.union m n args) ↔ (m, n) ∈ c.basics ∨ m = "List" ∧ n = "List" ∧ c ≠ .number ∧
      ∃ item, args = [item] ∧ (c.needsComparableItems = true → Contains .comparable item) := by
  constructor
  · intro h
    cases h with
    | basic hmem => exact .inl hmem
    | list hc hitem => exact .inr ⟨rfl, rfl, hc, _, rfl, hitem⟩
  · rintro (hmem | ⟨rfl, rfl, hc, item, rfl, hitem⟩)
    · exact .basic hmem
    · exact .list hc hitem

theorem list_not_mem_basics (c : Typeclass) : ("List", "List") ∉ c.basics := by
  cases c <;> decide

theorem contains_tuple {c : Typeclass} {items : List (Reading Rigid)} :
    c.Contains (.tuple items) ↔ c = .comparable ∧ ∀ x ∈ items, Contains .comparable x := by
  constructor
  · intro h
    cases h with
    | tuple hitems => exact ⟨rfl, hitems⟩
  · rintro ⟨rfl, hitems⟩
    exact .tuple hitems

theorem contains_const {c : Typeclass} {w : Rigid} :
    c.Contains (.const w) ↔ ∃ d, w.1.typeclass = some d ∧ join c d = some d := by
  constructor
  · intro h
    cases h with
    | rigid hd hjoin => exact ⟨_, hd, hjoin⟩
  · rintro ⟨d, hd, hjoin⟩
    exact .rigid hd hjoin

/-! ### The join of two classes

There are four classes, so what the tables of `join` and `basics` have to do with each other is decided by
going through them. -/

instance : Fintype Typeclass :=
  ⟨{.number, .comparable, .appendable, .compAppend}, fun c => by cases c <;> decide⟩

theorem mem_basics_join : ∀ c d : Typeclass, ∀ p ∈ c.basics, p ∈ d.basics →
    ∃ both, join c d = some both ∧ p ∈ both.basics := by
  decide

theorem list_join : ∀ c d : Typeclass, c ≠ .number → d ≠ .number →
    ∃ both, join c d = some both ∧ both ≠ .number ∧
      (both.needsComparableItems = true → c.needsComparableItems = true ∨ d.needsComparableItems = true) := by
  decide

theorem rigid_join : ∀ c d e : Typeclass, join c e = some e → join d e = some e →
    ∃ both, join c d = some both ∧ join both e = some e := by
  decide

theorem join_trans : ∀ c d e : Typeclass, join c d = some d → join d e = some e → join c e = some e := by
  decide

theorem basics_of_join : ∀ c d : Typeclass, join c d = some d → ∀ p ∈ d.basics, p ∈ c.basics := by
  decide

theorem list_of_join : ∀ c d : Typeclass, join c d = some d → d ≠ .number →
    c ≠ .number ∧ (c.needsComparableItems = true → d.needsComparableItems = true) := by
  decide

theorem eq_comparable_of_join : ∀ c : Typeclass, join c .comparable = some .comparable →
    c = .comparable := by
  decide

/-- What belongs to two classes belongs to their join, and such a join exists then. -/
theorem Contains.join {c d : Typeclass} {x : Reading Rigid} (hc : c.Contains x) (hd : d.Contains x) :
    ∃ both, Typeclass.join c d = some both ∧ both.Contains x := by
  cases hc with
  | basic hmem =>
    rcases contains_union.mp hd with hmem' | ⟨rfl, rfl, -, -⟩
    · obtain ⟨both, hjoin, hboth⟩ := mem_basics_join c d _ hmem hmem'
      exact ⟨both, hjoin, .basic hboth⟩
    · exact absurd hmem (list_not_mem_basics c)
  | tuple hitems =>
    obtain ⟨rfl, -⟩ := contains_tuple.mp hd
    exact ⟨_, rfl, .tuple hitems⟩
  | list hne hitem =>
    rcases contains_union.mp hd with hmem | ⟨-, -, hne', other, heq, hitem'⟩
    · exact absurd hmem (list_not_mem_basics d)
    · cases heq
      obtain ⟨both, hjoin, hboth, hneeds⟩ := list_join c d hne hne'
      exact ⟨both, hjoin, .list hboth (fun h => (hneeds h).elim hitem hitem')⟩
  | rigid hw hjoin =>
    obtain ⟨d', hw', hjoin'⟩ := contains_const.mp hd
    rw [hw] at hw'
    cases hw'
    obtain ⟨both, hboth, hle⟩ := rigid_join c d _ hjoin hjoin'
    exact ⟨both, hboth, .rigid hw hle⟩

/-- What belongs to a class belongs to every class that it refines. -/
theorem Contains.weaken {c d : Typeclass} {x : Reading Rigid} (h : d.Contains x)
    (hjoin : Typeclass.join c d = some d) : c.Contains x := by
  cases h with
  | basic hmem => exact .basic (basics_of_join c d hjoin _ hmem)
  | tuple hitems =>
    obtain rfl := eq_comparable_of_join c hjoin
    exact .tuple hitems
  | list hne hitem =>
    obtain ⟨hc, hneeds⟩ := list_of_join c d hjoin hne
    exact .list hc (fun h => hitem (hneeds h))
  | rigid hw hle => exact .rigid hw (join_trans c d _ hjoin hle)

end Typeclass

/-! ### Closed types that stand for variables -/

namespace TyVar

structure Fits (v : TyVar) (x : Reading Rigid) : Prop where
  rigid : ∀ h : v.rigid = true, x = .const ⟨v, h⟩
  flexible : v.rigid = false → ∀ c, v.typeclass = some c → c.Contains x

variable {v w : TyVar} {x : Reading Rigid}

theorem fits_of_contains (hv : v.rigid = false) (h : ∀ c, v.typeclass = some c → c.Contains x) :
    v.Fits x := by
  refine ⟨fun hrigid => ?_, fun _ => h⟩
  rw [hv] at hrigid
  cases hrigid

/-- What fits a variable fits every flexible variable whose class it meets. -/
theorem Fits.of_meets (h : w.Fits x) (hv : v.rigid = false) (hmeets : w.Meets v) : v.Fits x := by
  refine fits_of_contains hv (fun c hc => ?_)
  obtain ⟨d, hd, hjoin⟩ := hmeets c hc
  cases hw : w.rigid with
  | true =>
    rw [h.rigid hw]
    exact .rigid hd hjoin
  | false => exact (h.flexible hw d hd).weaken hjoin

theorem Fits.meets (h : v.Fits x) (h' : w.Fits x) (hv : v.rigid = false) (hw : w.rigid = true) :
    w.Meets v := by
  intro c hc
  have hcontains := h.flexible hv c hc
  rw [h'.rigid hw] at hcontains
  exact Typeclass.contains_const.mp hcontains

/-- Nothing fits two variables that clash. -/
theorem Clashes.not_fits (h : v.Clashes w) (hne : v ≠ w) (hv : v.Fits x) : ¬ w.Fits x := by
  intro hw
  cases h with
  | rigid hvr hwr =>
    have heq := (hv.rigid hvr).symm.trans (hw.rigid hwr)
    exact hne (congrArg Subtype.val (Reading.const.inj heq))
  | flexRigid hvr hwr hmeets => exact hmeets (hv.meets hw hvr hwr)
  | rigidFlex hvr hwr hmeets => exact hmeets (hw.meets hv hwr hvr)
  | classes hvr hwr hc hd hjoin =>
    obtain ⟨both, hboth, -⟩ := (hv.flexible hvr _ hc).join (hw.flexible hwr _ hd)
    rw [hjoin] at hboth
    cases hboth

/-- What fits two flexible variables fits one of their joint class. -/
theorem Fits.joined {c d both : Typeclass} (hv : v.Fits x) (hw : w.Fits x) (hvr : v.rigid = false)
    (hwr : w.rigid = false) (hc : v.typeclass = some c) (hd : w.typeclass = some d)
    (hjoin : Typeclass.join c d = some both) (id : VarId) : TyVar.Fits ⟨id, both.name, false⟩ x := by
  obtain ⟨both', hjoin', hx⟩ := (hv.flexible hvr c hc).join (hw.flexible hwr d hd)
  rw [hjoin] at hjoin'
  cases hjoin'
  refine fits_of_contains rfl (fun e he => ?_)
  rw [typeclass_of_name] at he
  cases he
  exact hx

theorem meets_joined {c d both : Typeclass} (hc : v.typeclass = some c) (hd : w.typeclass = some d)
    (hjoin : Typeclass.join c d = some both) (id : VarId) :
    TyVar.Meets ⟨id, both.name, false⟩ v ∧ TyVar.Meets ⟨id, both.name, false⟩ w := by
  obtain ⟨hleft, hright⟩ := Typeclass.join_joined hjoin
  exact ⟨Store.meets_of_join hc (typeclass_of_name id both false) hleft,
    Store.meets_of_join hd (typeclass_of_name id both false) hright⟩

def specimen (v : TyVar) : Reading Rigid :=
  if h : v.rigid = true then .const ⟨v, h⟩
  else
    match v.typeclass with
    | none => .unit
    | some .number => .union "Basics" "Int" []
    | some _ => .union "String" "String" []

theorem fits_specimen (v : TyVar) : v.Fits v.specimen := by
  unfold specimen
  by_cases hv : v.rigid = true
  · rw [dif_pos hv]
    exact ⟨fun _ => rfl, fun hflex => absurd hv (by simp [hflex])⟩
  · rw [dif_neg hv]
    refine fits_of_contains (by simpa using hv) (fun c hc => ?_)
    rw [hc]
    cases c <;> exact .basic (by decide)

end TyVar

end ElmInference
