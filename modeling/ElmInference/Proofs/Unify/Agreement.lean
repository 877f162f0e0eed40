import ElmInference.Proofs.Store.Crossings
import ElmInference.Proofs.Unify.Acyclicity
import ElmInference.Proofs.Unify.Soundness

/-!
# Unified types are written out alike

What was shown of environments is brought to the types that a reader sees. After a successful unification
in an acyclic store, the two types zonk to types that differ in nothing but alias information, field
references, the order of fields, later duplicates of a field and the currying of functions: their readings
are equal. This holds for records of every kind, as long as nothing in the types is unknown and records
rest on records or on unsolved variables.
-/

namespace ElmInference

/-- What a type says when its variables and growing records stand for themselves. -/
def Ty.reading (t : Ty) : Reading Node :=
  t.read .const

namespace Store

open Relation StoreM

variable {s s' : Store}

/-- Whether a reading of a type comes to no part about which nothing is known. -/
def Known (s : Store) (t : Ty) : Prop :=
  ∀ u, ReflTransGen s.Child t u → u ≠ .unknown ∧ u ≠ .inProgress

theorem reads_hole {t : Ty} (h : .hole ∈ t.mentions false) :
    ReflTransGen s.Child t .unknown ∨ ReflTransGen s.Child t .inProgress := by
  induction t using Ty.inductParts with
  | unit => simp [Ty.mentions] at h
  | unknown => exact .inl .refl
  | inProgress => exact .inr .refl
  | var v => simp [Ty.mentions] at h
  | growing id => simp [Ty.mentions] at h
  | union m n args w iha _ =>
    obtain ⟨t, ht, hr⟩ : ∃ t ∈ args, .hole ∈ t.mentions false := by
      simpa [Ty.mentions, Ty.mem_mentionsList] using h
    exact (iha t ht hr).imp (.head (.arg ht)) (.head (.arg ht))
  | tuple items ih =>
    obtain ⟨t, ht, hr⟩ : ∃ t ∈ items, .hole ∈ t.mentions false := by
      simpa [Ty.mentions, Ty.mem_mentionsList] using h
    exact (ih t ht hr).imp (.head (.item ht)) (.head (.item ht))
  | record fields base w refs ihf ihb _ =>
    simp only [Ty.mentions, Ty.mentionsAlias_false, List.append_nil, List.mem_append,
      Ty.mem_mentionsFields] at h
    rcases h with ⟨field, hf, heq | hr⟩ | hr
    · cases heq
    · exact (ihf field hf hr).imp (.head (.field hf)) (.head (.field hf))
    · cases base with
      | none => simp [Ty.mentionsBase] at hr
      | some b => exact (ihb b rfl hr).imp (.head .base) (.head .base)
  | arrow params ret w ihp ihr _ =>
    simp only [Ty.mentions, Ty.mentionsAlias_false, List.append_nil, List.mem_append,
      Ty.mem_mentionsList] at h
    rcases h with ⟨t, ht, hr⟩ | hr
    · exact (ihp t ht hr).imp (.head (.param ht)) (.head (.param ht))
    · exact (ihr hr).imp (.head .ret) (.head .ret)

theorem Known.not_hole {t u : Ty} (h : s.Known t) (hreads : ReflTransGen s.Child t u) :
    .hole ∉ u.mentions false := by
  intro hhole
  rcases reads_hole hhole with hunknown | hprogress
  · exact (h _ (hreads.trans hunknown)).1 rfl
  · exact (h _ (hreads.trans hprogress)).2 rfl

/-! ### What two types talk about -/

/-- What can be read in one of two types, and all field names. -/
def talk (s : Store) (a e : Ty) : Set Mention :=
  {r | (∃ name, r = .field name) ∨
    ∃ u, (ReflTransGen s.Child a u ∨ ReflTransGen s.Child e u) ∧ r ∈ u.mentions false}

theorem talk_of_reads {a e t u : Ty} (h : ReflTransGen s.Child a t ∨ ReflTransGen s.Child e t)
    (hreads : ReflTransGen s.Child t u) {r : Mention} (hr : r ∈ u.mentions false) :
    r ∈ s.talk a e :=
  .inr ⟨u, h.imp (·.trans hreads) (·.trans hreads), hr⟩

theorem keeps_talk (s : Store) (a e : Ty) : s.Keeps (· ∈ s.talk a e) := by
  constructor
  · intro v t hv hsol r hr
    rcases hv with ⟨name, heq⟩ | ⟨u, hu, hv⟩
    · cases heq
    · exact talk_of_reads hu ((reads_of_mention s hv rfl).tail (.solution hsol)) hr
  · intro id g hid hrec r hr
    rcases hid with ⟨name, heq⟩ | ⟨u, hu, hid⟩
    · cases heq
    · have hgrowing : ReflTransGen s.Child u (.growing id) := reads_of_mention s hid rfl
      simp only [GrowingRecord.links, List.mem_append, Ty.mem_mentionsFields] at hr
      rcases hr with ⟨field, hfield, rfl | hr⟩ | hr
      · exact .inl ⟨field.1, rfl⟩
      · exact talk_of_reads hu (hgrowing.tail (.growingField hrec hfield)) hr
      · exact talk_of_reads hu (hgrowing.tail (.growingBase hrec)) hr

theorem owns_of_reads (hclosed : s.Closed) {t u : Ty} (ht : s.Owns t)
    (h : ReflTransGen s.Child t u) : s.Owns u := by
  induction h with
  | refl => exact ht
  | tail _ hchild ih => exact ih.child hchild hclosed

theorem tidy_talk (hsane : s.Sane) {a e : Ty} (ha : s.Owns a) (he : s.Owns e) :
    Tidy (s, s.talk a e) := by
  refine ⟨hsane.closed, hsane.loopfree, s.keeps_talk a e, ?_⟩
  rintro r (⟨name, rfl⟩ | ⟨u, hu, hr⟩)
  · trivial
  · rcases hu with hu | hu
    · exact owns_of_reads hsane.closed ha hu r hr
    · exact owns_of_reads hsane.closed he hu r hr

theorem not_hole_talk {a e : Ty} (ha : s.Known a) (he : s.Known e) : .hole ∉ s.talk a e := by
  rintro (⟨name, heq⟩ | ⟨u, hu, hr⟩)
  · cases heq
  · rcases hu with hu | hu
    · exact ha.not_hole hu hr
    · exact he.not_hole hu hr

/-! ### The main statement -/

/-- After a successful unification both types say the same in every environment that models the store, and
what they zonk to has one reading. They do zonk when the store can be displayed. -/
theorem unified_types_zonk_alike {s s' : Store} {a e : Ty} (hacyclic : s.Acyclic) (hclosed : s.Closed)
    (ha : s.Owns a) (he : s.Owns e) (hknown : s.Known a) (hknown' : s.Known e)
    (hrun : unify a e s = .ok (.ok (), s')) (hbased : s'.Based a) (hbased' : s'.Based e) :
    (∀ za ze, s'.zonk a = .ok za → s'.zonk e = .ok ze → za.reading = ze.reading) ∧
    (s'.Displayable → s'.Displays a → s'.Displays e →
      ∃ za ze, s'.zonk a = .ok za ∧ s'.zonk e = .ok ze ∧ za.reading = ze.reading) ∧
    (∀ (κ : Type) (η : Env κ), s'.Models η → a.read η = e.read η) := by
  have hsane := hacyclic.sane hclosed
  have htidy := tidy_talk hsane ha he
  have hhole := not_hole_talk hknown hknown'
  have haQ : a.Within (s.talk a e) := fun r hr => talk_of_reads (.inl .refl) .refl hr
  have heQ : e.Within (s.talk a e) := fun r hr => talk_of_reads (.inr .refl) .refl hr
  obtain ⟨Q', hmoves⟩ : ∃ Q', Moves (s, s.talk a e) (s', Q') := by
    have hlands := safe_unify s a e _ htidy haQ heQ
    rwa [hrun] at hlands
  have htidy' := hmoves.tidy htidy
  have hhole' := not_hole_of_moves hmoves hhole
  have hsame : ∀ (κ : Type) (η : Env κ), s'.Models η → a.read η = e.read η := by
    intro κ η hmodels
    exact sound_unify s a e _ htidy hhole haQ heQ s' hrun κ η s' (.refl s') hmodels hbased hbased'
  have halike : ∀ za ze, s'.zonk a = .ok za → s'.zonk e = .ok ze → za.reading = ze.reading := by
    intro za ze hza hze
    obtain ⟨η, hmodels, hfree⟩ := exists_models htidy'.loopfree (fun id => .const (Node.var id))
    have hspells : ∀ t z, t.Within Q' → s'.zonk t = .ok z → z.reading = t.read η := by
      intro t z ht hz
      refine (spells_zonk hmodels (fun id hsol => ?_) hhole' htidy'.keeps ht hz).read
      exact (hfree id hsol).symm
    calc za.reading
        = a.read η := hspells a za (haQ.mono hmoves.subset) hza
      _ = e.read η := hsame Node η hmodels
      _ = ze.reading := (hspells e ze (heQ.mono hmoves.subset) hze).symm
  refine ⟨halike, fun hstore hda hde => ?_, hsame⟩
  obtain ⟨za, hza⟩ := exists_zonk hstore hda
  obtain ⟨ze, hze⟩ := exists_zonk hstore hde
  exact ⟨za, ze, hza, hze, halike za ze hza hze⟩

/-! ### A row that is solved on the way -/

/-- Three variables, the last of which is a record whose one field has the type of the record's own row;
`row` is what is known of that row. -/
def selfRow (row : Option Ty) : Store :=
  { solutions := ⟨#[row, none, some (.growing 0)]⟩
    records := #[{ fields := [("f", .var ⟨0, "r", false⟩)], base := .var ⟨0, "r", false⟩ }] }

/-- A record of the same shape over the second variable. -/
def selfRowTwin : Ty :=
  .record [("f", .var ⟨1, "q", false⟩)] (some (.var ⟨1, "q", false⟩)) none .empty

/-- What can be read in the record and in its twin. -/
def selfRowTypes : List Ty :=
  [.var ⟨2, "v", false⟩, .growing 0, .var ⟨0, "r", false⟩, .var ⟨1, "q", false⟩, selfRowTwin]

theorem child_selfRow {row : Option Ty} (hrow : ∀ t, row = some t → t = .var ⟨1, "q", false⟩) {t u : Ty}
    (ht : t ∈ selfRowTypes) (h : (selfRow row).Child t u) : u ∈ selfRowTypes := by
  have hrec : (selfRow row).records[0]? =
      some { fields := [("f", .var ⟨0, "r", false⟩)], base := .var ⟨0, "r", false⟩ } := rfl
  simp only [selfRowTypes, List.mem_cons, List.not_mem_nil, or_false] at ht
  rcases ht with rfl | rfl | rfl | rfl | rfl
  · cases h with
    | solution hsol =>
      cases hsol
      simp [selfRowTypes]
  · cases h with
    | growingField hrec' hfield =>
      rw [hrec] at hrec'
      obtain rfl := Option.some.inj hrec'
      obtain rfl := List.mem_singleton.mp hfield
      simp [selfRowTypes]
    | growingBase hrec' =>
      rw [hrec] at hrec'
      obtain rfl := Option.some.inj hrec'
      simp [selfRowTypes]
  · cases h with
    | solution hsol =>
      obtain rfl := hrow _ hsol
      simp [selfRowTypes]
  · cases h with
    | solution hsol => cases hsol
  · cases h with
    | field hfield =>
      obtain rfl := List.mem_singleton.mp hfield
      simp [selfRowTypes]
    | base => simp [selfRowTypes]

theorem reads_selfRow {row : Option Ty} (hrow : ∀ t, row = some t → t = .var ⟨1, "q", false⟩) {t u : Ty}
    (ht : t ∈ selfRowTypes) (h : ReflTransGen (selfRow row).Child t u) : u ∈ selfRowTypes := by
  induction h with
  | refl => exact ht
  | tail _ hchild ih => exact child_selfRow hrow ih hchild

theorem known_selfRow {t : Ty} (ht : t ∈ selfRowTypes) : (selfRow none).Known t := by
  intro u hreads
  have hu := reads_selfRow (by simp) ht hreads
  simp only [selfRowTypes, selfRowTwin, List.mem_cons, List.not_mem_nil, or_false] at hu
  rcases hu with rfl | rfl | rfl | rfl | rfl <;> simp

theorem based_selfRow {t : Ty} (ht : t ∈ selfRowTypes) :
    (selfRow (some (.var ⟨1, "q", false⟩))).Based t := by
  intro u b hreads hrests
  have hb := child_selfRow (by simp) (reads_selfRow (by simp) ht hreads) hrests.child
  have hq : (selfRow (some (.var ⟨1, "q", false⟩))).Unsolved 1 := ⟨by decide, rfl⟩
  simp only [selfRowTypes, selfRowTwin, List.mem_cons, List.not_mem_nil, or_false] at hb
  rcases hb with rfl | rfl | rfl | rfl | rfl
  · exact ⟨_, .solved rfl (.other (by simp)), .inr (.inl ⟨0, rfl⟩)⟩
  · exact ⟨_, .other (by simp), .inr (.inl ⟨0, rfl⟩)⟩
  · exact ⟨_, .solved rfl (.unsolved hq), .inr (.inr ⟨_, rfl⟩)⟩
  · exact ⟨_, .unsolved hq, .inr (.inr ⟨_, rfl⟩)⟩
  · exact ⟨_, .other (by simp), .inl ⟨_, _, _, _, rfl⟩⟩

theorem sane_selfRow : (selfRow none).Sane := by
  have hrun : unify (.var ⟨2, "v", false⟩)
      (.record [("f", .var ⟨0, "r", false⟩)] (some (.var ⟨0, "r", false⟩)) none .empty)
      ({} : Store).extended.extended.extended = .ok (.ok (), selfRow none) := rfl
  exact sane_empty.extended.extended.extended.unify (by decide) (by decide) hrun

/-- The row of the first record is solved while the field that the two records share is unified. -/
theorem unified_types_zonk_alike_of_selfRow :
    let s := selfRow none
    let s' := selfRow (some (.var ⟨1, "q", false⟩))
    let a : Ty := .var ⟨2, "v", false⟩
    s.Acyclic ∧ s.Closed ∧ s.Owns a ∧ s.Owns selfRowTwin ∧ s.Known a ∧ s.Known selfRowTwin ∧
      unify a selfRowTwin s = .ok (.ok (), s') ∧ s'.Based a ∧ s'.Based selfRowTwin ∧
      s'.zonk a = .ok selfRowTwin ∧ s'.zonk selfRowTwin = .ok selfRowTwin ∧
      ∀ (κ : Type) (η : Env κ), s'.Models η → a.read η = selfRowTwin.read η := by
  intro s s' a
  have hsane : s.Sane := sane_selfRow
  have ha : s.Owns a := by decide
  have he : s.Owns selfRowTwin := by decide
  have hmem : a ∈ selfRowTypes := by simp [selfRowTypes, a]
  have hmem' : selfRowTwin ∈ selfRowTypes := by simp [selfRowTypes]
  have hrun : unify a selfRowTwin s = .ok (.ok (), s') := rfl
  have halike := unified_types_zonk_alike hsane.acyclic hsane.closed ha he (known_selfRow hmem)
    (known_selfRow hmem') hrun (based_selfRow hmem) (based_selfRow hmem')
  exact ⟨hsane.acyclic, hsane.closed, ha, he, known_selfRow hmem, known_selfRow hmem', hrun,
    based_selfRow hmem, based_selfRow hmem', rfl, rfl, halike.2.2⟩

end Store

end ElmInference
