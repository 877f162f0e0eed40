import ElmInference.Proofs.Store.Models
import ElmInference.Store.Zonk
import Mathlib.Data.List.Forall2

/-!
# Zonked types say the same

Zonking writes out what a type says in a store, so a zonked type says under the plain environment, in which
every variable stands for itself, what the type said under a model of the store. A growing record with an
unknown base is the one exception, as zonking closes it, and it does not occur where nothing is unknown.

Zonking is the only walk that goes into the arguments of aliases. It comes to an end when the solution
graph has no loops even with these counted.
-/

namespace ElmInference

theorem exists_mem_of_forall₂ {α β : Type} {R : α → β → Prop} {xs : List α} {ys : List β} (h : List.Forall₂ R xs ys)
    {y : β} (hy : y ∈ ys) : ∃ x ∈ xs, R x y := by
  induction h with
  | nil => cases hy
  | cons hfirst _ ih =>
    rcases List.mem_cons.mp hy with rfl | hy
    · exact ⟨_, List.mem_cons_self, hfirst⟩
    · obtain ⟨x, hx, hrel⟩ := ih hy
      exact ⟨x, List.mem_cons_of_mem _ hx, hrel⟩

namespace Store

open Relation

variable {κ : Type} {s : Store} {η ζ : Env κ} {Q : Mention → Prop}

theorem ok_bind {α β : Type} (a : α) (f : α → Except Fault β) : (Except.ok a >>= f) = f a := rfl

/-! ### Lists and fields -/

theorem mapM_eq_ok_iff {α β : Type} {f : α → Except Fault β} {xs : List α} {ys : List β} :
    xs.mapM f = .ok ys ↔ List.Forall₂ (fun x y => f x = .ok y) xs ys := by
  induction xs generalizing ys with
  | nil =>
    rw [List.mapM_nil, List.forall₂_nil_left_iff]
    exact ⟨fun h => (Except.ok.inj h).symm, fun h => h ▸ rfl⟩
  | cons x xs ih =>
    rw [List.mapM_cons, List.forall₂_cons_left_iff]
    constructor
    · intro h
      obtain ⟨y, hy, h⟩ := exists_of_bind_ok h
      obtain ⟨rest, hrest, h⟩ := exists_of_bind_ok h
      cases h
      exact ⟨y, rest, hy, ih.mp hrest, rfl⟩
    · rintro ⟨y, rest, hy, hrest, rfl⟩
      rw [hy, ok_bind, ih.mpr hrest]
      rfl

theorem zonkList_eq (follow : Ty → Except Fault Ty) (ts : List Ty) :
    s.zonkList follow ts = ts.mapM (s.zonkWith follow) := by
  induction ts with
  | nil => rfl
  | cons t ts ih =>
    rw [zonkList, List.mapM_cons, ih]

theorem zonkFields_eq (follow : Ty → Except Fault Ty) (fields : List (Name × Ty)) :
    s.zonkFields follow fields = fields.mapM (fun field => do return (field.1, ← s.zonkWith follow field.2)) := by
  induction fields with
  | nil => rfl
  | cons field rest ih =>
    obtain ⟨name, t⟩ := field
    rw [zonkFields, List.mapM_cons, ih, bind_assoc]
    rfl

theorem zonkList_iff {follow : Ty → Except Fault Ty} {ts zs : List Ty} :
    s.zonkList follow ts = .ok zs ↔ List.Forall₂ (fun t z => s.zonkWith follow t = .ok z) ts zs := by
  rw [zonkList_eq, mapM_eq_ok_iff]

abbrev ZonkedFields (follow : Ty → Except Fault Ty) : List (Name × Ty) → List (Name × Ty) → Prop :=
  List.Forall₂ (fun field zonked => zonked.1 = field.1 ∧ follow field.2 = .ok zonked.2)

theorem zonkField_iff {follow : Ty → Except Fault Ty} {field zonked : Name × Ty} :
    (do return (field.1, ← follow field.2)) = Except.ok zonked ↔
      zonked.1 = field.1 ∧ follow field.2 = .ok zonked.2 := by
  constructor
  · intro h
    obtain ⟨z, hz, heq⟩ := exists_of_bind_ok h
    cases heq
    exact ⟨rfl, hz⟩
  · rintro ⟨hname, hz⟩
    rw [hz, ← hname]
    rfl

theorem mapM_fields_iff {follow : Ty → Except Fault Ty} {fields zonked : List (Name × Ty)} :
    fields.mapM (fun field => do return (field.1, ← follow field.2)) = .ok zonked ↔ ZonkedFields follow fields zonked := by
  rw [mapM_eq_ok_iff]
  exact ⟨fun h => h.imp fun _ _ => zonkField_iff.mp, fun h => h.imp fun _ _ => zonkField_iff.mpr⟩

theorem zonkFields_iff {follow : Ty → Except Fault Ty} {fields zonked : List (Name × Ty)} :
    s.zonkFields follow fields = .ok zonked ↔ ZonkedFields (s.zonkWith follow) fields zonked := by
  rw [zonkFields_eq, mapM_fields_iff]

/-! ### What functions and records are zonked to -/

theorem exists_of_zonkWith_arrow {follow : Ty → Except Fault Ty} {params : List Ty} {ret z : Ty}
    {w : Option (AliasUse Ty)} (hz : s.zonkWith follow (.arrow params ret w) = .ok z) :
    ∃ ys r w', s.zonkList follow params = .ok ys ∧ s.zonkWith follow ret = .ok r ∧ s.zonkAlias follow w = .ok w' ∧
      z = (Ty.function ys r).writtenAs? w' := by
  rw [zonkWith] at hz
  obtain ⟨ys, hys, hz⟩ := exists_of_bind_ok hz
  obtain ⟨r, hr, hz⟩ := exists_of_bind_ok hz
  obtain ⟨w', hw', hz⟩ := exists_of_bind_ok hz
  cases hz
  exact ⟨ys, r, w', hys, hr, hw', rfl⟩

theorem exists_of_zonkWith_record {follow : Ty → Except Fault Ty} {fields : List (Name × Ty)} {base : Option Ty}
    {w : Option (AliasUse Ty)} {refs : FieldReferences} {z : Ty} (hz : s.zonkWith follow (.record fields base w refs) = .ok z) :
    ∃ zs b w', s.zonkFields follow fields = .ok zs ∧ s.zonkBase follow base = .ok b ∧
      s.zonkAlias follow w = .ok w' ∧ z = (Ty.recordWith zs b refs).writtenAs? w' := by
  rw [zonkWith] at hz
  obtain ⟨zs, hzs, hz⟩ := exists_of_bind_ok hz
  obtain ⟨b, hb, hz⟩ := exists_of_bind_ok hz
  obtain ⟨w', hw', hz⟩ := exists_of_bind_ok hz
  cases hz
  exact ⟨zs, b, w', hzs, hb, hw', rfl⟩

theorem exists_of_zonkBase {follow : Ty → Except Fault Ty} {t : Ty} {b : Option Ty}
    (hb : s.zonkBase follow (some t) = .ok b) : ∃ z, s.zonkWith follow t = .ok z ∧ b = some z := by
  rw [zonkBase] at hb
  obtain ⟨z, hz, hb⟩ := exists_of_bind_ok hb
  cases hb
  exact ⟨z, hz, rfl⟩

/-! ### What a zonked type says -/

/-- What zonking makes of a type: it says the same, and it is known to say something. -/
structure Spells (η ζ : Env κ) (t z : Ty) : Prop where
  read : z.read ζ = t.read η
  known : z ≠ .unknown

theorem map_of_zonkList {follow : Ty → Except Fault Ty} {ts zs : List Ty}
    (hts : ∀ t ∈ ts, ∀ z, s.zonkWith follow t = .ok z → Spells η ζ t z)
    (h : s.zonkList follow ts = .ok zs) : zs.map (Ty.read ζ) = ts.map (Ty.read η) := by
  rw [zonkList_iff] at h
  induction h with
  | nil => rfl
  | cons hfirst _ ih =>
    rw [List.map_cons, List.map_cons, (hts _ List.mem_cons_self _ hfirst).read,
      ih (fun u hu => hts u (List.mem_cons_of_mem _ hu))]

theorem fieldReadings_cons {name : Name} {t z : Ty} {fields zonked : List (Name × Ty)}
    (hread : z.read ζ = t.read η)
    (hrest : Ty.fieldReadings ζ zonked = Ty.fieldReadings η fields) :
    Ty.fieldReadings ζ ((name, z) :: zonked) = Ty.fieldReadings η ((name, t) :: fields) := by
  funext other
  have hother := congrFun hrest other
  simp only [Ty.fieldReadings, Assoc.get?] at hother ⊢
  split
  · simp only [Option.map_some, hread]
  · exact hother

theorem ZonkedFields.readings {follow : Ty → Except Fault Ty} {fields zonked : List (Name × Ty)}
    (h : ZonkedFields follow fields zonked)
    (hfields : ∀ field ∈ fields, ∀ z, follow field.2 = .ok z → Spells η ζ field.2 z) :
    Ty.fieldReadings ζ zonked = Ty.fieldReadings η fields := by
  induction h with
  | nil => rfl
  | @cons field zonked _ _ hfirst _ ih =>
    obtain ⟨name, t⟩ := field
    obtain ⟨_, z⟩ := zonked
    obtain ⟨rfl, hz⟩ := hfirst
    exact fieldReadings_cons (hfields _ List.mem_cons_self z hz).read
      (ih (fun u hu => hfields u (List.mem_cons_of_mem _ hu)))

theorem writtenAs?_ne_unknown {t : Ty} (h : t ≠ .unknown) (w : Option (AliasUse Ty)) :
    t.writtenAs? w ≠ .unknown := by
  cases w with
  | none => exact h
  | some use => cases t <;> simp_all [Ty.writtenAs?, Ty.writtenAs]

theorem recordWith_ne_unknown (fields : List (Name × Ty)) (base : Option Ty) (refs : FieldReferences) :
    Ty.recordWith fields base refs ≠ .unknown := by
  unfold Ty.recordWith
  split <;> simp

theorem function_ne_unknown {params : List Ty} {ret : Ty} (h : ret ≠ .unknown) :
    Ty.function params ret ≠ .unknown := by
  unfold Ty.function
  split
  · exact h
  · split <;> simp

/-- One level of zonking, when what goes on behind it says the same. -/
theorem spells_zonkWith (hmodels : s.Models η)
    (hfree : ∀ id, s.solution? id = none → ζ (.var id) = η (.var id)) (hhole : ¬ Q .hole)
    (hkeeps : s.Keeps Q) {follow : Ty → Except Fault Ty}
    (hfollow : ∀ t z, (∀ r ∈ t.mentions false, Q r) → follow t = .ok z → Spells η ζ t z) {t z : Ty}
    (ht : ∀ r ∈ t.mentions false, Q r) (h : s.zonkWith follow t = .ok z) : Spells η ζ t z := by
  induction t using Ty.inductParts generalizing z with
  | unit =>
    rw [zonkWith] at h
    cases h
    exact ⟨rfl, by simp⟩
  | unknown | inProgress => exact absurd (ht .hole (by simp [Ty.mentions])) hhole
  | var v =>
    rw [zonkWith] at h
    obtain ⟨solution, hsolution, h⟩ := exists_of_bind_ok h
    by_cases hlt : v.id < s.size
    · rw [solution_of_lt hlt] at hsolution
      cases hsolution
      cases hsol : s.solution? v.id with
      | none =>
        rw [hsol] at h
        cases h
        exact ⟨hfree v.id hsol, by simp⟩
      | some u =>
        rw [hsol] at h
        have hspells := hfollow u z (hkeeps.solution v u (ht _ (by simp [Ty.mentions])) hsol) h
        exact ⟨hspells.read.trans (hmodels.solution _ _ hsol).symm, hspells.known⟩
    · rw [solution_of_ge (Nat.le_of_not_lt hlt)] at hsolution
      cases hsolution
  | growing id =>
    rw [zonkWith] at h
    obtain ⟨g, hg, h⟩ := exists_of_bind_ok h
    have hrec : s.records[id]? = some g := by
      cases hrec : s.records[id]? with
      | none =>
        simp only [record, hrec] at hg
        cases hg
      | some g' =>
        rw [record_of_some hrec] at hg
        cases hg
        rfl
    obtain ⟨fields, hfields, h⟩ := exists_of_bind_ok h
    obtain ⟨base, hbase, h⟩ := exists_of_bind_ok h
    have hlinks := hkeeps.record id g (ht _ (by simp [Ty.mentions])) hrec
    have hspells := hfollow g.base base (fun r hr => hlinks r (List.mem_append_right _ hr)) hbase
    have hreadings := (mapM_fields_iff.mp hfields).readings (η := η) (ζ := ζ) (fun field hfield z hz =>
      hfollow field.2 z (fun r hr => hlinks r (List.mem_append_left _
        (Ty.mem_mentionsFields.mpr ⟨field, hfield, .inr hr⟩))) hz)
    have hz : z = Ty.recordWith fields (some base) g.refs := by
      split at h
      · exact absurd rfl hspells.known
      · exact (Except.ok.inj h).symm
    subst hz
    refine ⟨?_, recordWith_ne_unknown _ _ _⟩
    rw [Ty.read_recordWith, hreadings, Ty.readBase, hspells.read, Ty.read_growing,
      hmodels.record _ _ hrec, GrowingRecord.read]
  | union m n args w iha _ =>
    rw [zonkWith] at h
    obtain ⟨zs, hzs, h⟩ := exists_of_bind_ok h
    obtain ⟨w', _, h⟩ := exists_of_bind_ok h
    cases h
    refine ⟨?_, by simp⟩
    rw [Ty.read_union, Ty.read_union, map_of_zonkList (fun u hu z hz => iha u hu (fun r hr => ht r ?_) hz) hzs]
    simpa [Ty.mentions, Ty.mem_mentionsList] using ⟨u, hu, hr⟩
  | tuple items ih =>
    rw [zonkWith] at h
    obtain ⟨zs, hzs, h⟩ := exists_of_bind_ok h
    cases h
    refine ⟨?_, by simp⟩
    rw [Ty.read_tuple, Ty.read_tuple, map_of_zonkList (fun u hu z hz => ih u hu (fun r hr => ht r ?_) hz) hzs]
    simpa [Ty.mentions, Ty.mem_mentionsList] using ⟨u, hu, hr⟩
  | record fields base w refs ihf ihb _ =>
    obtain ⟨fields', base', w', hfields, hbase, -, rfl⟩ := exists_of_zonkWith_record h
    refine ⟨?_, writtenAs?_ne_unknown (recordWith_ne_unknown _ _ _) _⟩
    have hreadings := (zonkFields_iff.mp hfields).readings (η := η) (ζ := ζ)
      (fun field hfield z hz => ihf field hfield (fun r hr => ht r (by
        simp only [Ty.mentions, Ty.mentionsAlias_false, List.mem_append, Ty.mem_mentionsFields]
        exact .inl ⟨field, hfield, .inr hr⟩)) hz)
    have hreadBase : Ty.readBase ζ base' = Ty.readBase η base := by
      cases base with
      | none =>
        rw [zonkBase] at hbase
        cases hbase
        rfl
      | some b =>
        obtain ⟨b', hb', rfl⟩ := exists_of_zonkBase hbase
        exact (ihb b rfl (fun r hr => ht r (by simp [Ty.mentions, Ty.mentionsBase, hr])) hb').read
    rw [Ty.read_writtenAs?, Ty.read_recordWith, hreadings, hreadBase, Ty.read_record]
  | arrow params ret w ihp ihr _ =>
    obtain ⟨params', ret', w', hparams, hret, -, rfl⟩ := exists_of_zonkWith_arrow h
    have hspells := ihr (fun r hr => ht r (by simp [Ty.mentions, hr])) hret
    refine ⟨?_, writtenAs?_ne_unknown (function_ne_unknown hspells.known) _⟩
    rw [Ty.read_writtenAs?, Ty.read_function, Ty.read_arrow, hspells.read,
      map_of_zonkList (fun u hu z hz => ihp u hu (fun r hr => ht r ?_) hz) hparams]
    simp only [Ty.mentions, Ty.mentionsAlias_false, List.mem_append, Ty.mem_mentionsList]
    exact .inl ⟨u, hu, hr⟩

theorem spells_zonk (hmodels : s.Models η)
    (hfree : ∀ id, s.solution? id = none → ζ (.var id) = η (.var id)) (hhole : ¬ Q .hole)
    (hkeeps : s.Keeps Q) {t z : Ty} (ht : ∀ r ∈ t.mentions false, Q r) (h : s.zonk t = .ok z) :
    Spells η ζ t z := by
  have hat : ∀ n t z, (∀ r ∈ t.mentions false, Q r) → s.zonkAt n t = .ok z → Spells η ζ t z := by
    intro n
    induction n with
    | zero =>
      intro t z ht h
      exact spells_zonkWith hmodels hfree hhole hkeeps (fun _ _ _ hz => by cases hz) ht h
    | succ n ih =>
      intro t z ht h
      exact spells_zonkWith hmodels hfree hhole hkeeps ih ht h
  exact hat _ t z ht h

/-! ### Types that can be written out -/

/-- Whether a type refers to nothing but the store's own, in the arguments of aliases too. -/
def Displays (s : Store) (t : Ty) : Prop :=
  ∀ r ∈ t.mentions true, s.Has r

/-- A store whose types can be written out: what it holds belongs to it and does not lead back, the
arguments of aliases included. -/
structure Displayable (s : Store) : Prop where
  loopfree : s.Loopfree true
  solution : ∀ id t, s.solution? id = some t → s.Displays t
  record : ∀ (id : RecordId) g, s.records[id]? = some g → ∀ r ∈ g.links true, s.Has r

end Store

end ElmInference
