import ElmInference.Proofs.Store.Mints
import ElmInference.Proofs.Store.Tracking
import ElmInference.Proofs.Unify.Agreement
import ElmInference.Proofs.Unify.Alterations

/-!
# Unification of equal types

There are many ways to write one type. A variable may stand for it, a record may be spread over a chain of bases, and a
function may be written with all its parameters or return another function. Unification recognizes equal types through
all of this, and it does nothing to them: it comes to no variable that could be solved, and no record lacks a field.

What is equal is said by environments in which unsolved variables stand for themselves. In such an environment two types
say the same when they zonk to types that read alike. They also do when they have been unified before, so unification
need not be repeated.
-/

namespace ElmInference

/-- What zonking makes of the base of a growing record: an unknown one is closed. -/
def Reading.closed {κ : Type} : Reading κ → Reading κ
  | .unknown => .empty
  | base => base

theorem Reading.closed_of_ne {κ : Type} {x : Reading κ} (h : x ≠ .unknown) : x.closed = x := by
  cases x with
  | unknown => exact absurd rfl h
  | _ => rfl

/-- Whether a record with this end can be read as one that extends `rest`. -/
def Tail.Matches : Tail → Option (Reading Node) → Prop
  | .closed, rest => ∀ k, rest ≠ some (.const k)
  | .opened v, rest => rest = some (.const (.var v.id))
  | .unknown, _ => True

namespace Store

open Relation StoreM

variable {s s' : Store} {η : Env Node} {Q : Set Mention}

/-! ### Environments that show a store -/

/-- Whether an environment shows a store as it is: unsolved variables stand for themselves, and a growing record may be
closed where nothing is known of its base. -/
structure Portrays (s : Store) (η : Env Node) : Prop where
  free : ∀ id, s.solution? id = none → η (.var id) = .const (.var id)
  solution : ∀ id t, s.solution? id = some t → η (.var id) = t.read η
  record : ∀ (id : RecordId) g, s.records[id]? = some g → ∃ base,
    η (.record id) = .extend (Ty.fieldReadings η g.fields) base ∧
      (base = g.base.read η ∨ g.base.read η = .unknown ∧ base = .empty)

theorem Models.portrays (h : s.Models η) (hfree : ∀ id, s.solution? id = none → η (.var id) = .const (.var id)) :
    s.Portrays η :=
  ⟨hfree, h.solution, fun id g hrec => ⟨_, h.record id g hrec, .inl rfl⟩⟩

/-- What zonking makes of a type: it says what the type does, and it is unknown if that is. -/
structure Renders (η : Env Node) (t y : Ty) : Prop where
  read : y.reading = t.read η
  unknown : t.read η = .unknown → y = .unknown

theorem Alongside.map_reading {ts ys zs : List Ty} (h : Alongside (fun t y _ => Renders η t y) ts ys zs) :
    ys.map Ty.reading = ts.map (Ty.read η) := by
  induction h with
  | nil => rfl
  | cons hfirst _ ih => rw [List.map_cons, List.map_cons, hfirst.read, ih]

theorem Alongside.fields_reading {fields ys zs : List (Name × Ty)}
    (h : Alongside (FieldRel (fun t y _ => Renders η t y)) fields ys zs) :
    Ty.fieldReadings .const ys = Ty.fieldReadings η fields := by
  induction h with
  | nil => rfl
  | @cons field y z _ _ _ hfirst _ ih =>
    obtain ⟨name, t⟩ := field
    obtain ⟨name', y⟩ := y
    obtain ⟨rfl, -, hrenders⟩ := hfirst
    exact fieldReadings_cons hrenders.read ih

theorem renders_of_ne {t y : Ty} (hread : y.reading = t.read η) (h : t.read η ≠ .unknown) : Renders η t y :=
  ⟨hread, fun hunknown => absurd hunknown h⟩

theorem extend_ne_unknown {κ : Type} (fields : Name → Option (Reading κ)) (base : Reading κ) :
    Reading.extend fields base ≠ .unknown := by
  cases base <;> simp [Reading.extend]

theorem respectful_renders : Respectful (fun t y _ => Renders η t y) where
  unit := renders_of_ne rfl (by simp [Ty.read])
  unknown := ⟨rfl, fun _ => rfl⟩
  inProgress := renders_of_ne rfl (by simp [Ty.read])
  union hargs _ := by
    refine renders_of_ne ?_ (by simp [Ty.read_union])
    rw [Ty.reading, Ty.read_union, Ty.read_union, ← hargs.map_reading]
    rfl
  tuple hitems := by
    refine renders_of_ne ?_ (by simp [Ty.read_tuple])
    rw [Ty.reading, Ty.read_tuple, Ty.read_tuple, ← hitems.map_reading]
    rfl
  record hfields hbase _ := by
    refine renders_of_ne ?_ (by rw [Ty.read_record]; exact extend_ne_unknown _ _)
    rw [Ty.reading, Ty.read_writtenAs?, Ty.read_recordWith, Ty.read_record, hfields.fields_reading]
    cases hbase with
    | none => rfl
    | some hbase => rw [Ty.readBase, Ty.readBase, ← hbase.read, Ty.reading]
  arrow {params ys zs ret r r' w y z} hparams hret _ := by
    constructor
    · rw [Ty.reading, Ty.read_writtenAs?, Ty.read_function, Ty.read_arrow, ← hparams.map_reading, ← hret.read]
      rfl
    · rw [Ty.read_arrow]
      intro h
      cases hparams with
      | nil => rw [hret.unknown h, Ty.function, writtenAs?_eq_unknown_iff]
      | cons _ _ => cases h

/-- A store without loops is shown by an environment that says of each type what it zonks to. -/
theorem exists_portrayal (hloop : s.Loopfree false) :
    ∃ η, s.Portrays η ∧ ∀ t z, s.zonk t = .ok z → z.reading = t.read η := by
  obtain ⟨η, hsolution, hfree, hrecord⟩ := exists_env hloop Reading.closed (fun id => .const (Node.var id))
  have hrenders : ∀ t z, s.zonk t = .ok z → Renders η t z := by
    intro t z hz
    refine zonkAt_induct (P := Renders η) respectful_renders (fun v hun => ?_) (fun v t y hsol hy => ?_)
      (fun id g ys zs b hrec hys hb => ?_) hz
    · exact renders_of_ne (hfree v.id hun.2).symm (by rw [Ty.read_var, hfree v.id hun.2]; simp)
    · have hread : (Ty.var v).read η = t.read η := hsolution v.id t hsol
      exact ⟨hy.read.trans hread.symm, fun h => hy.unknown (hread.symm.trans h)⟩
    · have hread : (Ty.growing id).read η = _ := hrecord id g hrec
      refine renders_of_ne ?_ (hread ▸ extend_ne_unknown _ _)
      rw [hread, ← hys.fields_reading]
      by_cases hunknown : b = .unknown
      · have hbase : g.base.read η = .unknown := by rw [← hb.read, hunknown]; rfl
        rw [hunknown, hbase, Ty.reading]
        exact (Ty.read_recordWith ys none g.refs).trans rfl
      · rw [writtenOut_of_ne hunknown, Ty.reading, Ty.read_recordWith,
          Reading.closed_of_ne (fun h => hunknown (hb.unknown h)), ← hb.read]
        rfl
  refine ⟨η, ⟨hfree, hsolution, fun id g hrec => ⟨_, hrecord id g hrec, ?_⟩⟩, fun t z hz => (hrenders t z hz).read⟩
  by_cases hunknown : g.base.read η = .unknown
  · exact .inr ⟨hunknown, by rw [hunknown]; rfl⟩
  · exact .inl (Reading.closed_of_ne hunknown)

/-! ### What a store shows of a record -/

theorem Portrays.read_resolve (hη : s.Portrays η) {t r : Ty} (h : s.ResolvesTo t r) : t.read η = r.read η :=
  h.read hη.solution

theorem Portrays.read_unsolved (hη : s.Portrays η) {v : TyVar} (h : s.Unsolved v.id) :
    (Ty.var v).read η = .const (.var v.id) :=
  hη.free v.id h.2

theorem Portrays.shape?_read (hη : s.Portrays η) {t : Ty} (hown : s.Owns t) (ht : t.Applicable) {shape : Shape}
    (h : shape? t = some shape) : (t.read η).shape? = some shape := by
  refine ht.shape?_read h (fun id heq => ?_)
  subst heq
  obtain ⟨g, hrec⟩ := exists_record hown.growing_lt
  obtain ⟨base, hread, -⟩ := hη.record id g hrec
  rw [hread, Reading.shape?_extend]

theorem extend_of_shape {fields : Name → Option (Reading Node)} {x : Reading Node} (h : x.shape? ≠ some .record) :
    Reading.extend fields x = .record fields (some x) := by
  cases x with
  | record _ _ => exact absurd rfl h
  | _ => rfl

/-- A record says what its fields say, and it extends an unsolved variable exactly if it ends in it. -/
theorem FlattensTo.portrayed (hη : s.Portrays η) (hw : Filled false Ty.Applicable (s, Q)) {t : Ty}
    {above : List (Name × Ty)} {f : Flattened} (h : s.FlattensTo t above f) (ht : Ty.MadeOf false Ty.Applicable Q t) :
    ∃ rest, Reading.extend (Ty.fieldReadings η above) (t.read η) = .record (Ty.fieldReadings η f.fields) rest ∧
      f.tail.Matches rest := by
  induction h with
  | closed =>
    refine ⟨none, ?_, fun k hk => by cases hk⟩
    rw [Ty.read_record, Reading.extend_extend, ← Ty.fieldReadings_addFields]
    simp [Ty.readBase, Reading.empty, Reading.extend]
  | base _ ih =>
    obtain ⟨rest, hread, hrest⟩ := ih (ht.part Ty.hereditary_applicable .base)
    refine ⟨rest, ?_, hrest⟩
    rw [← hread, Ty.read_record, Reading.extend_extend, ← Ty.fieldReadings_addFields]
    rfl
  | @growing id g above f hrec _ ih =>
    obtain ⟨rest, hread, hrest⟩ := ih ((hw.record _ _ hrec).part Ty.hereditary_applicable .base)
    obtain ⟨base, hrecord, rfl | ⟨hunknown, rfl⟩⟩ := hη.record _ _ hrec
    · refine ⟨rest, ?_, hrest⟩
      rw [← hread, Ty.read_growing, hrecord, Reading.extend_extend, ← Ty.fieldReadings_addFields]
    · -- the record is closed, and what it would extend otherwise is no variable
      rw [hunknown] at hread
      obtain ⟨hfields, rfl⟩ := Reading.record.inj hread
      refine ⟨none, ?_, ?_⟩
      · rw [Ty.read_growing, hrecord, Reading.extend_extend, ← Ty.fieldReadings_addFields, hfields]
        simp [Reading.empty, Reading.extend]
      · cases htail : f.tail with
        | closed => exact fun k hk => by cases hk
        | opened v =>
          rw [htail] at hrest
          cases hrest
        | unknown => trivial
  | unsolved hun => exact ⟨_, congrArg _ (hη.read_unsolved hun), rfl⟩
  | @solved v t above f hsol _ ih =>
    obtain ⟨rest, hread, hrest⟩ := ih (hw.solution _ _ hsol)
    exact ⟨rest, (congrArg _ (hη.solution _ _ hsol)).trans hread, hrest⟩
  | unknown => exact ⟨_, rfl, trivial⟩
  | @baseless t above hbaseless =>
    have hshape : (t.read η).shape? ≠ some .record ∧ ∀ k, t.read η ≠ .const k := by
      by_cases hprogress : t = .inProgress
      · subst hprogress
        exact ⟨by simp [Ty.read, Reading.shape?], by simp [Ty.read]⟩
      obtain ⟨shape, hshape, hne⟩ : ∃ shape, shape? t = some shape ∧ shape ≠ .record := by
        cases t <;> simp_all [isBaseless, shape?]
      have hread := hη.shape?_read (hw.tidy.owns ht.within) ht.property hshape
      refine ⟨by rw [hread]; simpa using hne, fun k hk => ?_⟩
      rw [hk] at hread
      cases hread
    refine ⟨some (t.read η), extend_of_shape hshape.1, fun k hk => hshape.2 k (Option.some.inj hk)⟩

/-! ### Names of a flattened record -/

theorem nodup_addFields {above : List (Name × Ty)} (habove : (above.map Prod.fst).Nodup) (fields : List (Name × Ty)) :
    ((Ty.addFields above fields).map Prod.fst).Nodup := by
  induction fields generalizing above with
  | nil => exact habove
  | cons field rest ih =>
    rw [Ty.addFields_cons]
    split
    · exact ih habove
    · next hany =>
      refine ih ?_
      rw [List.map_append, List.nodup_append]
      refine ⟨habove, by simp, fun name hname other hother => ?_⟩
      obtain ⟨entry, hentry, rfl⟩ := List.mem_map.mp hname
      rintro rfl
      exact hany (List.any_eq_true.mpr ⟨entry, hentry, by simpa using hother⟩)

theorem FlattensTo.nodup {t : Ty} {above : List (Name × Ty)} {f : Flattened} (h : s.FlattensTo t above f)
    (habove : (above.map Prod.fst).Nodup) : (f.fields.map Prod.fst).Nodup := by
  induction h with
  | closed => exact nodup_addFields habove _
  | base _ ih => exact ih (nodup_addFields habove _)
  | growing _ _ ih => exact ih (nodup_addFields habove _)
  | unsolved _ => exact habove
  | solved _ _ ih => exact ih habove
  | unknown => exact habove
  | baseless _ => exact habove

/-- The common fields of two records that say the same have types that say the same. -/
theorem read_commonFields {f g : Flattened} (hnodup : (f.fields.map Prod.fst).Nodup)
    (h : Ty.fieldReadings η f.fields = Ty.fieldReadings η g.fields) :
    ∀ p ∈ (commonFields f g).map Prod.snd, p.1.read η = p.2.read η := by
  intro p hp
  obtain ⟨name, hfound, hrequired⟩ := mem_commonFields hp
  have hname := congrFun h name
  rw [Ty.fieldReadings, Assoc.get?_of_mem hnodup hfound, Ty.fieldReadings] at hname
  rw [Flattened.field?] at hrequired
  rw [hrequired] at hname
  exact Option.some.inj hname

theorem fieldsMissingIn_eq_nil {f g : Flattened} (h : Ty.fieldReadings η f.fields = Ty.fieldReadings η g.fields) :
    fieldsMissingIn f g = [] := by
  refine List.filter_eq_nil_iff.mpr (fun field hfield hmissing => ?_)
  have hname := congrFun h field.1
  have hnone : Assoc.get? g.fields field.1 = none := by simpa [Flattened.field?] using hmissing
  rw [Ty.fieldReadings, Ty.fieldReadings, hnone, Option.map_none, Option.map_eq_none_iff] at hname
  exact Ty.any_iff_get?.mp (List.any_eq_true.mpr ⟨field, hfield, by simp⟩) hname

end Store

namespace StoreM

open Store

variable {s s₁ : Store} {η : Env Node} {Q : Set Mention}

/-! ### Nothing is done -/

/-- Whether a run has left the store alone and answered as given, unless it is out of steps. -/
def Idles {α : Type} (s : Store) (answer : α) (res : Ending α) : Prop :=
  res = .error .diverged ∨ res = .ok (answer, s)

/-- Whether two types over a set of mentions, the functions in which take arguments, say the same. -/
structure Alike (Q : Set Mention) (η : Env Node) (a e : Ty) : Prop where
  left : Ty.MadeOf false Ty.Applicable Q a
  right : Ty.MadeOf false Ty.Applicable Q e
  read : a.read η = e.read η

/-- A behaviour under which nothing is done to types that say the same. -/
def Idling (s : Store) (Q : Set Mention) (η : Env Node) : Behaviour := fun s₁ a e res =>
  s₁ = s → Alike Q η a e → Idles s (.ok ()) res

theorem Idles.fault {α β : Type} {answer : α} {fault : Fault} (h : Idles s answer (.error fault)) (other : β) :
    Idles s other (.error fault) := by
  rcases h with h | h
  · exact .inl (congrArg Except.error (Except.error.inj h))
  · cases h

theorem Idles.ok {α : Type} {answer given : α} (h : Idles s answer (.ok (given, s₁))) : given = answer ∧ s₁ = s := by
  rcases h with h | h
  · cases h
  · cases h
    exact ⟨rfl, rfl⟩

theorem idles_pairs {pairs : List (Ty × Ty)} {res : Ending Outcome} (h : Pairs (Idling s Q η) s₁ pairs res)
    (hs : s₁ = s) (hpairs : ∀ p ∈ pairs, Alike Q η p.1 p.2) : Idles s (.ok ()) res := by
  induction h with
  | nil => exact .inr (hs ▸ rfl)
  | fault hfirst => exact hfirst hs (hpairs _ List.mem_cons_self)
  | later hfirst _ ih =>
    obtain ⟨-, hs₁⟩ := (hfirst hs (hpairs _ List.mem_cons_self)).ok
    exact ih hs₁ (fun p hp => hpairs p (List.mem_cons_of_mem _ hp))
  | cons hfirst _ ih =>
    obtain ⟨rfl, hs₁⟩ := (hfirst hs (hpairs _ List.mem_cons_self)).ok
    obtain ⟨rfl, rfl⟩ := (ih hs₁ (fun p hp => hpairs p (List.mem_cons_of_mem _ hp))).ok
    exact .inr rfl

theorem idles_fields {fields : List (Name × Ty × Ty)} {res : Ending (List (Name × Ty × Ty) × Bool)}
    (h : Fields (Idling s Q η) s₁ fields res) (hs : s₁ = s)
    (hfields : ∀ p ∈ fields.map Prod.snd, Alike Q η p.1 p.2) : Idles s ([], false) res := by
  induction h with
  | nil => exact .inr (hs ▸ rfl)
  | fault hfirst => exact (hfirst hs (hfields _ List.mem_cons_self)).fault _
  | later hfirst _ ih =>
    obtain ⟨-, hs₁⟩ := (hfirst hs (hfields _ List.mem_cons_self)).ok
    exact ih hs₁ (fun p hp => hfields p (List.mem_cons_of_mem _ hp))
  | cons hfirst _ ih =>
    obtain ⟨rfl, hs₁⟩ := (hfirst hs (hfields _ List.mem_cons_self)).ok
    obtain ⟨rfl, rfl⟩ := (ih hs₁ (fun p hp => hfields p (List.mem_cons_of_mem _ hp))).ok
    exact .inr rfl

section Level

variable (hη : s.Portrays η) (hw : Filled false Ty.Applicable (s, Q))

include hη hw

/-! ### Records -/

omit hη hw in
/-- The ends of two records that say the same and lack nothing are left alone. -/
theorem idles_ends {f g : Flattened} {res : Ending Outcome} (h : Ends (Idling s Q η) s f g res)
    (hfields : Ty.fieldReadings η f.fields = Ty.fieldReadings η g.fields) {rest : Option (Reading Node)}
    (hf : f.tail.Matches rest) (hg : g.tail.Matches rest)
    (hft : Ty.MadeOf false Ty.Applicable Q f.tail.toTy) (hgt : Ty.MadeOf false Ty.Applicable Q g.tail.toTy) :
    Idles s (.ok ()) res := by
  have hopen : ∀ {v : TyVar}, ¬ (f.tail = .opened v ∧ g.tail = .closed ∨ f.tail = .closed ∧ g.tail = .opened v) := by
    rintro v (⟨hfv, hgv⟩ | ⟨hfv, hgv⟩)
    · rw [hfv] at hf
      rw [hgv] at hg
      exact hg _ hf
    · rw [hfv] at hf
      rw [hgv] at hg
      exact hf _ hg
  cases h with
  | settled _ _ _ => exact .inr rfl
  | tails _ _ hfv hgv hrun =>
    rw [hfv] at hf hft
    rw [hgv] at hg hgt
    have hid := Node.var.inj (Reading.const.inj (Option.some.inj (hf.symm.trans hg)))
    exact hrun rfl ⟨hft, hgt, congrArg (fun id => η (.var id)) hid⟩
  | rigid _ htails => exact absurd htails hopen
  | close _ _ _ htails _ => exact absurd htails hopen
  | growLeft _ hmissing _ => exact absurd (fieldsMissingIn_eq_nil hfields.symm) hmissing
  | growRight hmissing _ _ => exact absurd (fieldsMissingIn_eq_nil hfields) hmissing
  | growBoth hmissing _ _ => exact absurd (fieldsMissingIn_eq_nil hfields) hmissing

theorem reads_flattened {a e : Ty} {f g : Flattened} (ha : s.flatten a = .ok f) (he : s.flatten e = .ok g)
    (halike : Alike Q η a e) : Ty.fieldReadings η f.fields = Ty.fieldReadings η g.fields ∧
      ∃ rest, f.tail.Matches rest ∧ g.tail.Matches rest := by
  obtain ⟨rest, hfr, hf⟩ := (flattensTo_of_flatten ha).portrayed hη hw halike.left
  obtain ⟨rest', hgr, hg⟩ := (flattensTo_of_flatten he).portrayed hη hw halike.right
  rw [halike.read, hgr] at hfr
  obtain ⟨hfields, rfl⟩ := Reading.record.inj hfr
  exact ⟨hfields.symm, rest', hf, hg⟩

theorem idles_records {a e : Ty} {res : Ending Outcome} (h : Records (Idling s Q η) s a e res)
    (halike : Alike Q η a e) : Idles s (.ok ()) res := by
  have hflat : ∀ {t : Ty} {f : Flattened}, Ty.MadeOf false Ty.Applicable Q t → s.flatten t = .ok f →
      Ty.FieldsOf false Ty.Applicable Q f.fields ∧ Ty.MadeOf false Ty.Applicable Q f.tail.toTy := fun ht hf =>
    madeOf_flattens Ty.hereditary_applicable (flattensTo_of_flatten hf) hw ht (fun field hmem => by cases hmem)
  have hcommon : ∀ {f g : Flattened}, s.flatten a = .ok f → s.flatten e = .ok g →
      ∀ p ∈ (commonFields f g).map Prod.snd, Alike Q η p.1 p.2 := by
    intro f g hfa hge p hp
    obtain ⟨hleft, hright⟩ := madeOf_commonFields (hflat halike.left hfa).1 (hflat halike.right hge).1 p hp
    have hnodup := (flattensTo_of_flatten hfa).nodup List.nodup_nil
    exact ⟨hleft, hright, read_commonFields hnodup (reads_flattened hη hw hfa hge halike).1 p hp⟩
  cases h with
  | lostLeft hlost =>
    obtain ⟨f, hf⟩ := exists_flatten hw.loopfree hw.tidy.closed (hw.tidy.owns halike.left.within)
    rw [hf] at hlost
    cases hlost
  | lostRight _ hlost =>
    obtain ⟨g, hg⟩ := exists_flatten hw.loopfree hw.tidy.closed (hw.tidy.owns halike.right.within)
    rw [hg] at hlost
    cases hlost
  | fields hfa hge hrun => exact (idles_fields hrun rfl (hcommon hfa hge)).fault _
  | infinite hfa hge hrun =>
    obtain ⟨hfound, -⟩ := (idles_fields hrun rfl (hcommon hfa hge)).ok
    cases hfound
  | @differ f g _ _ hfa hge hrun hdiff =>
    obtain ⟨hfound, -⟩ := (idles_fields hrun rfl (hcommon hfa hge)).ok
    obtain ⟨hfields, -⟩ := reads_flattened hη hw hfa hge halike
    cases hfound
    simp [recordDiff, RecordDiff.isEmpty, fieldsMissingIn_eq_nil hfields, fieldsMissingIn_eq_nil hfields.symm] at hdiff
  | agree hfa hge hrun _ _ hends =>
    obtain ⟨-, rfl⟩ := (idles_fields hrun rfl (hcommon hfa hge)).ok
    obtain ⟨hfields, rest, hf, hg⟩ := reads_flattened hη hw hfa hge halike
    exact idles_ends hends hfields hf hg (hflat halike.left hfa).2 (hflat halike.right hge).2

/-! ### All types -/

omit hη hw in
theorem alike_zip {ts us : List Ty} (hts : ∀ t ∈ ts, Ty.MadeOf false Ty.Applicable Q t)
    (hus : ∀ u ∈ us, Ty.MadeOf false Ty.Applicable Q u) (h : ∀ p ∈ ts.zip us, p.1.read η = p.2.read η) :
    ∀ p ∈ ts.zip us, Alike Q η p.1 p.2 := by
  rintro ⟨t, u⟩ hmem
  obtain ⟨ht, hu⟩ := List.of_mem_zip hmem
  exact ⟨hts t ht, hus u hu, h _ hmem⟩

omit hη hw in
/-- Two functions that say the same do so parameter by parameter, and so does what they return. -/
theorem alike_arrow {params params' : List Ty} {ret ret' : Ty} {w w' : Option (AliasUse Ty)}
    (h : Alike Q η (.arrow params ret w) (.arrow params' ret' w')) :
    (∀ p ∈ params.zip params', Alike Q η p.1 p.2) ∧
      Alike Q η (Ty.dropParams params ret (min params.length params'.length))
        (Ty.dropParams params' ret' (min params.length params'.length)) := by
  obtain ⟨hparams, hrest⟩ := Ty.read_of_arrow h.read
  refine ⟨alike_zip (fun t ht => ?_) (fun t ht => ?_) hparams, ?_, ?_, hrest⟩
  · exact h.left.part Ty.hereditary_applicable (.param ht)
  · exact h.right.part Ty.hereditary_applicable (.param ht)
  · exact h.left.dropParams Ty.hereditary_applicable _
  · exact h.right.dropParams Ty.hereditary_applicable _

theorem idles_resolved {a e : Ty} {res : Ending Outcome} (h : Resolved (Idling s Q η) s a e res)
    (halike : Alike Q η a e) (hleft : ∀ v, a = .var v → s.Unsolved v.id) (hright : ∀ v, e = .var v → s.Unsolved v.id) :
    Idles s (.ok ()) res := by
  have hshape : ∀ {t : Ty} {shape : Shape}, Ty.MadeOf false Ty.Applicable Q t → shape? t = some shape →
      (t.read η).shape? = some shape :=
    fun ht h => hη.shape?_read (hw.tidy.owns ht.within) ht.property h
  have hread := halike.read
  cases h with
  | accepted _ => exact .inr rfl
  | same _ => exact .inr rfl
  | vars hne _ =>
    rw [hη.read_unsolved (hleft _ rfl), hη.read_unsolved (hright _ rfl)] at hread
    exact absurd (Node.var.inj (Reading.const.inj hread)) hne
  | varLeft hother _ =>
    have hsame := hshape halike.right hother
    rw [← hread, hη.read_unsolved (hleft _ rfl)] at hsame
    cases hsame
  | varRight hother _ =>
    have hsame := hshape halike.left hother
    rw [hread, hη.read_unsolved (hright _ rfl)] at hsame
    cases hsame
  | unit => exact .inr rfl
  | tuple _ hpairs =>
    rw [Ty.read_tuple, Ty.read_tuple] at hread
    refine idles_pairs hpairs rfl (alike_zip (fun t ht => ?_) (fun t ht => ?_)
      (Ty.read_of_mem_zip (Reading.tuple.inj hread)))
    · exact halike.left.part Ty.hereditary_applicable (.item ht)
    · exact halike.right.part Ty.hereditary_applicable (.item ht)
  | union _ hpairs =>
    rw [Ty.read_union, Ty.read_union] at hread
    refine idles_pairs hpairs rfl (alike_zip (fun t ht => ?_) (fun t ht => ?_)
      (Ty.read_of_mem_zip (Reading.union.inj hread).2.2))
    · exact halike.left.part Ty.hereditary_applicable (.arg ht)
    · exact halike.right.part Ty.hereditary_applicable (.arg ht)
  | params hpairs => exact idles_pairs hpairs rfl (alike_arrow halike).1
  | rest hpairs hrest =>
    obtain ⟨-, hs⟩ := (idles_pairs hpairs rfl (alike_arrow halike).1).ok
    exact hrest hs (alike_arrow halike).2
  | arrow hpairs hrest =>
    obtain ⟨rfl, hs⟩ := (idles_pairs hpairs rfl (alike_arrow halike).1).ok
    obtain ⟨rfl, rfl⟩ := (hrest hs (alike_arrow halike).2).ok
    exact .inr rfl
  | record _ _ hrecords => exact idles_records hη hw hrecords halike
  | clash ha he hne =>
    have hsame := hshape halike.left ha
    rw [hread, hshape halike.right he] at hsame
    exact absurd (Option.some.inj hsame).symm hne

theorem idling_unified {s₁ : Store} {a e : Ty} {res : Ending Outcome} (h : Unified (Idling s Q η) s₁ a e res) :
    Idling s Q η s₁ a e res := by
  rintro rfl halike
  cases h with
  | lostLeft hlost =>
    obtain ⟨r, hr⟩ := exists_resolve hw.loopfree hw.tidy.closed (hw.tidy.owns halike.left.within)
    rw [hr] at hlost
    cases hlost
  | lostRight hlost =>
    obtain ⟨r, hr⟩ := exists_resolve hw.loopfree hw.tidy.closed (hw.tidy.owns halike.right.within)
    rw [hr] at hlost
    cases hlost
  | resolved hra hre hres =>
    have hra := resolvesTo_of_resolve hra
    have hre := resolvesTo_of_resolve hre
    refine idles_resolved hη hw hres ⟨madeOf_resolves hra hw halike.left, madeOf_resolves hre hw halike.right, ?_⟩
      (fun v heq => (heq ▸ hra).unsolved_of_var) (fun v heq => (heq ▸ hre).unsolved_of_var)
    rw [← hη.read_resolve hra, ← hη.read_resolve hre, halike.read]

/-- Types that say the same in an environment that shows the store are unified by doing nothing. -/
theorem unify_of_alike {a e : Ty} (h : Alike Q η a e) : unify a e s = .ok (.ok (), s) := by
  have hidles : Idles s (.ok ()) (unify a e s) :=
    unify_induct (P := Idling s Q η) (fun _ _ _ _ _ => .inl rfl) (fun _ _ _ _ => idling_unified hη hw) s a e rfl h
  exact hidles.resolve_left
    (unify_returns hw.tidy.sane (hw.tidy.owns h.left.within) (hw.tidy.owns h.right.within))

end Level

end StoreM

namespace Store

open StoreM

/-- A store in which all functions take arguments, as those do that `Ty.function` builds. -/
structure Applicable (s : Store) : Prop where
  solution : ∀ id t, s.solution? id = some t → t.Applicable
  record : ∀ (id : RecordId) g, s.records[id]? = some g → (Ty.record g.fields (some g.base) none g.refs).Applicable

theorem Applicable.filled {s : Store} (h : s.Applicable) (hsane : s.Sane) :
    Filled false Ty.Applicable (s, {r | s.Has r}) where
  loopfree := hsane.loopfree
  owned _ hr := hr
  solution id t hsol := ⟨hsane.closed.owns_solution hsol, h.solution id t hsol⟩
  record id g hrec := by
    refine ⟨fun r hr => ?_, h.record id g hrec⟩
    rw [← links_record_eq] at hr
    exact hsane.closed.record _ _ (lt_size_of_record? hrec) hrec r hr

/-- Unifying types that zonk to equal types succeeds and changes nothing, and so does repeating a unification that
succeeded, in either direction. -/
theorem equal_types_are_left_alone {s : Store} (hacyclic : s.Acyclic) (hclosed : s.Closed)
    (happlicable : s.Applicable) {a e : Ty} (ha : s.Owns a) (he : s.Owns e) (happly : a.Applicable)
    (happly' : e.Applicable) :
    (∀ za ze, s.zonk a = .ok za → s.zonk e = .ok ze → za.reading = ze.reading →
      unify a e s = .ok (.ok (), s)) ∧
    (∀ s', s.Known a → s.Known e → unify a e s = .ok (.ok (), s') → s'.Based a → s'.Based e →
      unify a e s' = .ok (.ok (), s') ∧ unify e a s' = .ok (.ok (), s')) := by
  have hsane := hacyclic.sane hclosed
  have hw := happlicable.filled hsane
  refine ⟨fun za ze hza hze hequal => ?_, fun s' hknown hknown' hrun hbased hbased' => ?_⟩
  · obtain ⟨η, hη, hzonk⟩ := exists_portrayal hsane.loopfree
    refine unify_of_alike hη hw ⟨⟨ha, happly⟩, ⟨he, happly'⟩, ?_⟩
    rw [← hzonk a za hza, hequal, hzonk e ze hze]
  · have halters := alters_unify Ty.hereditary_applicable hw ⟨ha, happly⟩ ⟨he, happly'⟩
    rw [hrun] at halters
    obtain ⟨Q', hchanges⟩ := halters
    have hw' := hchanges.filled Ty.hereditary_applicable hw
    obtain ⟨η, hmodels, hfree⟩ := exists_models hw'.loopfree (fun id => .const (Node.var id))
    obtain ⟨-, -, hsame⟩ := unified_types_zonk_alike hacyclic hclosed ha he hknown hknown' hrun hbased hbased'
    have hread := hsame Node η hmodels
    have hη := hmodels.portrays hfree
    have hleft : Ty.MadeOf false Ty.Applicable Q' a := Ty.MadeOf.mono ⟨ha, happly⟩ hchanges.subset
    have hright : Ty.MadeOf false Ty.Applicable Q' e := Ty.MadeOf.mono ⟨he, happly'⟩ hchanges.subset
    exact ⟨unify_of_alike hη hw' ⟨hleft, hright, hread⟩, unify_of_alike hη hw' ⟨hright, hleft, hread.symm⟩⟩

/-! ### A row that is solved already -/

theorem applicable_var (v : TyVar) : (Ty.var v).Applicable :=
  Ty.hereditary_applicable.var v

theorem applicable_row (v w : TyVar) : (Ty.record [("f", .var v)] (some (.var w)) none .empty).Applicable :=
  Ty.hereditary_applicable.record _ _ _ (by simp [applicable_var]) (by simp [applicable_var])

theorem applicable_selfRow {row : Option Ty} (hrow : ∀ t, row = some t → t = .var ⟨1, "q", false⟩) :
    (selfRow row).Applicable where
  solution id t hsol := by
    match id, hsol with
    | 0, hsol => exact hrow t hsol ▸ applicable_var _
    | 2, hsol =>
      cases hsol
      exact Ty.hereditary_applicable.growing 0
  record id g hrec := by
    match id, hrec with
    | 0, hrec =>
      cases hrec
      exact applicable_row _ _

/-- The variable, whose record is spread over the store, and the record that was written down are unified once and then
found equal. -/
theorem equal_types_are_left_alone_of_selfRow :
    let s := selfRow none
    let s' := selfRow (some (.var ⟨1, "q", false⟩))
    let a : Ty := .var ⟨2, "v", false⟩
    s.Acyclic ∧ s.Closed ∧ s.Applicable ∧ s'.Acyclic ∧ s'.Closed ∧ s'.Applicable ∧ s.Owns a ∧ s.Owns selfRowTwin ∧
      a.Applicable ∧ selfRowTwin.Applicable ∧ s.Known a ∧ s.Known selfRowTwin ∧
      unify a selfRowTwin s = .ok (.ok (), s') ∧ s'.Based a ∧ s'.Based selfRowTwin ∧
      s'.zonk a = .ok selfRowTwin ∧ s'.zonk selfRowTwin = .ok selfRowTwin ∧
      unify a selfRowTwin s' = .ok (.ok (), s') ∧ unify selfRowTwin a s' = .ok (.ok (), s') := by
  intro s s' a
  have hsane : s.Sane := sane_selfRow
  have ha : s.Owns a := by decide
  have he : s.Owns selfRowTwin := by decide
  have hmem : a ∈ selfRowTypes := by simp [selfRowTypes, a]
  have hmem' : selfRowTwin ∈ selfRowTypes := by simp [selfRowTypes]
  have hrun : unify a selfRowTwin s = .ok (.ok (), s') := rfl
  have hsane' : s'.Sane := hsane.unify ha he hrun
  have happlicable : s.Applicable := applicable_selfRow (by simp)
  have happlicable' : s'.Applicable := applicable_selfRow (by simp)
  have hbased : s'.Based a := based_selfRow hmem
  have hbased' : s'.Based selfRowTwin := based_selfRow hmem'
  have hfirst := equal_types_are_left_alone hsane'.acyclic hsane'.closed happlicable' (a := a)
    (e := selfRowTwin) (by decide) (by decide) (applicable_var _) (applicable_row _ _)
  have hagain := equal_types_are_left_alone hsane.acyclic hsane.closed happlicable ha he (applicable_var _)
    (applicable_row _ _)
  exact ⟨hsane.acyclic, hsane.closed, happlicable, hsane'.acyclic, hsane'.closed, happlicable', ha, he,
    applicable_var _, applicable_row _ _, known_selfRow hmem, known_selfRow hmem', hrun, hbased, hbased', rfl, rfl,
    hfirst.1 _ _ rfl rfl rfl, (hagain.2 s' (known_selfRow hmem) (known_selfRow hmem') hrun hbased hbased').2⟩

end Store

end ElmInference
