import ElmInference.Engine
import ElmInference.Proofs.Infer.FieldAccess
import ElmInference.Proofs.Unify.Agreement

/-!
# Field access and established equalities

Two types are alike when they are written out as the same type. An access that solves the end of a record changes
both in the same way: zonking afterwards is zonking before, with a record in place of the end. But a growing
record that gains the field in its own list leaves the other types with the same end as they were. So what was
alike stays alike exactly when no growing record gains the field itself, and otherwise for the types that come to
the end only through this record.
-/

namespace ElmInference

namespace Store

open Relation

variable {s s' : Store}

/-! ### Zonking after an access -/

/-- The environment in which one variable is a record with a field, and the others are themselves. -/
def fieldEnv (v : VarId) (name : Name) (t rest : TyVar) : Env Node := fun n =>
  if n = .var v then (Ty.record [(name, .var t)] (some (.var rest)) none .empty).reading else .const n

theorem fieldEnv_of_ne {v w : VarId} (h : w ≠ v) (name : Name) (t rest : TyVar) :
    fieldEnv v name t rest (.var w) = .const (.var w) := by
  simp [fieldEnv, h]

section Mirrors

variable {field : NameAt} {id : RecordId} {g : GrowingRecord} {v : TyVar}

theorem mirrors_fieldSeen (hrec : s.records[id]? = some g) (n : Nat) (t : Ty) :
    Tracks (Mirrors (fun _ => True) Reading.const Reading.const t) (s.zonkAt n t)
      ((s.fieldSeen id g field).zonkAt n t) := by
  refine tracks_zonkAt 0 (fun _ _ _ _ => trivial) (fun v hun => ?_) (fun v u hsol => ⟨?_, fun _ => trivial⟩)
    (fun other g' n hg' h => ?_) n t
  · have hun' : (s.fieldSeen id g field).Unsolved v.id := hun
    rw [zonkAt_eq, zonkWith_unsolved hun']
    exact tracks_ok ⟨fun _ => rfl, Iff.rfl⟩
  · exact hsol
  · obtain ⟨g'', hg'', hfields, hbase⟩ := record?_fieldSeen hrec hg'
    exact tracks_record hg' hg'' hfields hbase (fun _ => ⟨fun _ _ => trivial, trivial⟩) h

theorem zonkAt_rowGrown (hun : s.Unsolved v.id) {u : TyVar} (hid : u.id = v.id) :
    (s.rowGrown v field).zonkAt 2 (.var u) =
      .ok (.record [(field.name, .var ⟨s.size, "a", false⟩)] (some (.var ⟨s.size + 1, "b", false⟩)) none
        (FieldReferences.empty.add field.name field.pos)) := by
  obtain ⟨ha, hb⟩ := unsolved_rowGrown_fresh hun
  have hsol : (s.rowGrown v field).solution? u.id = some (.growing s.records.size) := by
    rw [hid, solution?_rowGrown_self hun]
  have ha' : (s.rowGrown v field).zonkAt 0 (.var ⟨s.size, "a", false⟩) = .ok (.var ⟨s.size, "a", false⟩) :=
    zonkWith_unsolved ha
  have hb' : (s.rowGrown v field).zonkAt 0 (.var ⟨s.size + 1, "b", false⟩) =
      .ok (.var ⟨s.size + 1, "b", false⟩) := zonkWith_unsolved hb
  rw [zonkAt, zonkWith_solved hsol, zonkAt, zonkWith_growing record?_rowGrown_self]
  simp only [List.mapM_cons, List.mapM_nil, ha', hb']
  rfl

theorem mirrors_rowGrown (hun : s.Unsolved v.id) (n : Nat) (t : Ty) :
    Tracks (Mirrors (fun _ => True)
        (fieldEnv v.id field.name ⟨s.size, "a", false⟩ ⟨s.size + 1, "b", false⟩) Reading.const t)
      (s.zonkAt n t) ((s.rowGrown v field).zonkAt (n + 2) t) := by
  refine tracks_zonkAt 2 (fun _ _ _ _ => trivial) (fun u hu => ?_) (fun u t hsol => ⟨?_, fun _ => trivial⟩)
    (fun other g' n hg' h => ?_) n t
  · by_cases hid : u.id = v.id
    · rw [zonkAt_rowGrown hun hid]
      refine tracks_ok (mirrors_of_ne (fun _ => ?_) (by simp) (by simp))
      rw [Ty.read_var, hid, fieldEnv, if_pos rfl]
      rfl
    · rw [zonkAt_eq, zonkWith_unsolved (unsolved_rowGrown hu.extended.extended hid)]
      refine tracks_ok (mirrors_of_ne (fun _ => ?_) (by simp) (by simp))
      rw [Ty.read_var, Ty.read_var, fieldEnv_of_ne hid]
  · rwa [solution?_rowGrown_of_ne]
    rintro hid
    rw [hid] at hsol
    exact not_unsolved_of_some hsol hun
  · exact tracks_record hg' (record?_rowGrown hg') rfl rfl (fun _ => ⟨fun _ _ => trivial, trivial⟩) h

/-- One step of reading a type, except from one growing record to its base. -/
inductive Beside (s : Store) (id : RecordId) : Ty → Ty → Prop
  | part {t u : Ty} : t.Part u → Beside s id t u
  | solution {v : TyVar} {t : Ty} : s.solution? v.id = some t → Beside s id (.var v) t
  | field {other : RecordId} {g : GrowingRecord} {field : Name × Ty} : s.records[other]? = some g →
      field ∈ g.fields → Beside s id (.growing other) field.2
  | base {other : RecordId} {g : GrowingRecord} : s.records[other]? = some g → other ≠ id →
      Beside s id (.growing other) g.base

/-- Whether a reading of a type comes to a variable only from a growing record to its base. -/
def OnlyBelow (s : Store) (id : RecordId) (v : VarId) (t : Ty) : Prop :=
  ∀ u : TyVar, ReflTransGen (s.Beside id) t (.var u) → u.id ≠ v

theorem OnlyBelow.beside {v : VarId} {t u : Ty} (h : s.OnlyBelow id v t) (hstep : s.Beside id t u) :
    s.OnlyBelow id v u :=
  fun x hx => h x (.head hstep hx)

/-- A record with one more field reads like the record over an end that has gained the field. -/
theorem read_writtenOut_append {name : Name} {t : TyVar} {ys zs : List (Name × Ty)}
    (h : Ty.fieldReadings Reading.const zs = Ty.fieldReadings (fieldEnv v.id name t v) ys)
    (refs refs' : FieldReferences) :
    (writtenOut (zs ++ [(name, .var t)]) (.var v) refs').read Reading.const =
      (writtenOut ys (.var v) refs).read (fieldEnv v.id name t v) := by
  have hend : fieldEnv v.id name t v (.var v.id) =
      .extend (Ty.fieldReadings Reading.const [(name, .var t)]) (.const (.var v.id)) := by
    rw [fieldEnv, if_pos rfl, Ty.reading, Ty.read_record]
    rfl
  rw [writtenOut_of_ne (by simp), writtenOut_of_ne (by simp), Ty.read_recordWith, Ty.read_recordWith, ← h,
    Ty.readBase, Ty.readBase, Ty.read_var, Ty.read_var, hend, Reading.extend_extend]
  congr 1
  funext other
  simp only [Ty.fieldReadings, Ty.get?_append, Option.map_or]

/-- The growing record that has gained a field, when its parts are zonked. -/
theorem tracks_recordGrown (hrec : s.records[id]? = some g) (hnone : Assoc.get? g.fields field.name = none)
    (hbase : s.ResolvesTo g.base (.var v)) {n : Nat}
    (h : ∀ t, Tracks (Mirrors (s.OnlyBelow id v.id) (fieldEnv v.id field.name ⟨s.size, "a", false⟩ v)
      Reading.const t) (s.zonkAt n t) ((s.recordGrown id g field).zonkAt n t)) :
    Tracks (Mirrors (s.OnlyBelow id v.id) (fieldEnv v.id field.name ⟨s.size, "a", false⟩ v)
      Reading.const (.growing id)) (s.zonkAt (n + 1) (.growing id))
      ((s.recordGrown id g field).zonkAt (n + 1) (.growing id)) := by
  have hfresh : (s.recordGrown id g field).zonkAt n (.var ⟨s.size, "a", false⟩) =
      .ok (.var ⟨s.size, "a", false⟩) := by
    rw [zonkAt_eq, zonkWith_unsolved (unsolved_recordGrown (unsolved_extended_self s))]
  have hbase' : (s.recordGrown id g field).ResolvesTo g.base (.var v) :=
    hbase.later (by rw [size_recordGrown]; omega) solution?_recordGrown
  rw [zonkAt, zonkAt, zonkWith_growing hrec, zonkWith_growing (record?_recordGrown_self hrec)]
  intro z hz
  obtain ⟨ys, hys, hz⟩ := exists_of_bind_ok hz
  obtain ⟨y, hy, hz⟩ := exists_of_bind_ok hz
  obtain ⟨zs, hzs, hboth⟩ := tracks_fields (fun x _ => h x.2) ys hys
  obtain ⟨y', hy', -⟩ := h g.base y hy
  obtain rfl := eq_var_of_zonkAt hbase hy
  obtain rfl := eq_var_of_zonkAt hbase' hy'
  cases hz
  refine ⟨writtenOut (zs ++ [(field.name, .var ⟨s.size, "a", false⟩)]) (.var v)
    (g.refs.add field.name field.pos), ?_, mirrors_of_ne (fun hbelow => ?_) (writtenOut_ne_unknown _ _ _)
    (writtenOut_ne_unknown _ _ _)⟩
  · rw [addFields_singleton _ hnone, List.mapM_append, hzs, ok_bind, List.mapM_cons, List.mapM_nil, hfresh]
    simp only [ok_bind, hy']
    rfl
  · exact read_writtenOut_append (hboth.fieldReadings (fun x hx => hbelow.beside (.field hrec hx))) _ _

/-- After a growing record has gained a field, types that come to its end only through it read as if the end had
gained the field. -/
theorem mirrors_recordGrown (hrec : s.records[id]? = some g) (hnone : Assoc.get? g.fields field.name = none)
    (hbase : s.ResolvesTo g.base (.var v)) (n : Nat) (t : Ty) :
    Tracks (Mirrors (s.OnlyBelow id v.id) (fieldEnv v.id field.name ⟨s.size, "a", false⟩ v) Reading.const t)
      (s.zonkAt n t) ((s.recordGrown id g field).zonkAt n t) := by
  refine tracks_zonkAt 0 (fun _ _ hpart h => h.beside (.part hpart)) (fun u hu => ?_)
    (fun u t hsol => ⟨(solution?_recordGrown u.id).trans hsol, fun h => h.beside (.solution hsol)⟩)
    (fun other g' n hg' h => ?_) n t
  · rw [zonkAt_eq, zonkWith_unsolved (unsolved_recordGrown hu.extended)]
    refine tracks_ok (mirrors_of_ne (fun hbelow => ?_) (by simp) (by simp))
    rw [Ty.read_var, Ty.read_var, fieldEnv_of_ne (hbelow u .refl)]
  · by_cases hid : other = id
    · subst hid
      exact tracks_recordGrown hrec hnone hbase h
    · refine tracks_record hg' ((record?_recordGrown_of_ne hid).trans hg') rfl rfl (fun hbelow => ?_) h
      exact ⟨fun x hx => hbelow.beside (.field hg' hx), hbelow.beside (.base hg' hid)⟩

end Mirrors

/-! ### Equalities -/

/-- Whether two types are written out alike: what they zonk to differs in nothing but alias information, field
references, the order of fields, later duplicates of a field and the currying of functions. -/
def Alike (s : Store) (t u : Ty) : Prop :=
  ∃ z y, s.zonk t = .ok z ∧ s.zonk u = .ok y ∧ z.reading = y.reading

def zonksTo (s : Store) (t z : Ty) : Bool :=
  match s.zonk t with
  | .ok y => y == z
  | .error _ => false

theorem exists_zonk_of_zonksTo {t z : Ty} (h : s.zonksTo t z = true) :
    ∃ y, s.zonk t = .ok y ∧ y.reading = z.reading := by
  unfold zonksTo at h
  cases hy : s.zonk t with
  | error fault =>
    rw [hy] at h
    cases h
  | ok y =>
    rw [hy] at h
    exact ⟨y, rfl, Ty.read_eq_of_beq h⟩

theorem alike_iff_of_zonksTo {t u y z : Ty} (ht : s.zonksTo t y = true) (hu : s.zonksTo u z = true) :
    s.Alike t u ↔ y.reading = z.reading := by
  obtain ⟨y', hy', hy⟩ := exists_zonk_of_zonksTo ht
  obtain ⟨z', hz', hz⟩ := exists_zonk_of_zonksTo hu
  simp [Alike, hy', hz', hy, hz]

section Alike

variable {T : Ty → Prop} {η : Env Node} {k : Nat}

theorem read_eq_of_reading_eq {z y : Ty} (h : z.reading = y.reading) (η : Env Node) : z.read η = y.read η := by
  have hsubst : ∀ t : Ty, t.read η = t.reading.subst η := fun t => (Ty.subst_read Reading.const η t).symm
  rw [hsubst, hsubst, h]

theorem exists_zonk_of_tracks
    (h : ∀ n t, Tracks (Mirrors T η Reading.const t) (s.zonkAt n t) (s'.zonkAt (n + k) t))
    (hk : s.crossings + k ≤ s'.crossings) {t z : Ty} (hz : s.zonk t = .ok z) :
    ∃ z', s'.zonk t = .ok z' ∧ Mirrors T η Reading.const t z z' := by
  obtain ⟨z', hz', hmirrors⟩ := h _ t z hz
  exact ⟨z', zonkAt_mono hk hz', hmirrors⟩

theorem Alike.of_tracks (h : ∀ n t, Tracks (Mirrors T η Reading.const t) (s.zonkAt n t) (s'.zonkAt (n + k) t))
    (hk : s.crossings + k ≤ s'.crossings) {t u : Ty} (halike : s.Alike t u) (ht : T t) (hu : T u) :
    s'.Alike t u := by
  obtain ⟨z, y, hz, hy, hsame⟩ := halike
  obtain ⟨z', hz', hmirrors⟩ := exists_zonk_of_tracks h hk hz
  obtain ⟨y', hy', hmirrors'⟩ := exists_zonk_of_tracks h hk hy
  refine ⟨z', y', hz', hy', ?_⟩
  calc z'.reading
      = z.read η := hmirrors.read ht
    _ = y.read η := read_eq_of_reading_eq hsame η
    _ = y'.reading := (hmirrors'.read hu).symm

end Alike

section Access

variable {field : NameAt} {id : RecordId} {g : GrowingRecord} {v : TyVar} {r : Ty}
  {res : Except InferM.FieldError Ty}

theorem crossings_fieldSeen : (s.fieldSeen id g field).crossings = s.crossings := by
  simp [crossings, fieldSeen, setRecord, size]

theorem crossings_rowGrown : (s.rowGrown v field).crossings = s.crossings + 3 := by
  simp only [crossings, rowGrown, size_solved, records_solved, size_recorded, records_size_recorded, size_extended,
    records_extended]
  omega

theorem crossings_recordGrown : (s.recordGrown id g field).crossings = s.crossings + 1 := by
  have hrecords : (s.recordGrown id g field).records.size = s.records.size := by simp [recordGrown, setRecord]
  rw [crossings, crossings, size_recordGrown, hrecords]
  omega

theorem Appends.unique {name : Name} {id' : RecordId} {g' : GrowingRecord} {v' : TyVar}
    (h : s.Appends r name id g v) (h' : s.Appends r name id' g' v') : id = id' ∧ g = g' ∧ v = v' := by
  cases h.resolves.unique h'.resolves
  cases h.record.symm.trans h'.record
  cases h.base.unique h'.base
  exact ⟨rfl, rfl, rfl⟩

/-- What zonking gives after an access, for the types that come to an end only through the growing record that
gains the field, and for all types when no record does. -/
theorem Accessed.tracks (h : Accessed s r field res s') : ∃ (T : Ty → Prop) (η : Env Node) (k : Nat),
    (∀ n t, Tracks (Mirrors T η Reading.const t) (s.zonkAt n t) (s'.zonkAt (n + k) t)) ∧
    s.crossings + k ≤ s'.crossings ∧
    ∀ t, (∀ id g v, s.Appends r field.name id g v → s.OnlyBelow id v.id t) → T t := by
  have hsame : ∀ n t, Tracks (Mirrors (fun _ => True) Reading.const Reading.const t) (s.zonkAt n t)
      (s.zonkAt (n + 0) t) := fun n t z hz => ⟨z, hz, fun _ => rfl, Iff.rfl⟩
  cases h with
  | nothing _ => exact ⟨_, _, 0, hsame, Nat.le_refl _, fun _ _ => trivial⟩
  | found _ _ => exact ⟨_, _, 0, hsame, Nat.le_refl _, fun _ _ => trivial⟩
  | seen _ _ hrec =>
    refine ⟨_, _, 0, mirrors_fieldSeen hrec, ?_, fun _ _ => trivial⟩
    rw [crossings_fieldSeen]
    omega
  | row hflat _ htail _ =>
    refine ⟨_, _, 2, mirrors_rowGrown (hflat.unsolved_tail htail), ?_, fun _ _ => trivial⟩
    rw [crossings_rowGrown]
    omega
  | record happends =>
    refine ⟨_, _, 0, mirrors_recordGrown happends.record happends.lacks happends.base, ?_,
      fun t ht => ht _ _ _ happends⟩
    rw [crossings_recordGrown]
    omega

/-- A growing record and the record that is written with its fields and its base are alike, and no longer are
when the growing record has gained a field. -/
theorem Appends.parts (h : s.Appends r field.name id g v) {z : Ty} (hz : s.zonk r = .ok z) :
    s.Alike (.growing id) (.record g.fields (some g.base) none g.refs) ∧
      ¬ (s.recordGrown id g field).Alike (.growing id) (.record g.fields (some g.base) none g.refs) := by
  constructor
  · have hz : s.zonk (.growing id) = .ok z := zonkAt_resolved h.resolves hz
    refine ⟨z, z, hz, ?_, rfl⟩
    have hpos : 0 < s.crossings :=
      Nat.lt_of_lt_of_le (Nat.zero_lt_of_lt (lt_size_of_record? h.record)) (Nat.le_add_left _ _)
    obtain ⟨n, hn⟩ := Nat.exists_eq_succ_of_ne_zero (Nat.ne_of_gt hpos)
    rw [zonk, hn] at hz ⊢
    obtain ⟨ys, hys, hbase, rfl⟩ := zonkAt_growing h.record h.base hz
    have hfields : s.zonkFields (s.zonkAt n) g.fields = .ok ys := by
      refine zonkFields_iff.mpr (hys.imp (fun x y hxy => ⟨hxy.1, ?_⟩))
      exact zonkAt_mono (Nat.le_succ n) hxy.2
    have hbase' : s.zonkWith (s.zonkAt n) g.base = .ok (.var v) := zonkAt_mono (Nat.le_succ n) hbase
    rw [zonkAt, zonkWith, hfields, ok_bind, zonkBase, hbase']
    rfl
  · rintro ⟨z, y, hz, hy, hsame⟩
    have hbase : (s.recordGrown id g field).ResolvesTo g.base (.var v) :=
      h.base.later (by rw [size_recordGrown]; omega) solution?_recordGrown
    rw [zonk, crossings_recordGrown] at hz
    obtain ⟨zs, hzs, -, rfl⟩ := zonkAt_growing (record?_recordGrown_self h.record) hbase hz
    obtain ⟨ys, hys, rfl⟩ := zonkAt_record hbase hy
    rw [Ty.reading, Ty.reading, Ty.read_recordWith, Ty.read_recordWith] at hsame
    have hfield := congrFun (Reading.record.inj hsame).1 field.name
    have hget := get?_addFields_singleton (.var ⟨s.size, "a", false⟩) h.lacks
    rcases hys.get? field.name with ⟨-, hnone⟩ | ⟨t, _, ht, -, -⟩
    · rcases hzs.get? field.name with ⟨hnone', -⟩ | ⟨_, y, -, -, hsome⟩
      · cases hget.symm.trans hnone'
      · simp [Ty.fieldReadings, hnone, hsome] at hfield
    · cases h.lacks.symm.trans ht

end Access

end Store

namespace InferM

open Store

/-- Accessing a field of a type that can be zonked returns. All types that were alike still are exactly when no
growing record gains the field in its own list; and when one does, those still are that come to its end only
through it. A field whose type is returned is a field of the zonked record. -/
theorem access_keeps_equalities_iff_no_record_appends (context : Context) (w : Work) (r : Ty) (field : NameAt)
    {z : Ty} (hz : w.pass.store.zonk r = .ok z) :
    ∃ res s', fieldType r field context w = (.ok res, w.withStore s') ∧
      ((∀ t u, w.pass.store.Alike t u → s'.Alike t u) ↔
        ∀ id g v, ¬ w.pass.store.Appends r field.name id g v) ∧
      (∀ id g v, w.pass.store.Appends r field.name id g v → ∀ t u, w.pass.store.OnlyBelow id v.id t →
        w.pass.store.OnlyBelow id v.id u → w.pass.store.Alike t u → s'.Alike t u) ∧
      ∀ t, res = .ok t → t ≠ .unknown →
        ∃ z' y, s'.zonk r = .ok z' ∧ s'.zonk t = .ok y ∧ z'.field? field.name = some y := by
  obtain ⟨res, s', hrun, haccessed⟩ := accessed_fieldType (accessible_of_zonk hz)
  obtain ⟨T, η, k, htracks, hk, hT⟩ := haccessed.tracks
  refine ⟨res, s', hrun, ⟨fun hall id g v happends => ?_, fun hnone t u halike => ?_⟩,
    fun id g v happends t u ht hu halike => ?_, fun t ht hknown => ?_⟩
  · obtain ⟨halike, hdiffer⟩ := happends.parts hz
    rw [run_fieldType_appends happends (accessible_of_zonk hz)] at hrun
    cases congrArg (fun out => out.2.pass.store) hrun
    exact hdiffer (hall _ _ halike)
  · exact halike.of_tracks htracks hk (hT t fun id g v h => absurd h (hnone id g v))
      (hT u fun id g v h => absurd h (hnone id g v))
  · have honly : ∀ t, w.pass.store.OnlyBelow id v.id t → T t := by
      refine fun t ht => hT t fun id' g' v' h => ?_
      obtain ⟨rfl, rfl, rfl⟩ := happends.unique h
      exact ht
    exact halike.of_tracks htracks hk (honly t ht) (honly u hu)
  · obtain ⟨z', hz', -⟩ := exists_zonk_of_tracks htracks hk hz
    subst ht
    obtain ⟨f, hflat, hfield⟩ := haccessed.flattensTo hknown
    obtain ⟨y, hy, hget⟩ := hflat.field?_zonkAt rfl hfield hz'
    exact ⟨z', y, hz', hy, hget⟩

/-- Accessing a field of a variable keeps all equalities. -/
theorem access_keeps_equalities_iff_no_record_appends_of_variable :
    let r : Ty := .var ⟨0, "a", false⟩
    let w : Work := ⟨{}, { store := ({} : Store).extended }⟩
    w.pass.store.zonk r = .ok r ∧
      ∃ res s', fieldType r ⟨0, "x"⟩ default w = (.ok res, w.withStore s') ∧
        ∀ t u, w.pass.store.Alike t u → s'.Alike t u := by
  intro r w
  have hz : w.pass.store.zonk r = .ok r := rfl
  obtain ⟨res, s', hrun, hall, -⟩ := access_keeps_equalities_iff_no_record_appends default w r ⟨0, "x"⟩ hz
  refine ⟨hz, res, s', hrun, hall.mpr (fun id g v happends => ?_)⟩
  cases (ResolvesTo.unsolved (unsolved_extended_self {})).unique happends.resolves

/-- Two parameters whose field has been accessed and that stand in one list are alike. Accessing another field of
the first makes them different, although a list holds both. -/
theorem listed_parameters_differ_after_access :
    let function : Expr := .mk 12 20 (.lambda [.mk 0 0 (.var "r"), .mk 1 1 (.var "s")]
      (.mk 11 19 (.tuple
        [.mk 3 4 (.access (.mk 2 2 (.var (.plain "r"))) ⟨3, "x"⟩),
         .mk 5 8 (.access (.mk 4 6 (.var (.plain "s"))) ⟨7, "x"⟩),
         .mk 8 11 (.list [.mk 6 9 (.var (.plain "r")), .mk 7 10 (.var (.plain "s"))])])))
    let r : Ty := .var ⟨0, "a", false⟩
    let s : Ty := .var ⟨1, "a", false⟩
    let before := exprAt 1 function default ⟨{}, {}⟩
    let after := fieldType r ⟨12, "y"⟩ default before.2
    before.1.isOk = true ∧ before.2.pass.problems.isEmpty = true ∧ before.2.pass.store.Alike r s ∧
      after.1.isOk = true ∧ ¬ after.2.pass.store.Alike r s := by
  intro function r s before after
  let x : Name × Ty := ("x", .var ⟨2, "a", false⟩)
  let y : Name × Ty := ("y", .var ⟨6, "a", false⟩)
  let base : Option Ty := some (.var ⟨3, "b", false⟩)
  have hr : before.2.pass.store.zonksTo r (.record [x] base none .empty) = true := by decide +kernel
  have hs : before.2.pass.store.zonksTo s (.record [x] base none .empty) = true := by decide +kernel
  have hr' : after.2.pass.store.zonksTo r (.record [x, y] base none .empty) = true := by decide +kernel
  have hs' : after.2.pass.store.zonksTo s (.record [x] base none .empty) = true := by decide +kernel
  refine ⟨by decide +kernel, by decide +kernel, (alike_iff_of_zonksTo hr hs).mpr rfl, by decide +kernel, ?_⟩
  rw [alike_iff_of_zonksTo hr' hs']
  intro h
  have hfield := congrFun (Reading.record.inj h).1 "y"
  cases hfield

end InferM

end ElmInference
