import ElmInference.Proofs.Infer.Runs
import ElmInference.Proofs.Store.Fields
import ElmInference.Proofs.Unify.Runs

/-!
# Accessing fields

Accessing a field that a record lacks makes the record gain it. A variable, and a record that ends in one, gain it
by solving the variable by a growing record with the field, so that every type that ends there gains it too. But
a growing record whose own base is the variable gains the field in its own list.

`Accessed` lists all that an access can return and do to the store. In any case a field whose type is returned is
a field of the record afterwards.
-/

namespace ElmInference

namespace Store

open StoreM InferM

/-! ### What an access can do -/

def rowGrown (s : Store) (v : TyVar) (field : NameAt) : Store :=
  (s.extended.extended.recorded
    { fields := [(field.name, .var ⟨s.size, "a", false⟩)]
      base := .var ⟨s.size + 1, "b", false⟩
      refs := FieldReferences.empty.add field.name field.pos }).solved v.id (.growing s.records.size)

def recordGrown (s : Store) (id : RecordId) (g : GrowingRecord) (field : NameAt) : Store :=
  s.extended.setRecord id
    { g with fields := Ty.addFields g.fields [(field.name, .var ⟨s.size, "a", false⟩)]
             refs := g.refs.add field.name field.pos }

def fieldSeen (s : Store) (id : RecordId) (g : GrowingRecord) (field : NameAt) : Store :=
  s.setRecord id { g with refs := g.refs.add field.name field.pos }

/-- A type that stands for a growing record without a certain field, whose own base is a flexible variable. -/
structure Appends (s : Store) (r : Ty) (name : Name) (id : RecordId) (g : GrowingRecord) (v : TyVar) : Prop where
  resolves : s.ResolvesTo r (.growing id)
  record : s.records[id]? = some g
  lacks : Assoc.get? g.fields name = none
  base : s.ResolvesTo g.base (.var v)
  flexible : v.rigid = false

/-- What accessing a field can return and do to the store. -/
inductive Accessed (s : Store) (r : Ty) (field : NameAt) : Except FieldError Ty → Store → Prop
  | nothing {res : Except FieldError Ty} : (∀ t, res = .ok t → t = .unknown) → Accessed s r field res s
  | found {f : Flattened} {t : Ty} : s.FlattensTo r [] f → f.field? field.name = some t →
      Accessed s r field (.ok t) s
  | seen {f : Flattened} {t : Ty} {id : RecordId} {g : GrowingRecord} : s.FlattensTo r [] f →
      f.field? field.name = some t → s.records[id]? = some g →
      Accessed s r field (.ok t) (s.fieldSeen id g field)
  | row {f : Flattened} {v : TyVar} : s.FlattensTo r [] f → f.field? field.name = none →
      f.tail = .opened v → v.rigid = false →
      Accessed s r field (.ok (.var ⟨s.size, "a", false⟩)) (s.rowGrown v field)
  | record {id : RecordId} {g : GrowingRecord} {v : TyVar} : s.Appends r field.name id g v →
      Accessed s r field (.ok (.var ⟨s.size, "a", false⟩)) (s.recordGrown id g field)

variable {s s' : Store}

theorem Appends.flattensTo {r : Ty} {name : Name} {id : RecordId} {g : GrowingRecord} {v : TyVar}
    (h : s.Appends r name id g v) : s.FlattensTo (.growing id) [] ⟨Ty.addFields [] g.fields, .opened v⟩ :=
  .growing h.record (.of_resolvesTo h.base (.unsolved h.base.unsolved_of_var))

/-- A type that can be asked for a field: what it stands for can be told, with all its fields and its end. -/
structure Accessible (s : Store) (t : Ty) : Prop where
  resolve : ∃ u, s.resolve t = .ok u
  flatten : ∀ u, s.ResolvesTo t u → ∃ f, s.flatten u = .ok f
  openBase : ∀ id, s.ResolvesTo t (.growing id) → ∃ base, s.openBase id = .ok base

theorem accessible_of_zonk {t z : Ty} (hz : s.zonk t = .ok z) : s.Accessible t where
  resolve := exists_resolve_of_zonk hz
  flatten _ hresolves := exists_flatten_of_zonk (zonkAt_resolved hresolves hz)
  openBase _ hresolves := exists_openBase_of_zonk (zonkAt_resolved hresolves hz)

/-- A new variable stands for nothing, and for no growing record in particular. -/
theorem mentionsRecord_fresh (id : RecordId) (name : Name) :
    s.extended.mentionsRecord id (.var ⟨s.size, name, false⟩) = .ok false := by
  have hsol : s.extended.solution s.size = .ok none := (unsolved_extended_self s).solution_eq
  unfold mentionsRecord anyNode
  cases s.extended.crossings <;> simp only [anyNodeAt, anyNodeWith, hsol] <;> rfl

end Store

namespace InferM

open Store

variable {context : Context} {w : Work} {field : NameAt}

theorem run_openRecord :
    openRecord field context w = (.ok (.growing w.pass.store.records.size, .var ⟨w.pass.store.size, "a", false⟩),
      w.withStore (w.pass.store.extended.extended.recorded
        { fields := [(field.name, .var ⟨w.pass.store.size, "a", false⟩)]
          base := .var ⟨w.pass.store.size + 1, "b", false⟩
          refs := FieldReferences.empty.add field.name field.pos })) := by
  unfold openRecord
  rw [run_bind_ok _ (run_freshVar "a"), run_bind_ok _ (run_freshVar "b"), run_bind_ok _ (run_allocate _)]
  simp [Store.allocate, recorded]
  rfl

/-- An open end is solved by a new growing record with the field. -/
theorem run_growEnd {α : Type} (k : Ty → α) {v : TyVar} (hun : w.pass.store.Unsolved v.id) :
    (do
      let (grown, t) ← openRecord field
      store (StoreM.bind v grown)
      return k t : InferM α) context w =
    (.ok (k (.var ⟨w.pass.store.size, "a", false⟩)), w.withStore (w.pass.store.rowGrown v field)) := by
  rw [run_bind_ok _ run_openRecord]
  exact run_bind_ok _ (run_change_ok (bind_of_unsolved _ hun.extended.extended))

theorem run_insertField {id : RecordId} {g : GrowingRecord} (hrec : w.pass.store.records[id]? = some g) :
    (do
      let t ← freshVar "a"
      match ← store (StoreM.insertField id field.name t (some field.pos)) with
      | .ok () => return t
      | .error _ => return .unknown : InferM Ty) context w =
    (.ok (.var ⟨w.pass.store.size, "a", false⟩), w.withStore (w.pass.store.recordGrown id g field)) := by
  have hrec' : w.pass.store.extended.record id = .ok g := record_of_some (by simpa using hrec)
  have hinsert : StoreM.insertField id field.name (.var ⟨w.pass.store.size, "a", false⟩) (some field.pos)
      w.pass.store.extended = .ok (.ok (), w.pass.store.recordGrown id g field) := by
    unfold StoreM.insertField
    rw [StoreM.run_bind_ok (StoreM.run_read_ok (mentionsRecord_fresh id "a")), if_neg (by simp),
      StoreM.run_bind_ok (StoreM.run_read_ok hrec')]
    rfl
  rw [run_bind_ok _ (run_freshVar "a"), run_bind_ok _ (run_store_ok hinsert)]
  rfl

theorem openBase_eq {s : Store} {id : RecordId} {base : Option TyVar} (h : s.openBase id = .ok base) :
    ∃ g u, s.records[id]? = some g ∧ s.ResolvesTo g.base u ∧
      ∀ v, base = some v ↔ u = .var v ∧ v.rigid = false := by
  unfold Store.openBase at h
  obtain ⟨g, hg, h⟩ := exists_of_bind_ok h
  obtain ⟨u, hu, h⟩ := exists_of_bind_ok h
  have hrec : s.records[id]? = some g := by
    unfold Store.record at hg
    split at hg
    · next heq =>
      cases hg
      exact heq
    · cases hg
  refine ⟨g, u, hrec, resolvesTo_of_resolve hu, fun v => ?_⟩
  cases u with
  | var v' =>
    cases h
    cases hrigid : v'.rigid <;> grind
  | _ =>
    cases h
    simp

theorem run_growField_own {id : RecordId} {g : GrowingRecord} {v : TyVar} {base : Option TyVar}
    (hrec : w.pass.store.records[id]? = some g) (hopen : w.pass.store.openBase id = .ok base)
    (hown : base.map TyVar.id = some v.id) :
    growField (.growing id) v field context w =
      (.ok (.var ⟨w.pass.store.size, "a", false⟩), w.withStore (w.pass.store.recordGrown id g field)) := by
  refine (run_bind_ok _ (run_read_ok hopen)).trans ?_
  rw [if_pos hown, pure_bind]
  exact run_insertField hrec

/-- A growing record whose own base is the open end gains the field itself; otherwise the end is solved. -/
theorem accessed_growField {r resolved : Ty} {f : Flattened} {v : TyVar} (hr : w.pass.store.Accessible r)
    (hresolves : w.pass.store.ResolvesTo r resolved)
    (hflat : w.pass.store.FlattensTo resolved [] f) (hfield : f.field? field.name = none)
    (htail : f.tail = .opened v) (hflex : v.rigid = false) :
    ∃ t s', growField resolved v field context w = (.ok t, w.withStore s') ∧
      Accessed w.pass.store r field (.ok t) s' := by
  have hrow : (do
      let (grown, t) ← openRecord field
      store (StoreM.bind v grown)
      return t : InferM Ty) context w = _ := run_growEnd (fun t => t) (hflat.unsolved_tail htail)
  have haccessed := Accessed.row (.of_resolvesTo hresolves hflat) hfield htail hflex
  unfold growField
  cases resolved with
  | growing id =>
    obtain ⟨base, hopen⟩ := hr.openBase id hresolves
    by_cases hsame : base.map TyVar.id = some v.id
    · obtain ⟨u, rfl, -⟩ := Option.map_eq_some_iff.mp hsame
      obtain ⟨g, t, hrec, hbase, hiff⟩ := openBase_eq hopen
      obtain ⟨rfl, hflex⟩ := (hiff u).mp rfl
      refine ⟨_, _, run_growField_own hrec hopen hsame, .record ⟨hresolves, hrec, ?_, hbase, hflex⟩⟩
      cases hflat with
      | growing hrec' hrest =>
        rw [hrec] at hrec'
        cases hrec'
        simpa [Ty.get?_addFields, Assoc.get?] using hrest.get?_above hfield
      | baseless h => cases h
    · refine ⟨_, _, (run_bind_ok _ (run_read_ok hopen)).trans ?_, haccessed⟩
      rw [if_neg hsame]
      exact hrow
  | _ => exact ⟨_, _, hrow, haccessed⟩

theorem accessed_recordField {r resolved : Ty} (hr : w.pass.store.Accessible r)
    (hresolves : w.pass.store.ResolvesTo r resolved) :
    ∃ res s', recordField resolved field context w = (.ok res, w.withStore s') ∧
      Accessed w.pass.store r field res s' := by
  obtain ⟨f, hflatten⟩ := hr.flatten resolved hresolves
  have hflat := flattensTo_of_flatten hflatten
  have hbegin : recordField resolved field context w = _ := run_bind_ok _ (run_read_ok hflatten)
  rw [hbegin]
  cases hfield : f.field? field.name with
  | some t =>
    have hfound := Accessed.found (.of_resolvesTo hresolves hflat) hfield
    cases resolved with
    | growing id =>
      obtain ⟨base, hopen⟩ := hr.openBase id hresolves
      obtain ⟨g, -, hrec, -⟩ := openBase_eq hopen
      have hseen : w.pass.store.addReference id field.name field.pos = .ok (w.pass.store.fieldSeen id g field) := by
        simp only [Store.addReference, record_of_some hrec, Except.map, fieldSeen]
      exact ⟨_, _, run_bind_ok _ (run_change_ok hseen), .seen (.of_resolvesTo hresolves hflat) hfield hrec⟩
    | _ => exact ⟨_, _, rfl, hfound⟩
  | none =>
    cases htail : f.tail with
    | unknown => exact ⟨_, _, rfl, .nothing (fun t ht => by cases ht; rfl)⟩
    | closed => exact ⟨_, _, rfl, .nothing nofun⟩
    | opened v =>
      cases hrigid : v.rigid with
      | true =>
        simp only [hrigid, if_true]
        exact ⟨_, _, rfl, .nothing nofun⟩
      | false =>
        simp only [hrigid, Bool.false_eq_true, if_false]
        obtain ⟨t, s', hgrow, haccessed⟩ := accessed_growField hr hresolves hflat hfield htail hrigid
        exact ⟨_, _, run_bind_ok _ hgrow, haccessed⟩

/-- Accessing a field of a type that can be asked for it returns, and does nothing but what `Accessed` lists. -/
theorem accessed_fieldType {r : Ty} (hr : w.pass.store.Accessible r) :
    ∃ res s', fieldType r field context w = (.ok res, w.withStore s') ∧ Accessed w.pass.store r field res s' := by
  obtain ⟨resolved, hresolve⟩ := hr.resolve
  have hresolves := resolvesTo_of_resolve hresolve
  have hbegin : fieldType r field context w = _ := run_bind_ok _ (run_read_ok hresolve)
  rw [hbegin]
  cases resolved with
  | unknown | inProgress => exact ⟨_, _, rfl, .nothing (fun t ht => by cases ht; rfl)⟩
  | var v =>
    cases hplain : !v.rigid && v.typeclass.isNone with
    | true =>
      simp only [hplain, if_true]
      have hun := hresolves.unsolved_of_var
      rw [Bool.and_eq_true, Bool.not_eq_true'] at hplain
      exact ⟨_, _, run_growEnd Except.ok hun, .row (.of_resolvesTo hresolves (.unsolved hun)) rfl rfl hplain.1⟩
    | false =>
      simp only [hplain, Bool.false_eq_true, if_false]
      exact ⟨_, _, rfl, .nothing nofun⟩
  | record fields base written refs => exact accessed_recordField hr hresolves
  | growing id => exact accessed_recordField hr hresolves
  | _ => exact ⟨_, _, rfl, .nothing nofun⟩

/-- A growing record without the field, whose own base is a flexible variable, gains the field itself. -/
theorem run_fieldType_appends {r : Ty} {id : RecordId} {g : GrowingRecord} {v : TyVar}
    (happends : w.pass.store.Appends r field.name id g v) (hr : w.pass.store.Accessible r) :
    fieldType r field context w =
      (.ok (.ok (.var ⟨w.pass.store.size, "a", false⟩)), w.withStore (w.pass.store.recordGrown id g field)) := by
  obtain ⟨u, hresolve⟩ := hr.resolve
  obtain ⟨f, hflatten⟩ := hr.flatten _ happends.resolves
  obtain ⟨base, hopen⟩ := hr.openBase id happends.resolves
  obtain rfl := (resolvesTo_of_resolve hresolve).unique happends.resolves
  obtain rfl := (flattensTo_of_flatten hflatten).unique happends.flattensTo
  obtain rfl : base = some v := by
    obtain ⟨g', u, hrec, hbase, hiff⟩ := openBase_eq hopen
    cases hrec.symm.trans happends.record
    exact (hiff v).mpr ⟨hbase.unique happends.base, happends.flexible⟩
  have hfield : Flattened.field? ⟨Ty.addFields [] g.fields, .opened v⟩ field.name = none := by
    simpa [Flattened.field?, Ty.get?_addFields, Assoc.get?] using happends.lacks
  refine (run_bind_ok _ (run_read_ok hresolve)).trans ((run_bind_ok _ (run_read_ok hflatten)).trans ?_)
  simp only [hfield, happends.flexible, Bool.false_eq_true, if_false]
  exact run_bind_ok _ (run_growField_own happends.record hopen rfl)

end InferM

namespace Store

variable {s s' : Store}

/-! ### The stores after an access -/

section Stores

variable {field : NameAt} {id : RecordId} {g : GrowingRecord} {v : TyVar}

theorem record?_fieldSeen (hrec : s.records[id]? = some g) {other : RecordId} {g' : GrowingRecord}
    (h : s.records[other]? = some g') : ∃ g'', (s.fieldSeen id g field).records[other]? = some g'' ∧
      g''.fields = g'.fields ∧ g''.base = g'.base := by
  rw [fieldSeen, record?_setRecord]
  split
  · next heq =>
    subst heq
    rw [hrec] at h
    cases h
    rw [if_pos (lt_size_of_record? hrec)]
    exact ⟨_, rfl, rfl, rfl⟩
  · exact ⟨g', h, rfl, rfl⟩

theorem solution?_rowGrown_self (hun : s.Unsolved v.id) :
    (s.rowGrown v field).solution? v.id = some (.growing s.records.size) :=
  solution?_solved_self _ hun.extended.extended.1

theorem solution?_rowGrown_of_ne {other : VarId} (h : other ≠ v.id) :
    (s.rowGrown v field).solution? other = s.solution? other := by
  rw [rowGrown, solution?_solved_of_ne _ _ h, solution?_recorded, solution?_extended, solution?_extended]

theorem unsolved_rowGrown {other : VarId} (h : s.extended.extended.Unsolved other) (hne : other ≠ v.id) :
    (s.rowGrown v field).Unsolved other :=
  ⟨by simpa [rowGrown] using h.1, by simpa [solution?_rowGrown_of_ne hne] using h.2⟩

theorem record?_rowGrown {other : RecordId} {g' : GrowingRecord} (h : s.records[other]? = some g') :
    (s.rowGrown v field).records[other]? = some g' := by
  rw [rowGrown, records_solved, record?_recorded_of_lt _ (by simpa using lt_size_of_record? h)]
  simpa using h

theorem record?_rowGrown_self : (s.rowGrown v field).records[s.records.size]? =
    some { fields := [(field.name, .var ⟨s.size, "a", false⟩)]
           base := .var ⟨s.size + 1, "b", false⟩
           refs := FieldReferences.empty.add field.name field.pos } := by
  rw [rowGrown, records_solved]
  simpa using record?_recorded_self s.extended.extended _

theorem unsolved_rowGrown_fresh (hun : s.Unsolved v.id) :
    (s.rowGrown v field).Unsolved s.size ∧ (s.rowGrown v field).Unsolved (s.size + 1) := by
  constructor
  · exact unsolved_rowGrown (unsolved_extended_self s).extended (Nat.ne_of_gt hun.1)
  · refine unsolved_rowGrown (by simpa using unsolved_extended_self s.extended) ?_
    exact Nat.ne_of_gt (Nat.lt_succ_of_lt hun.1)

theorem exists_flattensTo_rowGrown (hun : s.Unsolved v.id) (u : TyVar) (hu : s.Unsolved u.id)
    (above : List (Name × Ty)) : ∃ f, (s.rowGrown v field).FlattensTo (.var u) above f := by
  by_cases hid : u.id = v.id
  · refine ⟨_, .solved ?_ (.growing record?_rowGrown_self (.unsolved (unsolved_rowGrown_fresh hun).2))⟩
    rw [hid, solution?_rowGrown_self hun]
  · exact ⟨_, .unsolved (unsolved_rowGrown hu.extended.extended hid)⟩

theorem record?_recordGrown_self (hrec : s.records[id]? = some g) : (s.recordGrown id g field).records[id]? =
    some { g with fields := Ty.addFields g.fields [(field.name, .var ⟨s.size, "a", false⟩)]
                  refs := g.refs.add field.name field.pos } := by
  rw [recordGrown, record?_setRecord, if_pos rfl, if_pos (by simpa using lt_size_of_record? hrec)]

theorem record?_recordGrown_of_ne {other : RecordId} (h : other ≠ id) :
    (s.recordGrown id g field).records[other]? = s.records[other]? := by
  rw [recordGrown, record?_setRecord, if_neg (Ne.symm h)]
  simp

theorem solution?_recordGrown (other : VarId) :
    (s.recordGrown id g field).solution? other = s.solution? other :=
  solution?_extended s other

theorem size_recordGrown : (s.recordGrown id g field).size = s.size + 1 :=
  size_extended s

theorem unsolved_recordGrown {other : VarId} (h : s.extended.Unsolved other) :
    (s.recordGrown id g field).Unsolved other := h

end Stores

/-- Unless nothing is known about it, a field that was accessed is there afterwards. -/
theorem Accessed.flattensTo {r t : Ty} {field : NameAt} (h : Accessed s r field (.ok t) s')
    (hknown : t ≠ .unknown) : ∃ f, s'.FlattensTo r [] f ∧ f.field? field.name = some t := by
  cases h with
  | nothing hunknown => exact absurd (hunknown t rfl) hknown
  | found hflat hfield => exact ⟨_, hflat, hfield⟩
  | @seen f _ id g hflat hfield hrec =>
    obtain ⟨f', hf', hkeeps, -⟩ := hflat.later (s.fieldSeen id g field) (fun _ _ hsol => hsol)
      (fun other g' hg' => record?_fieldSeen hrec hg') (fun v above hun => ⟨_, .unsolved hun⟩)
    exact ⟨f', hf', hkeeps _ _ hfield⟩
  | @row f v hflat hnone htail _ =>
    have hun := hflat.unsolved_tail htail
    obtain ⟨f', hf', -, hend⟩ := hflat.later (s.rowGrown v field)
      (fun other u hsol => by
        rwa [solution?_rowGrown_of_ne]
        rintro rfl
        exact not_unsolved_of_some hsol hun)
      (fun other g' hg' => ⟨g', record?_rowGrown hg', rfl, rfl⟩)
      (fun u above hu => exists_flattensTo_rowGrown hun u hu above)
    refine ⟨f', hf', ?_⟩
    cases hend v htail with
    | unsolved hun' => exact absurd hun' (not_unsolved_of_some (solution?_rowGrown_self hun))
    | solved hsol hrest =>
      cases (solution?_rowGrown_self hun).symm.trans hsol
      cases hrest with
      | growing hrec hrest =>
        cases record?_rowGrown_self.symm.trans hrec
        exact hrest.field?_of_above (get?_addFields_singleton _ hnone)
      | baseless h => cases h
    | baseless h => cases h
  | @record id g v happends =>
    have hsize : s.size ≤ (s.recordGrown id g field).size := by
      rw [size_recordGrown]
      omega
    have hend := happends.base.later hsize solution?_recordGrown
    refine ⟨_, .of_resolvesTo (happends.resolves.later hsize solution?_recordGrown)
      (.growing (record?_recordGrown_self happends.record)
        (.of_resolvesTo hend (.unsolved hend.unsolved_of_var))), ?_⟩
    rw [Flattened.field?, Ty.get?_addFields]
    simpa [Assoc.get?] using get?_addFields_singleton _ happends.lacks

end Store

end ElmInference
