import ElmInference.Proofs.Store.Crossings

/-!
# Zonking one type in two ways

Zonking is structural between the variables and growing records that it crosses. So when a type is zonked
twice, in two stores or with different amounts of fuel, the two results are related as soon as they are related
wherever a variable or a growing record is crossed, for every relation that respects the constructors of types.

Two such relations are used. Equality says that more fuel changes nothing. The other one says that the second
result is the first with some of its variables read differently.
-/

namespace ElmInference

namespace Store

/-! ### Relations between results -/

inductive Alongside {α : Type} (R : α → α → α → Prop) : List α → List α → List α → Prop
  | nil : Alongside R [] [] []
  | cons {x y z : α} {xs ys zs : List α} : R x y z → Alongside R xs ys zs →
      Alongside R (x :: xs) (y :: ys) (z :: zs)

theorem Alongside.exists_left {α : Type} {R : α → α → α → Prop} {xs ys zs : List α} (h : Alongside R xs ys zs)
    {y : α} (hy : y ∈ ys) : ∃ x ∈ xs, ∃ z, R x y z := by
  induction h with
  | nil => cases hy
  | cons hfirst _ ih =>
    rcases List.mem_cons.mp hy with rfl | hy
    · exact ⟨_, List.mem_cons_self, _, hfirst⟩
    · obtain ⟨x, hx, hrel⟩ := ih hy
      exact ⟨x, List.mem_cons_of_mem _ hx, hrel⟩

theorem Alongside.exists_right {α : Type} {R : α → α → α → Prop} {xs ys zs : List α} (h : Alongside R xs ys zs)
    {x : α} (hx : x ∈ xs) : ∃ y ∈ ys, ∃ z, R x y z := by
  induction h with
  | nil => cases hx
  | cons hfirst _ ih =>
    rcases List.mem_cons.mp hx with rfl | hx
    · exact ⟨_, List.mem_cons_self, _, hfirst⟩
    · obtain ⟨y, hy, hrel⟩ := ih hx
      exact ⟨y, List.mem_cons_of_mem _ hy, hrel⟩

def FieldRel (R : Ty → Ty → Ty → Prop) (x y z : Name × Ty) : Prop :=
  y.1 = x.1 ∧ z.1 = x.1 ∧ R x.2 y.2 z.2

/-- Bases that are related, or none at all. -/
inductive BaseRel (R : Ty → Ty → Ty → Prop) : Option Ty → Option Ty → Option Ty → Prop
  | none : BaseRel R none none none
  | some {x y z : Ty} : R x y z → BaseRel R (some x) (some y) (some z)

/-- Uses of one alias with related arguments, or none at all. -/
inductive AliasRel (R : Ty → Ty → Ty → Prop) :
    Option (AliasUse Ty) → Option (AliasUse Ty) → Option (AliasUse Ty) → Prop
  | none : AliasRel R none none none
  | some {m n : Name} {xs ys zs : List Ty} : Alongside R xs ys zs →
      AliasRel R (some ⟨m, n, xs⟩) (some ⟨m, n, ys⟩) (some ⟨m, n, zs⟩)

theorem AliasRel.args {R : Ty → Ty → Ty → Prop} {w y z : Option (AliasUse Ty)} (h : AliasRel R w y z) :
    Alongside R (Ty.aliasArgs w) (Ty.aliasArgs y) (Ty.aliasArgs z) := by
  cases h with
  | none => exact .nil
  | some hargs => exact hargs

/-- A relation between a type and two results of zonking it that respects the constructors of types. -/
structure Respectful (R : Ty → Ty → Ty → Prop) : Prop where
  unit : R .unit .unit .unit
  unknown : R .unknown .unknown .unknown
  inProgress : R .inProgress .inProgress .inProgress
  union : ∀ {m n args ys zs w y z}, Alongside R args ys zs → AliasRel R w y z →
    R (.union m n args w) (.union m n ys y) (.union m n zs z)
  tuple : ∀ {items ys zs}, Alongside R items ys zs → R (.tuple items) (.tuple ys) (.tuple zs)
  record : ∀ {fields ys zs base b b' w y z refs}, Alongside (FieldRel R) fields ys zs →
    BaseRel R base b b' → AliasRel R w y z →
    R (.record fields base w refs) ((Ty.recordWith ys b refs).writtenAs? y)
      ((Ty.recordWith zs b' refs).writtenAs? z)
  arrow : ∀ {params ys zs ret r r' w y z}, Alongside R params ys zs → R ret r r' → AliasRel R w y z →
    R (.arrow params ret w) ((Ty.function ys r).writtenAs? y) ((Ty.function zs r').writtenAs? z)

/-- When the first of two computations returns, so does the second, with a related result. -/
def Tracks {α : Type} (P : α → α → Prop) (x x' : Except Fault α) : Prop :=
  ∀ y, x = .ok y → ∃ z, x' = .ok z ∧ P y z

section Tracks

variable {α β : Type} {R : Ty → Ty → Ty → Prop} {s s' : Store} {follow follow' : Ty → Except Fault Ty}

theorem tracks_ok {P : α → α → Prop} {y z : α} (h : P y z) : Tracks P (.ok y) (.ok z) := by
  intro _ heq
  cases heq
  exact ⟨z, rfl, h⟩

theorem Tracks.bind {P : α → α → Prop} {P' : β → β → Prop} {x x' : Except Fault α}
    {f f' : α → Except Fault β} (hx : Tracks P x x') (hf : ∀ y z, P y z → Tracks P' (f y) (f' z)) :
    Tracks P' (x >>= f) (x' >>= f') := by
  intro b hb
  obtain ⟨y, rfl, hy⟩ := exists_of_bind_ok hb
  obtain ⟨z, rfl, hP⟩ := hx y rfl
  exact hf y z hP b hy

theorem tracks_mapM {P : α → α → α → Prop} {f f' : α → Except Fault α} {xs : List α}
    (h : ∀ x ∈ xs, Tracks (P x) (f x) (f' x)) : Tracks (Alongside P xs) (xs.mapM f) (xs.mapM f') := by
  induction xs with
  | nil => exact tracks_ok .nil
  | cons x xs ih =>
    rw [List.mapM_cons, List.mapM_cons]
    refine (h x List.mem_cons_self).bind (fun y z hyz => ?_)
    refine (ih (fun u hu => h u (List.mem_cons_of_mem _ hu))).bind (fun ys zs hrest => ?_)
    exact tracks_ok (.cons hyz hrest)

theorem tracks_fields {fields : List (Name × Ty)}
    (h : ∀ field ∈ fields, Tracks (R field.2) (follow field.2) (follow' field.2)) :
    Tracks (Alongside (FieldRel R) fields)
      (fields.mapM (fun field => do return (field.1, ← follow field.2)))
      (fields.mapM (fun field => do return (field.1, ← follow' field.2))) :=
  tracks_mapM fun field hfield => (h field hfield).bind (fun _ _ hyz => tracks_ok ⟨rfl, rfl, hyz⟩)

theorem tracks_zonkList {ts : List Ty}
    (h : ∀ t ∈ ts, Tracks (R t) (s.zonkWith follow t) (s'.zonkWith follow' t)) :
    Tracks (Alongside R ts) (s.zonkList follow ts) (s'.zonkList follow' ts) := by
  rw [zonkList_eq, zonkList_eq]
  exact tracks_mapM h

theorem tracks_zonkFields {fields : List (Name × Ty)}
    (h : ∀ field ∈ fields, Tracks (R field.2) (s.zonkWith follow field.2) (s'.zonkWith follow' field.2)) :
    Tracks (Alongside (FieldRel R) fields) (s.zonkFields follow fields) (s'.zonkFields follow' fields) := by
  rw [zonkFields_eq, zonkFields_eq]
  exact tracks_fields h

theorem tracks_zonkBase {base : Option Ty}
    (h : ∀ t, base = some t → Tracks (R t) (s.zonkWith follow t) (s'.zonkWith follow' t)) :
    Tracks (BaseRel R base) (s.zonkBase follow base) (s'.zonkBase follow' base) := by
  cases base with
  | none =>
    rw [zonkBase, zonkBase]
    exact tracks_ok .none
  | some t =>
    rw [zonkBase, zonkBase]
    exact (h t rfl).bind (fun y z hyz => tracks_ok (.some hyz))

theorem tracks_zonkAlias {w : Option (AliasUse Ty)}
    (h : ∀ t ∈ Ty.aliasArgs w, Tracks (R t) (s.zonkWith follow t) (s'.zonkWith follow' t)) :
    Tracks (AliasRel R w) (s.zonkAlias follow w) (s'.zonkAlias follow' w) := by
  rcases w with _ | ⟨m, n, args⟩
  · rw [zonkAlias, zonkAlias]
    exact tracks_ok .none
  · rw [zonkAlias, zonkAlias]
    exact (tracks_zonkList h).bind (fun ys zs hargs => tracks_ok (.some hargs))

/-- Results are related when they are wherever a variable or a growing record is crossed. -/
theorem tracks_zonkWith (hR : Respectful R)
    (hvar : ∀ v, Tracks (R (.var v)) (s.zonkWith follow (.var v)) (s'.zonkWith follow' (.var v)))
    (hgrowing : ∀ id,
      Tracks (R (.growing id)) (s.zonkWith follow (.growing id)) (s'.zonkWith follow' (.growing id)))
    (t : Ty) : Tracks (R t) (s.zonkWith follow t) (s'.zonkWith follow' t) := by
  induction t using Ty.inductParts with
  | unit =>
    rw [zonkWith, zonkWith]
    exact tracks_ok hR.unit
  | unknown =>
    rw [zonkWith, zonkWith]
    exact tracks_ok hR.unknown
  | inProgress =>
    rw [zonkWith, zonkWith]
    exact tracks_ok hR.inProgress
  | var v => exact hvar v
  | growing id => exact hgrowing id
  | union m n args w iha ihw =>
    rw [zonkWith, zonkWith]
    refine (tracks_zonkList iha).bind (fun ys zs hargs => ?_)
    exact (tracks_zonkAlias ihw).bind (fun y z hw => tracks_ok (hR.union hargs hw))
  | tuple items ih =>
    rw [zonkWith, zonkWith]
    exact (tracks_zonkList ih).bind (fun ys zs hitems => tracks_ok (hR.tuple hitems))
  | record fields base w refs ihf ihb ihw =>
    rw [zonkWith, zonkWith]
    refine (tracks_zonkFields ihf).bind (fun ys zs hfields => ?_)
    refine (tracks_zonkBase ihb).bind (fun b b' hbase => ?_)
    exact (tracks_zonkAlias ihw).bind (fun y z hw => tracks_ok (hR.record hfields hbase hw))
  | arrow params ret w ihp ihr ihw =>
    rw [zonkWith, zonkWith]
    refine (tracks_zonkList ihp).bind (fun ys zs hparams => ?_)
    refine ihr.bind (fun r r' hret => ?_)
    exact (tracks_zonkAlias ihw).bind (fun y z hw => tracks_ok (hR.arrow hparams hret hw))

/-- What zonking makes of a growing record, once its fields and its base are zonked. -/
def writtenOut (fields : List (Name × Ty)) (base : Ty) (refs : FieldReferences) : Ty :=
  match base with
  | .unknown => Ty.recordWith fields none refs
  | base => Ty.recordWith fields (some base) refs

theorem zonkWith_growing {id : RecordId} {g : GrowingRecord} (hrec : s.records[id]? = some g) :
    s.zonkWith follow (.growing id) = (do
      let fields ← g.fields.mapM (fun field => do return (field.1, ← follow field.2))
      let base ← follow g.base
      return writtenOut fields base g.refs) := by
  rw [zonkWith, record_of_some hrec, ok_bind]
  congr 1
  funext fields
  congr 1
  funext base
  cases base <;> rfl

theorem zonkWith_unsolved {v : TyVar} (h : s.Unsolved v.id) : s.zonkWith follow (.var v) = .ok (.var v) := by
  rw [zonkWith, solution_of_lt h.1, h.2]
  rfl

theorem zonkWith_solved {v : TyVar} {t : Ty} (h : s.solution? v.id = some t) :
    s.zonkWith follow (.var v) = follow t := by
  rw [zonkWith, solution_of_some h]
  rfl

/-- A variable is crossed by following its solution. -/
theorem tracks_var {v : TyVar} {P : Ty → Ty → Prop}
    (hunsolved : s.Unsolved v.id → Tracks P (.ok (.var v)) (s'.zonkWith follow' (.var v)))
    (hsolved : ∀ t, s.solution? v.id = some t → Tracks P (follow t) (s'.zonkWith follow' (.var v))) :
    Tracks P (s.zonkWith follow (.var v)) (s'.zonkWith follow' (.var v)) := by
  by_cases hlt : v.id < s.size
  · rcases unsolved_or_some hlt with hun | ⟨t, hsol⟩
    · rw [zonkWith_unsolved hun]
      exact hunsolved hun
    · rw [zonkWith_solved hsol]
      exact hsolved t hsol
  · intro z hz
    rw [zonkWith, solution_of_ge (Nat.le_of_not_lt hlt)] at hz
    cases hz

/-- A growing record is crossed by following its fields and its base. -/
theorem tracks_growing {id : RecordId} {P : Ty → Ty → Prop}
    (h : ∀ g, s.records[id]? = some g → Tracks P (do
      let fields ← g.fields.mapM (fun field => do return (field.1, ← follow field.2))
      let base ← follow g.base
      return writtenOut fields base g.refs) (s'.zonkWith follow' (.growing id))) :
    Tracks P (s.zonkWith follow (.growing id)) (s'.zonkWith follow' (.growing id)) := by
  cases hrec : s.records[id]? with
  | none =>
    intro z hz
    have hlost : s.record id = .error (.missingRecord id) := by simp [Store.record, hrec]
    rw [zonkWith, hlost] at hz
    cases hz
  | some g =>
    rw [zonkWith_growing hrec]
    exact h g hrec

/-! ### More fuel -/

theorem Alongside.eq {α : Type} {R : α → α → α → Prop} (hR : ∀ x y z, R x y z → y = z) {xs ys zs : List α}
    (h : Alongside R xs ys zs) : ys = zs := by
  induction h with
  | nil => rfl
  | cons hfirst _ ih => rw [hR _ _ _ hfirst, ih]

theorem fieldRel_eq {x y z : Name × Ty} (h : FieldRel (fun _ y z => y = z) x y z) : y = z :=
  Prod.ext (h.1.trans h.2.1.symm) h.2.2

theorem aliasRel_eq {w y z : Option (AliasUse Ty)} (h : AliasRel (fun _ y z => y = z) w y z) : y = z := by
  cases h with
  | none => rfl
  | some hargs => rw [hargs.eq (fun _ _ _ => id)]

theorem respectful_eq : Respectful (fun _ y z => y = z) where
  unit := rfl
  unknown := rfl
  inProgress := rfl
  union hargs hw := by rw [hargs.eq (fun _ _ _ => id), aliasRel_eq hw]
  tuple hitems := by rw [hitems.eq (fun _ _ _ => id)]
  record hfields hbase hw := by
    rw [hfields.eq (fun _ _ _ => fieldRel_eq), aliasRel_eq hw]
    cases hbase with
    | none => rfl
    | some hbase => rw [hbase]
  arrow hparams hret hw := by rw [hparams.eq (fun _ _ _ => id), hret, aliasRel_eq hw]

/-- A result that is found with some fuel is found with more. -/
theorem zonkAt_mono {n m : Nat} (hnm : n ≤ m) {t z : Ty} (h : s.zonkAt n t = .ok z) : s.zonkAt m t = .ok z := by
  have hwith : ∀ {follow follow' : Ty → Except Fault Ty},
      (∀ t, Tracks (fun y z => y = z) (follow t) (follow' t)) →
      ∀ t, Tracks (fun y z => y = z) (s.zonkWith follow t) (s.zonkWith follow' t) := by
    intro follow follow' hfollow t
    refine tracks_zonkWith respectful_eq (fun v => tracks_var (fun hun => ?_) (fun u hsol => ?_))
      (fun id => tracks_growing (fun g hrec => ?_)) t
    · rw [zonkWith_unsolved hun]
      exact tracks_ok rfl
    · rw [zonkWith_solved hsol]
      exact hfollow u
    · rw [zonkWith_growing hrec]
      refine (tracks_fields (R := fun _ y z => y = z) (fun field _ => hfollow field.2)).bind
        (fun ys zs hfields => ?_)
      obtain rfl := hfields.eq (fun _ _ _ => fieldRel_eq)
      refine (hfollow g.base).bind (fun y z hbase => ?_)
      obtain rfl := hbase
      exact tracks_ok rfl
  have hat : ∀ n m, n ≤ m → ∀ t, Tracks (fun y z => y = z) (s.zonkAt n t) (s.zonkAt m t) := by
    intro n
    induction n with
    | zero =>
      rintro (_ | m) _ t
      · exact hwith (fun _ _ h => by cases h) t
      · exact hwith (fun _ _ h => by cases h) t
    | succ n ih =>
      rintro (_ | m) hle t
      · cases hle
      · exact hwith (ih m (Nat.le_of_succ_le_succ hle)) t
  obtain ⟨z', hz', rfl⟩ := hat n m hnm t z h
  exact hz'

/-! ### Properties of a result -/

/-- What zonking goes on with when it is allowed `n` crossings. -/
def onward (s : Store) : Nat → Ty → Except Fault Ty
  | 0 => fun _ => .error .diverged
  | n + 1 => s.zonkAt n

theorem zonkAt_eq (s : Store) (n : Nat) : s.zonkAt n = s.zonkWith (s.onward n) := by
  cases n <;> rfl

/-- A property of a type and its result that respects the constructors of types, and that passes from a solution to
its variable and from the fields and the base to a growing record, holds of all results. -/
theorem zonkAt_induct {P : Ty → Ty → Prop} (hP : Respectful (fun t y _ => P t y))
    (hunsolved : ∀ v, s.Unsolved v.id → P (.var v) (.var v))
    (hsolved : ∀ v t y, s.solution? v.id = some t → P t y → P (.var v) y)
    (hgrowing : ∀ id g ys zs b, s.records[id]? = some g →
      Alongside (FieldRel (fun t y _ => P t y)) g.fields ys zs → P g.base b →
      P (.growing id) (writtenOut ys b g.refs)) {n : Nat} {t z : Ty} (h : s.zonkAt n t = .ok z) : P t z := by
  have hat : ∀ n t, Tracks (fun y _ => P t y) (s.zonkAt n t) (s.zonkAt n t) := by
    intro n
    have hlevel : ∀ follow : Ty → Except Fault Ty, (∀ t, Tracks (fun y _ => P t y) (follow t) (follow t)) →
        ∀ t, Tracks (fun y _ => P t y) (s.zonkWith follow t) (s.zonkWith follow t) := by
      intro follow hfollow
      refine tracks_zonkWith hP (fun v => tracks_var (fun hun => ?_) (fun u hsol => ?_))
        (fun id => tracks_growing (fun g hrec => ?_))
      · rw [zonkWith_unsolved hun]
        exact tracks_ok (hunsolved v hun)
      · rw [zonkWith_solved hsol]
        intro y hy
        obtain ⟨z, hz, hu⟩ := hfollow u y hy
        exact ⟨z, hz, hsolved v u y hsol hu⟩
      · rw [zonkWith_growing hrec]
        refine (tracks_fields (R := fun t y _ => P t y) (fun field _ => hfollow field.2)).bind (fun ys zs hys => ?_)
        exact (hfollow g.base).bind (fun b _ hb => tracks_ok (hgrowing id g ys zs b hrec hys hb))
    induction n with
    | zero => exact hlevel _ (fun _ y hy => by cases hy)
    | succ n ih => exact hlevel _ ih
  obtain ⟨-, -, hz⟩ := hat n t z h
  exact hz

/-! ### Other readings of variables -/

/-- The second result says what the first one says when its variables are read in another way, at least for
the types that satisfy `T`, and it is known to say something exactly if the first one is. -/
structure Mirrors {κ : Type} (T : Ty → Prop) (η ζ : Env κ) (t y z : Ty) : Prop where
  read : T t → z.read ζ = y.read η
  unknown : z = .unknown ↔ y = .unknown

section Mirrors

variable {κ : Type} {T : Ty → Prop} {η ζ : Env κ}

theorem Alongside.map_read {ts ys zs : List Ty} (h : Alongside (Mirrors T η ζ) ts ys zs)
    (hT : ∀ t ∈ ts, T t) : zs.map (Ty.read ζ) = ys.map (Ty.read η) := by
  induction h with
  | nil => rfl
  | cons hfirst _ ih =>
    rw [List.map_cons, List.map_cons, hfirst.read (hT _ List.mem_cons_self),
      ih (fun t ht => hT t (List.mem_cons_of_mem _ ht))]

theorem Alongside.fieldReadings {fields ys zs : List (Name × Ty)}
    (h : Alongside (FieldRel (Mirrors T η ζ)) fields ys zs) (hT : ∀ field ∈ fields, T field.2) :
    Ty.fieldReadings ζ zs = Ty.fieldReadings η ys := by
  induction h with
  | nil => rfl
  | @cons x y z _ _ _ hfirst _ ih =>
    obtain ⟨name, y⟩ := y
    obtain ⟨name', z⟩ := z
    obtain ⟨rfl, rfl, hfirst⟩ := hfirst
    exact fieldReadings_cons (hfirst.read (hT _ List.mem_cons_self))
      (ih (fun t ht => hT t (List.mem_cons_of_mem _ ht)))

theorem mirrors_of_ne {t y z : Ty} (hread : T t → z.read ζ = y.read η) (hy : y ≠ .unknown)
    (hz : z ≠ .unknown) : Mirrors T η ζ t y z :=
  ⟨hread, ⟨fun h => absurd h hz, fun h => absurd h hy⟩⟩

theorem writtenAs?_eq_unknown_iff {t : Ty} {w : Option (AliasUse Ty)} :
    t.writtenAs? w = .unknown ↔ t = .unknown := by
  refine ⟨fun h => ?_, fun h => ?_⟩
  · by_contra hne
    exact writtenAs?_ne_unknown hne w h
  · subst h
    cases w <;> rfl

theorem function_eq_unknown_iff {params : List Ty} {ret : Ty} :
    Ty.function params ret = .unknown ↔ params = [] ∧ ret = .unknown := by
  unfold Ty.function
  split
  · simp
  · split <;> simp

theorem respectful_mirrors (hT : ∀ t u, t.Part u → T t → T u) : Respectful (Mirrors T η ζ) where
  unit := ⟨fun _ => rfl, Iff.rfl⟩
  unknown := ⟨fun _ => rfl, Iff.rfl⟩
  inProgress := ⟨fun _ => rfl, Iff.rfl⟩
  union hargs _ := by
    refine mirrors_of_ne (fun ht => ?_) (by simp) (by simp)
    rw [Ty.read_union, Ty.read_union, hargs.map_read (fun u hu => hT _ u (.arg hu) ht)]
  tuple hitems := by
    refine mirrors_of_ne (fun ht => ?_) (by simp) (by simp)
    rw [Ty.read_tuple, Ty.read_tuple, hitems.map_read (fun u hu => hT _ u (.item hu) ht)]
  record hfields hbase _ := by
    refine mirrors_of_ne (fun ht => ?_) (writtenAs?_ne_unknown (recordWith_ne_unknown _ _ _) _)
      (writtenAs?_ne_unknown (recordWith_ne_unknown _ _ _) _)
    rw [Ty.read_writtenAs?, Ty.read_writtenAs?, Ty.read_recordWith, Ty.read_recordWith,
      hfields.fieldReadings (fun field hf => hT _ _ (.field hf) ht)]
    cases hbase with
    | none => rfl
    | some hbase => rw [Ty.readBase, Ty.readBase, hbase.read (hT _ _ .base ht)]
  arrow {params ys zs ret r r' w y z} hparams hret _ := by
    constructor
    · intro ht
      rw [Ty.read_writtenAs?, Ty.read_writtenAs?, Ty.read_function, Ty.read_function,
        hparams.map_read (fun u hu => hT _ u (.param hu) ht), hret.read (hT _ _ .ret ht)]
    · rw [writtenAs?_eq_unknown_iff, writtenAs?_eq_unknown_iff, function_eq_unknown_iff,
        function_eq_unknown_iff, hret.unknown]
      cases hparams <;> simp

theorem writtenOut_of_ne {fields : List (Name × Ty)} {base : Ty} (h : base ≠ .unknown)
    (refs : FieldReferences) : writtenOut fields base refs = Ty.recordWith fields (some base) refs := by
  unfold writtenOut
  split
  · exact absurd rfl h
  · rfl

theorem writtenOut_ne_unknown (fields : List (Name × Ty)) (base : Ty) (refs : FieldReferences) :
    writtenOut fields base refs ≠ .unknown := by
  unfold writtenOut
  split <;> exact recordWith_ne_unknown _ _ _

/-- Growing records with the same fields and the same base are mirrored when these are. -/
theorem mirrors_writtenOut {fields ys zs : List (Name × Ty)} {base b b' : Ty} {id : RecordId}
    (hfields : Alongside (FieldRel (Mirrors T η ζ)) fields ys zs) (hbase : Mirrors T η ζ base b b')
    (hT : T (.growing id) → (∀ field ∈ fields, T field.2) ∧ T base) (refs refs' : FieldReferences) :
    Mirrors T η ζ (.growing id) (writtenOut ys b refs) (writtenOut zs b' refs') := by
  refine mirrors_of_ne (fun ht => ?_) (writtenOut_ne_unknown _ _ _) (writtenOut_ne_unknown _ _ _)
  obtain ⟨hTf, hTb⟩ := hT ht
  by_cases hb : b = .unknown
  · rw [hb, hbase.unknown.mpr hb]
    simp only [writtenOut, Ty.read_recordWith, hfields.fieldReadings hTf, Ty.readBase]
  · rw [writtenOut_of_ne hb, writtenOut_of_ne (fun h => hb (hbase.unknown.mp h)), Ty.read_recordWith,
      Ty.read_recordWith, hfields.fieldReadings hTf, Ty.readBase, Ty.readBase, hbase.read hTb]

/-- A result in one store is mirrored in another one, where zonking may need `k` more crossings, when what
stands for a variable that has no solution is, and growing records are. -/
theorem tracks_zonkAt (k : Nat) (hT : ∀ t u, t.Part u → T t → T u)
    (hvar : ∀ v : TyVar, s.Unsolved v.id → Tracks (Mirrors T η ζ (.var v)) (.ok (.var v)) (s'.zonkAt k (.var v)))
    (hsol : ∀ (v : TyVar) t, s.solution? v.id = some t → s'.solution? v.id = some t ∧ (T (.var v) → T t))
    (hgrowing : ∀ id g n, s.records[id]? = some g →
      (∀ t, Tracks (Mirrors T η ζ t) (s.zonkAt n t) (s'.zonkAt (n + k) t)) →
      Tracks (Mirrors T η ζ (.growing id)) (s.zonkAt (n + 1) (.growing id))
        (s'.zonkAt (n + 1 + k) (.growing id)))
    (n : Nat) (t : Ty) : Tracks (Mirrors T η ζ t) (s.zonkAt n t) (s'.zonkAt (n + k) t) := by
  have hlater : ∀ (v : TyVar) (m : Nat), k ≤ m → s.Unsolved v.id →
      Tracks (Mirrors T η ζ (.var v)) (.ok (.var v)) (s'.zonkAt m (.var v)) := by
    intro v m hm hun y hy
    obtain ⟨z, hz, hmirrors⟩ := hvar v hun y hy
    exact ⟨z, zonkAt_mono hm hz, hmirrors⟩
  induction n generalizing t with
  | zero =>
    rw [zonkAt_eq s', zonkAt_eq s]
    refine tracks_zonkWith (respectful_mirrors hT) (fun v => tracks_var (fun hun => ?_) (fun u _ y hy => ?_))
      (fun id => tracks_growing (fun g _ z hz => ?_)) t
    · rw [← zonkAt_eq]
      exact hlater v _ (by omega) hun
    · cases hy
    · obtain ⟨fields, -, hz⟩ := exists_of_bind_ok hz
      obtain ⟨base, hbase, -⟩ := exists_of_bind_ok hz
      cases hbase
  | succ n ih =>
    have hsucc : n + 1 + k = n + k + 1 := by omega
    rw [hsucc]
    refine tracks_zonkWith (respectful_mirrors hT) (fun v => tracks_var (fun hun => ?_) (fun u hu => ?_))
      (fun id => tracks_growing (fun g hrec => ?_)) t
    · exact hlater v (n + k + 1) (by omega) hun
    · rw [zonkWith_solved (hsol v u hu).1]
      intro y hy
      obtain ⟨z, hz, hmirrors⟩ := ih u y hy
      exact ⟨z, hz, fun ht => hmirrors.read ((hsol v u hu).2 ht), hmirrors.unknown⟩
    · rw [← zonkWith_growing hrec]
      have hnode := hgrowing id g n hrec ih
      rwa [hsucc] at hnode

/-- A growing record of which nothing but the references has changed. -/
theorem tracks_record {id : RecordId} {g g' : GrowingRecord} {n k : Nat} (hrec : s.records[id]? = some g)
    (hrec' : s'.records[id]? = some g') (hfields : g'.fields = g.fields) (hbase : g'.base = g.base)
    (hT : T (.growing id) → (∀ field ∈ g.fields, T field.2) ∧ T g.base)
    (h : ∀ t, Tracks (Mirrors T η ζ t) (s.zonkAt n t) (s'.zonkAt (n + k) t)) :
    Tracks (Mirrors T η ζ (.growing id)) (s.zonkAt (n + 1) (.growing id))
      (s'.zonkAt (n + 1 + k) (.growing id)) := by
  have hsucc : n + 1 + k = n + k + 1 := by omega
  rw [hsucc, zonkAt, zonkAt, zonkWith_growing hrec, zonkWith_growing hrec', hfields, hbase]
  refine (tracks_fields (fun field _ => h field.2)).bind (fun ys zs hys => ?_)
  exact (h g.base).bind (fun y z hyz => tracks_ok (mirrors_writtenOut hys hyz hT g.refs g'.refs))

end Mirrors

end Tracks

/-! ### What zonking goes on with -/

theorem exists_of_zonkAt_solved {s : Store} {v : TyVar} {t z : Ty} {n : Nat} (hsol : s.solution? v.id = some t)
    (hz : s.zonkAt n (.var v) = .ok z) : ∃ m, n = m + 1 ∧ s.zonkAt m t = .ok z := by
  rw [zonkAt_eq, zonkWith_solved hsol] at hz
  cases n with
  | zero => cases hz
  | succ m => exact ⟨m, rfl, hz⟩

theorem exists_of_zonkAt_growing {s : Store} {id : RecordId} {g : GrowingRecord} {z : Ty} {n : Nat}
    (hrec : s.records[id]? = some g) (hz : s.zonkAt n (.growing id) = .ok z) :
    ∃ m zs b, n = m + 1 ∧ ZonkedFields (s.zonkAt m) g.fields zs ∧ s.zonkAt m g.base = .ok b ∧
      z = writtenOut zs b g.refs := by
  rw [zonkAt_eq, zonkWith_growing hrec] at hz
  obtain ⟨zs, hzs, hz⟩ := exists_of_bind_ok hz
  obtain ⟨b, hb, hz⟩ := exists_of_bind_ok hz
  cases hz
  cases n with
  | zero => cases hb
  | succ m => exact ⟨m, zs, b, rfl, mapM_fields_iff.mp hzs, hb, rfl⟩

/-! ### Fields of zonked records -/

section Fields

variable {s : Store} {follow : Ty → Except Fault Ty}

theorem ZonkedFields.get? {fields zs : List (Name × Ty)} (h : ZonkedFields follow fields zs) (name : Name) :
    (Assoc.get? fields name = none ∧ Assoc.get? zs name = none) ∨
      ∃ t z, Assoc.get? fields name = some t ∧ follow t = .ok z ∧ Assoc.get? zs name = some z := by
  induction h with
  | nil => exact .inl ⟨rfl, rfl⟩
  | @cons field z rest zs hfirst _ ih =>
    obtain ⟨name', t⟩ := field
    obtain ⟨other, z⟩ := z
    obtain ⟨rfl, hz⟩ := hfirst
    simp only [Assoc.get?]
    split
    · exact .inr ⟨t, z, rfl, hz, rfl⟩
    · exact ih

theorem field?_recordWith (fields : List (Name × Ty)) (base : Option Ty) (refs : FieldReferences) (name : Name) :
    (Ty.recordWith fields base refs).field? name =
      (Assoc.get? fields name).or (base.bind (fun b => b.field? name)) := by
  unfold Ty.recordWith
  split
  · simp [Ty.field?, Ty.fields?, Ty.get?_addFields]
  · next hnot =>
    cases base with
    | none => simp [Ty.field?, Ty.fields?]
    | some b =>
      cases b with
      | record inner innerBase w innerRefs => exact absurd rfl (hnot inner innerBase w innerRefs)
      | _ => simp [Ty.field?, Ty.fields?]

theorem field?_writtenAs? (t : Ty) (w : Option (AliasUse Ty)) (name : Name) :
    (t.writtenAs? w).field? name = t.field? name := by
  cases w with
  | none => rfl
  | some use => cases t <;> rfl

theorem field?_writtenOut (fields : List (Name × Ty)) (base : Ty) (refs : FieldReferences) (name : Name) :
    (writtenOut fields base refs).field? name = (Assoc.get? fields name).or (base.field? name) := by
  unfold writtenOut
  split <;> rw [field?_recordWith] <;> rfl

end Fields

end Store

end ElmInference
