import ElmInference.Proofs.Store.Flatness
import ElmInference.Proofs.Unify.Parts

/-!
# Zonking a type that was zonked before

A type may be zonked early and again later, when more is known. Zonking builds types with `Ty.function` and
`Ty.recordWith`, and it does not matter in how many steps these put a type together. So what is zonked early comes to
what it would have come to, as long as the later store still has what was known, and a variable that was unsolved does
not turn out to be unknown: an unknown base closes a growing record for good.
-/

namespace ElmInference

namespace Ty

/-- A type in which, alias arguments included, every function takes an argument and every table of sightings is
orderly. No other types are built by `Ty.function`, `Ty.recordWith` and the operations on sightings. -/
inductive Proper : Ty → Prop
  | unit : Proper .unit
  | unknown : Proper .unknown
  | inProgress : Proper .inProgress
  | var (v : TyVar) : Proper (.var v)
  | growing (id : RecordId) : Proper (.growing id)
  | union {m n : Name} {args : List Ty} {w : Option (AliasUse Ty)} :
      (∀ t ∈ args, Proper t) → (∀ t ∈ aliasArgs w, Proper t) → Proper (.union m n args w)
  | tuple {items : List Ty} : (∀ t ∈ items, Proper t) → Proper (.tuple items)
  | record {fields : List (Name × Ty)} {base : Option Ty} {w : Option (AliasUse Ty)} {refs : FieldReferences} :
      (∀ field ∈ fields, Proper field.2) → (∀ t, base = some t → Proper t) → (∀ t ∈ aliasArgs w, Proper t) →
      refs.Orderly → Proper (.record fields base w refs)
  | arrow {params : List Ty} {ret : Ty} {w : Option (AliasUse Ty)} :
      params ≠ [] → (∀ t ∈ params, Proper t) → Proper ret → (∀ t ∈ aliasArgs w, Proper t) →
      Proper (.arrow params ret w)

theorem Proper.applicable {t : Ty} (h : t.Proper) : t.Applicable := by
  induction h with
  | unit | unknown | inProgress | var | growing => exact applicable_of_parts (by simp) (fun u hpart => by cases hpart)
  | union _ _ ih _ =>
    refine applicable_of_parts (by simp) (fun u hpart => ?_)
    cases hpart with
    | arg hmem => exact ih u hmem
  | tuple _ ih =>
    refine applicable_of_parts (by simp) (fun u hpart => ?_)
    cases hpart with
    | item hmem => exact ih u hmem
  | record _ _ _ _ ihfields ihbase _ =>
    refine applicable_of_parts (by simp) (fun u hpart => ?_)
    cases hpart with
    | field hmem => exact ihfields _ hmem
    | base => exact ihbase u rfl
  | arrow hne _ _ _ ihparams ihret _ =>
    refine applicable_of_parts (by simp [hne]) (fun u hpart => ?_)
    cases hpart with
    | param hmem => exact ihparams u hmem
    | ret => exact ihret

/-- Whether the sightings of a type itself are orderly. -/
def SeenOrderly (t : Ty) : Prop :=
  ∀ fields base w refs, t = .record fields base w refs → refs.Orderly

theorem SeenOrderly.writtenAs? {t : Ty} (h : t.SeenOrderly) (w : Option (AliasUse Ty)) : (t.writtenAs? w).SeenOrderly := by
  intro fields base w' refs heq
  cases w with
  | none => exact h fields base w' refs heq
  | some use =>
    cases t with
    | record => cases heq; exact h _ _ _ _ rfl
    | _ => cases heq

theorem seenOrderly_recordWith {fields : List (Name × Ty)} {base : Option Ty} {refs : FieldReferences}
    (hrefs : refs.Orderly) (hbase : ∀ b, base = some b → b.SeenOrderly) : (recordWith fields base refs).SeenOrderly := by
  intro all rest w others heq
  unfold recordWith at heq
  split at heq <;> cases heq
  · exact hrefs.merge (hbase _ rfl _ _ _ _ rfl)
  · exact hrefs

theorem seenOrderly_function {params : List Ty} (hne : params ≠ []) (ret : Ty) : (function params ret).SeenOrderly := by
  intro fields base w refs heq
  unfold function at heq
  split at heq
  · exact absurd rfl hne
  · split at heq <;> cases heq

end Ty

namespace Store

variable {s s' : Store}

/-! ### Zonking what is built -/

section Level

variable {follow : Ty → Except Fault Ty}

theorem zonkList_append {ts us ys zs : List Ty} (hts : s.zonkList follow ts = .ok ys)
    (hus : s.zonkList follow us = .ok zs) : s.zonkList follow (ts ++ us) = .ok (ys ++ zs) :=
  zonkList_iff.mpr (List.rel_append (zonkList_iff.mp hts) (zonkList_iff.mp hus))

theorem zonkWith_arrow {params ys : List Ty} {ret r : Ty} {w w' : Option (AliasUse Ty)}
    (hparams : s.zonkList follow params = .ok ys) (hret : s.zonkWith follow ret = .ok r)
    (hw : s.zonkAlias follow w = .ok w') :
    s.zonkWith follow (.arrow params ret w) = .ok ((Ty.function ys r).writtenAs? w') := by
  rw [zonkWith, hparams, hret, hw]
  rfl

theorem zonkWith_record {fields zs : List (Name × Ty)} {base b : Option Ty} {w w' : Option (AliasUse Ty)}
    (hfields : s.zonkFields follow fields = .ok zs) (hbase : s.zonkBase follow base = .ok b)
    (hw : s.zonkAlias follow w = .ok w') (refs : FieldReferences) :
    s.zonkWith follow (.record fields base w refs) = .ok ((Ty.recordWith zs b refs).writtenAs? w') := by
  rw [zonkWith, hfields, hbase, hw]
  rfl

/-- A function is zonked by zonking what it is built of. -/
theorem zonkWith_function {params ys : List Ty} {ret r : Ty} (hparams : s.zonkList follow params = .ok ys)
    (hret : s.zonkWith follow ret = .ok r) : s.zonkWith follow (Ty.function params ret) = .ok (Ty.function ys r) := by
  by_cases hne : params = []
  · subst hne
    cases hparams
    exact hret
  by_cases hbare : ∃ more last, ret = .arrow more last none
  · obtain ⟨more, last, rfl⟩ := hbare
    obtain ⟨zs, l, w', hzs, hl, hw', rfl⟩ := exists_of_zonkWith_arrow hret
    cases hw'
    rw [Ty.function_arrow hne, zonkWith_arrow (zonkList_append hparams hzs) hl rfl]
    exact congrArg Except.ok (Ty.function_function ys zs l).symm
  · rw [Ty.function_of_ne hne fun more last heq => hbare ⟨more, last, heq⟩]
    exact zonkWith_arrow (w := none) hparams hret rfl

/-- A record is zonked by zonking what it is built of. -/
theorem zonkWith_recordWith {fields zs : List (Name × Ty)} {base b : Option Ty}
    (hfields : s.zonkFields follow fields = .ok zs) (hbase : s.zonkBase follow base = .ok b)
    (horderly : ∀ t, base = some t → t.SeenOrderly) (refs : FieldReferences) :
    s.zonkWith follow (Ty.recordWith fields base refs) = .ok (Ty.recordWith zs b refs) := by
  by_cases hinner : ∃ inner innerBase w innerRefs, base = some (.record inner innerBase w innerRefs)
  · obtain ⟨inner, innerBase, w, innerRefs, rfl⟩ := hinner
    obtain ⟨y, hy, rfl⟩ := exists_of_zonkBase hbase
    obtain ⟨zinner, zbase, w', hzinner, hzbase, -, rfl⟩ := exists_of_zonkWith_record hy
    have hall := zonkFields_iff.mpr
      ((zonkFields_iff.mp hfields).addFields (zonkFields_iff.mp hzinner))
    rw [Ty.recordWith, zonkWith_record hall hzbase rfl,
      Ty.recordWith_recordWith zs zinner zbase w' refs (horderly _ rfl _ _ _ _ rfl)]
    rfl
  · rw [Ty.recordWith_of_ne fun inner innerBase w innerRefs heq => hinner ⟨inner, innerBase, w, innerRefs, heq⟩]
    exact zonkWith_record (w := none) hfields hbase rfl refs

/-- The alias that a function or a record was written with is zonked apart from the type. -/
theorem zonkWith_writtenAs? {t z : Ty} {w w' : Option (AliasUse Ty)}
    (ht : (∃ params ret, t = .arrow params ret none) ∨ ∃ fields base refs, t = .record fields base none refs)
    (hz : s.zonkWith follow t = .ok z) (hw : s.zonkAlias follow w = .ok w') :
    s.zonkWith follow (t.writtenAs? w) = .ok (z.writtenAs? w') := by
  rcases w with _ | use
  · cases hw
    exact hz
  rcases ht with ⟨params, ret, rfl⟩ | ⟨fields, base, refs, rfl⟩
  · obtain ⟨ys, r, _, hys, hr, hnone, rfl⟩ := exists_of_zonkWith_arrow hz
    cases hnone
    exact zonkWith_arrow hys hr hw
  · obtain ⟨zs, b, _, hzs, hb, hnone, rfl⟩ := exists_of_zonkWith_record hz
    cases hnone
    exact zonkWith_record hzs hb hw refs

end Level

/-! ### Zonking twice -/

/-- What a later store makes of a type, it makes of an earlier result as well. -/
structure Rezonks (s' : Store) (t y : Ty) : Prop where
  zonk : ∀ m z, s'.zonkAt m t = .ok z → s'.zonkAt m y = .ok z
  unknown : ∀ m, s'.zonkAt m t = .ok .unknown → y = .unknown
  orderly : y.SeenOrderly

structure Proper (s : Store) : Prop where
  solution : ∀ id t, s.solution? id = some t → t.Proper
  record : ∀ (id : RecordId) g, s.records[id]? = some g → (Ty.record g.fields (some g.base) none g.refs).Proper

theorem Proper.next (hs : s.Proper) {t u : Ty} (ht : t.Proper) (h : s.Chain t u) : u.Proper := by
  cases h with
  | solution hsol => exact hs.solution _ _ hsol
  | base =>
    cases ht with
    | record _ hbase _ _ => exact hbase _ rfl
  | growing hrec =>
    cases hs.record _ _ hrec with
    | record _ hbase _ _ => exact hbase _ rfl

/-- Chains of bases through proper types come to no function without parameters. -/
theorem Proper.ended (hs : s.Proper) {t : Ty} (ht : t.Proper) : s.Ended t := by
  intro ret w hchain
  have hproper : ∀ u, Relation.ReflTransGen s.Chain t u → u.Proper := by
    intro u hreads
    induction hreads with
    | refl => exact ht
    | tail _ hstep ih => exact hs.next ih hstep
  cases hproper _ hchain with
  | arrow hne _ _ _ => exact hne rfl

section Twice

variable {ts ys xs : List Ty} {m : Nat}

theorem Alongside.rezonks_list (h : Alongside (fun t y _ => t.Proper → Rezonks s' t y) ts ys xs)
    (hts : ∀ t ∈ ts, t.Proper) {zs : List Ty} (hz : s'.zonkList (s'.onward m) ts = .ok zs) :
    s'.zonkList (s'.onward m) ys = .ok zs := by
  rw [zonkList_iff, ← zonkAt_eq] at hz ⊢
  induction h generalizing zs with
  | nil => exact hz
  | cons hfirst _ ih =>
    cases hz with
    | cons hhead hrest =>
      have hagain := (hfirst (hts _ List.mem_cons_self)).zonk m _ hhead
      exact .cons hagain (ih (fun t ht => hts t (List.mem_cons_of_mem _ ht)) hrest)

theorem Alongside.rezonks_fields {fields yfields xfields zfields : List (Name × Ty)}
    (h : Alongside (FieldRel (fun t y _ => t.Proper → Rezonks s' t y)) fields yfields xfields)
    (hfields : ∀ field ∈ fields, field.2.Proper) (hz : ZonkedFields (s'.zonkAt m) fields zfields) :
    ZonkedFields (s'.zonkAt m) yfields zfields := by
  induction h generalizing zfields with
  | nil => exact hz
  | cons hfirst _ ih =>
    cases hz with
    | cons hhead hrest =>
      have hagain := (hfirst.2.2 (hfields _ List.mem_cons_self)).zonk m _ hhead.2
      exact .cons ⟨hhead.1.trans hfirst.1.symm, hagain⟩
        (ih (fun field hf => hfields field (List.mem_cons_of_mem _ hf)) hrest)

theorem BaseRel.rezonks {base y x b : Option Ty} (h : BaseRel (fun t y _ => t.Proper → Rezonks s' t y) base y x)
    (hbase : ∀ t, base = Option.some t → t.Proper) (hz : s'.zonkBase (s'.onward m) base = .ok b) :
    s'.zonkBase (s'.onward m) y = .ok b := by
  cases h with
  | none => exact hz
  | some hrel =>
    rw [zonkBase, ← zonkAt_eq] at hz ⊢
    obtain ⟨z, hzb, hz⟩ := exists_of_bind_ok hz
    cases hz
    rw [(hrel (hbase _ rfl)).zonk m z hzb]
    rfl

theorem AliasRel.rezonks {w y x w' : Option (AliasUse Ty)} (h : AliasRel (fun t y _ => t.Proper → Rezonks s' t y) w y x)
    (hw : ∀ t ∈ Ty.aliasArgs w, t.Proper) (hz : s'.zonkAlias (s'.onward m) w = .ok w') :
    s'.zonkAlias (s'.onward m) y = .ok w' := by
  cases h with
  | none => exact hz
  | some hargs =>
    rw [zonkAlias] at hz ⊢
    obtain ⟨zs, hzs, hz⟩ := exists_of_bind_ok hz
    cases hz
    rw [hargs.rezonks_list hw hzs]
    rfl

theorem BaseRel.seenOrderly {base y x : Option Ty} (h : BaseRel (fun t y _ => t.Proper → Rezonks s' t y) base y x)
    (hbase : ∀ t, base = Option.some t → t.Proper) : ∀ t, y = Option.some t → t.SeenOrderly := by
  intro t ht
  cases h with
  | none => cases ht
  | some hrel =>
    cases ht
    exact (hrel (hbase _ rfl)).orderly

theorem rezonks_self {t : Ty} (h : t.SeenOrderly) (hknown : ∀ m, s'.zonkAt m t = .ok .unknown → t = .unknown) :
    Rezonks s' t t :=
  ⟨fun _ _ => id, hknown, h⟩

theorem rezonks_of_ne {t y : Ty} (hzonk : ∀ m z, s'.zonkAt m t = .ok z → s'.zonkAt m y = .ok z ∧ z ≠ .unknown)
    (h : y.SeenOrderly) : Rezonks s' t y :=
  ⟨fun m z hz => (hzonk m z hz).1, fun m hz => absurd rfl (hzonk m _ hz).2, h⟩

theorem respectful_rezonks : Respectful (fun t y _ => t.Proper → Rezonks s' t y) where
  unit _ := rezonks_self (fun _ _ _ _ h => by cases h) (fun m h => by rw [zonkAt_eq] at h; cases h)
  unknown _ := rezonks_self (fun _ _ _ _ h => by cases h) (fun _ _ => rfl)
  inProgress _ := rezonks_self (fun _ _ _ _ h => by cases h) (fun m h => by rw [zonkAt_eq] at h; cases h)
  union hargs hw ht := by
    cases ht with | union hproper hproper' =>
    refine rezonks_of_ne (fun m z hz => ?_) (fun _ _ _ _ h => by cases h)
    rw [zonkAt_eq, zonkWith] at hz
    obtain ⟨zs, hzs, hz⟩ := exists_of_bind_ok hz
    obtain ⟨w', hw', hz⟩ := exists_of_bind_ok hz
    cases hz
    rw [zonkAt_eq, zonkWith, hargs.rezonks_list hproper hzs, hw.rezonks hproper' hw']
    exact ⟨rfl, by simp⟩
  tuple hitems ht := by
    cases ht with | tuple hproper =>
    refine rezonks_of_ne (fun m z hz => ?_) (fun _ _ _ _ h => by cases h)
    rw [zonkAt_eq, zonkWith] at hz
    obtain ⟨zs, hzs, hz⟩ := exists_of_bind_ok hz
    cases hz
    rw [zonkAt_eq, zonkWith, hitems.rezonks_list hproper hzs]
    exact ⟨rfl, by simp⟩
  record {fields ys _ base b _ w y _ refs} hfields hbase hw ht := by
    cases ht with | record hproper hproperBase hproper' hrefs =>
    have horderly := hbase.seenOrderly hproperBase
    refine rezonks_of_ne (fun m z hz => ?_) ((Ty.seenOrderly_recordWith hrefs horderly).writtenAs? y)
    rw [zonkAt_eq] at hz
    obtain ⟨zs, b', w', hzs, hb', hw', rfl⟩ := exists_of_zonkWith_record hz
    refine ⟨?_, writtenAs?_ne_unknown (recordWith_ne_unknown _ _ _) _⟩
    have hzonked := zonkFields_iff.mp hzs
    rw [← zonkAt_eq] at hzonked
    have hagain := hfields.rezonks_fields hproper hzonked
    rw [zonkAt_eq] at hagain ⊢
    have hzonked := zonkWith_recordWith (zonkFields_iff.mpr hagain) (hbase.rezonks hproperBase hb') horderly refs
    exact zonkWith_writtenAs? (.inr (Ty.exists_record_recordWith ys b refs)) hzonked (hw.rezonks hproper' hw')
  arrow {params ys _ ret r _ w y _} hparams hret hw ht := by
    cases ht with | arrow hne hproper hproperRet hproper' =>
    have hys : ys ≠ [] := by
      rintro rfl
      cases hparams
      exact hne rfl
    refine rezonks_of_ne (fun m z hz => ?_) ((Ty.seenOrderly_function hys r).writtenAs? y)
    rw [zonkAt_eq] at hz
    obtain ⟨zs, r', w', hzs, hr', hw', rfl⟩ := exists_of_zonkWith_arrow hz
    refine ⟨?_, writtenAs?_ne_unknown (fun h => ?_) _⟩
    · rw [← zonkAt_eq] at hr'
      have hagain := (hret hproperRet).zonk m r' hr'
      rw [zonkAt_eq] at hagain ⊢
      exact zonkWith_writtenAs? (.inl (Ty.exists_arrow_function hys r))
        (zonkWith_function (hparams.rezonks_list hproper hzs) hagain) (hw.rezonks hproper' hw')
    · exact ne_nil_of_zonkList hne hzs (function_eq_unknown_iff.mp h).1

/-- The record that is written out for a growing record is closed if its base is unknown. It stays closed, since the
base stays unknown. -/
theorem rezonks_writtenOut {id : RecordId} {g : GrowingRecord} {yfields xfields : List (Name × Ty)} {b : Ty}
    (hrec : s'.records[id]? = some g) (hproper : (Ty.record g.fields (some g.base) none g.refs).Proper)
    (hfields : Alongside (FieldRel (fun t y _ => t.Proper → Rezonks s' t y)) g.fields yfields xfields)
    (hbase : g.base.Proper → Rezonks s' g.base b) : Rezonks s' (.growing id) (writtenOut yfields b g.refs) := by
  cases hproper with | record hproper hproperBase _ hrefs =>
  have hbase := hbase (hproperBase _ rfl)
  have horderly : (writtenOut yfields b g.refs).SeenOrderly := by
    unfold writtenOut
    split
    · exact Ty.seenOrderly_recordWith hrefs (by simp)
    · exact Ty.seenOrderly_recordWith hrefs (fun _ h => Option.some.inj h ▸ hbase.orderly)
  refine rezonks_of_ne (fun m z hz => ?_) horderly
  obtain ⟨m, zs, b', rfl, hzs, hb', rfl⟩ := exists_of_zonkAt_growing hrec hz
  refine ⟨?_, writtenOut_ne_unknown _ _ _⟩
  have hle : m ≤ m + 1 := Nat.le_succ m
  have hzonked := (hfields.rezonks_fields hproper hzs).mono hle
  rw [zonkAt_eq] at hzonked ⊢
  have hzs := zonkFields_iff.mpr hzonked
  have hagain := zonkAt_mono hle (hbase.zonk m b' hb')
  by_cases hb : b = .unknown
  · subst hb
    rw [zonkAt_eq, zonkWith] at hagain
    cases hagain
    have hnone : s'.zonkBase (s'.onward (m + 1)) none = .ok none := rfl
    exact zonkWith_recordWith hzs hnone (by simp) g.refs
  · have hb'ne : b' ≠ .unknown := fun heq => hb (hbase.unknown m (heq ▸ hb'))
    rw [writtenOut_of_ne hb, writtenOut_of_ne hb'ne]
    refine zonkWith_recordWith hzs ?_ (fun _ h => Option.some.inj h ▸ hbase.orderly) g.refs
    rw [zonkBase, ← zonkAt_eq, hagain]
    rfl

/-- A variable is written out as itself or as its solution. -/
theorem zonkAt_var_cases {n : Nat} {v : TyVar} {z : Ty} (hz : s.zonkAt n (.var v) = .ok z) :
    s.Unsolved v.id ∧ z = .var v ∨ ∃ k u, n = k + 1 ∧ s.solution? v.id = some u ∧ s.zonkAt k u = .ok z := by
  by_cases hlt : v.id < s.size
  · rcases unsolved_or_some hlt with hun | ⟨u, hsol⟩
    · rw [zonkAt_eq, zonkWith_unsolved hun] at hz
      exact .inl ⟨hun, (Except.ok.inj hz).symm⟩
    · obtain ⟨k, hk, hnext⟩ := exists_of_zonkAt_solved hsol hz
      exact .inr ⟨k, u, hk, hsol, hnext⟩
  · rw [zonkAt_eq, zonkWith, solution_of_ge (Nat.le_of_not_lt hlt)] at hz
    cases hz

/-- Zonking early is harmless: what a type was zonked to comes to what the type comes to. -/
theorem rezonks_of_zonkAt (hext : s.Extends s')
    (hknown : ∀ v : TyVar, s.Unsolved v.id → ∀ n, s'.zonkAt n (.var v) ≠ .ok .unknown) (hs : s.Proper) {n : Nat}
    {t y : Ty} (h : s.zonkAt n t = .ok y) (ht : t.Proper) : Rezonks s' t y := by
  refine zonkAt_induct (P := fun t y => t.Proper → Rezonks s' t y) respectful_rezonks (fun v hun _ => ?_)
    (fun v u y hsol hrest _ => ?_) (fun id g ys _ b hrec hfields hbase _ => ?_) h ht
  · exact rezonks_self (fun _ _ _ _ h => by cases h) (fun m hm => absurd hm (hknown v hun m))
  · have hu := hrest (hs.solution _ _ hsol)
    have hfollow : ∀ m z, s'.zonkAt m (.var v) = .ok z → ∃ k ≤ m, s'.zonkAt k u = .ok z := by
      intro m z hz
      have hsol' := hext.solution _ _ hsol
      rcases zonkAt_var_cases hz with ⟨hun, -⟩ | ⟨k, u', rfl, hagain, hz⟩
      · exact absurd hun (not_unsolved_of_some hsol')
      · cases hsol'.symm.trans hagain
        exact ⟨k, Nat.le_succ k, hz⟩
    refine ⟨fun m z hz => ?_, fun m hz => ?_, hu.orderly⟩
    · obtain ⟨k, hle, hz⟩ := hfollow m z hz
      exact zonkAt_mono hle (hu.zonk k z hz)
    · obtain ⟨k, -, hz⟩ := hfollow m _ hz
      exact hu.unknown k hz
  · exact rezonks_writtenOut (hext.record _ _ hrec) (hs.record _ _ hrec) hfields hbase

end Twice

end Store

end ElmInference
