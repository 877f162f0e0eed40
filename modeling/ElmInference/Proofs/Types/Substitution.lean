import ElmInference.Proofs.Infer.Independence
import ElmInference.Proofs.Store.Rezonking

/-!
# One substitution after another

Substitution builds functions and records anew, so a function that is put for a result is folded in, and a record that
is put for a base is merged. Both may happen under the first of two substitutions or under the second, and what was
folded or merged under the first is taken apart by neither. All the same one substitution does the work of both: it
makes no difference whether parts are replaced before or after a type is built of them.
-/

namespace ElmInference

namespace Ty

variable {f g : TyVar → Option Ty} {t : Ty}

/-! ### What the constructors build of proper types -/

theorem Proper.writtenAs? {w : Option (AliasUse Ty)} (ht : t.Proper) (hw : ∀ u ∈ aliasArgs w, u.Proper) :
    (t.writtenAs? w).Proper := by
  cases w with
  | none => exact ht
  | some use =>
    cases ht with
    | union hargs _ => exact .union hargs hw
    | record hfields hbase _ hrefs => exact .record hfields hbase hw hrefs
    | arrow hne hparams hret _ => exact .arrow hne hparams hret hw
    | unit => exact .unit
    | unknown => exact .unknown
    | inProgress => exact .inProgress
    | var v => exact .var v
    | growing id => exact .growing id
    | tuple hitems => exact .tuple hitems

theorem proper_function {params : List Ty} {ret : Ty} (hparams : ∀ t ∈ params, t.Proper) (hret : ret.Proper) :
    (function params ret).Proper := by
  refine function_closed (fun all last hne hall hlast => .arrow hne hall hlast (fun _ h => nomatch h))
    (fun all last h => ?_) hparams hret
  cases h with
  | arrow _ hall hlast _ => exact ⟨hall, hlast⟩

theorem proper_recordWith {fields : List (Name × Ty)} {base : Option Ty} {refs : FieldReferences}
    (hfields : ∀ field ∈ fields, field.2.Proper) (hbase : ∀ t, base = some t → t.Proper) (hrefs : refs.Orderly) :
    (recordWith fields base refs).Proper := by
  by_cases hrecord : ∃ inner innerBase w innerRefs, base = some (.record inner innerBase w innerRefs)
  · obtain ⟨inner, innerBase, w, innerRefs, rfl⟩ := hrecord
    cases hbase _ rfl with
    | record hinner hinnerBase _ hinnerRefs =>
      refine .record (fun field hfield => ?_) hinnerBase (fun _ h => nomatch h) (hrefs.merge hinnerRefs)
      rcases mem_addFields hfield with hfield | hfield
      · exact hfields field hfield
      · exact hinner field hfield
  · rw [recordWith_of_ne fun inner innerBase w innerRefs heq => hrecord ⟨inner, innerBase, w, innerRefs, heq⟩]
    exact .record hfields hbase (fun _ h => nomatch h) hrefs

theorem Proper.subst (ht : t.Proper) (hf : ∀ v u, f v = some u → u.Proper) : (t.subst f).Proper := by
  have hlist : ∀ {ts : List Ty}, (∀ t ∈ ts, (t.subst f).Proper) → ∀ u ∈ ts.map (Ty.subst f), u.Proper :=
    fun hts => List.forall_mem_map.mpr hts
  have halias : ∀ {w : Option (AliasUse Ty)}, (∀ t ∈ aliasArgs w, (t.subst f).Proper) →
      ∀ u ∈ aliasArgs (substAlias f w), u.Proper := by
    intro w hw
    rw [aliasArgs_substAlias]
    exact hlist hw
  induction ht with
  | unit => exact .unit
  | unknown => exact .unknown
  | inProgress => exact .inProgress
  | growing id => exact .growing id
  | var v =>
    rw [Ty.subst]
    cases hv : f v with
    | none => exact .var v
    | some u => exact hf v u hv
  | union _ _ iha ihw =>
    rw [Ty.subst, substList_eq_map]
    exact .union (hlist iha) (halias ihw)
  | tuple _ ih =>
    rw [Ty.subst, substList_eq_map]
    exact .tuple (hlist ih)
  | @record fields base w refs _ _ _ hrefs ihf ihb ihw =>
    rw [Ty.subst, substFields_eq_map, substBase_eq]
    refine (proper_recordWith (List.forall_mem_map.mpr ihf) (fun u hu => ?_) hrefs).writtenAs? (halias ihw)
    obtain ⟨b, hb, rfl⟩ := Option.map_eq_some_iff.mp hu
    exact ihb b hb
  | arrow _ _ _ _ ihp ihr ihw =>
    rw [Ty.subst, substList_eq_map]
    exact (proper_function (hlist ihp) ihr).writtenAs? (halias ihw)

theorem Proper.seenOrderly (ht : t.Proper) : t.SeenOrderly := by
  rintro fields base w refs rfl
  cases ht with
  | record _ _ _ hrefs => exact hrefs

/-! ### Substitution in what is built -/

theorem writtenAs?_writtenAs? (t : Ty) (w : Option (AliasUse Ty)) (use : AliasUse Ty) :
    (t.writtenAs? w).writtenAs? (some use) = t.writtenAs? (some use) := by
  cases w with
  | none => rfl
  | some other => cases t <;> rfl

/-- The alias of a type is substituted in apart from the type, unless the type is a variable, which takes no alias but
may become a type that does. -/
theorem subst_writtenAs? (hvar : t.var? = none) (w : Option (AliasUse Ty)) :
    (t.writtenAs? w).subst f = (t.subst f).writtenAs? (substAlias f w) := by
  rcases w with _ | ⟨m, n, args⟩
  · rfl
  · cases t with
    | var v => cases hvar
    | union => rfl
    | record fields base w refs =>
      rw [substAlias, subst, writtenAs?_writtenAs?]
      rfl
    | arrow params ret w =>
      rw [substAlias, subst, writtenAs?_writtenAs?]
      rfl
    | _ => rfl

theorem var?_function {params : List Ty} (hne : params ≠ []) (ret : Ty) : (function params ret).var? = none := by
  obtain ⟨all, last, heq⟩ := exists_arrow_function hne ret
  rw [heq]
  rfl

theorem var?_recordWith (fields : List (Name × Ty)) (base : Option Ty) (refs : FieldReferences) :
    (recordWith fields base refs).var? = none := by
  obtain ⟨all, rest, others, heq⟩ := exists_record_recordWith fields base refs
  rw [heq]
  rfl

/-- The fields and the sightings of a base come last, whether it is merged before or after it is substituted in. -/
theorem subst_recordWith (fields : List (Name × Ty)) {base : Option Ty} (hbase : ∀ t, base = some t → t.SeenOrderly)
    (refs : FieldReferences) :
    (recordWith fields base refs).subst f =
      recordWith (fields.map (Prod.map id (subst f))) (base.map (subst f)) refs := by
  by_cases hrecord : ∃ inner innerBase w innerRefs, base = some (.record inner innerBase w innerRefs)
  · obtain ⟨inner, innerBase, w, innerRefs, rfl⟩ := hrecord
    have hrefs : innerRefs.Orderly := hbase _ rfl _ _ _ _ rfl
    rw [Option.map_some, subst, recordWith_recordWith _ _ _ _ _ hrefs, recordWith, subst, substFields_eq, substFields_eq,
      map_addFields]
    rfl
  · rw [recordWith_of_ne fun inner innerBase w innerRefs heq => hrecord ⟨inner, innerBase, w, innerRefs, heq⟩, subst,
      substFields_eq, substBase_eq]
    rfl

/-! ### Two substitutions -/

/-- The substitution that does the work of two: an image under the first one is substituted in by the second one, and
variables without an image are left to the second one. -/
def andThen (f g : TyVar → Option Ty) (v : TyVar) : Option Ty :=
  match f v with
  | some u => some (u.subst g)
  | none => g v

theorem substAlias_substAlias {w : Option (AliasUse Ty)}
    (h : ∀ t ∈ aliasArgs w, (t.subst f).subst g = t.subst (andThen f g)) :
    substAlias g (substAlias f w) = substAlias (andThen f g) w := by
  rcases w with _ | ⟨m, n, args⟩
  · rfl
  · have hargs : args.map (Ty.subst g ∘ Ty.subst f) = args.map (Ty.subst (andThen f g)) := List.map_congr_left h
    simp only [substAlias, substList_eq_map, List.map_map, hargs]

theorem Proper.subst_subst (ht : t.Proper) (hf : ∀ v u, f v = some u → u.Proper) :
    (t.subst f).subst g = t.subst (andThen f g) := by
  have hlist : ∀ {ts : List Ty}, (∀ t ∈ ts, (t.subst f).subst g = t.subst (andThen f g)) →
      (ts.map (Ty.subst f)).map (Ty.subst g) = ts.map (Ty.subst (andThen f g)) := by
    intro ts hts
    rw [List.map_map]
    exact List.map_congr_left hts
  induction ht with
  | unit => rfl
  | unknown => rfl
  | inProgress => rfl
  | growing id => rfl
  | var v =>
    rw [Ty.subst, Ty.subst, andThen]
    cases f v <;> rfl
  | union _ _ iha ihw =>
    simp only [Ty.subst, substList_eq_map, hlist iha, substAlias_substAlias ihw]
  | tuple _ ih => simp only [Ty.subst, substList_eq_map, hlist ih]
  | @record fields base w refs _ hbase _ _ ihf ihb ihw =>
    have hfields : (fields.map (Prod.map id (Ty.subst f))).map (Prod.map id (Ty.subst g)) =
        fields.map (Prod.map id (Ty.subst (andThen f g))) := by
      rw [List.map_map]
      exact List.map_congr_left fun field hfield => Prod.ext rfl (ihf field hfield)
    have hbases : (base.map (Ty.subst f)).map (Ty.subst g) = base.map (Ty.subst (andThen f g)) := by
      rw [Option.map_map]
      exact Option.map_congr fun b hb => ihb b hb
    have horderly : ∀ t, base.map (Ty.subst f) = some t → t.SeenOrderly := by
      intro t hmap
      obtain ⟨b, hb, rfl⟩ := Option.map_eq_some_iff.mp hmap
      exact ((hbase b hb).subst hf).seenOrderly
    rw [Ty.subst, Ty.subst, substFields_eq, substFields_eq, substBase_eq, substBase_eq,
      subst_writtenAs? (var?_recordWith _ _ _), subst_recordWith _ horderly, hfields, hbases, substAlias_substAlias ihw]
  | @arrow params ret w hne _ _ _ ihp ihr ihw =>
    have hne' : params.map (Ty.subst f) ≠ [] := by simp [hne]
    rw [Ty.subst, Ty.subst, substList_eq_map, substList_eq_map, subst_writtenAs? (var?_function hne' _), subst_function,
      hlist ihp, ihr, substAlias_substAlias ihw]

/-- Of two substitutions one after the other the work is done by one: an image under the first is substituted in by the
second, and what the first leaves alone is left to the second. The substitution without images does nothing to a type
that is folded and merged already. Arguments of aliases are no exception to either. -/
theorem substitution_composes (t : Ty) (f g : TyVar → Option Ty) (ht : t.Proper) (hf : ∀ v u, f v = some u → u.Proper) :
    (t.subst f).subst g = t.subst (andThen f g) ∧ (t.Built → t.subst (fun _ => none) = t) :=
  ⟨ht.subst_subst hf, fun hbuilt => hbuilt.subst_none⟩

/-- The record that the first substitution puts for the base is merged, with a sighting of its own, and the function that
the second one puts for the result is folded in, under an alias that shows both. -/
theorem substitution_composes_of_reader :
    let a : TyVar := ⟨0, "a", false⟩
    let b : TyVar := ⟨1, "b", false⟩
    let t : Ty := .arrow [.record [("x", .unit)] (some (.var a)) none ⟨[("x", [3])]⟩] (.var b)
      (some ⟨"Main", "Reader", [.var a, .var b]⟩)
    let image : Ty := .record [("y", .var b)] (some (.var a)) none ⟨[("x", [5])]⟩
    let f : TyVar → Option Ty := fun v => if v.id = 0 then some image else none
    let g : TyVar → Option Ty := fun v => if v.id = 1 then some (.arrow [.unit] .unit none) else none
    (t.Proper ∧ (∀ v u, f v = some u → u.Proper) ∧ t.Built) ∧
      ((t.subst f).subst g = t.subst (andThen f g) ∧ t.subst (fun _ => none) = t) ∧
      t.subst (andThen f g) =
        .arrow [.record [("x", .unit), ("y", .arrow [.unit] .unit none)] (some (.var a)) none ⟨[("x", [3, 5])]⟩, .unit]
          .unit (some ⟨"Main", "Reader", [image.subst g, .arrow [.unit] .unit none]⟩) := by
  intro a b t image f g
  have hrefs : ∀ pos, FieldReferences.Orderly ⟨[("x", [pos])]⟩ := fun pos => ⟨by simp, by simp⟩
  have ht : t.Proper := by
    refine .arrow (by simp) (List.forall_mem_singleton.mpr ?_) (.var b) ?_
    · exact .record (List.forall_mem_singleton.mpr .unit) (fun u hu => Option.some.inj hu ▸ .var a) (by simp [aliasArgs])
        (hrefs 3)
    · simpa [aliasArgs] using ⟨.var a, .var b⟩
  have hf : ∀ v u, f v = some u → u.Proper := by
    intro v u hv
    by_cases h : v.id = 0
    · obtain rfl := Option.some.inj ((if_pos h).symm.trans hv)
      exact .record (List.forall_mem_singleton.mpr (.var b)) (fun u hu => Option.some.inj hu ▸ .var a) (by simp [aliasArgs])
        (hrefs 5)
    · cases (if_neg h).symm.trans hv
  have hbuilt : t.Built := by
    refine .arrow (by simp) (List.forall_mem_singleton.mpr ?_) (.var b) rfl ?_
    · exact .record (List.forall_mem_singleton.mpr .unit) (fun u hu => Option.some.inj hu ▸ .var a)
        (fun u hu => Option.some.inj hu ▸ rfl) (by simp [aliasArgs])
    · simpa [aliasArgs] using ⟨.var a, .var b⟩
  obtain ⟨hcomposes, hnone⟩ := substitution_composes t f g ht hf
  exact ⟨⟨ht, hf, hbuilt⟩, ⟨hcomposes, hnone hbuilt⟩, rfl⟩

end Ty

end ElmInference
