import ElmInference.Proofs.Store.Mentions
import ElmInference.Proofs.Types.Sightings

/-!
# How types are built

`Ty.function` folds a returned function into the parameter list and `Ty.recordWith` merges a base that is a record, so
it does not matter in how many steps a function or a record is put together: parameters are appended, fields are added
in order, and sightings of fields are merged. What is done to the parts of a type can therefore be done before or after
it is built. Substitution is one such thing.
-/

namespace ElmInference

namespace Ty

/-! ### Fields -/

theorem addFields_append (fields more others : List (Name × Ty)) :
    addFields fields (more ++ others) = addFields (addFields fields more) others :=
  List.foldl_append

theorem any_name_iff {fields : List (Name × Ty)} {name : Name} :
    fields.any (·.1 == name) = true ↔ name ∈ fields.map Prod.fst := by
  simp

/-- Fields may be added in one step or in two. -/
theorem addFields_addFields (fields more others : List (Name × Ty)) :
    addFields fields (addFields more others) = addFields (addFields fields more) others := by
  induction others generalizing more with
  | nil => rfl
  | cons field rest ih =>
    rw [addFields_cons, ih, addFields_cons]
    congr 1
    by_cases hmore : field.1 ∈ more.map Prod.fst
    · rw [if_pos (any_name_iff.mpr hmore), if_pos (any_name_iff.mpr (mem_addFields_names.mpr (.inr hmore)))]
    · rw [if_neg (mt any_name_iff.mp hmore), addFields_append]
      rfl

theorem map_addFields (f : Ty → Ty) (fields more : List (Name × Ty)) :
    (addFields fields more).map (Prod.map id f) = addFields (fields.map (Prod.map id f)) (more.map (Prod.map id f)) := by
  induction more generalizing fields with
  | nil => rfl
  | cons field rest ih =>
    have hsame : (fields.map (Prod.map id f)).any (·.1 == field.1) = fields.any (·.1 == field.1) := by
      rw [List.any_map]
      rfl
    rw [addFields_cons, ih, List.map_cons, addFields_cons, Prod.map_fst, id_eq, hsame]
    congr 1
    split
    · rfl
    · rw [List.map_append]
      rfl

/-! ### Functions -/

theorem function_of_ne {params : List Ty} {ret : Ty} (hne : params ≠ []) (hret : ∀ more last, ret ≠ .arrow more last none) :
    function params ret = .arrow params ret none := by
  cases params with
  | nil => exact absurd rfl hne
  | cons first rest =>
    unfold function
    split
    · cases ‹_ :: _ = []›
    · split
      · exact absurd rfl (hret _ _)
      · rfl

theorem function_arrow {params : List Ty} (hne : params ≠ []) (more : List Ty) (last : Ty) :
    function params (.arrow more last none) = .arrow (params ++ more) last none := by
  cases params with
  | nil => exact absurd rfl hne
  | cons first rest => rfl

theorem function_of_not_bare {params : List Ty} {ret : Ty} (hne : params ≠ []) (hret : ret.isBareArrow = false) :
    function params ret = .arrow params ret none :=
  function_of_ne hne fun more last heq => by rw [heq] at hret; cases hret

/-- A function is its result, or has the parameters of its result behind its own, or has its own only. -/
theorem function_shapes (params : List Ty) (ret : Ty) :
    params = [] ∧ function params ret = ret ∨
      (∃ more last, params ≠ [] ∧ ret = .arrow more last none ∧ function params ret = .arrow (params ++ more) last none) ∨
      params ≠ [] ∧ ret.isBareArrow = false ∧ function params ret = .arrow params ret none := by
  by_cases hparams : params = []
  · subst hparams
    exact .inl ⟨rfl, rfl⟩
  cases hret : ret.isBareArrow with
  | false => exact .inr (.inr ⟨hparams, rfl, function_of_not_bare hparams hret⟩)
  | true =>
    unfold isBareArrow at hret
    split at hret
    · next more last => exact .inr (.inl ⟨more, last, hparams, rfl, function_arrow hparams more last⟩)
    · cases hret

theorem exists_arrow_function {params : List Ty} (hne : params ≠ []) (ret : Ty) :
    ∃ all last, function params ret = .arrow all last none := by
  unfold function
  split
  · exact absurd rfl hne
  · split <;> exact ⟨_, _, rfl⟩

/-- Parameters may be given in one step or in two. -/
theorem function_function (params more : List Ty) (ret : Ty) :
    function params (function more ret) = function (params ++ more) ret := by
  by_cases hmore : more = []
  · subst hmore
    rw [List.append_nil]
    rfl
  by_cases hparams : params = []
  · subst hparams
    rfl
  have hboth : params ++ more ≠ [] := by simp [hparams]
  by_cases hret : ∃ others last, ret = .arrow others last none
  · obtain ⟨others, last, rfl⟩ := hret
    rw [function_arrow hmore, function_arrow hparams, function_arrow hboth, List.append_assoc]
  · have hret : ∀ others last, ret ≠ .arrow others last none := fun others last heq => hret ⟨others, last, heq⟩
    rw [function_of_ne hmore hret, function_arrow hparams, function_of_ne hboth hret]

/-! ### Records -/

theorem recordWith_of_ne {base : Option Ty} (hbase : ∀ inner innerBase w refs, base ≠ some (.record inner innerBase w refs))
    (fields : List (Name × Ty)) (refs : FieldReferences) : recordWith fields base refs = .record fields base none refs := by
  unfold recordWith
  split
  · exact absurd rfl (hbase _ _ _ _)
  · rfl

theorem exists_record_recordWith (fields : List (Name × Ty)) (base : Option Ty) (refs : FieldReferences) :
    ∃ all rest others, recordWith fields base refs = .record all rest none others := by
  unfold recordWith
  split <;> exact ⟨_, _, _, rfl⟩

/-- A record may be put on top of a base in one step or in two, whatever alias is written in between. -/
theorem recordWith_recordWith (fields inner : List (Name × Ty)) (base : Option Ty) (w : Option (AliasUse Ty))
    (refs : FieldReferences) {innerRefs : FieldReferences} (hrefs : innerRefs.Orderly) :
    recordWith fields (some ((recordWith inner base innerRefs).writtenAs? w)) refs =
      recordWith (addFields fields inner) base (refs.merge innerRefs) := by
  by_cases hbase : ∃ deep deepBase u deepRefs, base = some (.record deep deepBase u deepRefs)
  · obtain ⟨deep, deepBase, u, deepRefs, rfl⟩ := hbase
    cases w <;>
      simp only [recordWith, writtenAs?, writtenAs, addFields_addFields, FieldReferences.merge_merge _ hrefs]
  · have hbase : ∀ deep deepBase u deepRefs, base ≠ some (.record deep deepBase u deepRefs) :=
      fun deep deepBase u deepRefs heq => hbase ⟨deep, deepBase, u, deepRefs, heq⟩
    rw [recordWith_of_ne hbase, recordWith_of_ne hbase]
    cases w <;> rfl

/-! ### Substitution -/

variable {f : TyVar → Option Ty}

theorem substFields_eq (fields : List (Name × Ty)) : substFields f fields = fields.map (Prod.map id (subst f)) :=
  substFields_eq_map f fields

theorem substBase_eq (base : Option Ty) : substBase f base = base.map (subst f) := by
  cases base <;> rfl

theorem subst_function (params : List Ty) (ret : Ty) :
    (function params ret).subst f = function (params.map (subst f)) (ret.subst f) := by
  by_cases hparams : params = []
  · subst hparams
    rfl
  have hne : params.map (subst f) ≠ [] := by simp [hparams]
  by_cases hret : ∃ more last, ret = .arrow more last none
  · obtain ⟨more, last, rfl⟩ := hret
    rw [function_arrow hparams, subst, subst, substList_eq_map, substList_eq_map, List.map_append]
    exact (function_function _ _ _).symm
  · rw [function_of_ne hparams fun more last heq => hret ⟨more, last, heq⟩, subst, substList_eq_map]
    rfl

end Ty

end ElmInference
