import ElmInference.Proofs.Store.Tracking

/-!
# Fields of records, flattened and zonked

Flattening a record and zonking it go down the same chain of bases. So a type that can be zonked can be resolved
and flattened, and a field that it flattens to is a field of what it zonks to.
-/

namespace ElmInference

namespace Store

variable {s s' : Store}

/-! ### Flattening -/

theorem FlattensTo.of_resolvesTo {t u : Ty} {above : List (Name × Ty)} {f : Flattened}
    (h : s.ResolvesTo t u) (hu : s.FlattensTo u above f) : s.FlattensTo t above f := by
  induction h with
  | solved hsol _ ih => exact .solved hsol (ih hu)
  | unsolved _ => exact hu
  | other _ => exact hu

theorem FlattensTo.unique {t : Ty} {above : List (Name × Ty)} {f f' : Flattened} (h : s.FlattensTo t above f)
    (h' : s.FlattensTo t above f') : f = f' := by
  induction h with
  | closed =>
    cases h' with
    | closed => rfl
    | baseless h => cases h
  | base _ ih =>
    cases h' with
    | base h => exact ih h
    | baseless h => cases h
  | growing hrec _ ih =>
    cases h' with
    | growing hrec' h =>
      cases hrec.symm.trans hrec'
      exact ih h
    | baseless h => cases h
  | unsolved hun =>
    cases h' with
    | unsolved _ => rfl
    | solved hsol _ => exact absurd hun (not_unsolved_of_some hsol)
    | baseless h => cases h
  | solved hsol _ ih =>
    cases h' with
    | unsolved hun => exact absurd hun (not_unsolved_of_some hsol)
    | solved hsol' h =>
      cases hsol.symm.trans hsol'
      exact ih h
    | baseless h => cases h
  | unknown =>
    cases h' with
    | unknown => rfl
    | baseless h => cases h
  | baseless h =>
    cases h' with
    | baseless _ => rfl
    | _ => cases h

theorem FlattensTo.get?_above {t : Ty} {above : List (Name × Ty)} {f : Flattened} {name : Name}
    (h : s.FlattensTo t above f) (hnone : f.field? name = none) : Assoc.get? above name = none := by
  induction h with
  | closed =>
    rw [Flattened.field?, Ty.get?_addFields, Option.or_eq_none_iff] at hnone
    exact hnone.1
  | base _ ih =>
    have habove := ih hnone
    rw [Ty.get?_addFields, Option.or_eq_none_iff] at habove
    exact habove.1
  | growing _ _ ih =>
    have habove := ih hnone
    rw [Ty.get?_addFields, Option.or_eq_none_iff] at habove
    exact habove.1
  | unsolved _ => exact hnone
  | solved _ _ ih => exact ih hnone
  | unknown => exact hnone
  | baseless _ => exact hnone

theorem FlattensTo.field?_of_above {t u : Ty} {above : List (Name × Ty)} {f : Flattened} {name : Name}
    (h : s.FlattensTo t above f) (habove : Assoc.get? above name = some u) : f.field? name = some u := by
  induction h with
  | closed => rw [Flattened.field?, Ty.get?_addFields, habove, Option.some_or]
  | base _ ih => exact ih (by rw [Ty.get?_addFields, habove, Option.some_or])
  | growing _ _ ih => exact ih (by rw [Ty.get?_addFields, habove, Option.some_or])
  | unsolved _ => exact habove
  | solved _ _ ih => exact ih habove
  | unknown => exact habove
  | baseless _ => exact habove

/-- What a record flattens to in a store with the same solutions and fields, where an end may have been
solved. -/
theorem FlattensTo.later (s' : Store) {t : Ty} {above : List (Name × Ty)} {f : Flattened}
    (h : s.FlattensTo t above f)
    (hsol : ∀ id u, s.solution? id = some u → s'.solution? id = some u)
    (hrec : ∀ (id : RecordId) g, s.records[id]? = some g →
      ∃ g', s'.records[id]? = some g' ∧ g'.fields = g.fields ∧ g'.base = g.base)
    (hend : ∀ (v : TyVar) (above : List (Name × Ty)), s.Unsolved v.id → ∃ f', s'.FlattensTo (.var v) above f') :
    ∃ f', s'.FlattensTo t above f' ∧ (∀ name u, f.field? name = some u → f'.field? name = some u) ∧
      ∀ v, f.tail = .opened v → s'.FlattensTo (.var v) f.fields f' := by
  induction h with
  | closed => exact ⟨_, .closed, fun _ _ => id, fun v hv => by cases hv⟩
  | base _ ih =>
    obtain ⟨f', hf', hkeeps⟩ := ih
    exact ⟨f', .base hf', hkeeps⟩
  | growing hg _ ih =>
    obtain ⟨f', hf', hkeeps⟩ := ih
    obtain ⟨g', hg', hfields, hbase⟩ := hrec _ _ hg
    exact ⟨f', .growing hg' (by rwa [hfields, hbase]), hkeeps⟩
  | @unsolved v above hun =>
    obtain ⟨f', hf'⟩ := hend v above hun
    refine ⟨f', hf', fun _ _ => hf'.field?_of_above, fun u hu => ?_⟩
    cases hu
    exact hf'
  | solved hu _ ih =>
    obtain ⟨f', hf', hkeeps⟩ := ih
    exact ⟨f', .solved (hsol _ _ hu) hf', hkeeps⟩
  | unknown => exact ⟨_, .unknown, fun _ _ => id, fun v hv => by cases hv⟩
  | baseless h => exact ⟨_, .baseless h, fun _ _ => id, fun v hv => by cases hv⟩

theorem ResolvesTo.later {t u : Ty} (h : s.ResolvesTo t u) (hsize : s.size ≤ s'.size)
    (hsol : ∀ id, s'.solution? id = s.solution? id) : s'.ResolvesTo t u := by
  induction h with
  | solved hu _ ih => exact .solved ((hsol _).trans hu) ih
  | unsolved hun => exact .unsolved ⟨Nat.lt_of_lt_of_le hun.1 hsize, (hsol _).trans hun.2⟩
  | other hnot => exact .other hnot

/-! ### Types that can be zonked -/

theorem exists_resolveAt_of_zonkAt {n : Nat} {t z : Ty} (hz : s.zonkAt n t = .ok z) :
    ∃ u, s.resolveAt n t = .ok u := by
  cases t with
  | var v =>
    rw [zonkAt_eq, zonkWith] at hz
    obtain ⟨o, ho, hz⟩ := exists_of_bind_ok hz
    unfold resolveAt
    rw [ho]
    cases o with
    | none => exact ⟨_, rfl⟩
    | some u =>
      cases n with
      | zero => cases hz
      | succ n => exact exists_resolveAt_of_zonkAt hz
  | _ => exact ⟨_, resolveAt_of_not_var s n (by simp)⟩

theorem exists_resolve_of_zonk {t z : Ty} (hz : s.zonk t = .ok z) : ∃ u, s.resolve t = .ok u :=
  exists_resolveAt_of_zonkAt hz

theorem exists_openBase_of_zonk {id : RecordId} {z : Ty} (hz : s.zonk (.growing id) = .ok z) :
    ∃ base, s.openBase id = .ok base := by
  rw [zonk, zonkAt_eq, zonkWith] at hz
  obtain ⟨g, hg, hz⟩ := exists_of_bind_ok hz
  obtain ⟨_, -, hz⟩ := exists_of_bind_ok hz
  obtain ⟨y, hy, -⟩ := exists_of_bind_ok hz
  obtain ⟨u, hu⟩ : ∃ u, s.resolve g.base = .ok u := by
    cases hn : s.crossings with
    | zero =>
      rw [hn] at hy
      cases hy
    | succ n =>
      rw [hn] at hy
      exact exists_resolve_of_zonk (zonkAt_mono (by omega) hy)
  unfold openBase
  rw [hg, ok_bind, hu, ok_bind]
  cases u <;> exact ⟨_, rfl⟩

theorem exists_flattenWith_of_zonkWith {zonk : Ty → Except Fault Ty}
    {flatten : Ty → List (Name × Ty) → Except Fault Flattened} {t z : Ty} (above : List (Name × Ty))
    (hfollow : ∀ u z above, zonk u = .ok z → ∃ f, flatten u above = .ok f)
    (hz : s.zonkWith zonk t = .ok z) : ∃ f, s.flattenWith flatten t above = .ok f := by
  induction t using Ty.inductParts generalizing above z with
  | record fields base w refs _ ihb _ =>
    cases base with
    | none => exact ⟨_, rfl⟩
    | some b =>
      obtain ⟨_, _, _, -, hb, -, -⟩ := exists_of_zonkWith_record hz
      obtain ⟨zb, hzb, -⟩ := exists_of_zonkBase hb
      rw [flattenWith]
      exact ihb b rfl _ hzb
  | growing id =>
    rw [zonkWith] at hz
    obtain ⟨g, hrec, hz⟩ := exists_of_bind_ok hz
    obtain ⟨_, -, hz⟩ := exists_of_bind_ok hz
    obtain ⟨zb, hzb, -⟩ := exists_of_bind_ok hz
    rw [flattenWith, hrec]
    exact hfollow _ _ _ hzb
  | var v =>
    rw [zonkWith] at hz
    obtain ⟨o, ho, hz⟩ := exists_of_bind_ok hz
    rw [flattenWith, ho]
    cases o with
    | none => exact ⟨_, rfl⟩
    | some u => exact hfollow _ _ _ hz
  | unknown => exact ⟨_, rfl⟩
  | unit | inProgress | union | tuple | arrow => exact ⟨_, by simp only [flattenWith]; rfl⟩

theorem exists_flatten_of_zonk {t z : Ty} (hz : s.zonk t = .ok z) : ∃ f, s.flatten t = .ok f := by
  have hat : ∀ (n : Nat) (t z : Ty) (above : List (Name × Ty)), s.zonkAt n t = .ok z →
      ∃ f, s.flattenAt n t above = .ok f := by
    intro n
    induction n with
    | zero => exact fun t z above => exists_flattenWith_of_zonkWith above (fun _ _ _ h => by cases h)
    | succ n ih => exact fun t z above => exists_flattenWith_of_zonkWith above ih
  exact hat _ _ _ _ hz

theorem zonkAt_resolved {n : Nat} {t u z : Ty} (h : s.ResolvesTo t u) (hz : s.zonkAt n t = .ok z) :
    s.zonkAt n u = .ok z := by
  induction h generalizing n with
  | solved hsol _ ih =>
    obtain ⟨n, rfl, hnext⟩ := exists_of_zonkAt_solved hsol hz
    exact zonkAt_mono (Nat.le_succ n) (ih hnext)
  | unsolved _ => exact hz
  | other _ => exact hz

/-- A type that stands for an unsolved variable zonks to it. -/
theorem eq_var_of_zonkAt {v : TyVar} {n : Nat} {t z : Ty} (h : s.ResolvesTo t (.var v))
    (hz : s.zonkAt n t = .ok z) : z = .var v := by
  have hvar := zonkAt_resolved h hz
  rw [zonkAt_eq, zonkWith_unsolved h.unsolved_of_var] at hvar
  exact (Except.ok.inj hvar).symm

/-- A field that a record flattens to is a field of the zonked record. -/
theorem FlattensTo.field?_zonkAt {t u z : Ty} {above : List (Name × Ty)} {f : Flattened} {name : Name} {n : Nat}
    (h : s.FlattensTo t above f) (habove : Assoc.get? above name = none) (hfield : f.field? name = some u)
    (hz : s.zonkAt n t = .ok z) : ∃ y, s.zonkAt n u = .ok y ∧ z.field? name = some y := by
  induction h generalizing n z with
  | @closed fields above w refs =>
    rw [zonkAt_eq] at hz
    obtain ⟨zs, b, w', hzs, hb, -, rfl⟩ := exists_of_zonkWith_record hz
    cases hb
    rw [Flattened.field?, Ty.get?_addFields, habove, Option.none_or] at hfield
    rcases (zonkFields_iff.mp hzs).get? name with ⟨hnone, -⟩ | ⟨t, y, ht, hy, hget⟩
    · cases hnone.symm.trans hfield
    · cases ht.symm.trans hfield
      rw [field?_writtenAs?, field?_recordWith, hget, Option.some_or, zonkAt_eq]
      exact ⟨y, hy, rfl⟩
  | @base fields above b w refs f hrest ih =>
    rw [zonkAt_eq] at hz
    obtain ⟨zs, b', w', hzs, hb, -, rfl⟩ := exists_of_zonkWith_record hz
    obtain ⟨zb, hzb, rfl⟩ := exists_of_zonkBase hb
    rw [field?_writtenAs?, field?_recordWith, zonkAt_eq]
    rcases (zonkFields_iff.mp hzs).get? name with ⟨hnone, hnone'⟩ | ⟨t, y, ht, hy, hget⟩
    · rw [← zonkAt_eq] at hzb ⊢
      rw [hnone']
      exact ih (by rw [Ty.get?_addFields, habove, hnone, Option.none_or]) hfield hzb
    · have hfirst := hrest.field?_of_above (by rw [Ty.get?_addFields, habove, ht, Option.none_or])
      cases hfield.symm.trans hfirst
      exact ⟨y, hy, by rw [hget, Option.some_or]⟩
  | @growing id g above f hrec hrest ih =>
    obtain ⟨n, zs, zb, rfl, hzs, hzb, rfl⟩ := exists_of_zonkAt_growing hrec hz
    rw [field?_writtenOut]
    have hmore : ∀ {t y : Ty}, s.zonkAt n t = .ok y → s.zonkAt (n + 1) t = .ok y :=
      fun h => zonkAt_mono (Nat.le_succ n) h
    rcases hzs.get? name with ⟨hnone, hnone'⟩ | ⟨t, y, ht, hy, hget⟩
    · obtain ⟨y, hy, hget⟩ := ih (by rw [Ty.get?_addFields, habove, hnone, Option.none_or]) hfield hzb
      exact ⟨y, hmore hy, by rw [hnone', Option.none_or, hget]⟩
    · have hfirst := hrest.field?_of_above (by rw [Ty.get?_addFields, habove, ht, Option.none_or])
      cases hfield.symm.trans hfirst
      exact ⟨y, hmore hy, by rw [hget, Option.some_or]⟩
  | unsolved _ => cases habove.symm.trans hfield
  | @solved v t above f hsol hrest ih =>
    obtain ⟨n, rfl, hnext⟩ := exists_of_zonkAt_solved hsol hz
    obtain ⟨y, hy, hget⟩ := ih habove hfield hnext
    exact ⟨y, zonkAt_mono (Nat.le_succ n) hy, hget⟩
  | unknown => cases habove.symm.trans hfield
  | baseless _ => cases habove.symm.trans hfield

section Records

variable {id : RecordId} {g : GrowingRecord} {v : TyVar}

/-- What a growing record that ends in a variable zonks to. -/
theorem zonkAt_growing {n : Nat} {z : Ty} (hrec : s.records[id]? = some g) (hbase : s.ResolvesTo g.base (.var v))
    (hz : s.zonkAt (n + 1) (.growing id) = .ok z) :
    ∃ ys, ZonkedFields (s.zonkAt n) g.fields ys ∧ s.zonkAt n g.base = .ok (.var v) ∧
      z = Ty.recordWith ys (some (.var v)) g.refs := by
  obtain ⟨m, ys, y, hm, hys, hy, rfl⟩ := exists_of_zonkAt_growing hrec hz
  cases hm
  obtain rfl := eq_var_of_zonkAt hbase hy
  exact ⟨ys, hys, hy, rfl⟩

/-- What a written record that ends in a variable zonks to. -/
theorem zonkAt_record {n : Nat} {fields : List (Name × Ty)} {base z : Ty} {refs : FieldReferences}
    (hbase : s.ResolvesTo base (.var v)) (hz : s.zonkAt n (.record fields (some base) none refs) = .ok z) :
    ∃ ys, ZonkedFields (s.zonkAt n) fields ys ∧ z = Ty.recordWith ys (some (.var v)) refs := by
  rw [zonkAt_eq] at hz ⊢
  obtain ⟨ys, b, w, hys, hb, hw, rfl⟩ := exists_of_zonkWith_record hz
  obtain ⟨y, hy, rfl⟩ := exists_of_zonkBase hb
  rw [← zonkAt_eq] at hy
  obtain rfl := eq_var_of_zonkAt hbase hy
  cases hw
  exact ⟨ys, zonkFields_iff.mp hys, rfl⟩

end Records

/-! ### Adding one field -/

theorem addFields_singleton {fields : List (Name × Ty)} {name : Name} (t : Ty)
    (h : Assoc.get? fields name = none) : Ty.addFields fields [(name, t)] = fields ++ [(name, t)] := by
  have hany : fields.any (·.1 == name) = false := by
    refine Bool.eq_false_iff.mpr (fun hany => ?_)
    exact Ty.any_iff_get?.mp hany h
  simp [Ty.addFields, hany]

theorem get?_addFields_singleton {fields : List (Name × Ty)} {name : Name} (t : Ty)
    (h : Assoc.get? fields name = none) : Assoc.get? (Ty.addFields fields [(name, t)]) name = some t := by
  rw [Ty.get?_addFields, h, Option.none_or]
  simp [Assoc.get?]

end Store

end ElmInference
