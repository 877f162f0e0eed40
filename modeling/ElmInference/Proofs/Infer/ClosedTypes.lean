import ElmInference.Engine
import ElmInference.Proofs.Store.Mints
import ElmInference.Proofs.Store.Zonking
import ElmInference.Proofs.Types.Building

/-!
# Types from another store

The type of a finished declaration has variables of a store that is gone. Where it is used it is taken for closed, and
each of its variables becomes a new one. The variables that are counted are those of the type itself. One that occurs
in the arguments of an alias only is not among them and is carried over as it is: in the other store it is a stranger,
or it is confused with the variable that has its number there. This is all that can be carried over.
-/

namespace ElmInference

namespace Ty

variable {aliases : Bool} {r : Mention} {t u : Ty} {f : TyVar → Option Ty}

/-- A type as the constructors build it: functions have parameters and return no function that could be folded into
them, and no record is the base of another one. -/
inductive Built : Ty → Prop
  | unit : Built .unit
  | unknown : Built .unknown
  | inProgress : Built .inProgress
  | var (v : TyVar) : Built (.var v)
  | growing (id : RecordId) : Built (.growing id)
  | union {m n : Name} {args : List Ty} {w : Option (AliasUse Ty)} :
      (∀ t ∈ args, Built t) → (∀ t ∈ aliasArgs w, Built t) → Built (.union m n args w)
  | tuple {items : List Ty} : (∀ t ∈ items, Built t) → Built (.tuple items)
  | record {fields : List (Name × Ty)} {base : Option Ty} {w : Option (AliasUse Ty)} {refs : FieldReferences} :
      (∀ field ∈ fields, Built field.2) → (∀ t, base = some t → Built t) →
      (∀ t, base = some t → t.fields? = none) → (∀ t ∈ aliasArgs w, Built t) → Built (.record fields base w refs)
  | arrow {params : List Ty} {ret : Ty} {w : Option (AliasUse Ty)} :
      params ≠ [] → (∀ t ∈ params, Built t) → Built ret → ret.isBareArrow = false → (∀ t ∈ aliasArgs w, Built t) →
      Built (.arrow params ret w)

/-! ### What a substitution leads to -/

theorem mem_of_mem_mentions_writtenAs? {w : Option (AliasUse Ty)} (h : r ∈ (t.writtenAs? w).mentions true) :
    r ∈ t.mentions true ∨ r ∈ mentionsList true (aliasArgs w) := by
  cases w with
  | none => exact .inl h
  | some use =>
    cases t with
    | union => simp only [writtenAs?, writtenAs, mentions, mentionsAlias_true, List.mem_append] at h ⊢; grind
    | record => simp only [writtenAs?, writtenAs, mentions, mentionsAlias_true, List.mem_append] at h ⊢; grind
    | arrow => simp only [writtenAs?, writtenAs, mentions, mentionsAlias_true, List.mem_append] at h ⊢; grind
    | _ => exact .inl h

/-- A type that takes an alias and has none shows the arguments of the one it gets. -/
theorem mem_mentions_writtenAs? {w : Option (AliasUse Ty)} (hnone : t.written? = none)
    (htakes : ∀ use, (t.writtenAs use).written? = some use)
    (h : r ∈ t.mentions true ∨ r ∈ mentionsList true (aliasArgs w)) : r ∈ (t.writtenAs? w).mentions true := by
  cases w with
  | none => simpa [writtenAs?, aliasArgs, mentionsList] using h
  | some use =>
    have htaken := htakes use
    cases t with
    | union m n args w' => cases hnone; simpa [writtenAs?, writtenAs, mentions, mentionsAlias, aliasArgs] using h
    | record fields base w' refs =>
      cases hnone; simpa [writtenAs?, writtenAs, mentions, mentionsAlias, aliasArgs, or_assoc] using h
    | arrow params ret w' =>
      cases hnone; simpa [writtenAs?, writtenAs, mentions, mentionsAlias, aliasArgs, or_assoc] using h
    | _ => cases htaken

theorem mem_of_mem_mentions_recordWith {fields : List (Name × Ty)} {base : Option Ty} {refs : FieldReferences}
    (h : r ∈ (recordWith fields base refs).mentions aliases) :
    r ∈ mentionsFields aliases fields ∨ r ∈ mentionsBase aliases base := by
  unfold recordWith at h
  split at h
  · simp only [mentions, mentionsBase, mentionsAlias, List.append_nil, List.mem_append, mem_mentionsFields] at h ⊢
    rcases h with ⟨field, hfield, hr⟩ | hr
    · rcases mem_addFields hfield with hfield | hfield
      · exact .inl ⟨field, hfield, hr⟩
      · exact .inr (.inl ⟨field, hfield, hr⟩)
    · exact .inr (.inr (.inl hr))
  · simpa only [mentions, mentionsAlias, List.append_nil, List.mem_append] using h

theorem aliasArgs_substAlias (f : TyVar → Option Ty) (w : Option (AliasUse Ty)) :
    aliasArgs (substAlias f w) = (aliasArgs w).map (subst f) := by
  cases w <;> simp [substAlias, aliasArgs, substList_eq_map]

def image (f : TyVar → Option Ty) : Mention → List Mention
  | .var v => ((f v).getD (.var v)).mentions true
  | r => [r]

def Arises (f : TyVar → Option Ty) (ms : List Mention) (r : Mention) : Prop :=
  ∃ r₀ ∈ ms, r ∈ image f r₀

theorem Arises.mono {ms ms' : List Mention} (h : Arises f ms r) (hsub : ms ⊆ ms') : Arises f ms' r := by
  obtain ⟨r₀, hr₀, hr⟩ := h
  exact ⟨r₀, hsub hr₀, hr⟩

theorem arises_mentionsList {ts : List Ty} (hr : r ∈ mentionsList true (ts.map (subst f)))
    (ih : ∀ t ∈ ts, r ∈ (t.subst f).mentions true → Arises f (t.mentions true) r) :
    Arises f (mentionsList true ts) r := by
  obtain ⟨u, hu, hr⟩ := mem_mentionsList.mp hr
  obtain ⟨t, ht, rfl⟩ := List.mem_map.mp hu
  exact (ih t ht hr).mono fun r' hr' => mem_mentionsList.mpr ⟨t, ht, hr'⟩

/-- A substitution brings in nothing but what its images show. -/
theorem arises_of_mem_subst (hr : r ∈ (t.subst f).mentions true) : Arises f (t.mentions true) r := by
  induction t using Ty.inductParts with
  | unit => cases hr
  | unknown | inProgress | growing =>
    obtain rfl := List.mem_singleton.mp hr
    exact ⟨_, List.mem_singleton_self _, List.mem_singleton_self _⟩
  | var v => exact ⟨.var v, List.mem_singleton_self _, hr⟩
  | union m n args w iha ihw =>
    simp only [subst, mentions, mentionsAlias_true, aliasArgs_substAlias, substList_eq_map, List.mem_append] at hr ⊢
    rcases hr with hr | hr
    · exact (arises_mentionsList hr iha).mono (List.subset_append_left _ _)
    · exact (arises_mentionsList hr ihw).mono (List.subset_append_right _ _)
  | tuple items ih =>
    rw [subst, substList_eq_map] at hr
    exact arises_mentionsList hr ih
  | record fields base w refs ihf ihb ihw =>
    simp only [mentions, mentionsAlias_true]
    rw [subst, substFields_eq_map] at hr
    rcases mem_of_mem_mentions_writtenAs? hr with hr | hr
    · rcases mem_of_mem_mentions_recordWith hr with hr | hr
      · obtain ⟨_, hmem, hr⟩ := mem_mentionsFields.mp hr
        obtain ⟨field, hfield, rfl⟩ := List.mem_map.mp hmem
        have hfields : ∀ r', r' = .field field.1 ∨ r' ∈ field.2.mentions true → r' ∈ mentionsFields true fields :=
          fun r' hr' => mem_mentionsFields.mpr ⟨field, hfield, hr'⟩
        rcases hr with rfl | hr
        · exact ⟨_, List.mem_append_left _ (hfields _ (.inl rfl)), List.mem_singleton_self _⟩
        · exact (ihf field hfield hr).mono fun r' hr' => List.mem_append_left _ (hfields r' (.inr hr'))
      · cases base with
        | none => cases hr
        | some b => exact (ihb b rfl hr).mono (by simp [mentionsBase])
    · rw [aliasArgs_substAlias] at hr
      exact (arises_mentionsList hr ihw).mono (by simp)
  | arrow params ret w ihp ihr ihw =>
    simp only [mentions, mentionsAlias_true]
    rw [subst, substList_eq_map] at hr
    rcases mem_of_mem_mentions_writtenAs? hr with hr | hr
    · rcases mem_mentions_function.mp hr with hr | hr
      · exact (arises_mentionsList (mem_mentionsList.mpr hr) ihp).mono (by simp)
      · exact (ihr hr).mono (by simp)
    · rw [aliasArgs_substAlias] at hr
      exact (arises_mentionsList hr ihw).mono (by simp)

theorem mem_mentionsList_map {ts : List Ty} {r₀ : Mention} (hr₀ : r₀ ∈ mentionsList true ts)
    (ih : ∀ t ∈ ts, r₀ ∈ t.mentions true → r ∈ (t.subst f).mentions true) :
    r ∈ mentionsList true (ts.map (subst f)) := by
  obtain ⟨t, ht, hr₀⟩ := mem_mentionsList.mp hr₀
  exact mem_mentionsList.mpr ⟨t.subst f, List.mem_map_of_mem ht, ih t ht hr₀⟩

/-- What is no record does not become one when variables are put for variables. -/
theorem Built.subst_ne_record {b : Ty} (hb : b.Built) (hflat : b.fields? = none) (hf : ∀ v u, f v = some u → ∃ w, u = .var w)
    {fields : List (Name × Ty)} {base : Option Ty} {w : Option (AliasUse Ty)} {refs : FieldReferences} :
    b.subst f ≠ .record fields base w refs := by
  cases hb with
  | var v =>
    rw [subst]
    cases hv : f v with
    | none => simp
    | some u =>
      obtain ⟨w, rfl⟩ := hf v u hv
      simp
  | record => cases hflat
  | @arrow params ret w' hne =>
    obtain ⟨params', ret', harrow⟩ := exists_arrow_function (mt List.map_eq_nil_iff.mp hne) (ret.subst f)
    rw [subst, substList_eq_map, harrow]
    cases substAlias f w' <;> simp [writtenAs?, writtenAs]
  | _ => simp [subst]

/-- In a type as the constructors build it, a substitution of variables for variables loses nothing. -/
theorem Built.mem_subst (ht : t.Built) (hf : ∀ v u, f v = some u → ∃ w, u = .var w) {r₀ : Mention}
    (hr₀ : r₀ ∈ t.mentions true) (hr : r ∈ image f r₀) : r ∈ (t.subst f).mentions true := by
  induction ht with
  | unit => cases hr₀
  | unknown | inProgress | growing =>
    obtain rfl := List.mem_singleton.mp hr₀
    exact hr
  | var v =>
    obtain rfl := List.mem_singleton.mp hr₀
    exact hr
  | @union m n args w _ _ iha ihw =>
    simp only [subst, mentions, mentionsAlias_true, aliasArgs_substAlias, substList_eq_map, List.mem_append] at hr₀ ⊢
    exact hr₀.imp (mem_mentionsList_map · iha) (mem_mentionsList_map · ihw)
  | tuple _ ih =>
    rw [subst, substList_eq_map]
    exact mem_mentionsList_map hr₀ ih
  | @record fields base w refs _ hbase hflat _ ihf ihb ihw =>
    have hrecord : recordWith (substFields f fields) (substBase f base) refs =
        .record (substFields f fields) (substBase f base) none refs := by
      unfold recordWith
      split
      case h_1 inner innerBase innerWritten innerRefs hsome =>
        cases base with
        | none => cases hsome
        | some b => exact absurd (Option.some.inj hsome) ((hbase b rfl).subst_ne_record (hflat b rfl) hf)
      case h_2 => rfl
    rw [subst, hrecord]
    refine mem_mentions_writtenAs? rfl (fun _ => rfl) ?_
    simp only [mentions, mentionsAlias_true, List.mem_append] at hr₀
    rw [aliasArgs_substAlias, mentions, substFields_eq_map]
    rcases hr₀ with hr₀ | hr₀ | hr₀
    · obtain ⟨field, hfield, hr₀⟩ := mem_mentionsFields.mp hr₀
      refine .inl (List.mem_append_left _ (mem_mentionsFields.mpr ⟨_, List.mem_map_of_mem hfield, ?_⟩))
      rcases hr₀ with rfl | hr₀
      · exact .inl (List.mem_singleton.mp hr)
      · exact .inr (ihf field hfield hr₀)
    · cases base with
      | none => cases hr₀
      | some b => exact .inl (List.mem_append_right _ (List.mem_append_left _ (ihb b rfl hr₀)))
    · exact .inr (mem_mentionsList_map hr₀ ihw)
  | @arrow params ret w hne _ _ _ _ ihp ihr ihw =>
    rw [subst, substList_eq_map]
    obtain ⟨params', ret', harrow⟩ := exists_arrow_function (mt List.map_eq_nil_iff.mp hne) (ret.subst f)
    refine mem_mentions_writtenAs? (by rw [harrow]; rfl) (by rw [harrow]; exact fun _ => rfl) ?_
    simp only [mentions, mentionsAlias_true, List.mem_append] at hr₀
    rw [mem_mentions_function, aliasArgs_substAlias]
    rcases hr₀ with hr₀ | hr₀ | hr₀
    · exact .inl (.inl (mem_mentionsList.mp (mem_mentionsList_map hr₀ ihp)))
    · exact .inl (.inr (ihr hr₀))
    · exact .inr (mem_mentionsList_map hr₀ ihw)

/-- A variable that a type shows in the arguments of an alias only. -/
def Phantom (t : Ty) (x : TyVar) : Prop :=
  .var x ∈ t.mentions true ∧ ∀ v ∈ t.vars, v.id ≠ x.id

end Ty

namespace Scheme

variable {vars : List TyVar} {s : Store} {t : Ty}

def copy (s : Store) (vars : List TyVar) (v : TyVar) : TyVar :=
  ⟨s.size + vars.idxOf v, v.name, false⟩

theorem freshCopies_cons (v : TyVar) (rest : List TyVar) (s : Store) :
    freshCopies (v :: rest) s =
      ((v.id, .var ⟨s.size, v.name, false⟩) :: (freshCopies rest s.extended).1, (freshCopies rest s.extended).2) :=
  rfl

theorem size_freshCopies (vars : List TyVar) (s : Store) : (freshCopies vars s).2.size = s.size + vars.length := by
  induction vars generalizing s with
  | nil => rfl
  | cons v rest ih =>
    rw [freshCopies_cons, ih, Store.size_extended, List.length_cons]
    omega

theorem solution?_freshCopies (vars : List TyVar) (s : Store) (id : VarId) :
    (freshCopies vars s).2.solution? id = s.solution? id := by
  induction vars generalizing s with
  | nil => rfl
  | cons v rest ih => rw [freshCopies_cons, ih, Store.solution?_extended]

theorem records_freshCopies (vars : List TyVar) (s : Store) : (freshCopies vars s).2.records = s.records := by
  induction vars generalizing s with
  | nil => rfl
  | cons v rest ih => rw [freshCopies_cons, ih, Store.records_extended]

def copying (s : Store) (vars : List TyVar) (w : TyVar) : Option Ty :=
  (vars.find? (·.id == w.id)).map (fun v => .var (copy s vars v))

theorem get?_freshCopies (vars : List TyVar) (s : Store) (x : TyVar) :
    Assoc.get? (freshCopies vars s).1 x.id = copying s vars x := by
  unfold copying
  induction vars generalizing s with
  | nil => rfl
  | cons v rest ih =>
    rw [freshCopies_cons, Assoc.get?, List.find?_cons]
    by_cases hid : v.id = x.id
    · simp [hid, copy]
    · simp only [hid, if_false, beq_eq_false_iff_ne.mpr hid, ih]
      refine Option.map_congr fun w hw => ?_
      have hne : v ≠ w := by
        rintro rfl
        exact hid (by simpa using List.find?_some hw)
      simp [copy, List.idxOf_cons_ne rest hne, Nat.add_assoc, Nat.add_comm 1]

/-- What a variable becomes in a copy of a closed type. -/
theorem image_copies (s : Store) (t : Ty) (v : TyVar) :
    Ty.image (copying s t.vars) (.var v) =
      [.var (((t.vars.find? (·.id == v.id)).map (copy s t.vars)).getD v)] := by
  cases h : t.vars.find? (·.id == v.id) <;> simp [Ty.image, copying, h, Ty.mentions]

theorem find?_of_nodup (hnodup : (vars.map TyVar.id).Nodup) {v : TyVar} (hv : v ∈ vars) :
    vars.find? (·.id == v.id) = some v := by
  refine List.find?_eq_some_iff_append.mpr ⟨by simp, ?_⟩
  obtain ⟨before, after, hsplit⟩ := List.append_of_mem hv
  refine ⟨before, after, hsplit, fun w hw => ?_⟩
  rw [hsplit, List.map_append, List.map_cons] at hnodup
  have hne : w.id ≠ v.id := (List.nodup_append.mp hnodup).2.2 w.id (List.mem_map_of_mem hw) v.id List.mem_cons_self
  simpa using hne

theorem find?_vars {v : TyVar} (hv : v ∈ t.vars) : t.vars.find? (·.id == v.id) = some v :=
  find?_of_nodup (Ty.nodup_vars t) hv

theorem instantiate_closed (t : Ty) (s : Store) :
    (closed t).instantiate s =
      (if t.vars = [] then t else t.subst (copying s t.vars),
        (freshCopies t.vars s).2) := by
  unfold instantiate closed
  by_cases hnil : t.vars = []
  · simp [hnil, freshCopies]
  · simp only [List.isEmpty_iff, hnil, if_false, Ty.substTable, get?_freshCopies]

/-- What a copy of a closed type shows. -/
theorem shows_of_instantiate_closed (t : Ty) (s : Store) {x : TyVar}
    (hx : .var x ∈ ((closed t).instantiate s).1.mentions true) :
    (∃ v ∈ t.vars, copy s t.vars v = x) ∨ t.Phantom x := by
  rw [instantiate_closed] at hx
  by_cases hnil : t.vars = []
  · rw [if_pos hnil] at hx
    exact .inr ⟨hx, by simp [hnil]⟩
  · rw [if_neg hnil] at hx
    obtain ⟨r₀, hr₀, hr⟩ := Ty.arises_of_mem_subst hx
    cases r₀ with
    | var v =>
      rw [image_copies, List.mem_singleton, Mention.var.injEq] at hr
      cases hfind : t.vars.find? (·.id == v.id) with
      | none =>
        obtain rfl : x = v := by simpa [hfind] using hr
        exact .inr ⟨hr₀, by simpa using List.find?_eq_none.mp hfind⟩
      | some u => exact .inl ⟨u, List.mem_of_find?_eq_some hfind, by simpa [hfind] using hr.symm⟩
    | record id => cases List.mem_singleton.mp hr
    | field name => cases List.mem_singleton.mp hr
    | hole => cases List.mem_singleton.mp hr

theorem record_of_instantiate_closed (t : Ty) (s : Store) {id : RecordId}
    (hid : .record id ∈ ((closed t).instantiate s).1.mentions true) : .record id ∈ t.mentions true := by
  rw [instantiate_closed] at hid
  by_cases hnil : t.vars = []
  · rwa [if_pos hnil] at hid
  · rw [if_neg hnil] at hid
    obtain ⟨r₀, hr₀, hr⟩ := Ty.arises_of_mem_subst hid
    cases r₀ with
    | var v =>
      rw [image_copies] at hr
      cases List.mem_singleton.mp hr
    | record id' =>
      cases List.mem_singleton.mp hr
      exact hr₀
    | field name => cases List.mem_singleton.mp hr
    | hole => cases List.mem_singleton.mp hr

theorem instantiate_closed_shows (ht : t.Built) (s : Store) {x : TyVar}
    (hx : (∃ v ∈ t.vars, copy s t.vars v = x) ∨ t.Phantom x) :
    .var x ∈ ((closed t).instantiate s).1.mentions true := by
  rw [instantiate_closed]
  by_cases hnil : t.vars = []
  · rw [if_pos hnil]
    rcases hx with ⟨v, hv, -⟩ | hx
    · simp [hnil] at hv
    · exact hx.1
  · rw [if_neg hnil]
    have hvars : ∀ v u, copying s t.vars v = some u → ∃ w, u = .var w := by
      intro v u hu
      obtain ⟨w, -, rfl⟩ := Option.map_eq_some_iff.mp hu
      exact ⟨_, rfl⟩
    rcases hx with ⟨v, hv, rfl⟩ | ⟨hx, hphantom⟩
    · refine ht.mem_subst hvars (Ty.mentions_false_subset true t (Ty.mentions_of_mem_vars hv)) ?_
      rw [image_copies, find?_vars hv]
      exact List.mem_singleton_self _
    · refine ht.mem_subst hvars hx ?_
      have hnone : t.vars.find? (·.id == x.id) = none :=
        List.find?_eq_none.mpr fun v hv => by simpa using hphantom v hv
      rw [image_copies, hnone]
      exact List.mem_singleton_self _

/-- A copy of a closed type has a new flexible variable of the same name for each variable that occurs in the type. It
shows these and, if the type is one that the constructors build, exactly those phantom variables that the type has. So
everything in the copy belongs to the store when there are no phantoms, and a phantom is a stranger in every store that
has not come to its number. -/
theorem copies_of_closed_types_show_phantoms_only (t : Ty) (s : Store) :
    let u := ((closed t).instantiate s).1
    let s' := ((closed t).instantiate s).2
    let copied := copy s t.vars
    (∀ v ∈ t.vars, (copied v).name = v.name ∧ (copied v).rigid = false ∧ s.size ≤ (copied v).id ∧
        (copied v).id < s'.size ∧ s'.solution (copied v).id = .ok none) ∧
      (∀ v ∈ t.vars, ∀ w ∈ t.vars, (copied v).id = (copied w).id → v = w) ∧
      (t.vars ≠ [] → u = t.subst (fun w => (t.vars.find? (·.id == w.id)).map (.var <| copied ·))) ∧
      (t.vars = [] → u = t) ∧ s'.size = s.size + t.vars.length ∧ (∀ id, s'.solution? id = s.solution? id) ∧
      (∀ x, .var x ∈ u.mentions true → (∃ v ∈ t.vars, copied v = x) ∨ t.Phantom x) ∧
      (t.Built → ∀ x, (∃ v ∈ t.vars, copied v = x) ∨ t.Phantom x → .var x ∈ u.mentions true) ∧
      ((∀ x, ¬ t.Phantom x) → (∀ id, .record id ∉ t.mentions true) → s'.Displays u) ∧
      ∀ x, t.Phantom x → s'.size ≤ x.id → s'.solution x.id = .error (.foreignVariable x.id) := by
  intro u s' copied
  have hs' : s' = (freshCopies t.vars s).2 := congrArg Prod.snd (instantiate_closed t s)
  have hsize : s'.size = s.size + t.vars.length := hs' ▸ size_freshCopies t.vars s
  have hsolution : ∀ id, s'.solution? id = s.solution? id := hs' ▸ solution?_freshCopies t.vars s
  have hnew : ∀ v ∈ t.vars, s.size ≤ (copied v).id ∧ (copied v).id < s'.size := fun v hv => by
    have hlt : t.vars.idxOf v < t.vars.length := List.idxOf_lt_length_of_mem hv
    rw [hsize]
    exact ⟨Nat.le_add_right _ _, Nat.add_lt_add_left hlt _⟩
  have hu : u = if t.vars = [] then t else t.subst (copying s t.vars) := congrArg Prod.fst (instantiate_closed t s)
  refine ⟨?_, ?_, ?_, ?_, hsize, hsolution, ?_, ?_, ?_, ?_⟩
  · intro v hv
    obtain ⟨hge, hlt⟩ := hnew v hv
    refine ⟨rfl, rfl, hge, hlt, ?_⟩
    have hnone : s.solution? (copied v).id = none :=
      Option.eq_none_iff_forall_ne_some.mpr fun t hsome => absurd (Store.lt_size_of_solution? hsome) (Nat.not_lt.mpr hge)
    rw [Store.solution_of_lt hlt, hsolution, hnone]
  · intro v hv w hw hid
    exact (List.idxOf_inj hv).mp (Nat.add_left_cancel hid)
  · intro hne
    rw [hu, if_neg hne]
    rfl
  · intro hnil
    rw [hu, if_pos hnil]
  · exact fun x => shows_of_instantiate_closed t s
  · exact fun ht x => instantiate_closed_shows ht s
  · intro hphantom hrecord r hr
    cases r with
    | var x =>
      rcases shows_of_instantiate_closed t s hr with ⟨v, hv, rfl⟩ | hx
      · exact (hnew v hv).2
      · exact absurd hx (hphantom x)
    | record id => exact absurd (record_of_instantiate_closed t s hr) (hrecord id)
    | field name => trivial
    | hole => trivial
  · exact fun x _ hge => Store.solution_of_ge hge

end Scheme

/-- In `type alias Tagged a = {} ; mk : Tagged a ; mk = {} ; c = mk ; d = c` the type of `c` shows a variable in the
argument of its alias only. The copy that `d` gets shows the variable of the other store, and `d` cannot be inferred. -/
theorem phantom_variable_is_carried_over :
    let record : Expr := .mk 0 4 (.record [])
    let tagged : AliasDecl := ⟨0, "Tagged", ["a"], .mk 1 (.record none [])⟩
    let mk : ValueDecl := ⟨2, some (.mk 2 (.ref (.plain "Tagged") [.mk 2 (.var "a")])), .function ⟨3, "mk"⟩ [], record⟩
    let c : ValueDecl := ⟨5, none, .function ⟨5, "c"⟩ [], .mk 1 6 (.var (.plain "mk"))⟩
    let d : ValueDecl := ⟨7, none, .function ⟨7, "d"⟩ [], .mk 2 8 (.var (.plain "c"))⟩
    let engine : Engine :=
      { file := 0, scope := { module := ⟨"Main", [.typeAlias tagged, .value mk, .value c, .value d]⟩ } }
    let v : TyVar := ⟨1, "a", false⟩
    let t : Ty := .record [] none (some ⟨"Main", "Tagged", [.var v]⟩) .empty
    ((engine.infer (.declared 2) {}).1.toOption.bind Except.toOption).map (·.ty == t) = some true ∧
      t.Phantom v ∧ .var v ∈ ((Scheme.closed t).instantiate {}).1.mentions true ∧
      (match (engine.infer (.declared 3) {}).1 with
        | .error fault => some fault
        | .ok _ => none) = some (.foreignVariable 1) := by
  intro record tagged mk c d engine v t
  refine ⟨by decide +kernel, ⟨by decide, by decide⟩, by decide, by decide +kernel⟩

end ElmInference
