import ElmInference.Proofs.Store.Graph

/-!
# What a type says

Two types can say the same and be written differently: a function that returns a function can be written
with all its parameters at once, fields can stand in any order, a field can be written twice and only the
first one counts, and the alias a type was written with is for display. `Reading` is what is left when all
of this is forgotten, so that two types say the same exactly when their readings are equal.

A type is read under an environment, which says what stands for the variables and growing records in it.
Readings are built over a type of constants: what a variable can be that stands for nothing else.
-/

namespace ElmInference

/-- What a type says. Functions take one argument, and records are maps from names. -/
inductive Reading (κ : Type) where
  | unit
  | unknown
  | inProgress
  | const (k : κ)
  | union (moduleName name : Name) (args : List (Reading κ))
  | tuple (items : List (Reading κ))
  /-- A record; `rest` is what it extends, unless that is a record itself. -/
  | record (fields : Name → Option (Reading κ)) (rest : Option (Reading κ))
  | arrow (param ret : Reading κ)

namespace Reading

variable {κ : Type}

def empty : Reading κ := .record (fun _ => none) none

def extend (fields : Name → Option (Reading κ)) : Reading κ → Reading κ
  | .record inner rest => .record (fun name => (fields name).or (inner name)) rest
  | base => .record fields (some base)

def arrows (params : List (Reading κ)) (ret : Reading κ) : Reading κ :=
  params.foldr .arrow ret

theorem extend_extend (outer inner : Name → Option (Reading κ)) (base : Reading κ) :
    extend outer (extend inner base) = extend (fun name => (outer name).or (inner name)) base := by
  cases base with
  | record fields rest => simp only [extend, Option.or_assoc]
  | _ => rfl

theorem arrows_append (params more : List (Reading κ)) (ret : Reading κ) :
    arrows (params ++ more) ret = arrows params (arrows more ret) := by
  simp only [arrows, List.foldr_append]

theorem arrows_inj {params params' : List (Reading κ)} {ret ret' : Reading κ}
    (hlength : params.length = params'.length) (h : arrows params ret = arrows params' ret') :
    params = params' ∧ ret = ret' := by
  induction params generalizing params' with
  | nil =>
    obtain rfl := List.length_eq_zero_iff.mp hlength.symm
    exact ⟨rfl, h⟩
  | cons x xs ih =>
    obtain ⟨y, ys, rfl⟩ := List.exists_cons_of_length_eq_add_one hlength.symm
    obtain ⟨hparam, hrest⟩ := Reading.arrow.inj h
    obtain ⟨hxs, hret⟩ := ih (by simpa using hlength) hrest
    exact ⟨by rw [hparam, hxs], hret⟩

end Reading

/-! ### Reading a type -/

/-- What stands for the variables and growing records of a type. -/
abbrev Env (κ : Type) := Node → Reading κ

namespace Ty

variable {κ : Type}

mutual

/-- What a type says under an environment. -/
def read (η : Env κ) : Ty → Reading κ
  | .unit => .unit
  | .unknown => .unknown
  | .inProgress => .inProgress
  | .var v => η (.var v.id)
  | .union m n args _ => .union m n (readList η args)
  | .tuple items => .tuple (readList η items)
  | .record fields base _ _ => .extend (Assoc.get? (readFields η fields)) (readBase η base)
  | .growing id => η (.record id)
  | .arrow params ret _ => .arrows (readList η params) (ret.read η)

def readList (η : Env κ) : List Ty → List (Reading κ)
  | [] => []
  | t :: ts => t.read η :: readList η ts

def readFields (η : Env κ) : List (Name × Ty) → List (Name × Reading κ)
  | [] => []
  | (name, t) :: rest => (name, t.read η) :: readFields η rest

def readBase (η : Env κ) : Option Ty → Reading κ
  | none => .empty
  | some t => t.read η

end

example (η : Env Nat) : (arrow [unit, unknown] (tuple [var ⟨0, "a", false⟩]) none).read η =
    .arrow .unit (.arrow .unknown (.tuple [η (.var 0)])) := by cbv

def fieldReadings (η : Env κ) (fields : List (Name × Ty)) (name : Name) : Option (Reading κ) :=
  (Assoc.get? fields name).map (read η)

variable {η η' : Env κ}

theorem readList_eq_map (ts : List Ty) : readList η ts = ts.map (read η) := by
  induction ts with
  | nil => rfl
  | cons t ts ih => rw [readList, ih, List.map_cons]

theorem get?_readFields (fields : List (Name × Ty)) :
    Assoc.get? (readFields η fields) = fieldReadings η fields := by
  funext name
  induction fields with
  | nil => rfl
  | cons field rest ih =>
    obtain ⟨other, t⟩ := field
    simp only [readFields, fieldReadings, Assoc.get?] at ih ⊢
    split
    · rfl
    · exact ih

theorem read_var (v : TyVar) : (Ty.var v).read η = η (.var v.id) := rfl

theorem read_growing (id : RecordId) : (Ty.growing id).read η = η (.record id) := rfl

theorem read_record (fields : List (Name × Ty)) (base : Option Ty) (w : Option (AliasUse Ty))
    (refs : FieldReferences) : (Ty.record fields base w refs).read η =
      .extend (fieldReadings η fields) (readBase η base) := by
  rw [read, get?_readFields]

theorem read_arrow (params : List Ty) (ret : Ty) (w : Option (AliasUse Ty)) :
    (Ty.arrow params ret w).read η = .arrows (params.map (read η)) (ret.read η) := by
  rw [read, readList_eq_map]

theorem read_tuple (items : List Ty) : (Ty.tuple items).read η = .tuple (items.map (read η)) := by
  rw [read, readList_eq_map]

theorem read_union (m n : Name) (args : List Ty) (w : Option (AliasUse Ty)) :
    (Ty.union m n args w).read η = .union m n (args.map (read η)) := by
  rw [read, readList_eq_map]

end Ty

def GrowingRecord.read {κ : Type} (η : Env κ) (g : GrowingRecord) : Reading κ :=
  .extend (Ty.fieldReadings η g.fields) (g.base.read η)

namespace Ty

variable {κ : Type} {η η' : Env κ}

/-! ### What a reading depends on -/

theorem fieldReadings_congr {fields : List (Name × Ty)}
    (h : ∀ field ∈ fields, field.2.read η = field.2.read η') :
    fieldReadings η fields = fieldReadings η' fields := by
  funext name
  cases hget : Assoc.get? fields name with
  | none => simp only [fieldReadings, hget, Option.map_none]
  | some t =>
    simp only [fieldReadings, hget, Option.map_some]
    rw [h (name, t) (Assoc.mem_of_get? hget)]

theorem Holds.of_mentions {t u : Ty} {n : Node} (h : u.mentions false ⊆ t.mentions false)
    (hn : u.Holds false n) : t.Holds false n := by
  obtain ⟨r, hr, hnode⟩ := hn
  exact ⟨r, h hr, hnode⟩

/-- A reading depends on nothing but what stands in the type. -/
theorem read_congr {t : Ty} (h : ∀ n, t.Holds false n → η n = η' n) : t.read η = t.read η' := by
  induction t using Ty.inductParts with
  | unit | unknown | inProgress => rfl
  | var v => exact h _ (Store.holds_var_iff.mpr rfl)
  | growing id => exact h _ (Store.holds_growing_iff.mpr rfl)
  | union m n args w iha _ =>
    rw [read_union, read_union]
    congr 1
    refine List.map_congr_left (fun t ht => iha t ht (fun n hn => h n (hn.of_mentions ?_)))
    intro r hr
    simpa [mentions, mem_mentionsList] using ⟨t, ht, hr⟩
  | tuple items ih =>
    rw [read_tuple, read_tuple]
    congr 1
    refine List.map_congr_left (fun t ht => ih t ht (fun n hn => h n (hn.of_mentions ?_)))
    intro r hr
    simpa [mentions, mem_mentionsList] using ⟨t, ht, hr⟩
  | record fields base w refs ihf ihb _ =>
    rw [read_record, read_record]
    have hfields : fieldReadings η fields = fieldReadings η' fields := by
      refine fieldReadings_congr (fun field hf => ihf field hf (fun n hn => h n (hn.of_mentions ?_)))
      intro r hr
      simp only [mentions, mentionsAlias_false, List.mem_append, mem_mentionsFields]
      exact .inl ⟨field, hf, .inr hr⟩
    rw [hfields]
    cases base with
    | none => rfl
    | some b =>
      rw [readBase, readBase, ihb b rfl (fun n hn => h n (hn.of_mentions ?_))]
      intro r hr
      simp [mentions, mentionsBase, hr]
  | arrow params ret w ihp ihr _ =>
    rw [read_arrow, read_arrow, ihr (fun n hn => h n (hn.of_mentions ?_))]
    · congr 1
      refine List.map_congr_left (fun t ht => ihp t ht (fun n hn => h n (hn.of_mentions ?_)))
      intro r hr
      simp only [mentions, mentionsAlias_false, List.mem_append, mem_mentionsList]
      exact .inl ⟨t, ht, hr⟩
    · intro r hr
      simp [mentions, hr]

/-! ### Equal types -/

theorem readList_eq_of_beqList {ts us : List Ty}
    (ih : ∀ t ∈ ts, ∀ u, t.beq u = true → t.read η = u.read η) (h : beqList ts us = true) :
    ts.map (read η) = us.map (read η) := by
  induction ts generalizing us with
  | nil =>
    cases us with
    | nil => rfl
    | cons => simp [beqList] at h
  | cons t ts ihts =>
    cases us with
    | nil => simp [beqList] at h
    | cons u us =>
      rw [beqList, Bool.and_eq_true] at h
      rw [List.map_cons, List.map_cons, ih t List.mem_cons_self u h.1,
        ihts (fun t ht => ih t (List.mem_cons_of_mem _ ht)) h.2]

theorem fieldReadings_eq_of_beqFields {fields fields' : List (Name × Ty)}
    (ih : ∀ field ∈ fields, ∀ u, field.2.beq u = true → field.2.read η = u.read η)
    (h : beqFields fields fields' = true) : fieldReadings η fields = fieldReadings η fields' := by
  induction fields generalizing fields' with
  | nil =>
    cases fields' with
    | nil => rfl
    | cons => simp [beqFields] at h
  | cons field rest ihrest =>
    cases fields' with
    | nil => simp [beqFields] at h
    | cons field' rest' =>
      rw [beqFields, Bool.and_eq_true, Bool.and_eq_true, beq_iff_eq] at h
      funext name
      have hrest := congrFun (ihrest (fun x hx => ih x (List.mem_cons_of_mem _ hx)) h.2) name
      have hfirst := ih field List.mem_cons_self _ h.1.2
      simp only [fieldReadings, Assoc.get?, h.1.1] at hrest ⊢
      split
      · exact congrArg some hfirst
      · exact hrest

/-- Types that are equal but for the field references read alike. -/
theorem read_eq_of_beq {t u : Ty} (h : t.beq u = true) : t.read η = u.read η := by
  induction t using Ty.inductParts generalizing u with
  | unit | unknown | inProgress =>
    cases u <;> first | rfl | simp [beq] at h
  | var v =>
    cases u <;> simp only [beq, beq_iff_eq, Bool.false_eq_true] at h
    rw [h]
  | growing id =>
    cases u <;> simp only [beq, beq_iff_eq, Bool.false_eq_true] at h
    rw [h]
  | union m n args w ih _ =>
    cases u <;> simp only [beq, Bool.and_eq_true, beq_iff_eq, Bool.false_eq_true] at h
    obtain ⟨⟨⟨rfl, rfl⟩, hargs⟩, -⟩ := h
    rw [read_union, read_union, readList_eq_of_beqList (fun t ht u => ih t ht) hargs]
  | tuple items ih =>
    cases u <;> simp only [beq, Bool.false_eq_true] at h
    rw [read_tuple, read_tuple, readList_eq_of_beqList (fun t ht u => ih t ht) h]
  | record fields base w refs ihf ihb _ =>
    cases u <;> simp only [beq, Bool.and_eq_true, Bool.false_eq_true] at h
    next fields' base' w' refs' =>
    obtain ⟨⟨hfields, hbase⟩, -⟩ := h
    rw [read_record, read_record, fieldReadings_eq_of_beqFields (fun field hf u => ihf field hf) hfields]
    cases base <;> cases base' <;> simp only [beqBase, Bool.false_eq_true] at hbase
    · rfl
    · rw [readBase, readBase, ihb _ rfl hbase]
  | arrow params ret w ihp ihr _ =>
    cases u <;> simp only [beq, Bool.and_eq_true, Bool.false_eq_true] at h
    obtain ⟨⟨hparams, hret⟩, -⟩ := h
    rw [read_arrow, read_arrow, readList_eq_of_beqList (fun t ht u => ihp t ht) hparams, ihr hret]

/-! ### Types built from other types -/

theorem read_function (params : List Ty) (ret : Ty) :
    (function params ret).read η = .arrows (params.map (read η)) (ret.read η) := by
  unfold function
  split
  · rfl
  · split
    · rw [read_arrow, read_arrow, List.map_append, Reading.arrows_append]
    · rw [read_arrow]

/-- Taking arguments off a function takes them off its reading. -/
theorem read_dropParams (params : List Ty) (ret : Ty) (w : Option (AliasUse Ty)) (count : Nat) :
    (Ty.arrow params ret w).read η =
      .arrows ((params.take count).map (read η)) ((dropParams params ret count).read η) := by
  rw [read_arrow, dropParams_eq_function, read_function, ← Reading.arrows_append, ← List.map_append, List.take_append_drop]

theorem read_of_mem_zip {ts us : List Ty} (h : ts.map (Ty.read η) = us.map (Ty.read η)) :
    ∀ p ∈ ts.zip us, p.1.read η = p.2.read η := by
  induction ts generalizing us with
  | nil => simp
  | cons t ts ih =>
    cases us with
    | nil => simp
    | cons u us =>
      obtain ⟨hhead, htail⟩ := List.cons.inj h
      exact List.forall_mem_cons.mpr ⟨hhead, ih htail⟩

/-- Functions that say the same agree in the parameters that both have, and in what is left of both. -/
theorem read_of_arrow {params params' : List Ty} {ret ret' : Ty}
    {w w' : Option (AliasUse Ty)}
    (h : (Ty.arrow params ret w).read η = (Ty.arrow params' ret' w').read η) :
    (∀ p ∈ params.zip params', p.1.read η = p.2.read η) ∧
      (dropParams params ret (min params.length params'.length)).read η =
        (dropParams params' ret' (min params.length params'.length)).read η := by
  rw [read_dropParams params _ _ (min params.length params'.length),
    read_dropParams params' _ _ (min params.length params'.length)] at h
  obtain ⟨htake, hrest⟩ := Reading.arrows_inj (by simp) h
  rw [List.zip_eq_zip_take_min]
  exact ⟨read_of_mem_zip htake, hrest⟩

theorem get?_append (fields more : List (Name × Ty)) (name : Name) :
    Assoc.get? (fields ++ more) name = (Assoc.get? fields name).or (Assoc.get? more name) := by
  induction fields with
  | nil => rfl
  | cons entry rest ih =>
    simp only [List.cons_append, Assoc.get?]
    split
    · rfl
    · exact ih

theorem any_iff_get? {fields : List (Name × Ty)} {name : Name} :
    fields.any (·.1 == name) = true ↔ Assoc.get? fields name ≠ none := by
  induction fields with
  | nil => simp [Assoc.get?]
  | cons entry rest ih =>
    rw [List.any_cons, Bool.or_eq_true, ih, Assoc.get?, beq_iff_eq]
    split
    · next heq => simp [heq]
    · next hne => simp [hne]

/-- The first of two fields of the same name counts. -/
theorem get?_addFields (fields more : List (Name × Ty)) (name : Name) :
    Assoc.get? (addFields fields more) name = (Assoc.get? fields name).or (Assoc.get? more name) := by
  induction more generalizing fields with
  | nil => simp [addFields, Assoc.get?]
  | cons entry rest ih =>
    obtain ⟨other, t⟩ := entry
    rw [addFields_cons, ih]
    split
    · next hany =>
      rw [Assoc.get?]
      split
      · next heq =>
        subst heq
        obtain ⟨u, hu⟩ := Option.ne_none_iff_exists'.mp (any_iff_get?.mp hany)
        rw [hu]
        rfl
      · rfl
    · rw [get?_append, Option.or_assoc]
      congr 1
      simp only [Assoc.get?]
      split <;> rfl

theorem fieldReadings_addFields (fields more : List (Name × Ty)) :
    fieldReadings η (addFields fields more) =
      fun name => (fieldReadings η fields name).or (fieldReadings η more name) := by
  funext name
  simp only [fieldReadings, get?_addFields, Option.map_or]

theorem read_recordWith (fields : List (Name × Ty)) (base : Option Ty) (refs : FieldReferences) :
    (recordWith fields base refs).read η = .extend (fieldReadings η fields) (readBase η base) := by
  unfold recordWith
  split
  · rw [read_record, fieldReadings_addFields, readBase, read_record, Reading.extend_extend]
  · rw [read_record]

theorem read_extension (base : Ty) (fields : List (Name × Ty)) :
    (extension base fields).read η = .extend (fieldReadings η fields) (base.read η) :=
  read_recordWith fields (some base) .empty

theorem read_writtenAs? (t : Ty) (w : Option (AliasUse Ty)) : (t.writtenAs? w).read η = t.read η := by
  cases w with
  | none => rfl
  | some use =>
    cases t <;> simp only [writtenAs?, writtenAs, read]

end Ty

/-! ### Other constants -/

namespace Reading

variable {κ κ' : Type}

mutual

/-- Replaces the constants of a reading. A record that extends a constant is extended itself. -/
def subst (σ : κ → Reading κ') : Reading κ → Reading κ'
  | .unit => .unit
  | .unknown => .unknown
  | .inProgress => .inProgress
  | .const k => σ k
  | .union m n args => .union m n (substList σ args)
  | .tuple items => .tuple (substList σ items)
  | .record fields rest => .extend (fun name => substOption σ (fields name)) (substRest σ rest)
  | .arrow param ret => .arrow (param.subst σ) (ret.subst σ)

def substList (σ : κ → Reading κ') : List (Reading κ) → List (Reading κ')
  | [] => []
  | x :: xs => x.subst σ :: substList σ xs

def substOption (σ : κ → Reading κ') : Option (Reading κ) → Option (Reading κ')
  | none => none
  | some x => some (x.subst σ)

def substRest (σ : κ → Reading κ') : Option (Reading κ) → Reading κ'
  | none => .empty
  | some x => x.subst σ

end

example (σ : Nat → Reading Nat) : (record (fun _ => none) (some (const 0))).subst σ = extend (fun _ => none) (σ 0) := by cbv

variable {σ : κ → Reading κ'}

theorem substList_eq_map (xs : List (Reading κ)) : substList σ xs = xs.map (subst σ) := by
  induction xs with
  | nil => rfl
  | cons x xs ih => rw [substList, ih, List.map_cons]

theorem substOption_eq_map (x : Option (Reading κ)) : substOption σ x = x.map (subst σ) := by
  cases x <;> rfl

theorem subst_extend (fields : Name → Option (Reading κ)) (base : Reading κ) :
    (extend fields base).subst σ = extend (fun name => (fields name).map (subst σ)) (base.subst σ) := by
  cases base with
  | record inner rest =>
    rw [extend, subst, subst, extend_extend]
    simp only [substOption_eq_map, Option.map_or]
  | _ => simp only [extend, subst, substOption_eq_map, substRest]

theorem subst_arrows (params : List (Reading κ)) (ret : Reading κ) :
    (arrows params ret).subst σ = arrows (params.map (subst σ)) (ret.subst σ) := by
  induction params with
  | nil => rfl
  | cons x xs ih =>
    simp only [arrows, List.foldr_cons, List.map_cons, subst] at ih ⊢
    rw [ih]

end Reading

namespace Ty

variable {κ κ' : Type}

/-- What a type says in an environment can be read off what it says in one that tells more apart. -/
theorem subst_read (ζ : Env κ) (σ : κ → Reading κ') (t : Ty) :
    (t.read ζ).subst σ = t.read (fun n => (ζ n).subst σ) := by
  induction t using inductParts with
  | unit | unknown | inProgress | var | growing => rfl
  | union m n args w iha _ =>
    rw [read_union, read_union, Reading.subst, Reading.substList_eq_map, List.map_map]
    exact congrArg _ (List.map_congr_left iha)
  | tuple items ih =>
    rw [read_tuple, read_tuple, Reading.subst, Reading.substList_eq_map, List.map_map]
    exact congrArg _ (List.map_congr_left ih)
  | record fields base w refs ihf ihb _ =>
    have hfields : (fun name => (fieldReadings ζ fields name).map (Reading.subst σ)) =
        fieldReadings (fun n => (ζ n).subst σ) fields := by
      funext name
      cases hget : Assoc.get? fields name with
      | none => simp [fieldReadings, hget]
      | some u => simpa [fieldReadings, hget] using ihf _ (Assoc.mem_of_get? hget)
    rw [read_record, read_record, Reading.subst_extend, hfields]
    cases base with
    | none => rfl
    | some b => rw [readBase, readBase, ihb b rfl]
  | arrow params ret w ihp ihr _ =>
    rw [read_arrow, read_arrow, Reading.subst_arrows, ihr, List.map_map]
    exact congrArg (Reading.arrows · _) (List.map_congr_left ihp)

end Ty

end ElmInference
