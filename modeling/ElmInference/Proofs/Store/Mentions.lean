import ElmInference.Ty.Subst
import ElmInference.Proofs.Assoc

/-!
# What a type mentions

Everything the proofs about a store need to know of a type's shape is which variables, growing records
and field names stand in it, and whether it has a part about which nothing is known. `Ty.mentions` lists
these. The rest of the theory argues about the list: the types that unification builds from other types
refer to nothing that those did not refer to already.

Arguments of the alias a type was written with are displayed but are not part of the type. The list
reaches into them only when asked to, which is how zonking sees a type and how all other walks do not.
-/

namespace ElmInference

/-- Something a type mentions. -/
inductive Mention where
  | var (v : TyVar)
  | record (id : RecordId)
  | field (name : Name)
  /-- A part about which nothing is known. -/
  | hole
deriving DecidableEq

namespace Ty

mutual

/-- What a type mentions, in reading order; alias arguments count when asked for. -/
def mentions (aliases : Bool) : Ty → List Mention
  | .unit => []
  | .unknown => [.hole]
  | .inProgress => [.hole]
  | .var v => [.var v]
  | .union _ _ args w => mentionsList aliases args ++ mentionsAlias aliases w
  | .tuple items => mentionsList aliases items
  | .record fields base w _ =>
    mentionsFields aliases fields ++ (mentionsBase aliases base ++ mentionsAlias aliases w)
  | .growing id => [.record id]
  | .arrow params ret w => mentionsList aliases params ++ (ret.mentions aliases ++ mentionsAlias aliases w)

def mentionsList (aliases : Bool) : List Ty → List Mention
  | [] => []
  | t :: ts => t.mentions aliases ++ mentionsList aliases ts

def mentionsFields (aliases : Bool) : List (Name × Ty) → List Mention
  | [] => []
  | (name, t) :: rest => .field name :: (t.mentions aliases ++ mentionsFields aliases rest)

def mentionsBase (aliases : Bool) : Option Ty → List Mention
  | none => []
  | some t => t.mentions aliases

def mentionsAlias (aliases : Bool) : Option (AliasUse Ty) → List Mention
  | none => []
  | some ⟨_, _, args⟩ => if aliases then mentionsList aliases args else []

end

example : (tuple [record [("x", var ⟨0, "a", false⟩)] (some unknown) (some ⟨"Main", "A", [unit]⟩) .empty]).mentions true =
    [.field "x", .var ⟨0, "a", false⟩, .hole] := by cbv

@[simp] theorem mentionsAlias_false (w : Option (AliasUse Ty)) : mentionsAlias false w = [] := by
  rcases w with _ | ⟨_, _, args⟩ <;> simp [mentionsAlias]

theorem mem_mentionsList {aliases : Bool} {r : Mention} {ts : List Ty} :
    r ∈ mentionsList aliases ts ↔ ∃ t ∈ ts, r ∈ t.mentions aliases := by
  induction ts with
  | nil => simp [mentionsList]
  | cons t ts ih => simp [mentionsList, ih]

theorem mem_mentionsFields {aliases : Bool} {r : Mention} {fields : List (Name × Ty)} :
    r ∈ mentionsFields aliases fields ↔
      ∃ field ∈ fields, r = .field field.1 ∨ r ∈ field.2.mentions aliases := by
  induction fields with
  | nil => simp [mentionsFields]
  | cons field rest ih =>
    obtain ⟨name, t⟩ := field
    simp [mentionsFields, ih, or_assoc]

@[simp] theorem mentionsList_append (aliases : Bool) (ts us : List Ty) :
    mentionsList aliases (ts ++ us) = mentionsList aliases ts ++ mentionsList aliases us := by
  induction ts with
  | nil => simp [mentionsList]
  | cons t ts ih => simp [mentionsList, ih]

/-! ### Induction over a type

The parts of a type stand in lists and options, so the principle hands out the hypothesis for every
member of these. Alias arguments count as parts. -/

def aliasArgs (w : Option (AliasUse Ty)) : List Ty :=
  w.elim [] AliasUse.args

theorem mentionsAlias_true (w : Option (AliasUse Ty)) :
    mentionsAlias true w = mentionsList true (aliasArgs w) := by
  rcases w with _ | ⟨_, _, args⟩ <;> simp [mentionsAlias, mentionsList, aliasArgs]

theorem size_pos (t : Ty) : 0 < t.size := by
  cases t <;> simp only [size] <;> omega

theorem size_le_sizeList {t : Ty} {ts : List Ty} (h : t ∈ ts) : t.size ≤ sizeList ts := by
  induction ts with
  | nil => cases h
  | cons u us ih =>
    rw [sizeList]
    rcases List.mem_cons.mp h with rfl | h
    · omega
    · have := ih h
      omega

theorem size_le_sizeFields {field : Name × Ty} {fields : List (Name × Ty)} (h : field ∈ fields) :
    field.2.size ≤ sizeFields fields := by
  induction fields with
  | nil => cases h
  | cons entry rest ih =>
    obtain ⟨name, t⟩ := entry
    rw [sizeFields]
    rcases List.mem_cons.mp h with rfl | h
    · exact Nat.le_add_right _ _
    · have := ih h
      omega

theorem size_le_sizeAlias {t : Ty} {w : Option (AliasUse Ty)} (h : t ∈ aliasArgs w) :
    t.size ≤ sizeAlias w := by
  rcases w with _ | ⟨_, _, args⟩
  · cases h
  · exact size_le_sizeList h

theorem inductParts {P : Ty → Prop} (unit : P .unit) (unknown : P .unknown)
    (inProgress : P .inProgress) (var : ∀ v, P (.var v)) (growing : ∀ id, P (.growing id))
    (union : ∀ m n args w, (∀ t ∈ args, P t) → (∀ t ∈ aliasArgs w, P t) → P (.union m n args w))
    (tuple : ∀ items, (∀ t ∈ items, P t) → P (.tuple items))
    (record : ∀ fields base w refs, (∀ field ∈ fields, P field.2) → (∀ t, base = some t → P t) →
      (∀ t ∈ aliasArgs w, P t) → P (.record fields base w refs))
    (arrow : ∀ params ret w, (∀ t ∈ params, P t) → P ret → (∀ t ∈ aliasArgs w, P t) →
      P (.arrow params ret w)) (t : Ty) : P t := by
  induction hsize : t.size using Nat.strongRecOn generalizing t with
  | _ n ih =>
    have part : ∀ u : Ty, u.size < t.size → P u := fun u hu => ih u.size (hsize ▸ hu) u rfl
    cases t with
    | unit => exact unit
    | unknown => exact unknown
    | inProgress => exact inProgress
    | var v => exact var v
    | growing id => exact growing id
    | union m n args w =>
      refine union m n args w (fun t ht => part t ?_) (fun t ht => part t ?_)
      · have := size_le_sizeList ht
        simp only [size]
        omega
      · have := size_le_sizeAlias ht
        simp only [size]
        omega
    | tuple items =>
      refine tuple items (fun t ht => part t ?_)
      have := size_le_sizeList ht
      simp only [size]
      omega
    | record fields base w refs =>
      refine record fields base w refs (fun field hf => part field.2 ?_) (fun t ht => part t ?_)
        (fun t ht => part t ?_)
      · have := size_le_sizeFields hf
        simp only [size]
        omega
      · subst ht
        simp only [size, sizeBase]
        omega
      · have := size_le_sizeAlias ht
        simp only [size]
        omega
    | arrow params ret w =>
      refine arrow params ret w (fun t ht => part t ?_) (part ret ?_) (fun t ht => part t ?_)
      · have := size_le_sizeList ht
        simp only [size]
        omega
      · simp only [size]
        omega
      · have := size_le_sizeAlias ht
        simp only [size]
        omega

/-! ### Parts -/

/-- What stands directly inside a type. Arguments of its alias do not count. -/
inductive Part : Ty → Ty → Prop
  | arg {m n : Name} {args : List Ty} {w : Option (AliasUse Ty)} {t : Ty} :
      t ∈ args → Part (.union m n args w) t
  | item {items : List Ty} {t : Ty} : t ∈ items → Part (.tuple items) t
  | field {fields : List (Name × Ty)} {base : Option Ty} {w : Option (AliasUse Ty)}
      {refs : FieldReferences} {field : Name × Ty} :
      field ∈ fields → Part (.record fields base w refs) field.2
  | base {fields : List (Name × Ty)} {t : Ty} {w : Option (AliasUse Ty)} {refs : FieldReferences} :
      Part (.record fields (some t) w refs) t
  | param {params : List Ty} {ret : Ty} {w : Option (AliasUse Ty)} {t : Ty} :
      t ∈ params → Part (.arrow params ret w) t
  | ret {params : List Ty} {ret : Ty} {w : Option (AliasUse Ty)} : Part (.arrow params ret w) ret

theorem Part.mentions_subset {aliases : Bool} {t u : Ty} (h : t.Part u) :
    u.mentions aliases ⊆ t.mentions aliases := by
  intro r hr
  cases h with
  | arg hmem =>
    simp only [mentions, List.mem_append, mem_mentionsList]
    exact .inl ⟨u, hmem, hr⟩
  | item hmem =>
    simp only [mentions, mem_mentionsList]
    exact ⟨u, hmem, hr⟩
  | field hmem =>
    simp only [mentions, List.mem_append, mem_mentionsFields]
    exact .inl ⟨_, hmem, .inr hr⟩
  | base =>
    simp only [mentions, mentionsBase, List.mem_append]
    exact .inr (.inl hr)
  | param hmem =>
    simp only [mentions, List.mem_append, mem_mentionsList]
    exact .inl ⟨u, hmem, hr⟩
  | ret =>
    simp only [mentions, List.mem_append]
    exact .inr (.inl hr)

/-- A type mentions what it mentions without its aliases. -/
theorem mentions_false_subset (aliases : Bool) (t : Ty) : t.mentions false ⊆ t.mentions aliases := by
  intro r hr
  induction t using inductParts with
  | unit => cases hr
  | unknown | inProgress | var | growing => exact hr
  | union m n args w iha _ =>
    simp only [mentions, mentionsAlias_false, List.append_nil, mem_mentionsList] at hr
    obtain ⟨t, ht, hr⟩ := hr
    exact Part.mentions_subset (.arg ht) (iha t ht hr)
  | tuple items ih =>
    simp only [mentions, mem_mentionsList] at hr
    obtain ⟨t, ht, hr⟩ := hr
    exact Part.mentions_subset (.item ht) (ih t ht hr)
  | record fields base w refs ihf ihb _ =>
    simp only [mentions, mentionsAlias_false, List.append_nil, List.mem_append, mem_mentionsFields] at hr ⊢
    rcases hr with ⟨field, hf, heq | hr⟩ | hr
    · exact .inl ⟨field, hf, .inl heq⟩
    · exact .inl ⟨field, hf, .inr (ihf field hf hr)⟩
    · cases base with
      | none => simp [mentionsBase] at hr
      | some b => exact .inr (.inl (ihb b rfl hr))
  | arrow params ret w ihp ihr _ =>
    simp only [mentions, mentionsAlias_false, List.append_nil, List.mem_append, mem_mentionsList] at hr
    rcases hr with ⟨t, ht, hr⟩ | hr
    · exact Part.mentions_subset (.param ht) (ihp t ht hr)
    · exact Part.mentions_subset .ret (ihr hr)

/-- The arguments of its alias stand in a type when they count. -/
theorem mentions_aliasArg_subset {t u : Ty} (h : u ∈ aliasArgs t.written?) :
    u.mentions true ⊆ t.mentions true := by
  intro r hr
  have hlist : r ∈ mentionsList true (aliasArgs t.written?) := mem_mentionsList.mpr ⟨u, h, hr⟩
  cases t with
  | union m n args w =>
    rw [mentions, mentionsAlias_true]
    exact List.mem_append_right _ hlist
  | record fields base w refs =>
    rw [mentions, mentionsAlias_true]
    exact List.mem_append_right _ (List.mem_append_right _ hlist)
  | arrow params ret w =>
    rw [mentions, mentionsAlias_true]
    exact List.mem_append_right _ (List.mem_append_right _ hlist)
  | _ => cases h

/-! ### Types built from other types -/

/-- What holds of functions as soon as it holds of their parts, and of the parts of functions, holds of the types that
`function` builds. -/
theorem function_closed {P : Ty → Prop} {params : List Ty} {ret : Ty}
    (arrow : ∀ all last, all ≠ [] → (∀ t ∈ all, P t) → P last → P (.arrow all last none))
    (part : ∀ all last, P (.arrow all last none) → (∀ t ∈ all, P t) ∧ P last)
    (hparams : ∀ t ∈ params, P t) (hret : P ret) : P (function params ret) := by
  unfold function
  split
  · exact hret
  · split
    · obtain ⟨hmore, hlast⟩ := part _ _ hret
      refine arrow _ _ (by simp) (fun t ht => ?_) hlast
      exact (List.mem_append.mp ht).elim (hparams t) (hmore t)
    · exact arrow _ _ (by simp) hparams hret

theorem mem_mentions_function {aliases : Bool} {params : List Ty} {ret : Ty} {r : Mention} :
    r ∈ (function params ret).mentions aliases ↔
      (∃ t ∈ params, r ∈ t.mentions aliases) ∨ r ∈ ret.mentions aliases := by
  unfold function
  split
  · simp
  · split
    · simp only [mentions, mentionsAlias, mentionsList_append, List.append_nil, List.mem_append, mem_mentionsList]
      exact or_assoc
    · simp only [mentions, mentionsAlias, List.append_nil, List.mem_append, mem_mentionsList]

theorem mentions_function_subset (params : List Ty) (ret : Ty) :
    (function params ret).mentions false ⊆ mentionsList false params ++ ret.mentions false := by
  intro r hr
  rw [List.mem_append, mem_mentionsList]
  exact mem_mentions_function.mp hr

theorem dropParams_eq_function (params : List Ty) (ret : Ty) (count : Nat) :
    dropParams params ret count = function (params.drop count) ret := by
  unfold dropParams
  split
  · rfl
  · rw [List.drop_eq_nil_of_le (by omega)]
    rfl

theorem mentions_dropParams_subset (params : List Ty) (ret : Ty) (count : Nat) :
    (dropParams params ret count).mentions false ⊆ mentionsList false params ++ ret.mentions false := by
  intro r hr
  rw [dropParams_eq_function] at hr
  rw [List.mem_append, mem_mentionsList]
  rcases mem_mentions_function.mp hr with ⟨t, ht, hrt⟩ | hret
  · exact .inl ⟨t, List.mem_of_mem_drop ht, hrt⟩
  · exact .inr hret

theorem addFields_cons (fields : List (Name × Ty)) (entry : Name × Ty) (rest : List (Name × Ty)) :
    addFields fields (entry :: rest) =
      addFields (if fields.any (·.1 == entry.1) then fields else fields ++ [entry]) rest :=
  rfl

/-- A field that `addFields` yields stands in one of the two lists. -/
theorem mem_addFields {field : Name × Ty} {fields more : List (Name × Ty)}
    (hmem : field ∈ addFields fields more) : field ∈ fields ∨ field ∈ more := by
  induction more generalizing fields with
  | nil => exact .inl hmem
  | cons entry rest ih =>
    rw [addFields_cons] at hmem
    rcases ih hmem with hfields | hrest
    · split at hfields
      · exact .inl hfields
      · rcases List.mem_append.mp hfields with hfields | hentry
        · exact .inl hfields
        · exact .inr (List.mem_cons.mpr (.inl (List.mem_singleton.mp hentry)))
    · exact .inr (List.mem_cons_of_mem _ hrest)

/-- The names of `addFields` are those of both lists. -/
theorem mem_addFields_names {name : Name} {fields more : List (Name × Ty)} :
    name ∈ (addFields fields more).map Prod.fst ↔
      name ∈ fields.map Prod.fst ∨ name ∈ more.map Prod.fst := by
  induction more generalizing fields with
  | nil => simp [addFields]
  | cons entry rest ih =>
    rw [addFields_cons, ih]
    split
    · next hany =>
      obtain ⟨found, hfound, heq⟩ := List.any_eq_true.mp hany
      have hname : entry.1 ∈ fields.map Prod.fst := by
        rw [← beq_iff_eq.mp heq]
        exact List.mem_map_of_mem hfound
      constructor
      · rintro (hfields | hrest)
        · exact .inl hfields
        · exact .inr (List.mem_cons_of_mem _ hrest)
      · rintro (hfields | hrest)
        · exact .inl hfields
        · rcases List.mem_cons.mp hrest with rfl | hrest
          · exact .inl hname
          · exact .inr hrest
    · simp [or_assoc]

theorem mentions_extension_subset (base : Ty) (fields : List (Name × Ty)) :
    (extension base fields).mentions false ⊆ mentionsFields false fields ++ base.mentions false := by
  intro r hr
  unfold extension recordWith at hr
  split at hr
  · next heq =>
    obtain rfl := Option.some.inj heq
    simp only [mentions, mentionsAlias_false, List.append_nil, List.mem_append, mem_mentionsFields] at hr ⊢
    rcases hr with ⟨field, hfield, hr⟩ | hr
    · rcases mem_addFields hfield with hfield | hfield
      · exact .inl ⟨field, hfield, hr⟩
      · exact .inr (.inl ⟨field, hfield, hr⟩)
    · exact .inr (.inr hr)
  · simpa [mentions, mentionsBase] using hr

end Ty

end ElmInference
