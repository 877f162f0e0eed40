import ElmInference.Proofs.Store.Reading
import ElmInference.Proofs.Unify.Binding

/-!
# Types over a set of mentions

The types at hand are made of what a set mentions, with or without the arguments of their aliases, and they
may have to satisfy a property as well. Such a property is hereditary: parts of a type have it, and a type
without alias has it when its parts do. The types that unification builds from such types are such types
again, since it takes types apart and builds records and functions that have no alias.

One such property is that all functions take arguments. What such a type says has the shape of the type.
-/

namespace ElmInference

namespace Ty

open Relation

/-- A property that passes to the parts of a type, and from its parts to a type without alias. -/
structure Hereditary (L : Ty → Prop) : Prop where
  var : ∀ v, L (.var v)
  growing : ∀ id, L (.growing id)
  part : ∀ t u, t.Part u → L t → L u
  record : ∀ fields base refs, (∀ field ∈ fields, L field.2) → (∀ b, base = some b → L b) →
    L (.record fields base none refs)
  arrow : ∀ params ret, params ≠ [] → (∀ t ∈ params, L t) → L ret → L (.arrow params ret none)

theorem hereditary_true : Hereditary (fun _ => True) :=
  ⟨fun _ => trivial, fun _ => trivial, fun _ _ _ _ => trivial, fun _ _ _ _ _ => trivial,
    fun _ _ _ _ _ => trivial⟩

structure MadeOf (aliases : Bool) (L : Ty → Prop) (Q : Set Mention) (t : Ty) : Prop where
  mentions : ∀ r ∈ t.mentions aliases, r ∈ Q
  property : L t

def FieldsOf (aliases : Bool) (L : Ty → Prop) (Q : Set Mention) (fields : List (Name × Ty)) : Prop :=
  ∀ field ∈ fields, .field field.1 ∈ Q ∧ MadeOf aliases L Q field.2

section MadeOf

variable {aliases : Bool} {L : Ty → Prop} {Q Q' : Set Mention} {t u : Ty}

theorem MadeOf.mono (h : MadeOf aliases L Q t) (hQ : Q ⊆ Q') : MadeOf aliases L Q' t :=
  ⟨fun r hr => hQ (h.mentions r hr), h.property⟩

theorem FieldsOf.mono {fields : List (Name × Ty)} (h : FieldsOf aliases L Q fields) (hQ : Q ⊆ Q') :
    FieldsOf aliases L Q' fields :=
  fun field hf => ⟨hQ (h field hf).1, (h field hf).2.mono hQ⟩

theorem MadeOf.imp {L' : Ty → Prop} (h : MadeOf aliases L Q t) (hL : ∀ t, L t → L' t) :
    MadeOf aliases L' Q t :=
  ⟨h.mentions, hL t h.property⟩

theorem MadeOf.within (h : MadeOf aliases L Q t) : t.Within Q :=
  fun r hr => h.mentions r (mentions_false_subset aliases t hr)

theorem MadeOf.var_mem {v : TyVar} (h : MadeOf aliases L Q (.var v)) : .var v ∈ Q :=
  within_var.mp h.within

variable (hL : Hereditary L)

include hL

theorem madeOf_var {v : TyVar} (hv : .var v ∈ Q) : MadeOf aliases L Q (.var v) :=
  ⟨by simpa [Ty.mentions] using hv, hL.var v⟩

theorem madeOf_growing {id : RecordId} (hid : .record id ∈ Q) : MadeOf aliases L Q (.growing id) :=
  ⟨by simpa [Ty.mentions] using hid, hL.growing id⟩

theorem MadeOf.part (h : MadeOf aliases L Q t) (hpart : t.Part u) : MadeOf aliases L Q u :=
  ⟨fun r hr => h.mentions r (hpart.mentions_subset hr), hL.part t u hpart h.property⟩

theorem MadeOf.fields {fields : List (Name × Ty)} {base : Option Ty} {w : Option (AliasUse Ty)}
    {refs : FieldReferences} (h : MadeOf aliases L Q (.record fields base w refs)) :
    FieldsOf aliases L Q fields := by
  intro field hf
  refine ⟨h.mentions _ ?_, h.part hL (.field hf)⟩
  simp only [Ty.mentions, List.mem_append, mem_mentionsFields]
  exact .inl ⟨field, hf, .inl rfl⟩

theorem madeOf_record {fields : List (Name × Ty)} {base : Option Ty} (refs : FieldReferences)
    (hfields : FieldsOf aliases L Q fields) (hbase : ∀ b, base = some b → MadeOf aliases L Q b) :
    MadeOf aliases L Q (.record fields base none refs) := by
  refine ⟨fun r hr => ?_, hL.record _ _ _ (fun field hf => (hfields field hf).2.property)
    (fun b hb => (hbase b hb).property)⟩
  simp only [Ty.mentions, mentionsAlias, List.append_nil, List.mem_append, mem_mentionsFields] at hr
  rcases hr with ⟨field, hf, rfl | hr⟩ | hr
  · exact (hfields field hf).1
  · exact (hfields field hf).2.mentions r hr
  · cases base with
    | none => cases hr
    | some b => exact (hbase b rfl).mentions r hr

theorem madeOf_emptyRecord : MadeOf aliases L Q .emptyRecord :=
  madeOf_record hL _ (fun field hf => by cases hf) (fun b hb => by cases hb)

theorem madeOf_arrow {params : List Ty} {ret : Ty} (hne : params ≠ []) (hparams : ∀ t ∈ params, MadeOf aliases L Q t)
    (hret : MadeOf aliases L Q ret) : MadeOf aliases L Q (.arrow params ret none) := by
  refine ⟨fun r hr => ?_, hL.arrow _ _ hne (fun t ht => (hparams t ht).property) hret.property⟩
  simp only [Ty.mentions, mentionsAlias, List.append_nil, List.mem_append, mem_mentionsList] at hr
  rcases hr with ⟨t, ht, hr⟩ | hr
  · exact (hparams t ht).mentions r hr
  · exact hret.mentions r hr

theorem madeOf_function {params : List Ty} {ret : Ty} (hparams : ∀ t ∈ params, MadeOf aliases L Q t)
    (hret : MadeOf aliases L Q ret) : MadeOf aliases L Q (function params ret) :=
  function_closed (fun _ _ => madeOf_arrow hL) (fun _ _ h => ⟨fun _ ht => h.part hL (.param ht), h.part hL .ret⟩)
    hparams hret

theorem MadeOf.dropParams {params : List Ty} {ret : Ty} {w : Option (AliasUse Ty)} (count : Nat)
    (h : MadeOf aliases L Q (.arrow params ret w)) :
    MadeOf aliases L Q (Ty.dropParams params ret count) := by
  rw [dropParams_eq_function]
  exact madeOf_function hL (fun t ht => h.part hL (.param (List.mem_of_mem_drop ht))) (h.part hL .ret)

omit hL in
theorem fieldsOf_addFields {above fields : List (Name × Ty)} (habove : FieldsOf aliases L Q above)
    (hfields : FieldsOf aliases L Q fields) : FieldsOf aliases L Q (addFields above fields) := by
  intro field hf
  rcases mem_addFields hf with hf | hf
  · exact habove field hf
  · exact hfields field hf

theorem madeOf_recordWith {base : Option Ty} {fields : List (Name × Ty)} (refs : FieldReferences)
    (hfields : FieldsOf aliases L Q fields) (hbase : ∀ b, base = some b → MadeOf aliases L Q b) :
    MadeOf aliases L Q (recordWith fields base refs) := by
  unfold recordWith
  split
  · have hinner := hbase _ rfl
    refine madeOf_record hL _ (fieldsOf_addFields hfields (hinner.fields hL)) (fun b hb => ?_)
    subst hb
    exact hinner.part hL .base
  · exact madeOf_record hL _ hfields hbase

theorem madeOf_extension {base : Ty} {fields : List (Name × Ty)} (hfields : FieldsOf aliases L Q fields)
    (hbase : MadeOf aliases L Q base) : MadeOf aliases L Q (extension base fields) := by
  refine madeOf_recordWith hL _ hfields (fun b hb => ?_)
  obtain rfl := Option.some.inj hb
  exact hbase

end MadeOf

/-! ### Functions that take arguments -/

/-- A type all of whose functions take an argument. -/
def Applicable (t : Ty) : Prop :=
  ∀ u, ReflTransGen Part t u → ∀ ret w, u ≠ .arrow [] ret w

theorem Applicable.part {t u : Ty} (h : t.Applicable) (hpart : t.Part u) : u.Applicable :=
  fun v hv => h v (.head hpart hv)

theorem applicable_of_parts {t : Ty} (ht : ∀ ret w, t ≠ .arrow [] ret w) (hparts : ∀ u, t.Part u → u.Applicable) :
    t.Applicable := by
  intro u hreads
  rcases hreads.cases_head with rfl | ⟨v, hpart, hrest⟩
  · exact ht
  · exact hparts v hpart u hrest

theorem hereditary_applicable : Hereditary Applicable where
  var v := applicable_of_parts (by simp) (fun u hpart => by cases hpart)
  growing id := applicable_of_parts (by simp) (fun u hpart => by cases hpart)
  part t u hpart h := h.part hpart
  record fields base refs hfields hbase := by
    refine applicable_of_parts (by simp) (fun u hpart => ?_)
    cases hpart with
    | field hf => exact hfields _ hf
    | base => exact hbase u rfl
  arrow params ret hne hparams hret := by
    refine applicable_of_parts (by simp [hne]) (fun u hpart => ?_)
    cases hpart with
    | param hmem => exact hparams u hmem
    | ret => exact hret

end Ty

/-- The outermost constructor of what a type says, as far as unification compares it. -/
def Reading.shape? {κ : Type} : Reading κ → Option StoreM.Shape
  | .unit => some .unit
  | .tuple items => some (.tuple items.length)
  | .union m n args => some (.union m n args.length)
  | .arrow _ _ => some .arrow
  | .record _ _ => some .record
  | .const _ => none
  | .unknown => none
  | .inProgress => none

theorem Reading.shape?_extend {κ : Type} (fields : Name → Option (Reading κ)) (base : Reading κ) :
    (extend fields base).shape? = some .record := by
  cases base <;> rfl

/-- What a type says has the shape of the type, whatever stands for its variables. -/
theorem Ty.Applicable.shape?_read {κ : Type} {t : Ty} (ht : t.Applicable) {shape : StoreM.Shape}
    (h : StoreM.shape? t = some shape) {η : Env κ}
    (hgrowing : ∀ id, t = .growing id → (η (.record id)).shape? = some .record) :
    (t.read η).shape? = some shape := by
  cases t with
  | unit => exact h
  | tuple items => simpa [Ty.read_tuple, Reading.shape?, StoreM.shape?] using h
  | union m n args w => simpa [Ty.read_union, Reading.shape?, StoreM.shape?] using h
  | arrow params ret w =>
    cases params with
    | nil => exact absurd rfl (ht _ .refl ret w)
    | cons first rest => exact h
  | record fields base w refs =>
    rw [Ty.read_record, Reading.shape?_extend]
    exact h
  | growing id => exact (hgrowing id rfl).trans h
  | var v => cases h
  | unknown => cases h
  | inProgress => cases h

end ElmInference
