import ElmInference.Proofs.Store.Models
import ElmInference.Proofs.Unify.Classes
import ElmInference.Proofs.Unify.Parts

/-!
# Stores of regular types

Regular types have no records and no unknown parts, and their functions take at least one argument; those
without aliases are plain. A world is neat when its store holds nothing but regular types, when each variable is
known by one name, when rigid variables are unsolved, and when the solution of a constrained variable conforms to the
constraint: whatever fits the unsolved variables in it makes the solution belong to the class. Allocating a
variable keeps a world neat, and so does solving a variable by a type that conforms to its class.

A solution of a world is an environment that models its store and in which a closed type that fits stands
for each variable. A neat world has solutions: what stands for the unsolved variables can be chosen.
-/

namespace ElmInference

/-- A type built from unit, variables, unions, tuples and functions of at least one parameter. -/
inductive Ty.Plain : Ty → Prop
  | unit : Plain .unit
  | var {v : TyVar} : Plain (.var v)
  | union {m n : Name} {args : List Ty} : (∀ t ∈ args, Plain t) → Plain (.union m n args none)
  | tuple {items : List Ty} : (∀ t ∈ items, Plain t) → Plain (.tuple items)
  | arrow {params : List Ty} {ret : Ty} : params ≠ [] → (∀ t ∈ params, Plain t) → Plain ret →
      Plain (.arrow params ret none)

/-- A type without records and without unknown parts, whose functions take at least one argument. Other than a
plain type it may be written through aliases. -/
inductive Ty.Regular : Ty → Prop
  | unit : Regular .unit
  | var {v : TyVar} : Regular (.var v)
  | union {m n : Name} {args : List Ty} {w : Option (AliasUse Ty)} : (∀ t ∈ args, Regular t) →
      Regular (.union m n args w)
  | tuple {items : List Ty} : (∀ t ∈ items, Regular t) → Regular (.tuple items)
  | arrow {params : List Ty} {ret : Ty} {w : Option (AliasUse Ty)} : params ≠ [] → (∀ t ∈ params, Regular t) →
      Regular ret → Regular (.arrow params ret w)

inductive Reading.Plain {κ : Type} : Reading κ → Prop
  | unit : Plain .unit
  | const {k : κ} : Plain (.const k)
  | union {m n : Name} {args : List (Reading κ)} : (∀ x ∈ args, Plain x) → Plain (.union m n args)
  | tuple {items : List (Reading κ)} : (∀ x ∈ items, Plain x) → Plain (.tuple items)
  | arrow {param ret : Reading κ} : Plain param → Plain ret → Plain (.arrow param ret)

namespace Ty

theorem Plain.regular {t : Ty} (h : t.Plain) : t.Regular := by
  induction h with
  | unit => exact .unit
  | var => exact .var
  | union _ ih => exact .union ih
  | tuple _ ih => exact .tuple ih
  | arrow hne _ _ ihp ihr => exact .arrow hne ihp ihr

theorem Regular.applicable {t : Ty} (h : t.Regular) : t.Applicable := by
  induction h with
  | unit => exact applicable_of_parts (by simp) (fun u hpart => by cases hpart)
  | var => exact applicable_of_parts (by simp) (fun u hpart => by cases hpart)
  | union _ ih =>
    refine applicable_of_parts (by simp) (fun u hpart => ?_)
    cases hpart with
    | arg hmem => exact ih u hmem
  | tuple _ ih =>
    refine applicable_of_parts (by simp) (fun u hpart => ?_)
    cases hpart with
    | item hmem => exact ih u hmem
  | arrow hne _ _ ihp ihr =>
    refine applicable_of_parts (by simp [hne]) (fun u hpart => ?_)
    cases hpart with
    | param hmem => exact ihp u hmem
    | ret => exact ihr

/-- What stands for its variables does not change the shape of a regular type. -/
theorem Regular.shape?_read {κ : Type} {t : Ty} {shape : StoreM.Shape} (ht : t.Regular)
    (h : StoreM.shape? t = some shape) (η : Env κ) : (t.read η).shape? = some shape := by
  refine ht.applicable.shape?_read h (fun id heq => ?_)
  subst heq
  cases ht

theorem Regular.function {params : List Ty} {ret : Ty} (hparams : ∀ t ∈ params, t.Regular) (hret : ret.Regular) :
    (function params ret).Regular := by
  refine function_closed (fun _ _ => .arrow) (fun all last h => ?_) hparams hret
  cases h with
  | arrow _ hall hlast => exact ⟨hall, hlast⟩

theorem Regular.dropParams {params : List Ty} {ret : Ty} {w : Option (AliasUse Ty)} (count : Nat)
    (h : (Ty.arrow params ret w).Regular) : (dropParams params ret count).Regular := by
  cases h with
  | arrow _ hparams hret =>
    rw [dropParams_eq_function]
    exact .function (fun t ht => hparams t (List.mem_of_mem_drop ht)) hret

structure PlainIn (Q : Set Mention) (t : Ty) : Prop where
  plain : t.Plain
  within : t.Within Q

theorem PlainIn.arrow {Q : Set Mention} {params : List Ty} {ret : Ty} (hne : params ≠ [])
    (hparams : ∀ t ∈ params, t.PlainIn Q) (hret : ret.PlainIn Q) : (Ty.arrow params ret none).PlainIn Q :=
  ⟨.arrow hne (fun t ht => (hparams t ht).plain) hret.plain,
    within_arrow.mpr ⟨fun t ht => (hparams t ht).within, hret.within⟩⟩

theorem plainIn_var {Q : Set Mention} {v : TyVar} : (Ty.var v).PlainIn Q ↔ .var v ∈ Q :=
  ⟨fun h => within_var.mp h.within, fun h => ⟨.var, within_var.mpr h⟩⟩

structure RegularIn (Q : Set Mention) (t : Ty) : Prop where
  regular : t.Regular
  within : t.Within Q

theorem PlainIn.regular {Q : Set Mention} {t : Ty} (h : t.PlainIn Q) : t.RegularIn Q :=
  ⟨h.plain.regular, h.within⟩

theorem RegularIn.mono {Q Q' : Set Mention} {t : Ty} (h : t.RegularIn Q) (hQ : Q ⊆ Q') : t.RegularIn Q' :=
  ⟨h.regular, h.within.mono hQ⟩

theorem RegularIn.dropParams {Q : Set Mention} {params : List Ty} {ret : Ty} {w : Option (AliasUse Ty)}
    (count : Nat) (h : (Ty.arrow params ret w).RegularIn Q) : (Ty.dropParams params ret count).RegularIn Q :=
  ⟨h.regular.dropParams count, within_dropParams count h.within⟩

theorem regularIn_var {Q : Set Mention} {v : TyVar} : (Ty.var v).RegularIn Q ↔ .var v ∈ Q :=
  ⟨fun h => within_var.mp h.within, fun h => ⟨.var, within_var.mpr h⟩⟩

theorem plain_specimen (v : TyVar) : v.specimen.Plain := by
  unfold TyVar.specimen
  split
  · exact .const
  · split <;> constructor <;> simp

end Ty

/-! ### Parts say less -/

namespace Reading

variable {κ : Type} {xs : List (Reading κ)} {ret : Reading κ}

theorem Plain.arrows (hxs : ∀ x ∈ xs, x.Plain) (hret : ret.Plain) : (arrows xs ret).Plain := by
  induction xs with
  | nil => exact hret
  | cons x xs ih =>
    exact .arrow (hxs x List.mem_cons_self) (ih (fun y hy => hxs y (List.mem_cons_of_mem _ hy)))

theorem sizeOf_le_arrows (xs : List (Reading κ)) (ret : Reading κ) :
    sizeOf ret ≤ sizeOf (arrows xs ret) := by
  induction xs with
  | nil => exact Nat.le_refl _
  | cons x xs ih =>
    have hcons : sizeOf (arrows (x :: xs) ret) = 1 + sizeOf x + sizeOf (arrows xs ret) := rfl
    omega

theorem sizeOf_lt_arrows (h : xs ≠ []) : sizeOf ret < sizeOf (arrows xs ret) := by
  obtain ⟨x, xs, rfl⟩ := List.exists_cons_of_ne_nil h
  have hcons : sizeOf (arrows (x :: xs) ret) = 1 + sizeOf x + sizeOf (arrows xs ret) := rfl
  have hle := sizeOf_le_arrows xs ret
  omega

theorem sizeOf_param_lt_arrows {x : Reading κ} (h : x ∈ xs) : sizeOf x < sizeOf (arrows xs ret) := by
  induction xs with
  | nil => cases h
  | cons y xs ih =>
    have hcons : sizeOf (arrows (y :: xs) ret) = 1 + sizeOf y + sizeOf (arrows xs ret) := rfl
    rcases List.mem_cons.mp h with rfl | h
    · omega
    · have := ih h
      omega

end Reading

namespace Store

open Relation StoreM

variable {s s' : Store} {κ : Type} {η : Env κ}

/-- What is read in one step says less, except behind a variable, which says what its solution says. -/
theorem sizeOf_read_child (hmodels : s.Models η) {t u : Ty} (ht : t.Regular) (h : s.Child t u) :
    sizeOf (u.read η) < sizeOf (t.read η) ∨
      (∃ v, t = .var v) ∧ sizeOf (u.read η) = sizeOf (t.read η) := by
  cases h with
  | solution hsol => exact .inr ⟨⟨_, rfl⟩, by rw [Ty.read_var, hmodels.solution _ _ hsol]⟩
  | arg hmem =>
    have hlt := List.sizeOf_lt_of_mem (List.mem_map_of_mem (f := Ty.read η) hmem)
    rw [Ty.read_union, Reading.union.sizeOf_spec]
    exact .inl (by omega)
  | item hmem =>
    have hlt := List.sizeOf_lt_of_mem (List.mem_map_of_mem (f := Ty.read η) hmem)
    rw [Ty.read_tuple, Reading.tuple.sizeOf_spec]
    exact .inl (by omega)
  | param hmem =>
    rw [Ty.read_arrow]
    exact .inl (Reading.sizeOf_param_lt_arrows (List.mem_map_of_mem hmem))
  | ret =>
    cases ht with
    | arrow hne _ _ =>
      rw [Ty.read_arrow]
      exact .inl (Reading.sizeOf_lt_arrows (by simpa using hne))
  | field _ => cases ht
  | base => cases ht
  | growingField _ _ => cases ht
  | growingBase _ => cases ht

/-! ### Neat worlds -/

/-- Whether a type belongs to a class as soon as the unsolved variables in it stand for what fits them. -/
def Conforms (s : Store) (c : Typeclass) (t : Ty) : Prop :=
  ∀ η : Env Rigid, s.Models η →
    (∀ v, ReflTransGen s.Child t (.var v) → s.Unsolved v.id → v.Fits (η (.var v.id))) →
    c.Contains (t.read η)

/-- A store that holds regular types over a set of variables and keeps what their names promise. -/
structure Neat (w : World) : Prop where
  sane : w.1.Sane
  records : w.1.records = #[]
  owned : ∀ r ∈ w.2, ∃ v, r = .var v ∧ v.id < w.1.size
  regular : ∀ id t, w.1.solution? id = some t → t.RegularIn w.2
  named : ∀ v u, .var v ∈ w.2 → .var u ∈ w.2 → v.id = u.id → v = u
  rigid : ∀ v, .var v ∈ w.2 → v.rigid = true → w.1.Unsolved v.id
  conforms : ∀ v c, .var v ∈ w.2 → v.rigid = false → v.typeclass = some c →
    w.1.Conforms c (.var v)

variable {Q Q' : Set Mention}

theorem Neat.tidy (h : Neat (s, Q)) : Tidy (s, Q) := by
  refine ⟨h.sane.closed, h.sane.loopfree, ⟨fun v t _ hsol => (h.regular v.id t hsol).2, ?_⟩, ?_⟩
  · intro id g _ hrec
    have hlt := lt_size_of_record? hrec
    rw [h.records] at hlt
    cases hlt
  · intro r hr
    obtain ⟨v, rfl, hlt⟩ := h.owned r hr
    exact hlt

theorem Neat.var_lt (h : Neat (s, Q)) {v : TyVar} (hv : .var v ∈ Q) : v.id < s.size :=
  h.tidy.owned _ hv

theorem Neat.flexible_of_some (h : Neat (s, Q)) {v : TyVar} {t : Ty} (hv : .var v ∈ Q)
    (hsol : s.solution? v.id = some t) : v.rigid = false := by
  refine Bool.eq_false_iff.mpr (fun hrigid => ?_)
  exact not_unsolved_of_some hsol (h.rigid v hv hrigid)

/-- What is read in a regular type is regular, and talks about the same variables. -/
theorem Neat.child (h : Neat (s, Q)) {t u : Ty} (ht : t.RegularIn Q) (hchild : s.Child t u) :
    u.RegularIn Q := by
  obtain ⟨hplain, hwithin⟩ := ht
  cases hplain with
  | unit => cases hchild
  | var =>
    cases hchild with
    | solution hsol => exact h.regular _ _ hsol
  | union hargs =>
    cases hchild with
    | arg hmem => exact ⟨hargs _ hmem, Ty.within_union.mp hwithin _ hmem⟩
  | tuple hitems =>
    cases hchild with
    | item hmem => exact ⟨hitems _ hmem, Ty.within_tuple.mp hwithin _ hmem⟩
  | arrow _ hparams hret =>
    cases hchild with
    | param hmem => exact ⟨hparams _ hmem, (Ty.within_arrow.mp hwithin).1 _ hmem⟩
    | ret => exact ⟨hret, (Ty.within_arrow.mp hwithin).2⟩

theorem Neat.reads (h : Neat (s, Q)) {t u : Ty} (ht : t.RegularIn Q)
    (hreads : ReflTransGen s.Child t u) : u.RegularIn Q := by
  induction hreads with
  | refl => exact ht
  | tail _ hchild ih => exact h.child ih hchild

/-- A variable that can be read in a regular type other than itself says less than the type. -/
theorem Neat.sizeOf_lt_of_leads (h : Neat (s, Q)) (hmodels : s.Models η) {t : Ty} {id : VarId}
    (ht : t.RegularIn Q) (hne : ∀ v, t ≠ .var v) (hleads : s.Leads false t (.var id)) :
    sizeOf (η (.var id)) < sizeOf (t.read η) := by
  have hle : ∀ u, ReflTransGen s.Child t u →
      sizeOf (u.read η) < sizeOf (t.read η) ∨ u = t := by
    intro u hreads
    induction hreads with
    | refl => exact .inr rfl
    | tail hbefore hchild ih =>
      have hpart := sizeOf_read_child hmodels (h.reads ht hbefore).1 hchild
      rcases ih with hlt | rfl
      · exact .inl (by omega)
      · rcases hpart with hlt | ⟨⟨v, rfl⟩, -⟩
        · exact .inl hlt
        · exact absurd rfl (hne v)
  obtain ⟨u, ⟨r, hnode, hu⟩, hreads⟩ := reads_of_leads hleads
  cases r with
  | var v =>
    cases hnode
    cases hu
    exact (hle _ hreads).resolve_right (fun heq => hne v heq.symm)
  | record id => cases hnode
  | field name => cases hnode
  | hole => cases hnode

/-- Readings depend on the variables of the store only. -/
theorem Neat.read_congr (h : Neat (s, Q)) {η η' : Env κ} {t : Ty} (ht : t.Within Q)
    (hagree : ∀ id, id < s.size → η' (.var id) = η (.var id)) : t.read η' = t.read η := by
  refine Ty.read_congr (fun n hn => ?_)
  obtain ⟨r, hr, hnode⟩ := hn
  obtain ⟨v, rfl, hlt⟩ := h.owned r (ht r hr)
  cases hnode
  exact hagree v.id hlt

theorem Neat.models_congr (h : Neat (s, Q)) {η η' : Env κ} (hmodels : s.Models η)
    (hagree : ∀ id, id < s.size → η' (.var id) = η (.var id)) : s.Models η' := by
  refine ⟨fun id t hsol => ?_, fun id g hrec => ?_⟩
  · rw [hagree id (lt_size_of_solution? hsol), h.read_congr (h.regular id t hsol).2 hagree]
    exact hmodels.solution id t hsol
  · have hlt := lt_size_of_record? hrec
    rw [h.records] at hlt
    cases hlt

/-- A smaller set of variables will do, as long as the store does not leave it. -/
theorem Neat.restrict (h : Neat (s, Q)) (hsubset : Q' ⊆ Q)
    (hentries : ∀ id t, s.solution? id = some t → t.Within Q') : Neat (s, Q') where
  sane := h.sane
  records := h.records
  owned r hr := h.owned r (hsubset hr)
  regular id t hsol := ⟨(h.regular id t hsol).1, hentries id t hsol⟩
  named v u hv hu := h.named v u (hsubset hv) (hsubset hu)
  rigid v hv := h.rigid v (hsubset hv)
  conforms v c hv := h.conforms v c (hsubset hv)

/-! ### Steps between neat worlds -/

theorem Conforms.later {c : Typeclass} {t : Ty} (h : s.Conforms c t) (hext : s.Extends s')
    (hfits : ∀ η : Env Rigid, s'.Models η →
      (∀ v, ReflTransGen s'.Child t (.var v) → s'.Unsolved v.id → v.Fits (η (.var v.id))) →
      ∀ v, ReflTransGen s.Child t (.var v) → s.Unsolved v.id → v.Fits (η (.var v.id))) :
    s'.Conforms c t :=
  fun η hmodels hlater => h η (hmodels.earlier hext) (hfits η hmodels hlater)

theorem conforms_of_unsolved {v : TyVar} {c : Typeclass} (hun : s.Unsolved v.id) (hflex : v.rigid = false)
    (hc : v.typeclass = some c) : s.Conforms c (.var v) :=
  fun _ _ hfits => (hfits v .refl hun).flexible hflex c hc

theorem neat_empty : Neat (({} : Store), ∅) := by
  refine ⟨sane_empty, rfl, fun r hr => ?_, fun id t hsol => ?_, fun v u hv => ?_, fun v hv => ?_,
    fun v c hv => ?_⟩
  · cases hr
  · rw [solution?_empty] at hsol
    cases hsol
  · cases hv
  · cases hv
  · cases hv

theorem Neat.fresh (h : Neat (s, Q)) (name : Name) (rigid : Bool) :
    Neat (s.extended, insert (.var ⟨s.size, name, rigid⟩) Q) := by
  refine ⟨((Move.fresh name rigid).tidy h.tidy).sane, h.records, ?_, ?_, ?_, ?_, ?_⟩
  · rintro r (rfl | hr)
    · exact ⟨_, rfl, by simp⟩
    · obtain ⟨v, rfl, hlt⟩ := h.owned r hr
      exact ⟨v, rfl, by simpa using Nat.lt_succ_of_lt hlt⟩
  · intro id t hsol
    obtain ⟨hplain, hwithin⟩ := h.regular id t (by simpa using hsol)
    exact ⟨hplain, hwithin.mono (Set.subset_insert _ _)⟩
  · exact eq_of_mem_insert_var h.tidy.id_ne_size h.named
  · exact unsolved_of_mem_insert_fresh h.rigid
  · rintro v c (hv | hv) hflex hc
    · obtain rfl := Mention.var.inj hv
      exact conforms_of_unsolved (unsolved_extended_self s) hflex hc
    · refine (h.conforms v c hv hflex hc).later (extends_extended s) (fun η _ hfits u hreads hun => ?_)
      exact hfits u ((extends_extended s).reads hreads) hun.extended

/-- A type that conforms to a class does so when a variable is solved that cannot be read in it. -/
theorem Conforms.solved {c : Typeclass} {t u : Ty} {id : VarId} (h : s.Conforms c t)
    (hun : s.Unsolved id) (hnot : ¬ s.Leads false t (.var id)) : (s.solved id u).Conforms c t := by
  refine h.later (extends_solved u hun) (fun η _ hfits v hreads hv => ?_)
  have hne : v.id ≠ id := by
    rintro rfl
    exact hnot (leads_of_reads_var hreads)
  exact hfits v ((extends_solved u hun).reads hreads) (hv.solved_of_ne u hne)

theorem Neat.solve (h : Neat (s, Q)) {v : TyVar} {t : Ty} (hun : s.Unsolved v.id) (hv : .var v ∈ Q)
    (hflex : v.rigid = false) (ht : t.RegularIn Q) (hnot : ¬ s.Leads false t (.var v.id))
    (hconforms : ∀ c, v.typeclass = some c → s.Conforms c t) : Neat (s.solved v.id t, Q) := by
  have hext := extends_solved t hun
  have hsol : (s.solved v.id t).solution? v.id = some t := solution?_solved_self t hun.1
  refine ⟨((Move.solve hun hflex hv ht.within hnot).tidy h.tidy).sane, h.records, ?_, ?_, h.named, ?_, ?_⟩
  · intro r hr
    obtain ⟨u, rfl, hlt⟩ := h.owned r hr
    exact ⟨u, rfl, by simpa using hlt⟩
  · intro id u hu
    rcases solution?_solved_cases hu with ⟨-, rfl⟩ | hold
    · exact ht
    · exact h.regular id u hold
  · intro u hu hrigid
    refine (h.rigid u hu hrigid).solved_of_ne t (fun hid => ?_)
    rw [h.named u v hu hv hid, hflex] at hrigid
    cases hrigid
  · intro u c hu huflex hc
    refine (h.conforms u c hu huflex hc).later hext (fun η hmodels hfits x hreads hx => ?_)
    have hreads' := hext.reads hreads
    by_cases hid : x.id = v.id
    · -- what stands behind the solved variable is read from where the variable was read
      have hxQ : .var x ∈ Q := Ty.regularIn_var.mp (h.reads (Ty.regularIn_var.mpr hu) hreads)
      obtain rfl := h.named x v hxQ hv hid
      refine TyVar.fits_of_contains hflex (fun d hd => ?_)
      rw [hmodels.solution _ _ hsol]
      refine (hconforms d hd).solved hun hnot η hmodels (fun y hy => hfits y ?_)
      exact hreads'.trans (.head (.solution hsol) hy)
    · exact hfits x hreads' (hx.solved_of_ne t hid)

/-- What conforms to a class does so in every later neat store. -/
theorem Neat.conforms_later (h' : Neat (s', Q')) (h : Neat (s, Q)) (hext : s.Extends s') (hsubset : Q ⊆ Q')
    {c : Typeclass} {t : Ty} (ht : t.RegularIn Q) (hconforms : s.Conforms c t) :
    s'.Conforms c t := by
  refine hconforms.later hext (fun η hmodels hfits v hreads hv => ?_)
  have hvQ : .var v ∈ Q' := hsubset (Ty.regularIn_var.mp (h.reads ht hreads))
  have hreads' := hext.reads hreads
  rcases unsolved_or_some (h'.var_lt hvQ) with hun | ⟨u, hsol⟩
  · exact hfits v hreads' hun
  · have hflex := h'.flexible_of_some hvQ hsol
    refine TyVar.fits_of_contains hflex (fun d hd => ?_)
    exact h'.conforms v d hvQ hflex hd η hmodels (fun x hx => hfits x (hreads'.trans hx))

/-! ### Solutions -/

/-- An environment that gives each variable of a store a closed type of `K` that fits it, and solved
variables what their solutions say. -/
structure Solves (K : Set (Reading Rigid)) (w : World) (η : Env Rigid) : Prop where
  models : w.1.Models η
  inside : ∀ id, id < w.1.size → η (.var id) ∈ K
  fits : ∀ v, .var v ∈ w.2 → v.Fits (η (.var v.id))

variable {K : Set (Reading Rigid)} {η : Env Rigid}

theorem Solves.congr (h : Solves K (s, Q) η) (hneat : Neat (s, Q)) {η' : Env Rigid}
    (hagree : ∀ id, id < s.size → η' (.var id) = η (.var id)) : Solves K (s, Q) η' := by
  refine ⟨hneat.models_congr h.models hagree, fun id hid => ?_, fun v hv => ?_⟩
  · rw [hagree id hid]
    exact h.inside id hid
  · rw [hagree v.id (hneat.var_lt hv)]
    exact h.fits v hv

/-- A new variable can stand for whatever fits it. -/
theorem Solves.fresh (h : Solves K (s, Q) η) (hneat : Neat (s, Q)) {name : Name} {rigid : Bool}
    {x : Reading Rigid} (hx : x ∈ K) (hfits : TyVar.Fits ⟨s.size, name, rigid⟩ x) :
    Solves K (s.extended, insert (.var ⟨s.size, name, rigid⟩) Q) (Function.update η (.var s.size) x) ∧
      ∀ id, id < s.size → Function.update η (.var s.size) x (.var id) = η (.var id) := by
  have hagree : ∀ id, id < s.size → Function.update η (.var s.size) x (.var id) = η (.var id) := by
    intro id hid
    exact Function.update_of_ne (fun heq => Nat.ne_of_lt hid (Node.var.inj heq)) x η
  have hold := h.congr hneat hagree
  refine ⟨⟨⟨fun id t hsol => hold.models.solution id t (by simpa using hsol), hold.models.record⟩,
    fun id hid => ?_, ?_⟩, hagree⟩
  · by_cases heq : id = s.size
    · rw [heq, Function.update_self]
      exact hx
    · have hlt : id < s.size := by
        rw [size_extended] at hid
        omega
      exact hold.inside id hlt
  · rintro v (hv | hv)
    · obtain rfl := Mention.var.inj hv
      rw [Function.update_self]
      exact hfits
    · exact hold.fits v hv

theorem Solves.solve (h : Solves K (s, Q) η) {id : VarId} {t : Ty} (heq : η (.var id) = t.read η) :
    Solves K (s.solved id t, Q) η := by
  refine ⟨⟨fun other u hsol => ?_, h.models.record⟩, fun other hother => ?_, h.fits⟩
  · rcases solution?_solved_cases hsol with ⟨rfl, rfl⟩ | hold
    · exact heq
    · exact h.models.solution other u hold
  · exact h.inside other (by simpa using hother)

/-- Regular types say something plain when the unsolved variables do. -/
theorem Neat.plain_read (h : Neat (s, Q)) (hmodels : s.Models η)
    (hfree : ∀ id, s.solution? id = none → (η (.var id)).Plain) {t : Ty} (ht : t.RegularIn Q) :
    (t.read η).Plain := by
  induction hn : s.depth t using Nat.strongRecOn generalizing t with
  | _ n ih =>
    have hpart : ∀ u, s.Child t u → (u.read η).Plain := by
      intro u hchild
      exact ih _ (hn ▸ depth_lt_of_child h.sane.loopfree hchild) (h.child ht hchild) rfl
    cases ht.regular with
    | unit => exact .unit
    | @var v =>
      cases hsol : s.solution? v.id with
      | none => exact hfree v.id hsol
      | some u =>
        rw [Ty.read_var, hmodels.solution _ _ hsol]
        exact hpart u (.solution hsol)
    | union _ =>
      rw [Ty.read_union]
      refine .union (List.forall_mem_map.mpr (fun u hu => hpart u (.arg hu)))
    | tuple _ =>
      rw [Ty.read_tuple]
      refine .tuple (List.forall_mem_map.mpr (fun u hu => hpart u (.item hu)))
    | arrow _ _ _ =>
      rw [Ty.read_arrow]
      exact .arrows (List.forall_mem_map.mpr (fun u hu => hpart u (.param hu))) (hpart _ .ret)

/-- What fits the unsolved variables makes the solved ones fit. -/
theorem Neat.fits_of_unsolved (h : Neat (s, Q)) (hmodels : s.Models η)
    (hfits : ∀ v, .var v ∈ Q → s.Unsolved v.id → v.Fits (η (.var v.id))) {v : TyVar} (hv : .var v ∈ Q) :
    v.Fits (η (.var v.id)) := by
  rcases unsolved_or_some (h.var_lt hv) with hun | ⟨t, hsol⟩
  · exact hfits v hv hun
  · have hflex := h.flexible_of_some hv hsol
    refine TyVar.fits_of_contains hflex (fun c hc => ?_)
    refine h.conforms v c hv hflex hc η hmodels (fun u hreads hun => hfits u ?_ hun)
    exact Ty.regularIn_var.mp (h.reads (Ty.regularIn_var.mpr hv) hreads)

open Classical in
/-- What stands for a variable that may stand for anything that fits. -/
noncomputable def chosen (Q : Set Mention) (id : VarId) : Reading Rigid :=
  if h : ∃ v, .var v ∈ Q ∧ v.id = id then h.choose.specimen else .unit

theorem plain_chosen (Q : Set Mention) (id : VarId) : (chosen Q id).Plain := by
  unfold chosen
  split
  · exact Ty.plain_specimen _
  · exact .unit

theorem Neat.fits_chosen (h : Neat (s, Q)) {v : TyVar} (hv : .var v ∈ Q) : v.Fits (chosen Q v.id) := by
  have hex : ∃ u, .var u ∈ Q ∧ u.id = v.id := ⟨v, hv, rfl⟩
  have heq : hex.choose = v := h.named _ v hex.choose_spec.1 hv hex.choose_spec.2
  unfold chosen
  rw [dif_pos hex, heq]
  exact v.fits_specimen

/-- A neat world has a solution for every choice of what stands for the unsolved variables. -/
theorem Neat.exists_solves_of (h : Neat (s, Q)) (hK : ∀ x, x.Plain → x ∈ K) {free : VarId → Reading Rigid}
    (hplain : ∀ id, (free id).Plain) (hfits : ∀ v, .var v ∈ Q → s.Unsolved v.id → v.Fits (free v.id)) :
    ∃ η, Solves K (s, Q) η ∧ ∀ id, s.solution? id = none → η (.var id) = free id := by
  obtain ⟨η, hmodels, hfree⟩ := exists_models h.sane.loopfree free
  have hunsolved : ∀ id, s.solution? id = none → (η (.var id)).Plain := by
    intro id hsol
    rw [hfree id hsol]
    exact hplain id
  refine ⟨η, ⟨hmodels, fun id hid => hK _ ?_, fun v hv => ?_⟩, hfree⟩
  · cases hsol : s.solution? id with
    | none => exact hunsolved id hsol
    | some t =>
      rw [hmodels.solution id t hsol]
      exact h.plain_read hmodels hunsolved (h.regular id t hsol)
  · refine h.fits_of_unsolved hmodels (fun u hu hun => ?_) hv
    rw [hfree u.id hun.2]
    exact hfits u hu hun

/-- A neat world has a solution. -/
theorem Neat.exists_solves (h : Neat (s, Q)) (hK : ∀ x, x.Plain → x ∈ K) : ∃ η, Solves K (s, Q) η := by
  obtain ⟨η, hsolves, -⟩ := h.exists_solves_of hK (plain_chosen Q) (fun v hv _ => h.fits_chosen hv)
  exact ⟨η, hsolves⟩

end Store

end ElmInference
