import ElmInference.Proofs.Infer.WrittenOut
import ElmInference.Proofs.Unify.Footprint

/-!
# Instances of a generalized type

A type is generalized in its zonked form, in which every variable is unsolved. An instance puts new variables for those
that the environment does not know, so it is written out as soon as it is made, and two instances have nothing in common
but what the environment knows. If there is nothing to quantify, the type is shared as it is, and all of its variables
are known to the environment.

Whatever happens later to variables that the second instance does not lead to, it is written out as before.
-/

namespace ElmInference

open Relation

namespace Ty

variable {f g : TyVar → Option Ty} {t : Ty}

/-! ### Substitutions -/

theorem substAlias_congr {w : Option (AliasUse Ty)} (h : ∀ t ∈ aliasArgs w, t.subst f = t.subst g) :
    substAlias f w = substAlias g w := by
  rcases w with _ | ⟨m, n, args⟩
  · rfl
  · have hargs : args.map (subst f) = args.map (subst g) := List.map_congr_left h
    rw [substAlias, substAlias, substList_eq_map, substList_eq_map, hargs]

/-- Substitutions that agree on the variables of a type do the same to it. -/
theorem subst_congr (h : ∀ v, .var v ∈ t.mentions true → f v = g v) : t.subst f = t.subst g := by
  have hlist : ∀ {ts : List Ty}, (∀ t ∈ ts, t.subst f = t.subst g) → substList f ts = substList g ts := by
    intro ts hts
    rw [substList_eq_map, substList_eq_map, List.map_congr_left hts]
  have hpart : ∀ {t u : Ty}, (∀ v, .var v ∈ t.mentions true → f v = g v) → u.mentions true ⊆ t.mentions true →
      ∀ v, .var v ∈ u.mentions true → f v = g v :=
    fun h hsub v hv => h v (hsub hv)
  induction t using inductParts with
  | unit => rfl
  | unknown => rfl
  | inProgress => rfl
  | growing id => rfl
  | var v => rw [subst, subst, h v List.mem_cons_self]
  | union m n args w iha ihw =>
    rw [subst, subst, hlist (fun u hu => iha u hu (hpart h (Part.mentions_subset (.arg hu)))),
      substAlias_congr (fun u hu => ihw u hu (hpart h (mentions_aliasArg_subset hu)))]
  | tuple items ih =>
    rw [subst, subst, hlist (fun u hu => ih u hu (hpart h (Part.mentions_subset (.item hu))))]
  | record fields base w refs ihf ihb ihw =>
    have hfields : substFields f fields = substFields g fields := by
      rw [substFields_eq_map, substFields_eq_map]
      refine List.map_congr_left (fun field hf => ?_)
      rw [ihf field hf (hpart h (Part.mentions_subset (.field hf)))]
    have hbase : substBase f base = substBase g base := by
      cases base with
      | none => rfl
      | some b => rw [substBase, substBase, ihb b rfl (hpart h (Part.mentions_subset .base))]
    rw [subst, subst, hfields, hbase, substAlias_congr (fun u hu => ihw u hu (hpart h (mentions_aliasArg_subset hu)))]
  | arrow params ret w ihp ihr ihw =>
    rw [subst, subst, hlist (fun u hu => ihp u hu (hpart h (Part.mentions_subset (.param hu)))),
      ihr (hpart h (Part.mentions_subset .ret)),
      substAlias_congr (fun u hu => ihw u hu (hpart h (mentions_aliasArg_subset hu)))]

theorem map_subst_self {ts : List Ty} (h : ∀ t ∈ ts, t.subst f = t) : ts.map (subst f) = ts := by
  rw [List.map_congr_left h, List.map_id']

theorem substAlias_self {w : Option (AliasUse Ty)} (h : ∀ t ∈ aliasArgs w, t.subst f = t) : substAlias f w = w := by
  rcases w with _ | ⟨m, n, args⟩
  · rfl
  · have hargs : args.map (subst f) = args := map_subst_self h
    rw [substAlias, substList_eq_map, hargs]

/-- In a type as the constructors build it, nothing changes when no variable has an image. -/
theorem Built.subst_none (h : t.Built) : t.subst (fun _ => none) = t := by
  induction h with
  | unit => rfl
  | unknown => rfl
  | inProgress => rfl
  | growing id => rfl
  | var v => rfl
  | union _ _ iha ihw => rw [subst, substList_eq_map, map_subst_self iha, substAlias_self ihw]
  | tuple _ ih => rw [subst, substList_eq_map, map_subst_self ih]
  | @record fields base w refs _ _ hflat _ ihf ihb ihw =>
    have hfields : substFields (fun _ => none) fields = fields := by
      rw [substFields_eq_map, List.map_congr_left (fun field hf => by rw [ihf field hf]), List.map_id']
    have hbase : substBase (fun _ => none) base = base := by
      cases base with
      | none => rfl
      | some b => rw [substBase, ihb b rfl]
    rw [subst, hfields, hbase, substAlias_self ihw, recordWith_of_not_record hflat]
    cases w <;> rfl
  | @arrow params ret w hne _ _ hfolded _ ihp ihr ihw =>
    rw [subst, substList_eq_map, map_subst_self ihp, ihr, substAlias_self ihw, function_of_not_bare hne hfolded]
    cases w <;> rfl

/-- The constructors build what a substitution makes of a type. -/
theorem Built.subst (h : t.Built) (hf : ∀ v u, f v = some u → u.Built) : (t.subst f).Built := by
  have hlist : ∀ {ts : List Ty}, (∀ t ∈ ts, (t.subst f).Built) → ∀ u ∈ ts.map (Ty.subst f), u.Built := by
    intro ts hts u hu
    obtain ⟨t, ht, rfl⟩ := List.mem_map.mp hu
    exact hts t ht
  have halias : ∀ {w : Option (AliasUse Ty)}, (∀ t ∈ aliasArgs w, (t.subst f).Built) →
      ∀ u ∈ aliasArgs (substAlias f w), u.Built := by
    intro w hw
    rw [aliasArgs_substAlias]
    exact hlist hw
  induction h with
  | unit => exact .unit
  | unknown => exact .unknown
  | inProgress => exact .inProgress
  | growing id => exact .growing id
  | var v =>
    rw [Ty.subst]
    cases hv : f v with
    | none => exact .var v
    | some u => exact hf v u hv
  | union _ _ iha ihw =>
    rw [Ty.subst, substList_eq_map]
    exact .union (hlist iha) (halias ihw)
  | tuple _ ih =>
    rw [Ty.subst, substList_eq_map]
    exact .tuple (hlist ih)
  | @record fields base w refs _ _ _ _ ihf ihb ihw =>
    rw [Ty.subst, substFields_eq_map]
    refine (built_recordWith (fun field hfield => ?_) (fun u hu => ?_) _).writtenAs? (halias ihw)
    · obtain ⟨field, hmem, rfl⟩ := List.mem_map.mp hfield
      exact ihf field hmem
    · cases base with
      | none => cases hu
      | some b =>
        cases hu
        exact ihb b rfl
  | arrow _ _ _ _ _ ihp ihr ihw =>
    rw [Ty.subst, substList_eq_map]
    exact (built_function (hlist ihp) ihr).writtenAs? (halias ihw)

end Ty

namespace Store

variable {s s' : Store}

/-! ### New variables -/

/-- Whether nothing has happened to a store but that variables were allocated. -/
structure Widens (s s' : Store) : Prop where
  size : s.size ≤ s'.size
  solution : ∀ id, s'.solution? id = s.solution? id
  records : s'.records = s.records

theorem Widens.refl (s : Store) : s.Widens s :=
  ⟨Nat.le_refl _, fun _ => rfl, rfl⟩

theorem Widens.trans {s₁ : Store} (h : s.Widens s₁) (h' : s₁.Widens s') : s.Widens s' :=
  ⟨Nat.le_trans h.size h'.size, fun id => (h'.solution id).trans (h.solution id), h'.records.trans h.records⟩

theorem Widens.sane (h : s.Widens s') (hsane : s.Sane) : s'.Sane := by
  have hhas : ∀ r, s.Has r → s'.Has r := by
    rintro (v | id | name | _) hr
    · exact Nat.lt_of_lt_of_le hr h.size
    · exact Nat.lt_of_lt_of_eq hr (congrArg Array.size h.records).symm
    · trivial
    · trivial
  refine ⟨⟨fun v t _ hsol r hr => ?_, fun id g _ hrec r hr => ?_⟩, fun n hloop => hsane.loopfree n ?_⟩
  · rw [h.solution] at hsol
    exact hhas r (hsane.closed.owns_solution hsol r hr)
  · rw [h.records] at hrec
    exact hhas r (hsane.closed.has_link hrec r hr)
  · refine TransGen.mono (fun n m hedge => ?_) _ _ hloop
    obtain ⟨r, hr, hnode⟩ := hedge
    refine ⟨r, ?_, hnode⟩
    cases n with
    | var id => rwa [links, h.solution] at hr
    | record id => rwa [links, h.records] at hr

theorem Widens.unsolved (h : s.Widens s') {id : VarId} (hun : s.Unsolved id) : s'.Unsolved id :=
  ⟨Nat.lt_of_lt_of_le hun.1 h.size, (h.solution id).trans hun.2⟩

theorem Widens.writtenOut (h : s.Widens s') {t : Ty} (ht : s.WrittenOut t) : s'.WrittenOut t := by
  refine ⟨ht.built, fun r hr => ?_⟩
  have hleaves := ht.leaves r hr
  cases r with
  | var v => exact h.unsolved hleaves
  | record id => exact hleaves
  | field name => trivial
  | hole => trivial

theorem Widens.zonk (h : s.Widens s') {t z : Ty} (hz : s.zonk t = .ok z) : s'.zonk t = .ok z := by
  have hsame : ∀ n, s.Leads true t n → s.SameEntry s' n := by
    intro n hn
    have hhas := hasNode_of_zonkAt hz hn
    constructor
    · rintro id rfl
      rw [solution_of_lt hhas, solution_of_lt (Nat.lt_of_lt_of_le hhas h.size), h.solution]
    · rintro id rfl
      rw [Store.record, Store.record, h.records]
  rw [Store.zonk, zonkAt_congr hsame]
  exact zonkAt_mono (Nat.add_le_add h.size (Nat.le_of_eq (congrArg Array.size h.records).symm)) hz

theorem widens_freshCopies (vars : List TyVar) (s : Store) : s.Widens (Scheme.freshCopies vars s).2 :=
  ⟨Nat.le.intro (Scheme.size_freshCopies vars s).symm, Scheme.solution?_freshCopies vars s, Scheme.records_freshCopies vars s⟩

theorem exists_var_of_holds {aliases : Bool} {t : Ty} {id : VarId} (h : t.Holds aliases (.var id)) :
    ∃ v : TyVar, .var v ∈ t.mentions aliases ∧ v.id = id := by
  obtain ⟨r, hr, hnode⟩ := h
  cases r with
  | var v =>
    cases hnode
    exact ⟨v, hr, rfl⟩
  | record id => cases hnode
  | field name => cases hnode
  | hole => cases hnode

/-- The only nodes that a type which is written out leads to are the variables in it. -/
theorem WrittenOut.holds_of_leads {t : Ty} (h : s.WrittenOut t) {n : Node} (hn : s.Leads true t n) : t.Holds true n := by
  obtain ⟨m, ⟨r, hr, hm⟩, hpath⟩ := hn
  rcases hpath.cases_head with rfl | ⟨k, ⟨r', hr', -⟩, -⟩
  · exact ⟨r, hr, hm⟩
  · have hleaves := h.leaves r hr
    cases r with
    | var v =>
      cases hm
      rw [links, hleaves.2] at hr'
      cases hr'
    | record id => exact hleaves.elim
    | field name => cases hm
    | hole => cases hm

/-! ### Calls that have nothing to do with a type -/

/-- One call on types in which no unsolved variable can be read that a given type leads to. -/
def CallsAside (i : Ty) (s s' : Store) : Prop :=
  ∃ a e, s.Owns a ∧ s.Owns e ∧ s.Clear a e i ∧ s.Call a e s'

/-- A type is written out as before after any number of calls that have nothing to do with it. -/
theorem zonk_of_callsAside {i z : Ty} (hsane : s.Sane) (hz : s.zonk i = .ok z)
    (hcalls : ReflTransGen (CallsAside i) s s') : s'.Sane ∧ s'.zonk i = .ok z := by
  induction hcalls with
  | refl => exact ⟨hsane, hz⟩
  | tail _ hcall ih =>
    obtain ⟨hsane₁, hz₁⟩ := ih
    obtain ⟨a, e, ha, he, hclear, hcall⟩ := hcall
    exact ⟨hcall.sane hsane₁ ha he, (hcall.confined hsane₁ ha he).zonk hclear hz₁⟩

end Store

namespace Scheme

variable {s s₀ : Store} {t z : Ty} {known : List VarId}

/-! ### Instances -/

/-- The variables of a type that an environment does not know. -/
def quantified (known : List VarId) (z : Ty) : List TyVar :=
  z.vars.filter (fun v => !known.contains v.id)

theorem mem_quantified {v : TyVar} : v ∈ quantified known z ↔ v ∈ z.vars ∧ v.id ∉ known := by
  simp [quantified]

theorem find?_quantified {v : TyVar} (hv : v ∈ quantified known z) :
    (quantified known z).find? (·.id == v.id) = some v :=
  find?_of_nodup ((Ty.nodup_vars z).sublist (List.filter_sublist.map _)) hv

/-- What a type is generalized to, given its zonked form. -/
theorem generalize_eq (hz : s.zonk t = .ok z) : generalize s t known =
    .ok (if quantified known z = [] then Scheme.mono t else ⟨quantified known z, z⟩) := by
  rw [generalize, hz]
  simp only [quantified, List.isEmpty_iff, Store.ok_bind]
  rfl

/-- Whether a type is an instance, made in the first of two stores, of one that was generalized: it is written out like
that one, with new variables for those that the environment does not know. -/
structure IsInstance (s s' : Store) (known : List VarId) (z i : Ty) (f : VarId → TyVar) : Prop where
  zonk : s'.zonk i = .ok (z.subst (fun v => if v.id ∈ known then none else some (.var (f v.id))))
  new : ∀ v ∈ z.vars, v.id ∉ known →
    (f v.id).name = v.name ∧ (f v.id).rigid = false ∧ s.size ≤ (f v.id).id ∧ s'.Unsolved (f v.id).id
  distinct : ∀ v ∈ z.vars, ∀ w ∈ z.vars, v.id ∉ known → w.id ∉ known → (f v.id).id = (f w.id).id → v = w

def renewed (s : Store) (vars : List TyVar) (id : VarId) : TyVar :=
  ((vars.find? (·.id == id)).map (copy s vars)).getD default

theorem exists_mem_vars_of_not_phantom (hbare : ∀ x, ¬ z.Phantom x) {v : TyVar} (hv : .var v ∈ z.mentions true) :
    ∃ u ∈ z.vars, u.id = v.id := by
  by_contra hnone
  exact hbare v ⟨hv, fun u hu hid => hnone ⟨u, hu, hid⟩⟩

theorem copying_quantified (hbare : ∀ x, ¬ z.Phantom x) (s : Store) {v : TyVar} (hv : .var v ∈ z.mentions true) :
    copying s (quantified known z) v =
      if v.id ∈ known then none else some (.var (renewed s (quantified known z) v.id)) := by
  obtain ⟨u, hu, hid⟩ := exists_mem_vars_of_not_phantom hbare hv
  split
  · next hknown =>
    have hfind : (quantified known z).find? (·.id == v.id) = none := by
      refine List.find?_eq_none.mpr fun w hw heq => (mem_quantified.mp hw).2 ?_
      rwa [beq_iff_eq.mp heq]
    rw [copying, hfind, Option.map_none]
  · next hknown =>
    rw [← hid] at hknown ⊢
    have hfind := find?_quantified (mem_quantified.mpr ⟨hu, hknown⟩)
    rw [copying, renewed, ← hid, hfind]
    rfl

theorem renewed_of_mem {v : TyVar} (hv : v ∈ quantified known z) (s : Store) :
    renewed s (quantified known z) v.id = copy s (quantified known z) v := by
  rw [renewed, find?_quantified hv]
  rfl

theorem unsolved_copy {vars : List TyVar} {v : TyVar} (hv : v ∈ vars) (s : Store) :
    (freshCopies vars s).2.Unsolved (copy s vars v).id := by
  have hlt : vars.idxOf v < vars.length := List.idxOf_lt_length_of_mem hv
  refine ⟨?_, ?_⟩
  · rw [size_freshCopies]
    exact Nat.add_lt_add_left hlt _
  · rw [solution?_freshCopies]
    exact Option.eq_none_iff_forall_ne_some.mpr fun t hsome =>
      absurd (Store.lt_size_of_solution? hsome) (Nat.not_lt.mpr (Nat.le_add_right _ _))

/-- What comes out of an instantiation is written out, if something is quantified. -/
theorem writtenOut_copying (known : List VarId) (hwritten : s.WrittenOut z) (hbare : ∀ x, ¬ z.Phantom x) :
    (freshCopies (quantified known z) s).2.WrittenOut (z.subst (copying s (quantified known z))) := by
  have hwidens := Store.widens_freshCopies (quantified known z) s
  refine ⟨hwritten.built.subst fun v u hu => ?_, fun r hr => ?_⟩
  · obtain ⟨w, -, rfl⟩ := Option.map_eq_some_iff.mp hu
    exact .var _
  · obtain ⟨r₀, hr₀, hr⟩ := Ty.arises_of_mem_subst hr
    have hleaves := (hwidens.writtenOut hwritten).leaves r₀ hr₀
    cases r₀ with
    | var v =>
      rw [Ty.image, copying_quantified hbare s hr₀] at hr
      split at hr
      · cases List.mem_singleton.mp hr
        exact hleaves
      · next hknown =>
        obtain ⟨u, hu, hid⟩ := exists_mem_vars_of_not_phantom hbare hr₀
        have hmem : u ∈ quantified known z := mem_quantified.mpr ⟨hu, hid ▸ hknown⟩
        cases List.mem_singleton.mp hr
        rw [← hid, renewed_of_mem hmem]
        exact unsolved_copy hmem s
    | record id => exact hleaves.elim
    | field name =>
      cases List.mem_singleton.mp hr
      trivial
    | hole =>
      cases List.mem_singleton.mp hr
      trivial

theorem instantiate_quantified {vars : List TyVar} (hne : vars ≠ []) (z : Ty) (s : Store) :
    (⟨vars, z⟩ : Scheme).instantiate s = (z.subst (copying s vars), (freshCopies vars s).2) := by
  rw [instantiate, if_neg (by simpa using hne)]
  simp only [Ty.substTable, get?_freshCopies]

/-- Every use of a generalized type gets an instance of it, also later, when more variables have been allocated. It is
written out itself if there is something to quantify. -/
theorem isInstance_instantiate {scheme : Scheme} (hz : s.zonk t = .ok z) (hbare : ∀ x, ¬ z.Phantom x)
    (hscheme : generalize s t known = .ok scheme) (hwidens : s.Widens s₀) :
    s₀.Widens (scheme.instantiate s₀).2 ∧
      IsInstance s₀ (scheme.instantiate s₀).2 known z (scheme.instantiate s₀).1 (renewed s₀ (quantified known z)) ∧
      ((∃ v ∈ z.vars, v.id ∉ known) → (scheme.instantiate s₀).2.WrittenOut (scheme.instantiate s₀).1) := by
  have hwritten : s.WrittenOut z := Store.writtenOut_of_zonkAt hz
  have hnew : ∀ v ∈ z.vars, v.id ∉ known → v ∈ quantified known z := fun v hv hknown => mem_quantified.mpr ⟨hv, hknown⟩
  rw [generalize_eq hz] at hscheme
  obtain rfl := Except.ok.inj hscheme
  by_cases hnil : quantified known z = []
  · rw [if_pos hnil]
    have hnone : ∀ v ∈ z.vars, ¬ v.id ∉ known := fun v hv hknown => by
      have hmem := hnew v hv hknown
      rw [hnil] at hmem
      cases hmem
    refine ⟨.refl _, ⟨?_, fun v hv hknown => absurd hknown (hnone v hv),
      fun v hv _ _ hknown => absurd hknown (hnone v hv)⟩, fun ⟨v, hv, hknown⟩ => absurd hknown (hnone v hv)⟩
    have hsame : z.subst (fun v => if v.id ∈ known then none else some (.var (renewed s₀ (quantified known z) v.id))) = z := by
      refine (Ty.subst_congr fun v hv => ?_).trans hwritten.built.subst_none
      obtain ⟨u, hu, hid⟩ := exists_mem_vars_of_not_phantom hbare hv
      exact if_pos (hid ▸ not_not.mp (hnone u hu))
    rw [hsame]
    exact hwidens.zonk hz
  · rw [if_neg hnil, instantiate_quantified hnil]
    have hout := writtenOut_copying known (hwidens.writtenOut hwritten) hbare
    refine ⟨Store.widens_freshCopies _ s₀, ⟨?_, fun v hv hknown => ?_, fun v hv w hw hknown hknown' heq => ?_⟩, fun _ => hout⟩
    · rw [← Ty.subst_congr fun v hv => copying_quantified hbare s₀ hv]
      exact hout.zonk
    · rw [renewed_of_mem (hnew v hv hknown)]
      exact ⟨rfl, rfl, Nat.le_add_right _ _, unsolved_copy (hnew v hv hknown) s₀⟩
    · rw [renewed_of_mem (hnew v hv hknown), renewed_of_mem (hnew w hw hknown')] at heq
      exact (List.idxOf_inj (hnew v hv hknown)).mp (Nat.add_left_cancel heq)

/-- A variable that an instance shows is known to the environment, or it is a new one. -/
theorem IsInstance.known_or_new {s s' : Store} {i : Ty} {f : VarId → TyVar} (h : IsInstance s s' known z i f)
    (hbare : ∀ x, ¬ z.Phantom x) {z' : Ty} (hz' : s'.zonk i = .ok z') {x : TyVar} (hx : .var x ∈ z'.mentions true) :
    x.id ∈ known ∨ s.size ≤ x.id ∧ x.id < s'.size := by
  obtain rfl := Except.ok.inj (h.zonk.symm.trans hz')
  obtain ⟨r₀, hr₀, hr⟩ := Ty.arises_of_mem_subst hx
  cases r₀ with
  | var v =>
    obtain ⟨u, hu, hid⟩ := exists_mem_vars_of_not_phantom hbare hr₀
    rw [Ty.image, ← hid] at hr
    split at hr
    · next hknown =>
      cases List.mem_singleton.mp hr
      exact .inl (hid ▸ hknown)
    · next hknown =>
      cases List.mem_singleton.mp hr
      obtain ⟨-, -, hge, hun⟩ := h.new u hu hknown
      exact .inr ⟨hge, hun.1⟩
  | record id => cases List.mem_singleton.mp hr
  | field name => cases List.mem_singleton.mp hr
  | hole => cases List.mem_singleton.mp hr

/-- Instances of a generalized type are written out like the type itself, with new variables for those that the
environment does not know, if no variable stands in the arguments of aliases only. Two of them show no variable in common but what the environment knows, and if there is
something to quantify, they lead to no other. The second one is written out as before after all calls on types in which
no unsolved variable is read that it leads to. -/
theorem instances_of_generalized_types_are_independent {s : Store} {t z : Ty} (known : List VarId) (hacyclic : s.Acyclic)
    (hclosed : s.Closed) (hz : s.zonk t = .ok z) (hbare : ∀ x, ¬ z.Phantom x) :
    ∃ scheme, generalize s t known = .ok scheme ∧ ∀ s₀, s.Widens s₀ →
      let first := scheme.instantiate s₀
      let second := scheme.instantiate first.2
      (∃ f, IsInstance s₀ first.2 known z first.1 f) ∧ (∃ f, IsInstance first.2 second.2 known z second.1 f) ∧
        second.2.zonk first.1 = first.2.zonk first.1 ∧
        (∀ z₁ z₂ x y, second.2.zonk first.1 = .ok z₁ → second.2.zonk second.1 = .ok z₂ → .var x ∈ z₁.mentions true →
          .var y ∈ z₂.mentions true → x.id = y.id → x.id ∈ known) ∧
        ((∃ v ∈ z.vars, v.id ∉ known) → ∀ id, second.2.Leads true first.1 (.var id) →
          second.2.Leads true second.1 (.var id) → id ∈ known) ∧
        ∀ s', ReflTransGen (Store.CallsAside second.1) second.2 s' → s'.zonk second.1 = second.2.zonk second.1 := by
  refine ⟨_, generalize_eq hz, fun s₀ hwidens => ?_⟩
  intro first second
  obtain ⟨hwidens₁, hfirst, hout₁⟩ := isInstance_instantiate hz hbare (generalize_eq hz) hwidens
  obtain ⟨hwidens₂, hsecond, hout₂⟩ := isInstance_instantiate hz hbare (generalize_eq hz) (hwidens.trans hwidens₁)
  have hkept : second.2.zonk first.1 = first.2.zonk first.1 := (hwidens₂.zonk hfirst.zonk).trans hfirst.zonk.symm
  have hshared : ∀ z₁ z₂ x y, second.2.zonk first.1 = .ok z₁ → second.2.zonk second.1 = .ok z₂ →
      .var x ∈ z₁.mentions true → .var y ∈ z₂.mentions true → x.id = y.id → x.id ∈ known := by
    intro z₁ z₂ x y hz₁ hz₂ hx hy hid
    rcases hfirst.known_or_new hbare (hkept.symm.trans hz₁) hx with hknown | ⟨-, hlt⟩
    · exact hknown
    · rcases hsecond.known_or_new hbare hz₂ hy with hknown | ⟨hge, -⟩
      · exact hid ▸ hknown
      · exact absurd (hid ▸ hlt) (Nat.not_lt.mpr hge)
  refine ⟨⟨_, hfirst⟩, ⟨_, hsecond⟩, hkept, hshared, fun hsome id hleads₁ hleads₂ => ?_, fun s' hcalls => ?_⟩
  · have hwritten₁ := hwidens₂.writtenOut (hout₁ hsome)
    have hwritten₂ := hout₂ hsome
    obtain ⟨x, hx, rfl⟩ := Store.exists_var_of_holds (hwritten₁.holds_of_leads hleads₁)
    obtain ⟨y, hy, hid⟩ := Store.exists_var_of_holds (hwritten₂.holds_of_leads hleads₂)
    exact hshared _ _ x y hwritten₁.zonk hwritten₂.zonk hx hy hid.symm
  · have hsane : second.2.Sane := hwidens₂.sane (hwidens₁.sane (hwidens.sane (hacyclic.sane hclosed)))
    rw [hsecond.zonk]
    exact (Store.zonk_of_callsAside hsane hsecond.zonk hcalls).2

/-- With `c` standing for `List a` and `b` known to the environment, `( a, b, c )` is generalized over `a`. When the new
variable of the first instance has become `Int`, the second instance is what it was. -/
theorem instances_of_generalized_types_are_independent_of_tuple :
    let a : Ty := .var ⟨0, "a", false⟩
    let b : Ty := .var ⟨1, "b", false⟩
    let s : Store := { solutions := ⟨#[none, none, some (Ty.list a)]⟩ }
    let t : Ty := .tuple [a, b, .var ⟨2, "c", false⟩]
    let z : Ty := .tuple [a, b, Ty.list a]
    let copied (id : VarId) : Ty := .tuple [.var ⟨id, "a", false⟩, b, Ty.list (.var ⟨id, "a", false⟩)]
    ∃ scheme, s.Acyclic ∧ s.Closed ∧ s.zonk t = .ok z ∧ (∀ x, ¬ z.Phantom x) ∧ generalize s t [1] = .ok scheme ∧
      let first := scheme.instantiate s
      let second := scheme.instantiate first.2
      first.1 = copied 3 ∧ second.1 = copied 4 ∧ ∃ s', StoreM.unify (.var ⟨3, "a", false⟩) Ty.int second.2 = .ok (.ok (), s') ∧
        s'.zonk first.1 = .ok (.tuple [Ty.int, b, Ty.list Ty.int]) ∧ s'.zonk second.1 = second.2.zonk second.1 := by
  intro a b s t z copied
  have hstart : StoreM.unify (.var ⟨2, "c", false⟩) (Ty.list a) ({} : Store).extended.extended.extended = .ok (.ok (), s) := rfl
  have hsane : s.Sane := Store.sane_empty.extended.extended.extended.unify (by decide) (by decide) hstart
  have hz : s.zonk t = .ok z := rfl
  have hbare : ∀ x, ¬ z.Phantom x := fun x ⟨hx, hnone⟩ => by
    obtain ⟨u, hu, hid⟩ := Ty.exists_mem_vars (t := z) (v := x) hx
    exact hnone u hu hid
  obtain ⟨scheme, hscheme, hinstances⟩ :=
    instances_of_generalized_types_are_independent [1] hsane.acyclic hsane.closed hz hbare
  have hgeneralized : generalize s t [1] = .ok ⟨[⟨0, "a", false⟩], z⟩ := rfl
  obtain rfl := Except.ok.inj (hgeneralized.symm.trans hscheme)
  obtain ⟨-, -, -, -, -, hcalls⟩ := hinstances s (.refl s)
  refine ⟨_, hsane.acyclic, hsane.closed, hz, hbare, hgeneralized, rfl, rfl, _, rfl, rfl, hcalls _ (.single ?_)⟩
  refine ⟨.var ⟨3, "a", false⟩, Ty.int, by decide, by decide, ?_, .unify rfl⟩
  intro v _ hreads hleads
  -- The new variable of the first instance is all that is read in the call.
  obtain rfl : v = ⟨3, "a", false⟩ := by
    rcases hreads with hreads | hreads
    · rcases hreads.cases_head with heq | ⟨u, hchild, -⟩
      · exact (Ty.var.inj heq).symm
      · cases hchild with
        | solution hsol => cases hsol
    · rcases hreads.cases_head with heq | ⟨u, hchild, -⟩
      · cases heq
      · cases hchild with
        | arg hmem => cases hmem
  have hwritten : Store.WrittenOut ((⟨[⟨0, "a", false⟩], z⟩ : Scheme).instantiate
      ((⟨[⟨0, "a", false⟩], z⟩ : Scheme).instantiate s).2).2 (copied 4) := by
    refine Store.writtenOut_of_zonkAt (n := 5) (t := copied 4) ?_
    rfl
  obtain ⟨x, hx, hid⟩ := Store.exists_var_of_holds (hwritten.holds_of_leads hleads)
  have hnot : ∀ x : TyVar, .var x ∈ (copied 4).mentions true → x.id ≠ 3 := by
    simp [copied, b, Ty.mentions, Ty.mentionsList, Ty.list, Ty.named, Ty.mentionsAlias]
  exact hnot x hx hid

end Scheme

end ElmInference
