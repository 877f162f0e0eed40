import ElmInference.Proofs.Infer.Typing
import ElmInference.Proofs.Unify.Generality

/-!
# A use of a value from elsewhere

At each use a value from elsewhere gets a copy of its type with new variables. In a neat world the copy stands for
exactly the instances of the type: a solution of the world gives it one, and for every instance a solution can be
extended to the new variables such that the copy stands for it.
-/

namespace ElmInference

open Store

namespace Ty

def replaced (table : Assoc VarId Ty) (η : Env Rigid) : Env Rigid
  | .var id => ((Assoc.get? table id).map (read η)).getD (η (.var id))
  | n => η n

theorem replaced_of_some {table : Assoc VarId Ty} {id : VarId} {u : Ty} (h : Assoc.get? table id = some u)
    (η : Env Rigid) : replaced table η (.var id) = u.read η := by
  simp [replaced, h]

theorem Regular.read_substTable {t : Ty} (h : t.Regular) (table : Assoc VarId Ty) (η : Env Rigid) :
    (t.substTable table).read η = t.read (replaced table η) := by
  unfold substTable
  induction h with
  | unit => rfl
  | @var v =>
    rw [subst, read_var, replaced]
    cases Assoc.get? table v.id <;> rfl
  | union _ ih =>
    rw [subst, read_union, read_union, substList_eq_map, List.map_map]
    exact congrArg _ (List.map_congr_left ih)
  | tuple _ ih =>
    rw [subst, read_tuple, read_tuple, substList_eq_map, List.map_map]
    exact congrArg _ (List.map_congr_left ih)
  | arrow _ _ _ ihp ihr =>
    rw [subst, read_writtenAs?, read_function, read_arrow, substList_eq_map, List.map_map, ihr]
    exact congrArg (Reading.arrows · _) (List.map_congr_left ihp)

theorem Regular.writtenAs? {t : Ty} (h : t.Regular) (w : Option (AliasUse Ty)) : (t.writtenAs? w).Regular := by
  cases w with
  | none => exact h
  | some use =>
    cases h with
    | unit => exact .unit
    | var => exact .var
    | union hargs => exact .union hargs
    | tuple hitems => exact .tuple hitems
    | arrow hne hparams hret => exact .arrow hne hparams hret

theorem Regular.subst {t : Ty} (h : t.Regular) {f : TyVar → Option Ty}
    (hf : ∀ v u, f v = some u → u.Regular) : (t.subst f).Regular := by
  induction h with
  | unit => exact .unit
  | @var v =>
    rw [Ty.subst]
    cases hv : f v with
    | none => exact .var
    | some u => exact hf v u hv
  | union _ ih =>
    rw [Ty.subst, substList_eq_map]
    exact .union (List.forall_mem_map.mpr ih)
  | tuple _ ih =>
    rw [Ty.subst, substList_eq_map]
    exact .tuple (List.forall_mem_map.mpr ih)
  | arrow _ _ _ ihp ihr =>
    rw [Ty.subst, substList_eq_map]
    exact (Regular.function (List.forall_mem_map.mpr ihp) ihr).writtenAs? _

/-- A regular type mentions nothing but variables. -/
theorem Regular.mentions_var {t : Ty} (h : t.Regular) {r : Mention} (hr : r ∈ t.mentions false) :
    ∃ v, r = .var v := by
  induction h with
  | unit => cases hr
  | @var v => exact ⟨v, List.mem_singleton.mp hr⟩
  | union _ ih =>
    simp only [mentions, mentionsAlias_false, List.append_nil, mem_mentionsList] at hr
    obtain ⟨u, hu, hr⟩ := hr
    exact ih u hu hr
  | tuple _ ih =>
    obtain ⟨u, hu, hr⟩ := mem_mentionsList.mp hr
    exact ih u hu hr
  | arrow _ _ _ ihp ihr =>
    simp only [mentions, mentionsAlias_false, List.append_nil, List.mem_append, mem_mentionsList] at hr
    rcases hr with ⟨u, hu, hr⟩ | hr
    · exact ihp u hu hr
    · exact ihr hr

/-- Only what stands for the variables of a regular type matters to what it says. -/
theorem Regular.read_congr {t : Ty} (h : t.Regular) {η η' : Env Rigid}
    (hvars : ∀ v ∈ t.vars, η (.var v.id) = η' (.var v.id)) : t.read η = t.read η' := by
  refine Ty.read_congr fun n hn => ?_
  obtain ⟨r, hr, hnode⟩ := hn
  obtain ⟨v, rfl⟩ := h.mentions_var hr
  obtain ⟨u, hu, hid⟩ := exists_mem_vars hr
  cases hnode
  rw [← hid]
  exact hvars u hu

end Ty

/-- The closed types that variables stand for. -/
abbrev plainReadings : Set (Reading Rigid) := {x | x.Plain}

namespace Scheme

variable {s : Store} {Q : Set Mention}

/-- What copying variables does to a neat world: each has a flexible copy of its class, which can stand for
everything of that class. -/
structure Copies (vars : List TyVar) (w w' : World) (table : Assoc VarId Ty) : Prop where
  subset : w.2 ⊆ w'.2
  extension : w.1.Extends w'.1
  neat : Neat w'
  flexible : ∀ v, .var v ∈ w'.2 → .var v ∈ w.2 ∨ v.rigid = false
  images : ∀ entry ∈ table, entry.2.RegularIn w'.2
  copied : ∀ v ∈ vars, ∃ u, Assoc.get? table v.id = some (.var u) ∧ .var u ∈ w'.2 ∧ u.rigid = false ∧
    u.typeclass = v.typeclass
  kept : ∀ η, Solves plainReadings w η → ∀ ζ : Env Rigid,
    (∀ v ∈ vars, (ζ (.var v.id)).Plain ∧ ∀ c, v.typeclass = some c → c.Contains (ζ (.var v.id))) →
    ∃ η', Solves plainReadings w' η' ∧ (∀ id, id < w.1.size → η' (.var id) = η (.var id)) ∧
      ∀ v ∈ vars, Ty.replaced table η' (.var v.id) = ζ (.var v.id)

theorem copies_freshCopies (hneat : Neat (s, Q)) {vars : List TyVar} (hnodup : (vars.map TyVar.id).Nodup) :
    ∃ Q', Copies vars (s, Q) ((freshCopies vars s).2, Q') (freshCopies vars s).1 := by
  induction vars generalizing s Q with
  | nil =>
    refine ⟨Q, subset_rfl, .refl s, hneat, fun _ => .inl, ?_, ?_, fun η hsolves _ _ => ?_⟩
    · exact fun entry hentry => absurd hentry List.not_mem_nil
    · exact fun v hv => absurd hv List.not_mem_nil
    · exact ⟨η, hsolves, fun _ _ => rfl, fun v hv => absurd hv List.not_mem_nil⟩
  | cons v rest ih =>
    obtain ⟨hnot, hrest⟩ := List.nodup_cons.mp hnodup
    obtain ⟨Q', h⟩ := ih (hneat.fresh v.name false) hrest
    have hnew : .var ⟨s.size, v.name, false⟩ ∈ Q' := h.subset (Set.mem_insert _ _)
    have hself : Assoc.get? (freshCopies (v :: rest) s).1 v.id = some (.var ⟨s.size, v.name, false⟩) := if_pos rfl
    have hother : ∀ u ∈ rest, Assoc.get? (freshCopies (v :: rest) s).1 u.id =
        Assoc.get? (freshCopies rest s.extended).1 u.id := by
      intro u hu
      refine if_neg fun hid => hnot ?_
      rw [hid]
      exact List.mem_map_of_mem hu
    refine ⟨Q', (Set.subset_insert _ _).trans h.subset, (extends_extended s).trans h.extension, h.neat,
      fun u hu => ?_, ?_, ?_, fun η hsolves ζ hζ => ?_⟩
    · rcases h.flexible u hu with (heq | hold) | hflex
      · obtain rfl := Mention.var.inj heq
        exact .inr rfl
      · exact .inl hold
      · exact .inr hflex
    · exact List.forall_mem_cons.mpr ⟨Ty.regularIn_var.mpr hnew, h.images⟩
    · refine List.forall_mem_cons.mpr ⟨⟨_, hself, hnew, rfl, rfl⟩, fun u hu => ?_⟩
      rw [hother u hu]
      exact h.copied u hu
    · obtain ⟨⟨hx, hclass⟩, hothers⟩ := List.forall_mem_cons.mp hζ
      have hfits : TyVar.Fits ⟨s.size, v.name, false⟩ (ζ (.var v.id)) := TyVar.fits_of_contains rfl hclass
      obtain ⟨hsolves₁, hagree₁⟩ := hsolves.fresh hneat hx hfits
      obtain ⟨η', hsolves', hagree', hcopies⟩ := h.kept _ hsolves₁ ζ hothers
      refine ⟨η', hsolves', fun id hid => ?_, List.forall_mem_cons.mpr ⟨?_, fun u hu => ?_⟩⟩
      · rw [hagree' id (by simpa using Nat.lt_succ_of_lt hid), hagree₁ id hid]
      · rw [Ty.replaced_of_some hself, Ty.read_var, hagree' s.size (by simp), Function.update_self]
      · rw [← hcopies u hu, Ty.replaced, Ty.replaced, hother u hu]

theorem instantiate_of_nil {t : Ty} (h : t.vars = []) (s : Store) : (closed t).instantiate s = (t, s) := by
  rw [instantiate, closed, h]
  rfl

theorem instantiate_of_ne_nil {t : Ty} (h : t.vars ≠ []) (s : Store) :
    (closed t).instantiate s = (t.substTable (freshCopies t.vars s).1, (freshCopies t.vars s).2) := by
  rw [instantiate, closed, if_neg (by simpa using h)]

/-- A use of a value from elsewhere stands for exactly the instances of the value's type. -/
structure Uses (t : Ty) (w w' : World) (copy : Ty) : Prop where
  subset : w.2 ⊆ w'.2
  extension : w.1.Extends w'.1
  neat : Neat w'
  flexible : ∀ v, .var v ∈ w'.2 → .var v ∈ w.2 ∨ v.rigid = false
  regular : copy.RegularIn w'.2
  sound : ∀ η, Solves plainReadings w' η → t.Instance (copy.read η)
  kept : ∀ η, Solves plainReadings w η → ∀ x, t.Instance x →
    ∃ η', Solves plainReadings w' η' ∧ (∀ id, id < w.1.size → η' (.var id) = η (.var id)) ∧ copy.read η' = x

theorem uses_of_nil (hneat : Neat (s, Q)) {t : Ty} (ht : t.Regular) (hvars : t.vars = []) :
    Uses t (s, Q) (s, Q) t := by
  have hnone : ∀ v, v ∉ t.vars := by simp [hvars]
  refine ⟨subset_rfl, .refl s, hneat, fun _ => .inl, ⟨ht, fun r hr => ?_⟩, fun η _ => ?_, ?_⟩
  · obtain ⟨v, rfl⟩ := ht.mentions_var hr
    obtain ⟨u, hu, -⟩ := Ty.exists_mem_vars hr
    exact absurd hu (hnone u)
  · exact ⟨η, rfl, fun v hv => absurd hv (hnone v)⟩
  · rintro η hsolves x ⟨ζ, rfl, -⟩
    exact ⟨η, hsolves, fun _ _ => rfl, ht.read_congr fun v hv => absurd hv (hnone v)⟩

theorem uses_of_copies {t : Ty} (ht : t.Regular) {w w' : World} {table : Assoc VarId Ty}
    (h : Copies t.vars w w' table) : Uses t w w' (t.substTable table) := by
  refine ⟨h.subset, h.extension, h.neat, h.flexible, ⟨?_, ?_⟩, fun η hsolves => ?_, ?_⟩
  · exact ht.subst fun v u hget => (h.images _ (Assoc.mem_of_get? hget)).regular
  · refine Ty.within_substTable (fun entry hentry => (h.images entry hentry).within) fun r hr => ?_
    obtain ⟨v, rfl⟩ := ht.mentions_var hr
    obtain ⟨u, hu, hid⟩ := Ty.exists_mem_vars hr
    obtain ⟨copy, hget, -⟩ := h.copied u hu
    refine .inr ⟨v, rfl, ?_⟩
    rw [← hid, hget]
    exact Option.some_ne_none _
  · refine ⟨_, (ht.read_substTable table η).symm, fun v hv => ?_⟩
    obtain ⟨copy, hget, hmem, hflex, hclass⟩ := h.copied v hv
    rw [Ty.replaced_of_some hget, Ty.read_var]
    refine ⟨hsolves.inside _ (h.neat.var_lt hmem), fun c hc => ?_⟩
    exact (hsolves.fits copy hmem).flexible hflex c (hclass.trans hc)
  · rintro η hsolves x ⟨ζ, rfl, hζ⟩
    obtain ⟨η', hsolves', hagree, hcopies⟩ := h.kept η hsolves ζ hζ
    refine ⟨η', hsolves', hagree, ?_⟩
    rw [ht.read_substTable]
    exact ht.read_congr hcopies

theorem uses_instantiate (hneat : Neat (s, Q)) {t : Ty} (ht : t.Regular) :
    ∃ Q', Uses t (s, Q) (((closed t).instantiate s).2, Q') ((closed t).instantiate s).1 := by
  by_cases hvars : t.vars = []
  · rw [instantiate_of_nil hvars]
    exact ⟨Q, uses_of_nil hneat ht hvars⟩
  · rw [instantiate_of_ne_nil hvars]
    obtain ⟨Q', hcopies⟩ := copies_freshCopies hneat t.nodup_vars
    exact ⟨Q', uses_of_copies ht hcopies⟩

end Scheme

end ElmInference
