import ElmInference.Proofs.Infer.Instances
import ElmInference.Proofs.Store.Frames
import ElmInference.Proofs.Unify.Recordless

/-!
# Copies of types that show what they hold

A value from elsewhere gets, at each use, a copy of its type with new variables. The copy has no records either, and
its aliases show in the type what they hold: the variables of an alias are variables of the type, so they are copied
along. An alias with a variable that its type does not use would carry that variable over into a store where it does
not belong.
-/

namespace ElmInference

open Store Relation StoreM

namespace Ty

theorem Regular.recordless {t : Ty} (h : t.Regular) : t.Recordless := by
  induction h with
  | unit => exact recordless_of_parts (by simp [shape?]) (fun u hpart => by cases hpart)
  | var => exact bare_recordless.var _
  | union _ ih =>
    refine recordless_of_parts (by simp [shape?]) (fun u hpart => ?_)
    cases hpart with
    | arg hmem => exact ih u hmem
  | tuple _ ih =>
    refine recordless_of_parts (by simp [shape?]) (fun u hpart => ?_)
    cases hpart with
    | item hmem => exact ih u hmem
  | arrow _ _ _ ihp ihr =>
    refine recordless_of_parts (by simp [shape?]) (fun u hpart => ?_)
    cases hpart with
    | param hmem => exact ihp u hmem
    | ret => exact ihr

/-- Whether what a mention becomes under a substitution stays in a set, the arguments of aliases included. -/
def ShowsInto (f : TyVar → Option Ty) (Q : Set Mention) : Mention → Prop
  | .var v => MadeOf true (fun _ => True) Q ((f v).getD (.var v))
  | r => r ∈ Q

theorem madeOf_subst {f : TyVar → Option Ty} {Q : Set Mention} {t : Ty}
    (h : ∀ r ∈ t.mentions true, ShowsInto f Q r) : MadeOf true (fun _ => True) Q (t.subst f) := by
  have hL := hereditary_true
  have halias : ∀ {w : Option (AliasUse Ty)}, (∀ u ∈ aliasArgs w, MadeOf true (fun _ => True) Q (u.subst f)) →
      ∀ u ∈ aliasArgs (substAlias f w), MadeOf true (fun _ => True) Q u := by
    rintro (_ | ⟨m, n, args⟩) hw u hu
    · cases hu
    · simp only [substAlias, aliasArgs, Option.elim_some, substList_eq_map, List.mem_map] at hu
      obtain ⟨t, ht, rfl⟩ := hu
      exact hw t ht
  induction t using Ty.inductParts with
  | unit => exact ⟨by simp [subst, mentions], trivial⟩
  | unknown | inProgress =>
    refine ⟨fun r hr => ?_, trivial⟩
    obtain rfl : r = .hole := by simpa [subst, mentions] using hr
    exact h .hole hr
  | growing id =>
    refine ⟨fun r hr => ?_, trivial⟩
    obtain rfl : r = .record id := by simpa [subst, mentions] using hr
    exact h (.record id) hr
  | var v => exact h (.var v) (by simp [mentions])
  | union m n args w iha ihw =>
    have hw := halias fun u hu => ihw u hu fun r hr => h r (by
      simp only [mentions, mentionsAlias_true, List.mem_append, mem_mentionsList]
      exact .inr ⟨u, hu, hr⟩)
    refine ⟨fun r hr => ?_, trivial⟩
    simp only [subst, mentions, mentionsAlias_true, substList_eq_map, List.mem_append, mem_mentionsList,
      List.mem_map] at hr
    rcases hr with ⟨_, ⟨u, hu, rfl⟩, hr⟩ | ⟨u, hu, hr⟩
    · exact (iha u hu fun r hr => h r (Part.mentions_subset (.arg hu) hr)).mentions r hr
    · exact (hw u hu).mentions r hr
  | tuple items ih =>
    refine ⟨fun r hr => ?_, trivial⟩
    simp only [subst, mentions, substList_eq_map, mem_mentionsList, List.mem_map] at hr
    obtain ⟨_, ⟨u, hu, rfl⟩, hr⟩ := hr
    exact (ih u hu fun r hr => h r (Part.mentions_subset (.item hu) hr)).mentions r hr
  | record fields base w refs ihf ihb ihw =>
    have hw := halias fun u hu => ihw u hu fun r hr => h r (by
      simp only [mentions, mentionsAlias_true, List.mem_append, mem_mentionsList]
      exact .inr (.inr ⟨u, hu, hr⟩))
    rw [subst, substFields_eq_map]
    refine madeOf_writtenAs? (madeOf_recordWith hL _ (fun field hf => ?_) (fun b hb => ?_)) hw
    · obtain ⟨field, hmem, rfl⟩ := List.mem_map.mp hf
      refine ⟨h (.field field.1) ?_, ihf field hmem fun r hr => h r (Part.mentions_subset (.field hmem) hr)⟩
      simp only [mentions, List.mem_append, mem_mentionsFields]
      exact .inl ⟨field, hmem, .inl rfl⟩
    · cases base with
      | none => cases hb
      | some b =>
        cases hb
        exact ihb b rfl fun r hr => h r (Part.mentions_subset .base hr)
  | arrow params ret w ihp ihr ihw =>
    have hw := halias fun u hu => ihw u hu fun r hr => h r (by
      simp only [mentions, mentionsAlias_true, List.mem_append, mem_mentionsList]
      exact .inr (.inr ⟨u, hu, hr⟩))
    rw [subst, substList_eq_map]
    refine madeOf_writtenAs? (madeOf_function hL (fun u hu => ?_) ?_) hw
    · obtain ⟨t, ht, rfl⟩ := List.mem_map.mp hu
      exact ihp t ht fun r hr => h r (Part.mentions_subset (.param ht) hr)
    · exact ihr fun r hr => h r (Part.mentions_subset .ret hr)

/-- A regular type shows after a substitution what its variables became. -/
theorem Regular.holds_subst {t : Ty} (ht : t.Regular) {f : TyVar → Option Ty} {v : TyVar}
    (hv : .var v ∈ t.mentions false) {n : Node} (hn : ((f v).getD (.var v)).Holds false n) :
    (t.subst f).Holds false n := by
  obtain ⟨r, hr, hnode⟩ := hn
  refine ⟨r, ?_, hnode⟩
  induction ht with
  | unit => cases hv
  | @var u =>
    obtain rfl : v = u := by simpa [mentions] using hv
    exact hr
  | union _ ih =>
    simp only [mentions, mentionsAlias_false, List.append_nil, mem_mentionsList] at hv
    obtain ⟨u, hu, hv⟩ := hv
    simp only [Ty.subst, mentions, mentionsAlias_false, List.append_nil, substList_eq_map, mem_mentionsList, List.mem_map]
    exact ⟨_, ⟨u, hu, rfl⟩, ih u hu hv⟩
  | tuple _ ih =>
    simp only [mentions, mem_mentionsList] at hv
    obtain ⟨u, hu, hv⟩ := hv
    simp only [Ty.subst, mentions, substList_eq_map, mem_mentionsList, List.mem_map]
    exact ⟨_, ⟨u, hu, rfl⟩, ih u hu hv⟩
  | arrow _ _ _ ihp ihr =>
    simp only [mentions, mentionsAlias_false, List.append_nil, List.mem_append, mem_mentionsList] at hv
    rw [Ty.subst, mentions_writtenAs?, mem_mentions_function, substList_eq_map]
    rcases hv with ⟨u, hu, hv⟩ | hv
    · exact .inl ⟨_, List.mem_map_of_mem hu, ihp u hu hv⟩
    · exact .inr (ihr hv)

theorem overt_of_args {t : Ty} (hargs : ∀ arg ∈ aliasArgs t.written?, ∀ n, arg.Holds true n → t.Holds false n)
    (hparts : ∀ u, t.Part u → u.Overt) : t.Overt := by
  intro u hreads
  rcases hreads.cases_head with rfl | ⟨v, hpart, hrest⟩
  · exact hargs
  · exact hparts v hpart u hrest

theorem overt_arrow {params : List Ty} {ret : Ty} {w : Option (AliasUse Ty)}
    (hargs : ∀ arg ∈ aliasArgs w, ∀ n, arg.Holds true n → (arrow params ret w).Holds false n)
    (hparams : ∀ u ∈ params, u.Overt) (hret : ret.Overt) : (arrow params ret w).Overt := by
  refine overt_of_args hargs (fun u hpart => ?_)
  cases hpart with
  | param hmem => exact hparams u hmem
  | ret => exact hret

/-- A function, with or without an alias, shows what its alias holds if its parts do and the alias holds no more. -/
theorem overt_function {params : List Ty} {ret : Ty} {w : Option (AliasUse Ty)} (hne : params ≠ [])
    (hargs : ∀ arg ∈ aliasArgs w, ∀ n, arg.Holds true n → (function params ret).Holds false n)
    (hparams : ∀ u ∈ params, u.Overt) (hret : ret.Overt) : ((function params ret).writtenAs? w).Overt := by
  have hwritten : ∀ (ps : List Ty) (r : Ty), (arrow ps r none).writtenAs? w = .arrow ps r w := by
    intro ps r
    cases w <;> rfl
  have hholds : ∀ {ps : List Ty} {r : Ty} {n : Node}, (arrow ps r none).Holds false n → (arrow ps r w).Holds false n := by
    rintro ps r n ⟨m, hm, hnode⟩
    exact ⟨m, by simpa only [mentions, mentionsAlias_false] using hm, hnode⟩
  unfold function at hargs ⊢
  split at hargs
  · exact absurd rfl hne
  · split at hargs
    · rw [hwritten]
      refine overt_arrow (fun arg harg n hn => hholds (hargs arg harg n hn)) (fun u hu => ?_) (hret.part .ret)
      rcases List.mem_append.mp hu with hu | hu
      · exact hparams u hu
      · exact hret.part (.param hu)
    · rw [hwritten]
      exact overt_arrow (fun arg harg n hn => hholds (hargs arg harg n hn)) hparams hret

def Covers (table : Assoc VarId Ty) (t : Ty) : Prop :=
  ∀ v, .var v ∈ t.mentions false → ∃ copy, Assoc.get? table v.id = some (.var copy)

theorem Covers.part {table : Assoc VarId Ty} {t u : Ty} (h : Covers table t) (hpart : t.Part u) : Covers table u :=
  fun v hv => h v (hpart.mentions_subset hv)

section Copies

variable {table : Assoc VarId Ty} {t : Ty} (hcovers : Covers table t)

include hcovers

/-- What the arguments of an alias mention becomes part of the type as well. -/
theorem Regular.showsInto (ht : t.Regular) (hovert : t.Overt) {arg : Ty} (harg : arg ∈ aliasArgs t.written?)
    {r : Mention} (hr : r ∈ arg.mentions true) : ShowsInto (fun v => Assoc.get? table v.id)
      {r | ∀ n, r.node? = some n → (t.substTable table).Holds false n} r := by
  cases r with
  | var v =>
    obtain ⟨r', hr', hnode⟩ := hovert t .refl arg harg (.var v.id) ⟨.var v, hr, rfl⟩
    obtain ⟨u, rfl⟩ := ht.mentions_var hr'
    have hid : u.id = v.id := Node.var.inj (Option.some.inj hnode)
    obtain ⟨copy, hget⟩ := hcovers u hr'
    have himage : (Assoc.get? table v.id).getD (.var v) = .var copy := by rw [← hid, hget]; rfl
    rw [ShowsInto, himage]
    refine madeOf_var hereditary_true fun n hn => ?_
    refine ht.holds_subst (f := fun v => Assoc.get? table v.id) hr' ⟨.var copy, ?_, hn⟩
    simp [hget, mentions]
  | record id =>
    obtain ⟨r', hr', hnode⟩ := hovert t .refl arg harg (.record id) ⟨.record id, hr, rfl⟩
    obtain ⟨u, rfl⟩ := ht.mentions_var hr'
    cases hnode
  | field name => exact fun n hn => by cases hn
  | hole => exact fun n hn => by cases hn

theorem Regular.holds_of_aliasArg (ht : t.Regular) (hovert : t.Overt) {arg : Ty}
    (harg : arg ∈ aliasArgs (substAlias (fun v => Assoc.get? table v.id) t.written?)) {n : Node}
    (hn : arg.Holds true n) : (t.substTable table).Holds false n := by
  obtain ⟨arg, harg', rfl⟩ : ∃ u ∈ aliasArgs t.written?, u.subst (fun v => Assoc.get? table v.id) = arg := by
    rcases hwritten : t.written? with _ | ⟨m, n, args⟩
    · rw [hwritten] at harg
      cases harg
    · rw [hwritten] at harg
      simpa [substAlias, aliasArgs, substList_eq_map] using harg
  obtain ⟨r, hr, hnode⟩ := hn
  exact (madeOf_subst fun r hr => ht.showsInto hcovers hovert harg' hr).mentions r hr n hnode

/-- A copy of a regular type shows what its aliases hold if the type does. -/
theorem Regular.overt_substTable (ht : t.Regular) (hovert : t.Overt) : (t.substTable table).Overt := by
  induction ht with
  | unit => exact hovert
  | @var v =>
    obtain ⟨copy, hget⟩ := hcovers v (by simp [mentions])
    have himage : (Ty.var v).substTable table = .var copy := by simp [substTable, Ty.subst, hget]
    rw [himage]
    exact hereditary_overt.var copy
  | @union m n args w hargs ih =>
    refine overt_of_args (fun arg harg n hn => ?_) (fun u hpart => ?_)
    · exact (Regular.union hargs).holds_of_aliasArg hcovers hovert harg hn
    · rw [substTable, Ty.subst, substList_eq_map] at hpart
      cases hpart with
      | arg hmem =>
        obtain ⟨u, hu, rfl⟩ := List.mem_map.mp hmem
        exact ih u hu (hcovers.part (.arg hu)) (hovert.part (.arg hu))
  | @tuple items _ ih =>
    refine overt_of_parts rfl (fun u hpart => ?_)
    rw [substTable, Ty.subst, substList_eq_map] at hpart
    cases hpart with
    | item hmem =>
      obtain ⟨u, hu, rfl⟩ := List.mem_map.mp hmem
      exact ih u hu (hcovers.part (.item hu)) (hovert.part (.item hu))
  | @arrow params ret w hne hparams hret ihp ihr =>
    have hparams' : ∀ u ∈ params.map (Ty.subst fun v => Assoc.get? table v.id), u.Overt := by
      refine List.forall_mem_map.mpr fun u hu => ?_
      exact ihp u hu (hcovers.part (.param hu)) (hovert.part (.param hu))
    have hret' := ihr (hcovers.part .ret) (hovert.part .ret)
    rw [substTable, Ty.subst, substList_eq_map]
    refine overt_function (by simpa using hne) (fun arg harg n hn => ?_) hparams' hret'
    obtain ⟨r, hr, hnode⟩ := (Regular.arrow hne hparams hret).holds_of_aliasArg hcovers hovert harg hn
    rw [substTable, Ty.subst, substList_eq_map, mentions_writtenAs?] at hr
    exact ⟨r, hr, hnode⟩

end Copies

theorem Importable.legible {t : Ty} (h : t.Importable) : t.Legible :=
  ⟨h.regular.recordless, h.regular.applicable, h.overt⟩

end Ty

/-! ### Uses -/

theorem Store.Recordless.mints {L : Ty → Prop} {w w' : World} (h : Mints w w') (hs : w.1.Recordless L) :
    w'.1.Recordless L := by
  induction h with
  | refl => exact hs
  | tail _ hmint ih =>
    cases hmint with
    | mk name rigid => exact ih.extended

namespace Scheme

theorem exists_freshCopy {vars : List TyVar} (s : Store) {v : TyVar} (hv : v ∈ vars) :
    ∃ copy, Assoc.get? (freshCopies vars s).1 v.id = some (.var copy) := by
  induction vars generalizing s with
  | nil => cases hv
  | cons u rest ih =>
    simp only [freshCopies, Assoc.get?]
    split
    · exact ⟨_, rfl⟩
    · next hne =>
      rcases List.mem_cons.mp hv with rfl | hv
      · exact absurd rfl hne
      · exact ih _ hv

theorem exists_image {vars : List TyVar} {s : Store} {id : VarId} {u : Ty}
    (h : Assoc.get? (freshCopies vars s).1 id = some u) : ∃ copy, u = .var copy := by
  induction vars generalizing s with
  | nil => cases h
  | cons v rest ih =>
    simp only [freshCopies, Assoc.get?] at h
    split at h
    · cases h
      exact ⟨_, rfl⟩
    · exact ih h

theorem covers_freshCopies (t : Ty) (s : Store) : Ty.Covers (freshCopies t.vars s).1 t := by
  intro v hv
  obtain ⟨u, hu, hid⟩ := Ty.exists_mem_vars hv
  rw [← hid]
  exact exists_freshCopy s hu

/-- A use of an importable type is a legible type of the store that it leaves. -/
theorem legible_instantiate {s : Store} (hsane : s.Sane) (hs : s.Recordless Ty.Legible) {t : Ty} (ht : t.Importable) :
    ((closed t).instantiate s).1.Legible ∧ ((closed t).instantiate s).2.Owns ((closed t).instantiate s).1 ∧
      ((closed t).instantiate s).2.Sane ∧ ((closed t).instantiate s).2.Recordless Ty.Legible ∧
      s.Extends ((closed t).instantiate s).2 := by
  have hfrozen : t.Frozen := by
    intro id hid
    obtain ⟨v, heq⟩ := ht.regular.mentions_var hid
    cases heq
  have hplain : ∀ r : Mention, r.node? = none → s.Has r := by
    intro r hr
    cases r with
    | var v => cases hr
    | record id => cases hr
    | field name => trivial
    | hole => trivial
  obtain ⟨Q, hmints, hwithin⟩ := (within_closed (Q := {r | s.Has r}) hfrozen hplain).instantiate s
  have htidy := hmints.moves.tidy hsane.tidy
  refine ⟨?_, htidy.owns hwithin, htidy.sane, Store.Recordless.mints hmints hs, hmints.moves.extends⟩
  by_cases hvars : t.vars = []
  · rw [instantiate_of_nil hvars]
    exact ht.legible
  · rw [instantiate_of_ne_nil hvars]
    have hcovers := covers_freshCopies t s
    have hregular : (t.substTable (freshCopies t.vars s).1).Regular := by
      refine ht.regular.subst fun v u hget => ?_
      obtain ⟨copy, hcopy⟩ := exists_image hget
      exact hcopy ▸ .var
    exact ⟨hregular.recordless, hregular.applicable, ht.regular.overt_substTable hcovers ht.overt⟩

end Scheme

end ElmInference
