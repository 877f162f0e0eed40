import ElmInference.Proofs.Store.Facts
import ElmInference.Proofs.Unify.Safety

/-!
# Unification learns or renames

A run of unification on original types either learns a fact about original variables or changes the store
calmly, so that no type gets deeper. Two things make this more than counting unsolved variables. Growing a
record allocates a variable, and when the second of two records cannot grow, the first one has grown all
the same: what is learned then is that a field stands on its chain. And once the fields of two records have
been unified, their ends may be solved already: unifying these then teaches nothing new, but something was
learned when they were solved.
-/

namespace ElmInference

/-- Types that a store holds while original types are unified: apart from variables, growing records and
what lies further down a chain, their parts are original. -/
inductive Ty.Stored (Q : Set Mention) : Ty → Prop
  | within {t : Ty} : t.Within Q → Stored Q t
  | var {v : TyVar} : Stored Q (.var v)
  | growing {id : RecordId} : Stored Q (.growing id)
  | record {fields : List (Name × Ty)} {base : Option Ty} {w : Option (AliasUse Ty)}
      {refs : FieldReferences} : (∀ r ∈ Ty.mentionsFields false fields, r ∈ Q) →
      (∀ b, base = some b → Stored Q b) → Stored Q (.record fields base w refs)

namespace Ty.Stored

variable {Q : Set Mention}

theorem fields {fields : List (Name × Ty)} {base : Option Ty} {w : Option (AliasUse Ty)}
    {refs : FieldReferences} (h : Stored Q (.record fields base w refs)) :
    ∀ r ∈ Ty.mentionsFields false fields, r ∈ Q := by
  cases h with
  | within h => exact fun r hr => h r (by simp [mentions, hr])
  | record hfields _ => exact hfields

theorem base {fields : List (Name × Ty)} {b : Ty} {w : Option (AliasUse Ty)}
    {refs : FieldReferences} (h : Stored Q (.record fields (some b) w refs)) : Stored Q b := by
  cases h with
  | within h => exact .within (fun r hr => h r (by simp [mentions, mentionsBase, hr]))
  | record _ hbase => exact hbase b rfl

theorem tuple {items : List Ty} (h : Stored Q (.tuple items)) : ∀ t ∈ items, t.Within Q := by
  cases h with
  | within h => exact within_tuple.mp h

theorem union {m n : Name} {args : List Ty} {w : Option (AliasUse Ty)}
    (h : Stored Q (.union m n args w)) : ∀ t ∈ args, t.Within Q := by
  cases h with
  | within h => exact within_union.mp h

theorem arrow {params : List Ty} {ret : Ty} {w : Option (AliasUse Ty)}
    (h : Stored Q (.arrow params ret w)) : (Ty.arrow params ret w).Within Q := by
  cases h with
  | within h => exact h

/-- The record that a grown variable is solved by. -/
theorem extension {rest : Ty} {fields : List (Name × Ty)}
    (hfields : ∀ r ∈ Ty.mentionsFields false fields, r ∈ Q) (hrest : Stored Q rest) :
    Stored Q (Ty.extension rest fields) := by
  unfold Ty.extension recordWith
  split
  · next heq =>
    obtain rfl := Option.some.inj heq
    refine .record (fun r hr => ?_) (fun b hb => ?_)
    · exact Store.mentions_addFields hfields hrest.fields r hr
    · subst hb
      exact hrest.base
  · refine .record hfields (fun b hb => ?_)
    cases hb
    exact hrest

end Ty.Stored

namespace Store

open Relation

variable {o : Origin} {s s₁ s' : Store}

/-- A store that goes back to an origin: its types are original or built on top of original parts. -/
structure Inherits (o : Origin) (s : Store) : Prop where
  size : o.size ≤ s.size
  records : o.records ≤ s.records.size
  solution : ∀ id t, s.solution? id = some t → t.Stored o.mentions
  fields : ∀ (id : Nat) g, s.records[id]? = some g →
    ∀ r ∈ Ty.mentionsFields false g.fields, r ∈ o.mentions
  base : ∀ (id : Nat) g, s.records[id]? = some g → g.base.Stored o.mentions
  old : ∀ (id : Nat) g, id < o.records → s.records[id]? = some g → g.base.Within o.mentions

theorem Inherits.has (h : Inherits o s) {r : Mention} (hr : r ∈ o.mentions) : s.Has r := by
  cases r with
  | var v => exact Nat.lt_of_lt_of_le hr h.size
  | record id => exact Nat.lt_of_lt_of_le hr h.records
  | field name => trivial
  | hole => trivial

theorem Inherits.owns (h : Inherits o s) {t : Ty} (ht : t.Within o.mentions) : s.Owns t :=
  fun r hr => h.has (ht r hr)

theorem Inherits.extended (h : Inherits o s) : Inherits o s.extended :=
  ⟨by simpa using Nat.le_succ_of_le h.size, h.records, fun id t hsol => h.solution id t (by simpa using hsol),
    h.fields, h.base, h.old⟩

theorem Inherits.solved (h : Inherits o s) {id : VarId} {t : Ty} (ht : t.Stored o.mentions) :
    Inherits o (s.solved id t) := by
  refine ⟨by simpa using h.size, h.records, fun other u hsol => ?_, h.fields, h.base, h.old⟩
  rcases solution?_solved_cases hsol with ⟨-, rfl⟩ | hold
  · exact ht
  · exact h.solution other u hold

theorem Inherits.recorded (h : Inherits o s) {g : GrowingRecord}
    (hfields : ∀ r ∈ Ty.mentionsFields false g.fields, r ∈ o.mentions)
    (hbase : g.base.Stored o.mentions) : Inherits o (s.recorded g) := by
  refine ⟨h.size, by simpa using Nat.le_succ_of_le h.records, h.solution, ?_, ?_, ?_⟩
  · intro id g' hrec
    rcases record?_recorded_cases hrec with ⟨-, rfl⟩ | hold
    · exact hfields
    · exact h.fields id g' hold
  · intro id g' hrec
    rcases record?_recorded_cases hrec with ⟨-, rfl⟩ | hold
    · exact hbase
    · exact h.base id g' hold
  · intro id g' hlt hrec
    rcases record?_recorded_cases hrec with ⟨rfl, -⟩ | hold
    · exact absurd hlt (Nat.not_lt.mpr h.records)
    · exact h.old id g' hlt hold

theorem Calm.inherits {T : VarId → Prop} (h : s.Calm T s') (hinherits : Inherits o s) : Inherits o s' := by
  refine ⟨hinherits.size.trans h.extension.size, hinherits.records.trans h.extension.records_size,
    fun id t hsol => ?_, ?_, ?_, ?_⟩
  · rcases h.solution id t hsol with hsol | ⟨w, rfl⟩
    · exact hinherits.solution id t hsol
    · exact .var
  · rw [h.records]
    exact hinherits.fields
  · rw [h.records]
    exact hinherits.base
  · rw [h.records]
    exact hinherits.old

/-! ### Live types -/

/-- Original types, and what stands on the chain of an original variable. -/
def Live (o : Origin) (s : Store) (t : Ty) : Prop :=
  t.Within o.mentions ∨ ∃ v₀ < o.size, ReflTransGen s.Chain (start v₀) t

theorem Live.extend (h : Live o s t) (hext : s.Extends s') : Live o s' t := by
  rcases h with h | ⟨v₀, hv₀, hpath⟩
  · exact .inl h
  · exact .inr ⟨v₀, hv₀, hext.chains hpath⟩

theorem Live.chain {t u : Ty} (h : Live o s t) (hinherits : Inherits o s) (hchain : s.Chain t u) :
    Live o s u := by
  rcases h with h | ⟨v₀, hv₀, hpath⟩
  · cases hchain with
    | @solution v _ hsol =>
      have hv : v.id < o.size := Ty.within_var.mp h
      exact .inr ⟨v.id, hv, .single (.solution hsol)⟩
    | base => exact .inl (fun r hr => h r (by simp [Ty.mentions, Ty.mentionsBase, hr]))
    | growing hrec =>
      have hid : _ < o.records := Ty.within_growing.mp h
      exact .inl (hinherits.old _ _ hid hrec)
  · exact .inr ⟨v₀, hv₀, hpath.tail hchain⟩

theorem Live.chains {t u : Ty} (h : Live o s t) (hinherits : Inherits o s)
    (hpath : ReflTransGen s.Chain t u) : Live o s u := by
  induction hpath with
  | refl => exact h
  | tail _ hstep ih => exact ih.chain hinherits hstep

theorem stored_of_chain {t u : Ty} (hinherits : Inherits o s) (ht : t.Stored o.mentions)
    (h : s.Chain t u) : u.Stored o.mentions := by
  cases h with
  | solution hsol => exact hinherits.solution _ _ hsol
  | base => exact ht.base
  | growing hrec => exact hinherits.base _ _ hrec

theorem Live.stored {t : Ty} (h : Live o s t) (hinherits : Inherits o s) : t.Stored o.mentions := by
  rcases h with h | ⟨v₀, hv₀, hpath⟩
  · exact .within h
  · induction hpath with
    | refl => exact .var
    | tail _ hstep ih => exact stored_of_chain hinherits ih hstep

theorem Live.owns {t : Ty} (h : Live o s t) (hinherits : Inherits o s) (hclosed : s.Closed) :
    s.Owns t := by
  rcases h with h | ⟨v₀, hv₀, hpath⟩
  · exact hinherits.owns h
  · induction hpath with
    | refl => exact owns_var (Nat.lt_of_lt_of_le hv₀ hinherits.size)
    | tail _ hstep ih => exact ih.child hstep.child hclosed

theorem Live.reaches {v : TyVar} (h : Live o s (.var v)) : ∃ v₀ < o.size, s.Reaches v₀ v.id := by
  rcases h with h | ⟨v₀, hv₀, hpath⟩
  · have hv : v.id < o.size := Ty.within_var.mp h
    exact ⟨v.id, hv, ⟨v.id, "", false⟩, rfl, .refl⟩
  · exact ⟨v₀, hv₀, v, rfl, hpath⟩

theorem Live.endsAt {t : Ty} {id : VarId} (h : Live o s t) (hinherits : Inherits o s)
    (hend : s.EndsAt t id) : ∃ v₀ < o.size, s.Reaches v₀ id := by
  obtain ⟨_, w, rfl, hpath⟩ := hend
  exact (h.chains hinherits hpath).reaches

/-! ### Progress -/

/-- Something was learned, or variables were renamed at most. -/
def Progress (o : Origin) (s s' : Store) : Prop :=
  Learns o s s' ∨ s.Calm (fun _ => True) s'

theorem Progress.refl (s : Store) : Progress o s s :=
  .inr (.refl _ s)

theorem Progress.trans (h : Progress o s s₁) (h' : Progress o s₁ s') (hext : s.Extends s₁)
    (hext' : s₁.Extends s') (hclosed : s.Closed) (hclosed₁ : s₁.Closed) (hsize : o.size ≤ s.size) :
    Progress o s s' := by
  rcases h with hlearns | hcalm
  · exact .inl (hlearns.later hext' hclosed₁ (hsize.trans hext.size))
  · rcases h' with hlearns | hcalm'
    · exact .inl (hlearns.earlier hext hclosed hsize)
    · exact .inr (hcalm.trans hcalm')

theorem Calm.progress {T : VarId → Prop} (h : s.Calm T s') : Progress o s s' :=
  .inr (h.mono (fun _ _ _ => trivial))

/-- Solving a live variable by a live type. -/
theorem learns_live {v : TyVar} {t : Ty} (hun : s.Unsolved v.id)
    (hnot : ¬ s.Leads false t (.var v.id)) (hv : Live o s (.var v))
    (ht : ∀ id, s.EndsAt t id → ∃ v₀ < o.size, s.Reaches v₀ id) : Learns o s (s.solved v.id t) := by
  obtain ⟨v₀, hv₀, hreaches⟩ := hv.reaches
  exact learns_solved hun hnot hv₀ hreaches ht

theorem Joins.inherits {v w : TyVar} {out : Outcome} (h : s.Joins v w out s') (hv : s.Unsolved v.id)
    (hw : s.Unsolved w.id) (hne : v.id ≠ w.id) (hinherits : Inherits o s) : Inherits o s' :=
  (h.calm hv hw hne).inherits hinherits

theorem endsAt_var {w : TyVar} {id : VarId} (hun : s.Unsolved w.id) (h : s.EndsAt (.var w) id) :
    id = w.id :=
  h.unique ⟨hun, w, rfl, .refl⟩

/-- Joining two live variables. -/
theorem Joins.progress {v w : TyVar} {out : Outcome} (h : s.Joins v w out s') (hv : s.Unsolved v.id)
    (hw : s.Unsolved w.id) (hne : v.id ≠ w.id) (hclosed : s.Closed) (hinherits : Inherits o s)
    (hlv : Live o s (.var v)) (hlw : Live o s (.var w)) : Progress o s s' := by
  cases h with
  | left _ _ =>
    refine .inl (learns_live hv (fun hleads => ?_) hlv (fun id hid => ?_))
    · exact hne (Node.var.inj (leads_of_unsolved hw hleads))
    · exact hlw.endsAt hinherits hid
  | right _ _ =>
    refine .inl (learns_live hw (fun hleads => ?_) hlw (fun id hid => ?_))
    · exact hne (Node.var.inj (leads_of_unsolved hv hleads)).symm
    · exact hlv.endsAt hinherits hid
  | @both c d both _ _ _ _ _ =>
    -- after the first of the two solutions the new variable is live, and the second one joins them
    have hvf : v.id ≠ s.size := Nat.ne_of_lt hv.1
    have hwf : w.id ≠ s.size := Nat.ne_of_lt hw.1
    have hunw := hw.extended.solved_of_ne (.var ⟨s.size, both.name, false⟩) (Ne.symm hne)
    have hunf := (unsolved_extended_self s).solved_of_ne (.var ⟨s.size, both.name, false⟩)
      (Ne.symm hvf)
    have hext : s.Extends (s.extended.solved v.id (.var ⟨s.size, both.name, false⟩)) :=
      (extends_extended s).trans (extends_solved _ hv.extended)
    refine .inl (Learns.earlier (learns_live hunw (fun hleads => ?_) (hlw.extend hext)
      (fun id hid => ?_)) hext hclosed hinherits.size)
    · exact hwf (Node.var.inj (leads_of_unsolved hunf hleads))
    · obtain ⟨v₀, hv₀, hreaches⟩ := (hlv.extend hext).reaches
      obtain ⟨x, hx, hpath⟩ := hreaches
      refine ⟨v₀, hv₀, ⟨s.size, both.name, false⟩, (endsAt_var hunf hid).symm, hpath.tail (.solution ?_)⟩
      rw [hx, solution?_solved_self _ hv.extended.1]
  | clash _ => exact .refl s

/-! ### Flattened records -/

/-- A chain of variables alone shows no fields. -/
theorem var_of_chain {t u : Ty} {w : TyVar} (h : s.ResolvesTo t (.var w))
    (hpath : ReflTransGen s.Chain t u) : ∃ x, u = .var x := by
  generalize hr : Ty.var w = r at h
  induction h with
  | solved hsol _ ih =>
    rcases hpath.cases_head with rfl | ⟨c, hstep, hrest⟩
    · exact ⟨_, rfl⟩
    · cases hstep with
      | solution hsol' =>
        rw [hsol] at hsol'
        cases hsol'
        exact ih hrest hr
  | unsolved hun => exact ⟨_, eq_of_chain_unsolved hun hpath⟩
  | other hnot => exact absurd hr.symm (hnot w)

/-- Calm changes put no field on a chain. -/
theorem Calm.shows {T : VarId → Prop} (h : s.Calm T s') (hclosed : s.Closed) {t : Ty} {name : Name}
    (ht : s.Owns t) (hshows : s'.Shows t name) : s.Shows t name := by
  obtain ⟨u, hpath, hname⟩ := hshows
  induction hpath using ReflTransGen.head_induction_on with
  | refl =>
    refine ⟨u, .refl, ?_⟩
    cases u with
    | growing id => simpa [fieldsAt, h.records] using hname
    | _ => exact hname
  | @head t c hstep hrest ih =>
    cases hstep with
    | @solution v _ hsol =>
      rcases unsolved_or_some ht.var_lt with hun | ⟨t', hsol'⟩
      · rcases h.unsolved v hun with hun' | ⟨-, w, hresolves⟩
        · exact absurd hun' (not_unsolved_of_some hsol)
        · obtain ⟨x, rfl⟩ := var_of_chain hresolves (.head (.solution hsol) hrest)
          simp [fieldsAt] at hname
      · rw [h.extension.solution _ _ hsol'] at hsol
        cases hsol
        obtain ⟨u', hpath', hname'⟩ := ih (hclosed.owns_solution hsol')
        exact ⟨u', .head (.solution hsol') hpath', hname'⟩
    | base =>
      obtain ⟨u', hpath', hname'⟩ := ih (ht.child .base hclosed)
      exact ⟨u', .head .base hpath', hname'⟩
    | growing hrec =>
      rw [h.records] at hrec
      obtain ⟨u', hpath', hname'⟩ := ih (hclosed.owns_base hrec)
      exact ⟨u', .head (.growing hrec) hpath', hname'⟩

namespace FlattensTo

variable {t : Ty} {above : List (Name × Ty)} {f : Flattened}

/-- The open end of a flattened record stands on its chain. -/
theorem chain {v : TyVar} (h : s.FlattensTo t above f) (htail : f.tail = .opened v) :
    ReflTransGen s.Chain t (.var v) := by
  induction h with
  | closed => cases htail
  | base _ ih => exact .head .base (ih htail)
  | growing hrec _ ih => exact .head (.growing hrec) (ih htail)
  | unsolved _ =>
    cases htail
    exact .refl
  | solved hsol _ ih => exact .head (.solution hsol) (ih htail)
  | unknown => cases htail
  | baseless _ => cases htail

/-- Fields that were collected before are kept. -/
theorem above_names (h : s.FlattensTo t above f) {name : Name} (hname : name ∈ above.map Prod.fst) :
    name ∈ f.fields.map Prod.fst := by
  induction h with
  | closed => exact Ty.mem_addFields_names.mpr (.inl hname)
  | base _ ih => exact ih (Ty.mem_addFields_names.mpr (.inl hname))
  | growing _ _ ih => exact ih (Ty.mem_addFields_names.mpr (.inl hname))
  | unsolved _ => exact hname
  | solved _ _ ih => exact ih hname
  | unknown => exact hname
  | baseless _ => exact hname

/-- A flattened record has every field that stands on its chain. -/
theorem shows (h : s.FlattensTo t above f) {name : Name} (hshows : s.Shows t name) :
    name ∈ f.fields.map Prod.fst := by
  obtain ⟨u, hpath, hname⟩ := hshows
  induction h generalizing u with
  | closed =>
    rcases hpath.cases_head with rfl | ⟨c, hstep, -⟩
    · exact Ty.mem_addFields_names.mpr (.inr hname)
    · cases hstep
  | base hrest ih =>
    rcases hpath.cases_head with rfl | ⟨c, hstep, hrest'⟩
    · exact hrest.above_names (Ty.mem_addFields_names.mpr (.inr hname))
    · cases hstep with
      | base => exact ih u hrest' hname
  | growing hrec hrest ih =>
    rcases hpath.cases_head with rfl | ⟨c, hstep, hrest'⟩
    · refine hrest.above_names (Ty.mem_addFields_names.mpr (.inr ?_))
      simpa [fieldsAt, hrec] using hname
    · cases hstep with
      | growing hrec' =>
        rw [hrec] at hrec'
        cases hrec'
        exact ih u hrest' hname
  | unsolved hun =>
    cases eq_of_chain_unsolved hun hpath
    simp [fieldsAt] at hname
  | solved hsol _ ih =>
    rcases hpath.cases_head with rfl | ⟨c, hstep, hrest'⟩
    · simp [fieldsAt] at hname
    · cases hstep with
      | solution hsol' =>
        rw [hsol] at hsol'
        cases hsol'
        exact ih u hrest' hname
  | unknown =>
    rcases hpath.cases_head with rfl | ⟨c, hstep, -⟩
    · simp [fieldsAt] at hname
    · cases hstep
  | @baseless t _ hbaseless =>
    rcases hpath.cases_head with rfl | ⟨c, hstep, -⟩
    · cases t <;> simp [fieldsAt, isBaseless] at hname hbaseless
    · cases hstep <;> cases hbaseless

theorem stored {o : Origin} (hinherits : Inherits o s) (h : s.FlattensTo t above f)
    (ht : t.Stored o.mentions) (habove : ∀ r ∈ Ty.mentionsFields false above, r ∈ o.mentions) :
    ∀ r ∈ Ty.mentionsFields false f.fields, r ∈ o.mentions := by
  induction h with
  | closed => exact mentions_addFields habove ht.fields
  | base _ ih => exact ih ht.base (mentions_addFields habove ht.fields)
  | growing hrec _ ih =>
    exact ih (hinherits.base _ _ hrec) (mentions_addFields habove (hinherits.fields _ _ hrec))
  | unsolved _ => exact habove
  | solved hsol _ ih => exact ih (hinherits.solution _ _ hsol) habove
  | unknown => exact habove
  | baseless _ => exact habove

/-- The chain of an original record passes an original variable, unless it is closed. -/
theorem exists_original {v : TyVar} (hinherits : Inherits o s) (h : s.FlattensTo t above f)
    (ht : t.Within o.mentions) (htail : f.tail = .opened v) :
    ∃ v₀ < o.size, s.Reaches v₀ v.id ∧
      ∀ name, s.Shows (start v₀) name → name ∈ f.fields.map Prod.fst := by
  induction h with
  | closed => cases htail
  | base _ ih => exact ih (fun r hr => ht r (by simp [Ty.mentions, Ty.mentionsBase, hr])) htail
  | growing hrec _ ih => exact ih (hinherits.old _ _ (Ty.within_growing.mp ht) hrec) htail
  | @unsolved w above hun =>
    cases htail
    refine ⟨v.id, Ty.within_var.mp ht, ⟨⟨v.id, "", false⟩, rfl, .refl⟩, fun name hshows => ?_⟩
    have hflat : s.FlattensTo (start v.id) above ⟨above, .opened ⟨v.id, "", false⟩⟩ := .unsolved hun
    exact hflat.shows hshows
  | @solved w t above f hsol hrest ih =>
    refine ⟨w.id, Ty.within_var.mp ht, ⟨v, rfl, .head (.solution hsol) (hrest.chain htail)⟩,
      fun name hshows => ?_⟩
    exact (FlattensTo.solved (v := ⟨w.id, "", false⟩) hsol hrest).shows hshows
  | unknown => cases htail
  | baseless _ => cases htail

end FlattensTo

end Store

namespace StoreM

open Store Relation

variable {o : Origin} {s s₁ s' : Store}

/-! ### The places where a variable is solved -/

theorem Bound.inherits {v : TyVar} {t : Ty} {out : Outcome} (h : Bound s v t out s')
    (hinherits : Inherits o s) (ht : Live o s t) : Inherits o s' := by
  cases h with
  | rigid _ => exact hinherits
  | refused _ hrun => exact (restrains_constrainLike hrun).calm.inherits hinherits
  | infinite _ hrun _ => exact (restrains_constrainLike hrun).calm.inherits hinherits
  | solved _ hrun _ _ _ =>
    have hinherits₁ := (restrains_constrainLike hrun).calm.inherits hinherits
    exact hinherits₁.solved (ht.stored hinherits)
  | copied hrecord _ hrun _ _ =>
    have hinherits₁ := (restrains_constrainLike hrun).calm.inherits hinherits
    have hstored := hrecord ▸ ht.stored hinherits
    exact (hinherits₁.recorded hstored.fields hstored.base).solved .growing

/-- A live variable meets a live type. -/
theorem Bound.progress {v : TyVar} {t : Ty} {out : Outcome} (h : Bound s v t out s') (hsane : s.Sane)
    (hinherits : Inherits o s) (hv : Live o s (.var v)) (ht : Live o s t) : Progress o s s' := by
  cases h with
  | rigid _ => exact .refl s
  | refused _ hrun => exact (restrains_constrainLike hrun).calm.progress
  | infinite _ hrun _ => exact (restrains_constrainLike hrun).calm.progress
  | solved _ hrun hun hnot _ =>
    have hcalm := (restrains_constrainLike hrun).calm
    have hext := hcalm.extension
    refine .inl (Learns.earlier (learns_live hun hnot (hv.extend hext) (fun id hid => ?_)) hext
      hsane.closed hinherits.size)
    exact (ht.extend hext).endsAt (hcalm.inherits hinherits) hid
  | @copied s₁ fields base w refs hrecord _ hrun hun hnot =>
    have hcalm := (restrains_constrainLike hrun).calm
    have hinherits₁ := hcalm.inherits hinherits
    obtain ⟨Q₁, hmoves⟩ := (restrains_constrainLike hrun).moves _ hsane.tidy
      (ht.owns hinherits hsane.closed)
    have hclosed₁ := (hmoves.tidy hsane.tidy).closed
    have hlive₁ := ht.extend hcalm.extension
    have hext := hcalm.extension.trans (extends_recorded s₁ { fields, base, refs })
    subst hrecord
    refine .inl (Learns.earlier (learns_live ⟨by simpa using hun.1, by simpa using hun.2⟩ ?_
      (hv.extend hext) (fun id hid => ?_)) hext hsane.closed hinherits.size)
    · exact not_leads_copy hclosed₁ (hlive₁.owns hinherits₁ hclosed₁) hnot
    · -- the chain of the copy goes on at the base of the record that was copied
      have hbase := hid.of_chain (.single (.growing (record?_recorded_self s₁ { fields, base, refs })))
      have hstored := hlive₁.stored hinherits₁
      exact ((hlive₁.chain hinherits₁ .base).extend (extends_recorded s₁ _)).endsAt
        (hinherits₁.recorded hstored.fields hstored.base) hbase

/-! ### Records that grow -/

/-- A flattened record whose open end, if it has one, is an unsolved variable in other clothes, and whose
original variable shows no other fields than the record. -/
structure Grounded (o : Origin) (s : Store) (f : Flattened) : Prop where
  resolves : ∀ v, f.tail = .opened v → ∃ w, s.ResolvesTo (.var v) (.var w)
  original : ∀ v, f.tail = .opened v → ∃ v₀ < o.size, s.Reaches v₀ v.id ∧
    ∀ name, s.Shows (start v₀) name → name ∈ f.fields.map Prod.fst

theorem Grounded.calm {T : VarId → Prop} {f : Flattened} (h : Grounded o s f) (hcalm : s.Calm T s')
    (hclosed : s.Closed) (hinherits : Inherits o s) : Grounded o s' f := by
  constructor
  · intro v htail
    obtain ⟨w, hresolves⟩ := h.resolves v htail
    rcases hcalm.unsolved w hresolves.unsolved_of_var with hun | ⟨-, x, hrest⟩
    · exact ⟨w, hresolves.trans hcalm.extension (.unsolved hun)⟩
    · exact ⟨x, hresolves.trans hcalm.extension hrest⟩
  · intro v htail
    obtain ⟨v₀, hv₀, hreaches, hshows⟩ := h.original v htail
    refine ⟨v₀, hv₀, hcalm.extension.reaches hreaches, fun name hname => hshows name ?_⟩
    exact hcalm.shows hclosed (owns_var (Nat.lt_of_lt_of_le hv₀ hinherits.size)) hname

theorem get?_eq_none_iff {fields : List (Name × Ty)} {name : Name} :
    Assoc.get? fields name = none ↔ name ∉ fields.map Prod.fst := by
  induction fields with
  | nil => simp [Assoc.get?]
  | cons entry rest ih =>
    obtain ⟨k, t⟩ := entry
    rw [Assoc.get?]
    split
    · next heq => simp [heq]
    · next hne => simp [ih, Ne.symm hne]

theorem mem_fieldsMissingIn {f g : Flattened} {name : Name} :
    name ∈ (fieldsMissingIn f g).map Prod.fst ↔
      name ∈ f.fields.map Prod.fst ∧ name ∉ g.fields.map Prod.fst := by
  simp only [fieldsMissingIn, Flattened.field?, List.mem_map, List.mem_filter, Option.isNone_iff_eq_none,
    get?_eq_none_iff]
  constructor
  · rintro ⟨field, ⟨hmem, hnot⟩, rfl⟩
    exact ⟨⟨field, hmem, rfl⟩, hnot⟩
  · rintro ⟨⟨field, hmem, rfl⟩, hnot⟩
    exact ⟨field, ⟨hmem, hnot⟩, rfl⟩

theorem names_extension {rest : Ty} {fields : List (Name × Ty)} {name : Name}
    (h : name ∈ fields.map Prod.fst) :
    name ∈ (s.fieldsAt (Ty.extension rest fields)).map Prod.fst := by
  unfold Ty.extension Ty.recordWith
  split
  · exact Ty.mem_addFields_names.mpr (.inl h)
  · exact h

/-- Growing reveals a field on the chain of an original variable, when it solves anything at all. -/
theorem Grown.reveals {f g : Flattened} {rest : Ty} {out : Outcome} (hmissing : fieldsMissingIn g f ≠ [])
    (hnames : ∀ r ∈ Ty.mentionsFields false g.fields, r ∈ o.mentions) (hgrounded : Grounded o s f)
    (h : Grown s f.tail (fieldsMissingIn g f) rest (.ok (out, s'))) : s' = s ∨ Reveals o s s' := by
  cases h with
  | solved htail _ hun _ =>
    obtain ⟨field, hfield⟩ := List.exists_mem_of_ne_nil _ hmissing
    have hname := List.mem_map_of_mem (f := Prod.fst) hfield
    obtain ⟨v₀, hv₀, hreaches, hshows⟩ := hgrounded.original _ htail
    obtain ⟨hin, hout⟩ := mem_fieldsMissingIn.mp hname
    refine .inr (reveals_solved hun hv₀ hreaches ?_ (names_extension hname)
      (fun h => hout (hshows _ h)))
    obtain ⟨other, hother, heq⟩ := List.mem_map.mp hin
    exact hnames (.field field.1) (Ty.mem_mentionsFields.mpr ⟨other, hother, .inl (by rw [heq])⟩)
  | unknown _ => exact .inl rfl
  | closed _ => exact .inl rfl
  | rigid _ _ => exact .inl rfl
  | infinite _ _ _ => exact .inl rfl

theorem Grown.inherits {tail : Tail} {fields : List (Name × Ty)} {rest : Ty} {out : Outcome}
    (h : Grown s tail fields rest (.ok (out, s'))) (hinherits : Inherits o s)
    (hfields : ∀ r ∈ Ty.mentionsFields false fields, r ∈ o.mentions)
    (hrest : rest.Stored o.mentions) : Inherits o s' := by
  cases h with
  | solved _ _ _ _ => exact hinherits.solved (.extension hfields hrest)
  | unknown _ => exact hinherits
  | closed _ => exact hinherits
  | rigid _ _ => exact hinherits
  | infinite _ _ _ => exact hinherits

theorem Grown.extends {tail : Tail} {fields : List (Name × Ty)} {rest : Ty} {out : Outcome}
    (h : Grown s tail fields rest (.ok (out, s'))) : s.Extends s' := by
  cases h with
  | solved _ _ hun _ => exact extends_solved _ hun
  | unknown _ => exact .refl s
  | closed _ => exact .refl s
  | rigid _ _ => exact .refl s
  | infinite _ _ _ => exact .refl s

theorem GrownBoth.inherits {tail tail' : Tail} {fields fields' : List (Name × Ty)} {out : Outcome}
    (h : GrownBoth s tail tail' fields fields' (.ok (out, s'))) (hinherits : Inherits o s)
    (hfields : ∀ r ∈ Ty.mentionsFields false fields, r ∈ o.mentions)
    (hfields' : ∀ r ∈ Ty.mentionsFields false fields', r ∈ o.mentions) : Inherits o s' := by
  cases h with
  | same _ => exact hinherits
  | first _ hfirst => exact hfirst.inherits hinherits.extended hfields' .var
  | second _ hfirst hsecond =>
    exact hsecond.inherits (hfirst.inherits hinherits.extended hfields' .var) hfields .var

/-- The first record that grows reveals a field, whatever becomes of the second one. -/
theorem GrownBoth.reveals {f g : Flattened} {out : Outcome} (hf : fieldsMissingIn f g ≠ [])
    (hg : fieldsMissingIn g f ≠ []) (hfnames : ∀ r ∈ Ty.mentionsFields false f.fields, r ∈ o.mentions)
    (hgnames : ∀ r ∈ Ty.mentionsFields false g.fields, r ∈ o.mentions) (hfg : Grounded o s f)
    (hgg : Grounded o s g) (hclosed : s.Closed) (hinherits : Inherits o s)
    (h : GrownBoth s f.tail g.tail (fieldsMissingIn f g) (fieldsMissingIn g f) (.ok (out, s'))) :
    s' = s ∨ s' = s.extended ∨ Reveals o s s' := by
  have hcalm := calm_extended (fun _ => True) s
  have hfirst : ∀ {out s₁}, Grown s.extended f.tail (fieldsMissingIn g f) (.var ⟨s.size, "a", false⟩)
      (.ok (out, s₁)) → s₁ = s.extended ∨ Reveals o s s₁ := by
    intro out s₁ hgrown
    refine (hgrown.reveals hg hgnames (hfg.calm hcalm hclosed hinherits)).imp_right (fun hreveals => ?_)
    exact hreveals.earlier (extends_extended s)
  cases h with
  | same _ => exact .inl rfl
  | first _ hgrown => exact .inr (hfirst hgrown)
  | second _ hgrown hsecond =>
    rcases hfirst hgrown with rfl | hreveals
    · refine .inr ((hsecond.reveals hf hfnames (hgg.calm hcalm hclosed hinherits)).imp_right ?_)
      exact fun hreveals => hreveals.earlier (extends_extended s)
    · exact .inr (.inr (hreveals.later hsecond.extends))

/-! ### Whole runs -/

/-- An original type, or one that stands for an unsolved variable. -/
def Shallow (o : Origin) (s : Store) (t : Ty) : Prop :=
  t.Within o.mentions ∨ ∃ w, s.ResolvesTo t (.var w)

/-- Runs on live types keep the store's origin, and those on shallow types make progress. -/
def Learning (o : Origin) : Behaviour := fun s a e res =>
  s.Sane → Inherits o s → Live o s a → Live o s e → ∀ out s', res = .ok (out, s') →
    Inherits o s' ∧ (Shallow o s a → Shallow o s e → Progress o s s')

/-- What is known of every run: it is safe and it learns. -/
def Advancing (F : Fault → Prop) (o : Origin) : Behaviour := fun s a e res =>
  Safe F s a e res ∧ Learning o s a e res

structure Advance (o : Origin) (s s' : Store) : Prop where
  extension : s.Extends s'
  sane : s'.Sane
  inherits : Inherits o s'

theorem Advance.refl (hsane : s.Sane) (hinherits : Inherits o s) : Advance o s s :=
  ⟨.refl s, hsane, hinherits⟩

theorem Advance.trans (h : Advance o s s₁) (h' : Advance o s₁ s') : Advance o s s' :=
  ⟨h.extension.trans h'.extension, h'.sane, h'.inherits⟩

section Level

variable {F : Fault → Prop}

theorem advance_of_run {a e : Ty} {out : Outcome} (h : Advancing F o s a e (.ok (out, s')))
    (hsane : s.Sane) (hinherits : Inherits o s) (ha : Live o s a) (he : Live o s e) :
    Advance o s s' ∧ (Shallow o s a → Shallow o s e → Progress o s s') := by
  obtain ⟨hsafe, hlearning⟩ := h
  obtain ⟨Q', hmoves⟩ := hsafe _ hsane.tidy (ha.owns hinherits hsane.closed)
    (he.owns hinherits hsane.closed)
  obtain ⟨hinherits', hprogress⟩ := hlearning hsane hinherits ha he out s' rfl
  exact ⟨⟨hmoves.extends, (hmoves.tidy hsane.tidy).sane, hinherits'⟩, hprogress⟩

theorem advance_of_original {a e : Ty} {out : Outcome} (h : Advancing F o s a e (.ok (out, s')))
    (hsane : s.Sane) (hinherits : Inherits o s) (ha : a.Within o.mentions)
    (he : e.Within o.mentions) : Advance o s s' ∧ Progress o s s' := by
  obtain ⟨hadvance, hprogress⟩ := advance_of_run h hsane hinherits (.inl ha) (.inl he)
  exact ⟨hadvance, hprogress (.inl ha) (.inl he)⟩

theorem Progress.after (hfirst : Advance o s s₁ ∧ Progress o s s₁)
    (hsecond : Advance o s₁ s' ∧ Progress o s₁ s') (hsane : s.Sane) (hinherits : Inherits o s) :
    Advance o s s' ∧ Progress o s s' :=
  ⟨hfirst.1.trans hsecond.1, hfirst.2.trans hsecond.2 hfirst.1.extension hsecond.1.extension
    hsane.closed hfirst.1.sane.closed hinherits.size⟩

theorem advance_pairs {pairs : List (Ty × Ty)} {out : Outcome}
    (h : Pairs (Advancing F o) s pairs (.ok (out, s'))) (hsane : s.Sane) (hinherits : Inherits o s)
    (hpairs : ∀ p ∈ pairs, p.1.Within o.mentions ∧ p.2.Within o.mentions) :
    Advance o s s' ∧ Progress o s s' := by
  generalize hres : (Except.ok (out, s') : Ending Outcome) = res at h
  induction h generalizing out with
  | nil =>
    cases hres
    exact ⟨.refl hsane hinherits, .refl _⟩
  | fault _ => cases hres
  | later _ _ _ => cases hres
  | cons hfirst _ ih =>
    cases hres
    obtain ⟨ha, he⟩ := hpairs _ List.mem_cons_self
    have hhead := advance_of_original hfirst hsane hinherits ha he
    have htail := ih hhead.1.sane hhead.1.inherits
      (fun p hp => hpairs p (List.mem_cons_of_mem _ hp)) rfl
    exact Progress.after hhead htail hsane hinherits

theorem advance_fields {fields : List (Name × Ty × Ty)} {found : List (Name × Ty × Ty) × Bool}
    (h : Fields (Advancing F o) s fields (.ok (found, s'))) (hsane : s.Sane)
    (hinherits : Inherits o s)
    (hfields : ∀ p ∈ fields.map Prod.snd, p.1.Within o.mentions ∧ p.2.Within o.mentions) :
    Advance o s s' ∧ Progress o s s' := by
  obtain ⟨out, hpairs, -⟩ := h.pairs_of_ok
  exact advance_pairs hpairs hsane hinherits hfields

/-- A flattened record of the store, with original fields and a live end. -/
structure Inherited (o : Origin) (s : Store) (f : Flattened) : Prop where
  within : f.Within (· ∈ {r | s.Has r})
  fields : ∀ r ∈ Ty.mentionsFields false f.fields, r ∈ o.mentions
  live : ∀ v, f.tail = .opened v → Live o s (.var v)

theorem Inherited.extend {f : Flattened} (h : Inherited o s f) (hext : s.Extends s') :
    Inherited o s' f :=
  ⟨Flattened.Within.mono h.within (fun _ hr => hext.has hr), h.fields,
    fun v hv => (h.live v hv).extend hext⟩

theorem stored_toTy (tail : Tail) : tail.toTy.Stored o.mentions := by
  cases tail with
  | closed =>
    exact .within (by simp [Tail.toTy, Ty.emptyRecord, Ty.Within, Ty.mentions, Ty.mentionsFields,
      Ty.mentionsBase])
  | opened v => exact .var
  | unknown =>
    refine .within (fun r hr => ?_)
    obtain rfl : r = .hole := by simpa [Tail.toTy, Ty.mentions] using hr
    trivial

theorem Inherited.missing {f : Flattened} (h : Inherited o s f) (g : Flattened) :
    ∀ r ∈ Ty.mentionsFields false (fieldsMissingIn f g), r ∈ o.mentions := by
  intro r hr
  obtain ⟨field, hfield, hr⟩ := Ty.mem_mentionsFields.mp hr
  exact h.fields r (Ty.mem_mentionsFields.mpr ⟨field, List.mem_of_mem_filter hfield, hr⟩)

theorem Inherited.grown {f g : Flattened} (hf : Inherited o s f) (hg : Inherited o s g)
    (hsane : s.Sane) : Grown s f.tail (fieldsMissingIn g f) g.tail.toTy
      (grow f.tail (fieldsMissingIn g f) g.tail.toTy s) :=
  grown_grow hsane.loopfree hsane.closed (tail_lt hsane.tidy hf.within.tail)
    (Ty.within_extension (within_fieldsMissingIn hg.within f) hg.within.tail)

/-- Closing a record that has a live end. -/
theorem learns_close {v : TyVar} (hun : s.Unsolved v.id) (hv : Live o s (.var v)) :
    Learns o s (s.solved v.id .emptyRecord) := by
  refine learns_live hun (fun hleads => ?_) hv (fun id hid => ?_)
  · obtain ⟨m, ⟨r, hr, -⟩, -⟩ := hleads
    simp [Ty.emptyRecord, Ty.mentions, Ty.mentionsFields, Ty.mentionsBase] at hr
  · obtain ⟨_, w, rfl, hpath⟩ := hid
    rcases hpath.cases_head with heq | ⟨c, hstep, -⟩
    · cases heq
    · cases hstep

theorem learning_close {v : TyVar} {out : Outcome} (hsane : s.Sane) (hinherits : Inherits o s)
    (hv : Live o s (.var v)) (h : solve v .emptyRecord s = .ok (out, s')) :
    Inherits o s' ∧ Progress o s s' := by
  rcases unsolved_or_some (hv.owns hinherits hsane.closed).var_lt with hun | ⟨u, hsol⟩
  · rw [run_solve _ hun] at h
    cases h
    refine ⟨hinherits.solved (.within ?_), .inl (learns_close hun hv)⟩
    simp [Ty.emptyRecord, Ty.Within, Ty.mentions, Ty.mentionsFields, Ty.mentionsBase]
  · rw [run_solve_some _ hsol] at h
    cases h

theorem progress_of_reveals (h : s' = s ∨ Reveals o s s') : Progress o s s' := by
  rcases h with rfl | hreveals
  · exact .refl _
  · exact .inl hreveals.learns

theorem learning_ends {f g : Flattened} {out : Outcome}
    (h : Ends (Advancing F o) s f g (.ok (out, s'))) (hsane : s.Sane) (hinherits : Inherits o s)
    (hf : Inherited o s f) (hg : Inherited o s g) :
    Inherits o s' ∧ (Grounded o s f → Grounded o s g → Progress o s s') := by
  generalize hres : (Except.ok (out, s') : Ending Outcome) = res at h
  cases h with
  | settled _ _ _ =>
    cases hres
    exact ⟨hinherits, fun _ _ => .refl s⟩
  | tails _ _ hft hgt hrun =>
    subst hres
    obtain ⟨hadvance, hprogress⟩ := advance_of_run hrun hsane hinherits (hf.live _ hft) (hg.live _ hgt)
    exact ⟨hadvance.inherits, fun hfg hgg =>
      hprogress (.inr (hfg.resolves _ hft)) (.inr (hgg.resolves _ hgt))⟩
  | rigid _ _ =>
    cases hres
    exact ⟨hinherits, fun _ _ => .refl s⟩
  | close _ _ _ htails hrun =>
    subst hres
    have hlive : Live o s (.var _) := htails.elim (fun h => hf.live _ h.1) (fun h => hg.live _ h.2)
    obtain ⟨hinherits', hprogress⟩ := learning_close hsane hinherits hlive hrun
    exact ⟨hinherits', fun _ _ => hprogress⟩
  | growLeft _ hmissing hrun =>
    have hgrown := hf.grown hg hsane
    rw [hrun, ← hres] at hgrown
    exact ⟨hgrown.inherits hinherits (hg.missing f) (stored_toTy _),
      fun hfg _ => progress_of_reveals (hgrown.reveals hmissing hg.fields hfg)⟩
  | growRight hmissing _ hrun =>
    have hgrown := hg.grown hf hsane
    rw [hrun, ← hres] at hgrown
    exact ⟨hgrown.inherits hinherits (hf.missing g) (stored_toTy _),
      fun _ hgg => progress_of_reveals (hgrown.reveals hmissing hf.fields hgg)⟩
  | growBoth hmissing hmissing' hrun =>
    have hgrown := grown_growBoth hsane.tidy hf.within.tail hg.within.tail
      (within_fieldsMissingIn hf.within g) (within_fieldsMissingIn hg.within f)
    rw [hrun, ← hres] at hgrown
    refine ⟨hgrown.inherits hinherits (hf.missing g) (hg.missing f), fun hfg hgg => ?_⟩
    rcases hgrown.reveals hmissing hmissing' hf.fields hg.fields hfg hgg hsane.closed hinherits with
      rfl | rfl | hreveals
    · exact .refl _
    · exact (calm_extended (fun _ => True) s).progress
    · exact .inl hreveals.learns

theorem inherited_flatten {t : Ty} {f : Flattened} (hsane : s.Sane) (hinherits : Inherits o s)
    (ht : Live o s t) (h : s.flatten t = .ok f) : Inherited o s f := by
  have hflat := flattensTo_of_flatten h
  refine ⟨within_flatten hsane.tidy (ht.owns hinherits hsane.closed) h, ?_, fun v hv => ?_⟩
  · exact hflat.stored hinherits (ht.stored hinherits) (by simp [Ty.mentionsFields])
  · exact ht.chains hinherits (hflat.chain hv)

/-- Flattening goes on where resolving stops. -/
theorem flattensTo_of_resolvesTo {t r : Ty} {above : List (Name × Ty)} {f : Flattened}
    (h : s.ResolvesTo t r) (hflat : s.FlattensTo r above f) : s.FlattensTo t above f := by
  induction h with
  | solved hsol _ ih => exact .solved hsol (ih hflat)
  | unsolved _ => exact hflat
  | other _ => exact hflat

theorem grounded_flatten {t r : Ty} {f : Flattened} (hinherits : Inherits o s)
    (ht : t.Within o.mentions) (hr : s.ResolvesTo t r) (h : s.flatten r = .ok f) : Grounded o s f := by
  have hflat := flattensTo_of_resolvesTo hr (flattensTo_of_flatten h)
  exact ⟨fun v hv => ⟨v, .unsolved (hflat.unsolved_tail hv)⟩,
    fun v hv => hflat.exists_original hinherits ht hv⟩

theorem within_mono_fields {f : Flattened}
    (h : ∀ r ∈ Ty.mentionsFields false f.fields, r ∈ o.mentions) {field : Name × Ty}
    (hfield : field ∈ f.fields) : field.2.Within o.mentions :=
  fun r hr => h r (Ty.mem_mentionsFields.mpr ⟨field, hfield, .inr hr⟩)

theorem original_commonFields {f g : Flattened} (hf : Inherited o s f) (hg : Inherited o s g) :
    ∀ p ∈ (commonFields f g).map Prod.snd, p.1.Within o.mentions ∧ p.2.Within o.mentions := by
  intro p hp
  obtain ⟨name, ha, he⟩ := mem_commonFields hp
  exact ⟨within_mono_fields hf.fields ha, within_mono_fields hg.fields (Assoc.mem_of_get? he)⟩

/-- Joining the ends is a move of the store as well. -/
theorem advance_ends {f g : Flattened} {out : Outcome}
    (h : Ends (Advancing F o) s f g (.ok (out, s'))) (hsane : s.Sane) (hinherits : Inherits o s)
    (hf : Inherited o s f) (hg : Inherited o s g) :
    Advance o s s' ∧ (Grounded o s f → Grounded o s g → Progress o s s') := by
  obtain ⟨Q', hmoves⟩ := lands_ends (h.mono (fun _ _ _ _ hrun => hrun.1)) hsane.tidy hf.within hg.within
  obtain ⟨hinherits', hprogress⟩ := learning_ends h hsane hinherits hf hg
  exact ⟨⟨hmoves.extends, (hmoves.tidy hsane.tidy).sane, hinherits'⟩, hprogress⟩

theorem learning_records {a e : Ty} {out : Outcome}
    (h : Records (Advancing F o) s a e (.ok (out, s'))) (hsane : s.Sane) (hinherits : Inherits o s)
    (ha : Live o s a) (he : Live o s e) :
    Inherits o s' ∧ ((∃ t, t.Within o.mentions ∧ s.ResolvesTo t a) →
      (∃ t, t.Within o.mentions ∧ s.ResolvesTo t e) → Progress o s s') := by
  cases h with
  | infinite hfa hfe hfields =>
    have hf := inherited_flatten hsane hinherits ha hfa
    have hg := inherited_flatten hsane hinherits he hfe
    obtain ⟨hadvance, hprogress⟩ := advance_fields hfields hsane hinherits (original_commonFields hf hg)
    exact ⟨hadvance.inherits, fun _ _ => hprogress⟩
  | differ hfa hfe hfields _ =>
    have hf := inherited_flatten hsane hinherits ha hfa
    have hg := inherited_flatten hsane hinherits he hfe
    obtain ⟨hadvance, hprogress⟩ := advance_fields hfields hsane hinherits (original_commonFields hf hg)
    exact ⟨hadvance.inherits, fun _ _ => hprogress⟩
  | agree hfa hfe hfields hextra hmissing hends =>
    have hf := inherited_flatten hsane hinherits ha hfa
    have hg := inherited_flatten hsane hinherits he hfe
    have hfirst := advance_fields hfields hsane hinherits (original_commonFields hf hg)
    obtain ⟨hadvance, hprogress⟩ := advance_ends hends hfirst.1.sane hfirst.1.inherits
      (hf.extend hfirst.1.extension) (hg.extend hfirst.1.extension)
    refine ⟨hadvance.inherits, ?_⟩
    rintro ⟨t, ht, hta⟩ ⟨u, hu, hue⟩
    -- the ends can be stale only when something was learned from the fields
    rcases hfirst.2 with hlearns | hcalm
    · exact .inl (hlearns.later hadvance.extension hfirst.1.sane.closed hfirst.1.inherits.size)
    · have hfg := (grounded_flatten hinherits ht hta hfa).calm hcalm hsane.closed hinherits
      have hgg := (grounded_flatten hinherits hu hue hfe).calm hcalm hsane.closed hinherits
      exact (Progress.after hfirst ⟨hadvance, hprogress hfg hgg⟩ hsane hinherits).2

theorem learning_unifyVar {v : TyVar} {t : Ty} {out : Outcome} (hsane : s.Sane)
    (hinherits : Inherits o s) (hun : s.Unsolved v.id) (hv : Live o s (.var v)) (ht : Live o s t)
    (h : unifyVar v t s = .ok (out, s')) : Inherits o s' ∧ Progress o s s' := by
  obtain ⟨out', s'', hrun, hbound⟩ := bound_unifyVar hsane.tidy hun (ht.owns hinherits hsane.closed)
  rw [hrun] at h
  cases h
  exact ⟨hbound.inherits hinherits ht, hbound.progress hsane hinherits hv ht⟩

/-- Types that are neither original nor variables do not occur. -/
theorem original_of_shallow {t r : Ty} (h : Shallow o s t) (hr : s.ResolvesTo t r)
    {shape : Shape} (hshape : shape? r = some shape) : t.Within o.mentions := by
  rcases h with h | ⟨w, hw⟩
  · exact h
  · cases hr.unique hw
    cases hshape

theorem learning_resolved {a e a' e' : Ty} {out : Outcome}
    (h : Resolved (Advancing F o) s a' e' (.ok (out, s'))) (hsane : s.Sane) (hinherits : Inherits o s)
    (ha : Live o s a') (he : Live o s e') (hra : s.ResolvesTo a a') (hre : s.ResolvesTo e e') :
    Inherits o s' ∧ (Shallow o s a → Shallow o s e → Progress o s s') := by
  generalize hres : (Except.ok (out, s') : Ending Outcome) = res at h
  cases h with
  | accepted _ | same _ | unit | clash _ _ _ =>
    cases hres
    exact ⟨hinherits, fun _ _ => .refl s⟩
  | @vars v w _ hne hrun =>
    subst hres
    have hv := hra.unsolved_of_var
    have hw := hre.unsolved_of_var
    obtain ⟨out', s'', hrun', hjoins⟩ := joins_unifyVars hv hw hne
    rw [hrun'] at hrun
    cases hrun
    exact ⟨hjoins.inherits hv hw hne hinherits,
      fun _ _ => hjoins.progress hv hw hne hsane.closed hinherits ha he⟩
  | varLeft _ hrun =>
    subst hres
    obtain ⟨hinherits', hprogress⟩ := learning_unifyVar hsane hinherits hra.unsolved_of_var ha he hrun
    exact ⟨hinherits', fun _ _ => hprogress⟩
  | varRight _ hrun =>
    subst hres
    obtain ⟨hinherits', hprogress⟩ := learning_unifyVar hsane hinherits hre.unsolved_of_var he ha hrun
    exact ⟨hinherits', fun _ _ => hprogress⟩
  | tuple _ hpairs =>
    subst hres
    obtain ⟨hadvance, hprogress⟩ := advance_pairs hpairs hsane hinherits
      (within_zip (ha.stored hinherits).tuple (he.stored hinherits).tuple)
    exact ⟨hadvance.inherits, fun _ _ => hprogress⟩
  | union _ hpairs =>
    subst hres
    obtain ⟨hadvance, hprogress⟩ := advance_pairs hpairs hsane hinherits
      (within_zip (ha.stored hinherits).union (he.stored hinherits).union)
    exact ⟨hadvance.inherits, fun _ _ => hprogress⟩
  | params _ => cases hres
  | rest _ _ => cases hres
  | arrow hpairs hrest =>
    cases hres
    have hwa := (ha.stored hinherits).arrow
    have hwe := (he.stored hinherits).arrow
    have hfirst := advance_pairs hpairs hsane hinherits
      (within_zip (Ty.within_arrow.mp hwa).1 (Ty.within_arrow.mp hwe).1)
    have hsecond := advance_of_original hrest hfirst.1.sane hfirst.1.inherits
      (Ty.within_dropParams _ hwa) (Ty.within_dropParams _ hwe)
    obtain ⟨hadvance, hprogress⟩ := Progress.after hfirst hsecond hsane hinherits
    exact ⟨hadvance.inherits, fun _ _ => hprogress⟩
  | record hsa hse hrecords =>
    subst hres
    obtain ⟨hinherits', hprogress⟩ := learning_records hrecords hsane hinherits ha he
    refine ⟨hinherits', fun hsha hshe => hprogress ⟨a, ?_, hra⟩ ⟨e, ?_, hre⟩⟩
    · exact original_of_shallow hsha hra hsa
    · exact original_of_shallow hshe hre hse

theorem advancing_unified {a e : Ty} {res : Ending Outcome} (h : Unified (Advancing F o) s a e res) :
    Advancing F o s a e res := by
  refine ⟨safe_unified (h.mono (fun _ _ _ _ hrun => hrun.1)), fun hsane hinherits ha he out s' hres => ?_⟩
  subst hres
  cases h with
  | resolved hra hre hrun =>
    have hra := resolvesTo_of_resolve hra
    have hre := resolvesTo_of_resolve hre
    exact learning_resolved hrun hsane hinherits (ha.chains hinherits (chain_of_resolvesTo hra))
      (he.chains hinherits (chain_of_resolvesTo hre)) hra hre

end Level

end StoreM

end ElmInference
