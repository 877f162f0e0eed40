import ElmInference.Proofs.Store.Moves
import ElmInference.Proofs.Store.Walks
import Mathlib.Data.Finset.Prod

/-!
# What can be learned about variables

A chain follows solved variables and the bases of records, and it can end in an unsolved variable. Seen
from a fixed set of variables, there are only three kinds of facts to be learned about chains: that the
chain of a variable has no open end, that the chains of two variables meet, and that a field name stands
on the chain of a variable. Facts are never forgotten, since entries of a store stay. So their number
bounds how often something can be learned, however many variables are allocated on the way.
-/

namespace ElmInference

namespace Store

open Relation

/-! ### Chains -/

/-- One step down a chain of solved variables and bases. -/
inductive Chain (s : Store) : Ty → Ty → Prop
  | solution {v : TyVar} {t : Ty} : s.solution? v.id = some t → Chain s (.var v) t
  | base {fields : List (Name × Ty)} {b : Ty} {w : Option (AliasUse Ty)} {refs : FieldReferences} :
      Chain s (.record fields (some b) w refs) b
  | growing {id : RecordId} {g : GrowingRecord} : s.records[id]? = some g →
      Chain s (.growing id) g.base

variable {s s' : Store}

theorem Chain.child {t u : Ty} (h : s.Chain t u) : s.Child t u := by
  cases h with
  | solution hsol => exact .solution hsol
  | base => exact .base
  | growing hrec => exact .growingBase hrec

theorem chain_rightUnique (s : Store) : Relator.RightUnique s.Chain := by
  intro t u u' h h'
  cases h with
  | solution hsol =>
    cases h' with
    | solution hsol' => exact Option.some.inj (hsol.symm.trans hsol')
  | base =>
    cases h' with
    | base => rfl
  | growing hrec =>
    cases h' with
    | growing hrec' =>
      rw [hrec] at hrec'
      cases hrec'
      rfl

theorem Extends.chain (h : s.Extends s') {t u : Ty} (hchain : s.Chain t u) : s'.Chain t u := by
  cases hchain with
  | solution hsol => exact .solution (h.solution _ _ hsol)
  | base => exact .base
  | growing hrec => exact .growing (h.record _ _ hrec)

theorem Extends.chains (h : s.Extends s') {t u : Ty} (hchain : ReflTransGen s.Chain t u) :
    ReflTransGen s'.Chain t u :=
  ReflTransGen.mono (fun _ _ => h.chain) _ _ hchain

theorem reads_of_chain {t u : Ty} (h : ReflTransGen s.Chain t u) : ReflTransGen s.Child t u :=
  ReflTransGen.mono (fun _ _ => Chain.child) _ _ h

theorem chain_of_resolvesTo {t r : Ty} (h : s.ResolvesTo t r) : ReflTransGen s.Chain t r := by
  induction h with
  | solved hsol _ ih => exact .head (.solution hsol) ih
  | unsolved _ => exact .refl
  | other _ => exact .refl

/-- A chain comes to its end at an unsolved variable. -/
theorem eq_of_chain_unsolved {w : TyVar} {u : Ty} (hun : s.Unsolved w.id)
    (h : ReflTransGen s.Chain (.var w) u) : u = .var w := by
  rcases h.cases_head with rfl | ⟨c, hstep, -⟩
  · rfl
  · cases hstep with
    | solution hsol => exact absurd hun (not_unsolved_of_some hsol)

/-- The unsolved variable at which a chain ends. -/
def EndsAt (s : Store) (t : Ty) (id : VarId) : Prop :=
  s.Unsolved id ∧ ∃ w : TyVar, w.id = id ∧ ReflTransGen s.Chain t (.var w)

theorem EndsAt.unique {t : Ty} {id id' : VarId} (h : s.EndsAt t id) (h' : s.EndsAt t id') : id = id' := by
  obtain ⟨hun, w, rfl, hpath⟩ := h
  obtain ⟨hun', w', rfl, hpath'⟩ := h'
  rcases ReflTransGen.total_of_right_unique (chain_rightUnique s) hpath hpath' with hrest | hrest
  · cases eq_of_chain_unsolved hun hrest
    rfl
  · cases eq_of_chain_unsolved hun' hrest
    rfl

/-- The end of a chain is the end of all that stands on it. -/
theorem EndsAt.of_chain {t u : Ty} {id : VarId} (h : s.EndsAt t id) (hpath : ReflTransGen s.Chain t u) :
    s.EndsAt u id := by
  obtain ⟨hun, w, rfl, hw⟩ := h
  refine ⟨hun, ?_⟩
  rcases ReflTransGen.total_of_right_unique (chain_rightUnique s) hpath hw with hrest | hrest
  · exact ⟨w, rfl, hrest⟩
  · rw [eq_of_chain_unsolved hun hrest]
    exact ⟨w, rfl, .refl⟩

theorem EndsAt.leads {t : Ty} {id : VarId} (h : s.EndsAt t id) : s.Leads false t (.var id) := by
  obtain ⟨_, w, rfl, hpath⟩ := h
  exact leads_of_reads_var (reads_of_chain hpath)

theorem chain_congr {v w : TyVar} {u : Ty} (hid : v.id = w.id) (h : s.Chain (.var v) u) :
    s.Chain (.var w) u := by
  cases h with
  | solution hsol => exact .solution (hid ▸ hsol)

theorem endsAt_congr {v w : TyVar} {id : VarId} (hid : v.id = w.id) (h : s.EndsAt (.var v) id) :
    s.EndsAt (.var w) id := by
  obtain ⟨hun, u, hu, hpath⟩ := h
  rcases hpath.cases_head with heq | ⟨c, hstep, hrest⟩
  · cases heq
    exact ⟨hun, w, by rw [← hid, hu], .refl⟩
  · exact ⟨hun, u, hu, .head (chain_congr hid hstep) hrest⟩

/-! ### Solving a variable extends chains -/

theorem chain_solved {id : VarId} {t a b : Ty} (h : (s.solved id t).Chain a b) :
    s.Chain a b ∨ ∃ w : TyVar, w.id = id ∧ a = .var w := by
  cases h with
  | @solution v u hsol =>
    by_cases hid : v.id = id
    · exact .inr ⟨v, hid, rfl⟩
    · rw [solution?_solved_of_ne s t hid] at hsol
      exact .inl (.solution hsol)
  | base => exact .inl .base
  | growing hrec => exact .inl (.growing (by simpa using hrec))

/-- A chain after a variable was solved was there before, or passes that variable. -/
theorem chains_solved {id : VarId} {t a b : Ty} (h : ReflTransGen (s.solved id t).Chain a b) :
    ReflTransGen s.Chain a b ∨ ∃ w : TyVar, w.id = id ∧ ReflTransGen s.Chain a (.var w) ∧
      ReflTransGen (s.solved id t).Chain (.var w) b := by
  induction h with
  | refl => exact .inl .refl
  | tail _ hstep ih =>
    rcases ih with hold | ⟨w, hw, hbefore, hafter⟩
    · rcases chain_solved hstep with hstep' | ⟨w, hw, rfl⟩
      · exact .inl (hold.tail hstep')
      · exact .inr ⟨w, hw, hold, .single hstep⟩
    · exact .inr ⟨w, hw, hbefore, hafter.tail hstep⟩

/-- After a variable is solved by a type, its chain ends where that of the type did. -/
theorem endsAt_of_solved {v : TyVar} {t u : Ty} {id : VarId} (hun : s.Unsolved v.id)
    (hnot : ¬ s.Leads false t (.var v.id)) (h : (s.solved v.id t).EndsAt u id) :
    s.EndsAt u id ∨ s.EndsAt u v.id ∧ s.EndsAt t id := by
  obtain ⟨hun', w, rfl, hpath⟩ := h
  have hlt : w.id < s.size := by simpa using hun'.1
  have hunw : s.Unsolved w.id := (extends_solved t hun).unsolved hlt hun'
  have hne : w.id ≠ v.id := by
    intro heq
    rw [heq] at hun'
    exact not_unsolved_of_some (solution?_solved_self t hun.1) hun'
  rcases chains_solved hpath with hold | ⟨x, hx, hbefore, hafter⟩
  · exact .inl ⟨hunw, w, rfl, hold⟩
  · refine .inr ⟨⟨hun, x, hx, hbefore⟩, hunw, w, rfl, ?_⟩
    rcases hafter.cases_head with heq | ⟨c, hstep, hrest⟩
    · cases heq
      exact absurd hx hne
    · cases hstep with
      | solution hsol =>
        rw [hx, solution?_solved_self t hun.1] at hsol
        cases hsol
        rcases chains_solved hrest with hold | ⟨y, hy, hback, -⟩
        · exact hold
        · exact absurd (EndsAt.leads ⟨hun, y, hy, hback⟩) hnot

/-! ### Facts -/

/-- The chain from a variable, known by its number. -/
def start (id : VarId) : Ty := .var ⟨id, "", false⟩

def fieldsAt (s : Store) : Ty → List (Name × Ty)
  | .record fields _ _ _ => fields
  | .growing id => (s.records[id]?).elim [] GrowingRecord.fields
  | _ => []

def Reaches (s : Store) (v id : VarId) : Prop :=
  ∃ w : TyVar, w.id = id ∧ ReflTransGen s.Chain (start v) (.var w)

/-- Whether a field name stands on the chain of a type. -/
def Shows (s : Store) (t : Ty) (name : Name) : Prop :=
  ∃ u, ReflTransGen s.Chain t u ∧ name ∈ (s.fieldsAt u).map Prod.fst

inductive Fact where
  /-- The chain has no open end. -/
  | ended (v : VarId)
  /-- Two chains meet. -/
  | joined (v w : VarId)
  /-- A field stands on the chain. -/
  | shown (v : VarId) (name : Name)
deriving DecidableEq

def Knows (s : Store) : Fact → Prop
  | .ended v => ∀ id, ¬ s.EndsAt (start v) id
  | .joined v w => ∃ id, s.Reaches v id ∧ s.Reaches w id
  | .shown v name => s.Shows (start v) name

theorem Extends.reaches (h : s.Extends s') {v id : VarId} (hreaches : s.Reaches v id) :
    s'.Reaches v id := by
  obtain ⟨w, hw, hpath⟩ := hreaches
  exact ⟨w, hw, h.chains hpath⟩

theorem Extends.shows (h : s.Extends s') {t : Ty} {name : Name} (hshows : s.Shows t name) :
    s'.Shows t name := by
  obtain ⟨u, hpath, hname⟩ := hshows
  refine ⟨u, h.chains hpath, ?_⟩
  cases u with
  | growing id =>
    cases hrec : s.records[id]? with
    | none => simp [fieldsAt, hrec] at hname
    | some g => simpa [fieldsAt, hrec, h.record id g hrec] using hname
  | _ => exact hname

/-- A chain without an open end stays as it is. -/
theorem chains_of_ended (h : s.Extends s') (hclosed : s.Closed) {t u : Ty} (ht : s.Owns t)
    (hended : ∀ id, ¬ s.EndsAt t id) (hpath : ReflTransGen s'.Chain t u) : ReflTransGen s.Chain t u := by
  induction hpath with
  | refl => exact .refl
  | @tail b c _ hstep ih =>
    have hown : s.Owns b := by
      refine ReflTransGen.head_induction_on (motive := fun x _ => s.Owns x → s.Owns b)
        (reads_of_chain ih) id (fun hchild _ ih hx => ih (hx.child hchild hclosed)) ht
    refine ih.tail ?_
    cases hstep with
    | @solution v _ hsol =>
      rcases unsolved_or_some hown.var_lt with hun | ⟨t', hsol'⟩
      · exact absurd ⟨hun, v, rfl, ih⟩ (hended v.id)
      · rw [h.solution _ _ hsol'] at hsol
        cases hsol
        exact .solution hsol'
    | base => exact .base
    | growing hrec =>
      obtain ⟨g', hrec'⟩ := exists_record hown.growing_lt
      rw [h.record _ _ hrec'] at hrec
      cases hrec
      exact .growing hrec'

/-- Facts are not forgotten. -/
theorem Extends.knows (h : s.Extends s') (hclosed : s.Closed) {fact : Fact}
    (hlt : ∀ v, fact = .ended v → v < s.size) (hknows : s.Knows fact) : s'.Knows fact := by
  cases fact with
  | joined v w =>
    obtain ⟨id, hv, hw⟩ := hknows
    exact ⟨id, h.reaches hv, h.reaches hw⟩
  | shown v name => exact h.shows hknows
  | ended v =>
    have hown : s.Owns (start v) := owns_var (hlt v rfl)
    rintro id ⟨hun, w, rfl, hpath⟩
    have hold := chains_of_ended h hclosed hown hknows hpath
    have hownw : s.Owns (.var w) :=
      ReflTransGen.head_induction_on (motive := fun x _ => s.Owns x → s.Owns (.var w))
        (reads_of_chain hold) id (fun hchild _ ih hx => ih (hx.child hchild hclosed)) hown
    exact hknows w.id ⟨h.unsolved hownw.var_lt hun, w, rfl, hold⟩

/-- Joined variables have one end. -/
theorem eq_of_joined {v w id id' : VarId} (h : s.Knows (.joined v w)) (hv : s.EndsAt (start v) id)
    (hw : s.EndsAt (start w) id') : id = id' := by
  obtain ⟨k, ⟨x, hx, hpath⟩, ⟨y, hy, hpath'⟩⟩ := h
  exact (endsAt_congr (hx.trans hy.symm) (hv.of_chain hpath)).unique (hw.of_chain hpath')

/-! ### What is to be learned -/

/-- The variables, growing records and field names that unification starts with. -/
structure Origin where
  size : Nat
  records : Nat
  names : Finset Name

namespace Origin

def mentions (o : Origin) : Set Mention
  | .var v => v.id < o.size
  | .record id => id < o.records
  | .field name => name ∈ o.names
  | .hole => True

def facts (o : Origin) : Finset Fact :=
  (Finset.range o.size).image .ended ∪
    ((Finset.range o.size ×ˢ Finset.range o.size).image (fun p => .joined p.1 p.2) ∪
      (Finset.range o.size ×ˢ o.names).image (fun p => .shown p.1 p.2))

theorem card_facts_le (o : Origin) :
    o.facts.card ≤ o.size + (o.size * o.size + o.size * o.names.card) := by
  unfold facts
  refine (Finset.card_union_le _ _).trans (Nat.add_le_add ?_ ?_)
  · exact Finset.card_image_le.trans (by simp)
  · refine (Finset.card_union_le _ _).trans (Nat.add_le_add ?_ ?_)
    · exact Finset.card_image_le.trans (by simp)
    · exact Finset.card_image_le.trans (by simp)

theorem lt_of_ended_mem {o : Origin} {v : VarId} (h : .ended v ∈ o.facts) : v < o.size := by
  simpa [facts] using h

theorem ended_mem {o : Origin} {v : VarId} (hv : v < o.size) : .ended v ∈ o.facts := by
  simpa [facts] using hv

theorem joined_mem {o : Origin} {v w : VarId} (hv : v < o.size) (hw : w < o.size) :
    .joined v w ∈ o.facts := by
  simp [facts, hv, hw]

theorem shown_mem {o : Origin} {v : VarId} {name : Name} (hv : v < o.size) (hname : name ∈ o.names) :
    .shown v name ∈ o.facts := by
  simp [facts, hv, hname]

end Origin

open Classical in
noncomputable def pending (s : Store) (o : Origin) : Nat :=
  (o.facts.filter (fun fact => ¬ s.Knows fact)).card

def Learns (o : Origin) (s s' : Store) : Prop :=
  ∃ fact ∈ o.facts, ¬ s.Knows fact ∧ s'.Knows fact

variable {o : Origin} {s₁ : Store}

theorem pending_le_card (s : Store) (o : Origin) : s.pending o ≤ o.facts.card := by
  classical
  exact Finset.card_filter_le _ _

theorem Extends.pending_le (h : s.Extends s') (hclosed : s.Closed) (hsize : o.size ≤ s.size) :
    s'.pending o ≤ s.pending o := by
  classical
  refine Finset.card_le_card (fun fact hfact => ?_)
  obtain ⟨hmem, hnot⟩ := Finset.mem_filter.mp hfact
  refine Finset.mem_filter.mpr ⟨hmem, fun hknows => hnot (h.knows hclosed ?_ hknows)⟩
  rintro v rfl
  exact Nat.lt_of_lt_of_le (Origin.lt_of_ended_mem hmem) hsize

theorem Learns.pending_lt (hlearns : Learns o s s') (h : s.Extends s') (hclosed : s.Closed)
    (hsize : o.size ≤ s.size) : s'.pending o < s.pending o := by
  classical
  obtain ⟨fact, hmem, hnot, hknows⟩ := hlearns
  refine Finset.card_lt_card ⟨fun other hother => ?_, fun hsub => ?_⟩
  · obtain ⟨hmem, hnot⟩ := Finset.mem_filter.mp hother
    refine Finset.mem_filter.mpr ⟨hmem, fun hknows => hnot (h.knows hclosed ?_ hknows)⟩
    rintro v rfl
    exact Nat.lt_of_lt_of_le (Origin.lt_of_ended_mem hmem) hsize
  · exact (Finset.mem_filter.mp (hsub (Finset.mem_filter.mpr ⟨hmem, hnot⟩))).2 hknows

theorem Learns.later (h : Learns o s s₁) (hext : s₁.Extends s') (hclosed : s₁.Closed)
    (hsize : o.size ≤ s₁.size) : Learns o s s' := by
  obtain ⟨fact, hmem, hnot, hknows⟩ := h
  refine ⟨fact, hmem, hnot, hext.knows hclosed ?_ hknows⟩
  rintro v rfl
  exact Nat.lt_of_lt_of_le (Origin.lt_of_ended_mem hmem) hsize

theorem Learns.earlier (h : Learns o s₁ s') (hext : s.Extends s₁) (hclosed : s.Closed)
    (hsize : o.size ≤ s.size) : Learns o s s' := by
  obtain ⟨fact, hmem, hnot, hknows⟩ := h
  refine ⟨fact, hmem, fun hbefore => hnot (hext.knows hclosed ?_ hbefore), hknows⟩
  rintro v rfl
  exact Nat.lt_of_lt_of_le (Origin.lt_of_ended_mem hmem) hsize

/-- Solving the end of an original variable's chain teaches that this chain is closed, or that it has met
the chain of another original variable. -/
theorem learns_solved {v : TyVar} {t : Ty} {v₀ : VarId} (hun : s.Unsolved v.id)
    (hnot : ¬ s.Leads false t (.var v.id)) (hv₀ : v₀ < o.size) (hreaches : s.Reaches v₀ v.id)
    (hends : ∀ id, s.EndsAt t id → ∃ v₁ < o.size, s.Reaches v₁ id) :
    Learns o s (s.solved v.id t) := by
  have hext := extends_solved t hun
  have hend : s.EndsAt (start v₀) v.id := ⟨hun, hreaches⟩
  by_cases hopen : ∃ id, s.EndsAt t id
  · obtain ⟨id, hid⟩ := hopen
    obtain ⟨v₁, hv₁, hreaches₁⟩ := hends id hid
    refine ⟨.joined v₀ v₁, Origin.joined_mem hv₀ hv₁, fun hknows => ?_, id, ?_, hext.reaches hreaches₁⟩
    · rw [← eq_of_joined hknows hend ⟨hid.1, hreaches₁⟩] at hid
      exact hnot hid.leads
    · obtain ⟨x, hx, hpath⟩ := hreaches
      obtain ⟨_, w, hw, hrest⟩ := hid
      refine ⟨w, hw, (hext.chains hpath).trans (.head (.solution ?_) (hext.chains hrest))⟩
      rw [hx, solution?_solved_self t hun.1]
  · refine ⟨.ended v₀, Origin.ended_mem hv₀, fun hknows => hknows v.id hend, fun id hid => ?_⟩
    rcases endsAt_of_solved hun hnot hid with hold | ⟨-, hold⟩
    · -- the only open end that the chain had is solved now
      have heq := hold.unique hend
      subst heq
      exact not_unsolved_of_some (solution?_solved_self t hun.1) hid.1
    · exact hopen ⟨id, hold⟩

/-- Whether a field came to stand on the chain of an original variable. -/
def Reveals (o : Origin) (s s' : Store) : Prop :=
  ∃ v₀ < o.size, ∃ name ∈ o.names, ¬ s.Shows (start v₀) name ∧ s'.Shows (start v₀) name

theorem Reveals.learns (h : Reveals o s s') : Learns o s s' := by
  obtain ⟨v₀, hv₀, name, hname, hnot, hshows⟩ := h
  exact ⟨.shown v₀ name, Origin.shown_mem hv₀ hname, hnot, hshows⟩

theorem Reveals.later (h : Reveals o s s₁) (hext : s₁.Extends s') : Reveals o s s' := by
  obtain ⟨v₀, hv₀, name, hname, hnot, hshows⟩ := h
  exact ⟨v₀, hv₀, name, hname, hnot, hext.shows hshows⟩

theorem Reveals.earlier (h : Reveals o s₁ s') (hext : s.Extends s₁) : Reveals o s s' := by
  obtain ⟨v₀, hv₀, name, hname, hnot, hshows⟩ := h
  exact ⟨v₀, hv₀, name, hname, fun hbefore => hnot (hext.shows hbefore), hshows⟩

/-- Growing at the end of an original variable's chain by a field that did not stand there. -/
theorem reveals_solved {v : TyVar} {t : Ty} {v₀ : VarId} {name : Name} (hun : s.Unsolved v.id)
    (hv₀ : v₀ < o.size) (hreaches : s.Reaches v₀ v.id) (hname : name ∈ o.names)
    (hfields : name ∈ ((s.solved v.id t).fieldsAt t).map Prod.fst)
    (hnot : ¬ s.Shows (start v₀) name) : Reveals o s (s.solved v.id t) := by
  obtain ⟨x, hx, hpath⟩ := hreaches
  refine ⟨v₀, hv₀, name, hname, hnot, t, ?_, hfields⟩
  refine ((extends_solved t hun).chains hpath).tail (.solution ?_)
  rw [hx, solution?_solved_self t hun.1]

end Store

end ElmInference
