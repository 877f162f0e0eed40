import ElmInference.Proofs.Infer.Conduct
import ElmInference.Proofs.Infer.Copies
import ElmInference.Proofs.Infer.Definitions
import ElmInference.Proofs.Infer.Fragments
import ElmInference.Proofs.Infer.Meanings
import ElmInference.Proofs.Unify.Conformity

/-!
# Programs without records

A module without records has no record in its syntax, nor in the types that it sees from elsewhere. No record comes from
such a program: the types that its type expressions, its declared types and its kept results stand for have none, and
substitution and zonking bring none in.
-/

namespace ElmInference

open Relation Store StoreM

/-! ### Syntax -/

namespace TypeExpr

mutual

def isRecordfree : TypeExpr → Bool
  | .mk _ (.var _) => true
  | .mk _ .unit => true
  | .mk _ (.ref _ args) => areRecordfree args
  | .mk _ (.tuple items) => areRecordfree items
  | .mk _ (.function segments) => areRecordfree segments
  | .mk _ (.record _ _) => false

def areRecordfree : List TypeExpr → Bool
  | [] => true
  | t :: ts => t.isRecordfree && areRecordfree ts

end

end TypeExpr

def Definition.isSignedRecordfree (d : ValueDecl) : Bool :=
  d.signature.all TypeExpr.isRecordfree

/-- Whether a node is no record expression, field access, accessor or record pattern, and has no record in the
signatures of its definitions. -/
def Fragment.isRecordfree : Fragment → Bool
  | .expr (.mk _ _ (.record _)) => false
  | .expr (.mk _ _ (.update _ _)) => false
  | .expr (.mk _ _ (.access _ _)) => false
  | .expr (.mk _ _ (.accessor _)) => false
  | .expr (.mk _ _ (.letIn definitions _)) => definitions.all Definition.isSignedRecordfree
  | .expr _ => true
  | .pattern (.mk _ _ (.record _)) => false
  | .pattern _ => true

def Declaration.Recordfree : Declaration → Prop
  | .value d => d.isSignedRecordfree = true ∧ ∀ n ∈ d.fragments, n.isRecordfree = true
  | .unionType d => ∀ variant ∈ d.variants, TypeExpr.areRecordfree variant.args = true
  | .typeAlias d => d.body.isRecordfree = true
  | .fixity _ => True
  | .hostValue d => d.type.isRecordfree = true

structure ModuleScope.Recordfree (scope : ModuleScope) : Prop where
  declarations : ∀ d ∈ scope.module.declarations, d.Recordfree
  values : ∀ v ∈ scope.values, v.type.Recordless
  operators : ∀ o ∈ scope.operators, o.type.Recordless

/-! ### Types -/

namespace Ty

theorem recordless_unit : Recordless .unit :=
  recordless_of_parts (by simp [shape?]) (fun u hpart => by cases hpart)

theorem recordless_unknown : Recordless .unknown :=
  recordless_of_parts (by simp [shape?]) (fun u hpart => by cases hpart)

theorem recordless_inProgress : Recordless .inProgress :=
  recordless_of_parts (by simp [shape?]) (fun u hpart => by cases hpart)

theorem recordless_var (v : TyVar) : Recordless (.var v) :=
  bare_recordless.var v

theorem recordless_union {m n : Name} {args : List Ty} {w : Option (AliasUse Ty)} (h : ∀ t ∈ args, t.Recordless) :
    Recordless (.union m n args w) := by
  refine recordless_of_parts (by simp [shape?]) fun u hpart => ?_
  cases hpart with
  | arg hmem => exact h u hmem

theorem recordless_tuple {items : List Ty} (h : ∀ t ∈ items, t.Recordless) : Recordless (.tuple items) := by
  refine recordless_of_parts (by simp [shape?]) fun u hpart => ?_
  cases hpart with
  | item hmem => exact h u hmem

theorem recordless_arrow {params : List Ty} {ret : Ty} {w : Option (AliasUse Ty)} (hparams : ∀ t ∈ params, t.Recordless)
    (hret : ret.Recordless) : Recordless (.arrow params ret w) := by
  refine recordless_of_parts (by simp [shape?]) fun u hpart => ?_
  cases hpart with
  | param hmem => exact hparams u hmem
  | ret => exact hret

theorem not_recordless_record {fields : List (Name × Ty)} {base : Option Ty} {w : Option (AliasUse Ty)}
    {refs : FieldReferences} : ¬ Recordless (.record fields base w refs) :=
  fun h => h _ .refl rfl

theorem recordless_function {params : List Ty} {ret : Ty} (hparams : ∀ t ∈ params, t.Recordless)
    (hret : ret.Recordless) : (function params ret).Recordless :=
  bare_recordless.function hparams hret

/-- The alias of a type does not matter. -/
theorem recordless_writtenAs? {t : Ty} (h : t.Recordless) (w : Option (AliasUse Ty)) : (t.writtenAs? w).Recordless := by
  cases w with
  | none => exact h
  | some use =>
    cases t with
    | union m n args w => exact recordless_union fun t ht => h.part (.arg ht)
    | arrow params ret w => exact recordless_arrow (fun t ht => h.part (.param ht)) (h.part .ret)
    | record => exact absurd h not_recordless_record
    | _ => exact h

theorem Recordless.frozen {t : Ty} (h : t.Recordless) : t.Frozen := by
  intro id hid
  obtain ⟨u, hreads, hshape⟩ : ∃ u, ReflTransGen Part t u ∧ u = .growing id := by
    induction t using Ty.inductParts with
    | unit | unknown | inProgress | var => simp [mentions] at hid
    | growing other =>
      obtain rfl : id = other := by simpa [mentions] using hid
      exact ⟨_, .refl, rfl⟩
    | union m n args w iha _ =>
      obtain ⟨t, ht, hr⟩ : ∃ t ∈ args, .record id ∈ t.mentions false := by
        simpa [mentions, mem_mentionsList] using hid
      obtain ⟨u, hreads, heq⟩ := iha t ht (h.part (.arg ht)) hr
      exact ⟨u, .head (.arg ht) hreads, heq⟩
    | tuple items ih =>
      obtain ⟨t, ht, hr⟩ : ∃ t ∈ items, .record id ∈ t.mentions false := by
        simpa [mentions, mem_mentionsList] using hid
      obtain ⟨u, hreads, heq⟩ := ih t ht (h.part (.item ht)) hr
      exact ⟨u, .head (.item ht) hreads, heq⟩
    | record => exact absurd h not_recordless_record
    | arrow params ret w ihp ihr _ =>
      simp only [mentions, mentionsAlias_false, List.append_nil, List.mem_append, mem_mentionsList] at hid
      rcases hid with ⟨t, ht, hr⟩ | hr
      · obtain ⟨u, hreads, heq⟩ := ihp t ht (h.part (.param ht)) hr
        exact ⟨u, .head (.param ht) hreads, heq⟩
      · obtain ⟨u, hreads, heq⟩ := ihr (h.part .ret) hr
        exact ⟨u, .head .ret hreads, heq⟩
  exact h u hreads (by rw [hshape]; rfl)

theorem recordless_subst {f : TyVar → Option Ty} (hf : ∀ v u, f v = some u → u.Recordless) {t : Ty}
    (h : t.Recordless) : (t.subst f).Recordless := by
  induction t using Ty.inductParts with
  | unit | unknown | inProgress | growing => simpa only [subst] using h
  | var v =>
    rw [subst]
    cases hget : f v with
    | some u => exact hf v u hget
    | none => exact h
  | union m n args w iha _ =>
    rw [subst, substList_eq_map]
    refine recordless_union fun u hu => ?_
    obtain ⟨t, ht, rfl⟩ := List.mem_map.mp hu
    exact iha t ht (h.part (.arg ht))
  | tuple items ih =>
    rw [subst, substList_eq_map]
    refine recordless_tuple fun u hu => ?_
    obtain ⟨t, ht, rfl⟩ := List.mem_map.mp hu
    exact ih t ht (h.part (.item ht))
  | record => exact absurd h not_recordless_record
  | arrow params ret w ihp ihr _ =>
    rw [subst, substList_eq_map]
    refine recordless_writtenAs? (recordless_function (fun u hu => ?_) (ihr (h.part .ret))) _
    obtain ⟨t, ht, rfl⟩ := List.mem_map.mp hu
    exact ihp t ht (h.part (.param ht))

theorem recordless_substTable {table : Assoc VarId Ty} (htable : ∀ entry ∈ table, entry.2.Recordless) {t : Ty}
    (h : t.Recordless) : (t.substTable table).Recordless :=
  recordless_subst (fun _ _ hget => htable _ (Assoc.mem_of_get? hget)) h

theorem recordless_allParams {t : Ty} (h : t.Recordless) : ∀ u ∈ t.allParams, u.Recordless := by
  induction t using Ty.inductParts with
  | arrow params ret w _ ihr _ =>
    intro u hu
    rcases List.mem_append.mp (by simpa only [allParams] using hu) with hu | hu
    · exact h.part (.param hu)
    · exact ihr (h.part .ret) u hu
  | _ => simp [allParams]

theorem recordless_applyParams {t : Ty} (count : Nat) (h : t.Recordless) : (t.applyParams count).Recordless := by
  induction t using Ty.inductParts generalizing count with
  | arrow params ret w _ ihr _ =>
    cases count with
    | zero => simpa only [applyParams] using h
    | succ count =>
      rw [applyParams]
      split
      · exact h
      · split
        · exact recordless_function (fun u hu => h.part (.param (List.mem_of_mem_drop hu))) (h.part .ret)
        · exact ihr _ (h.part .ret)
  | _ => cases count <;> simpa only [applyParams] using h

end Ty

/-! ### Zonking -/

theorem Typeclass.eq_number_of_join {c : Typeclass} (h : Typeclass.join .number c = some c) : c = .number := by
  cases c <;> cases h
  rfl

namespace Store

variable {s : Store}

theorem exists_child_of_not_known {t : Ty} (h : ¬ s.Known t) :
    t = .unknown ∨ t = .inProgress ∨ ∃ u, s.Child t u ∧ ¬ s.Known u := by
  by_contra hnone
  obtain ⟨hunknown, hnone⟩ := not_or.mp hnone
  obtain ⟨hprogress, hchildren⟩ := not_or.mp hnone
  refine h fun u hreads => ?_
  rcases hreads.cases_head with rfl | ⟨v, hchild, hrest⟩
  · exact ⟨hunknown, hprogress⟩
  · exact (not_not.mp fun hv => hchildren ⟨v, hchild, hv⟩ : s.Known v) u hrest

/-- What a result of zonking says about a type without records: it has no records, shows what is not known, and is a
number type if the type is one. -/
structure Disclosed (s : Store) (t y : Ty) : Prop where
  recordless : y.Recordless
  hole : ¬ s.Known t → .hole ∈ y.mentions false
  number : s.Belongs .number t → y.IsNumber ∨ .hole ∈ y.mentions false

/-- Whether a result of zonking discloses a type, unless it has records. -/
def Discloses (s : Store) (t y _z : Ty) : Prop :=
  t.Recordless → s.Disclosed t y

theorem known_of_children {t : Ty} (hunknown : t ≠ .unknown) (hprogress : t ≠ .inProgress)
    (h : ∀ u, s.Child t u → s.Known u) : s.Known t := by
  by_contra hnot
  rcases exists_child_of_not_known hnot with heq | heq | ⟨u, hchild, hu⟩
  · exact hunknown heq
  · exact hprogress heq
  · exact hu (h u hchild)

theorem known_of_no_child {t : Ty} (hunknown : t ≠ .unknown) (hprogress : t ≠ .inProgress) (h : ∀ u, ¬ s.Child t u) :
    s.Known t :=
  known_of_children hunknown hprogress fun u hchild => absurd hchild (h u)

theorem known_of_solution {v : TyVar} {t : Ty} (hsol : s.solution? v.id = some t) (h : s.Known t) :
    s.Known (.var v) := by
  refine known_of_children (by simp) (by simp) fun u hchild => ?_
  cases hchild with
  | solution hsol' => exact Option.some.inj (hsol.symm.trans hsol') ▸ h

theorem known_tuple {items : List Ty} (h : ∀ t ∈ items, s.Known t) : s.Known (.tuple items) := by
  refine known_of_children (by simp) (by simp) fun u hchild => ?_
  cases hchild with
  | item hmem => exact h u hmem

theorem respectful_discloses (s : Store) : Respectful s.Discloses := by
  have hlist : ∀ {ts ys zs : List Ty}, Alongside s.Discloses ts ys zs → (∀ t ∈ ts, t.Recordless) →
      (∀ y ∈ ys, y.Recordless) ∧ ∀ t ∈ ts, ¬ s.Known t → ∃ y ∈ ys, .hole ∈ y.mentions false := by
    intro ts ys zs h hts
    refine ⟨fun y hy => ?_, fun t ht hnot => ?_⟩
    · obtain ⟨t, ht, _, hdiscloses⟩ := h.exists_left hy
      exact (hdiscloses (hts t ht)).recordless
    · obtain ⟨y, hy, _, hdiscloses⟩ := h.exists_right ht
      exact ⟨y, hy, (hdiscloses (hts t ht)).hole hnot⟩
  refine ⟨fun _ => ⟨Ty.recordless_unit, fun hnot => ?_, fun h => by cases h⟩,
    fun _ => ⟨Ty.recordless_unknown, fun _ => ?_, fun _ => ?_⟩,
    fun _ => ⟨Ty.recordless_inProgress, fun _ => ?_, fun h => by cases h⟩, fun {m n args ys zs w y z} hargs hw ht => ?_,
    fun {items ys zs} hitems ht => ?_, fun _ _ _ ht => absurd ht Ty.not_recordless_record,
    fun {params ys zs ret r r' w y z} hparams hret hw ht => ?_⟩
  · exact absurd (known_of_no_child (by simp) (by simp) fun u hchild => by cases hchild) hnot
  · simp [Ty.mentions]
  · exact .inr (by simp [Ty.mentions])
  · simp [Ty.mentions]
  · obtain ⟨hrecordless, hholes⟩ := hlist hargs fun t ht' => ht.part (.arg ht')
    refine ⟨Ty.recordless_union hrecordless, fun hnot => ?_, fun hnumber => .inl ?_⟩
    · rcases exists_child_of_not_known hnot with heq | heq | ⟨u, hchild, hu⟩
      · cases heq
      · cases heq
      · cases hchild with
        | arg hmem =>
          obtain ⟨y, hy, hhole⟩ := hholes u hmem hu
          simp only [Ty.mentions, List.mem_append, Ty.mem_mentionsList]
          exact .inl ⟨y, hy, hhole⟩
    · cases hnumber with
      | list hlist _ => cases hlist
      | admitted _ hadmits => exact hadmits
  · obtain ⟨hrecordless, hholes⟩ := hlist hitems fun t ht' => ht.part (.item ht')
    refine ⟨Ty.recordless_tuple hrecordless, fun hnot => ?_, fun hnumber => ?_⟩
    · rcases exists_child_of_not_known hnot with heq | heq | ⟨u, hchild, hu⟩
      · cases heq
      · cases heq
      · cases hchild with
        | item hmem =>
          obtain ⟨y, hy, hhole⟩ := hholes u hmem hu
          simp only [Ty.mentions, Ty.mem_mentionsList]
          exact ⟨y, hy, hhole⟩
    · cases hnumber
  · obtain ⟨hrecordless, hholes⟩ := hlist hparams fun t ht' => ht.part (.param ht')
    have hret := hret (ht.part .ret)
    refine ⟨Ty.recordless_writtenAs? (Ty.recordless_function hrecordless hret.recordless) _, fun hnot => ?_,
      fun h => by cases h⟩
    rw [Ty.mentions_writtenAs?, Ty.mem_mentions_function]
    rcases exists_child_of_not_known hnot with heq | heq | ⟨u, hchild, hu⟩
    · cases heq
    · cases heq
    · cases hchild with
      | param hmem => exact .inl (hholes u hmem hu)
      | ret => exact .inr (hret.hole hu)

/-- In a store without records, a type without records is disclosed by what it is zonked to. -/
theorem disclosed_zonk (hs : s.Recordless Ty.Recordless) {t z : Ty} (ht : t.Recordless) (h : s.zonk t = .ok z) :
    s.Disclosed t z := by
  refine zonkAt_induct (P := fun t y => s.Discloses t y y) (respectful_discloses s) (fun v hun _ => ?_)
    (fun v u y hsol hdiscloses _ => ?_) (fun id g ys zs b hrec _ _ => ?_) h ht
  · refine ⟨Ty.recordless_var v, fun hnot => ?_, fun hnumber => .inl ?_⟩
    · refine absurd (known_of_no_child (by simp) (by simp) fun u hchild => ?_) hnot
      cases hchild with
      | solution hsol => exact not_unsolved_of_some hsol hun
    · cases hnumber with
      | named hpromises _ =>
        obtain ⟨c, hc, hjoin⟩ := hpromises
        rw [Ty.IsNumber, hc, Typeclass.eq_number_of_join hjoin]
      | solved hsol _ => exact absurd hun (not_unsolved_of_some hsol)
  · obtain ⟨hrecordless, hhole, hnumber⟩ := hdiscloses (hs.solution _ _ hsol)
    refine ⟨hrecordless, fun hnot => hhole fun hknown => hnot (known_of_solution hsol hknown), fun hbelongs => hnumber ?_⟩
    cases hbelongs with
    | named _ hun => exact absurd hun (not_unsolved_of_some hsol)
    | solved hsol' hbelongs =>
      obtain rfl := Option.some.inj (hsol.symm.trans hsol')
      exact hbelongs
  · rw [hs.records] at hrec
    cases hrec

end Store

/-! ### Type expressions -/

structure DeclaredType.Recordless (d : DeclaredType) : Prop where
  type : d.type.Recordless
  variants : ∀ args ∈ d.variants, ∀ t ∈ args, t.Recordless

def TypeTable.Recordless (table : TypeTable) : Prop :=
  ∀ entry ∈ table.declared, entry.2.Recordless

namespace DeclaredType

theorem Recordless.frozen {d : DeclaredType} (h : d.Recordless) : d.Frozen :=
  ⟨h.type.frozen, fun args hargs t ht => (h.variants args hargs t ht).frozen⟩

theorem recordless_paramImages (params : List TyVar) {args : List Ty} (s : Store) (hargs : ∀ t ∈ args, t.Recordless) :
    ∀ entry ∈ (paramImages params args s).1, entry.2.Recordless := by
  induction params generalizing args s with
  | nil => simp [paramImages]
  | cons v params ih =>
    cases args with
    | nil =>
      rw [paramImages]
      exact List.forall_mem_cons.mpr ⟨Ty.recordless_var _, ih _ hargs⟩
    | cons arg args =>
      obtain ⟨harg, hargs⟩ := List.forall_mem_cons.mp hargs
      rw [paramImages]
      exact List.forall_mem_cons.mpr ⟨harg, ih s hargs⟩

theorem recordless_otherImages {images : Assoc VarId Ty} (vars : List TyVar) (s : Store)
    (h : ∀ entry ∈ images, entry.2.Recordless) : ∀ entry ∈ (otherImages images vars s).1, entry.2.Recordless := by
  induction vars generalizing images s with
  | nil => exact h
  | cons v vars ih =>
    rw [otherImages]
    split
    · exact ih s h
    · refine ih _ (List.forall_mem_append.mpr ⟨h, ?_⟩)
      exact List.forall_mem_singleton.mpr (Ty.recordless_var _)

theorem recordless_images (d : DeclaredType) {args : List Ty} (s : Store) (hargs : ∀ t ∈ args, t.Recordless) :
    ∀ entry ∈ (d.images args s).1, entry.2.Recordless :=
  recordless_otherImages _ _ (recordless_paramImages _ _ hargs)

theorem Recordless.instantiate {d : DeclaredType} (h : d.Recordless) {args : List Ty} (s : Store)
    (hargs : ∀ t ∈ args, t.Recordless) : (d.instantiate args s).1.Recordless :=
  Ty.recordless_substTable (recordless_images d s hargs) h.type

theorem Recordless.variant? {d : DeclaredType} (h : d.Recordless) (index : Nat) (s : Store) {args : List Ty} {t : Ty}
    (hvariant : (d.variant? index s).1 = some (args, t)) : (∀ u ∈ args, u.Recordless) ∧ t.Recordless := by
  cases d with
  | typeAlias params type => cases hvariant
  | unionType params type variants =>
    unfold DeclaredType.variant? at hvariant
    cases hget : variants[index]? with
    | none =>
      simp only [hget] at hvariant
      cases hvariant
    | some found =>
      simp only [hget] at hvariant
      obtain ⟨rfl, rfl⟩ := Prod.mk.inj (Option.some.inj hvariant)
      have himages := recordless_images (unionType params type variants) s fun _ ht => absurd ht List.not_mem_nil
      refine ⟨fun u hu => ?_, Ty.recordless_substTable himages h.type⟩
      obtain ⟨t, ht, rfl⟩ := List.mem_map.mp hu
      exact Ty.recordless_substTable himages (h.variants found (List.mem_of_getElem? hget) t ht)

end DeclaredType

namespace Conversion

structure Recordless (c : Conversion) : Prop where
  vars : ∀ entry ∈ c.vars, entry.2.Recordless
  table : c.table.Recordless

/-- Work of a conversion that comes by no record. -/
def Avoids {α : Type} (x : StateM Conversion α) (P : α → Prop) : Prop :=
  ∀ c : Conversion, c.Recordless → (x c).2.Recordless ∧ P (x c).1

/-- Conversion of the bodies of aliases that comes by no record if none is written there. -/
def AliasesAvoid (expand : Expand) : Prop :=
  ∀ m decl table, decl.body.isRecordfree = true → table.Recordless →
    (expand m decl table).2.Recordless ∧ ∀ d, (expand m decl table).1 = some d → d.Recordless

variable {α β : Type}

theorem avoids_pure {a : α} {P : α → Prop} (h : P a) : Avoids (pure a) P :=
  fun _ hc => ⟨hc, h⟩

theorem Avoids.bind {x : StateM Conversion α} {f : α → StateM Conversion β} {P : α → Prop} {P' : β → Prop}
    (hx : Avoids x P) (hf : ∀ a, P a → Avoids (f a) P') : Avoids (x >>= f) P' := by
  intro c hc
  obtain ⟨hc₁, ha⟩ := hx c hc
  exact hf _ ha _ hc₁

theorem avoids_report (pos : Nat) (kind : ProblemKind) : Avoids (report pos kind) (fun _ => True) :=
  fun _ hc => ⟨⟨hc.vars, hc.table⟩, trivial⟩

theorem avoids_problem (pos : Nat) (kind : ProblemKind) :
    Avoids (do report pos kind; return .unknown : StateM Conversion Ty) Ty.Recordless :=
  (avoids_report pos kind).bind fun _ _ => avoids_pure Ty.recordless_unknown

theorem avoids_typeVar (rigid : Bool) (name : Name) : Avoids (Conversion.typeVar rigid name) Ty.Recordless := by
  intro c hc
  unfold Conversion.typeVar
  cases hget : Assoc.get? c.vars name with
  | some t => exact ⟨hc, hc.vars _ (Assoc.mem_of_get? hget)⟩
  | none =>
    refine ⟨⟨fun entry hentry => ?_, hc.table⟩, Ty.recordless_var _⟩
    rcases Assoc.mem_set hentry with hentry | rfl
    · exact hc.vars entry hentry
    · exact Ty.recordless_var _

theorem recordless_ofSegments {segments : List Ty} (h : ∀ t ∈ segments, t.Recordless) :
    (ofSegments segments).Recordless := by
  unfold ofSegments
  cases hlast : segments.getLast? with
  | none => exact Ty.recordless_unknown
  | some ret =>
    refine Ty.recordless_function (fun t ht => h t (List.mem_of_mem_dropLast ht)) (h ret ?_)
    exact List.mem_of_getLast? hlast

theorem avoids_saturated (pos : Nat) (m n : Name) {args : List Ty} (arity : Nat) (hargs : ∀ t ∈ args, t.Recordless) :
    Avoids (saturated pos m n args arity) Ty.Recordless := by
  unfold saturated
  split
  · exact avoids_pure (Ty.recordless_union hargs)
  · exact avoids_problem _ _

section Expand

variable {expand : Expand} (hexpand : AliasesAvoid expand)

include hexpand

theorem avoids_expanded (pos : Nat) (m : Name) {decl : AliasDecl} (hdecl : decl.body.isRecordfree = true)
    {args : List Ty} (hargs : ∀ t ∈ args, t.Recordless) :
    Avoids (expanded expand pos m decl args) Ty.Recordless := by
  unfold expanded
  split
  · exact avoids_problem _ _
  · have hlookup : Avoids (modifyGet (fun c => ((expand m decl c.table).1, { c with table := (expand m decl c.table).2 })))
        (fun found => ∀ d, found = some d → d.Recordless) := by
      intro c hc
      obtain ⟨htable, hfound⟩ := hexpand m decl c.table hdecl hc.table
      exact ⟨⟨hc.vars, htable⟩, hfound⟩
    refine hlookup.bind fun found hfound => ?_
    cases found with
    | none => exact avoids_problem _ _
    | some d => exact fun c hc => ⟨⟨hc.vars, hc.table⟩, (hfound d rfl).instantiate c.store hargs⟩

theorem avoids_reference {scope : ModuleScope} (hscope : scope.Recordfree) (pos : Nat) (name : Ref) {args : List Ty}
    (hargs : ∀ t ∈ args, t.Recordless) : Avoids (reference scope expand pos name args) Ty.Recordless := by
  unfold reference
  split
  · exact avoids_pure Ty.recordless_unknown
  · exact avoids_saturated _ _ _ _ hargs
  · exact avoids_saturated _ _ _ _ hargs
  · next hfound =>
    exact avoids_expanded hexpand _ _ (hscope.declarations _ (ModuleScope.mem_of_findType? hfound).2) hargs

end Expand

mutual

theorem avoids_convertWith {expand : Expand} (hexpand : AliasesAvoid expand) {scope : ModuleScope}
    (hscope : scope.Recordfree) (rigid : Bool) {t : TypeExpr} (ht : t.isRecordfree = true) :
    Avoids (convertWith scope expand rigid t) Ty.Recordless := by
  match t with
  | .mk _ (.var name) => exact avoids_typeVar rigid name
  | .mk _ .unit => exact avoids_pure Ty.recordless_unit
  | .mk _ (.tuple items) =>
    rw [convertWith]
    exact (avoids_convertList hexpand hscope rigid ht).bind fun ts hts => avoids_pure (Ty.recordless_tuple hts)
  | .mk _ (.function segments) =>
    rw [convertWith]
    exact (avoids_convertList hexpand hscope rigid ht).bind fun ts hts => avoids_pure (recordless_ofSegments hts)
  | .mk pos (.ref name args) =>
    rw [convertWith]
    exact (avoids_convertList hexpand hscope rigid ht).bind fun ts hts => avoids_reference hexpand hscope pos name hts

theorem avoids_convertList {expand : Expand} (hexpand : AliasesAvoid expand) {scope : ModuleScope}
    (hscope : scope.Recordfree) (rigid : Bool) {ts : List TypeExpr} (hts : TypeExpr.areRecordfree ts = true) :
    Avoids (convertList scope expand rigid ts) (fun ts => ∀ t ∈ ts, t.Recordless) := by
  match ts with
  | [] => exact avoids_pure (by simp)
  | t :: ts =>
    obtain ⟨ht, hts⟩ := Bool.and_eq_true_iff.mp hts
    rw [convertList]
    refine (avoids_convertWith hexpand hscope rigid ht).bind fun t ht => ?_
    exact (avoids_convertList hexpand hscope rigid hts).bind fun ts hts =>
      avoids_pure (List.forall_mem_cons.mpr ⟨ht, hts⟩)

end

theorem recordless_paramScope {table : TypeTable} (htable : table.Recordless) (params : List Name) :
    (paramScope table params).2.Recordless := by
  unfold paramScope
  refine List.foldlRecOn (motive := fun (p : List TyVar × Conversion) => p.2.Recordless) params _ ?_
    (fun p hp name _ => ⟨fun entry hentry => ?_, hp.table⟩)
  · exact ⟨by simp, htable⟩
  · rcases Assoc.mem_set hentry with hentry | rfl
    · exact hp.vars entry hentry
    · exact Ty.recordless_var _

theorem avoids_mapM {f : α → StateM Conversion β} {P : β → Prop} {xs : List α} (h : ∀ x ∈ xs, Avoids (f x) P) :
    Avoids (xs.mapM f) (fun bs => ∀ b ∈ bs, P b) := by
  induction xs with
  | nil => exact avoids_pure (by simp)
  | cons x xs ih =>
    obtain ⟨hx, hxs⟩ := List.forall_mem_cons.mp h
    rw [List.mapM_cons]
    exact hx.bind fun b hb => (ih hxs).bind fun bs hbs => avoids_pure (List.forall_mem_cons.mpr ⟨hb, hbs⟩)

end Conversion

namespace TypeTable

open Conversion

variable {scope : ModuleScope} (hscope : scope.Recordfree)

include hscope

theorem aliasesAvoid_expandAt (n : Nat) : AliasesAvoid (expandAt scope n) := by
  induction n with
  | zero => exact fun m decl table _ h => ⟨h, fun d hd => by cases hd⟩
  | succ n ih =>
    intro m decl table hdecl h
    have hconverting : Recordless { table with converting := (m, decl.name) :: table.converting } := h
    obtain ⟨hafter, hbody⟩ := avoids_convertWith ih hscope false hdecl _ (recordless_paramScope hconverting decl.params)
    exact forall_declared_expandAt h rfl hafter.table
      ⟨Ty.recordless_writtenAs? hbody (some ⟨m, decl.name, _⟩), fun args hargs => absurd hargs List.not_mem_nil⟩

theorem recordless_unionType (m : Name) {decl : UnionDecl} (hdecl : (Declaration.unionType decl).Recordfree)
    {table : TypeTable} (h : table.Recordless) :
    (unionType scope m decl table).2.Recordless ∧ (unionType scope m decl table).1.Recordless := by
  have hvariants := avoids_mapM (P := fun ts => ∀ t ∈ ts, t.Recordless)
    (f := fun variant : Variant => convertList scope (expand scope) false variant.args)
    fun variant hvariant => avoids_convertList (aliasesAvoid_expandAt hscope _) hscope false (hdecl variant hvariant)
  obtain ⟨hafter, hargs⟩ := hvariants _ (recordless_paramScope h decl.params)
  refine forall_declared_unionType h rfl hafter.table ⟨Ty.recordless_union fun t ht => ?_, hargs⟩
  obtain ⟨v, -, rfl⟩ := List.mem_map.mp ht
  exact Ty.recordless_var v

end TypeTable

theorem Conversion.avoids_convert {scope : ModuleScope} (hscope : scope.Recordfree) (rigid : Bool) {t : TypeExpr}
    (ht : t.isRecordfree = true) : Avoids (Conversion.convert scope rigid t) Ty.Recordless :=
  avoids_convertWith (TypeTable.aliasesAvoid_expandAt hscope _) hscope rigid ht

/-! ### What names refer to -/

/-- Whether there is no record in what a name refers to. The function that builds a record has one. -/
def ValueTarget.Recordfree : ValueTarget → Prop
  | .value _ d => (Declaration.value d).Recordfree
  | .variant _ d _ => (Declaration.unionType d).Recordfree
  | .recordConstructor _ _ => False
  | .hostValue d => d.type.isRecordfree = true
  | .external t => t.Recordless

namespace ModuleScope

variable {scope : ModuleScope}

theorem recordfree_offeredValue {m name : Name} {index : Nat} {declaration : Declaration} {target : ValueTarget}
    (h : offeredValue m name index declaration = some target) (hfree : declaration.Recordfree) : target.Recordfree := by
  cases declaration with
  | value d =>
    rw [offeredValue] at h
    split at h
    · cases h
      exact hfree
    · cases h
  | unionType d =>
    obtain ⟨_, _, rfl⟩ := Option.map_eq_some_iff.mp h
    exact hfree
  | typeAlias d =>
    rw [offeredValue] at h
    split at h
    · next hclosed =>
      obtain ⟨-, hclosed⟩ := Bool.and_eq_true_iff.mp hclosed
      unfold TypeExpr.isClosedRecord at hclosed
      split at hclosed
      · next hbody =>
        rw [Declaration.Recordfree, hbody, TypeExpr.isRecordfree] at hfree
        cases hfree
      · cases hclosed
    · cases h
  | fixity d => cases h
  | hostValue d =>
    rw [offeredValue] at h
    split at h
    · cases h
      exact hfree
    · cases h

theorem Recordfree.target (h : scope.Recordfree) {name : Ref} {target : ValueTarget}
    (hmem : target ∈ scope.findValues name) : target.Recordfree := by
  rcases mem_of_mem_preferLocal hmem with hown | hother
  · split at hown
    · obtain ⟨⟨declaration, index⟩, hdecl, hoffered⟩ := List.mem_filterMap.mp hown
      exact recordfree_offeredValue hoffered (h.declarations declaration (List.fst_mem_of_mem_zipIdx hdecl))
    · cases hown
  · obtain ⟨v, hv, rfl⟩ := List.mem_map.mp hother
    exact h.values v (List.mem_of_mem_filter hv)

theorem Recordfree.operator (h : scope.Recordfree) {name : Name} {target : OperatorTarget}
    (hmem : target ∈ scope.findOperators name) : target.function.Recordfree := by
  rcases mem_of_mem_preferLocal hmem with hown | hother
  · obtain ⟨declaration, -, hoffered⟩ := List.mem_filterMap.mp hown
    cases declaration with
    | fixity decl =>
      simp only [offeredOperator] at hoffered
      split at hoffered
      · obtain ⟨function, hunique, rfl⟩ := Option.map_eq_some_iff.mp hoffered
        unfold unique? at hunique
        split at hunique
        · next hfound =>
          cases hunique
          exact h.target (hfound ▸ List.mem_singleton_self _)
        · cases hunique
      · cases hoffered
    | _ => cases hoffered
  · obtain ⟨o, ho, rfl⟩ := List.mem_map.mp hother
    exact h.operators o (List.mem_of_mem_filter ho)

end ModuleScope

/-! ### Results -/

structure InferenceResult.Recordless (r : InferenceResult) : Prop where
  ty : r.ty.Recordless
  nodeTypes : ∀ entry ∈ r.nodeTypes, entry.2.Recordless

structure Session.Recordless (session : Session) : Prop where
  results : ∀ key r, (key, Entry.computed r) ∈ session.cache.entries → r.Recordless
  declared : ∀ entry ∈ session.cache.declared, entry.2.Recordless

theorem Session.recordless_iff {session : Session} :
    session.Recordless ↔ session.cache.Keeps InferenceResult.Recordless DeclaredType.Recordless :=
  ⟨fun h => ⟨h.results, h.declared⟩, fun h => ⟨h.results, h.declared⟩⟩

namespace InferenceResult

variable {r : InferenceResult}

theorem Recordless.typeOf? (h : r.Recordless) {id : NodeId} {t : Ty} (ht : r.typeOf? id = some t) : t.Recordless :=
  h.nodeTypes _ (Assoc.mem_of_get? ht)

theorem Recordless.boundType? (h : r.Recordless) (name : Name) (p : Pattern) {t : Ty}
    (ht : r.boundType? name p = some t) : t.Recordless := by
  rcases boundType?_cases name p ht with ⟨_, ht⟩ | ⟨_, fields, base, w, refs, hrecord, -⟩ | rfl
  · exact h.typeOf? ht
  · exact absurd (h.typeOf? hrecord) Ty.not_recordless_record
  · exact Ty.recordless_unknown

theorem Recordless.resultType (h : r.Recordless) (decl : ValueDecl) (name : Name) :
    (InferM.resultType decl name r).Recordless := by
  unfold InferM.resultType
  split
  · exact h.ty
  · next pattern _ =>
    cases hbound : r.boundType? name pattern with
    | some t => exact h.boundType? name pattern hbound
    | none => exact Ty.recordless_unknown

end InferenceResult

end ElmInference
