import ElmInference.Proofs.Infer.AliasCycles
import ElmInference.Proofs.Infer.SignatureVars
import ElmInference.Proofs.Types.Building

/-!
# What type expressions denote

A type expression denotes a type in an environment, which gives its type variables their types. A reference to an alias
denotes what the body of the alias does in the environment of the arguments. Conversion goes another way: it converts
the body once, with new variables for the parameters, and puts the arguments for these variables at each use. Both
come to the same type, as far as aliases, field references and currying do not count: what is done to the parts of a
type may be done to the type that is built of them, and putting arguments for variables is such a thing.

The induction is along the references between aliases and then over the expression, for all environments, and for all
such things that will be done to the outcome later on.
-/

namespace ElmInference

/-! ### Types without aliases, field references and currying -/

namespace Ty

def uncurried (params : List Ty) : Ty → Ty
  | .arrow more last _ => .arrow (params ++ more) last none
  | ret => .arrow params ret none

mutual

/-- A type apart from aliases, field references and currying. -/
def essence : Ty → Ty
  | .unit => .unit
  | .unknown => .unknown
  | .inProgress => .inProgress
  | .var v => .var v
  | .growing id => .growing id
  | .union m n args _ => .union m n (essenceList args) none
  | .tuple items => .tuple (essenceList items)
  | .record fields base _ _ => .record (essenceFields fields) (essenceBase base) none .empty
  | .arrow params ret _ => uncurried (essenceList params) ret.essence

def essenceList : List Ty → List Ty
  | [] => []
  | t :: ts => t.essence :: essenceList ts

def essenceFields : List (Name × Ty) → List (Name × Ty)
  | [] => []
  | (name, t) :: rest => (name, t.essence) :: essenceFields rest

def essenceBase : Option Ty → Option Ty
  | none => none
  | some t => some t.essence

end

theorem essenceList_eq (ts : List Ty) : essenceList ts = ts.map essence := by
  induction ts with
  | nil => rfl
  | cons t ts ih => rw [essenceList, ih, List.map_cons]

theorem essenceFields_eq (fields : List (Name × Ty)) : essenceFields fields = fields.map (Prod.map id essence) := by
  induction fields with
  | nil => rfl
  | cons field rest ih => rw [essenceFields, ih, List.map_cons]; rfl

theorem essenceBase_eq (base : Option Ty) : essenceBase base = base.map essence := by
  cases base <;> rfl

theorem uncurried_uncurried (params more : List Ty) (ret : Ty) :
    uncurried params (uncurried more ret) = uncurried (params ++ more) ret := by
  cases ret <;> simp [uncurried]

theorem uncurried_ne_record (params : List Ty) (ret : Ty) {fields : List (Name × Ty)} {base : Option Ty}
    {w : Option (AliasUse Ty)} {refs : FieldReferences} : uncurried params ret ≠ .record fields base w refs := by
  cases ret <;> simp [uncurried]

@[simp] theorem essence_writtenAs? (t : Ty) (w : Option (AliasUse Ty)) : (t.writtenAs? w).essence = t.essence := by
  cases w with
  | none => rfl
  | some use => cases t <;> rfl

theorem essence_function {params : List Ty} (hne : params ≠ []) (ret : Ty) :
    (function params ret).essence = uncurried (params.map essence) ret.essence := by
  by_cases hret : ∃ more last, ret = .arrow more last none
  · obtain ⟨more, last, rfl⟩ := hret
    simp only [function_arrow hne, essence, essenceList_eq, List.map_append, uncurried_uncurried]
  · rw [function_of_ne hne fun more last heq => hret ⟨more, last, heq⟩, essence, essenceList_eq]

theorem essence_ne_record {t : Ty} (h : ∀ inner base w refs, t ≠ .record inner base w refs) {inner : List (Name × Ty)}
    {base : Option Ty} {w : Option (AliasUse Ty)} {refs : FieldReferences} : t.essence ≠ .record inner base w refs := by
  cases t with
  | record => exact absurd rfl (h _ _ _ _)
  | arrow params ret w' =>
    rw [essence]
    exact uncurried_ne_record _ _
  | _ => simp [essence]

theorem essence_recordWith (fields : List (Name × Ty)) (base : Option Ty) (refs : FieldReferences) :
    (recordWith fields base refs).essence =
      recordWith (fields.map (Prod.map id essence)) (base.map essence) .empty := by
  by_cases hbase : ∃ inner innerBase w innerRefs, base = some (.record inner innerBase w innerRefs)
  · obtain ⟨inner, innerBase, w, innerRefs, rfl⟩ := hbase
    simp only [recordWith, essence, essenceFields_eq, map_addFields, Option.map_some, FieldReferences.merge_empty]
  · have hrecord : ∀ inner innerBase w innerRefs, base ≠ some (.record inner innerBase w innerRefs) :=
      fun inner innerBase w innerRefs heq => hbase ⟨inner, innerBase, w, innerRefs, heq⟩
    rw [recordWith_of_ne hrecord, recordWith_of_ne, essence, essenceFields_eq, essenceBase_eq]
    intro inner innerBase w innerRefs heq
    obtain ⟨t, rfl, ht⟩ := Option.map_eq_some_iff.mp heq
    exact essence_ne_record (fun _ _ _ _ h => hrecord _ _ _ _ (congrArg some h)) ht

theorem essence_congr_function {params params' : List Ty} {ret ret' : Ty}
    (hparams : params.map essence = params'.map essence) (hret : ret.essence = ret'.essence) :
    (function params ret).essence = (function params' ret').essence := by
  by_cases hne : params = []
  · subst hne
    obtain rfl := List.map_eq_nil_iff.mp hparams.symm
    exact hret
  · have hne' : params' ≠ [] := by
      rintro rfl
      exact hne (List.map_eq_nil_iff.mp hparams)
    rw [essence_function hne, essence_function hne', hparams, hret]

/-! ### What may be done to a type or to its parts -/

/-- Whether a map of types may be applied before or after types are built. -/
structure Distributes (F : Ty → Ty) : Prop where
  essence : ∀ t u, t.essence = u.essence → (F t).essence = (F u).essence
  unit : F .unit = .unit
  unknown : F .unknown = .unknown
  named : ∀ m n args, F (.named m n args) = .named m n (args.map F)
  tuple : ∀ items, F (.tuple items) = .tuple (items.map F)
  function : ∀ params ret, F (Ty.function params ret) = Ty.function (params.map F) (F ret)
  recordWith : ∀ fields base refs,
    (F (Ty.recordWith fields base refs)).essence = (Ty.recordWith (fields.map (Prod.map id F)) (base.map F) refs).essence

theorem distributes_id : Distributes id where
  essence _ _ h := h
  unit := rfl
  unknown := rfl
  named _ _ _ := by rw [List.map_id, id_eq]
  tuple _ := by rw [List.map_id, id_eq]
  function _ _ := by rw [List.map_id, id_eq, id_eq]
  recordWith _ _ _ := by simp

variable {f : TyVar → Option Ty}

/-- A substitution does to a type what it does to the essence of the type. -/
theorem essence_subst (t : Ty) : (t.subst f).essence = (t.essence.subst f).essence := by
  have hlist : ∀ {ts : List Ty}, (∀ t ∈ ts, (t.subst f).essence = (t.essence.subst f).essence) →
      (ts.map (subst f)).map essence = ((ts.map essence).map (subst f)).map essence := by
    intro ts hts
    simp only [List.map_map]
    exact List.map_congr_left hts
  induction t using inductParts with
  | unit => rfl
  | unknown => rfl
  | inProgress => rfl
  | var v => rfl
  | growing id => rfl
  | union m n args w iha ihw => simp only [subst, essence, substList_eq_map, essenceList_eq, hlist iha]
  | tuple items ih => simp only [subst, essence, substList_eq_map, essenceList_eq, hlist ih]
  | record fields base w refs ihf ihb ihw =>
    have hfields : (fields.map (Prod.map id (subst f))).map (Prod.map id essence) =
        ((fields.map (Prod.map id essence)).map (Prod.map id (subst f))).map (Prod.map id essence) := by
      simp only [List.map_map]
      exact List.map_congr_left fun field hfield => Prod.ext rfl (ihf field hfield)
    have hbase : (base.map (subst f)).map essence = ((base.map essence).map (subst f)).map essence := by
      cases base with
      | none => rfl
      | some b => exact congrArg some (ihb b rfl)
    rw [essence, subst, subst, essence_writtenAs?, essence_writtenAs?, essence_recordWith, essence_recordWith,
      substFields_eq, substFields_eq, essenceFields_eq, substBase_eq, substBase_eq, essenceBase_eq, hfields, hbase]
  | arrow params ret w ihp ihr ihw =>
    rw [subst, essence_writtenAs?, substList_eq_map, essence, essenceList_eq]
    by_cases hret : ∃ more last u, ret.essence = .arrow more last u
    · obtain ⟨more, last, u, hret⟩ := hret
      rw [hret, subst, essence_writtenAs?, substList_eq_map] at ihr
      rw [hret, uncurried, subst, essence_writtenAs?, substList_eq_map, List.map_append, ← function_function]
      exact essence_congr_function (hlist ihp) ihr
    · have hother : uncurried (params.map essence) ret.essence = .arrow (params.map essence) ret.essence none := by
        cases heq : ret.essence with
        | arrow more last u => exact absurd ⟨more, last, u, heq⟩ hret
        | _ => rfl
      rw [hother, subst, essence_writtenAs?, substList_eq_map]
      exact essence_congr_function (hlist ihp) ihr

/-- Substitution is one of the things that may be done to a type or to its parts. -/
theorem Distributes.comp_subst {F : Ty → Ty} (h : Distributes F) (f : TyVar → Option Ty) :
    Distributes (fun t => F (t.subst f)) where
  essence t u heq := h.essence _ _ (by rw [essence_subst t, essence_subst u, heq])
  unit := h.unit
  unknown := h.unknown
  named m n args := by
    have hsubst : (Ty.named m n args).subst f = .named m n (args.map (subst f)) := by
      rw [Ty.named, subst, substList_eq_map, substAlias]
      rfl
    rw [hsubst, h.named, List.map_map]
    rfl
  tuple items := by
    rw [subst, substList_eq_map, h.tuple, List.map_map]
    rfl
  function params ret := by
    rw [subst_function, h.function, List.map_map]
    rfl
  recordWith fields base refs := by
    have hsubst : ((Ty.recordWith fields base refs).subst f).essence =
        (Ty.recordWith (fields.map (Prod.map id (subst f))) (base.map (subst f)) refs).essence := by
      by_cases hbase : ∃ inner innerBase w innerRefs, base = some (.record inner innerBase w innerRefs)
      · obtain ⟨inner, innerBase, w, innerRefs, rfl⟩ := hbase
        have hrecord : ((Ty.record inner innerBase w innerRefs).subst f).essence =
            Ty.recordWith ((inner.map (Prod.map id (subst f))).map (Prod.map id Ty.essence))
              ((innerBase.map (subst f)).map Ty.essence) .empty := by
          rw [subst, essence_writtenAs?, essence_recordWith, substFields_eq, substBase_eq]
        rw [Ty.recordWith, subst, essence_writtenAs?, essence_recordWith, essence_recordWith, Option.map_some,
          Option.map_some, hrecord, substFields_eq, substBase_eq, map_addFields, map_addFields]
        have hmerge := recordWith_recordWith ((fields.map (Prod.map id (subst f))).map (Prod.map id Ty.essence))
          ((inner.map (Prod.map id (subst f))).map (Prod.map id Ty.essence))
          ((innerBase.map (subst f)).map Ty.essence) none .empty FieldReferences.orderly_empty
        rw [FieldReferences.merge_empty] at hmerge
        exact hmerge.symm
      · rw [recordWith_of_ne fun inner innerBase w innerRefs heq => hbase ⟨inner, innerBase, w, innerRefs, heq⟩,
          subst, essence_writtenAs?, substFields_eq, substBase_eq]
    refine (h.essence _ _ hsubst).trans ((h.recordWith _ _ _).trans ?_)
    rw [List.map_map, Option.map_map]
    rfl

end Ty

/-! ### Denotations -/

namespace TypeTarget

def arity : TypeTarget → Nat
  | .unionType _ decl => decl.params.length
  | .typeAlias _ decl => decl.params.length
  | .external _ _ arity => arity

/-- The name of a type that stands for itself. -/
def key? : TypeTarget → Option TypeKey
  | .unionType m decl => some (m, decl.name)
  | .typeAlias _ _ => none
  | .external m n _ => some (m, n)

end TypeTarget

/-- The type that a type expression denotes in an environment. References that are not resolved, or have another number
of arguments than the type takes, denote the unknown type. -/
inductive Denotes (scope : ModuleScope) : Assoc Name Ty → TypeExpr → Ty → Prop
  | var {env : Assoc Name Ty} {pos : Nat} {name : Name} {t : Ty} (hvar : Assoc.get? env name = some t) :
      Denotes scope env (.mk pos (.var name)) t
  | unit {env : Assoc Name Ty} {pos : Nat} : Denotes scope env (.mk pos .unit) .unit
  | tuple {env : Assoc Name Ty} {pos : Nat} {items : List TypeExpr} {ts : List Ty}
      (hlength : items.length = ts.length) (hitems : ∀ p ∈ items.zip ts, Denotes scope env p.1 p.2) :
      Denotes scope env (.mk pos (.tuple items)) (.tuple ts)
  | record {env : Assoc Name Ty} {pos : Nat} {fields : List (FieldDecl TypeExpr)} {ts : List Ty}
      (hlength : fields.length = ts.length) (hfields : ∀ p ∈ fields.zip ts, Denotes scope env p.1.type p.2) :
      Denotes scope env (.mk pos (.record none fields)) (.closedRecord ((fields.map FieldDecl.name).zip ts))
  | extension {env : Assoc Name Ty} {pos : Nat} {name : Name} {base : Ty} {fields : List (FieldDecl TypeExpr)}
      {ts : List Ty} (hbase : Assoc.get? env name = some base) (hlength : fields.length = ts.length)
      (hfields : ∀ p ∈ fields.zip ts, Denotes scope env p.1.type p.2) :
      Denotes scope env (.mk pos (.record (some name) fields)) (.extension base ((fields.map FieldDecl.name).zip ts))
  | noSegments {env : Assoc Name Ty} {pos : Nat} : Denotes scope env (.mk pos (.function [])) .unknown
  | function {env : Assoc Name Ty} {pos : Nat} {segments params : List TypeExpr} {ret : TypeExpr} {ts : List Ty} {t : Ty}
      (hsegments : segments = params ++ [ret]) (hlength : params.length = ts.length)
      (hparams : ∀ p ∈ params.zip ts, Denotes scope env p.1 p.2) (hret : Denotes scope env ret t) :
      Denotes scope env (.mk pos (.function segments)) (.function ts t)
  | unresolved {env : Assoc Name Ty} {pos : Nat} {name : Ref} {args : List TypeExpr}
      (hnone : scope.findType? name = none) : Denotes scope env (.mk pos (.ref name args)) .unknown
  | wrongArity {env : Assoc Name Ty} {pos : Nat} {name : Ref} {args : List TypeExpr} {target : TypeTarget}
      (htarget : scope.findType? name = some target) (hcount : args.length ≠ target.arity) :
      Denotes scope env (.mk pos (.ref name args)) .unknown
  | named {env : Assoc Name Ty} {pos : Nat} {name : Ref} {args : List TypeExpr} {target : TypeTarget} {m n : Name}
      {ts : List Ty} (htarget : scope.findType? name = some target) (hkey : target.key? = some (m, n))
      (hcount : args.length = target.arity) (hlength : args.length = ts.length)
      (hargs : ∀ p ∈ args.zip ts, Denotes scope env p.1 p.2) :
      Denotes scope env (.mk pos (.ref name args)) (.named m n ts)
  | typeAlias {env : Assoc Name Ty} {pos : Nat} {name : Ref} {args : List TypeExpr} {m : Name} {decl : AliasDecl}
      {ts : List Ty} {t : Ty} (htarget : scope.findType? name = some (.typeAlias m decl))
      (hcount : args.length = decl.params.length) (hlength : args.length = ts.length)
      (hargs : ∀ p ∈ args.zip ts, Denotes scope env p.1 p.2)
      (hbody : Denotes scope (decl.params.zip ts).reverse decl.body t) : Denotes scope env (.mk pos (.ref name args)) t

namespace Denotes

variable {scope : ModuleScope} {env : Assoc Name Ty} {x : TypeExpr} {t u : Ty}

theorem eq_of_zip {α : Type} {xs : List α} {ts us : List Ty} {P : α × Ty → Prop} (hts : xs.length = ts.length)
    (hus : xs.length = us.length) (hsame : ∀ p ∈ xs.zip ts, ∀ u, P (p.1, u) → p.2 = u)
    (hmatch : ∀ p ∈ xs.zip us, P p) : ts = us := by
  induction xs generalizing ts us with
  | nil =>
    obtain rfl := List.length_eq_zero_iff.mp hts.symm
    obtain rfl := List.length_eq_zero_iff.mp hus.symm
    rfl
  | cons x xs ih =>
    obtain ⟨t, ts, rfl⟩ := List.exists_cons_of_length_eq_add_one hts.symm
    obtain ⟨u, us, rfl⟩ := List.exists_cons_of_length_eq_add_one hus.symm
    rw [List.zip_cons_cons] at hsame hmatch
    obtain ⟨hfirst, hrest⟩ := List.forall_mem_cons.mp hsame
    obtain ⟨hu, hus'⟩ := List.forall_mem_cons.mp hmatch
    have hhead : t = u := hfirst u hu
    rw [hhead, ih (Nat.succ.inj hts) (Nat.succ.inj hus) hrest hus']

/-- A type expression denotes one type at most. -/
theorem unique (ht : Denotes scope env x t) (hu : Denotes scope env x u) : t = u := by
  induction ht generalizing u with
  | var hvar =>
    cases hu with
    | var hvar' => exact Option.some.inj (hvar.symm.trans hvar')
  | unit => cases hu; rfl
  | @tuple env _ _ _ hlength _ ih =>
    cases hu with
    | tuple hlength' hitems' =>
      exact congrArg Ty.tuple (eq_of_zip (P := fun p => Denotes scope env p.1 p.2) hlength hlength' (fun p hp u => ih p hp)
        hitems')
  | @record env _ _ _ hlength _ ih =>
    cases hu with
    | record hlength' hfields' =>
      rw [eq_of_zip (P := fun p => Denotes scope env p.1.type p.2) hlength hlength' (fun p hp u => ih p hp) hfields']
  | @extension env _ _ _ _ _ hbase hlength _ ih =>
    cases hu with
    | extension hbase' hlength' hfields' =>
      obtain rfl := Option.some.inj (hbase.symm.trans hbase')
      rw [eq_of_zip (P := fun p => Denotes scope env p.1.type p.2) hlength hlength' (fun p hp u => ih p hp) hfields']
  | noSegments =>
    generalize hnone : ([] : List TypeExpr) = segments at hu
    cases hu with
    | noSegments => rfl
    | function hsegments => simp [← hnone] at hsegments
  | @function env _ _ _ _ _ _ hsegments hlength _ _ ihparams ihret =>
    cases hu with
    | noSegments => simp at hsegments
    | function hsegments' hlength' hparams' hret' =>
      obtain ⟨rfl, heq⟩ := List.append_inj' (hsegments.symm.trans hsegments') rfl
      obtain rfl := List.singleton_injective heq
      rw [eq_of_zip (P := fun p => Denotes scope env p.1 p.2) hlength hlength' (fun p hp u => ihparams p hp) hparams',
        ihret hret']
  | unresolved hnone =>
    cases hu with
    | unresolved => rfl
    | wrongArity htarget' => cases hnone.symm.trans htarget'
    | named htarget' => cases hnone.symm.trans htarget'
    | typeAlias htarget' => cases hnone.symm.trans htarget'
  | wrongArity htarget hcount =>
    cases hu with
    | unresolved => rfl
    | wrongArity => rfl
    | named htarget' _ hcount' => cases htarget.symm.trans htarget'; exact absurd hcount' hcount
    | typeAlias htarget' hcount' => cases htarget.symm.trans htarget'; exact absurd hcount' hcount
  | @named env _ _ _ _ _ _ _ htarget hkey hcount hlength _ ih =>
    cases hu with
    | unresolved hnone' => cases htarget.symm.trans hnone'
    | wrongArity htarget' hcount' => cases htarget.symm.trans htarget'; exact absurd hcount hcount'
    | named htarget' hkey' _ hlength' hargs' =>
      cases htarget.symm.trans htarget'
      cases hkey.symm.trans hkey'
      rw [eq_of_zip (P := fun p => Denotes scope env p.1 p.2) hlength hlength' (fun p hp u => ih p hp) hargs']
    | typeAlias htarget' => cases htarget.symm.trans htarget'; cases hkey
  | @typeAlias env _ _ _ _ _ _ _ htarget hcount hlength _ _ ihargs ihbody =>
    cases hu with
    | unresolved hnone' => cases htarget.symm.trans hnone'
    | wrongArity htarget' hcount' => cases htarget.symm.trans htarget'; exact absurd hcount hcount'
    | named htarget' hkey' => cases htarget.symm.trans htarget'; cases hkey'
    | typeAlias htarget' _ hlength' hargs' hbody' =>
      cases htarget.symm.trans htarget'
      obtain rfl := eq_of_zip (P := fun p => Denotes scope env p.1 p.2) hlength hlength' (fun p hp u => ihargs p hp) hargs'
      exact ihbody hbody'

end Denotes

namespace Conversion

variable {α β : Type} {scope : ModuleScope} {rigid : Bool} {F : Ty → Ty} {env env' : Assoc Name Ty}

/-! ### Conversions in an environment -/

/-- Whether a computation gives something of a kind when it starts with some type variables, and leaves these alone. -/
def GivesIn (env : Assoc Name Ty) (x : StateM Conversion α) (V : α → Prop) : Prop :=
  ∀ c, c.vars = env → (x c).2.vars = env ∧ V (x c).1

theorem givesIn_pure {a : α} {V : α → Prop} (ha : V a) : GivesIn env (pure a) V :=
  fun _ hvars => ⟨hvars, ha⟩

theorem GivesIn.bind {x : StateM Conversion α} {f : α → StateM Conversion β} {V : α → Prop} {V' : β → Prop}
    (hx : GivesIn env x V) (hf : ∀ a, V a → GivesIn env (f a) V') : GivesIn env (x >>= f) V' := by
  intro c hvars
  obtain ⟨hvars', ha⟩ := hx c hvars
  exact hf _ ha _ hvars'

theorem givesIn_report (pos : Nat) (kind : ProblemKind) : GivesIn env (report pos kind) (fun _ => True) :=
  fun _ hvars => ⟨hvars, trivial⟩

/-- Whether two environments give the same to some type variables once something has been done in the first. -/
def Agree (F : Ty → Ty) (env env' : Assoc Name Ty) (names : List Name) : Prop :=
  ∀ name ∈ names, ∃ t u, Assoc.get? env name = some t ∧ Assoc.get? env' name = some u ∧ (F t).essence = u.essence

/-- Whether a type is what an expression denotes, once something has been done to it. -/
def Represents (scope : ModuleScope) (F : Ty → Ty) (env : Assoc Name Ty) (x : TypeExpr) (t : Ty) : Prop :=
  ∃ u, Denotes scope env x u ∧ (F t).essence = u.essence

def RepresentsAll (scope : ModuleScope) (F : Ty → Ty) (env : Assoc Name Ty) (xs : List TypeExpr) (ts : List Ty) : Prop :=
  ∃ us, xs.length = us.length ∧ (∀ p ∈ xs.zip us, Denotes scope env p.1 p.2) ∧
    (ts.map F).map Ty.essence = us.map Ty.essence

/-- Whether an alias gives what its body denotes for its arguments. -/
def Sound (scope : ModuleScope) (decl : AliasDecl) : Prop :=
  ∃ d, (TypeTable.expand scope scope.module.name decl {}).1 = some d ∧ ∀ F, Ty.Distributes F → ∀ ts us : List Ty,
    decl.params.length = us.length → (ts.map F).map Ty.essence = us.map Ty.essence → ∀ s : Store,
      Represents scope F (decl.params.zip us).reverse decl.body (d.instantiate ts s).1

theorem givesIn_typeVar {name : Name} {t : Ty} (hget : Assoc.get? env name = some t) :
    GivesIn env (Conversion.typeVar rigid name) (fun u => u = t) := by
  rintro c rfl
  unfold Conversion.typeVar
  rw [hget]
  exact ⟨rfl, rfl⟩

theorem givesIn_saturated (pos : Nat) (m n : Name) (args : List Ty) (arity : Nat) :
    GivesIn env (saturated pos m n args arity)
      (fun t => t = if args.length = arity then .named m n args else .unknown) := by
  unfold saturated
  split
  · exact givesIn_pure rfl
  · exact (givesIn_report _ _).bind fun _ _ => givesIn_pure rfl

theorem RepresentsAll.length {xs : List TypeExpr} {ts : List Ty} (h : RepresentsAll scope F env xs ts) :
    ts.length = xs.length := by
  obtain ⟨us, hlength, -, hsame⟩ := h
  have hsame := congrArg List.length hsame
  rw [List.length_map, List.length_map, List.length_map] at hsame
  exact hsame.trans hlength.symm

section Distributes

variable (hF : Ty.Distributes F)

include hF

theorem represents_unknown {x : TypeExpr} (h : Denotes scope env x .unknown) : Represents scope F env x .unknown :=
  ⟨.unknown, h, congrArg Ty.essence hF.unknown⟩

theorem represents_function {pos : Nat} {segments : List TypeExpr} {ts : List Ty}
    (h : RepresentsAll scope F env segments ts) : Represents scope F env (.mk pos (.function segments)) (ofSegments ts) := by
  have hcount := h.length
  obtain ⟨us, hlength, hsegments, hsame⟩ := h
  rcases List.eq_nil_or_concat' segments with rfl | ⟨params, ret, rfl⟩
  · obtain rfl := List.length_eq_zero_iff.mp hcount
    exact represents_unknown hF .noSegments
  · rcases List.eq_nil_or_concat' us with rfl | ⟨us, u, rfl⟩
    · simp at hlength
    rcases List.eq_nil_or_concat' ts with rfl | ⟨ts, t, rfl⟩
    · simp at hcount
    simp only [List.length_append, List.length_singleton, Nat.add_right_cancel_iff] at hlength
    rw [List.zip_append hlength] at hsegments
    obtain ⟨hparams, hret⟩ := List.forall_mem_append.mp hsegments
    simp only [List.map_append, List.map_cons, List.map_nil] at hsame
    obtain ⟨hts, ht⟩ := List.append_inj' hsame rfl
    refine ⟨.function us u, .function rfl hlength hparams (hret (ret, u) (List.mem_singleton_self _)), ?_⟩
    rw [ofSegments, List.getLast?_concat, List.dropLast_concat]
    exact (congrArg Ty.essence (hF.function ts t)).trans
      (Ty.essence_congr_function hts (List.singleton_injective ht))

theorem givesIn_named {pos : Nat} {name : Ref} {args : List TypeExpr} {target : TypeTarget} {m n : Name} {ts : List Ty}
    (htarget : scope.findType? name = some target) (hkey : target.key? = some (m, n))
    (hts : RepresentsAll scope F env' args ts) :
    GivesIn env (saturated pos m n ts target.arity) (Represents scope F env' (.mk pos (.ref name args))) := by
  intro c hvars
  obtain ⟨hvars', hresult⟩ := givesIn_saturated pos m n ts target.arity c hvars
  refine ⟨hvars', ?_⟩
  rw [hresult]
  have hcount := hts.length
  by_cases harity : ts.length = target.arity
  · rw [if_pos harity]
    obtain ⟨us, hlength, hargs, hsame⟩ := hts
    refine ⟨.named m n us, .named htarget hkey (hcount.symm.trans harity) hlength hargs, ?_⟩
    rw [hF.named, Ty.named, Ty.named, Ty.essence, Ty.essence, Ty.essenceList_eq, Ty.essenceList_eq, hsame]
  · rw [if_neg harity]
    exact represents_unknown hF (.wrongArity htarget (hcount ▸ harity))

theorem givesIn_expanded {pos : Nat} {name : Ref} {args : List TypeExpr} {decl : AliasDecl} {ts : List Ty}
    (htarget : scope.findType? name = some (.typeAlias scope.module.name decl))
    (hsound : args.length = decl.params.length → Sound scope decl) (hts : RepresentsAll scope F env' args ts) :
    GivesIn env (expanded (TypeTable.known scope) pos scope.module.name decl ts)
      (Represents scope F env' (.mk pos (.ref name args))) := by
  have hcount := hts.length
  unfold expanded
  by_cases harity : ts.length = decl.params.length
  · rw [if_neg (not_not.mpr harity)]
    obtain ⟨d, hd, hmeans⟩ := hsound (hcount.symm.trans harity)
    obtain ⟨us, hlength, hargs, hsame⟩ := hts
    have hknown : GivesIn env (modifyGet (fun c =>
        ((TypeTable.known scope scope.module.name decl c.table).1,
          { c with table := (TypeTable.known scope scope.module.name decl c.table).2 })) : StateM Conversion _)
        (fun found => found = some d) :=
      fun c hvars => ⟨hvars, hd⟩
    refine hknown.bind fun found hfound => ?_
    subst hfound
    have hparams : decl.params.length = us.length := (hcount.symm.trans harity).symm.trans hlength
    intro c hvars
    refine ⟨hvars, ?_⟩
    obtain ⟨u, hbody, hessence⟩ := hmeans F hF ts us hparams hsame c.store
    exact ⟨u, .typeAlias htarget (hcount.symm.trans harity) hlength hargs hbody, hessence⟩
  · rw [if_pos harity]
    refine (givesIn_report _ _).bind fun _ _ => givesIn_pure ?_
    exact represents_unknown hF (.wrongArity htarget (hcount ▸ harity))

theorem givesIn_reference {pos : Nat} {name : Ref} {args : List TypeExpr} {ts : List Ty}
    (hsound : ∀ decl ∈ applied scope name args.length, Sound scope decl) (hts : RepresentsAll scope F env' args ts) :
    GivesIn env (reference scope (TypeTable.known scope) pos name ts)
      (Represents scope F env' (.mk pos (.ref name args))) := by
  unfold reference
  rcases htarget : scope.findType? name with _ | ⟨m, decl⟩ | ⟨m, decl⟩ | ⟨m, n, arity⟩
  · exact givesIn_pure (represents_unknown hF (.unresolved htarget))
  · exact givesIn_named hF htarget rfl hts
  · obtain ⟨rfl, -⟩ := ModuleScope.mem_of_findType? htarget
    refine givesIn_expanded hF htarget (fun hcount => hsound decl ?_) hts
    simp [applied, htarget, hcount]
  · exact givesIn_named hF htarget rfl hts

end Distributes

mutual

/-- What comes of a conversion is what the expression denotes, also when something is done to it afterwards and in
the environment beforehand. -/
theorem givesIn_convertWith (hF : Ty.Distributes F) (x : TypeExpr) (hsound : ∀ decl ∈ aliases scope x, Sound scope decl)
    (henv : Agree F env env' x.varNames) :
    GivesIn env (convertWith scope (TypeTable.known scope) rigid x) (Represents scope F env' x) := by
  match x with
  | .mk _ (.var name) =>
    rw [convertWith]
    obtain ⟨t, u, ht, hu, hsame⟩ := henv name (List.mem_singleton_self _)
    intro c hvars
    have hvar : GivesIn env (Conversion.typeVar rigid name) (fun u => u = t) := givesIn_typeVar ht
    obtain ⟨hvars', hresult⟩ := hvar c hvars
    exact ⟨hvars', u, .var hu, hresult ▸ hsame⟩
  | .mk _ .unit =>
    rw [convertWith]
    exact givesIn_pure ⟨.unit, .unit, congrArg Ty.essence hF.unit⟩
  | .mk _ (.tuple items) =>
    rw [convertWith]
    refine (givesIn_convertList hF items hsound henv).bind fun ts ⟨us, hlength, hitems, hsame⟩ => givesIn_pure ?_
    refine ⟨.tuple us, .tuple hlength hitems, ?_⟩
    rw [hF.tuple, Ty.essence, Ty.essence, Ty.essenceList_eq, Ty.essenceList_eq, hsame]
  | .mk _ (.record none fields) =>
    rw [convertWith]
    refine (givesIn_pure (V := fun under => under = none) rfl).bind fun under hunder => ?_
    subst hunder
    refine (givesIn_convertFields hF fields hsound henv).bind fun converted ⟨us, hlength, hfields, hsame⟩ => givesIn_pure ?_
    refine ⟨_, .record hlength hfields, ?_⟩
    rw [hF.recordWith, Ty.closedRecord, Ty.essence_recordWith, Ty.essence_recordWith, hsame]
    rfl
  | .mk _ (.record (some name) fields) =>
    rw [convertWith]
    obtain ⟨henvBase, henvFields⟩ := List.forall_mem_append.mp henv
    obtain ⟨b, u, hb, hu, hbase⟩ := henvBase name (List.mem_singleton_self _)
    have hunder : GivesIn env (base rigid (some name)) (fun under => under = some b) :=
      (givesIn_typeVar hb).bind fun _ ht => givesIn_pure (congrArg some ht)
    refine hunder.bind fun under hunder => ?_
    subst hunder
    refine (givesIn_convertFields hF fields hsound henvFields).bind fun converted ⟨us, hlength, hfields, hsame⟩ =>
      givesIn_pure ?_
    refine ⟨_, .extension hu hlength hfields, ?_⟩
    rw [hF.recordWith, Ty.extension, Ty.essence_recordWith, Ty.essence_recordWith, hsame, Option.map_some,
      Option.map_some, hbase]
    rfl
  | .mk _ (.function segments) =>
    rw [convertWith]
    exact (givesIn_convertList hF segments hsound henv).bind fun ts hts => givesIn_pure (represents_function hF hts)
  | .mk pos (.ref name args) =>
    rw [convertWith]
    rw [aliases] at hsound
    obtain ⟨hsoundArgs, hsoundAlias⟩ := List.forall_mem_append.mp hsound
    exact (givesIn_convertList hF args hsoundArgs henv).bind fun ts hts => givesIn_reference hF hsoundAlias hts

theorem givesIn_convertList (hF : Ty.Distributes F) (xs : List TypeExpr) (hsound : ∀ decl ∈ aliasesList scope xs, Sound scope decl)
    (henv : Agree F env env' (TypeExpr.varNamesList xs)) :
    GivesIn env (convertList scope (TypeTable.known scope) rigid xs) (RepresentsAll scope F env' xs) := by
  match xs with
  | [] =>
    rw [convertList]
    exact givesIn_pure ⟨[], rfl, nofun, rfl⟩
  | x :: xs =>
    rw [convertList]
    rw [aliasesList] at hsound
    obtain ⟨hsoundFirst, hsoundRest⟩ := List.forall_mem_append.mp hsound
    obtain ⟨henvFirst, henvRest⟩ := List.forall_mem_append.mp henv
    refine (givesIn_convertWith hF x hsoundFirst henvFirst).bind fun t ⟨u, hfirst, hsameFirst⟩ => ?_
    refine (givesIn_convertList hF xs hsoundRest henvRest).bind fun ts ⟨us, hlength, hrest, hsame⟩ => givesIn_pure ?_
    refine ⟨u :: us, congrArg (· + 1) hlength, ?_, ?_⟩
    · rw [List.zip_cons_cons]
      exact List.forall_mem_cons.mpr ⟨hfirst, hrest⟩
    · rw [List.map_cons, List.map_cons, List.map_cons, hsameFirst, hsame]

theorem givesIn_convertFields (hF : Ty.Distributes F) (fields : List (FieldDecl TypeExpr))
    (hsound : ∀ decl ∈ aliasesFields scope fields, Sound scope decl)
    (henv : Agree F env env' (TypeExpr.varNamesFields fields)) :
    GivesIn env (convertFields scope (TypeTable.known scope) rigid fields) (fun converted =>
      ∃ us, fields.length = us.length ∧ (∀ p ∈ fields.zip us, Denotes scope env' p.1.type p.2) ∧
        (converted.map (Prod.map id F)).map (Prod.map id Ty.essence) =
          ((fields.map FieldDecl.name).zip us).map (Prod.map id Ty.essence)) := by
  match fields with
  | [] =>
    rw [convertFields]
    exact givesIn_pure ⟨[], rfl, nofun, rfl⟩
  | ⟨_, name, x⟩ :: rest =>
    rw [convertFields]
    rw [aliasesFields] at hsound
    obtain ⟨hsoundFirst, hsoundRest⟩ := List.forall_mem_append.mp hsound
    obtain ⟨henvFirst, henvRest⟩ := List.forall_mem_append.mp henv
    refine (givesIn_convertWith hF x hsoundFirst henvFirst).bind fun t ⟨u, hfirst, hsameFirst⟩ => ?_
    refine (givesIn_convertFields hF rest hsoundRest henvRest).bind fun ts ⟨us, hlength, hrest, hsame⟩ => givesIn_pure ?_
    refine ⟨u :: us, congrArg (· + 1) hlength, ?_, ?_⟩
    · rw [List.zip_cons_cons]
      exact List.forall_mem_cons.mpr ⟨hfirst, hrest⟩
    · simp only [List.map_cons, List.zip_cons_cons, Prod.map_apply, id_eq, hsameFirst, hsame]

end

/-! ### Parameters and arguments -/

/-- The last entry of a name in a list of parameters has the same place whatever the parameters stand for. -/
theorem exists_place {params : List Name} {name : Name} (h : name ∈ params) :
    ∃ i < params.length, ∀ {α : Type} (as : List α), params.length = as.length →
      Assoc.get? (params.zip as).reverse name = as[i]? := by
  induction params using List.reverseRecOn with
  | nil => cases h
  | append_singleton params last ih =>
    have hsnoc : ∀ {α : Type} (as : List α), (params ++ [last]).length = as.length →
        ∃ front a, as = front ++ [a] ∧ params.length = front.length ∧
          Assoc.get? ((params ++ [last]).zip as).reverse name =
            if last = name then some a else Assoc.get? (params.zip front).reverse name := by
      intro α as hlength
      rcases List.eq_nil_or_concat' as with rfl | ⟨front, a, rfl⟩
      · simp at hlength
      · have hfront : params.length = front.length := by simpa using hlength
        refine ⟨front, a, rfl, hfront, ?_⟩
        rw [List.zip_append hfront, List.reverse_append]
        rfl
    by_cases hlast : last = name
    · refine ⟨params.length, by simp, fun as hlength => ?_⟩
      obtain ⟨front, a, rfl, hfront, hget⟩ := hsnoc as hlength
      rw [hget, if_pos hlast, hfront, List.getElem?_concat_length]
    · obtain ⟨i, hi, hplace⟩ := ih ((List.mem_append.mp h).resolve_right fun hmem => hlast (List.mem_singleton.mp hmem).symm)
      refine ⟨i, by simp only [List.length_append]; omega, fun as hlength => ?_⟩
      obtain ⟨front, a, rfl, hfront, hget⟩ := hsnoc as hlength
      rw [hget, if_neg hlast, hplace front hfront, List.getElem?_append_left (hfront ▸ hi)]

/-- The parameters of a declaration are numbered in order, and a name means the last parameter of that name. -/
theorem paramScope_eq (table : TypeTable) (params : List Name) :
    (paramScope table params).2.store.size = params.length ∧
      (paramScope table params).1.map TyVar.id = List.range params.length ∧
      ∀ name, Assoc.get? (paramScope table params).2.vars name =
        (Assoc.get? (params.zip (paramScope table params).1).reverse name).map .var := by
  unfold paramScope
  induction params using List.reverseRecOn with
  | nil => exact ⟨rfl, rfl, fun _ => rfl⟩
  | append_singleton params last ih =>
    obtain ⟨hsize, hids, hvars⟩ := ih
    simp only [List.foldl_append, List.foldl_cons, List.foldl_nil, List.length_append, List.length_singleton]
    generalize List.foldl _ _ params = out at hsize hids hvars
    obtain ⟨vs, c⟩ := out
    have hlength : params.length = vs.length := by
      have hids := congrArg List.length hids
      rw [List.length_map, List.length_range] at hids
      exact hids.symm
    have hnew : (c.store.fresh last false).1.id = params.length := hsize
    refine ⟨?_, ?_, fun name => ?_⟩
    · exact (Solutions.size_fresh _).trans (congrArg (· + 1) hsize)
    · rw [List.map_append, List.range_succ, ← hids]
      exact congrArg (fun id => vs.map TyVar.id ++ [id]) hnew
    · rw [List.zip_append hlength, List.reverse_append]
      by_cases hname : last = name
      · subst hname
        exact (Assoc.get?_set_self _ _ _).trans (by simp [Assoc.get?])
      · refine (Assoc.get?_set_of_ne _ _ hname).trans ((hvars name).trans ?_)
        simp [Assoc.get?, hname]

theorem get?_range'_zip {α : Type} (k i : Nat) (as : List α) :
    Assoc.get? ((List.range' k as.length).zip as) (k + i) = as[i]? := by
  induction as generalizing k i with
  | nil => rfl
  | cons a as ih =>
    rw [List.length_cons, List.range'_succ, List.zip_cons_cons, Assoc.get?]
    cases i with
    | zero => rw [Nat.add_zero, if_pos rfl]; rfl
    | succ i =>
      rw [if_neg (by omega), List.getElem?_cons_succ, ← ih (k + 1) i]
      congr 1
      omega

end Conversion

namespace DeclaredType

theorem paramImages_eq_zip {vs : List TyVar} {ts : List Ty} (hlength : vs.length = ts.length) (s : Store) :
    (paramImages vs ts s).1 = (vs.map TyVar.id).zip ts := by
  induction vs generalizing ts with
  | nil => rfl
  | cons v vs ih =>
    obtain ⟨t, ts, rfl⟩ := List.exists_cons_of_length_eq_add_one hlength.symm
    rw [paramImages, List.map_cons, List.zip_cons_cons, ← ih (Nat.succ.inj hlength)]

theorem get?_otherImages {images : Assoc VarId Ty} {id : VarId} {t : Ty} (h : Assoc.get? images id = some t)
    (vs : List TyVar) (s : Store) : Assoc.get? (otherImages images vs s).1 id = some t := by
  induction vs generalizing images s with
  | nil => exact h
  | cons v vs ih =>
    rw [otherImages]
    split
    · exact ih h s
    · refine ih ?_ _
      rw [Assoc.get?_append, h]
      rfl

end DeclaredType

namespace TypeTable

open Conversion

variable {scope : ModuleScope}

/-! ### Aliases -/

/-- The parameters of an alias agree with its arguments once these have been put for the variables. -/
theorem agree_params {F : Ty → Ty} (m : Name) (decl : AliasDecl) (body : Ty) {ts us : List Ty}
    (hlength : decl.params.length = us.length) (hsame : (ts.map F).map Ty.essence = us.map Ty.essence) (s : Store) :
    let d := aliasOf m decl (paramScope {} decl.params).1 body
    Agree (fun t => F (t.substTable (d.images ts s).1)) (paramScope {} decl.params).2.vars
      (decl.params.zip us).reverse decl.params := by
  intro d name hname
  obtain ⟨-, hids, hvars⟩ := paramScope_eq {} decl.params
  obtain ⟨i, hi, hplace⟩ := exists_place hname
  have hcount : ts.length = decl.params.length := by
    have hsame := congrArg List.length hsame
    rw [List.length_map, List.length_map, List.length_map] at hsame
    exact hsame.trans hlength.symm
  have hvs : decl.params.length = (paramScope {} decl.params).1.length := by
    have hcounted := congrArg List.length hids
    rw [List.length_map, List.length_range] at hcounted
    exact hcounted.symm
  have hit : i < ts.length := hcount ▸ hi
  have hiu : i < us.length := hlength ▸ hi
  have hiv : i < (paramScope {} decl.params).1.length := hvs ▸ hi
  have hid : ((paramScope {} decl.params).1[i]).id = i := by
    have hrange := congrArg (·[i]?) hids
    simp only [List.getElem?_map, List.getElem?_eq_getElem hiv, List.getElem?_range hi, Option.map_some,
      Option.some.injEq] at hrange
    exact hrange
  have himage : Assoc.get? (d.images ts s).1 i = some ts[i] := by
    refine DeclaredType.get?_otherImages ?_ _ _
    have hzip : (DeclaredType.paramImages d.params ts s).1 = ((paramScope {} decl.params).1.map TyVar.id).zip ts :=
      DeclaredType.paramImages_eq_zip (hvs.symm.trans hcount.symm) s
    have hget := get?_range'_zip 0 i ts
    rw [Nat.zero_add] at hget
    rw [hzip, hids, ← hcount, List.range_eq_range', hget, List.getElem?_eq_getElem hit]
  refine ⟨.var (paramScope {} decl.params).1[i], us[i], ?_, ?_, ?_⟩
  · rw [hvars name, hplace _ hvs, List.getElem?_eq_getElem hiv]
    rfl
  · rw [hplace _ hlength, List.getElem?_eq_getElem hiu]
  · have hput : (Ty.var (paramScope {} decl.params).1[i]).substTable (d.images ts s).1 = ts[i] := by
      rw [Ty.substTable, Ty.subst, hid, himage]
      rfl
    have hmember := congrArg (·[i]?) hsame
    simp only [List.getElem?_map, List.getElem?_eq_getElem hit, List.getElem?_eq_getElem hiu, Option.map_some,
      Option.some.injEq] at hmember
    exact (congrArg (fun t => (F t).essence) hput).trans hmember

theorem sound_of_acc (hdistinct : scope.module.DistinctTypes)
    (hown : ∀ decl, .typeAlias decl ∈ scope.module.declarations → ∀ name ∈ decl.body.varNames, name ∈ decl.params)
    {decl : AliasDecl} (hacc : Acc (Unfolds scope) decl) (hdecl : .typeAlias decl ∈ scope.module.declarations) :
    Sound scope decl := by
  induction hacc with
  | intro decl hbelow ih =>
    refine ⟨_, fst_expand_of_acc hdistinct ⟨_, hbelow⟩ hdecl, fun F hF ts us hlength hsame s => ?_⟩
    let d := aliasOf scope.module.name decl (paramScope {} decl.params).1 (bodyType scope decl)
    let G : Ty → Ty := fun t => F (t.substTable (d.images ts s).1)
    have hG : Ty.Distributes G := hF.comp_subst _
    have hagree := agree_params scope.module.name decl (bodyType scope decl) hlength hsame s
    have hgives : GivesIn (paramScope {} decl.params).2.vars
        (convertWith scope (TypeTable.known scope) false decl.body) (Represents scope G _ decl.body) :=
      givesIn_convertWith hG decl.body
        (fun inner hinner => ih inner hinner (declared_of_mem_aliases decl.body hinner))
        (fun name hname => hagree name (hown decl hdecl name hname))
    obtain ⟨-, u, hbody, hessence⟩ := hgives _ rfl
    refine ⟨u, hbody, (hG.essence _ _ ?_).trans hessence⟩
    exact Ty.essence_writtenAs? (bodyType scope decl) (some _)

theorem acc_of_acyclic
    (hacyclic : ∀ decl, .typeAlias decl ∈ scope.module.declarations → ¬ Relation.TransGen (Unfolds scope) decl decl)
    {decl : AliasDecl} (hdecl : .typeAlias decl ∈ scope.module.declarations) : Acc (Unfolds scope) decl := by
  refine acc_unfolds_iff.mpr fun inner hleads => hacyclic inner ?_
  rcases Relation.ReflTransGen.cases_head hleads with rfl | ⟨outer, hunfolds, -⟩
  · exact hdecl
  · exact declared_of_mem_aliases outer.body hunfolds

/-- A conversion does the same when the meanings of aliases are at hand. -/
theorem together_convert_known (hdistinct : scope.module.DistinctTypes) (rigid : Bool) (x : TypeExpr) :
    Together (fun table _ => Idle scope table) (Conversion.convert scope rigid x)
      (convertWith scope (known scope) rigid x) :=
  together_convertWith x fun _ _ hdecl table _ hidle => steadfast_expand hdistinct hdecl table hidle

/-- When aliases are acyclic and use their own parameters only, a type expression denotes one type in each environment
of its type variables, and that is what it is converted to, apart from aliases, field references and currying, whatever
earlier conversions have kept. -/
theorem conversion_gives_denotation (hdistinct : scope.module.DistinctTypes)
    (hacyclic : ∀ decl, .typeAlias decl ∈ scope.module.declarations → ¬ Relation.TransGen (Unfolds scope) decl decl)
    (hown : ∀ decl, .typeAlias decl ∈ scope.module.declarations → ∀ name ∈ decl.body.varNames, name ∈ decl.params)
    (rigid : Bool) (x : TypeExpr) (c : Conversion) (hreached : Reached scope c.table)
    (hvars : ∀ name ∈ x.varNames, (Assoc.get? c.vars name).isSome) :
    ∃ t, Denotes scope c.vars x t ∧ (∀ u, Denotes scope c.vars x u → u = t) ∧
      (Conversion.convert scope rigid x c).1.essence = t.essence := by
  have hagree : Agree id c.vars c.vars x.varNames := by
    intro name hname
    obtain ⟨t, ht⟩ := Option.isSome_iff_exists.mp (hvars name hname)
    exact ⟨t, t, ht, ht, rfl⟩
  have hsound : ∀ decl ∈ aliases scope x, Sound scope decl := fun decl hdecl =>
    have hdeclared := declared_of_mem_aliases x hdecl
    sound_of_acc hdistinct hown (acc_of_acyclic hacyclic hdeclared) hdeclared
  have hgives : GivesIn c.vars (convertWith scope (TypeTable.known scope) rigid x) (Represents scope id c.vars x) :=
    givesIn_convertWith Ty.distributes_id x hsound hagree
  obtain ⟨-, t, hdenotes, hessence⟩ := hgives c rfl
  obtain ⟨hsame, -⟩ := together_convert_known hdistinct rigid x c c ⟨rfl, rfl, rfl, hreached.idle hdistinct⟩
  exact ⟨t, hdenotes, fun u hu => hu.unique hdenotes, hsame ▸ hessence⟩

/-- In `type alias Sized a = { a | size : Int }` and `type alias Maker b = Int -> Sized b`, the type `() -> Maker r` is
a function of two arguments to a record of two fields where `r` is a record of one field. -/
theorem conversion_gives_denotation_of_maker :
    let int : TypeExpr := .mk 0 (.ref (.plain "Int") [])
    let sized : AliasDecl := ⟨1, "Sized", ["a"], .mk 2 (.record (some "a") [⟨3, "size", int⟩])⟩
    let maker : AliasDecl :=
      ⟨4, "Maker", ["b"], .mk 5 (.function [int, .mk 6 (.ref (.plain "Sized") [.mk 7 (.var "b")])])⟩
    let scope : ModuleScope :=
      { module := ⟨"Main", [.typeAlias sized, .typeAlias maker]⟩, types := [⟨"Basics", "Int", 0⟩] }
    let x : TypeExpr := .mk 8 (.function [.mk 9 .unit, .mk 10 (.ref (.plain "Maker") [.mk 11 (.var "r")])])
    let c : Conversion :=
      { table := (expand scope "Main" sized {}).2, vars := [("r", .closedRecord [("id", .int)])] }
    scope.module.DistinctTypes ∧ Reached scope c.table ∧
      (∃ t, Denotes scope c.vars x t ∧ (∀ u, Denotes scope c.vars x u → u = t) ∧
        (Conversion.convert scope true x c).1.essence = t.essence) ∧
      (Conversion.convert scope true x c).1.essence =
        .arrow [.unit, .int] (.closedRecord [("size", .int), ("id", .int)]) none := by
  intro int sized maker scope x c
  have hdistinct : scope.module.DistinctTypes := by
    rw [Module.DistinctTypes]
    decide
  have hdeclared : ∀ declaration, declaration ∈ [.typeAlias sized, .typeAlias maker] →
      declaration ∈ scope.module.declarations := fun _ h => h
  have hcases : ∀ decl, .typeAlias decl ∈ scope.module.declarations → decl = sized ∨ decl = maker := by
    intro decl hdecl
    rcases List.mem_cons.mp hdecl with heq | hmem
    · cases heq
      exact .inl rfl
    · cases List.mem_singleton.mp hmem
      exact .inr rfl
  have hreached : Reached scope c.table := .expand .empty (hdeclared (.typeAlias sized) (by simp))
  have hleaf : Acc (Unfolds scope) sized := ⟨_, fun _ hinner => absurd hinner List.not_mem_nil⟩
  have hmaker : Acc (Unfolds scope) maker := ⟨_, fun inner hinner => List.mem_singleton.mp hinner ▸ hleaf⟩
  have hacyclic : ∀ decl, .typeAlias decl ∈ scope.module.declarations →
      ¬ Relation.TransGen (Unfolds scope) decl decl := by
    intro decl hdecl
    rcases hcases decl hdecl with rfl | rfl
    · exact not_transGen_self hleaf
    · exact not_transGen_self hmaker
  have hown : ∀ decl, .typeAlias decl ∈ scope.module.declarations → ∀ name ∈ decl.body.varNames, name ∈ decl.params := by
    intro decl hdecl
    rcases hcases decl hdecl with rfl | rfl
    · exact fun name hname => hname
    · exact fun name hname => hname
  have hvars : ∀ name ∈ x.varNames, (Assoc.get? c.vars name).isSome := by
    intro name hname
    cases List.mem_singleton.mp hname
    rfl
  exact ⟨hdistinct, hreached, conversion_gives_denotation hdistinct hacyclic hown true x c hreached hvars, rfl⟩

end TypeTable

end ElmInference
