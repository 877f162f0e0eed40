import ElmInference.Proofs.Infer.Meanings
import Mathlib.Data.Set.Finite.List

/-!
# Aliases without a meaning

An alias has no meaning exactly when the references between aliases lead from it into a cycle. Conversion tells such
an alias by the set of aliases that are being converted, and stops after a number of nested conversions that is never
reached, so nothing about the answer depends on that set, on the number, or on what earlier conversions have kept. A
union type ends the search, since its constructors are not looked at for the type itself.

Main statements: an alias that is well-founded along these references means the conversion of its body, with the
meanings of other aliases at hand, and the other ones mean nothing, whatever a table has kept.
-/

namespace ElmInference

namespace Conversion

variable {α β : Type} {scope : ModuleScope} {rigid : Bool}

/-! ### Conversions that meet aliases with a meaning only -/

/-- Whether a computation does not meet an alias without a meaning. -/
def Quiet (x : StateM Conversion α) : Prop :=
  ∀ c, ¬ c.IsCyclic → ¬ (x c).2.IsCyclic

def Means (scope : ModuleScope) (expand : Expand) (uses : List AliasDecl) : Prop :=
  ∀ decl ∈ uses, .typeAlias decl ∈ scope.module.declarations →
    ∀ table, (expand scope.module.name decl table).1.isSome

theorem Means.left {expand : Expand} {uses uses' : List AliasDecl} (h : Means scope expand (uses ++ uses')) :
    Means scope expand uses :=
  fun decl hdecl => h decl (List.mem_append_left _ hdecl)

theorem Means.right {expand : Expand} {uses uses' : List AliasDecl} (h : Means scope expand (uses ++ uses')) :
    Means scope expand uses' :=
  fun decl hdecl => h decl (List.mem_append_right _ hdecl)

theorem quiet_pure (a : α) : Quiet (pure a) :=
  fun _ h => h

/-- What comes second has to be quiet for the results of what comes first. -/
theorem Quiet.bind_yield {x : StateM Conversion α} {f : α → StateM Conversion β} (hx : Quiet x)
    (hf : ∀ c, Quiet (f (x c).1)) : Quiet (x >>= f) :=
  fun c h => hf c _ (hx c h)

theorem Quiet.bind {x : StateM Conversion α} {f : α → StateM Conversion β} (hx : Quiet x) (hf : ∀ a, Quiet (f a)) :
    Quiet (x >>= f) :=
  hx.bind_yield fun _ => hf _

theorem quiet_report (pos : Nat) {kind : ProblemKind} (h : kind.isInfiniteRecursion = false) :
    Quiet (report pos kind) := by
  intro c hnot hcyclic
  have hmore : (c.problems ++ [Problem.mk pos kind]).any (fun p => p.kind.isInfiniteRecursion) = true := hcyclic
  rw [List.any_append, List.any_cons, List.any_nil, h, Bool.or_false, Bool.or_false] at hmore
  exact hnot hmore

theorem quiet_typeVar (name : Name) : Quiet (Conversion.typeVar rigid name) := by
  intro c h
  unfold Conversion.typeVar
  split
  · exact h
  · exact h

theorem quiet_base (name : Option Name) : Quiet (base rigid name) := by
  cases name with
  | none => exact quiet_pure _
  | some name => exact (quiet_typeVar name).bind fun _ => quiet_pure _

theorem quiet_saturated (pos : Nat) (m n : Name) (args : List Ty) (arity : Nat) :
    Quiet (saturated pos m n args arity) := by
  unfold saturated
  split
  · exact quiet_pure _
  · exact (quiet_report pos rfl).bind fun _ => quiet_pure _

theorem quiet_expanded {expand : Expand} (pos : Nat) (m : Name) (decl : AliasDecl) (args : List Ty)
    (h : args.length = decl.params.length → ∀ table, (expand m decl table).1.isSome) :
    Quiet (expanded expand pos m decl args) := by
  unfold expanded
  by_cases hcount : args.length = decl.params.length
  · rw [if_neg (not_not.mpr hcount)]
    refine Quiet.bind_yield (fun c hnot => hnot) fun c => ?_
    obtain ⟨declared, hdeclared⟩ := Option.isSome_iff_exists.mp (h hcount c.table)
    split
    · exact fun c hnot => hnot
    · next hnone => cases hdeclared.symm.trans hnone
  · rw [if_pos hcount]
    exact (quiet_report pos rfl).bind fun _ => quiet_pure _

theorem quiet_reference {expand : Expand} (pos : Nat) (name : Ref) (args : List Ty)
    (h : Means scope expand (applied scope name args.length)) : Quiet (reference scope expand pos name args) := by
  unfold reference
  rcases hfound : scope.findType? name with _ | ⟨m, decl⟩ | ⟨m, decl⟩ | ⟨m, n, arity⟩
  · exact quiet_pure _
  · exact quiet_saturated _ _ _ _ _
  · obtain ⟨rfl, hdecl⟩ := ModuleScope.mem_of_findType? hfound
    refine quiet_expanded pos _ decl args fun hcount => h decl ?_ hdecl
    simp [applied, hfound, hcount]
  · exact quiet_saturated _ _ _ _ _

mutual

theorem quiet_convertWith {expand : Expand} (t : TypeExpr) (h : Means scope expand (aliases scope t)) :
    Quiet (convertWith scope expand rigid t) := by
  match t with
  | .mk _ (.var name) =>
    rw [convertWith]
    exact quiet_typeVar name
  | .mk _ .unit =>
    rw [convertWith]
    exact quiet_pure _
  | .mk _ (.tuple items) =>
    rw [convertWith]
    exact (quiet_convertList items h).bind fun _ => quiet_pure _
  | .mk _ (.record baseName fields) =>
    rw [convertWith]
    exact (quiet_base baseName).bind fun _ => (quiet_convertFields fields h).bind fun _ => quiet_pure _
  | .mk _ (.function segments) =>
    rw [convertWith]
    exact (quiet_convertList segments h).bind fun _ => quiet_pure _
  | .mk pos (.ref name args) =>
    rw [aliases] at h
    rw [convertWith]
    refine (quiet_convertList args h.left).bind_yield fun c => quiet_reference pos name _ ?_
    rw [length_convertList]
    exact h.right

theorem quiet_convertList {expand : Expand} (ts : List TypeExpr) (h : Means scope expand (aliasesList scope ts)) :
    Quiet (convertList scope expand rigid ts) := by
  match ts with
  | [] =>
    rw [convertList]
    exact quiet_pure _
  | t :: ts =>
    rw [aliasesList] at h
    rw [convertList]
    exact (quiet_convertWith t h.left).bind fun _ => (quiet_convertList ts h.right).bind fun _ => quiet_pure _

theorem quiet_convertFields {expand : Expand} (fields : List (FieldDecl TypeExpr))
    (h : Means scope expand (aliasesFields scope fields)) : Quiet (convertFields scope expand rigid fields) := by
  match fields with
  | [] =>
    rw [convertFields]
    exact quiet_pure _
  | ⟨_, _, t⟩ :: rest =>
    rw [aliasesFields] at h
    rw [convertFields]
    exact (quiet_convertWith t h.left).bind fun _ => (quiet_convertFields rest h.right).bind fun _ => quiet_pure _

end

theorem Alike.eq {R : TypeTable → TypeTable → Prop} {c c' : Conversion} (h : Alike R c c')
    (hR : ∀ table table', R table table' → table = table') : c = c' := by
  obtain ⟨table, store, vars, problems⟩ := c
  obtain ⟨table', _, _, _⟩ := c'
  obtain ⟨rfl, rfl, rfl, htable⟩ := h
  cases hR _ _ htable
  rfl

theorem problems_paramScope (table : TypeTable) (params : List Name) : (paramScope table params).2.problems = [] := by
  unfold paramScope
  induction params using List.reverseRecOn with
  | nil => rfl
  | append_singleton params name ih => rw [List.foldl_append]; exact ih

theorem mem_applied {name : Ref} {count : Nat} {decl : AliasDecl} (h : decl ∈ applied scope name count) :
    .typeAlias decl ∈ scope.module.declarations := by
  unfold applied at h
  split at h
  · next hfound =>
    split at h
    · exact List.mem_singleton.mp h ▸ (ModuleScope.mem_of_findType? hfound).2
    · cases h
  · cases h

mutual

theorem declared_of_mem_aliases {decl : AliasDecl} (t : TypeExpr) (h : decl ∈ aliases scope t) :
    .typeAlias decl ∈ scope.module.declarations := by
  match t with
  | .mk _ (.var _) => cases h
  | .mk _ .unit => cases h
  | .mk _ (.tuple items) => exact declared_of_mem_aliasesList items h
  | .mk _ (.record _ fields) => exact declared_of_mem_aliasesFields fields h
  | .mk _ (.function segments) => exact declared_of_mem_aliasesList segments h
  | .mk _ (.ref name args) =>
    rcases List.mem_append.mp h with h | h
    · exact declared_of_mem_aliasesList args h
    · exact mem_applied h

theorem declared_of_mem_aliasesList {decl : AliasDecl} (ts : List TypeExpr) (h : decl ∈ aliasesList scope ts) :
    .typeAlias decl ∈ scope.module.declarations := by
  match ts with
  | [] => cases h
  | t :: ts =>
    rcases List.mem_append.mp h with h | h
    · exact declared_of_mem_aliases t h
    · exact declared_of_mem_aliasesList ts h

theorem declared_of_mem_aliasesFields {decl : AliasDecl} (fields : List (FieldDecl TypeExpr))
    (h : decl ∈ aliasesFields scope fields) : .typeAlias decl ∈ scope.module.declarations := by
  match fields with
  | [] => cases h
  | ⟨_, _, t⟩ :: rest =>
    rcases List.mem_append.mp h with h | h
    · exact declared_of_mem_aliases t h
    · exact declared_of_mem_aliasesFields rest h

end

/-- A module has finitely many aliases, so an alias is well-founded unless the references lead from it into a cycle. -/
theorem acc_unfolds_iff {decl : AliasDecl} : Acc (Unfolds scope) decl ↔
    ∀ inner, Relation.ReflTransGen (Unfolds scope) inner decl → ¬ Relation.TransGen (Unfolds scope) inner inner := by
  constructor
  · intro h inner hleads hcycle
    rcases Relation.reflTransGen_iff_eq_or_transGen.mp hleads with rfl | hleads
    · exact not_transGen_self h hcycle
    · exact not_transGen_self (h.inv_of_transGen hleads) hcycle
  · refine acc_of_cycleFree (((scope.module.declarations.filterMap Declaration.typeAlias?).finite_toSet.insert decl).subset
      fun inner hleads => ?_)
    rcases Relation.ReflTransGen.cases_head hleads with rfl | ⟨outer, hunfolds, -⟩
    · exact Set.mem_insert _ _
    · exact Set.mem_insert_of_mem _ (List.mem_filterMap.mpr ⟨_, declared_of_mem_aliases outer.body hunfolds, rfl⟩)

end Conversion

namespace TypeTable

open Conversion

variable {scope : ModuleScope}

/-! ### The meaning of an alias -/

def known (scope : ModuleScope) : Expand :=
  fun m decl table => ((expand scope m decl {}).1, table)

/-- What the body of an alias stands for when the meanings of the other aliases are at hand. -/
def bodyType (scope : ModuleScope) (decl : AliasDecl) : Ty :=
  (convertWith scope (known scope) false decl.body (paramScope {} decl.params).2).1

theorem fst_expand_of_not_acc (hdistinct : scope.module.DistinctTypes) {decl : AliasDecl}
    (hdecl : .typeAlias decl ∈ scope.module.declarations) {table : TypeTable} (htable : Founded scope table)
    (hnot : ¬ Acc (Unfolds scope) decl) : (expand scope scope.module.name decl table).1 = none := by
  by_contra hsome
  exact hnot ((grounds_expandAt hdistinct _ decl table hdecl htable).2 (Option.isSome_iff_ne_none.mpr hsome))

-- The body is converted side by side with the aliases in it converted on the way and with their meanings at hand.
theorem fst_expand_of_acc (hdistinct : scope.module.DistinctTypes) {decl : AliasDecl} (hacc : Acc (Unfolds scope) decl)
    (hdecl : .typeAlias decl ∈ scope.module.declarations) :
    (expand scope scope.module.name decl {}).1 =
      some (aliasOf scope.module.name decl (paramScope {} decl.params).1 (bodyType scope decl)) := by
  induction hacc with
  | intro decl hbelow ih =>
    let key : TypeKey := (scope.module.name, decl.name)
    let R (t _ : TypeTable) : Prop := Regular scope t ∧ t.converting = [key]
    have hbody : Together R (convertWith scope (expandAt scope scope.module.aliasCount) false decl.body)
        (convertWith scope (known scope) false decl.body) := by
      refine together_convertWith decl.body fun inner hinner hmem t t' => ?_
      rintro ⟨hregular, hconverting⟩
      obtain ⟨hsame, hafter, hend⟩ := gives_of_acc hdistinct (hbelow inner hinner) hmem hregular
        ((awaits_empty decl).inner hdecl List.not_mem_nil hconverting hinner)
      exact ⟨hsame, hafter, hend.trans hconverting⟩
    have hquiet : Quiet (convertWith scope (known scope) false decl.body) :=
      quiet_convertWith decl.body fun inner hinner hmem _ => Option.isSome_iff_exists.mpr ⟨_, ih inner hinner hmem⟩
    have hbegun : R { converting := [key] } {} := ⟨regular_empty _, rfl⟩
    obtain ⟨hparams, hscope⟩ := alike_paramScope hbegun decl.params
    obtain ⟨hvalue, halike⟩ := hbody _ _ hscope
    have hstart : ¬ (paramScope {} decl.params).2.IsCyclic := by
      rw [Conversion.IsCyclic, problems_paramScope]
      exact Bool.false_ne_true
    have hcyclic := hquiet _ hstart
    rw [Conversion.IsCyclic, ← halike.problems] at hcyclic
    have hempty : expandAt scope (scope.module.aliasCount + 1) scope.module.name decl {} = _ :=
      expandAt_of_new rfl List.not_mem_nil
    rw [expand, hempty]
    refine (congrArg Prod.fst (meaning_of_not_isCyclic hcyclic)).trans ?_
    rw [bodyType, ← hvalue]
    exact congrArg (fun params => some (aliasOf _ decl params _)) hparams

/-! ### Conversions end -/

/-- More room for nested conversions than there are aliases changes nothing. -/
theorem expandAt_eq_of_awaits (hdistinct : scope.module.DistinctTypes) {n n' : Nat} {decl : AliasDecl}
    {table : TypeTable} (hdecl : .typeAlias decl ∈ scope.module.declarations) (htable : Regular scope table)
    (hawaits : Awaits scope n table decl) (hawaits' : Awaits scope n' table decl) :
    expandAt scope n scope.module.name decl table = expandAt scope n' scope.module.name decl table := by
  induction n generalizing n' decl table with
  | zero => exact absurd hawaits.pos (Nat.lt_irrefl 0)
  | succ n ih =>
    obtain ⟨n', rfl⟩ := Nat.exists_eq_succ_of_ne_zero (Nat.pos_iff_ne_zero.mp hawaits'.pos)
    rcases hget : Assoc.get? table.declared (scope.module.name, decl.name) with _ | d
    · by_cases hconverting : (scope.module.name, decl.name) ∈ table.converting
      · rw [expandAt_of_converting hget hconverting, expandAt_of_converting hget hconverting]
      · let R (t t' : TypeTable) : Prop :=
          t = t' ∧ Regular scope t ∧ t.converting = (scope.module.name, decl.name) :: table.converting
        have hbody : Together R (convertWith scope (expandAt scope n) false decl.body)
            (convertWith scope (expandAt scope n') false decl.body) := by
          refine together_convertWith decl.body fun inner hinner hmem t t' => ?_
          rintro ⟨rfl, hregular, hbefore⟩
          have hinside := hawaits.inner hdecl hconverting hbefore hinner
          have hsame := ih hmem hregular hinside (hawaits'.inner hdecl hconverting hbefore hinner)
          obtain ⟨-, hafter, hend⟩ := gives hdistinct hmem hregular hinside
          exact ⟨congrArg Prod.fst hsame, congrArg Prod.snd hsame, hafter, hend.trans hbefore⟩
        have hstart : R { table with converting := (scope.module.name, decl.name) :: table.converting } _ :=
          ⟨rfl, htable.converting _, rfl⟩
        obtain ⟨hvalue, halike⟩ := hbody _ _ (alike_paramScope hstart decl.params).2
        rw [expandAt_of_new hget hconverting, expandAt_of_new hget hconverting]
        exact congrArg _ (Prod.ext hvalue (halike.eq fun _ _ h => h.1))
    · rw [expandAt_of_declared hget, expandAt_of_declared hget]

/-- The tables that conversions for a module leave behind, one after the other. -/
inductive Reached (scope : ModuleScope) : TypeTable → Prop
  | empty : Reached scope {}
  | expand {table : TypeTable} {decl : AliasDecl} (hbefore : Reached scope table)
      (hdecl : .typeAlias decl ∈ scope.module.declarations) :
      Reached scope (expand scope scope.module.name decl table).2
  | unionType {table : TypeTable} {decl : UnionDecl} (hbefore : Reached scope table)
      (hdecl : .unionType decl ∈ scope.module.declarations) :
      Reached scope (unionType scope scope.module.name decl table).2
  | convert {c : Conversion} (rigid : Bool) (t : TypeExpr) (hbefore : Reached scope c.table) :
      Reached scope (Conversion.convert scope rigid t c).2.table

theorem idle_convert (hdistinct : scope.module.DistinctTypes) {c : Conversion} (rigid : Bool) (t : TypeExpr)
    (h : Idle scope c.table) : Idle scope (Conversion.convert scope rigid t c).2.table :=
  (together_convert hdistinct lawful_idle rigid t c c ⟨rfl, rfl, rfl, h, h⟩).2.table.1

theorem Reached.idle (hdistinct : scope.module.DistinctTypes) {table : TypeTable} (h : Reached scope table) :
    Idle scope table := by
  induction h with
  | empty => exact idle_empty
  | expand _ hdecl ih => exact (steadfast_expand hdistinct hdecl _ ih).2
  | unionType _ hdecl ih => exact (steadfast_unionType hdistinct hdecl _ ih).2
  | convert rigid t _ ih => exact idle_convert hdistinct rigid t ih

theorem Idle.awaits {table : TypeTable} (h : Idle scope table) {n : Nat} (hroom : scope.module.aliasCount < n)
    (decl : AliasDecl) : Awaits scope n table decl :=
  ⟨h.converting ▸ List.nodup_nil, h.converting ▸ nofun, Nat.le_add_right_of_le hroom⟩

/-- An alias has a meaning unless the references between aliases lead from it into a cycle. Its conversion ends by
itself, leaves nothing unfinished, and gives what it gives for a table without entries. -/
theorem aliases_mean_nothing_iff_cyclic (hdistinct : scope.module.DistinctTypes) {table : TypeTable}
    (hreached : Reached scope table) {decl : AliasDecl} (hdecl : .typeAlias decl ∈ scope.module.declarations) :
    (∀ n, scope.module.aliasCount < n →
        expandAt scope n scope.module.name decl table = expand scope scope.module.name decl table) ∧
      ((expand scope scope.module.name decl table).1 = none ↔
        ∃ inner, Relation.ReflTransGen (Unfolds scope) inner decl ∧ Relation.TransGen (Unfolds scope) inner inner) ∧
      (expand scope scope.module.name decl table).2.converting = [] ∧
      (expand scope scope.module.name decl table).1 = (expand scope scope.module.name decl {}).1 := by
  have hidle := hreached.idle hdistinct
  obtain ⟨hsame, hafter⟩ := steadfast_expand hdistinct hdecl table hidle
  refine ⟨fun n hroom => ?_, ?_, hafter.converting, hsame⟩
  · exact expandAt_eq_of_awaits hdistinct hdecl hidle.regular (hidle.awaits hroom decl)
      (hidle.awaits (Nat.lt_succ_self _) decl)
  · have hcyclic : (∃ inner, Relation.ReflTransGen (Unfolds scope) inner decl ∧
        Relation.TransGen (Unfolds scope) inner inner) ↔ ¬ Acc (Unfolds scope) decl := by
      rw [acc_unfolds_iff]
      push Not
      rfl
    rw [hcyclic]
    constructor
    · intro hnone hacc
      rw [hsame, fst_expand_of_acc hdistinct hacc hdecl] at hnone
      cases hnone
    · exact fst_expand_of_not_acc hdistinct hdecl hidle.regular.founded

/-- In `type alias Tree = { below : Forest }`, `type Forest = Forest Tree`, `type alias Loop = ( Loop, () )` and
`type alias Wood = ( Tree, Loop )`, the cycle through the union is accepted, and `Wood` leads into the other one. -/
theorem aliases_mean_nothing_iff_cyclic_of_forest :
    let tree : AliasDecl :=
      ⟨0, "Tree", [], .mk 1 (.record none [⟨2, "below", .mk 3 (.ref (.plain "Forest") [])⟩])⟩
    let forest : UnionDecl := ⟨4, "Forest", [], [⟨5, "Forest", [.mk 6 (.ref (.plain "Tree") [])]⟩]⟩
    let loop : AliasDecl := ⟨7, "Loop", [], .mk 8 (.tuple [.mk 9 (.ref (.plain "Loop") []), .mk 10 .unit])⟩
    let wood : AliasDecl :=
      ⟨11, "Wood", [], .mk 12 (.tuple [.mk 13 (.ref (.plain "Tree") []), .mk 14 (.ref (.plain "Loop") [])])⟩
    let scope : ModuleScope :=
      { module := ⟨"Main", [.typeAlias tree, .unionType forest, .typeAlias loop, .typeAlias wood]⟩ }
    let table := (unionType scope "Main" forest {}).2
    scope.module.DistinctTypes ∧ Reached scope table ∧ (expand scope "Main" tree table).1 ≠ none ∧
      (expand scope "Main" wood table).1 = none := by
  intro tree forest loop wood scope table
  have hdistinct : scope.module.DistinctTypes := by
    rw [Module.DistinctTypes]
    decide
  have hdeclared : ∀ declaration, declaration ∈ [.typeAlias tree, .unionType forest, .typeAlias loop, .typeAlias wood] →
      declaration ∈ scope.module.declarations := fun _ h => h
  have hreached : Reached scope table := .unionType .empty (hdeclared _ (by simp))
  have hleaf : Acc (Unfolds scope) tree := ⟨_, fun inner hinner => nomatch hinner⟩
  have hself : Unfolds scope loop loop := List.mem_singleton_self _
  have hinside : Unfolds scope loop wood := List.mem_cons_of_mem _ (List.mem_singleton_self _)
  refine ⟨hdistinct, hreached, fun hnone => ?_, ?_⟩
  · obtain ⟨inner, hleads, hcycle⟩ :=
      (aliases_mean_nothing_iff_cyclic hdistinct hreached (hdeclared (.typeAlias tree) (by simp))).2.1.mp hnone
    exact acc_unfolds_iff.mp hleaf inner hleads hcycle
  · exact (aliases_mean_nothing_iff_cyclic hdistinct hreached (hdeclared (.typeAlias wood) (by simp))).2.1.mpr
      ⟨loop, .single hinside, .single hself⟩

end TypeTable

end ElmInference
