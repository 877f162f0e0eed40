import ElmInference.Declared.Convert
import ElmInference.Proofs.Assoc
import Mathlib.Data.List.Induction
import Mathlib.Data.List.Nodup
import Mathlib.Data.List.Perm.Subperm
import Mathlib.Data.Set.Finite.List
import Mathlib.Logic.Relation

/-!
# What aliases and unions mean

Aliases are converted on first use and kept, so a conversion finds more or less of its work done. That makes no
difference: an alias that leads back to itself never gets a meaning, whoever asks and whatever is being converted at
the time, and every other alias gets the meaning that it has for a table without entries. The argument goes along the
references between aliases. They are well-founded below an alias that has a meaning, and what is being converted leads
to the alias in hand, so the conversion of such an alias never comes by itself.
-/

namespace ElmInference

def Declaration.typeName? : Declaration → Option Name
  | .unionType decl => some decl.name
  | .typeAlias decl => some decl.name
  | _ => none

def Module.DistinctTypes (m : Module) : Prop :=
  (m.declarations.filterMap Declaration.typeName?).Nodup

theorem eq_of_nodup_filterMap {α β : Type} {f : α → Option β} {xs : List α} (h : (xs.filterMap f).Nodup) {x y : α}
    {b : β} (hx : x ∈ xs) (hy : y ∈ xs) (hfx : f x = some b) (hfy : f y = some b) : x = y := by
  induction xs with
  | nil => cases hx
  | cons z xs ih =>
    have hnew : ∀ u ∈ xs, f z = some b → f u ≠ some b := by
      intro u hu hz hfu
      rw [List.filterMap_cons_some hz] at h
      exact (List.nodup_cons.mp h).1 (List.mem_filterMap.mpr ⟨u, hu, hfu⟩)
    have hrest : (xs.filterMap f).Nodup := by
      rcases hz : f z with _ | c
      · rwa [List.filterMap_cons_none hz] at h
      · rw [List.filterMap_cons_some hz] at h
        exact (List.nodup_cons.mp h).2
    rcases List.mem_cons.mp hx with rfl | hmem
    · rcases List.mem_cons.mp hy with rfl | hmem'
      · rfl
      · exact absurd hfy (hnew y hmem' hfx)
    · rcases List.mem_cons.mp hy with rfl | hmem'
      · exact absurd hfx (hnew x hmem hfy)
      · exact ih hrest hmem hmem'

theorem not_transGen_self {α : Type} {r : α → α → Prop} {a : α} (h : Acc r a) : ¬ Relation.TransGen r a a := by
  have hacc := h.transGen
  induction hacc with
  | intro a _ ih => exact fun hself => ih a hself (h.inv_of_transGen hself) hself

/-- Where finitely many elements lead to one, there is a cycle among them unless this comes to an end. -/
theorem acc_of_cycleFree {α : Type} {r : α → α → Prop} {a : α} (hfinite : {b | Relation.ReflTransGen r b a}.Finite)
    (h : ∀ b, Relation.ReflTransGen r b a → ¬ Relation.TransGen r b b) : Acc r a := by
  have hsubtype : Finite {b // Relation.ReflTransGen r b a} := hfinite
  have htrans : IsTrans {b // Relation.ReflTransGen r b a} (fun b c => Relation.TransGen r b.1 c.1) :=
    ⟨fun _ _ _ hbc hcd => hbc.trans hcd⟩
  have hirrefl : Std.Irrefl (fun b c : {b // Relation.ReflTransGen r b a} => Relation.TransGen r b.1 c.1) :=
    ⟨fun b => h b.1 b.2⟩
  have hwf := Finite.wellFounded_of_trans_of_irrefl
    (fun b c : {b // Relation.ReflTransGen r b a} => Relation.TransGen r b.1 c.1)
  have hacc : ∀ b : {b // Relation.ReflTransGen r b a}, Acc r b.1 := by
    intro b
    induction b using hwf.induction with
    | _ b ih => exact ⟨_, fun c hc => ih ⟨c, b.2.head hc⟩ (.single hc)⟩
  exact hacc ⟨a, .refl⟩

namespace ModuleScope

variable {scope : ModuleScope} {decl : AliasDecl} {m : Name}

theorem mem_of_findType? {name : Ref} (h : scope.findType? name = some (.typeAlias m decl)) :
    m = scope.module.name ∧ .typeAlias decl ∈ scope.module.declarations := by
  have hfound : TypeTarget.typeAlias m decl ∈ scope.findTypes name := by
    unfold findType? at h
    split at h
    · next target htarget =>
      cases h
      unfold unique? at htarget
      split at htarget
      · next heq =>
        cases htarget
        exact heq ▸ List.mem_singleton_self _
      · cases htarget
    · split at h <;> cases h
  have hlocal : TypeTarget.typeAlias m decl ∈ scope.localTypes name.name := by
    have hexternal : TypeTarget.typeAlias m decl ∉ (scope.types.filter (fun t => name.denotes t.moduleName t.name)).map
        (fun t => .external t.moduleName t.name t.arity) := by
      intro hmem
      obtain ⟨_, _, heq⟩ := List.mem_map.mp hmem
      cases heq
    rw [findTypes, preferLocal] at hfound
    by_cases hempty : (if scope.isLocal name then scope.localTypes name.name else []).isEmpty
    · rw [if_pos hempty] at hfound
      exact absurd hfound hexternal
    · rw [if_neg hempty] at hfound
      split at hfound
      · exact hfound
      · cases hfound
  obtain ⟨declaration, hmem, hoffered⟩ := List.mem_filterMap.mp hlocal
  cases declaration with
  | typeAlias other =>
    rw [offeredType] at hoffered
    split at hoffered <;> cases hoffered
    exact ⟨rfl, hmem⟩
  | unionType other =>
    rw [offeredType] at hoffered
    split at hoffered <;> cases hoffered
  | _ => cases hoffered

end ModuleScope

namespace Conversion

/-- The alias that a reference with so many arguments stands for. -/
def applied (scope : ModuleScope) (name : Ref) (count : Nat) : List AliasDecl :=
  match scope.findType? name with
  | some (.typeAlias _ decl) => if count = decl.params.length then [decl] else []
  | _ => []

mutual

/-- The aliases that a type expression stands for in part. -/
def aliases (scope : ModuleScope) : TypeExpr → List AliasDecl
  | .mk _ (.var _) => []
  | .mk _ .unit => []
  | .mk _ (.tuple items) => aliasesList scope items
  | .mk _ (.record _ fields) => aliasesFields scope fields
  | .mk _ (.function segments) => aliasesList scope segments
  | .mk _ (.ref name args) => aliasesList scope args ++ applied scope name args.length

def aliasesList (scope : ModuleScope) : List TypeExpr → List AliasDecl
  | [] => []
  | t :: ts => aliases scope t ++ aliasesList scope ts

def aliasesFields (scope : ModuleScope) : List (FieldDecl TypeExpr) → List AliasDecl
  | [] => []
  | ⟨_, _, t⟩ :: rest => aliases scope t ++ aliasesFields scope rest

end

/-- Whether an alias is used in the body of another one. -/
def Unfolds (scope : ModuleScope) (inner outer : AliasDecl) : Prop :=
  inner ∈ aliases scope outer.body

variable {α β : Type} {scope : ModuleScope} {rigid : Bool}

/-! ### Two conversions of one type expression -/

/-- Whether two conversions differ in their tables only. -/
structure Alike (R : TypeTable → TypeTable → Prop) (c c' : Conversion) : Prop where
  store : c.store = c'.store
  vars : c.vars = c'.vars
  problems : c.problems = c'.problems
  table : R c.table c'.table

def Together (R : TypeTable → TypeTable → Prop) (x x' : StateM Conversion α) : Prop :=
  ∀ c c', Alike R c c' → (x c).1 = (x' c').1 ∧ Alike R (x c).2 (x' c').2

/-- Whether two ways to convert an alias give the same. -/
def Match (R : TypeTable → TypeTable → Prop) (x x' : StateM TypeTable α) : Prop :=
  ∀ table table', R table table' → (x table).1 = (x' table').1 ∧ R (x table).2 (x' table').2

def MatchAll (scope : ModuleScope) (R : TypeTable → TypeTable → Prop) (expand expand' : Expand)
    (uses : List AliasDecl) : Prop :=
  ∀ decl ∈ uses, .typeAlias decl ∈ scope.module.declarations →
    Match R (expand scope.module.name decl) (expand' scope.module.name decl)

variable {R : TypeTable → TypeTable → Prop}

theorem MatchAll.left {expand expand' : Expand} {uses uses' : List AliasDecl}
    (h : MatchAll scope R expand expand' (uses ++ uses')) : MatchAll scope R expand expand' uses :=
  fun decl hdecl => h decl (List.mem_append_left _ hdecl)

theorem MatchAll.right {expand expand' : Expand} {uses uses' : List AliasDecl}
    (h : MatchAll scope R expand expand' (uses ++ uses')) : MatchAll scope R expand expand' uses' :=
  fun decl hdecl => h decl (List.mem_append_right _ hdecl)

theorem together_pure (a : α) : Together R (pure a) (pure a) :=
  fun _ _ h => ⟨rfl, h⟩

/-- What comes second has to do for the results of what comes first. -/
theorem Together.bind_yield {x x' : StateM Conversion α} {f f' : α → StateM Conversion β} (hx : Together R x x')
    (hf : ∀ c, Together R (f (x c).1) (f' (x c).1)) : Together R (x >>= f) (x' >>= f') := by
  intro c c' h
  obtain ⟨hvalue, hafter⟩ := hx c c' h
  change (f (x c).1 (x c).2).1 = (f' (x' c').1 (x' c').2).1 ∧ Alike R (f (x c).1 (x c).2).2 (f' (x' c').1 (x' c').2).2
  rw [← hvalue]
  exact hf c _ _ hafter

theorem Together.bind {x x' : StateM Conversion α} {f f' : α → StateM Conversion β} (hx : Together R x x')
    (hf : ∀ a, Together R (f a) (f' a)) : Together R (x >>= f) (x' >>= f') :=
  hx.bind_yield fun _ => hf _

theorem together_report (pos : Nat) (kind : ProblemKind) : Together R (report pos kind) (report pos kind) := by
  rintro ⟨table, store, vars, problems⟩ ⟨table', _, _, _⟩ ⟨rfl, rfl, rfl, htable⟩
  exact ⟨rfl, rfl, rfl, rfl, htable⟩

theorem together_typeVar (name : Name) :
    Together R (Conversion.typeVar rigid name) (Conversion.typeVar rigid name) := by
  rintro ⟨table, store, vars, problems⟩ ⟨table', _, _, _⟩ ⟨rfl, rfl, rfl, htable⟩
  unfold Conversion.typeVar
  dsimp only
  split
  · exact ⟨rfl, rfl, rfl, rfl, htable⟩
  · exact ⟨rfl, rfl, rfl, rfl, htable⟩

theorem together_base (name : Option Name) : Together R (base rigid name) (base rigid name) := by
  cases name with
  | none => exact together_pure _
  | some name => exact (together_typeVar name).bind fun t => together_pure _

theorem together_saturated (pos : Nat) (m n : Name) (args : List Ty) (arity : Nat) :
    Together R (saturated pos m n args arity) (saturated pos m n args arity) := by
  unfold saturated
  split
  · exact together_pure _
  · exact (together_report _ _).bind fun _ => together_pure _

theorem together_expanded {expand expand' : Expand} (pos : Nat) (m : Name) (decl : AliasDecl) (args : List Ty)
    (h : args.length = decl.params.length → Match R (expand m decl) (expand' m decl)) :
    Together R (expanded expand pos m decl args) (expanded expand' pos m decl args) := by
  unfold expanded
  by_cases hcount : args.length = decl.params.length
  · rw [if_neg (not_not.mpr hcount), if_neg (not_not.mpr hcount)]
    refine Together.bind (fun c c' halike => ?_) fun found => ?_
    · obtain ⟨hfound, htable⟩ := h hcount _ _ halike.table
      exact ⟨hfound, halike.store, halike.vars, halike.problems, htable⟩
    · cases found with
      | none => exact (together_report _ _).bind fun _ => together_pure _
      | some declared =>
        rintro ⟨table, store, vars, problems⟩ ⟨table', _, _, _⟩ ⟨rfl, rfl, rfl, htable⟩
        exact ⟨rfl, rfl, rfl, rfl, htable⟩
  · rw [if_pos hcount, if_pos hcount]
    exact (together_report _ _).bind fun _ => together_pure _

theorem together_reference {expand expand' : Expand} (pos : Nat) (name : Ref) (args : List Ty)
    (h : MatchAll scope R expand expand' (applied scope name args.length)) :
    Together R (reference scope expand pos name args) (reference scope expand' pos name args) := by
  unfold reference
  rcases hfound : scope.findType? name with _ | ⟨m, decl⟩ | ⟨m, decl⟩ | ⟨m, n, arity⟩
  · exact together_pure _
  · exact together_saturated _ _ _ _ _
  · obtain ⟨rfl, hdecl⟩ := ModuleScope.mem_of_findType? hfound
    refine together_expanded _ _ _ _ fun hcount => h decl ?_ hdecl
    simp [applied, hfound, hcount]
  · exact together_saturated _ _ _ _ _

theorem length_convertList (expand : Expand) (ts : List TypeExpr) (c : Conversion) :
    (convertList scope expand rigid ts c).1.length = ts.length := by
  induction ts generalizing c with
  | nil => rfl
  | cons t ts ih =>
    rw [convertList]
    exact congrArg (· + 1) (ih _)

mutual

theorem together_convertWith {expand expand' : Expand} (t : TypeExpr)
    (h : MatchAll scope R expand expand' (aliases scope t)) :
    Together R (convertWith scope expand rigid t) (convertWith scope expand' rigid t) := by
  match t with
  | .mk _ (.var name) =>
    rw [convertWith, convertWith]
    exact together_typeVar name
  | .mk _ .unit =>
    rw [convertWith, convertWith]
    exact together_pure _
  | .mk _ (.tuple items) =>
    rw [convertWith, convertWith]
    exact (together_convertList items h).bind fun _ => together_pure _
  | .mk _ (.record baseName fields) =>
    rw [convertWith, convertWith]
    exact (together_base baseName).bind fun _ => (together_convertFields fields h).bind fun _ => together_pure _
  | .mk _ (.function segments) =>
    rw [convertWith, convertWith]
    exact (together_convertList segments h).bind fun _ => together_pure _
  | .mk pos (.ref name args) =>
    rw [aliases] at h
    rw [convertWith, convertWith]
    refine (together_convertList args h.left).bind_yield fun c => together_reference pos name _ ?_
    rw [length_convertList]
    exact h.right

theorem together_convertList {expand expand' : Expand} (ts : List TypeExpr)
    (h : MatchAll scope R expand expand' (aliasesList scope ts)) :
    Together R (convertList scope expand rigid ts) (convertList scope expand' rigid ts) := by
  match ts with
  | [] =>
    rw [convertList, convertList]
    exact together_pure _
  | t :: ts =>
    rw [aliasesList] at h
    rw [convertList, convertList]
    exact (together_convertWith t h.left).bind fun _ => (together_convertList ts h.right).bind fun _ => together_pure _

theorem together_convertFields {expand expand' : Expand} (fields : List (FieldDecl TypeExpr))
    (h : MatchAll scope R expand expand' (aliasesFields scope fields)) :
    Together R (convertFields scope expand rigid fields) (convertFields scope expand' rigid fields) := by
  match fields with
  | [] =>
    rw [convertFields, convertFields]
    exact together_pure _
  | ⟨_, _, t⟩ :: rest =>
    rw [aliasesFields] at h
    rw [convertFields, convertFields]
    exact (together_convertWith t h.left).bind fun _ => (together_convertFields rest h.right).bind fun _ =>
      together_pure _

end

theorem together_mapM {γ : Type} {f f' : γ → StateM Conversion α} {xs : List γ}
    (h : ∀ x ∈ xs, Together R (f x) (f' x)) : Together R (xs.mapM f) (xs.mapM f') := by
  induction xs with
  | nil => exact together_pure _
  | cons x xs ih =>
    obtain ⟨hfirst, hrest⟩ := List.forall_mem_cons.mp h
    rw [List.mapM_cons, List.mapM_cons]
    exact hfirst.bind fun _ => (ih hrest).bind fun _ => together_pure _

theorem table_paramScope (table : TypeTable) (params : List Name) : (paramScope table params).2.table = table := by
  unfold paramScope
  induction params using List.reverseRecOn with
  | nil => rfl
  | append_singleton params name ih => rw [List.foldl_append]; exact ih

/-- The parameters of a declaration do not depend on what is known about other declarations. -/
theorem alike_paramScope {table table' : TypeTable} (h : R table table') (params : List Name) :
    (paramScope table params).1 = (paramScope table' params).1 ∧
      Alike R (paramScope table params).2 (paramScope table' params).2 := by
  unfold paramScope
  induction params using List.reverseRecOn with
  | nil => exact ⟨rfl, rfl, rfl, rfl, h⟩
  | append_singleton params name ih =>
    obtain ⟨hvars, halike⟩ := ih
    simp only [List.foldl_append, List.foldl_cons, List.foldl_nil]
    exact ⟨by rw [hvars, halike.store], by rw [halike.store], by rw [halike.store, halike.vars], halike.problems,
      halike.table⟩

/-! ### Aliases that lead back to themselves -/

/-- Whether a conversion has met an alias without a meaning. -/
def IsCyclic (c : Conversion) : Prop :=
  c.problems.any (fun p => p.kind.isInfiniteRecursion) = true

def Founded (scope : ModuleScope) (table : TypeTable) : Prop :=
  ∀ decl, .typeAlias decl ∈ scope.module.declarations →
    (Assoc.get? table.declared (scope.module.name, decl.name)).isSome → Acc (Unfolds scope) decl

/-- Whether a computation that meets no alias without a meaning tells that some aliases are well-founded. -/
def Founds (scope : ModuleScope) (uses : List AliasDecl) (x : StateM Conversion α) : Prop :=
  ∀ c, Founded scope c.table → Founded scope (x c).2.table ∧
    (¬ (x c).2.IsCyclic → ¬ c.IsCyclic ∧ ∀ decl ∈ uses, Acc (Unfolds scope) decl)

/-- Whether only well-founded aliases get a meaning. -/
def Grounds (scope : ModuleScope) (expand : Expand) : Prop :=
  ∀ decl table, .typeAlias decl ∈ scope.module.declarations → Founded scope table →
    Founded scope (expand scope.module.name decl table).2 ∧
      ((expand scope.module.name decl table).1.isSome → Acc (Unfolds scope) decl)

theorem founds_pure (a : α) : Founds scope [] (pure a) :=
  fun _ h => ⟨h, fun hnot => ⟨hnot, nofun⟩⟩

theorem Founds.bind {uses uses' : List AliasDecl} {x : StateM Conversion α} {f : α → StateM Conversion β}
    (hx : Founds scope uses x) (hf : ∀ c a, Founded scope c.table → (x c).1 = a → Founds scope uses' (f a)) :
    Founds scope (uses ++ uses') (x >>= f) := by
  intro c h
  obtain ⟨htable, hfirst⟩ := hx c h
  obtain ⟨htable', hsecond⟩ := hf c _ h rfl (x c).2 htable
  refine ⟨htable', fun hnot => ?_⟩
  obtain ⟨hbetween, huses'⟩ := hsecond hnot
  obtain ⟨hbefore, huses⟩ := hfirst hbetween
  exact ⟨hbefore, List.forall_mem_append.mpr ⟨huses, huses'⟩⟩

theorem Founds.bind_pure {uses : List AliasDecl} {x : StateM Conversion α} {f : α → β} (hx : Founds scope uses x) :
    Founds scope uses (x >>= fun a => pure (f a)) := by
  have h := hx.bind (f := fun a => pure (f a)) fun _ _ _ _ => founds_pure _
  rwa [List.append_nil] at h

theorem Founds.of_acc {uses : List AliasDecl} {x : StateM Conversion α} (hx : Founds scope [] x)
    (h : ∀ decl ∈ uses, Acc (Unfolds scope) decl) : Founds scope uses x :=
  fun c hfounded => ⟨(hx c hfounded).1, fun hnot => ⟨((hx c hfounded).2 hnot).1, h⟩⟩

theorem founds_report (pos : Nat) (kind : ProblemKind) :
    Founds scope [] (report pos kind) := by
  refine fun c hfounded => ⟨hfounded, fun hnot => ⟨fun hbefore => hnot ?_, nofun⟩⟩
  have hmore : (c.problems ++ [Problem.mk pos kind]).any (fun p => p.kind.isInfiniteRecursion) = true := by
    rw [List.any_append, hbefore, Bool.true_or]
  exact hmore

theorem founds_report_cyclic (uses : List AliasDecl) (pos : Nat) : Founds scope uses (report pos .infiniteRecursion) := by
  refine fun c hfounded => ⟨hfounded, fun hnot => absurd ?_ hnot⟩
  have hmore : (c.problems ++ [Problem.mk pos .infiniteRecursion]).any (fun p => p.kind.isInfiniteRecursion) = true := by
    rw [List.any_append]
    exact Bool.or_true _
  exact hmore

theorem founds_typeVar (name : Name) : Founds scope [] (Conversion.typeVar rigid name) := by
  intro c h
  unfold Conversion.typeVar
  split
  · exact ⟨h, fun hnot => ⟨hnot, nofun⟩⟩
  · exact ⟨h, fun hnot => ⟨hnot, nofun⟩⟩

theorem founds_base (name : Option Name) : Founds scope [] (base rigid name) := by
  cases name with
  | none => exact founds_pure _
  | some name => exact (founds_typeVar name).bind_pure

theorem founds_saturated (pos : Nat) (m n : Name) (args : List Ty) (arity : Nat) :
    Founds scope [] (saturated pos m n args arity) := by
  unfold saturated
  split
  · exact founds_pure _
  · exact (founds_report _ _).bind_pure

theorem founds_expanded {expand : Expand} (h : Grounds scope expand) (pos : Nat) {decl : AliasDecl}
    (hdecl : .typeAlias decl ∈ scope.module.declarations) (args : List Ty) :
    Founds scope (if args.length = decl.params.length then [decl] else [])
      (expanded expand pos scope.module.name decl args) := by
  unfold expanded
  by_cases hcount : args.length = decl.params.length
  · rw [if_neg (not_not.mpr hcount), if_pos hcount]
    have hlookup : Founds scope [] (modifyGet (fun c => ((expand scope.module.name decl c.table).1,
        { c with table := (expand scope.module.name decl c.table).2 })) : StateM Conversion _) :=
      fun c hfounded => ⟨(h decl c.table hdecl hfounded).1, fun hnot => ⟨hnot, nofun⟩⟩
    refine hlookup.bind fun c found hfounded hfound => ?_
    cases found with
    | none => exact (founds_report_cyclic _ pos).bind_pure
    | some declared =>
      have hinstantiate : Founds scope [] (modifyGet (fun c => ((declared.instantiate args c.store).1,
          { c with store := (declared.instantiate args c.store).2 })) : StateM Conversion _) :=
        fun c hfounded => ⟨hfounded, fun hnot => ⟨hnot, nofun⟩⟩
      have hacc : Acc (Unfolds scope) decl := (h decl c.table hdecl hfounded).2 (Option.isSome_iff_exists.mpr ⟨_, hfound⟩)
      exact hinstantiate.of_acc fun other hother => List.mem_singleton.mp hother ▸ hacc
  · rw [if_pos hcount, if_neg hcount]
    exact (founds_report _ _).bind_pure

theorem founds_reference {expand : Expand} (h : Grounds scope expand) (pos : Nat) (name : Ref) (args : List Ty) :
    Founds scope (applied scope name args.length) (reference scope expand pos name args) := by
  unfold reference applied
  rcases hfound : scope.findType? name with _ | ⟨m, decl⟩ | ⟨m, decl⟩ | ⟨m, n, arity⟩
  · exact founds_pure _
  · exact founds_saturated _ _ _ _ _
  · obtain ⟨rfl, hdecl⟩ := ModuleScope.mem_of_findType? hfound
    exact founds_expanded h pos hdecl args
  · exact founds_saturated _ _ _ _ _

mutual

theorem founds_convertWith {expand : Expand} (h : Grounds scope expand) (t : TypeExpr) :
    Founds scope (aliases scope t) (convertWith scope expand rigid t) := by
  match t with
  | .mk _ (.var name) =>
    rw [convertWith, aliases]
    exact founds_typeVar name
  | .mk _ .unit =>
    rw [convertWith, aliases]
    exact founds_pure _
  | .mk _ (.tuple items) =>
    rw [convertWith, aliases]
    exact (founds_convertList h items).bind_pure
  | .mk _ (.record baseName fields) =>
    rw [convertWith, aliases]
    exact (founds_base baseName).bind fun _ _ _ _ => (founds_convertFields h fields).bind_pure
  | .mk _ (.function segments) =>
    rw [convertWith, aliases]
    exact (founds_convertList h segments).bind_pure
  | .mk pos (.ref name args) =>
    rw [convertWith, aliases]
    refine (founds_convertList h args).bind fun c types _ htypes => ?_
    have hlength : types.length = args.length := htypes ▸ length_convertList expand args c
    rw [← hlength]
    exact founds_reference h pos name types

theorem founds_convertList {expand : Expand} (h : Grounds scope expand) (ts : List TypeExpr) :
    Founds scope (aliasesList scope ts) (convertList scope expand rigid ts) := by
  match ts with
  | [] =>
    rw [convertList, aliasesList]
    exact founds_pure _
  | t :: ts =>
    rw [convertList, aliasesList]
    exact (founds_convertWith h t).bind fun _ _ _ _ => (founds_convertList h ts).bind_pure

theorem founds_convertFields {expand : Expand} (h : Grounds scope expand) (fields : List (FieldDecl TypeExpr)) :
    Founds scope (aliasesFields scope fields) (convertFields scope expand rigid fields) := by
  match fields with
  | [] =>
    rw [convertFields, aliasesFields]
    exact founds_pure _
  | ⟨_, _, t⟩ :: rest =>
    rw [convertFields, aliasesFields]
    exact (founds_convertWith h t).bind fun _ _ _ _ => (founds_convertFields h rest).bind_pure

end

end Conversion

namespace TypeTable

open Conversion

variable {scope : ModuleScope}

def bodyScope (table : TypeTable) (m : Name) (decl : AliasDecl) : List TyVar × Conversion :=
  paramScope { table with converting := (m, decl.name) :: table.converting } decl.params

def ended (table : TypeTable) (key : TypeKey) : TypeTable :=
  { table with converting := table.converting.erase key }

def aliasOf (m : Name) (decl : AliasDecl) (params : List TyVar) (body : Ty) : DeclaredType :=
  .typeAlias params (body.writtenAs ⟨m, decl.name, params.map .var⟩)

def meaning (m : Name) (decl : AliasDecl) (params : List TyVar) (out : Ty × Conversion) :
    Option DeclaredType × TypeTable :=
  if out.2.problems.any (fun p => p.kind.isInfiniteRecursion) then (none, out.2.table.ended (m, decl.name))
  else (some (aliasOf m decl params out.1),
    (out.2.table.ended (m, decl.name)).remember (m, decl.name) (aliasOf m decl params out.1))

theorem meaning_of_isCyclic {m : Name} {decl : AliasDecl} {params : List TyVar} {out : Ty × Conversion}
    (h : out.2.IsCyclic) : meaning m decl params out = (none, out.2.table.ended (m, decl.name)) :=
  if_pos h

theorem meaning_of_not_isCyclic {m : Name} {decl : AliasDecl} {params : List TyVar} {out : Ty × Conversion}
    (h : ¬ out.2.IsCyclic) : meaning m decl params out = (some (aliasOf m decl params out.1),
      (out.2.table.ended (m, decl.name)).remember (m, decl.name) (aliasOf m decl params out.1)) :=
  if_neg h

theorem expandAt_of_declared {n : Nat} {m : Name} {decl : AliasDecl} {table : TypeTable} {d : DeclaredType}
    (h : Assoc.get? table.declared (m, decl.name) = some d) :
    expandAt scope (n + 1) m decl table = (some d, table) := by
  rw [expandAt]
  simp only [h]

theorem expandAt_of_converting {n : Nat} {m : Name} {decl : AliasDecl} {table : TypeTable}
    (h : Assoc.get? table.declared (m, decl.name) = none) (hconverting : (m, decl.name) ∈ table.converting) :
    expandAt scope (n + 1) m decl table = (none, table) := by
  rw [expandAt]
  simp only [h, hconverting, if_true]

theorem expandAt_of_new {n : Nat} {m : Name} {decl : AliasDecl} {table : TypeTable}
    (h : Assoc.get? table.declared (m, decl.name) = none) (hconverting : (m, decl.name) ∉ table.converting) :
    expandAt scope (n + 1) m decl table = meaning m decl (table.bodyScope m decl).1
      (convertWith scope (expandAt scope n) false decl.body (table.bodyScope m decl).2) := by
  rw [expandAt]
  simp only [h, hconverting, if_false]
  rfl

theorem get?_remember_of_ne {table : TypeTable} {m name other : Name} {d : DeclaredType} (h : name ≠ other) :
    Assoc.get? (table.remember (m, name) d).declared (m, other) = Assoc.get? table.declared (m, other) :=
  Assoc.get?_set_of_ne _ _ fun heq => h (congrArg Prod.snd heq)

theorem get?_remember_self (table : TypeTable) (key : TypeKey) (d : DeclaredType) :
    Assoc.get? (table.remember key d).declared key = some d :=
  Assoc.get?_set_self _ _ _

theorem forall_declared_remember {P : DeclaredType → Prop} {table : TypeTable} (h : ∀ entry ∈ table.declared, P entry.2)
    (key : TypeKey) {d : DeclaredType} (hd : P d) : ∀ entry ∈ (table.remember key d).declared, P entry.2 := by
  intro entry hentry
  rcases Assoc.mem_set hentry with hentry | rfl
  · exact h entry hentry
  · exact hd

/-- What holds of all declared types, also once the body of an alias has been converted, holds of the meaning. -/
theorem forall_declared_expandAt {P : DeclaredType → Prop} {n : Nat} {m : Name} {decl : AliasDecl} {table : TypeTable}
    (h : ∀ entry ∈ table.declared, P entry.2) {out : Ty × Conversion}
    (hout : convertWith scope (expandAt scope n) false decl.body (table.bodyScope m decl).2 = out)
    (hafter : ∀ entry ∈ out.2.table.declared, P entry.2) (hbody : P (aliasOf m decl (table.bodyScope m decl).1 out.1)) :
    (∀ entry ∈ (expandAt scope (n + 1) m decl table).2.declared, P entry.2) ∧
      ∀ d, (expandAt scope (n + 1) m decl table).1 = some d → P d := by
  rcases hget : Assoc.get? table.declared (m, decl.name) with _ | d
  · by_cases hconverting : (m, decl.name) ∈ table.converting
    · rw [expandAt_of_converting hget hconverting]
      exact ⟨h, nofun⟩
    · rw [expandAt_of_new hget hconverting, hout]
      by_cases hcyclic : out.2.IsCyclic
      · rw [meaning_of_isCyclic hcyclic]
        exact ⟨hafter, nofun⟩
      · rw [meaning_of_not_isCyclic hcyclic]
        exact ⟨forall_declared_remember hafter _ hbody, fun d heq => Option.some.inj heq ▸ hbody⟩
  · rw [expandAt_of_declared hget]
    exact ⟨h, fun d' heq => Option.some.inj heq ▸ h _ (Assoc.mem_of_get? hget)⟩

/-- Only well-founded aliases get a meaning. -/
theorem grounds_expandAt (hdistinct : scope.module.DistinctTypes) (n : Nat) : Grounds scope (expandAt scope n) := by
  induction n with
  | zero => exact fun decl table _ h => ⟨h, nofun⟩
  | succ n ih =>
    intro decl table hdecl h
    rcases hget : Assoc.get? table.declared (scope.module.name, decl.name) with _ | d
    · by_cases hconverting : (scope.module.name, decl.name) ∈ table.converting
      · rw [expandAt_of_converting hget hconverting]
        exact ⟨h, nofun⟩
      · rw [expandAt_of_new hget hconverting]
        have hstart : Founded scope (table.bodyScope scope.module.name decl).2.table := by
          rw [bodyScope, table_paramScope]
          exact h
        obtain ⟨hafter, hmeant⟩ := founds_convertWith ih decl.body _ hstart
        generalize convertWith scope (expandAt scope n) false decl.body _ = out at hafter hmeant
        by_cases hcyclic : out.2.IsCyclic
        · rw [meaning_of_isCyclic hcyclic]
          exact ⟨hafter, nofun⟩
        · have hacc : Acc (Unfolds scope) decl := ⟨_, fun inner hinner => (hmeant hcyclic).2 inner hinner⟩
          rw [meaning_of_not_isCyclic hcyclic]
          refine ⟨fun other hother hsome => ?_, fun _ => hacc⟩
          by_cases hname : decl.name = other.name
          · cases eq_of_nodup_filterMap hdistinct hdecl hother rfl (congrArg some hname.symm)
            exact hacc
          · rw [get?_remember_of_ne hname] at hsome
            exact hafter other hother hsome
    · rw [expandAt_of_declared hget]
      exact ⟨h, fun _ => h decl hdecl (hget ▸ rfl)⟩

/-! ### Tables whose entries are what a table without entries gives -/

/-- Whether the entries of a table are what an empty one gives. -/
structure Regular (scope : ModuleScope) (table : TypeTable) : Prop where
  aliases : ∀ decl d, .typeAlias decl ∈ scope.module.declarations →
    Assoc.get? table.declared (scope.module.name, decl.name) = some d →
    Acc (Unfolds scope) decl ∧ (expand scope scope.module.name decl {}).1 = some d
  unions : ∀ decl d, .unionType decl ∈ scope.module.declarations →
    Assoc.get? table.declared (scope.module.name, decl.name) = some d →
    (unionType scope scope.module.name decl {}).1 = d

/-- Whether what a table is converting leads to an alias, with room for the conversions to come. -/
structure Awaits (scope : ModuleScope) (n : Nat) (table : TypeTable) (decl : AliasDecl) : Prop where
  nodup : table.converting.Nodup
  leads : ∀ key ∈ table.converting, ∃ outer, .typeAlias outer ∈ scope.module.declarations ∧
    key = (scope.module.name, outer.name) ∧ Relation.TransGen (Unfolds scope) decl outer
  room : scope.module.aliasCount + 1 ≤ n + table.converting.length

theorem regular_empty (converting : List TypeKey) : Regular scope { converting } :=
  ⟨nofun, nofun⟩

theorem Regular.founded {table : TypeTable} (h : Regular scope table) : Founded scope table := by
  intro decl hdecl hsome
  obtain ⟨d, hget⟩ := Option.isSome_iff_exists.mp hsome
  exact (h.aliases decl d hdecl hget).1

/-- What is being converted does not matter to the entries. -/
theorem Regular.converting {table : TypeTable} (h : Regular scope table) (converting : List TypeKey) :
    Regular scope { table with converting } :=
  ⟨h.aliases, h.unions⟩

theorem awaits_empty (decl : AliasDecl) : Awaits scope (scope.module.aliasCount + 1) {} decl :=
  ⟨List.nodup_nil, nofun, Nat.le_refl _⟩

theorem Awaits.notMem {n : Nat} {table : TypeTable} {decl : AliasDecl} (h : Awaits scope n table decl)
    (hdistinct : scope.module.DistinctTypes) (hdecl : .typeAlias decl ∈ scope.module.declarations)
    (hacc : Acc (Unfolds scope) decl) : (scope.module.name, decl.name) ∉ table.converting := by
  intro hmem
  obtain ⟨outer, houter, hkey, hleads⟩ := h.leads _ hmem
  have hname : outer.name = decl.name := (congrArg Prod.snd hkey).symm
  cases eq_of_nodup_filterMap hdistinct hdecl houter rfl (congrArg some hname)
  exact not_transGen_self hacc hleads

/-- There is room for an alias that is not being converted, and then for those in its body. -/
theorem Awaits.inner {n : Nat} {table table' : TypeTable} {decl inner : AliasDecl} (h : Awaits scope (n + 1) table decl)
    (hdecl : .typeAlias decl ∈ scope.module.declarations)
    (hnot : (scope.module.name, decl.name) ∉ table.converting)
    (hconverting : table'.converting = (scope.module.name, decl.name) :: table.converting)
    (hinner : Unfolds scope inner decl) : Awaits scope n table' inner := by
  refine ⟨hconverting ▸ List.nodup_cons.mpr ⟨hnot, h.nodup⟩, fun key hkey => ?_, ?_⟩
  · rw [hconverting] at hkey
    rcases List.mem_cons.mp hkey with rfl | hmem
    · exact ⟨decl, hdecl, rfl, .single hinner⟩
    · obtain ⟨outer, houter, rfl, hleads⟩ := h.leads key hmem
      exact ⟨outer, houter, rfl, hleads.head hinner⟩
  · have hroom := h.room
    rw [hconverting, List.length_cons]
    omega

/-- So many conversions cannot be going on that there is no room for another one. -/
theorem Awaits.pos {n : Nat} {table : TypeTable} {decl : AliasDecl} (h : Awaits scope n table decl) : 0 < n := by
  have hsubset : table.converting ⊆ (scope.module.declarations.filterMap Declaration.typeAlias?).map
      (fun decl => (scope.module.name, decl.name)) := by
    intro key hkey
    obtain ⟨outer, houter, rfl, -⟩ := h.leads key hkey
    exact List.mem_map.mpr ⟨outer, List.mem_filterMap.mpr ⟨_, houter, rfl⟩, rfl⟩
  have hlength := (List.subperm_of_subset h.nodup hsubset).length_le
  rw [List.length_map] at hlength
  have hroom := h.room
  rw [Module.aliasCount] at hroom
  omega

/-- A new entry has to be what an empty table gives. -/
theorem Regular.remember {table : TypeTable} {name : Name} {d : DeclaredType} (h : Regular scope table)
    (haliases : ∀ decl, .typeAlias decl ∈ scope.module.declarations → name = decl.name →
      Acc (Unfolds scope) decl ∧ (expand scope scope.module.name decl {}).1 = some d)
    (hunions : ∀ decl, .unionType decl ∈ scope.module.declarations → name = decl.name →
      (unionType scope scope.module.name decl {}).1 = d) :
    Regular scope (table.remember (scope.module.name, name) d) := by
  refine ⟨fun decl d' hdecl hget => ?_, fun decl d' hdecl hget => ?_⟩
  · by_cases hname : name = decl.name
    · rw [hname, get?_remember_self] at hget
      cases hget
      exact haliases decl hdecl hname
    · rw [get?_remember_of_ne hname] at hget
      exact h.aliases decl d' hdecl hget
  · by_cases hname : name = decl.name
    · rw [hname, get?_remember_self] at hget
      cases hget
      exact hunions decl hdecl hname
    · rw [get?_remember_of_ne hname] at hget
      exact h.unions decl d' hdecl hget

theorem fst_meaning (m : Name) (decl : AliasDecl) (params : List TyVar) {out out' : Ty × Conversion}
    (hbody : out.1 = out'.1) (hproblems : out.2.problems = out'.2.problems) :
    (meaning m decl params out).1 = (meaning m decl params out').1 := by
  unfold meaning
  rw [hbody, hproblems]
  split <;> rfl

theorem regular_meaning {decl : AliasDecl} {params : List TyVar} {out : Ty × Conversion} {outer : List TypeKey}
    (hdistinct : scope.module.DistinctTypes) (hdecl : .typeAlias decl ∈ scope.module.declarations)
    (htable : Regular scope out.2.table)
    (hconverting : out.2.table.converting = (scope.module.name, decl.name) :: outer)
    (hmeaning : ∀ d, (meaning scope.module.name decl params out).1 = some d →
      Acc (Unfolds scope) decl ∧ (expand scope scope.module.name decl {}).1 = some d) :
    Regular scope (meaning scope.module.name decl params out).2 ∧
      (meaning scope.module.name decl params out).2.converting = outer := by
  have hended : (out.2.table.ended (scope.module.name, decl.name)).converting = outer := by
    rw [ended, hconverting, List.erase_cons_head]
  by_cases hcyclic : out.2.IsCyclic
  · rw [meaning_of_isCyclic hcyclic]
    exact ⟨htable.converting _, hended⟩
  · rw [meaning_of_not_isCyclic hcyclic] at hmeaning ⊢
    obtain ⟨hacc, hd⟩ := hmeaning _ rfl
    refine ⟨(htable.converting _).remember (fun other hother hname => ?_) fun other hother hname => ?_, hended⟩
    · cases eq_of_nodup_filterMap hdistinct hdecl hother rfl (congrArg some hname.symm)
      exact ⟨hacc, hd⟩
    · cases eq_of_nodup_filterMap hdistinct hdecl hother rfl (congrArg some hname.symm)

/-- Whether converting an alias gives what an empty table gives, and leaves the table in order. -/
def Gives (scope : ModuleScope) (n : Nat) (table : TypeTable) (decl : AliasDecl) : Prop :=
  (expandAt scope n scope.module.name decl table).1 = (expand scope scope.module.name decl {}).1 ∧
    Regular scope (expandAt scope n scope.module.name decl table).2 ∧
    (expandAt scope n scope.module.name decl table).2.converting = table.converting

-- By induction along the references between aliases: the bodies are converted side by side, once for the table at
-- hand and once for the empty one, and the aliases in them give the same to both.
theorem gives_of_acc (hdistinct : scope.module.DistinctTypes) {decl : AliasDecl} (hacc : Acc (Unfolds scope) decl)
    (hdecl : .typeAlias decl ∈ scope.module.declarations) {n : Nat} {table : TypeTable} (htable : Regular scope table)
    (hawaits : Awaits scope n table decl) : Gives scope n table decl := by
  induction hacc generalizing n table with
  | intro decl hbelow ih =>
    have hacc : Acc (Unfolds scope) decl := ⟨_, hbelow⟩
    obtain ⟨n, rfl⟩ := Nat.exists_eq_succ_of_ne_zero (Nat.pos_iff_ne_zero.mp hawaits.pos)
    rcases hget : Assoc.get? table.declared (scope.module.name, decl.name) with _ | d
    · have hnot := hawaits.notMem hdistinct hdecl hacc
      let R (t t' : TypeTable) : Prop :=
        (Regular scope t ∧ t.converting = (scope.module.name, decl.name) :: table.converting) ∧
          Regular scope t' ∧ t'.converting = [(scope.module.name, decl.name)]
      have hbody : Together R (convertWith scope (expandAt scope n) false decl.body)
          (convertWith scope (expandAt scope scope.module.aliasCount) false decl.body) := by
        refine together_convertWith decl.body fun inner hinner hmem t t' => ?_
        rintro ⟨⟨hregular, hconverting⟩, hregular', hconverting'⟩
        obtain ⟨hsame, hafter, hend⟩ := ih inner hinner hmem hregular (hawaits.inner hdecl hnot hconverting hinner)
        obtain ⟨hsame', hafter', hend'⟩ := ih inner hinner hmem hregular'
          ((awaits_empty decl).inner hdecl List.not_mem_nil hconverting' hinner)
        exact ⟨hsame.trans hsame'.symm, ⟨hafter, hend.trans hconverting⟩, hafter', hend'.trans hconverting'⟩
      have hstart : R { table with converting := (scope.module.name, decl.name) :: table.converting }
          { converting := [(scope.module.name, decl.name)] } :=
        ⟨⟨htable.converting _, rfl⟩, regular_empty _, rfl⟩
      obtain ⟨hparams, hscope⟩ := alike_paramScope hstart decl.params
      obtain ⟨hvalue, halike⟩ := hbody _ _ hscope
      have hempty : expandAt scope (scope.module.aliasCount + 1) scope.module.name decl {} = _ :=
        expandAt_of_new rfl List.not_mem_nil
      have hsame := fst_meaning scope.module.name decl
        (paramScope { converting := [(scope.module.name, decl.name)] } decl.params).1 hvalue halike.problems
      rw [Gives, expand, hempty, expandAt_of_new hget hnot, bodyScope, bodyScope, hparams]
      refine ⟨hsame, regular_meaning hdistinct hdecl halike.table.1.1 halike.table.1.2 fun d hd => ⟨hacc, ?_⟩⟩
      rw [expand, hempty, bodyScope, ← hsame]
      exact hd
    · obtain ⟨-, hmeaning⟩ := htable.aliases decl d hdecl hget
      rw [Gives, expandAt_of_declared hget]
      exact ⟨hmeaning.symm, htable, rfl⟩

theorem gives (hdistinct : scope.module.DistinctTypes) {n : Nat} {decl : AliasDecl} {table : TypeTable}
    (hdecl : .typeAlias decl ∈ scope.module.declarations) (htable : Regular scope table)
    (hawaits : Awaits scope n table decl) : Gives scope n table decl := by
  induction n generalizing decl table with
  | zero => exact absurd hawaits.pos (Nat.lt_irrefl 0)
  | succ n ih =>
    by_cases hacc : Acc (Unfolds scope) decl
    · exact gives_of_acc hdistinct hacc hdecl htable hawaits
    · -- Neither table gives the alias a meaning, so it remains to see that the conversion of its body does no harm.
      have hnone : ∀ n table, Regular scope table → (expandAt scope n scope.module.name decl table).1 = none := by
        intro n table htable
        by_contra hsome
        exact hacc ((grounds_expandAt hdistinct n decl table hdecl htable.founded).2 (Option.isSome_iff_ne_none.mpr hsome))
      refine ⟨(hnone _ _ htable).trans (hnone _ _ (regular_empty [])).symm, ?_⟩
      have hfound := hnone (n + 1) table htable
      rcases hget : Assoc.get? table.declared (scope.module.name, decl.name) with _ | d
      · by_cases hconverting : (scope.module.name, decl.name) ∈ table.converting
        · rw [expandAt_of_converting hget hconverting]
          exact ⟨htable, rfl⟩
        · let R (t t' : TypeTable) : Prop :=
            t = t' ∧ Regular scope t ∧ t.converting = (scope.module.name, decl.name) :: table.converting
          have hbody : Together R (convertWith scope (expandAt scope n) false decl.body)
              (convertWith scope (expandAt scope n) false decl.body) := by
            refine together_convertWith decl.body fun inner hinner hmem t t' => ?_
            rintro ⟨rfl, hregular, hbefore⟩
            obtain ⟨-, hafter, hend⟩ := ih hmem hregular (hawaits.inner hdecl hconverting hbefore hinner)
            exact ⟨rfl, rfl, hafter, hend.trans hbefore⟩
          have hstart : R { table with converting := (scope.module.name, decl.name) :: table.converting } _ :=
            ⟨rfl, htable.converting _, rfl⟩
          obtain ⟨-, halike⟩ := hbody _ _ (alike_paramScope hstart decl.params).2
          rw [expandAt_of_new hget hconverting] at hfound ⊢
          refine regular_meaning hdistinct hdecl halike.table.2.1 halike.table.2.2 fun d hd => ?_
          rw [hfound] at hd
          cases hd
      · rw [expandAt_of_declared hget] at hfound
        cases hfound

/-! ### Between conversions -/

/-- Whether no conversion is going on, and the entries are what an empty table gives. -/
structure Idle (scope : ModuleScope) (table : TypeTable) : Prop where
  regular : Regular scope table
  converting : table.converting = []

theorem idle_empty : Idle scope {} :=
  ⟨regular_empty [], rfl⟩

/-- Whether a computation gives what it gives for an empty table, and leaves the table idle. -/
def Steadfast (scope : ModuleScope) {α : Type} (work : StateM TypeTable α) : Prop :=
  ∀ table, Idle scope table → (work table).1 = (work {}).1 ∧ Idle scope (work table).2

theorem steadfast_expand (hdistinct : scope.module.DistinctTypes) {decl : AliasDecl}
    (hdecl : .typeAlias decl ∈ scope.module.declarations) : Steadfast scope (expand scope scope.module.name decl) := by
  rintro table ⟨hregular, hconverting⟩
  have hawaits : Awaits scope (scope.module.aliasCount + 1) table decl :=
    ⟨hconverting ▸ List.nodup_nil, hconverting ▸ nofun, Nat.le_add_right _ _⟩
  obtain ⟨hsame, hafter, hend⟩ := gives hdistinct hdecl hregular hawaits
  exact ⟨hsame, hafter, hend.trans hconverting⟩

/-- Whether computations that do not depend on the entries of a table keep a relation between tables. -/
def Lawful (scope : ModuleScope) (R : TypeTable → TypeTable → Prop) : Prop :=
  ∀ {α : Type} (work : StateM TypeTable α), Steadfast scope work → Match R work work

theorem lawful_idle : Lawful scope (fun table table' => Idle scope table ∧ Idle scope table') := by
  rintro α work h table table' ⟨hidle, hidle'⟩
  obtain ⟨hsame, hafter⟩ := h table hidle
  obtain ⟨hsame', hafter'⟩ := h table' hidle'
  exact ⟨hsame.trans hsame'.symm, hafter, hafter'⟩

theorem lawful_same : Lawful scope (fun table table' => table = table' ∧ Idle scope table) := by
  rintro α work h table _ ⟨rfl, hidle⟩
  exact ⟨rfl, rfl, (h table hidle).2⟩

/-- Conversions of one type expression differ in their tables only. -/
theorem together_convert (hdistinct : scope.module.DistinctTypes) {R : TypeTable → TypeTable → Prop}
    (hR : Lawful scope R) (rigid : Bool) (t : TypeExpr) :
    Together R (Conversion.convert scope rigid t) (Conversion.convert scope rigid t) :=
  together_convertWith t fun _ _ hdecl => hR _ (steadfast_expand hdistinct hdecl)

/-- What a union declaration stands for when its constructors have such arguments. -/
def unionOf (m : Name) (decl : UnionDecl) (params : List TyVar) (variants : List (List Ty)) : DeclaredType :=
  .unionType params (.named m decl.name (params.map .var)) variants

theorem unionType_of_declared {m : Name} {decl : UnionDecl} {table : TypeTable} {d : DeclaredType}
    (h : Assoc.get? table.declared (m, decl.name) = some d) : unionType scope m decl table = (d, table) := by
  rw [unionType]
  simp only [h]

theorem unionType_of_new {m : Name} {decl : UnionDecl} {table : TypeTable}
    (h : Assoc.get? table.declared (m, decl.name) = none) :
    let out := decl.variants.mapM (fun variant => convertList scope (expand scope) false variant.args)
      (paramScope table decl.params).2
    unionType scope m decl table = (unionOf m decl (paramScope table decl.params).1 out.1,
      out.2.table.remember (m, decl.name) (unionOf m decl (paramScope table decl.params).1 out.1)) := by
  rw [unionType]
  simp only [h]
  rfl

/-- What holds of all declared types, also once the constructors of a union have been converted, holds of the union. -/
theorem forall_declared_unionType {P : DeclaredType → Prop} {m : Name} {decl : UnionDecl} {table : TypeTable}
    (h : ∀ entry ∈ table.declared, P entry.2) {out : List (List Ty) × Conversion}
    (hout : decl.variants.mapM (fun variant => convertList scope (expand scope) false variant.args)
      (paramScope table decl.params).2 = out)
    (hafter : ∀ entry ∈ out.2.table.declared, P entry.2)
    (hunion : P (unionOf m decl (paramScope table decl.params).1 out.1)) :
    (∀ entry ∈ (unionType scope m decl table).2.declared, P entry.2) ∧ P (unionType scope m decl table).1 := by
  rcases hget : Assoc.get? table.declared (m, decl.name) with _ | d
  · rw [unionType_of_new hget, hout]
    exact ⟨forall_declared_remember hafter _ hunion, hunion⟩
  · rw [unionType_of_declared hget]
    exact ⟨h, h _ (Assoc.mem_of_get? hget)⟩

theorem steadfast_unionType (hdistinct : scope.module.DistinctTypes) {decl : UnionDecl}
    (hdecl : .unionType decl ∈ scope.module.declarations) :
    Steadfast scope (unionType scope scope.module.name decl) := by
  intro table hidle
  rcases hget : Assoc.get? table.declared (scope.module.name, decl.name) with _ | d
  · let R (t t' : TypeTable) : Prop := Idle scope t ∧ Idle scope t'
    have hbody : Together R
        (decl.variants.mapM (fun variant => convertList scope (expand scope) false variant.args))
        (decl.variants.mapM (fun variant => convertList scope (expand scope) false variant.args)) :=
      together_mapM fun variant _ =>
        together_convertList variant.args fun _ _ hmem => lawful_idle _ (steadfast_expand hdistinct hmem)
    have hstart : R table {} := ⟨hidle, idle_empty⟩
    obtain ⟨hparams, hscope⟩ := alike_paramScope hstart decl.params
    obtain ⟨hvalue, halike⟩ := hbody _ _ hscope
    have hempty : unionType scope scope.module.name decl {} = _ := unionType_of_new rfl
    have hsame : (unionType scope scope.module.name decl table).1 = (unionType scope scope.module.name decl {}).1 := by
      rw [hempty, unionType_of_new hget, hparams, hvalue]
    refine ⟨hsame, ?_⟩
    rw [unionType_of_new hget] at hsame ⊢
    refine ⟨halike.table.1.regular.remember (fun other hother hname => ?_) fun other hother hname => ?_,
      halike.table.1.converting⟩
    · cases eq_of_nodup_filterMap hdistinct hdecl hother rfl (congrArg some hname.symm)
    · cases eq_of_nodup_filterMap hdistinct hdecl hother rfl (congrArg some hname.symm)
      exact hsame.symm
  · have hmeaning := hidle.regular.unions decl d hdecl hget
    rw [unionType_of_declared hget]
    exact ⟨hmeaning.symm, hidle⟩

end TypeTable

end ElmInference
