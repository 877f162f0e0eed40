import ElmInference.Proofs.Infer.Coverage
import ElmInference.Proofs.Infer.Requests

/-!
# Which nodes get a type

An answer gives a type to every node of its declaration but those in `let` definitions that bind no name, such as
`_ = e`. Definitions without signature are found under their names, when one of these is needed or at the end of the
`let`, so a definition without names is never inferred: its nodes get no types, and whatever is wrong with them goes
unnoticed.
-/

namespace ElmInference

def Definition.isNameless (d : ValueDecl) : Bool :=
  d.head.boundNames.isEmpty

namespace Expr

mutual

/-- The nodes of an expression and of its patterns, without those in `let` definitions that are to be skipped. -/
def nodeIds (skip : ValueDecl → Bool) : Expr → Multiset NodeId
  | .mk id _ kind => id ::ₘ kindIds skip kind

def kindIds (skip : ValueDecl → Bool) : ExprKind Expr → Multiset NodeId
  | .unit => 0
  | .literal _ => 0
  | .var _ => 0
  | .operator _ => 0
  | .accessor _ => 0
  | .call target args => nodeIds skip target + listIds skip args
  | .binary operands _ => listIds skip operands
  | .negate operand => nodeIds skip operand
  | .tuple items => listIds skip items
  | .list items => listIds skip items
  | .record fields => fieldIds skip fields
  | .update _ fields => fieldIds skip fields
  | .access target _ => nodeIds skip target
  | .conditional branches otherwise => branchIds skip branches + nodeIds skip otherwise
  | .caseOf scrutinee branches => nodeIds skip scrutinee + caseIds skip branches
  | .lambda params body => (Pattern.sitesList params).map Site.id + nodeIds skip body
  | .letIn definitions body => definitionIds skip definitions + nodeIds skip body

def listIds (skip : ValueDecl → Bool) : List Expr → Multiset NodeId
  | [] => 0
  | e :: es => nodeIds skip e + listIds skip es

def fieldIds (skip : ValueDecl → Bool) : List (NameAt × Expr) → Multiset NodeId
  | [] => 0
  | (_, e) :: rest => nodeIds skip e + fieldIds skip rest

def branchIds (skip : ValueDecl → Bool) : List (Expr × Expr) → Multiset NodeId
  | [] => 0
  | (c, e) :: rest => nodeIds skip c + nodeIds skip e + branchIds skip rest

def caseIds (skip : ValueDecl → Bool) : List (Pattern × Expr) → Multiset NodeId
  | [] => 0
  | (p, e) :: rest => p.sites.map Site.id + nodeIds skip e + caseIds skip rest

def definitionIds (skip : ValueDecl → Bool) : List (Definition Expr) → Multiset NodeId
  | [] => 0
  | d :: rest => (if skip d then 0 else d.head.sites.map Site.id + nodeIds skip d.body) + definitionIds skip rest

end

mutual

theorem map_id_sites (locals : List Name) (depth : Nat) (e : Expr) :
    (e.sites locals depth).map Site.id = e.nodeIds Definition.isNameless := by
  match e with
  | .mk id pos kind =>
    rw [sites, nodeIds, Multiset.map_cons, map_id_kindSites locals depth kind]
    rfl

theorem map_id_kindSites (locals : List Name) (depth : Nat) (kind : ExprKind Expr) :
    (kindSites locals depth kind).map Site.id = kindIds Definition.isNameless kind := by
  match kind with
  | .unit | .literal _ | .var _ | .operator _ | .accessor _ =>
    rw [kindSites, kindIds, Multiset.map_zero]
  | .call target args =>
    rw [kindSites, kindIds, Multiset.map_add, map_id_sites locals depth target, map_id_sitesList locals depth args]
  | .binary operands _ =>
    rw [kindSites, kindIds, map_id_sitesList locals depth operands]
  | .negate operand =>
    rw [kindSites, kindIds, map_id_sites locals depth operand]
  | .tuple items | .list items =>
    rw [kindSites, kindIds, map_id_sitesList locals depth items]
  | .record fields | .update _ fields =>
    rw [kindSites, kindIds, map_id_sitesFields locals depth fields]
  | .access target _ =>
    rw [kindSites, kindIds, map_id_sites locals depth target]
  | .conditional branches otherwise =>
    rw [kindSites, kindIds, Multiset.map_add, map_id_sitesBranches locals depth branches, map_id_sites locals depth otherwise]
  | .caseOf scrutinee branches =>
    rw [kindSites, kindIds, Multiset.map_add, map_id_sites locals depth scrutinee, map_id_sitesCases locals depth branches]
  | .lambda params body =>
    rw [kindSites, kindIds, Multiset.map_add, map_id_sites _ _ body]
  | .letIn definitions body =>
    rw [kindSites, kindIds, Multiset.map_add, map_id_sitesDefinitions _ _ definitions, map_id_sites _ _ body]

theorem map_id_sitesList (locals : List Name) (depth : Nat) (es : List Expr) :
    (sitesList locals depth es).map Site.id = listIds Definition.isNameless es := by
  match es with
  | [] => rw [sitesList, listIds, Multiset.map_zero]
  | e :: es =>
    rw [sitesList, listIds, Multiset.map_add, map_id_sites locals depth e, map_id_sitesList locals depth es]

theorem map_id_sitesFields (locals : List Name) (depth : Nat) (fields : List (NameAt × Expr)) :
    (sitesFields locals depth fields).map Site.id = fieldIds Definition.isNameless fields := by
  match fields with
  | [] => rw [sitesFields, fieldIds, Multiset.map_zero]
  | (_, e) :: rest =>
    rw [sitesFields, fieldIds, Multiset.map_add, map_id_sites locals depth e, map_id_sitesFields locals depth rest]

theorem map_id_sitesBranches (locals : List Name) (depth : Nat) (branches : List (Expr × Expr)) :
    (sitesBranches locals depth branches).map Site.id = branchIds Definition.isNameless branches := by
  match branches with
  | [] => rw [sitesBranches, branchIds, Multiset.map_zero]
  | (c, e) :: rest =>
    rw [sitesBranches, branchIds, Multiset.map_add, Multiset.map_add, map_id_sites locals depth c,
      map_id_sites locals depth e, map_id_sitesBranches locals depth rest]

theorem map_id_sitesCases (locals : List Name) (depth : Nat) (branches : List (Pattern × Expr)) :
    (sitesCases locals depth branches).map Site.id = caseIds Definition.isNameless branches := by
  match branches with
  | [] => rw [sitesCases, caseIds, Multiset.map_zero]
  | (p, e) :: rest =>
    rw [sitesCases, caseIds, Multiset.map_add, Multiset.map_add, map_id_sites _ _ e, map_id_sitesCases locals depth rest]

theorem map_id_sitesDefinitions (locals : List Name) (depth : Nat) (definitions : List (Definition Expr)) :
    (sitesDefinitions locals depth definitions).map Site.id = definitionIds Definition.isNameless definitions := by
  match definitions with
  | [] => rw [sitesDefinitions, definitionIds, Multiset.map_zero]
  | d :: rest =>
    rw [sitesDefinitions, definitionIds, Multiset.map_add, map_id_sitesDefinitions locals depth rest, Definition.isNameless]
    split
    · rw [Multiset.map_zero]
    · rw [Multiset.map_add, map_id_sites _ _ d.body]

end

end Expr

def Definition.nodeIds (skip : ValueDecl → Bool) (d : ValueDecl) : Multiset NodeId :=
  d.head.sites.map Site.id + d.body.nodeIds skip

theorem Definition.map_id_declaredSites (d : ValueDecl) :
    d.declaredSites.map Site.id = d.nodeIds Definition.isNameless := by
  rw [declaredSites, sites, nodeIds, Multiset.map_add, Expr.map_id_sites]

/-- Whether every `let` of a declaration binds each name once. -/
def Definition.LetsApart (d : ValueDecl) : Prop :=
  ∀ site ∈ d.declaredSites, site.Apart False

instance (site : Site) : Decidable (site.Apart False) :=
  match site with
  | .expr _ _ (.mk _ _ kind) =>
    match kind with
    | .letIn definitions _ => inferInstanceAs (Decidable (False ∨ (definitions.flatMap Definition.names).Nodup))
    | .unit | .literal _ | .var _ | .operator _ | .accessor _ | .call _ _ | .binary _ _ | .negate _ | .tuple _ | .list _
    | .record _ | .update _ _ | .access _ _ | .conditional _ _ | .caseOf _ _ | .lambda _ _ => .isTrue trivial
  | .pattern _ => .isTrue trivial

instance (d : ValueDecl) : Decidable d.LetsApart :=
  inferInstanceAs (Decidable (∀ site ∈ d.declaredSites, site.Apart False))

/-! ### Nodes that are recorded once -/

namespace Expr

mutual

/-- Skipping definitions leaves nodes out. -/
theorem nodeIds_le (skip : ValueDecl → Bool) (e : Expr) : e.nodeIds skip ≤ e.nodeIds (fun _ => false) := by
  match e with
  | .mk id _ kind =>
    rw [nodeIds, nodeIds]
    exact Multiset.cons_le_cons id (kindIds_le skip kind)

theorem kindIds_le (skip : ValueDecl → Bool) (kind : ExprKind Expr) : kindIds skip kind ≤ kindIds (fun _ => false) kind := by
  match kind with
  | .unit | .literal _ | .var _ | .operator _ | .accessor _ => rw [kindIds, kindIds]
  | .call target args =>
    rw [kindIds, kindIds]
    exact add_le_add (nodeIds_le skip target) (listIds_le skip args)
  | .binary items _ | .tuple items | .list items =>
    rw [kindIds, kindIds]
    exact listIds_le skip items
  | .negate target | .access target _ =>
    rw [kindIds, kindIds]
    exact nodeIds_le skip target
  | .record fields | .update _ fields =>
    rw [kindIds, kindIds]
    exact fieldIds_le skip fields
  | .conditional branches otherwise =>
    rw [kindIds, kindIds]
    exact add_le_add (branchIds_le skip branches) (nodeIds_le skip otherwise)
  | .caseOf scrutinee branches =>
    rw [kindIds, kindIds]
    exact add_le_add (nodeIds_le skip scrutinee) (caseIds_le skip branches)
  | .lambda params body =>
    rw [kindIds, kindIds]
    exact add_le_add le_rfl (nodeIds_le skip body)
  | .letIn definitions body =>
    rw [kindIds, kindIds]
    exact add_le_add (definitionIds_le skip definitions) (nodeIds_le skip body)

theorem listIds_le (skip : ValueDecl → Bool) (es : List Expr) : listIds skip es ≤ listIds (fun _ => false) es := by
  match es with
  | [] => rw [listIds, listIds]
  | e :: es =>
    rw [listIds, listIds]
    exact add_le_add (nodeIds_le skip e) (listIds_le skip es)

theorem fieldIds_le (skip : ValueDecl → Bool) (fields : List (NameAt × Expr)) :
    fieldIds skip fields ≤ fieldIds (fun _ => false) fields := by
  match fields with
  | [] => rw [fieldIds, fieldIds]
  | (_, e) :: rest =>
    rw [fieldIds, fieldIds]
    exact add_le_add (nodeIds_le skip e) (fieldIds_le skip rest)

theorem branchIds_le (skip : ValueDecl → Bool) (branches : List (Expr × Expr)) :
    branchIds skip branches ≤ branchIds (fun _ => false) branches := by
  match branches with
  | [] => rw [branchIds, branchIds]
  | (c, e) :: rest =>
    rw [branchIds, branchIds]
    exact add_le_add (add_le_add (nodeIds_le skip c) (nodeIds_le skip e)) (branchIds_le skip rest)

theorem caseIds_le (skip : ValueDecl → Bool) (branches : List (Pattern × Expr)) :
    caseIds skip branches ≤ caseIds (fun _ => false) branches := by
  match branches with
  | [] => rw [caseIds, caseIds]
  | (p, e) :: rest =>
    rw [caseIds, caseIds]
    exact add_le_add (add_le_add le_rfl (nodeIds_le skip e)) (caseIds_le skip rest)

theorem definitionIds_le (skip : ValueDecl → Bool) (definitions : List (Definition Expr)) :
    definitionIds skip definitions ≤ definitionIds (fun _ => false) definitions := by
  match definitions with
  | [] => rw [definitionIds, definitionIds]
  | d :: rest =>
    rw [definitionIds, definitionIds, if_neg Bool.false_ne_true]
    refine add_le_add ?_ (definitionIds_le skip rest)
    split
    · exact Multiset.zero_le _
    · exact add_le_add le_rfl (nodeIds_le skip d.body)

end

end Expr

namespace InferM

theorem apart_of_quiet (site : Site) : site.Apart True := by
  unfold Site.Apart
  split
  · exact .inl trivial
  · trivial

/-- A pass that comes by every node of a declaration once has recorded a type for each node once. -/
theorem nodup_keys_of_covers {context : Context} {session : Session} {w : Work} {d : ValueDecl}
    (h : Covers context ⟨session, {}⟩ w d.declaredSites) (hdistinct : (d.nodeIds fun _ => false).Nodup) :
    (w.pass.nodeTypes.map Prod.fst).Nodup := by
  have hrecorded := h.recorded
  rw [List.map_nil, Multiset.coe_nil, zero_add, Definition.map_id_declaredSites] at hrecorded
  rw [← Multiset.coe_nodup, hrecorded]
  exact Multiset.nodup_of_le (add_le_add le_rfl (d.body.nodeIds_le _)) hdistinct

end InferM

/-! ### Answers that are not kept ones -/

namespace Engine

/-- A request that gets a result infers a declaration of the module, or finds it kept. -/
theorem exists_inferTopLevel {engine : Engine} {i : Nat} {s s' : Session} {result : InferenceResult}
    (hrun : engine.infer (.declared i) s = (.ok (.ok result), s')) :
    ∃ d s₁ recursive, engine.scope.module.valueAt? i = some d ∧ s₁.cache = s.cache ∧
      SessionM.inferTopLevel (InferM.exprAt engine.budget) i d engine s₁ = (.ok (.ok (result, recursive)), s') := by
  obtain ⟨flag, ⟨_, hrefused, -⟩ | ⟨_, d, outcome, hrequest, hoffers, hanswer, htop⟩⟩ := infer_inv hrun
  · cases hrefused
  cases hrequest
  rcases outcome with e | ⟨found, recursive⟩
  · cases hanswer
  · cases hanswer
    exact ⟨d, { s with flag }, recursive, hoffers.1, rfl, htop⟩

open InferM in
/-- An answer that is found without kept results has a type for just those nodes of its declaration that lie in no `let`
definition without names. -/
theorem nodes_get_types_outside_nameless_definitions (engine : Engine) (i : Nat) (s s' : Session)
    (hempty : s.cache.isEmpty = true) (result : InferenceResult)
    (hrun : engine.infer (.declared i) s = (.ok (.ok result), s')) (d : ValueDecl)
    (hd : engine.scope.module.valueAt? i = some d) (hlets : d.LetsApart) (id : NodeId) :
    (result.typeOf? id).isSome ↔ id ∈ d.nodeIds Definition.isNameless := by
  obtain ⟨d', s₁, recursive, hd', hcache, htop⟩ := exists_inferTopLevel hrun
  obtain rfl := Option.some.inj (hd.symm.trans hd')
  have hnew : s₁.cache.get? (DeclKey.ofDecl engine.file d) = none := by
    rw [Cache.get?, hcache, List.isEmpty_iff.mp hempty]
    rfl
  obtain ⟨flag, w, out, hdecl, hresult⟩ := SessionM.exists_inferDeclaration hnew htop
  have hbody : ∀ σ e, Turns ⟨engine, i⟩ False σ σ (Expr.sites σ.locals σ.depth e) (exprAt engine.budget e) :=
    turns_exprAt engine.budget
  obtain ⟨hcovers, t, hfreezes⟩ := covers_inferDeclaration hbody hdecl False.elim hlets
  have hrecorded := hcovers.recorded
  rw [List.map_nil, Multiset.coe_nil, zero_add, Definition.map_id_declaredSites] at hrecorded
  rw [← show out.1 = result from hresult, hfreezes.isSome_typeOf?, ← hrecorded, Multiset.mem_coe]

/-- In `f x = let _ = x ; y = [ x ] in y`, the list gets a type and the `x` of the first definition gets none. -/
theorem nodes_get_types_outside_nameless_definitions_of_let :
    let f : ValueDecl :=
      ⟨11, none, .function ⟨12, "f"⟩ [.mk 0 0 (.var "x")],
        .mk 6 10 (.letIn
          [⟨3, none, .pattern (.mk 1 4 .any), .mk 2 5 (.var (.plain "x"))⟩,
           ⟨6, none, .function ⟨7, "y"⟩ [], .mk 4 8 (.list [.mk 3 9 (.var (.plain "x"))])⟩]
          (.mk 5 13 (.var (.plain "y"))))⟩
    let engine : Engine := { file := 0, scope := { module := ⟨"Main", [.value f]⟩ } }
    ∃ result, (engine.infer (.declared 0) {}).1 = .ok (.ok result) ∧ f.LetsApart ∧
      (result.typeOf? 4).isSome ∧ ¬ (result.typeOf? 2).isSome := by
  intro f engine
  have hok : ((engine.infer (.declared 0) {}).1.toOption.bind Except.toOption).isSome = true := by decide +kernel
  obtain ⟨result, hsome⟩ := Option.isSome_iff_exists.mp hok
  have hresult : (engine.infer (.declared 0) {}).1 = .ok (.ok result) := ok_of_answer hsome
  have hrun : engine.infer (.declared 0) {} = (.ok (.ok result), (engine.infer (.declared 0) {}).2) := by
    rw [← hresult]
  have hlets : f.LetsApart := by decide +kernel
  have hnodes := nodes_get_types_outside_nameless_definitions engine 0 {} _ rfl result hrun f rfl hlets
  exact ⟨result, hresult, hlets, (hnodes 4).mpr (by decide +kernel), fun h => absurd ((hnodes 2).mp h) (by decide +kernel)⟩

/-- In `x = let _ = [ 1, "a" ] in 1`, all nodes are different, but those of the list get no types, and nobody complains
about its items. -/
theorem node_in_nameless_definition_gets_no_type :
    let x : ValueDecl :=
      ⟨0, none, .function ⟨1, "x"⟩ [],
        .mk 5 8 (.letIn
          [⟨2, none, .pattern (.mk 0 3 .any), .mk 3 4 (.list [.mk 1 5 (.literal .int), .mk 2 6 (.literal .string)])⟩]
          (.mk 4 7 (.literal .int)))⟩
    let engine : Engine := { file := 0, scope := { module := ⟨"Main", [.value x]⟩ } }
    let answer := (engine.infer (.declared 0) {}).1.toOption.bind Except.toOption
    (x.nodeIds (fun _ => false)).Nodup ∧ 3 ∈ x.nodeIds (fun _ => false) ∧ answer.map (·.problems.map Problem.pos) = some [] ∧
      answer.map (fun result => (result.typeOf? 3).isSome) = some false ∧ answer.map (fun result => (result.typeOf? 4).isSome) = some true := by
  intro x engine answer
  exact ⟨by decide +kernel, by decide +kernel, by decide +kernel, by decide +kernel, by decide +kernel⟩

end Engine

end ElmInference
