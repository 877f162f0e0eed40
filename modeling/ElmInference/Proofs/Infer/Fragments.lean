import ElmInference.Proofs.Infer.NodeTypes
import ElmInference.Proofs.Unify.Agreement

/-!
# Rules for the types of nodes

A `Fragment` is a node of a program of which a type may be recorded, and `Definition.fragments` are all nodes of a
declaration, those of `let` definitions without names included. `Fragment.Obeys` says what the type of a node has to do
with the types of the nodes right inside of it, whatever a node's type may be: the types of a `Typing` can be those of a
result, or those that a pass is about to record.
-/

namespace ElmInference

inductive Fragment where
  | expr (e : Expr)
  | pattern (p : Pattern)

namespace Fragment

def id : Fragment → NodeId
  | .expr e => e.id
  | .pattern p => p.id

end Fragment

def Site.fragment : Site → Fragment
  | .expr _ _ e => .expr e
  | .pattern p => .pattern p

theorem Site.id_fragment (site : Site) : site.fragment.id = site.id := by
  cases site <;> rfl

/-! ### All nodes -/

namespace Pattern

def fragments (p : Pattern) : Multiset Fragment :=
  p.sites.map Site.fragment

def fragmentsList (ps : List Pattern) : Multiset Fragment :=
  (sitesList ps).map Site.fragment

theorem map_id_fragments (p : Pattern) : p.fragments.map Fragment.id = p.sites.map Site.id := by
  rw [fragments, Multiset.map_map]
  exact Multiset.map_congr rfl fun site _ => site.id_fragment

theorem map_id_fragmentsList (ps : List Pattern) :
    (fragmentsList ps).map Fragment.id = (sitesList ps).map Site.id := by
  rw [fragmentsList, Multiset.map_map]
  exact Multiset.map_congr rfl fun site _ => site.id_fragment

end Pattern

def Head.fragments (head : Head) : Multiset Fragment :=
  head.sites.map Site.fragment

theorem Head.map_id_fragments (head : Head) : head.fragments.map Fragment.id = head.sites.map Site.id := by
  rw [fragments, Multiset.map_map]
  exact Multiset.map_congr rfl fun site _ => site.id_fragment

namespace Expr

mutual

def fragments : Expr → Multiset Fragment
  | .mk id pos kind => .expr (.mk id pos kind) ::ₘ kindFragments kind

def kindFragments : ExprKind Expr → Multiset Fragment
  | .unit => 0
  | .literal _ => 0
  | .var _ => 0
  | .operator _ => 0
  | .accessor _ => 0
  | .call target args => fragments target + listFragments args
  | .binary operands _ => listFragments operands
  | .negate operand => fragments operand
  | .tuple items => listFragments items
  | .list items => listFragments items
  | .record fields => fieldFragments fields
  | .update _ fields => fieldFragments fields
  | .access target _ => fragments target
  | .conditional branches otherwise => branchFragments branches + fragments otherwise
  | .caseOf scrutinee branches => fragments scrutinee + caseFragments branches
  | .lambda params body => Pattern.fragmentsList params + fragments body
  | .letIn definitions body => definitionFragments definitions + fragments body

def listFragments : List Expr → Multiset Fragment
  | [] => 0
  | e :: es => fragments e + listFragments es

def fieldFragments : List (NameAt × Expr) → Multiset Fragment
  | [] => 0
  | (_, e) :: rest => fragments e + fieldFragments rest

def branchFragments : List (Expr × Expr) → Multiset Fragment
  | [] => 0
  | (c, e) :: rest => fragments c + fragments e + branchFragments rest

def caseFragments : List (Pattern × Expr) → Multiset Fragment
  | [] => 0
  | (p, e) :: rest => p.fragments + fragments e + caseFragments rest

def definitionFragments : List (Definition Expr) → Multiset Fragment
  | [] => 0
  | d :: rest => d.head.fragments + fragments d.body + definitionFragments rest

end

mutual

theorem map_id_fragments (e : Expr) : e.fragments.map Fragment.id = e.nodeIds (fun _ => false) := by
  match e with
  | .mk id pos kind =>
    rw [fragments, nodeIds, Multiset.map_cons, map_id_kindFragments kind]
    rfl

theorem map_id_kindFragments (kind : ExprKind Expr) :
    (kindFragments kind).map Fragment.id = kindIds (fun _ => false) kind := by
  match kind with
  | .unit | .literal _ | .var _ | .operator _ | .accessor _ => rw [kindFragments, kindIds, Multiset.map_zero]
  | .call target args =>
    rw [kindFragments, kindIds, Multiset.map_add, map_id_fragments target, map_id_listFragments args]
  | .binary operands _ => rw [kindFragments, kindIds, map_id_listFragments operands]
  | .negate operand => rw [kindFragments, kindIds, map_id_fragments operand]
  | .tuple items | .list items => rw [kindFragments, kindIds, map_id_listFragments items]
  | .record fields | .update _ fields => rw [kindFragments, kindIds, map_id_fieldFragments fields]
  | .access target _ => rw [kindFragments, kindIds, map_id_fragments target]
  | .conditional branches otherwise =>
    rw [kindFragments, kindIds, Multiset.map_add, map_id_branchFragments branches, map_id_fragments otherwise]
  | .caseOf scrutinee branches =>
    rw [kindFragments, kindIds, Multiset.map_add, map_id_fragments scrutinee, map_id_caseFragments branches]
  | .lambda params body =>
    rw [kindFragments, kindIds, Multiset.map_add, Pattern.map_id_fragmentsList, map_id_fragments body]
  | .letIn definitions body =>
    rw [kindFragments, kindIds, Multiset.map_add, map_id_definitionFragments definitions, map_id_fragments body]

theorem map_id_listFragments (es : List Expr) :
    (listFragments es).map Fragment.id = listIds (fun _ => false) es := by
  match es with
  | [] => rw [listFragments, listIds, Multiset.map_zero]
  | e :: es => rw [listFragments, listIds, Multiset.map_add, map_id_fragments e, map_id_listFragments es]

theorem map_id_fieldFragments (fields : List (NameAt × Expr)) :
    (fieldFragments fields).map Fragment.id = fieldIds (fun _ => false) fields := by
  match fields with
  | [] => rw [fieldFragments, fieldIds, Multiset.map_zero]
  | (_, e) :: rest =>
    rw [fieldFragments, fieldIds, Multiset.map_add, map_id_fragments e, map_id_fieldFragments rest]

theorem map_id_branchFragments (branches : List (Expr × Expr)) :
    (branchFragments branches).map Fragment.id = branchIds (fun _ => false) branches := by
  match branches with
  | [] => rw [branchFragments, branchIds, Multiset.map_zero]
  | (c, e) :: rest =>
    rw [branchFragments, branchIds, Multiset.map_add, Multiset.map_add, map_id_fragments c, map_id_fragments e,
      map_id_branchFragments rest]

theorem map_id_caseFragments (branches : List (Pattern × Expr)) :
    (caseFragments branches).map Fragment.id = caseIds (fun _ => false) branches := by
  match branches with
  | [] => rw [caseFragments, caseIds, Multiset.map_zero]
  | (p, e) :: rest =>
    rw [caseFragments, caseIds, Multiset.map_add, Multiset.map_add, p.map_id_fragments, map_id_fragments e,
      map_id_caseFragments rest]

theorem map_id_definitionFragments (definitions : List (Definition Expr)) :
    (definitionFragments definitions).map Fragment.id = definitionIds (fun _ => false) definitions := by
  match definitions with
  | [] => rw [definitionFragments, definitionIds, Multiset.map_zero]
  | d :: rest =>
    rw [definitionFragments, definitionIds, Multiset.map_add, Multiset.map_add, d.head.map_id_fragments,
      map_id_fragments d.body, map_id_definitionFragments rest, if_neg (by simp)]

end

end Expr

def Definition.fragments (d : ValueDecl) : Multiset Fragment :=
  d.head.fragments + d.body.fragments

theorem Definition.map_id_fragments (d : ValueDecl) : d.fragments.map Fragment.id = d.nodeIds (fun _ => false) := by
  rw [fragments, nodeIds, Multiset.map_add, d.head.map_id_fragments, Expr.map_id_fragments]

/-! ### Rules -/

/-- Types of nodes, with what the types say and which of them are numbers. -/
structure Typing where
  has : NodeId → Ty → Prop
  read : Ty → Reading Node
  isNumber : Ty → Prop

def Typing.HasAll (T : Typing) (ids : List NodeId) (ts : List Ty) : Prop :=
  List.Forall₂ T.has ids ts

/-- What the type of an expression has to do with those of the nodes right inside of it. -/
def ExprKind.Obeys (T : Typing) (t : Ty) : ExprKind Expr → Prop
  | .conditional branches otherwise => ∀ conditions results last,
      T.HasAll (branches.map (·.1.id)) conditions → T.HasAll (branches.map (·.2.id)) results → T.has otherwise.id last →
      (∀ c ∈ conditions, T.read c = .union "Basics" "Bool" []) ∧ (∀ u ∈ results, T.read u = T.read t) ∧
        T.read last = T.read t
  | .list items => ∀ ts, T.HasAll (items.map Expr.id) ts →
      ∃ x, T.read t = .union "List" "List" [x] ∧ ∀ u ∈ ts, T.read u = x
  | .tuple items => ∀ ts, T.HasAll (items.map Expr.id) ts → T.read t = .tuple (ts.map T.read)
  | .lambda params body => ∀ ts result, T.HasAll (params.map Pattern.id) ts → T.has body.id result →
      T.read t = .arrows (ts.map T.read) (T.read result)
  | .call target args => ∀ function ts, T.has target.id function → T.HasAll (args.map Expr.id) ts →
      T.read function = .arrows (ts.map T.read) (T.read t)
  | .caseOf scrutinee branches => ∀ value patterns results, T.has scrutinee.id value →
      T.HasAll (branches.map (·.1.id)) patterns → T.HasAll (branches.map (·.2.id)) results →
      (∀ u ∈ patterns, T.read u = T.read value) ∧ ∀ u ∈ results, T.read u = T.read t
  | .negate operand => ∀ u, T.has operand.id u → T.read t = T.read u ∧ T.isNumber t
  | _ => True

/-- Whether the types of a node and of the nodes right inside of it, as far as they have types, fit together. -/
def Fragment.Obeys (T : Typing) : Fragment → Prop
  | .expr (.mk id _ kind) => ∀ t, T.has id t → kind.Obeys T t
  | .pattern (.mk id _ (.tuple items)) => ∀ t ts, T.has id t → T.HasAll (items.map Pattern.id) ts →
      T.read t = .tuple (ts.map T.read)
  | .pattern _ => True

/-- Whether a type is one of the number types, or a variable that stands for these only. -/
def Ty.IsNumber : Ty → Prop
  | .union m n args _ => Typeclass.number.admits m n args = true
  | .var v => v.typeclass = some .number
  | _ => False

/-- The types that a result gives to nodes, as far as they are known in full. They are compared without aliases, and
functions parameter by parameter. -/
def InferenceResult.typing (r : InferenceResult) : Typing where
  has id t := r.typeOf? id = some t ∧ .hole ∉ t.mentions false
  read := Ty.reading
  isNumber := Ty.IsNumber

end ElmInference
