import ElmInference.Store.Unify

/-!
# Type schemes

A scheme is a type with some of its variables quantified, so that each use gets its own copies of
them.
-/

namespace ElmInference

/-- A type with quantified variables. -/
structure Scheme where
  vars : List TyVar
  ty : Ty
deriving Inhabited

namespace Scheme

def mono (t : Ty) : Scheme := ⟨[], t⟩

def closed (t : Ty) : Scheme := ⟨t.vars, t⟩

/-- Allocates a flexible variable of the same name for each of the given ones. -/
def freshCopies : List TyVar → Store → Assoc VarId Ty × Store
  | [], s => ([], s)
  | v :: rest, s =>
    let (copy, s) := s.fresh v.name false
    let (copies, s) := freshCopies rest s
    ((v.id, .var copy) :: copies, s)

/-- The type with a fresh flexible variable in place of each quantified one. -/
def instantiate (scheme : Scheme) (s : Store) : Ty × Store :=
  if scheme.vars.isEmpty then (scheme.ty, s)
  else
    let (copies, s) := freshCopies scheme.vars s
    (scheme.ty.substTable copies, s)

/-- Quantifies the variables of a type that the environment does not mention. When there are none
the type is kept as it is, growing records included. -/
def generalize (s : Store) (t : Ty) (environment : List VarId) : Except Fault Scheme := do
  let zonked ← s.zonk t
  let vars := zonked.vars.filter (fun v => !environment.contains v.id)
  return if vars.isEmpty then mono t else ⟨vars, zonked⟩

def freeVars (s : Store) (ts : List Ty) : Except Fault (List VarId) := do
  let zonked ← ts.mapM s.zonk
  return (zonked.flatMap (fun t => t.vars.map TyVar.id)).eraseDups

end Scheme

end ElmInference
