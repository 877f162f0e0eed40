import ElmInference.Scheme

/-!
# Declared types

What a union or alias declaration means, in terms of its parameters. The variables of a declared
type belong to no store, so each use replaces all of them: parameters by the arguments given,
everything else by fresh variables.
-/

namespace ElmInference

/-- The type that a declaration defines. -/
inductive DeclaredType where
  | unionType (params : List TyVar) (type : Ty) (variants : List (List Ty))
  | typeAlias (params : List TyVar) (type : Ty)
deriving Inhabited

namespace DeclaredType

def params : DeclaredType → List TyVar
  | .unionType params _ _ => params
  | .typeAlias params _ => params

def type : DeclaredType → Ty
  | .unionType _ type _ => type
  | .typeAlias _ type => type

/-- The argument types of every constructor; an alias has none. -/
def variants : DeclaredType → List (List Ty)
  | .unionType _ _ variants => variants
  | .typeAlias _ _ => []

/-- Maps parameters to arguments, and to fresh variables when the arguments run out. -/
def paramImages : List TyVar → List Ty → Store → Assoc VarId Ty × Store
  | [], _, s => ([], s)
  | v :: vs, arg :: args, s =>
    let (images, s) := paramImages vs args s
    ((v.id, arg) :: images, s)
  | v :: vs, [], s =>
    let (copy, s) := s.fresh v.name false
    let (images, s) := paramImages vs [] s
    ((v.id, .var copy) :: images, s)

/-- Maps the variables that have no image yet to fresh ones. -/
def otherImages (images : Assoc VarId Ty) : List TyVar → Store → Assoc VarId Ty × Store
  | [], s => (images, s)
  | v :: vs, s =>
    if Assoc.has images v.id then otherImages images vs s
    else
      let (copy, s) := s.fresh v.name false
      otherImages (images ++ [(v.id, .var copy)]) vs s

def allVars (d : DeclaredType) : List TyVar :=
  d.type.vars ++ d.variants.flatten.flatMap Ty.vars

/-- Where the variables of a declared type go at one use. -/
def images (d : DeclaredType) (args : List Ty) (s : Store) : Assoc VarId Ty × Store :=
  let (images, s) := paramImages d.params args s
  otherImages images d.allVars s

def instantiate (d : DeclaredType) (args : List Ty) (s : Store) : Ty × Store :=
  let (images, s) := d.images args s
  (d.type.substTable images, s)

/-- The argument types of a constructor and the union type, for fresh type arguments. -/
def variant? (d : DeclaredType) (index : Nat) (s : Store) : Option (List Ty × Ty) × Store :=
  match d with
  | .unionType _ type variants =>
    match variants[index]? with
    | none => (none, s)
    | some args =>
      let (images, s) := d.images [] s
      (some (args.map (Ty.substTable images), type.substTable images), s)
  | .typeAlias _ _ => (none, s)

end DeclaredType

end ElmInference
