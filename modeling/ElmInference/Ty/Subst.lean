import ElmInference.Ty.Basic

/-!
# Variables of a type, and substitution

`Ty.occurrences` lists variables in reading order. Arguments of the alias a type was written with
are not part of the type and do not count, while `Ty.subst` does reach them, so that what is
displayed stays in step with what is meant. Substitution rebuilds functions and records with their
smart constructors, so a base that becomes a record is merged and a result that becomes a function
is folded in.
-/

namespace ElmInference

namespace Ty

mutual

/-- Every variable of a type, repetitions included, in reading order. -/
def occurrences : Ty → List TyVar
  | .unit | .unknown | .inProgress | .growing _ => []
  | .var v => [v]
  | .union _ _ args _ => occurrencesList args
  | .tuple items => occurrencesList items
  | .record fields base _ _ => occurrencesFields fields ++ occurrencesBase base
  | .arrow params ret _ => occurrencesList params ++ occurrences ret

def occurrencesList : List Ty → List TyVar
  | [] => []
  | t :: ts => occurrences t ++ occurrencesList ts

def occurrencesFields : List (Name × Ty) → List TyVar
  | [] => []
  | (_, t) :: rest => occurrences t ++ occurrencesFields rest

def occurrencesBase : Option Ty → List TyVar
  | none => []
  | some t => occurrences t

end

def distinctVars : List TyVar → List TyVar
  | [] => []
  | v :: rest => v :: (distinctVars rest).filter (fun w => w.id != v.id)

/-- The variables of a type in order of first occurrence. -/
def vars (t : Ty) : List TyVar :=
  distinctVars t.occurrences

mutual

/-- Replaces variables; those without an image are kept. -/
def subst (f : TyVar → Option Ty) : Ty → Ty
  | .unit => .unit
  | .unknown => .unknown
  | .inProgress => .inProgress
  | .growing id => .growing id
  | .var v => (f v).getD (.var v)
  | .union m n args w => .union m n (substList f args) (substAlias f w)
  | .tuple items => .tuple (substList f items)
  | .record fields base w refs =>
    (recordWith (substFields f fields) (substBase f base) refs).writtenAs? (substAlias f w)
  | .arrow params ret w =>
    (function (substList f params) (subst f ret)).writtenAs? (substAlias f w)

def substList (f : TyVar → Option Ty) : List Ty → List Ty
  | [] => []
  | t :: ts => subst f t :: substList f ts

def substFields (f : TyVar → Option Ty) : List (Name × Ty) → List (Name × Ty)
  | [] => []
  | (name, t) :: rest => (name, subst f t) :: substFields f rest

def substBase (f : TyVar → Option Ty) : Option Ty → Option Ty
  | none => none
  | some t => some (subst f t)

def substAlias (f : TyVar → Option Ty) : Option (AliasUse Ty) → Option (AliasUse Ty)
  | none => none
  | some ⟨m, n, args⟩ => some ⟨m, n, substList f args⟩

end

/-- Replaces the variables listed in a table. -/
def substTable (table : Assoc VarId Ty) (t : Ty) : Ty :=
  t.subst (fun v => Assoc.get? table v.id)

theorem substList_eq_map (f : TyVar → Option Ty) (ts : List Ty) :
    substList f ts = ts.map (subst f) := by
  induction ts with
  | nil => rfl
  | cons t ts ih => simp [substList, ih]

theorem substFields_eq_map (f : TyVar → Option Ty) (fields : List (Name × Ty)) :
    substFields f fields = fields.map (fun field => (field.1, subst f field.2)) := by
  induction fields with
  | nil => rfl
  | cons field rest ih => simp [substFields, ih]

theorem occurrencesList_eq_flatMap (ts : List Ty) :
    occurrencesList ts = ts.flatMap occurrences := by
  induction ts with
  | nil => rfl
  | cons t ts ih => simp [occurrencesList, ih]

end Ty

end ElmInference
