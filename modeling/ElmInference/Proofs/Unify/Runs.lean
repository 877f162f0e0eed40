import ElmInference.Store.Unify
import Mathlib.Tactic.Common

/-!
# Runs of unification

Unification recurses on what the store makes of its types, and the clock behind that recursion is of no
interest to anything but termination. This module says once what one level of unification can do:
`Unified R` lists every way in which a level can end when its recursive calls end as `R` allows, faults
included. A property of whole runs is then a relation `P` that holds of a run that is out of steps and
that `Unified P` implies, `unifyRounds_induct`; its proof is a case distinction over the constructors
below, and no other module unfolds the definition of unification.
-/

namespace ElmInference

/-- How a computation on a store ends: with a fault, or with an answer and the store it leaves. -/
abbrev Ending (α : Type) := Except Fault (α × Store)

abbrev Behaviour := Store → Ty → Ty → Ending Outcome → Prop

namespace StoreM

/-! ### Sequences -/

section Sequences

variable {α β : Type} {x : StoreM α} {f : α → StoreM β} {s s₁ : Store} {a : α} {fault : Fault}

theorem run_bind_ok (h : x s = .ok (a, s₁)) : (x >>= f) s = f a s₁ := by
  change (x s >>= fun p => f p.1 p.2) = f a s₁
  rw [h]
  rfl

theorem run_bind_error (h : x s = .error fault) : (x >>= f) s = .error fault := by
  change (x s >>= fun p => f p.1 p.2) = .error fault
  rw [h]
  rfl

theorem run_read_ok {g : Store → Except Fault α} (h : g s = .ok a) : read g s = .ok (a, s) := by
  rw [read, h]
  rfl

theorem run_read_error {g : Store → Except Fault α} (h : g s = .error fault) :
    read g s = .error fault := by
  rw [read, h]
  rfl

/-- A sequence ends with the fault of its first part, or as its second part does. -/
theorem run_bind_cases {C : Ending α → Prop} {C' : Ending β → Prop} (hx : C (x s))
    (hfault : ∀ fault, C (.error fault) → C' (.error fault)) (hok : ∀ a s₁, C (.ok (a, s₁)) → C' (f a s₁)) :
    C' ((x >>= f) s) := by
  cases hrun : x s with
  | error fault =>
    rw [run_bind_error hrun]
    exact hfault fault (hrun ▸ hx)
  | ok p =>
    obtain ⟨a, s₁⟩ := p
    rw [run_bind_ok hrun]
    exact hok a s₁ (hrun ▸ hx)

theorem run_read_cases {g : Store → Except Fault α} {C : Ending β → Prop}
    (hfault : ∀ fault, g s = .error fault → C (.error fault)) (hok : ∀ a, g s = .ok a → C (f a s)) :
    C ((read g >>= f) s) := by
  cases hg : g s with
  | error fault =>
    rw [run_bind_error (run_read_error hg)]
    exact hfault fault hg
  | ok a =>
    rw [run_bind_ok (run_read_ok hg)]
    exact hok a hg

end Sequences

/-! ### Lists of parts -/

inductive Pairs (R : Behaviour) : Store → List (Ty × Ty) → Ending Outcome → Prop
  | nil {s : Store} : Pairs R s [] (.ok (.ok (), s))
  | fault {s : Store} {a e : Ty} {rest : List (Ty × Ty)} {fault : Fault} :
      R s a e (.error fault) → Pairs R s ((a, e) :: rest) (.error fault)
  | later {s s₁ : Store} {a e : Ty} {rest : List (Ty × Ty)} {o : Outcome} {fault : Fault} :
      R s a e (.ok (o, s₁)) → Pairs R s₁ rest (.error fault) →
      Pairs R s ((a, e) :: rest) (.error fault)
  | cons {s s₁ s' : Store} {a e : Ty} {rest : List (Ty × Ty)} {o o' : Outcome} :
      R s a e (.ok (o, s₁)) → Pairs R s₁ rest (.ok (o', s')) →
      Pairs R s ((a, e) :: rest) (.ok (o.nested.andThen o', s'))

/-- The disagreements among common fields, once the outcome of one more field is known. -/
def noted (field : Name × Ty × Ty) :
    Outcome → List (Name × Ty × Ty) × Bool → List (Name × Ty × Ty) × Bool
  | .ok (), found => found
  | .error .infiniteType, found => (found.1, true)
  | .error _, found => (field :: found.1, found.2)

inductive Fields (R : Behaviour) :
    Store → List (Name × Ty × Ty) → Ending (List (Name × Ty × Ty) × Bool) → Prop
  | nil {s : Store} : Fields R s [] (.ok (([], false), s))
  | fault {s : Store} {name : Name} {a e : Ty} {rest : List (Name × Ty × Ty)} {fault : Fault} :
      R s a e (.error fault) → Fields R s ((name, a, e) :: rest) (.error fault)
  | later {s s₁ : Store} {name : Name} {a e : Ty} {rest : List (Name × Ty × Ty)} {o : Outcome}
      {fault : Fault} : R s a e (.ok (o, s₁)) → Fields R s₁ rest (.error fault) →
      Fields R s ((name, a, e) :: rest) (.error fault)
  | cons {s s₁ s' : Store} {name : Name} {a e : Ty} {rest : List (Name × Ty × Ty)} {o : Outcome}
      {found : List (Name × Ty × Ty) × Bool} :
      R s a e (.ok (o, s₁)) → Fields R s₁ rest (.ok (found, s')) →
      Fields R s ((name, a, e) :: rest) (.ok (noted (name, a, e) o found, s'))

/-- Common fields agree when the list of disagreements stays empty. -/
theorem ok_of_noted {field : Name × Ty × Ty} {o : Outcome} {found : List (Name × Ty × Ty) × Bool}
    (h : noted field o found = ([], false)) : o = .ok () ∧ found = ([], false) := by
  rcases o with e | ⟨⟩
  · cases e <;> simp [noted] at h
  · exact ⟨rfl, h⟩

/-- Common fields are unified like the pairs that they are. -/
theorem Fields.pairs_of_error {R : Behaviour} {s : Store} {fields : List (Name × Ty × Ty)} {fault : Fault}
    (h : Fields R s fields (.error fault)) : Pairs R s (fields.map Prod.snd) (.error fault) := by
  generalize hres : (Except.error fault : Ending (List (Name × Ty × Ty) × Bool)) = res at h
  induction h with
  | nil => cases hres
  | fault hfirst =>
    cases hres
    exact .fault hfirst
  | later hfirst _ ih =>
    cases hres
    exact .later hfirst (ih rfl)
  | cons _ _ _ => cases hres

theorem Fields.pairs_of_ok {R : Behaviour} {s s' : Store} {fields : List (Name × Ty × Ty)}
    {found : List (Name × Ty × Ty) × Bool} (h : Fields R s fields (.ok (found, s'))) :
    ∃ o, Pairs R s (fields.map Prod.snd) (.ok (o, s')) ∧ (found = ([], false) → o = .ok ()) := by
  generalize hres : (Except.ok (found, s') : Ending (List (Name × Ty × Ty) × Bool)) = res at h
  induction h generalizing found s' with
  | nil =>
    cases hres
    exact ⟨.ok (), .nil, fun _ => rfl⟩
  | fault _ => cases hres
  | later _ _ _ => cases hres
  | cons hfirst _ ih =>
    cases hres
    obtain ⟨o', hrest, hok⟩ := ih rfl
    refine ⟨_, .cons hfirst hrest, fun hnoted => ?_⟩
    obtain ⟨rfl, hfound⟩ := ok_of_noted hnoted
    exact hok hfound

/-! ### One level -/

/-- What can be learned from the end of two records whose common fields agree. -/
inductive Ends (R : Behaviour) (s : Store) (f g : Flattened) : Ending Outcome → Prop
  | settled : fieldsMissingIn f g = [] → fieldsMissingIn g f = [] →
      (f.tail = .unknown ∨ g.tail = .unknown ∨ f.tail = .closed ∧ g.tail = .closed) →
      Ends R s f g (.ok (.ok (), s))
  | tails {v w : TyVar} {res : Ending Outcome} : fieldsMissingIn f g = [] →
      fieldsMissingIn g f = [] → f.tail = .opened v → g.tail = .opened w →
      R s (.var v) (.var w) res → Ends R s f g res
  | rigid {v : TyVar} : v.rigid = true →
      (f.tail = .opened v ∧ g.tail = .closed ∨ f.tail = .closed ∧ g.tail = .opened v) →
      Ends R s f g (.ok (.mismatch, s))
  | close {v : TyVar} {res : Ending Outcome} : fieldsMissingIn f g = [] →
      fieldsMissingIn g f = [] → v.rigid = false →
      (f.tail = .opened v ∧ g.tail = .closed ∨ f.tail = .closed ∧ g.tail = .opened v) →
      solve v .emptyRecord s = res → Ends R s f g res
  | growLeft {res : Ending Outcome} : fieldsMissingIn f g = [] → fieldsMissingIn g f ≠ [] →
      grow f.tail (fieldsMissingIn g f) g.tail.toTy s = res → Ends R s f g res
  | growRight {res : Ending Outcome} : fieldsMissingIn f g ≠ [] → fieldsMissingIn g f = [] →
      grow g.tail (fieldsMissingIn f g) f.tail.toTy s = res → Ends R s f g res
  | growBoth {res : Ending Outcome} : fieldsMissingIn f g ≠ [] → fieldsMissingIn g f ≠ [] →
      growBoth f.tail g.tail (fieldsMissingIn f g) (fieldsMissingIn g f) s = res → Ends R s f g res

inductive Records (R : Behaviour) (s : Store) (a e : Ty) : Ending Outcome → Prop
  | lostLeft {fault : Fault} : s.flatten a = .error fault → Records R s a e (.error fault)
  | lostRight {f : Flattened} {fault : Fault} : s.flatten a = .ok f → s.flatten e = .error fault →
      Records R s a e (.error fault)
  | fields {f g : Flattened} {fault : Fault} : s.flatten a = .ok f → s.flatten e = .ok g →
      Fields R s (commonFields f g) (.error fault) → Records R s a e (.error fault)
  | infinite {f g : Flattened} {mismatched : List (Name × Ty × Ty)} {s₁ : Store} :
      s.flatten a = .ok f → s.flatten e = .ok g →
      Fields R s (commonFields f g) (.ok ((mismatched, true), s₁)) →
      Records R s a e (.ok (.error .infiniteType, s₁))
  | differ {f g : Flattened} {mismatched : List (Name × Ty × Ty)} {s₁ : Store} :
      s.flatten a = .ok f → s.flatten e = .ok g →
      Fields R s (commonFields f g) (.ok ((mismatched, false), s₁)) →
      (recordDiff f g mismatched).isEmpty = false →
      Records R s a e (.ok (.error (.record (recordDiff f g mismatched)), s₁))
  | agree {f g : Flattened} {s₁ : Store} {res : Ending Outcome} :
      s.flatten a = .ok f → s.flatten e = .ok g →
      Fields R s (commonFields f g) (.ok (([], false), s₁)) →
      (fieldsMissingIn f g = [] ∨ g.tail.canGrow = true) →
      (fieldsMissingIn g f = [] ∨ f.tail.canGrow = true) →
      Ends R s₁ f g res → Records R s a e res

/-- The outermost constructor of a type, as far as unification compares it. -/
inductive Shape where
  | unit
  | tuple (arity : Nat)
  | union (moduleName name : Name) (arity : Nat)
  | arrow
  | record
deriving DecidableEq

def shape? : Ty → Option Shape
  | .unit => some .unit
  | .tuple items => some (.tuple items.length)
  | .union m n args _ => some (.union m n args.length)
  | .arrow _ _ _ => some .arrow
  | .record _ _ _ _ => some .record
  | .growing _ => some .record
  | .var _ => none
  | .unknown => none
  | .inProgress => none

/-- What unifying two types that are not solved variables can end in. -/
inductive Resolved (R : Behaviour) (s : Store) : Ty → Ty → Ending Outcome → Prop
  | accepted {a e : Ty} : (acceptsAll a = true ∨ acceptsAll e = true) →
      Resolved R s a e (.ok (.ok (), s))
  | same {v w : TyVar} : v.id = w.id → Resolved R s (.var v) (.var w) (.ok (.ok (), s))
  | vars {v w : TyVar} {res : Ending Outcome} : v.id ≠ w.id → unifyVars v w s = res →
      Resolved R s (.var v) (.var w) res
  | varLeft {v : TyVar} {t : Ty} {shape : Shape} {res : Ending Outcome} : shape? t = some shape →
      unifyVar v t s = res → Resolved R s (.var v) t res
  | varRight {v : TyVar} {t : Ty} {shape : Shape} {res : Ending Outcome} : shape? t = some shape →
      unifyVar v t s = res → Resolved R s t (.var v) res
  | unit : Resolved R s .unit .unit (.ok (.ok (), s))
  | tuple {items items' : List Ty} {res : Ending Outcome} : items.length = items'.length →
      Pairs R s (items.zip items') res → Resolved R s (.tuple items) (.tuple items') res
  | union {m n : Name} {args args' : List Ty} {w w' : Option (AliasUse Ty)} {res : Ending Outcome} :
      args.length = args'.length → Pairs R s (args.zip args') res →
      Resolved R s (.union m n args w) (.union m n args' w') res
  | params {params params' : List Ty} {ret ret' : Ty} {w w' : Option (AliasUse Ty)} {fault : Fault} :
      Pairs R s (params.zip params') (.error fault) →
      Resolved R s (.arrow params ret w) (.arrow params' ret' w') (.error fault)
  | rest {params params' : List Ty} {ret ret' : Ty} {w w' : Option (AliasUse Ty)} {fault : Fault}
      {o : Outcome} {s₁ : Store} : Pairs R s (params.zip params') (.ok (o, s₁)) →
      R s₁ (Ty.dropParams params ret (min params.length params'.length))
        (Ty.dropParams params' ret' (min params.length params'.length)) (.error fault) →
      Resolved R s (.arrow params ret w) (.arrow params' ret' w') (.error fault)
  | arrow {params params' : List Ty} {ret ret' : Ty} {w w' : Option (AliasUse Ty)}
      {o o' : Outcome} {s₁ s' : Store} : Pairs R s (params.zip params') (.ok (o, s₁)) →
      R s₁ (Ty.dropParams params ret (min params.length params'.length))
        (Ty.dropParams params' ret' (min params.length params'.length)) (.ok (o', s')) →
      Resolved R s (.arrow params ret w) (.arrow params' ret' w') (.ok (o.andThen o'.nested, s'))
  | record {a e : Ty} {res : Ending Outcome} : shape? a = some .record → shape? e = some .record →
      Records R s a e res → Resolved R s a e res
  | clash {a e : Ty} {shape shape' : Shape} : shape? a = some shape → shape? e = some shape' →
      shape ≠ shape' → Resolved R s a e (.ok (.mismatch, s))

/-- What one level of unification can end in, when its recursive calls end as `R` allows. -/
inductive Unified (R : Behaviour) (s : Store) (a e : Ty) : Ending Outcome → Prop
  | lostLeft {fault : Fault} : s.resolve a = .error fault → Unified R s a e (.error fault)
  | lostRight {fault : Fault} : s.resolve e = .error fault → Unified R s a e (.error fault)
  | resolved {a' e' : Ty} {res : Ending Outcome} : s.resolve a = .ok a' → s.resolve e = .ok e' →
      Resolved R s a' e' res → Unified R s a e res

/-! ### Runs are among the endings listed -/

section Covered

variable {R : Behaviour} {unify : Ty → Ty → StoreM Outcome}
  (hunify : ∀ s a e, R s a e (unify a e s))

include hunify

theorem pairs_run (s : Store) (pairs : List (Ty × Ty)) : Pairs R s pairs (unifyPairs unify pairs s) := by
  induction pairs generalizing s with
  | nil => exact .nil
  | cons pair rest ih =>
    obtain ⟨a, e⟩ := pair
    rw [unifyPairs]
    refine run_bind_cases (hunify s a e) (fun _ hfirst => .fault hfirst) fun o s₁ hfirst => ?_
    exact run_bind_cases (ih s₁) (fun _ hrest => .later hfirst hrest) fun o' s' hrest => .cons hfirst hrest

theorem fields_run (s : Store) (fields : List (Name × Ty × Ty)) :
    Fields R s fields (unifyFields unify fields s) := by
  induction fields generalizing s with
  | nil => exact .nil
  | cons field rest ih =>
    obtain ⟨name, a, e⟩ := field
    rw [unifyFields]
    refine run_bind_cases (hunify s a e) (fun _ hfirst => .fault hfirst) fun o s₁ hfirst => ?_
    refine run_bind_cases (ih s₁) (fun _ hrest => .later hfirst hrest) fun out s' hrest => ?_
    obtain ⟨mismatched, infinite⟩ := out
    have hcons : Fields R s ((name, a, e) :: rest) _ := .cons hfirst hrest
    rcases o with err | ⟨⟩
    · cases err <;> exact hcons
    · exact hcons

theorem ends_run (s : Store) (f g : Flattened) : Ends R s f g (joinEnds unify f g s) := by
  unfold joinEnds
  cases hg : fieldsMissingIn g f with
  | nil =>
    cases hf : fieldsMissingIn f g with
    | nil =>
      simp only [List.isEmpty_nil]
      cases hft : f.tail with
      | unknown => exact .settled hf hg (.inl hft)
      | closed =>
        cases hgt : g.tail with
        | unknown => exact .settled hf hg (.inr (.inl hgt))
        | closed => exact .settled hf hg (.inr (.inr ⟨hft, hgt⟩))
        | opened v =>
          simp only [unifyTails]
          cases hv : v.rigid with
          | true => exact .rigid hv (.inr ⟨hft, hgt⟩)
          | false => exact .close hf hg hv (.inr ⟨hft, hgt⟩) rfl
      | opened v =>
        cases hgt : g.tail with
        | unknown => exact .settled hf hg (.inr (.inl hgt))
        | closed =>
          simp only [unifyTails]
          cases hv : v.rigid with
          | true => exact .rigid hv (.inl ⟨hft, hgt⟩)
          | false => exact .close hf hg hv (.inl ⟨hft, hgt⟩) rfl
        | opened w => exact .tails hf hg hft hgt (hunify s _ _)
    | cons field fields =>
      refine .growRight (by simp [hf]) hg ?_
      rw [hf]
      rfl
  | cons field fields =>
    cases hf : fieldsMissingIn f g with
    | nil =>
      refine .growLeft hf (by simp [hg]) ?_
      rw [hg]
      rfl
    | cons field' fields' =>
      refine .growBoth (by simp [hf]) (by simp [hg]) ?_
      rw [hf, hg]
      rfl

omit hunify in
/-- Nothing differs when the common fields agree and what one side lacks can be added to it. -/
theorem isEmpty_recordDiff {f g : Flattened} {mismatched : List (Name × Ty × Ty)}
    (h : (recordDiff f g mismatched).isEmpty = true) :
    mismatched = [] ∧ (fieldsMissingIn f g = [] ∨ g.tail.canGrow = true) ∧
      (fieldsMissingIn g f = [] ∨ f.tail.canGrow = true) := by
  simp only [RecordDiff.isEmpty, recordDiff, Bool.and_eq_true, List.isEmpty_iff] at h
  obtain ⟨⟨hextra, hmissing⟩, hmismatched⟩ := h
  refine ⟨hmismatched, ?_, ?_⟩
  · cases hgrow : g.tail.canGrow with
    | true => exact .inr rfl
    | false => exact .inl (by simpa [hgrow] using hextra)
  · cases hgrow : f.tail.canGrow with
    | true => exact .inr rfl
    | false => exact .inl (by simpa [hgrow] using hmissing)

theorem records_run (s : Store) (a e : Ty) : Records R s a e (unifyRecords unify a e s) := by
  unfold unifyRecords
  refine run_read_cases (fun _ ha => .lostLeft ha) fun f ha => ?_
  refine run_read_cases (fun _ he => .lostRight ha he) fun g he => ?_
  rw [unifyFlattened]
  refine run_bind_cases (fields_run hunify s (commonFields f g)) (fun _ hfields => .fields ha he hfields)
    fun out s₁ hfields => ?_
  obtain ⟨mismatched, infinite⟩ := out
  cases infinite with
  | true => exact .infinite ha he hfields
  | false =>
    cases hdiff : (recordDiff f g mismatched).isEmpty with
    | false =>
      simp only [Bool.false_eq_true, if_false, hdiff, Bool.not_false, if_true]
      exact .differ ha he hfields hdiff
    | true =>
      obtain ⟨rfl, hextra, hmissing⟩ := isEmpty_recordDiff hdiff
      simp only [Bool.false_eq_true, if_false, hdiff, Bool.not_true]
      exact .agree ha he hfields hextra hmissing (ends_run hunify s₁ f g)

theorem arrows_run (s : Store) (params params' : List Ty) (ret ret' : Ty)
    (w w' : Option (AliasUse Ty)) : Resolved R s (.arrow params ret w) (.arrow params' ret' w')
      (unifyArrows unify params params' ret ret' s) := by
  unfold unifyArrows
  refine run_bind_cases (pairs_run hunify s (params.zip params')) (fun _ hpairs => .params hpairs) fun o s₁ hpairs => ?_
  exact run_bind_cases (hunify s₁ _ _) (fun _ hrest => .rest hpairs hrest) fun o' s' hrest => .arrow hpairs hrest

omit hunify in
theorem exists_shape {t : Ty} (haccepts : acceptsAll t = false) (hvar : ∀ v, t ≠ .var v) :
    ∃ shape, shape? t = some shape := by
  cases t with
  | var v => exact absurd rfl (hvar v)
  | unknown | inProgress => cases haccepts
  | _ => exact ⟨_, rfl⟩

omit hunify in
theorem shape_of_isRecord {t : Ty} (h : isRecord t = true) : shape? t = some .record := by
  cases t with
  | record _ _ _ _ | growing _ => rfl
  | _ => cases h

theorem resolved_run (s : Store) (a e : Ty) : Resolved R s a e (unifyResolved unify a e s) := by
  unfold unifyResolved
  by_cases haccepts : (acceptsAll a || acceptsAll e) = true
  · rw [if_pos haccepts]
    exact .accepted (by simpa using haccepts)
  rw [if_neg haccepts]
  obtain ⟨ha, he⟩ : acceptsAll a = false ∧ acceptsAll e = false := by simpa using haccepts
  split
  · next v w =>
    by_cases hid : v.id = w.id
    · rw [if_pos hid]
      exact .same hid
    · rw [if_neg hid]
      exact .vars hid rfl
  · next v hvar =>
    obtain ⟨shape, hshape⟩ := exists_shape he hvar
    exact .varLeft hshape rfl
  · next v hvar =>
    obtain ⟨shape, hshape⟩ := exists_shape ha hvar
    exact .varRight hshape rfl
  · exact .unit
  · next items items' =>
    by_cases hlength : items.length = items'.length
    · rw [if_pos hlength]
      exact .tuple hlength (pairs_run hunify s _)
    · rw [if_neg hlength]
      exact .clash rfl rfl (by simpa using hlength)
  · next m n args w m' n' args' w' =>
    by_cases hsame : m = m' ∧ n = n' ∧ args.length = args'.length
    · rw [if_pos hsame]
      obtain ⟨rfl, rfl, hlength⟩ := hsame
      exact .union hlength (pairs_run hunify s _)
    · rw [if_neg hsame]
      exact .clash rfl rfl (by simpa using hsame)
  · next params ret w params' ret' w' => exact arrows_run hunify s params params' ret ret' w w'
  · next hleft hright _ hunit htuple hunion harrow =>
    obtain ⟨shape, hshape⟩ := exists_shape ha hleft
    obtain ⟨shape', hshape'⟩ := exists_shape he hright
    by_cases hrecords : (isRecord a && isRecord e) = true
    · rw [if_pos hrecords]
      obtain ⟨hra, hre⟩ : isRecord a = true ∧ isRecord e = true := by simpa using hrecords
      exact .record (shape_of_isRecord hra) (shape_of_isRecord hre) (records_run hunify s a e)
    · rw [if_neg hrecords]
      refine .clash hshape hshape' ?_
      rintro rfl
      -- two types of one shape are two records, as all other pairs were compared before
      have hsame := hshape.trans hshape'.symm
      cases a with
      | var v => exact hleft v rfl
      | unknown | inProgress => cases ha
      | unit =>
        cases e with
        | unit => exact hunit rfl rfl
        | _ => simp [shape?] at hsame
      | tuple items =>
        cases e with
        | tuple items' => exact htuple _ _ rfl rfl
        | _ => simp [shape?] at hsame
      | union m n args w =>
        cases e with
        | union m' n' args' w' => exact hunion _ _ _ _ _ _ _ _ rfl rfl
        | _ => simp [shape?] at hsame
      | arrow params ret w =>
        cases e with
        | arrow params' ret' w' => exact harrow _ _ _ _ _ _ rfl rfl
        | _ => simp [shape?] at hsame
      | record _ _ _ _ | growing _ =>
        cases e with
        | record _ _ _ _ | growing _ => exact hrecords rfl
        | _ => simp [shape?] at hsame

theorem unified_run (s : Store) (a e : Ty) : Unified R s a e (unifyStep unify a e s) := by
  unfold unifyStep
  refine run_read_cases (fun _ ha => .lostLeft ha) fun a' ha => ?_
  refine run_read_cases (fun _ he => .lostRight he) fun e' he => ?_
  exact .resolved ha he (resolved_run hunify s a' e')

end Covered

/-! ### Weaker behaviours -/

section Weaker

variable {R R' : Behaviour} (hR : ∀ s a e res, R s a e res → R' s a e res) {s : Store}

include hR

theorem Pairs.mono {pairs : List (Ty × Ty)} {res : Ending Outcome} (h : Pairs R s pairs res) :
    Pairs R' s pairs res := by
  induction h with
  | nil => exact .nil
  | fault hfirst => exact .fault (hR _ _ _ _ hfirst)
  | later hfirst _ ih => exact .later (hR _ _ _ _ hfirst) ih
  | cons hfirst _ ih => exact .cons (hR _ _ _ _ hfirst) ih

theorem Fields.mono {fields : List (Name × Ty × Ty)} {res : Ending (List (Name × Ty × Ty) × Bool)}
    (h : Fields R s fields res) : Fields R' s fields res := by
  induction h with
  | nil => exact .nil
  | fault hfirst => exact .fault (hR _ _ _ _ hfirst)
  | later hfirst _ ih => exact .later (hR _ _ _ _ hfirst) ih
  | cons hfirst _ ih => exact .cons (hR _ _ _ _ hfirst) ih

theorem Ends.mono {f g : Flattened} {res : Ending Outcome} (h : Ends R s f g res) :
    Ends R' s f g res := by
  cases h with
  | settled hf hg htails => exact .settled hf hg htails
  | tails hf hg hft hgt hrun => exact .tails hf hg hft hgt (hR _ _ _ _ hrun)
  | rigid hrigid htails => exact .rigid hrigid htails
  | close hf hg hrigid htails hrun => exact .close hf hg hrigid htails hrun
  | growLeft hf hg hrun => exact .growLeft hf hg hrun
  | growRight hf hg hrun => exact .growRight hf hg hrun
  | growBoth hf hg hrun => exact .growBoth hf hg hrun

theorem Records.mono {a e : Ty} {res : Ending Outcome} (h : Records R s a e res) :
    Records R' s a e res := by
  cases h with
  | lostLeft hlost => exact .lostLeft hlost
  | lostRight ha hlost => exact .lostRight ha hlost
  | fields ha he hfields => exact .fields ha he (hfields.mono hR)
  | infinite ha he hfields => exact .infinite ha he (hfields.mono hR)
  | differ ha he hfields hdiff => exact .differ ha he (hfields.mono hR) hdiff
  | agree ha he hfields hextra hmissing hends =>
    exact .agree ha he (hfields.mono hR) hextra hmissing (hends.mono hR)

theorem Resolved.mono {a e : Ty} {res : Ending Outcome} (h : Resolved R s a e res) :
    Resolved R' s a e res := by
  cases h with
  | accepted haccepts => exact .accepted haccepts
  | same hid => exact .same hid
  | vars hne hrun => exact .vars hne hrun
  | varLeft hshape hrun => exact .varLeft hshape hrun
  | varRight hshape hrun => exact .varRight hshape hrun
  | unit => exact .unit
  | tuple hlength hpairs => exact .tuple hlength (hpairs.mono hR)
  | union hlength hpairs => exact .union hlength (hpairs.mono hR)
  | params hpairs => exact .params (hpairs.mono hR)
  | rest hpairs hrest => exact .rest (hpairs.mono hR) (hR _ _ _ _ hrest)
  | arrow hpairs hrest => exact .arrow (hpairs.mono hR) (hR _ _ _ _ hrest)
  | record ha he hrecords => exact .record ha he (hrecords.mono hR)
  | clash ha he hne => exact .clash ha he hne

theorem Unified.mono {a e : Ty} {res : Ending Outcome} (h : Unified R s a e res) :
    Unified R' s a e res := by
  cases h with
  | lostLeft hlost => exact .lostLeft hlost
  | lostRight hlost => exact .lostRight hlost
  | resolved ha he hres => exact .resolved ha he (hres.mono hR)

end Weaker

/-! ### Induction over runs -/

section Induction

variable {P : Behaviour} (hstop : ∀ s a e, P s a e (.error .diverged))
  (hstep : ∀ s a e res, Unified P s a e res → P s a e res)

include hstep

theorem unifyWithin_induct {beyond : Ty → Ty → StoreM Outcome}
    (hbeyond : ∀ s a e, P s a e (beyond a e s)) (n : Nat) (s : Store) (a e : Ty) :
    P s a e (unifyWithin beyond n a e s) := by
  induction n generalizing s a e with
  | zero => exact hbeyond s a e
  | succ n ih => exact hstep _ _ _ _ (unified_run ih s a e)

include hstop

theorem unifyRounds_induct (n : Nat) (s : Store) (a e : Ty) : P s a e (unifyRounds n a e s) := by
  induction n generalizing s a e with
  | zero => exact hstop s a e
  | succ n ih => exact unifyWithin_induct hstep ih _ s a e

theorem unify_induct (s : Store) (a e : Ty) : P s a e (unify a e s) :=
  unifyRounds_induct hstop hstep _ s a e

end Induction

end StoreM

end ElmInference
