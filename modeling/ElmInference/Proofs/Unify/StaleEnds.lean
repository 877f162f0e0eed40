import ElmInference.Proofs.Unify.Acyclicity

/-!
# Ends that are solved in the meantime

Two records are flattened before their common fields are unified, and what they end in is solved after
that. Unifying the fields can solve such an end, which is then stale: solving it again is a fault. This
module shows that there is no other way for unification of types of a reached store to fault.

`Calls` says which pairs of types the unification of a pair comes to, and in which stores, and `Stale` says
when the ends of two records are stale. Unification faults exactly when it visits records with a stale end.
-/

namespace ElmInference

namespace StoreM

open Store Relation

/-! ### Frames -/

/-- Two types about to be unified, and the store at that moment. -/
structure Frame where
  store : Store
  actual : Ty
  expected : Ty

structure Frame.Owned (frame : Frame) : Prop where
  sane : frame.store.Sane
  actual : frame.store.Owns frame.actual
  expected : frame.store.Owns frame.expected

/-- The frames that unifying pairs from left to right comes to. -/
inductive Comes : Store → List (Ty × Ty) → Frame → Prop
  | first {s : Store} {a e : Ty} {rest : List (Ty × Ty)} : Comes s ((a, e) :: rest) ⟨s, a, e⟩
  | later {s s₁ : Store} {a e : Ty} {rest : List (Ty × Ty)} {o : Outcome} {frame : Frame} :
      unify a e s = .ok (o, s₁) → Comes s₁ rest frame → Comes s ((a, e) :: rest) frame

/-- Whether a type is a record, and what it flattens to. -/
def ReadsAs (s : Store) (t : Ty) (f : Flattened) : Prop :=
  ∃ r, s.resolve t = .ok r ∧ isRecord r = true ∧ s.flatten r = .ok f

/-- The frames that one level of unification comes to. -/
inductive Calls : Frame → Frame → Prop
  | item {s : Store} {a e : Ty} {items items' : List Ty} {frame : Frame} :
      s.resolve a = .ok (.tuple items) → s.resolve e = .ok (.tuple items') →
      items.length = items'.length → Comes s (items.zip items') frame → Calls ⟨s, a, e⟩ frame
  | arg {s : Store} {a e : Ty} {m n : Name} {args args' : List Ty} {w w' : Option (AliasUse Ty)}
      {frame : Frame} : s.resolve a = .ok (.union m n args w) →
      s.resolve e = .ok (.union m n args' w') → args.length = args'.length →
      Comes s (args.zip args') frame → Calls ⟨s, a, e⟩ frame
  | param {s : Store} {a e : Ty} {params params' : List Ty} {ret ret' : Ty}
      {w w' : Option (AliasUse Ty)} {frame : Frame} : s.resolve a = .ok (.arrow params ret w) →
      s.resolve e = .ok (.arrow params' ret' w') → Comes s (params.zip params') frame →
      Calls ⟨s, a, e⟩ frame
  | rest {s s₁ : Store} {a e : Ty} {params params' : List Ty} {ret ret' : Ty}
      {w w' : Option (AliasUse Ty)} {o : Outcome} : s.resolve a = .ok (.arrow params ret w) →
      s.resolve e = .ok (.arrow params' ret' w') →
      unifyPairs unify (params.zip params') s = .ok (o, s₁) →
      Calls ⟨s, a, e⟩ ⟨s₁, Ty.dropParams params ret (min params.length params'.length),
        Ty.dropParams params' ret' (min params.length params'.length)⟩
  | field {s : Store} {a e : Ty} {f g : Flattened} {frame : Frame} : ReadsAs s a f → ReadsAs s e g →
      Comes s ((commonFields f g).map Prod.snd) frame → Calls ⟨s, a, e⟩ frame
  | ends {s s₁ : Store} {a e : Ty} {f g : Flattened} {v w : TyVar} : ReadsAs s a f → ReadsAs s e g →
      unifyFields unify (commonFields f g) s = .ok (([], false), s₁) → fieldsMissingIn f g = [] →
      fieldsMissingIn g f = [] → f.tail = .opened v → g.tail = .opened w →
      Calls ⟨s, a, e⟩ ⟨s₁, .var v, .var w⟩

/-- The frames that unification comes to. -/
abbrev Visits : Frame → Frame → Prop :=
  ReflTransGen Calls

/-- The end of two records that is to be solved, by which type and in which store, when their common fields
agree. -/
inductive Due (s : Store) (f g : Flattened) : Store → TyVar → Ty → Prop
  | close {v : TyVar} : fieldsMissingIn f g = [] → fieldsMissingIn g f = [] →
      (f.tail = .opened v ∧ g.tail = .closed ∨ f.tail = .closed ∧ g.tail = .opened v) →
      Due s f g s v .emptyRecord
  | growLeft {v : TyVar} : fieldsMissingIn f g = [] → fieldsMissingIn g f ≠ [] → f.tail = .opened v →
      Due s f g s v (Ty.extension g.tail.toTy (fieldsMissingIn g f))
  | growRight {v : TyVar} : fieldsMissingIn f g ≠ [] → fieldsMissingIn g f = [] → g.tail = .opened v →
      Due s f g s v (Ty.extension f.tail.toTy (fieldsMissingIn f g))
  | first {v : TyVar} : fieldsMissingIn f g ≠ [] → fieldsMissingIn g f ≠ [] →
      sameEnd f.tail g.tail = false → f.tail = .opened v →
      Due s f g s.extended v (Ty.extension (.var ⟨s.size, "a", false⟩) (fieldsMissingIn g f))
  | second {v : TyVar} {s₁ : Store} : fieldsMissingIn f g ≠ [] → fieldsMissingIn g f ≠ [] →
      sameEnd f.tail g.tail = false →
      grow f.tail (fieldsMissingIn g f) (.var ⟨s.size, "a", false⟩) s.extended = .ok (.ok (), s₁) →
      g.tail = .opened v →
      Due s f g s₁ v (Ty.extension (.var ⟨s.size, "a", false⟩) (fieldsMissingIn f g))

/-- Two records with a stale end: their fields agree, and the variable that is to be solved next has a
solution by then. An end that occurs in the record it is to be solved by does not come to that. -/
inductive Stale : Frame → VarId → Prop
  | mk {s s₁ s₂ : Store} {a e t u : Ty} {f g : Flattened} {v : TyVar} : ReadsAs s a f → ReadsAs s e g →
      unifyFields unify (commonFields f g) s = .ok (([], false), s₁) →
      (recordDiff f g []).isEmpty = true → Due s₁ f g s₂ v t → v.rigid = false →
      s₂.solution? v.id = some u → ¬ s₂.Leads false t (.var v.id) → Stale ⟨s, a, e⟩ v.id

/-! ### Frames are owned -/

variable {s s₁ s' : Store} {a e : Ty} {frame : Frame}

theorem Lands.kept {α : Type} {F : Fault → Prop} {x : α} (hsane : s.Sane)
    (h : Lands F (s, {r | s.Has r}) (.ok (x, s'))) : s'.Sane ∧ s.Extends s' := by
  obtain ⟨Q', hmoves⟩ := h
  exact ⟨(hmoves.tidy hsane.tidy).sane, hmoves.extends⟩

theorem kept_unify {o : Outcome} (hsane : s.Sane) (ha : s.Owns a) (he : s.Owns e)
    (hrun : unify a e s = .ok (o, s')) : s'.Sane ∧ s.Extends s' :=
  Lands.kept hsane (hrun ▸ safe_unify s a e _ hsane.tidy ha he)

theorem kept_pairs {pairs : List (Ty × Ty)} {o : Outcome} (hsane : s.Sane)
    (hown : ∀ p ∈ pairs, s.Owns p.1 ∧ s.Owns p.2) (hrun : unifyPairs unify pairs s = .ok (o, s')) :
    s'.Sane ∧ s.Extends s' :=
  Lands.kept hsane (hrun ▸ lands_pairs (pairs_run safe_unify s pairs) hsane.tidy hown)

theorem kept_fields {fields : List (Name × Ty × Ty)} {found : List (Name × Ty × Ty) × Bool}
    (hsane : s.Sane) (hown : ∀ p ∈ fields.map Prod.snd, s.Owns p.1 ∧ s.Owns p.2)
    (hrun : unifyFields unify fields s = .ok (found, s')) : s'.Sane ∧ s.Extends s' :=
  Lands.kept hsane (hrun ▸ lands_fields (fields_run safe_unify s fields) hsane.tidy hown)

theorem ReadsAs.within {t : Ty} {f : Flattened} (h : ReadsAs s t f) (hsane : s.Sane)
    (ht : s.Owns t) : f.Within s.Has := by
  obtain ⟨r, hresolve, -, hflat⟩ := h
  exact within_flatten hsane.tidy (within_resolve hsane.tidy ht hresolve) hflat

/-- The ends of two records are variables of the store. -/
theorem owns_tails {f : Flattened} {v : TyVar} (hf : f.Within s.Has) (h : f.tail = .opened v) :
    s.Owns (.var v) :=
  within_opened (Q := {r | s.Has r}) hf h

theorem owned_of_comes {pairs : List (Ty × Ty)} (h : Comes s pairs frame) (hsane : s.Sane)
    (hown : ∀ p ∈ pairs, s.Owns p.1 ∧ s.Owns p.2) : frame.Owned := by
  induction h with
  | first =>
    obtain ⟨ha, he⟩ := hown _ List.mem_cons_self
    exact ⟨hsane, ha, he⟩
  | later hrun _ ih =>
    obtain ⟨ha, he⟩ := hown _ List.mem_cons_self
    obtain ⟨hsane₁, hext⟩ := kept_unify hsane ha he hrun
    refine ih hsane₁ (fun p hp => ?_)
    obtain ⟨ha, he⟩ := hown p (List.mem_cons_of_mem _ hp)
    exact ⟨hext.owns ha, hext.owns he⟩

theorem owns_common {f g : Flattened} (hf : f.Within s.Has) (hg : g.Within s.Has) :
    ∀ p ∈ (commonFields f g).map Prod.snd, s.Owns p.1 ∧ s.Owns p.2 :=
  within_commonFields (Q := {r | s.Has r}) hf hg

theorem owns_zip {ts us : List Ty} (hts : ∀ t ∈ ts, s.Owns t) (hus : ∀ t ∈ us, s.Owns t) :
    ∀ p ∈ ts.zip us, s.Owns p.1 ∧ s.Owns p.2 :=
  within_zip (Q := {r | s.Has r}) hts hus

theorem owns_resolve (hsane : s.Sane) {t r : Ty} (ht : s.Owns t) (h : s.resolve t = .ok r) : s.Owns r :=
  (resolvesTo_of_resolve h).owns hsane.closed ht

theorem Calls.owned {frame frame' : Frame} (h : Calls frame frame') (howned : frame.Owned) :
    frame'.Owned := by
  obtain ⟨hsane, ha, he⟩ := howned
  cases h with
  | item hra hre _ hcomes =>
    exact owned_of_comes hcomes hsane (owns_zip (Ty.within_tuple.mp (owns_resolve hsane ha hra))
      (Ty.within_tuple.mp (owns_resolve hsane he hre)))
  | arg hra hre _ hcomes =>
    exact owned_of_comes hcomes hsane (owns_zip (Ty.within_union.mp (owns_resolve hsane ha hra))
      (Ty.within_union.mp (owns_resolve hsane he hre)))
  | param hra hre hcomes =>
    exact owned_of_comes hcomes hsane (owns_zip (Ty.within_arrow.mp (owns_resolve hsane ha hra)).1
      (Ty.within_arrow.mp (owns_resolve hsane he hre)).1)
  | rest hra hre hpairs =>
    have ha' := owns_resolve hsane ha hra
    have he' := owns_resolve hsane he hre
    obtain ⟨hsane₁, hext⟩ := kept_pairs hsane
      (owns_zip (Ty.within_arrow.mp ha').1 (Ty.within_arrow.mp he').1) hpairs
    exact ⟨hsane₁, hext.owns (Ty.within_dropParams _ ha'), hext.owns (Ty.within_dropParams _ he')⟩
  | field hf hg hcomes =>
    exact owned_of_comes hcomes hsane (owns_common (hf.within hsane ha) (hg.within hsane he))
  | ends hf hg hfields _ _ hft hgt =>
    have hf' := hf.within hsane ha
    have hg' := hg.within hsane he
    obtain ⟨hsane₁, hext⟩ := kept_fields hsane (owns_common hf' hg') hfields
    exact ⟨hsane₁, hext.owns (owns_tails hf' hft), hext.owns (owns_tails hg' hgt)⟩

/-! ### A fault below is a fault -/

theorem pairs_of_comes {pairs : List (Ty × Ty)} {fault : Fault} (h : Comes s pairs frame)
    (hrun : unify frame.actual frame.expected frame.store = .error fault) :
    unifyPairs unify pairs s = .error fault := by
  induction h with
  | first =>
    rw [unifyPairs]
    exact run_bind_error hrun
  | later hfirst _ ih =>
    rw [unifyPairs, run_bind_ok hfirst]
    exact run_bind_error (ih hrun)

theorem fields_of_comes {fields : List (Name × Ty × Ty)} {fault : Fault}
    (h : Comes s (fields.map Prod.snd) frame)
    (hrun : unify frame.actual frame.expected frame.store = .error fault) :
    unifyFields unify fields s = .error fault := by
  induction fields generalizing s with
  | nil => cases h
  | cons field rest ih =>
    obtain ⟨name, found, required⟩ := field
    cases h with
    | first =>
      rw [unifyFields]
      exact run_bind_error hrun
    | later hfirst hlater =>
      rw [unifyFields, run_bind_ok hfirst]
      exact run_bind_error (ih hlater)

theorem unifyStep_resolved {unify : Ty → Ty → StoreM Outcome} {a' e' : Ty} (ha : s.resolve a = .ok a')
    (he : s.resolve e = .ok e') : unifyStep unify a e s = unifyResolved unify a' e' s := by
  rw [unifyStep, run_bind_ok (run_read_ok ha), run_bind_ok (run_read_ok he)]

theorem unifyResolved_tuple {unify : Ty → Ty → StoreM Outcome} {items items' : List Ty}
    (hlength : items.length = items'.length) :
    unifyResolved unify (.tuple items) (.tuple items') = unifyPairs unify (items.zip items') :=
  if_pos hlength

theorem unifyResolved_union {unify : Ty → Ty → StoreM Outcome} {m n : Name} {args args' : List Ty}
    {w w' : Option (AliasUse Ty)} (hlength : args.length = args'.length) :
    unifyResolved unify (.union m n args w) (.union m n args' w') = unifyPairs unify (args.zip args') := by
  change (if m = m ∧ n = n ∧ args.length = args'.length then _ else _) = _
  rw [if_pos ⟨rfl, rfl, hlength⟩]

theorem unifyResolved_arrow {unify : Ty → Ty → StoreM Outcome} {params params' : List Ty}
    {ret ret' : Ty} {w w' : Option (AliasUse Ty)} :
    unifyResolved unify (.arrow params ret w) (.arrow params' ret' w') =
      unifyArrows unify params params' ret ret' :=
  rfl

theorem eq_of_isRecord {t : Ty} (h : isRecord t = true) :
    (∃ fields base w refs, t = .record fields base w refs) ∨ ∃ id, t = .growing id := by
  unfold isRecord at h
  split at h
  · exact .inl ⟨_, _, _, _, rfl⟩
  · exact .inr ⟨_, rfl⟩
  · cases h

theorem unifyResolved_records {unify : Ty → Ty → StoreM Outcome} (ha : isRecord a = true)
    (he : isRecord e = true) : unifyResolved unify a e = unifyRecords unify a e := by
  rcases eq_of_isRecord ha with ⟨fields, base, w, refs, rfl⟩ | ⟨id, rfl⟩ <;>
    rcases eq_of_isRecord he with ⟨fields', base', w', refs', rfl⟩ | ⟨id', rfl⟩ <;> rfl

theorem unifyStep_records {unify : Ty → Ty → StoreM Outcome} {f g : Flattened} (hf : ReadsAs s a f)
    (hg : ReadsAs s e g) : unifyStep unify a e s = unifyFlattened unify f g s := by
  obtain ⟨a', hra, ha', hfa⟩ := hf
  obtain ⟨e', hre, he', hfe⟩ := hg
  rw [unifyStep_resolved hra hre, unifyResolved_records ha' he', unifyRecords,
    run_bind_ok (run_read_ok hfa), run_bind_ok (run_read_ok hfe)]

theorem unifyFlattened_agree {unify : Ty → Ty → StoreM Outcome} {f g : Flattened}
    (hfields : unifyFields unify (commonFields f g) s = .ok (([], false), s₁))
    (hdiff : (recordDiff f g []).isEmpty = true) :
    unifyFlattened unify f g s = joinEnds unify f g s₁ := by
  rw [unifyFlattened, run_bind_ok hfields]
  simp [hdiff]

theorem joinEnds_tails {unify : Ty → Ty → StoreM Outcome} {f g : Flattened} {v w : TyVar}
    (hf : fieldsMissingIn f g = []) (hg : fieldsMissingIn g f = []) (hft : f.tail = .opened v)
    (hgt : g.tail = .opened w) : joinEnds unify f g = unify (.var v) (.var w) := by
  simp only [joinEnds, hf, hg, List.isEmpty_nil, hft, hgt, unifyTails]

theorem isEmpty_recordDiff_nil {f g : Flattened} (hf : fieldsMissingIn f g = [])
    (hg : fieldsMissingIn g f = []) : (recordDiff f g []).isEmpty = true := by
  simp [RecordDiff.isEmpty, recordDiff, hf, hg]

theorem unify_of_calls {frame frame' : Frame} {fault : Fault} (h : Calls frame frame')
    (howned : frame.Owned) (hrun : unify frame'.actual frame'.expected frame'.store = .error fault) :
    unify frame.actual frame.expected frame.store = .error fault := by
  rw [unify_eq howned.sane howned.actual howned.expected]
  cases h with
  | item hra hre hlength hcomes =>
    rw [unifyStep_resolved hra hre, unifyResolved_tuple hlength]
    exact pairs_of_comes hcomes hrun
  | arg hra hre hlength hcomes =>
    rw [unifyStep_resolved hra hre, unifyResolved_union hlength]
    exact pairs_of_comes hcomes hrun
  | param hra hre hcomes =>
    rw [unifyStep_resolved hra hre, unifyResolved_arrow, unifyArrows]
    exact run_bind_error (pairs_of_comes hcomes hrun)
  | rest hra hre hpairs =>
    rw [unifyStep_resolved hra hre, unifyResolved_arrow, unifyArrows, run_bind_ok hpairs]
    exact run_bind_error hrun
  | field hf hg hcomes =>
    rw [unifyStep_records hf hg, unifyFlattened]
    exact run_bind_error (fields_of_comes hcomes hrun)
  | ends hf hg hfields hmissing hmissing' hft hgt =>
    rw [unifyStep_records hf hg,
      unifyFlattened_agree hfields (isEmpty_recordDiff_nil hmissing hmissing'),
      joinEnds_tails hmissing hmissing' hft hgt]
    exact hrun

/-! ### A stale end is a fault -/

theorem within_extends {f : Flattened} (hext : s.Extends s') (h : f.Within s.Has) : f.Within s'.Has :=
  ⟨fun r hr => hext.has (h.field r hr), fun r hr => hext.has (h.tail r hr)⟩

theorem grown_of_within (tail : Tail) {fields : List (Name × Ty)} {rest : Ty} (hsane : s.Sane)
    (htail : s.Owns tail.toTy) (hfields : ∀ r ∈ Ty.mentionsFields false fields, s.Has r)
    (hrest : s.Owns rest) : Grown s tail fields rest (grow tail fields rest s) :=
  grown_grow hsane.loopfree hsane.closed (tail_lt hsane.tidy htail)
    (Ty.within_extension (Q := {r | s.Has r}) hfields hrest)

theorem Grown.fault {v : TyVar} {fields : List (Name × Ty)} {rest u : Ty} {res : Ending Outcome}
    (h : Grown s (.opened v) fields rest res) (hflex : v.rigid = false)
    (hsol : s.solution? v.id = some u) (hnot : ¬ s.Leads false (Ty.extension rest fields) (.var v.id)) :
    res = .error (.alreadyBound v.id) := by
  cases h with
  | unknown htail | closed htail => cases htail
  | rigid htail hrigid =>
    cases htail
    rw [hflex] at hrigid
    cases hrigid
  | infinite htail _ hleads =>
    cases htail
    exact absurd hleads hnot
  | solved htail _ hun _ =>
    cases htail
    exact absurd hun (not_unsolved_of_some hsol)
  | bound htail _ _ _ =>
    cases htail
    rfl

theorem owns_missing {f : Flattened} (hf : f.Within s.Has) (g : Flattened) :
    ∀ r ∈ Ty.mentionsFields false (fieldsMissingIn f g), s.Has r :=
  within_fieldsMissingIn (Q := {r | s.Has r}) hf g

/-- What a pair of growing records does once their ends are known to be different. -/
theorem run_growBoth {tail tail' : Tail} {fields fields' : List (Name × Ty)}
    (hsame : sameEnd tail tail' = false) : growBoth tail tail' fields fields' s =
      match grow tail fields' (.var ⟨s.size, "a", false⟩) s.extended with
      | .error fault => .error fault
      | .ok (.error err, s₁) => .ok (.error err, s₁)
      | .ok (.ok (), s₁) => grow tail' fields (.var ⟨s.size, "a", false⟩) s₁ := by
  have hfresh : freshVar "a" s = .ok (.var ⟨s.size, "a", false⟩, s.extended) := rfl
  simp only [growBoth, hsame, Bool.false_eq_true, if_false]
  rw [run_bind_ok hfresh]
  cases hrun : grow tail fields' (.var ⟨s.size, "a", false⟩) s.extended with
  | error fault => exact run_bind_error hrun
  | ok p =>
    obtain ⟨o, s₁⟩ := p
    rw [run_bind_ok hrun]
    rcases o with err | ⟨⟩ <;> rfl

theorem sane_grow {tail : Tail} {fields : List (Name × Ty)} {rest : Ty} {o : Outcome} (hsane : s.Sane)
    (htail : s.Owns tail.toTy) (hfields : ∀ r ∈ Ty.mentionsFields false fields, s.Has r)
    (hrest : s.Owns rest) (hrun : grow tail fields rest s = .ok (o, s')) : s'.Sane ∧ s.Extends s' := by
  have hmoves := Grown.moves (Q := {r | s.Has r}) htail
    (Ty.within_extension (Q := {r | s.Has r}) hfields hrest)
    (hrun ▸ grown_of_within tail hsane htail hfields hrest)
  exact ⟨(hmoves.tidy hsane.tidy).sane, hmoves.extends⟩

theorem owns_shared (s : Store) : s.extended.Owns (.var ⟨s.size, "a", false⟩) :=
  owns_var (by simp)

/-- Joining the ends of two records solves the end that is due. -/
theorem joinEnds_of_due {f g : Flattened} {s₂ : Store} {v : TyVar} {t u : Ty} (hsane : s.Sane)
    (hf : f.Within s.Has) (hg : g.Within s.Has) (h : Due s f g s₂ v t) (hflex : v.rigid = false)
    (hsol : s₂.solution? v.id = some u) (hnot : ¬ s₂.Leads false t (.var v.id)) :
    joinEnds unify f g s = .error (.alreadyBound v.id) := by
  have hextended := hsane.extended
  have hext := extends_extended s
  unfold joinEnds
  cases h with
  | close hmissing hmissing' htails =>
    simp only [hmissing, hmissing', List.isEmpty_nil]
    rcases htails with ⟨hft, hgt⟩ | ⟨hft, hgt⟩ <;>
      simp only [hft, hgt, unifyTails, hflex, Bool.false_eq_true, if_false] <;>
      exact run_solve_some _ hsol
  | @growLeft v hmissing hmissing' hft =>
    simp only [hmissing, List.isEmpty_nil, List.isEmpty_eq_false_iff.mpr hmissing', hft]
    exact (grown_of_within (.opened v) hsane (owns_tails hf hft) (owns_missing hg f)
      hg.tail).fault hflex hsol hnot
  | growRight hmissing hmissing' hgt =>
    simp only [hmissing', List.isEmpty_nil, List.isEmpty_eq_false_iff.mpr hmissing, hgt]
    exact (grown_of_within (.opened v) hsane (owns_tails hg hgt) (owns_missing hf g)
      hf.tail).fault hflex hsol hnot
  | first hmissing hmissing' hsame hft =>
    simp only [List.isEmpty_eq_false_iff.mpr hmissing, List.isEmpty_eq_false_iff.mpr hmissing']
    have hgrown := grown_of_within (.opened v) hextended (hext.owns (owns_tails hf hft))
      (owns_missing (within_extends hext hg) f) (owns_shared s)
    rw [run_growBoth hsame, hft, hgrown.fault hflex hsol hnot]
  | second hmissing hmissing' hsame hrun hgt =>
    simp only [List.isEmpty_eq_false_iff.mpr hmissing, List.isEmpty_eq_false_iff.mpr hmissing']
    obtain ⟨hsane₂, hext₂⟩ := sane_grow hextended (within_extends hext hf).tail
      (owns_missing (within_extends hext hg) f) (owns_shared s) hrun
    rw [run_growBoth hsame, hrun, hgt]
    exact (grown_of_within (.opened v) hsane₂ (hext₂.owns (hext.owns (owns_tails hg hgt)))
      (owns_missing (within_extends (hext.trans hext₂) hf) g) (hext₂.owns (owns_shared s))).fault
        hflex hsol hnot

theorem unify_of_stale {id : VarId} (h : Stale frame id) (howned : frame.Owned) :
    unify frame.actual frame.expected frame.store = .error (.alreadyBound id) := by
  rw [unify_eq howned.sane howned.actual howned.expected]
  obtain ⟨hf, hg, hfields, hdiff, hdue, hflex, hsol, hnot⟩ := h
  have hf' := hf.within howned.sane howned.actual
  have hg' := hg.within howned.sane howned.expected
  obtain ⟨hsane₁, hext⟩ := kept_fields howned.sane (owns_common hf' hg') hfields
  rw [unifyStep_records hf hg, unifyFlattened_agree hfields hdiff]
  exact joinEnds_of_due hsane₁ (within_extends hext hf') (within_extends hext hg') hdue hflex hsol hnot

/-- A stale end that unification visits makes it fault. -/
theorem unify_of_visits {id : VarId} {frame frame' : Frame} (h : Visits frame frame')
    (howned : frame.Owned) (hstale : Stale frame' id) :
    unify frame.actual frame.expected frame.store = .error (.alreadyBound id) := by
  induction h using ReflTransGen.head_induction_on with
  | refl => exact unify_of_stale hstale howned
  | head hcalls _ ih => exact unify_of_calls hcalls howned (ih (hcalls.owned howned))

/-! ### A fault comes from a stale end -/

/-- Whether a frame comes to records whose end is stale. -/
def Explained (id : VarId) (frame : Frame) : Prop :=
  ∃ frame', Visits frame frame' ∧ Stale frame' id

theorem Explained.of_calls {id : VarId} {frame frame' : Frame} (h : Explained id frame')
    (hcalls : Calls frame frame') : Explained id frame := by
  obtain ⟨stale, hvisits, hstale⟩ := h
  exact ⟨stale, .head hcalls hvisits, hstale⟩

/-- Runs that are out of steps, and runs of unification whose faults are explained. -/
def Explains (id : VarId) : Behaviour := fun s a e res => Frame.Owned ⟨s, a, e⟩ →
  res = .error .diverged ∨
    res = unify a e s ∧ (res = .error (.alreadyBound id) → Explained id ⟨s, a, e⟩)

section Faults

variable {id : VarId}

theorem Explains.explained (h : Explains id s a e (.error (.alreadyBound id)))
    (howned : Frame.Owned ⟨s, a, e⟩) : Explained id ⟨s, a, e⟩ := by
  rcases h howned with hdiverged | ⟨-, hexplained⟩
  · cases hdiverged
  · exact hexplained rfl

theorem Explains.run_eq {o : Outcome} (h : Explains id s a e (.ok (o, s₁)))
    (howned : Frame.Owned ⟨s, a, e⟩) : unify a e s = .ok (o, s₁) := by
  rcases h howned with hdiverged | ⟨hrun, -⟩
  · cases hdiverged
  · exact hrun.symm

/-- The first pair of a list has been run, and leaves a store that owns the others. -/
theorem Explains.first {rest : List (Ty × Ty)} {o : Outcome} (h : Explains id s a e (.ok (o, s₁)))
    (hsane : s.Sane) (hown : ∀ p ∈ (a, e) :: rest, s.Owns p.1 ∧ s.Owns p.2) :
    unify a e s = .ok (o, s₁) ∧ s₁.Sane ∧ ∀ p ∈ rest, s₁.Owns p.1 ∧ s₁.Owns p.2 := by
  obtain ⟨ha, he⟩ := hown (a, e) List.mem_cons_self
  have hrun := h.run_eq ⟨hsane, ha, he⟩
  obtain ⟨hsane₁, hext⟩ := kept_unify hsane ha he hrun
  refine ⟨hrun, hsane₁, fun p hp => ?_⟩
  obtain ⟨ha, he⟩ := hown p (List.mem_cons_of_mem _ hp)
  exact ⟨hext.owns ha, hext.owns he⟩

theorem comes_of_pairs {pairs : List (Ty × Ty)} {res : Ending Outcome}
    (h : Pairs (Explains id) s pairs res) (hres : res = .error (.alreadyBound id)) (hsane : s.Sane)
    (hown : ∀ p ∈ pairs, s.Owns p.1 ∧ s.Owns p.2) :
    ∃ frame, Comes s pairs frame ∧ Explained id frame := by
  induction h with
  | nil => cases hres
  | cons _ _ _ => cases hres
  | fault hfirst =>
    obtain ⟨ha, he⟩ := hown _ List.mem_cons_self
    cases hres
    exact ⟨_, .first, hfirst.explained ⟨hsane, ha, he⟩⟩
  | later hfirst _ ih =>
    obtain ⟨hrun, hsane₁, hown₁⟩ := hfirst.first hsane hown
    obtain ⟨frame, hcomes, hexplained⟩ := ih hres hsane₁ hown₁
    exact ⟨frame, .later hrun hcomes, hexplained⟩

theorem run_of_pairs {pairs : List (Ty × Ty)} {res : Ending Outcome} {o : Outcome}
    (h : Pairs (Explains id) s pairs res) (hres : res = .ok (o, s')) (hsane : s.Sane)
    (hown : ∀ p ∈ pairs, s.Owns p.1 ∧ s.Owns p.2) : unifyPairs unify pairs s = .ok (o, s') := by
  induction h generalizing o s' with
  | nil => exact hres
  | fault _ => cases hres
  | later _ _ _ => cases hres
  | cons hfirst _ ih =>
    obtain ⟨hrun, hsane₁, hown₁⟩ := hfirst.first hsane hown
    rw [unifyPairs, run_bind_ok hrun, run_bind_ok (ih rfl hsane₁ hown₁)]
    exact hres

theorem run_noted {field : Name × Ty × Ty} {o : Outcome} {found : List (Name × Ty × Ty) × Bool} :
    (match o with
      | .ok () => pure (found.1, found.2)
      | .error .infiniteType => pure (found.1, true)
      | .error _ => pure (field :: found.1, found.2) : StoreM _) s = .ok (noted field o found, s) := by
  rcases o with err | ⟨⟩
  · cases err <;> rfl
  · rfl

theorem run_of_fields {fields : List (Name × Ty × Ty)} {res : Ending (List (Name × Ty × Ty) × Bool)}
    {found : List (Name × Ty × Ty) × Bool} (h : Fields (Explains id) s fields res)
    (hres : res = .ok (found, s')) (hsane : s.Sane)
    (hown : ∀ p ∈ fields.map Prod.snd, s.Owns p.1 ∧ s.Owns p.2) :
    unifyFields unify fields s = .ok (found, s') := by
  induction h generalizing found s' with
  | nil => exact hres
  | fault _ => cases hres
  | later _ _ _ => cases hres
  | cons hfirst _ ih =>
    obtain ⟨hrun, hsane₁, hown₁⟩ := hfirst.first hsane hown
    rw [unifyFields, run_bind_ok hrun, run_bind_ok (ih rfl hsane₁ hown₁)]
    exact run_noted.trans hres

/-- Growing a record faults only because its end is solved already. -/
theorem stale_of_grow {tail : Tail} {fields : List (Name × Ty)} {rest : Ty} (hsane : s.Sane)
    (htail : s.Owns tail.toTy) (hfields : ∀ r ∈ Ty.mentionsFields false fields, s.Has r)
    (hrest : s.Owns rest) (hrun : grow tail fields rest s = .error (.alreadyBound id)) :
    ∃ v u, tail = .opened v ∧ v.id = id ∧ v.rigid = false ∧ s.solution? v.id = some u ∧
      ¬ s.Leads false (Ty.extension rest fields) (.var v.id) := by
  have hgrown := grown_of_within tail hsane htail hfields hrest
  rw [hrun] at hgrown
  cases hgrown with
  | bound htail hflex hsol hnot => exact ⟨_, _, htail, rfl, hflex, hsol, hnot⟩

/-- A fault at the end of two records is one of a call, or the end that is due has a solution. -/
theorem due_of_ends {f g : Flattened} (h : Ends (Explains id) s f g (.error (.alreadyBound id)))
    (hsane : s.Sane) (hf : f.Within s.Has) (hg : g.Within s.Has) :
    (∃ v w, fieldsMissingIn f g = [] ∧ fieldsMissingIn g f = [] ∧ f.tail = .opened v ∧
      g.tail = .opened w ∧ Explained id ⟨s, .var v, .var w⟩) ∨
    ∃ s₂ v t u, Due s f g s₂ v t ∧ v.id = id ∧ v.rigid = false ∧ s₂.solution? v.id = some u ∧
      ¬ s₂.Leads false t (.var v.id) := by
  have hextended := hsane.extended
  have hext := extends_extended s
  cases h with
  | tails hmissing hmissing' hft hgt hrun =>
    exact .inl ⟨_, _, hmissing, hmissing', hft, hgt,
      hrun.explained ⟨hsane, owns_tails hf hft, owns_tails hg hgt⟩⟩
  | @close v _ hmissing hmissing' hflex htails hrun =>
    right
    have hlt : v.id < s.size := by
      rcases htails with ⟨hft, -⟩ | ⟨-, hgt⟩
      · exact (owns_tails hf hft).var_lt
      · exact (owns_tails hg hgt).var_lt
    rcases unsolved_or_some hlt with hun | ⟨u, hsol⟩
    · rw [run_solve _ hun] at hrun
      cases hrun
    · rw [run_solve_some _ hsol] at hrun
      cases hrun
      refine ⟨s, v, _, u, .close hmissing hmissing' htails, rfl, hflex, hsol, ?_⟩
      rintro ⟨m, ⟨r, hr, -⟩, -⟩
      simp [Ty.emptyRecord, Ty.mentions, Ty.mentionsFields, Ty.mentionsBase] at hr
  | growLeft hmissing hmissing' hrun =>
    obtain ⟨v, u, hft, hid, hflex, hsol, hnot⟩ :=
      stale_of_grow hsane hf.tail (owns_missing hg f) hg.tail hrun
    exact .inr ⟨s, v, _, u, .growLeft hmissing hmissing' hft, hid, hflex, hsol, hnot⟩
  | growRight hmissing hmissing' hrun =>
    obtain ⟨v, u, hgt, hid, hflex, hsol, hnot⟩ :=
      stale_of_grow hsane hg.tail (owns_missing hf g) hf.tail hrun
    exact .inr ⟨s, v, _, u, .growRight hmissing hmissing' hgt, hid, hflex, hsol, hnot⟩
  | growBoth hmissing hmissing' hrun =>
    right
    have hf' := within_extends hext hf
    have hg' := within_extends hext hg
    cases hsame : sameEnd f.tail g.tail with
    | true =>
      rw [growBoth, hsame] at hrun
      cases hrun
    | false =>
      rw [run_growBoth hsame] at hrun
      cases hfirst : grow f.tail (fieldsMissingIn g f) (.var ⟨s.size, "a", false⟩) s.extended with
      | error fault =>
        rw [hfirst] at hrun
        cases hrun
        obtain ⟨v, u, hft, hid, hflex, hsol, hnot⟩ :=
          stale_of_grow hextended hf'.tail (owns_missing hg' f) (owns_shared s) hfirst
        exact ⟨_, v, _, u, .first hmissing hmissing' hsame hft, hid, hflex, hsol, hnot⟩
      | ok p =>
        obtain ⟨o, s₁⟩ := p
        rw [hfirst] at hrun
        rcases o with err | ⟨⟩
        · cases hrun
        obtain ⟨hsane₁, hext₁⟩ :=
          sane_grow hextended hf'.tail (owns_missing hg' f) (owns_shared s) hfirst
        obtain ⟨v, u, hgt, hid, hflex, hsol, hnot⟩ := stale_of_grow hsane₁
          (within_extends hext₁ hg').tail (owns_missing (within_extends hext₁ hf') g)
          (hext₁.owns (owns_shared s)) hrun
        exact ⟨s₁, v, _, u, .second hmissing hmissing' hsame hfirst hgt, hid, hflex, hsol, hnot⟩

theorem isRecord_of_shape {t : Ty} (h : shape? t = some .record) : isRecord t = true := by
  cases t with
  | record _ _ _ _ | growing _ => rfl
  | _ => cases h

theorem isEmpty_recordDiff_of {f g : Flattened} (hextra : fieldsMissingIn f g = [] ∨ g.tail.canGrow = true)
    (hmissing : fieldsMissingIn g f = [] ∨ f.tail.canGrow = true) :
    (recordDiff f g []).isEmpty = true := by
  simp only [RecordDiff.isEmpty, recordDiff, Bool.and_eq_true, List.isEmpty_iff]
  refine ⟨⟨?_, ?_⟩, trivial⟩
  · rcases hextra with h | h <;> simp [h]
  · rcases hmissing with h | h <;> simp [h]

theorem explained_records {a' e' : Ty} (hra : s.resolve a = .ok a') (hre : s.resolve e = .ok e')
    (ha' : isRecord a' = true) (he' : isRecord e' = true) (howned : Frame.Owned ⟨s, a, e⟩)
    (h : Records (Explains id) s a' e' (.error (.alreadyBound id))) : Explained id ⟨s, a, e⟩ := by
  obtain ⟨hsane, ha, he⟩ := howned
  cases h with
  | lostLeft hlost =>
    obtain ⟨f, hflat⟩ := exists_flatten hsane.loopfree hsane.closed (owns_resolve hsane ha hra)
    rw [hflat] at hlost
    cases hlost
  | lostRight _ hlost =>
    obtain ⟨g, hflat⟩ := exists_flatten hsane.loopfree hsane.closed (owns_resolve hsane he hre)
    rw [hflat] at hlost
    cases hlost
  | @fields f g _ hfa hfe hfields =>
    have hf : ReadsAs s a f := ⟨a', hra, ha', hfa⟩
    have hg : ReadsAs s e g := ⟨e', hre, he', hfe⟩
    obtain ⟨frame, hcomes, hexplained⟩ := comes_of_pairs hfields.pairs_of_error rfl hsane
      (owns_common (hf.within hsane ha) (hg.within hsane he))
    exact hexplained.of_calls (.field hf hg hcomes)
  | @agree f g s₁ _ hfa hfe hfields hextra hmissing hends =>
    have hf : ReadsAs s a f := ⟨a', hra, ha', hfa⟩
    have hg : ReadsAs s e g := ⟨e', hre, he', hfe⟩
    have hf' := hf.within hsane ha
    have hg' := hg.within hsane he
    have hrun := run_of_fields hfields rfl hsane (owns_common hf' hg')
    obtain ⟨hsane₁, hext⟩ := kept_fields hsane (owns_common hf' hg') hrun
    -- either a call on two open ends is to blame, or an end was solved while the fields were unified
    rcases due_of_ends hends hsane₁ (within_extends hext hf') (within_extends hext hg') with
      ⟨v, w, hmissing, hmissing', hft, hgt, hexplained⟩ | ⟨s₂, v, t, u, hdue, rfl, hflex, hsol, hnot⟩
    · exact hexplained.of_calls (.ends hf hg hrun hmissing hmissing' hft hgt)
    · exact ⟨_, .refl, .mk hf hg hrun (isEmpty_recordDiff_of hextra hmissing) hdue hflex hsol hnot⟩

theorem explained_unified (howned : Frame.Owned ⟨s, a, e⟩)
    (h : Unified (Explains id) s a e (.error (.alreadyBound id))) : Explained id ⟨s, a, e⟩ := by
  obtain ⟨hsane, ha, he⟩ := howned
  cases h with
  | lostLeft hlost =>
    obtain ⟨r, hresolve⟩ := exists_resolve hsane.loopfree hsane.closed ha
    rw [hresolve] at hlost
    cases hlost
  | lostRight hlost =>
    obtain ⟨r, hresolve⟩ := exists_resolve hsane.loopfree hsane.closed he
    rw [hresolve] at hlost
    cases hlost
  | resolved hra hre hres =>
    have ha' := owns_resolve hsane ha hra
    have he' := owns_resolve hsane he hre
    cases hres with
    | vars hne hrun =>
      obtain ⟨o, s', hrun', -⟩ := joins_unifyVars (resolvesTo_of_resolve hra).unsolved_of_var
        (resolvesTo_of_resolve hre).unsolved_of_var hne
      rw [hrun] at hrun'
      cases hrun'
    | varLeft _ hrun =>
      obtain ⟨o, s', hrun', -⟩ :=
        bound_unifyVar hsane.tidy (resolvesTo_of_resolve hra).unsolved_of_var he'
      rw [hrun] at hrun'
      cases hrun'
    | varRight _ hrun =>
      obtain ⟨o, s', hrun', -⟩ :=
        bound_unifyVar hsane.tidy (resolvesTo_of_resolve hre).unsolved_of_var ha'
      rw [hrun] at hrun'
      cases hrun'
    | tuple hlength hpairs =>
      obtain ⟨frame, hcomes, hexplained⟩ := comes_of_pairs hpairs rfl hsane
        (owns_zip (Ty.within_tuple.mp ha') (Ty.within_tuple.mp he'))
      exact hexplained.of_calls (.item hra hre hlength hcomes)
    | union hlength hpairs =>
      obtain ⟨frame, hcomes, hexplained⟩ := comes_of_pairs hpairs rfl hsane
        (owns_zip (Ty.within_union.mp ha') (Ty.within_union.mp he'))
      exact hexplained.of_calls (.arg hra hre hlength hcomes)
    | params hpairs =>
      obtain ⟨frame, hcomes, hexplained⟩ := comes_of_pairs hpairs rfl hsane
        (owns_zip (Ty.within_arrow.mp ha').1 (Ty.within_arrow.mp he').1)
      exact hexplained.of_calls (.param hra hre hcomes)
    | rest hpairs hrest =>
      have hrun := run_of_pairs hpairs rfl hsane
        (owns_zip (Ty.within_arrow.mp ha').1 (Ty.within_arrow.mp he').1)
      have hcalls := Calls.rest hra hre hrun
      exact (hrest.explained (hcalls.owned ⟨hsane, ha, he⟩)).of_calls hcalls
    | record hshape hshape' hrecords =>
      exact explained_records hra hre (isRecord_of_shape hshape) (isRecord_of_shape hshape')
        ⟨hsane, ha, he⟩ hrecords

end Faults

/-- A run of bounded depth is a run of unification, unless it is out of steps. -/
theorem unifyTo_eq (hsane : s.Sane) (ha : s.Owns a) (he : s.Owns e) (n : Nat) :
    unifyTo n a e s = .error .diverged ∨ unifyTo n a e s = unify a e s := by
  have hstop : ∀ a e, Settles (fun _ => .error .diverged) (fun m => unifyTo m a e) :=
    fun _ _ _ => .inl rfl
  rcases settles_unifyWithin hstop n a e s with hdiverged | ⟨k, hk⟩
  · exact .inl hdiverged
  · rcases settles_unify a e s with hdiverged | ⟨l, hl⟩
    · exact absurd hdiverged (unify_returns hsane ha he)
    · right
      show unifyWithin _ n a e s = unify a e s
      rw [← hl (max k l) (le_max_right _ _)]
      exact (hk (max k l) (le_max_left _ _)).symm

/-- By induction on the depth: the calls of a run are runs of a lesser depth. -/
theorem explains_unifyTo (id : VarId) (n : Nat) (s : Store) (a e : Ty) :
    Explains id s a e (unifyTo n a e s) := by
  induction n generalizing s a e with
  | zero => exact fun _ => .inl rfl
  | succ n ih =>
    intro howned
    refine (unifyTo_eq howned.sane howned.actual howned.expected (n + 1)).imp_right (fun hrun => ?_)
    refine ⟨hrun, fun hfault => explained_unified howned ?_⟩
    rw [← hfault]
    exact unified_run ih s a e

theorem explained_unify {id : VarId} (howned : Frame.Owned ⟨s, a, e⟩)
    (hrun : unify a e s = .error (.alreadyBound id)) : Explained id ⟨s, a, e⟩ := by
  rcases settles_unify a e s with hdiverged | ⟨n, hn⟩
  · exact absurd hdiverged (unify_returns howned.sane howned.actual howned.expected)
  · have hlimit : unifyTo n a e s = unify a e s := hn n (Nat.le_refl n)
    have hexplains := explains_unifyTo id n s a e
    rw [hlimit, hrun] at hexplains
    exact hexplains.explained howned

/-! ### When a variable would be solved twice -/

/-- In every store that is reached from the empty one, and on its types, constraining has an answer, and
unification has one exactly when it visits no records with a stale end. The variable of the fault is that
end. -/
theorem binds_twice_iff_visits_stale_end {s : Store} (hreached : Reached {} s) {a e : Ty}
    (ha : s.Owns a) (he : s.Owns e) :
    (∀ c, ∃ o s', constrain c a s = .ok (o, s')) ∧
    ((∃ o s', unify a e s = .ok (o, s')) ↔ ¬ ∃ id frame, Visits ⟨s, a, e⟩ frame ∧ Stale frame id) ∧
    (∀ fault, unify a e s = .error fault ↔
      ∃ id frame, fault = .alreadyBound id ∧ Visits ⟨s, a, e⟩ frame ∧ Stale frame id) := by
  have hsane := hreached.sane sane_empty
  have howned : Frame.Owned ⟨s, a, e⟩ := ⟨hsane, ha, he⟩
  have hfault : ∀ fault, unify a e s = .error fault ↔
      ∃ id frame, fault = .alreadyBound id ∧ Visits ⟨s, a, e⟩ frame ∧ Stale frame id := by
    intro fault
    constructor
    · intro hrun
      have hlands := safe_unify s a e _ hsane.tidy ha he
      rw [hrun] at hlands
      rcases hlands with rfl | ⟨id, rfl⟩
      · exact absurd hrun (unify_returns hsane ha he)
      · obtain ⟨frame, hvisits, hstale⟩ := explained_unify howned hrun
        exact ⟨id, frame, rfl, hvisits, hstale⟩
    · rintro ⟨id, frame, rfl, hvisits, hstale⟩
      have hrun := unify_of_visits hvisits howned hstale
      exact hrun
  refine ⟨fun c => exists_constrain hsane.loopfree hsane.closed c ha, ⟨?_, ?_⟩, hfault⟩
  · rintro ⟨o, s', hrun⟩ ⟨id, frame, hvisits, hstale⟩
    have hfaults := (hfault (.alreadyBound id)).mpr ⟨id, frame, rfl, hvisits, hstale⟩
    rw [hrun] at hfaults
    cases hfaults
  · intro hnone
    cases hrun : unify a e s with
    | ok p => exact ⟨p.1, p.2, rfl⟩
    | error fault =>
      obtain ⟨id, frame, -, hvisits, hstale⟩ := (hfault fault).mp hrun
      exact absurd ⟨id, frame, hvisits, hstale⟩ hnone

/-- The row of a record stands in one of its own fields, and that field must be the empty record. When the
field is unified the row becomes the empty record, and it is solved once more when the record is closed. -/
theorem unify_binds_row_of_own_field_twice :
    Reached {} (({} : Store).fresh "r" false).2 ∧
    (({} : Store).fresh "r" false).2.Owns
      (Ty.extension (.var ⟨0, "r", false⟩) [("f", .var ⟨0, "r", false⟩)]) ∧
    (({} : Store).fresh "r" false).2.Owns (Ty.closedRecord [("f", .emptyRecord)]) ∧
    unify (Ty.extension (.var ⟨0, "r", false⟩) [("f", .var ⟨0, "r", false⟩)])
      (Ty.closedRecord [("f", .emptyRecord)]) (({} : Store).fresh "r" false).2 =
        .error (.alreadyBound 0) :=
  ⟨.fresh "r" false .refl, by decide, by decide, rfl⟩

/-- The same two records inside of tuples: the records are visited and their end is stale. With another
variable in the field it is not, and unification succeeds. -/
theorem binds_twice_iff_visits_stale_end_of_rows :
    (∃ frame, Visits ⟨(({} : Store).fresh "r" false).2,
        .tuple [.unit, Ty.extension (.var ⟨0, "r", false⟩) [("f", .var ⟨0, "r", false⟩)]],
        .tuple [.unit, Ty.closedRecord [("f", .emptyRecord)]]⟩ frame ∧ Stale frame 0) ∧
    ¬ ∃ id frame, Visits ⟨((({} : Store).fresh "r" false).2.fresh "q" false).2,
        .tuple [.unit, Ty.extension (.var ⟨0, "r", false⟩) [("f", .var ⟨1, "q", false⟩)]],
        .tuple [.unit, Ty.closedRecord [("f", .emptyRecord)]]⟩ frame ∧ Stale frame id := by
  have hone : Reached {} (({} : Store).fresh "r" false).2 := .fresh "r" false .refl
  constructor
  · obtain ⟨id, frame, hid, hfound⟩ := ((binds_twice_iff_visits_stale_end hone
      (a := .tuple [.unit, Ty.extension (.var ⟨0, "r", false⟩) [("f", .var ⟨0, "r", false⟩)]])
      (e := .tuple [.unit, Ty.closedRecord [("f", .emptyRecord)]])
      (by decide) (by decide)).2.2 (.alreadyBound 0)).mp rfl
    cases hid
    exact ⟨frame, hfound⟩
  · exact (binds_twice_iff_visits_stale_end (hone.fresh "q" false) (by decide)
      (by decide)).2.1.mp ⟨.ok (), _, rfl⟩

end StoreM

end ElmInference
