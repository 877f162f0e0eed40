import ElmInference.Proofs.Infer.Lockstep
import Mathlib.Data.Fintype.Card
import Mathlib.Data.Set.Finite.Lattice

/-!
# The order of requests

A declaration that is referred to while it is being inferred is left unknown, so what is found for two declarations
that need each other depends on which of them is asked for first. This is the only way in which the order of requests
shows: for a declaration from which references between declarations without signatures lead into no cycle, every
sequence of requests gets the same result.

The argument is by induction along the references. A result that is kept was found by a run that started from results
found in the same way, and two such runs go side by side.
-/

namespace ElmInference

open Conversion TypeTable

/-! ### Names of declarations -/

/-- Whether no name is given to two values or to two types, and names of values are free of the signs that separate
them in the label of a pattern. -/
structure Module.DistinctNames (m : Module) : Prop where
  types : m.DistinctTypes
  values : (m.values.flatMap (fun entry => entry.2.names)).Nodup
  plain : ∀ entry ∈ m.values, ∀ name ∈ entry.2.names, '(' ∉ name.toList ∧ ',' ∉ name.toList ∧ ')' ∉ name.toList

namespace Module

variable {m : Module} {i j : Nat} {d d' : ValueDecl}

theorem mem_values (h : m.valueAt? i = some d) : (i, d) ∈ m.values := by
  obtain ⟨declaration, hget, hvalue⟩ := Option.bind_eq_some_iff.mp h
  refine List.mem_filterMap.mpr ⟨(declaration, i), List.mem_zipIdx_iff_getElem?.mpr hget, ?_⟩
  exact Option.map_eq_some_iff.mpr ⟨d, hvalue, rfl⟩

/-- Two declarations with a name in common are the same one. -/
theorem DistinctNames.eq_of_name (h : m.DistinctNames) (hi : m.valueAt? i = some d) (hj : m.valueAt? j = some d')
    {name : Name} (hd : name ∈ d.names) (hd' : name ∈ d'.names) : i = j := by
  obtain ⟨-, hdisjoint⟩ := List.nodup_flatMap.mp h.values
  have hpairs : m.values.Pairwise (fun entry entry' => List.Disjoint entry.2.names entry'.2.names) := hdisjoint
  have : Std.Symm (fun entry entry' : Nat × ValueDecl => List.Disjoint entry.2.names entry'.2.names) :=
    ⟨fun _ _ => List.Disjoint.symm⟩
  by_contra hne
  have hentries : (i, d) ≠ (j, d') := fun heq => hne (congrArg Prod.fst heq)
  exact hpairs.forall (mem_values hi) (mem_values hj) hentries hd hd'

end Module

/-- What comes before a stop sign. -/
theorem takeWhile_append_stop {α : Type} {p : α → Bool} {xs rest : List α} {stop : α} (hxs : ∀ x ∈ xs, p x = true)
    (hstop : p stop = false) : (xs ++ stop :: rest).takeWhile p = xs := by
  rw [List.takeWhile_append_of_pos hxs, List.takeWhile_cons_of_neg (by rw [hstop]; exact Bool.false_ne_true),
    List.append_nil]

namespace Head

/-- The label of a pattern starts with its first name. -/
theorem toList_label_pattern {p : Pattern} {first : Name} {rest : List Name}
    (h : p.boundNames.map NameAt.name = first :: rest) :
    ∃ stop more, (stop = ',' ∨ stop = ')') ∧ (label (.pattern p)).toList = '(' :: (first.toList ++ stop :: more) := by
  rw [label, h, String.toList_append, String.toList_append, String.toList_intercalate, List.map_cons]
  cases rest with
  | nil => exact ⟨')', [], .inr rfl, by simp [List.intercalate]⟩
  | cons next rest =>
    refine ⟨',', [','].intercalate ((next :: rest).map String.toList) ++ [')'], .inl rfl, ?_⟩
    simp [List.intercalate]

end Head

/-- Declarations with names have labels of their own. -/
theorem Module.DistinctNames.eq_of_label {m : Module} (h : m.DistinctNames) {i j : Nat} {d d' : ValueDecl}
    (hi : m.valueAt? i = some d) (hj : m.valueAt? j = some d') (hd : d.names ≠ []) (hd' : d'.names ≠ [])
    (hlabel : d.head.label = d'.head.label) : i = j := by
  obtain ⟨first, rest, hfirst⟩ := List.exists_cons_of_ne_nil hd
  obtain ⟨first', rest', hfirst'⟩ := List.exists_cons_of_ne_nil hd'
  have hmem : first ∈ d.names := hfirst ▸ List.mem_cons_self
  have hmem' : first' ∈ d'.names := hfirst' ▸ List.mem_cons_self
  have hplain := h.plain _ (mem_values hi) first hmem
  have hotherPlain := h.plain _ (mem_values hj) first' hmem'
  suffices hsame : first = first' from h.eq_of_name hi hj hmem (hsame ▸ hmem')
  unfold Definition.names at hfirst hfirst'
  cases hhead : d.head with
  | function name params =>
    rw [hhead] at hfirst hlabel
    obtain ⟨rfl, -⟩ := List.cons.inj hfirst
    cases hhead' : d'.head with
    | function name' params' =>
      rw [hhead'] at hfirst' hlabel
      obtain ⟨rfl, -⟩ := List.cons.inj hfirst'
      exact hlabel
    | pattern p' =>
      rw [hhead'] at hfirst' hlabel
      obtain ⟨stop, more, -, htext⟩ := Head.toList_label_pattern hfirst'
      rw [← hlabel] at htext
      exact absurd (htext ▸ List.mem_cons_self) hplain.1
  | pattern p =>
    rw [hhead] at hfirst hlabel
    obtain ⟨stop, more, hstop, htext⟩ := Head.toList_label_pattern hfirst
    cases hhead' : d'.head with
    | function name' params' =>
      rw [hhead'] at hfirst' hlabel
      obtain ⟨rfl, -⟩ := List.cons.inj hfirst'
      rw [hlabel] at htext
      exact absurd (htext ▸ List.mem_cons_self) hotherPlain.1
    | pattern p' =>
      rw [hhead'] at hfirst' hlabel
      obtain ⟨stop', more', hstop', htext'⟩ := Head.toList_label_pattern hfirst'
      rw [← hlabel, htext] at htext'
      have hbefore := congrArg (List.takeWhile (fun c => c != ',' && c != ')')) (List.cons.inj htext').2
      have hname : ∀ {name : Name}, '(' ∉ name.toList ∧ ',' ∉ name.toList ∧ ')' ∉ name.toList →
          ∀ c ∈ name.toList, (c != ',' && c != ')') = true := by
        rintro name ⟨-, hcomma, hclose⟩ c hc
        rw [Bool.and_eq_true, bne_iff_ne, bne_iff_ne]
        exact ⟨fun heq => hcomma (heq ▸ hc), fun heq => hclose (heq ▸ hc)⟩
      rw [takeWhile_append_stop (hname hplain) (by rcases hstop with rfl | rfl <;> rfl),
        takeWhile_append_stop (hname hotherPlain) (by rcases hstop' with rfl | rfl <;> rfl)] at hbefore
      exact String.toList_inj.mp hbefore

/-! ### References between declarations -/

namespace ModuleScope

variable {scope : ModuleScope} {i j : Nat}

/-- Whether the declaration at place `i` refers to another one, at place `j`, that has no signature. -/
def Needs (scope : ModuleScope) (i j : Nat) : Prop :=
  i ≠ j ∧ ∃ d u d', scope.module.valueAt? i = some d ∧ u ∈ d.lookups ∧ scope.target? u = some (.value j d') ∧
    InferM.functionSignature? d' = none

/-- Whether references between declarations without signatures lead from a declaration into no cycle. -/
def CycleFree (scope : ModuleScope) (i : Nat) : Prop :=
  ∀ j, Relation.ReflTransGen scope.Needs i j → ¬ Relation.TransGen scope.Needs j j

theorem Needs.lt (h : scope.Needs i j) : j < scope.module.declarations.length := by
  obtain ⟨-, d, u, d', -, -, htarget, -⟩ := h
  obtain ⟨declaration, hget, -⟩ := Option.bind_eq_some_iff.mp (offers_of_target? htarget).1
  exact (List.getElem?_eq_some_iff.mp hget).1

/-- A module has finitely many declarations, so references that lead into no cycle come to an end. -/
theorem CycleFree.acc (h : scope.CycleFree i) : Acc (fun j i => scope.Needs i j) i := by
  have hleads : ∀ j, Relation.ReflTransGen (fun j i => scope.Needs i j) j i → Relation.ReflTransGen scope.Needs i j :=
    fun _ => Relation.reflTransGen_swap.mp
  refine acc_of_cycleFree ?_ fun j hj hcycle => h j (hleads j hj) (Relation.transGen_swap.mp hcycle)
  refine ((Set.finite_lt_nat scope.module.declarations.length).insert i).subset fun j hj => ?_
  rcases Relation.ReflTransGen.cases_tail (hleads j hj) with rfl | ⟨_, -, hneeds⟩
  · exact Set.mem_insert _ _
  · exact Set.mem_insert_of_mem _ hneeds.lt

end ModuleScope

/-! ### Sessions that were reached by requests -/

section Sessions

variable {engine : Engine} {i j n : Nat} {d d' : ValueDecl} {s s' : Session}

/-- Whether all declarations that are being inferred lead to a given one. -/
def Leads (scope : ModuleScope) (i : Nat) (active : List Name) : Prop :=
  ∀ label ∈ active, ∃ j d, scope.module.valueAt? j = some d ∧ d.names ≠ [] ∧ d.head.label = label ∧
    Relation.TransGen scope.Needs j i

/-- Whether a result was found by a run that started from results found in the same way. -/
inductive Made (engine : Engine) : Nat → InferenceResult → Prop where
  | run {i : Nat} {d : ValueDecl} {s' : Session} {result : InferenceResult} {a : Except InferError Inferred}
      (n : Nat) (s : Session) (hflag : s.flag = none) (htypes : Idle engine.scope s.types)
      (hkept : ∀ j d r, engine.scope.module.valueAt? j = some d → d.names ≠ [] →
        s.cache.get? (DeclKey.ofDecl engine.file d) = some r → Made engine j r)
      (hd : engine.scope.module.valueAt? i = some d) (hleads : Leads engine.scope i s.active)
      (hrun : SessionM.compute (InferM.exprAt n) (DeclKey.ofDecl engine.file d) i d engine s = (.ok a, s'))
      (hresult : a.map Prod.fst = .ok result) : Made engine i result

/-- Whether a session cannot be called off, converts no types, and keeps what has been found from nothing. -/
structure Session.Settled (engine : Engine) (s : Session) : Prop where
  flag : s.flag = none
  types : Idle engine.scope s.types
  kept : ∀ j d r, engine.scope.module.valueAt? j = some d → d.names ≠ [] →
    s.cache.get? (DeclKey.ofDecl engine.file d) = some r → Made engine j r

theorem settled_empty : Session.Settled engine {} :=
  ⟨rfl, idle_empty, nofun⟩

theorem Session.Settled.withTypes (h : s.Settled engine) {table : TypeTable} (htable : Idle engine.scope table) :
    (s.withTypes table).Settled engine :=
  ⟨h.flag, htable, h.kept⟩

theorem Leads.step {active : List Name} (h : Leads engine.scope i active) (hd : engine.scope.module.valueAt? i = some d)
    (hnamed : d.names ≠ []) (hneeds : engine.scope.Needs i j) : Leads engine.scope j (d.head.label :: active) := by
  intro label hlabel
  rcases List.mem_cons.mp hlabel with rfl | hlabel
  · exact ⟨i, d, hd, hnamed, rfl, .single hneeds⟩
  · obtain ⟨k, dk, hk, hknamed, hklabel, hpath⟩ := h label hlabel
    exact ⟨k, dk, hk, hknamed, hklabel, hpath.tail hneeds⟩

/-- What all declarations in progress lead to is not in progress itself, if it is on no cycle. -/
theorem Leads.notMem (hnames : engine.scope.module.DistinctNames) {active : List Name} (h : Leads engine.scope i active)
    (hd : engine.scope.module.valueAt? i = some d) (hnamed : d.names ≠ [])
    (hcycle : ¬ Relation.TransGen engine.scope.Needs i i) : d.head.label ∉ active := by
  intro hmem
  obtain ⟨k, dk, hk, hknamed, hklabel, hpath⟩ := h _ hmem
  obtain rfl := hnames.eq_of_label hk hd hknamed hnamed hklabel
  exact hcycle hpath

theorem Session.Settled.insert (hnames : engine.scope.module.DistinctNames) (h : s.Settled engine)
    (hd : engine.scope.module.valueAt? i = some d) (hnamed : d.names ≠ []) {result : InferenceResult}
    (hmade : Made engine i result) :
    Session.Settled engine { s with cache := s.cache.insert (DeclKey.ofDecl engine.file d) result } := by
  refine ⟨h.flag, h.types, fun j d' r hd' hnamed' hget => ?_⟩
  by_cases heq : d.head.label = d'.head.label
  · obtain rfl := hnames.eq_of_label hd hd' hnamed hnamed' heq
    obtain rfl := Option.some.inj (hd.symm.trans hd')
    dsimp only at hget
    rw [Cache.get?_insert_self] at hget
    exact Option.some.inj hget ▸ hmade
  · dsimp only at hget
    rw [Cache.get?_insert_of_ne _ _ heq] at hget
    exact h.kept j d' r hd' hnamed' hget

/-! ### A run keeps a session settled -/

/-- Whether a declaration is being inferred in a settled session, on behalf of others. -/
def Session.Inside (engine : Engine) (d : ValueDecl) (outer : List Name) (s : Session) : Prop :=
  s.active = d.head.label :: outer ∧ s.Settled engine

theorem Session.Inside.withTypes {outer : List Name} (h : s.Inside engine d outer) {table : TypeTable}
    (htable : Idle engine.scope table) : (s.withTypes table).Inside engine d outer :=
  ⟨h.1, h.2.withTypes htable⟩

theorem Session.Settled.entered (h : s.Settled engine) :
    (SessionM.entered (DeclKey.ofDecl engine.file d) s).Inside engine d s.active :=
  ⟨rfl, h.flag, h.types, h.kept⟩

theorem Session.Inside.left {outer : List Name} (h : s.Inside engine d outer) (hfresh : d.head.label ∉ outer) :
    (SessionM.left (DeclKey.ofDecl engine.file d) s).Settled engine ∧
      (SessionM.left (DeclKey.ofDecl engine.file d) s).active = outer := by
  refine ⟨⟨h.2.flag, h.2.types, h.2.kept⟩, ?_⟩
  exact SessionM.active_left_entered (s := { s with active := outer }) hfresh h.1

/-- One run, compared with itself. -/
theorem concordant_inside (hnames : engine.scope.module.DistinctNames) (outer : List Name) :
    Concordant engine (fun s s' => s = s' ∧ s.Inside engine d outer) := by
  refine ⟨hnames.types, ?_, _, lawful_same, ?_, ?_⟩
  · rintro s _ ⟨rfl, hs⟩
    exact ⟨hs.2.flag, hs.2.flag⟩
  · rintro s _ ⟨rfl, hs⟩
    exact ⟨rfl, hs.2.types⟩
  · rintro s _ table _ ⟨rfl, hs⟩ ⟨rfl, htable⟩
    exact ⟨rfl, hs.withTypes htable⟩

theorem sameOutcome_self {α : Type} {V : α → α → Prop} {T : Session → Session → Prop} {out : Except Fault α × Session}
    (h : ∀ a s, out = (.ok a, s) → V a a ∧ T s s) : SameOutcome V T out out := by
  intro _ _
  rcases out with ⟨fault | a, s⟩
  · exact .inl ⟨fault, rfl, rfl⟩
  · obtain ⟨hV, hT⟩ := h a s rfl
    exact .inr ⟨a, a, rfl, rfl, hV, hT⟩

/-- What a declaration in progress refers to is led to by all declarations in progress. -/
theorem Session.Inside.leads {outer : List Name} (h : s.Inside engine d outer) (hleads : Leads engine.scope i outer)
    (hd : engine.scope.module.valueAt? i = some d) (hnamed : d.names ≠ []) (hneeds : engine.scope.Needs i j) :
    Leads engine.scope j s.active :=
  h.1 ▸ hleads.step hd hnamed hneeds

open InferM in
/-- A request leaves a session settled, with the same declarations in progress. -/
theorem settled_inferTopLevel (hnames : engine.scope.module.DistinctNames) {a : Except InferError Inferred}
    (hs : s.Settled engine) (hd : engine.scope.module.valueAt? i = some d) (hnamed : d.names ≠ [])
    (hleads : Leads engine.scope i s.active) (hfresh : d.head.label ∉ s.active)
    (hrun : SessionM.inferTopLevel (exprAt n) i d engine s = (.ok a, s')) :
    s'.Settled engine ∧ s'.active = s.active := by
  induction n using Nat.strong_induction_on generalizing i d s s' a with
  | _ n ih =>
  cases hkept : s.cache.get? (DeclKey.ofDecl engine.file d) with
  | some result =>
    rw [SessionM.run_inferTopLevel_of_kept hkept] at hrun
    cases hrun
    exact ⟨hs, rfl⟩
  | none =>
    rw [SessionM.run_inferTopLevel_of_new hs.flag hkept] at hrun
    obtain ⟨outcome, w, hdecl, -, hafter⟩ := SessionM.run_compute_inv hrun
    -- The declarations that this one refers to are inferred less deep, and so keep sessions settled.
    have hfine : ∀ u, u ∈ d.lookups → ∀ m m', m + 1 = m' + 1 ∧ m + 1 ≤ n →
        Fine engine (fun s₁ s₁' => s₁ = s₁' ∧ s₁.Inside engine d s.active)
          ⟨exprAt m, SessionM.inferTopLevel (exprAt m)⟩ ⟨exprAt m', SessionM.inferTopLevel (exprAt m')⟩ u := by
      rintro u hu m m' ⟨hm, hmn⟩ j d' htarget hsignature
      obtain rfl := Nat.succ.inj hm
      obtain ⟨hd', hnamed'⟩ := ModuleScope.offers_of_target? htarget
      refine ⟨fun s₁ _ h => h.1 ▸ rfl, ?_⟩
      rintro s₁ _ ⟨⟨rfl, hinside⟩, hfree⟩
      refine sameOutcome_self fun a s₂ hrun => ⟨rfl, rfl, ?_⟩
      have hfree : d'.head.label ∉ s₁.active := by simpa using hfree
      have hne : i ≠ j := by
        rintro rfl
        obtain rfl := Option.some.inj (hd.symm.trans hd')
        exact hfree (hinside.1 ▸ List.mem_cons_self)
      have hneeds : engine.scope.Needs i j := ⟨hne, d, u, d', hd, hu, htarget, hsignature⟩
      obtain ⟨hsettled, hactive⟩ := ih m (Nat.lt_of_succ_le hmn) hinside.2 hd' hnamed'
        (hinside.leads hleads hd hnamed hneeds) hfree hrun
      exact ⟨hactive.trans hinside.1, hsettled⟩
    have hpass : SameOutcome SameResult
        (fun w w' => w.session = w'.session ∧ w.session.Inside engine d s.active)
        (inferDeclaration (exprAt n) d ⟨engine, i⟩ ⟨SessionM.entered (DeclKey.ofDecl engine.file d) s, {}⟩)
        (inferDeclaration (exprAt n) d ⟨engine, i⟩ ⟨SessionM.entered (DeclKey.ofDecl engine.file d) s, {}⟩) :=
      sameOutcome_inferDeclaration (S := fun s₁ s₁' => s₁ = s₁' ∧ s₁.Inside engine d s.active)
        (concordant_inside hnames s.active) (fun m m' => m = m' ∧ m ≤ n)
        (fun m m' h => ⟨Nat.succ.inj h.1, Nat.le_of_succ_le h.2⟩) hfine ⟨rfl, Nat.le_refl n⟩ ⟨rfl, hs.entered⟩
    rw [hdecl] at hpass
    obtain ⟨_, hfault, -⟩ | ⟨_, _, -, -, -, -, hinside⟩ := hpass nofun nofun
    · cases hfault
    · obtain ⟨hsettled, hactive⟩ := hinside.left hfresh
      rcases hafter with rfl | ⟨result, hresult, rfl⟩
      · exact ⟨hsettled, hactive⟩
      · have hmade : Made engine i result := .run n s hs.flag hs.types hs.kept hd hleads hrun hresult
        exact ⟨hsettled.insert hnames hd hnamed hmade, hactive⟩

/-! ### Two runs get the same result -/

/-- What an outcome says of the declaration itself. -/
def answerOf (outcome : Except Fault (Except InferError Inferred)) : Except Fault (Except InferError InferenceResult) :=
  outcome.map (·.map Prod.fst)

/-- Whether two answers are the same, unless one of the runs did not come to an end. -/
def SameAnswer {α : Type} (answer answer' : Except Fault α) : Prop :=
  answer ≠ .error .diverged → answer' ≠ .error .diverged → answer = answer'

theorem answerOf_eq_diverged {outcome : Except Fault (Except InferError Inferred)} :
    answerOf outcome = .error .diverged ↔ outcome = .error .diverged := by
  cases outcome with
  | error fault => exact ⟨fun h => congrArg Except.error (Except.error.inj h), fun h => congrArg Except.error (Except.error.inj h)⟩
  | ok a => exact ⟨nofun, nofun⟩

theorem sameOutcome_iff {σ : Type} {out out' : Except Fault (Except InferError Inferred) × σ} :
    SameOutcome InferM.SameResult (fun _ _ => True) out out' ↔ SameAnswer (answerOf out.1) (answerOf out'.1) := by
  unfold SameOutcome SameAnswer
  rw [ne_eq, ne_eq, ne_eq, ne_eq, answerOf_eq_diverged, answerOf_eq_diverged]
  refine imp_congr_right fun _ => imp_congr_right fun _ => ⟨?_, fun h => ?_⟩
  · rintro (⟨fault, hfault, hfault'⟩ | ⟨a, a', ha, ha', hsame, -⟩)
    · rw [hfault, hfault']
    · rw [ha, ha']
      exact congrArg Except.ok hsame
  · rcases hout : out.1 with fault | a <;> rcases hout' : out'.1 with fault' | a' <;> rw [hout, hout'] at h
    · cases h
      exact .inl ⟨fault, rfl, rfl⟩
    · cases h
    · cases h
    · exact .inr ⟨a, a', rfl, rfl, Except.ok.inj h, trivial⟩

theorem answerOf_compute {inferBody : Expr → InferM Ty} {key : DeclKey} :
    answerOf (SessionM.compute inferBody key i d engine s).1 =
      answerOf (InferM.inferDeclaration inferBody d ⟨engine, i⟩ ⟨SessionM.entered key s, {}⟩).1 := by
  have hrun : ∀ out w, InferM.inferDeclaration inferBody d ⟨engine, i⟩ ⟨SessionM.entered key s, {}⟩ = (out, w) →
      SessionM.runPass i (InferM.inferDeclaration inferBody d) engine (SessionM.entered key s) = (out, w.session) := by
    intro out w hdecl
    rw [SessionM.runPass, hdecl]
  have hmodify : ∀ f : Session → Session, ∀ s, (modify f : SessionM Unit) engine s = (.ok (), f s) := fun _ _ => rfl
  rcases hdecl : InferM.inferDeclaration inferBody d ⟨engine, i⟩ ⟨SessionM.entered key s, {}⟩ with ⟨out, w⟩
  have hentered : (modify (fun session => { session with active := key.name :: session.active }) : SessionM Unit) engine s =
      (.ok (), SessionM.entered key s) := rfl
  rw [SessionM.compute, InferM.run_bind_ok _ hentered]
  rcases out with fault | outcome
  · rw [run_bind_error _ (hrun _ _ hdecl)]
  · rw [InferM.run_bind_ok _ (hrun _ _ hdecl), InferM.run_bind_ok _ (hmodify _ _)]
    rcases outcome with e | ⟨result, recursive⟩
    · rfl
    · dsimp only
      split <;> rfl

/-- Two runs in different sessions. -/
theorem concordant_pair (hnames : engine.scope.module.DistinctNames) (outer outer' : List Name) :
    Concordant engine (fun s s' => s.Inside engine d outer ∧ s'.Inside engine d outer') := by
  refine ⟨hnames.types, ?_, _, lawful_idle, ?_, ?_⟩
  · exact fun s s' h => ⟨h.1.2.flag, h.2.2.flag⟩
  · exact fun s s' h => ⟨h.1.2.types, h.2.2.types⟩
  · exact fun s s' table table' h htables => ⟨h.1.withTypes htables.1, h.2.withTypes htables.2⟩

/-- Whether a session is settled and all declarations that are being inferred lead to a given one. -/
structure Session.Ready (engine : Engine) (i : Nat) (s : Session) : Prop where
  settled : s.Settled engine
  leads : Leads engine.scope i s.active

/-- An answer is that of a run that started from results found before, be it this one or an earlier one. -/
theorem exists_compute (hs : s.Ready engine i) (hd : engine.scope.module.valueAt? i = some d) (hnamed : d.names ≠ []) :
    ∃ m s₀, s₀.Ready engine i ∧ answerOf (SessionM.inferTopLevel (InferM.exprAt n) i d engine s).1 =
      answerOf (SessionM.compute (InferM.exprAt m) (DeclKey.ofDecl engine.file d) i d engine s₀).1 := by
  cases hkept : s.cache.get? (DeclKey.ofDecl engine.file d) with
  | none => exact ⟨n, s, hs, by rw [SessionM.run_inferTopLevel_of_new hs.settled.flag hkept]⟩
  | some result =>
    obtain ⟨m, s₀, hflag, htypes, hbefore, hd₀, hleads, hrun, hresult⟩ := hs.settled.kept i d result hd hnamed hkept
    obtain rfl := Option.some.inj (hd.symm.trans hd₀)
    refine ⟨m, s₀, ⟨⟨hflag, htypes, hbefore⟩, hleads⟩, ?_⟩
    rw [SessionM.run_inferTopLevel_of_kept hkept, hrun]
    exact congrArg Except.ok hresult.symm

/-- Whether all runs that start from results found before get the same result for a declaration. -/
def Determined (engine : Engine) (i : Nat) (d : ValueDecl) : Prop :=
  ∀ n n' s s', Session.Ready engine i s → Session.Ready engine i s' →
    SameAnswer (answerOf (SessionM.compute (InferM.exprAt n) (DeclKey.ofDecl engine.file d) i d engine s).1)
      (answerOf (SessionM.compute (InferM.exprAt n') (DeclKey.ofDecl engine.file d) i d engine s').1)

theorem Determined.sameAnswer (h : Determined engine i d) (hd : engine.scope.module.valueAt? i = some d)
    (hnamed : d.names ≠ []) (hs : s.Ready engine i) (hs' : s'.Ready engine i) (n n' : Nat) :
    SameAnswer (answerOf (SessionM.inferTopLevel (InferM.exprAt n) i d engine s).1)
      (answerOf (SessionM.inferTopLevel (InferM.exprAt n') i d engine s').1) := by
  obtain ⟨m, s₀, hs₀, hanswer⟩ := exists_compute (n := n) hs hd hnamed
  obtain ⟨m', s₀', hs₀', hanswer'⟩ := exists_compute (n := n') hs' hd hnamed
  rw [hanswer, hanswer']
  exact h m m' s₀ s₀' hs₀ hs₀'

/-- A declaration whose result is determined, and that is on no cycle, looks the same to others that need it. -/
theorem Determined.responds (h : Determined engine j d') (hnames : engine.scope.module.DistinctNames)
    (hd : engine.scope.module.valueAt? i = some d) (hnamed : d.names ≠ [])
    (hd' : engine.scope.module.valueAt? j = some d') (hnamed' : d'.names ≠ []) (hneeds : engine.scope.Needs i j)
    (hcycle : ¬ Relation.TransGen engine.scope.Needs j j) {outer outer' : List Name}
    (hleads : Leads engine.scope i outer) (hleads' : Leads engine.scope i outer') (n n' : Nat) :
    InferM.Responds engine (fun s s' => s.Inside engine d outer ∧ s'.Inside engine d outer')
      ⟨InferM.exprAt n, SessionM.inferTopLevel (InferM.exprAt n)⟩
      ⟨InferM.exprAt n', SessionM.inferTopLevel (InferM.exprAt n')⟩ j d' := by
  have hready : ∀ {s : Session} {outer : List Name}, s.Inside engine d outer → Leads engine.scope i outer →
      s.Ready engine j := fun hinside hleads => ⟨hinside.2, hinside.leads hleads hd hnamed hneeds⟩
  have hfresh : ∀ {s : Session}, s.Ready engine j → d'.head.label ∉ s.active :=
    fun hready => hready.leads.notMem hnames hd' hnamed' hcycle
  refine ⟨fun s s' hinside => ?_, ?_⟩
  · have hfree := hfresh (hready hinside.1 hleads)
    have hfree' := hfresh (hready hinside.2 hleads')
    rw [← List.contains_iff_mem, Bool.not_eq_true] at hfree hfree'
    rw [hfree, hfree']
  · rintro s s' ⟨⟨hinside, hinside'⟩, -⟩ hout hout'
    have hs := hready hinside hleads
    have hs' := hready hinside' hleads'
    refine (sameOutcome_iff.mpr (h.sameAnswer hd' hnamed' hs hs' n n') hout hout').imp_right ?_
    rintro ⟨a, a', ha, ha', hresult, -⟩
    obtain ⟨hsettled, hactive⟩ :=
      settled_inferTopLevel hnames hs.settled hd' hnamed' hs.leads (hfresh hs) (Prod.ext ha rfl)
    obtain ⟨hsettled', hactive'⟩ :=
      settled_inferTopLevel hnames hs'.settled hd' hnamed' hs'.leads (hfresh hs') (Prod.ext ha' rfl)
    exact ⟨a, a', ha, ha', hresult, ⟨hactive.trans hinside.1, hsettled⟩, hactive'.trans hinside'.1, hsettled'⟩

/-- A declaration that refers to itself finds itself in progress. -/
theorem responds_self {outer outer' : List Name} (elsewhere elsewhere' : Elsewhere) :
    InferM.Responds engine (fun s s' => s.Inside engine d outer ∧ s'.Inside engine d outer') elsewhere elsewhere' i d := by
  refine ⟨fun s s' h => ?_, fun s s' h => ?_⟩
  · rw [h.1.1, h.2.1, List.contains_cons, List.contains_cons, beq_self_eq_true]
    rfl
  · have hfree := h.2
    rw [h.1.1.1, List.contains_cons, beq_self_eq_true] at hfree
    cases hfree

open InferM in
/-- References that lead into no cycle leave nothing open: the induction is along them. -/
theorem determined_of_acc (hnames : engine.scope.module.DistinctNames)
    (hacc : Acc (fun j i => engine.scope.Needs i j) i) (hd : engine.scope.module.valueAt? i = some d)
    (hnamed : d.names ≠ []) : Determined engine i d := by
  induction hacc generalizing d with
  | intro i hacc ih =>
  intro n n' s s' hs hs'
  have hfine : ∀ u ∈ d.lookups, ∀ m m', True →
      Fine engine (fun s₁ s₁' => s₁.Inside engine d s.active ∧ s₁'.Inside engine d s'.active)
        ⟨exprAt m, SessionM.inferTopLevel (exprAt m)⟩ ⟨exprAt m', SessionM.inferTopLevel (exprAt m')⟩ u := by
    intro u hu m m' _ j d' htarget hsignature
    obtain ⟨hd', hnamed'⟩ := ModuleScope.offers_of_target? htarget
    by_cases heq : i = j
    · obtain rfl := heq
      obtain rfl := Option.some.inj (hd.symm.trans hd')
      exact responds_self _ _
    · have hneeds : engine.scope.Needs i j := ⟨heq, d, u, d', hd, hu, htarget, hsignature⟩
      exact (ih j hneeds hd' hnamed').responds hnames hd hnamed hd' hnamed' hneeds
        (not_transGen_self (hacc j hneeds) ∘ Relation.transGen_swap.mpr) hs.leads hs'.leads m m'
  have hpass : SameOutcome SameResult
      (fun w w' => w.session.Inside engine d s.active ∧ w'.session.Inside engine d s'.active)
      (inferDeclaration (exprAt n) d ⟨engine, i⟩ ⟨SessionM.entered (DeclKey.ofDecl engine.file d) s, {}⟩)
      (inferDeclaration (exprAt n') d ⟨engine, i⟩ ⟨SessionM.entered (DeclKey.ofDecl engine.file d) s', {}⟩) :=
    sameOutcome_inferDeclaration (S := fun s₁ s₁' => s₁.Inside engine d s.active ∧ s₁'.Inside engine d s'.active)
      (concordant_pair hnames s.active s'.active) (fun _ _ => True) (fun _ _ => id) hfine trivial
      ⟨hs.settled.entered, hs'.settled.entered⟩
  rw [answerOf_compute, answerOf_compute]
  exact sameOutcome_iff.mp (hpass.mono (fun _ _ => id) fun _ _ _ => trivial)

end Sessions

/-! ### Requests -/

namespace Engine

variable {engine : Engine} {i : Nat} {s : Session}

/-- A request that yields a result has neither faulted nor been refused. -/
theorem ok_of_answer {answer : Except Fault (Except InferError InferenceResult)} {result : InferenceResult}
    (h : answer.toOption.bind Except.toOption = some result) : answer = .ok (.ok result) := by
  rcases answer with fault | e | found
  · cases h
  · cases h
  · cases h
    rfl

theorem place?_eq_some {targets : List ValueTarget} {index : Nat} {d : ValueDecl}
    (h : place? (.declared i) targets = some (index, d)) : index = i ∧ .value index d ∈ targets := by
  obtain ⟨target, hmem, hplace⟩ := List.exists_of_findSome?_eq_some h
  cases target with
  | value index' d' =>
    dsimp only at hplace
    split at hplace
    · next heq =>
      cases hplace
      exact ⟨heq, hmem⟩
    · cases hplace
  | _ => cases hplace

theorem place?_of_mem {targets : List ValueTarget} {d : ValueDecl} (h : .value i d ∈ targets) :
    ∃ d', place? (.declared i) targets = some (i, d') := by
  cases hplace : place? (.declared i) targets with
  | none => simpa using List.findSome?_eq_none_iff.mp hplace _ h
  | some found =>
    obtain ⟨index, d'⟩ := found
    obtain ⟨rfl, -⟩ := place?_eq_some hplace
    exact ⟨d', rfl⟩

/-- A request that is answered is refused, or it is for a declaration of the module, which is inferred. -/
theorem infer_inv {request : Request} {s' : Session} {answer : Except InferError InferenceResult}
    (hrun : engine.infer request s = (.ok answer, s')) :
    ∃ flag, (∃ name, answer = .error (.notTopLevel name) ∧ s' = { s with flag }) ∨
      ∃ i d outcome, request = .declared i ∧ engine.scope.Offers (.value i d) ∧ answer = outcome.map Prod.fst ∧
        SessionM.inferTopLevel (InferM.exprAt engine.budget) i d engine { s with flag } = (.ok outcome, s') := by
  rw [infer] at hrun
  rcases hdecl : engine.decl? request with _ | d
  · rw [hdecl] at hrun
    cases hrun
    exact ⟨_, .inl ⟨_, rfl, rfl⟩⟩
  rw [hdecl] at hrun
  dsimp only at hrun
  rw [inferDecl] at hrun
  rcases hnames : d.head.boundNames with _ | ⟨name, more⟩
  · rw [hnames] at hrun
    cases hrun
    exact ⟨_, .inl ⟨_, rfl, rfl⟩⟩
  rw [hnames] at hrun
  obtain ⟨targets, s₁, hfind, hrun⟩ := InferM.run_bind_inv hrun
  obtain ⟨rfl, flag, rfl⟩ := SessionM.run_findValues_inv hfind
  refine ⟨flag, ?_⟩
  rcases hplace : place? request (engine.scope.findValues (Ref.plain name.name)) with _ | ⟨i, d'⟩
  · rw [hplace] at hrun
    cases hrun
    exact .inl ⟨_, rfl, rfl⟩
  · rw [hplace] at hrun
    obtain ⟨outcome, s₁, hinfer, hrun⟩ := InferM.run_bind_inv hrun
    cases request with
    | detached decl =>
      obtain ⟨target, -, hnone⟩ := List.exists_of_findSome?_eq_some hplace
      cases target <;> cases hnone
    | declared wanted =>
      obtain ⟨rfl, hmem⟩ := place?_eq_some hplace
      refine .inr ⟨i, d', outcome, rfl, ModuleScope.offers_of_mem_findValues hmem, ?_⟩
      rcases outcome with e | ⟨result, notes⟩ <;> cases hrun <;> exact ⟨rfl, hinfer⟩

/-- A request for a declaration that binds a name is answered by inferring the declaration. -/
theorem infer_of_named {d : ValueDecl} (hd : engine.scope.module.valueAt? i = some d) (hnamed : d.names ≠ [])
    (hflag : s.flag = none) : engine.infer (.declared i) s =
      (answerOf (SessionM.inferTopLevel (InferM.exprAt engine.budget) i d engine s).1,
        (SessionM.inferTopLevel (InferM.exprAt engine.budget) i d engine s).2) := by
  unfold infer decl?
  dsimp only
  rw [hd]
  dsimp only
  unfold inferDecl
  rcases hnames : d.head.boundNames with _ | ⟨name, more⟩
  · exact absurd (List.map_eq_nil_iff.mpr hnames) hnamed
  · dsimp only
    rw [InferM.run_bind_ok _ (SessionM.run_findValues_of_none hflag _)]
    have hname : name.name ∈ d.names := List.mem_map_of_mem (hnames ▸ List.mem_cons_self)
    obtain ⟨d', hplace⟩ := place?_of_mem (ModuleScope.value_mem_findValues hd hname)
    obtain ⟨hd', -⟩ := ModuleScope.offers_of_mem_findValues (place?_eq_some hplace).2
    obtain rfl := Option.some.inj (hd.symm.trans hd')
    rw [hplace]
    dsimp only
    rcases hrun : SessionM.inferTopLevel (InferM.exprAt engine.budget) i d engine s with ⟨fault | outcome, s'⟩
    · rw [run_bind_error _ hrun]
      rfl
    · rw [InferM.run_bind_ok _ hrun]
      rcases outcome with e | ⟨result, recursive⟩ <;> rfl

/-- A request is refused for good, or answered by inferring the declaration. -/
theorem infer_cases (engine : Engine) (i : Nat) :
    (∃ e, ∀ s : Session, s.flag = none → engine.infer (.declared i) s = (.ok (.error e), s)) ∨
      ∃ d, engine.scope.module.valueAt? i = some d ∧ d.names ≠ [] ∧ ∀ s : Session, s.flag = none →
        engine.infer (.declared i) s =
          (answerOf (SessionM.inferTopLevel (InferM.exprAt engine.budget) i d engine s).1,
            (SessionM.inferTopLevel (InferM.exprAt engine.budget) i d engine s).2) := by
  rcases hd : engine.scope.module.valueAt? i with _ | d
  · refine .inl ⟨.notTopLevel "", fun _ _ => ?_⟩
    rw [infer, decl?, hd]
  · by_cases hnamed : d.names = []
    · refine .inl ⟨.notTopLevel d.head.label, fun _ _ => ?_⟩
      rw [infer, decl?, hd]
      dsimp only
      rw [inferDecl, List.map_eq_nil_iff.mp hnamed]
      rfl
    · exact .inr ⟨d, rfl, hnamed, fun s hflag => infer_of_named hd hnamed hflag⟩

theorem settled_infer (hnames : engine.scope.module.DistinctNames) (hs : s.Settled engine) (hactive : s.active = [])
    {answer : Except InferError InferenceResult} {s' : Session}
    (hrun : engine.infer (.declared i) s = (.ok answer, s')) : s'.Settled engine ∧ s'.active = [] := by
  rcases engine.infer_cases i with ⟨e, hrefused⟩ | ⟨d, hd, hnamed, hanswered⟩
  · rw [hrefused s hs.flag] at hrun
    cases hrun
    exact ⟨hs, hactive⟩
  · rw [hanswered s hs.flag] at hrun
    rcases hinfer : SessionM.inferTopLevel (InferM.exprAt engine.budget) i d engine s with ⟨fault | outcome, s₁⟩
    · rw [hinfer] at hrun
      cases hrun
    · rw [hinfer] at hrun
      cases hrun
      obtain ⟨hsettled, hsame⟩ :=
        settled_inferTopLevel hnames hs hd hnamed (hactive ▸ nofun) (hactive ▸ List.not_mem_nil) hinfer
      exact ⟨hsettled, hsame.trans hactive⟩

/-- Every answer to a sequence of requests is the answer to one request, in a session that requests led to. -/
theorem exists_session_of_inferEach (hnames : engine.scope.module.DistinctNames) (hs : s.Settled engine)
    (hactive : s.active = []) {requests : List (Nat × ValueDecl)} {k : Nat} {d : ValueDecl} {name : Name}
    {outcome : Except Fault (Except InferError InferenceResult)} (hrequest : requests[k]? = some (i, d))
    (hanswer : (engine.inferEach requests s).1[k]? = some (name, outcome)) :
    ∃ s₀ : Session, s₀.Settled engine ∧ s₀.active = [] ∧ outcome = (engine.infer (.declared i) s₀).1 := by
  induction requests generalizing s k with
  | nil => cases hrequest
  | cons request rest ih =>
    obtain ⟨index, decl⟩ := request
    rw [inferEach] at hanswer
    rcases hinfer : engine.infer (.declared index) s with ⟨fault | answer, s'⟩
    · rw [hinfer] at hanswer
      cases k with
      | zero =>
        cases hrequest
        cases hanswer
        exact ⟨s, hs, hactive, by rw [hinfer]⟩
      | succ k => cases hanswer
    · rw [hinfer] at hanswer
      cases k with
      | zero =>
        cases hrequest
        cases hanswer
        exact ⟨s, hs, hactive, by rw [hinfer]⟩
      | succ k =>
        obtain ⟨hs', hactive'⟩ := settled_infer hnames hs hactive hinfer
        exact ih hs' hactive' hrequest hanswer

/-- Two sequences of requests, each from an empty session, get the same answer for a declaration from which references
between declarations without signatures lead into no cycle, wherever it stands in the sequences. A request that does not
end gets no answer that could be compared. -/
theorem answers_do_not_depend_on_request_order (engine : Engine) (hnames : engine.scope.module.DistinctNames) (i : Nat)
    (hcycle : engine.scope.CycleFree i) (requests requests' : List (Nat × ValueDecl)) (k k' : Nat) (d d' : ValueDecl)
    (hrequest : requests[k]? = some (i, d)) (hrequest' : requests'[k']? = some (i, d')) (name name' : Name)
    (outcome outcome' : Except Fault (Except InferError InferenceResult))
    (hanswer : (engine.inferEach requests {}).1[k]? = some (name, outcome))
    (hanswer' : (engine.inferEach requests' {}).1[k']? = some (name', outcome'))
    (hends : outcome ≠ .error .diverged) (hends' : outcome' ≠ .error .diverged) : outcome = outcome' := by
  obtain ⟨s, hs, hactive, rfl⟩ := exists_session_of_inferEach hnames settled_empty rfl hrequest hanswer
  obtain ⟨s', hs', hactive', rfl⟩ := exists_session_of_inferEach hnames settled_empty rfl hrequest' hanswer'
  rcases engine.infer_cases i with ⟨e, hrefused⟩ | ⟨decl, hdecl, hnamed, hanswered⟩
  · rw [hrefused s hs.flag, hrefused s' hs'.flag]
  · have hready : ∀ {s : Session}, s.Settled engine → s.active = [] → s.Ready engine i :=
      fun hs hactive => ⟨hs, hactive ▸ nofun⟩
    have hdetermined := determined_of_acc hnames hcycle.acc hdecl hnamed
    have hsame := hdetermined.sameAnswer hdecl hnamed (hready hs hactive) (hready hs' hactive') engine.budget engine.budget
    rw [hanswered s hs.flag] at hends ⊢
    rw [hanswered s' hs'.flag] at hends' ⊢
    exact hsame hends hends'

/-- In `f x = g x ; g y = [ y, 1 ]`, asking for `f` alone and asking for `g` before give the same for `f`. -/
theorem answers_do_not_depend_on_request_order_of_call :
    let f : ValueDecl :=
      ⟨2, none, .function ⟨3, "f"⟩ [.mk 0 0 (.var "x")],
        .mk 3 6 (.call (.mk 1 4 (.var (.plain "g"))) [.mk 2 5 (.var (.plain "x"))])⟩
    let g : ValueDecl :=
      ⟨10, none, .function ⟨11, "g"⟩ [.mk 4 7 (.var "y")],
        .mk 7 12 (.list [.mk 5 8 (.var (.plain "y")), .mk 6 9 (.literal .int)])⟩
    let engine : Engine := { file := 0, scope := { module := ⟨"Main", [.value f, .value g]⟩ } }
    let alone := (engine.inferEach [(0, f)] {}).1[0]?.map Prod.snd
    let after := (engine.inferEach [(1, g), (0, f)] {}).1[1]?.map Prod.snd
    engine.scope.module.DistinctNames ∧ engine.scope.CycleFree 0 ∧ engine.scope.Needs 0 1 ∧
      alone.map Except.isOk = some true ∧ after.map Except.isOk = some true ∧ alone = after := by
  intro f g engine alone after
  have hnames : engine.scope.module.DistinctNames := ⟨List.nodup_nil, by decide, by decide⟩
  have hneeds : engine.scope.Needs 0 1 :=
    ⟨by decide, f, .value (.plain "g"), g, rfl, List.mem_singleton_self _, rfl, rfl⟩
  have honly : ∀ i j, engine.scope.Needs i j → i = 0 ∧ j = 1 := by
    rintro i j ⟨-, d, u, d', hd, hu, htarget, -⟩
    match i with
    | 0 =>
      obtain rfl : f = d := Option.some.inj hd
      obtain rfl : u = .value (.plain "g") := List.mem_singleton.mp hu
      cases htarget
      exact ⟨rfl, rfl⟩
    | 1 =>
      obtain rfl : g = d := Option.some.inj hd
      cases hu
    | i + 2 => cases hd
  have hcycle : engine.scope.CycleFree 0 := by
    intro j _ hcycle
    obtain ⟨k, hstep, hback⟩ := Relation.TransGen.head'_iff.mp hcycle
    obtain ⟨rfl, rfl⟩ := honly _ _ hstep
    rcases Relation.ReflTransGen.cases_head hback with heq | ⟨_, hstep, -⟩
    · cases heq
    · cases (honly _ _ hstep).1
  have hends : alone.map Except.isOk = some true := by decide +kernel
  have hends' : after.map Except.isOk = some true := by decide +kernel
  obtain ⟨outcome, halone, hok⟩ := Option.map_eq_some_iff.mp hends
  obtain ⟨outcome', hafter, hok'⟩ := Option.map_eq_some_iff.mp hends'
  obtain ⟨⟨name, _⟩, hanswer, rfl⟩ := Option.map_eq_some_iff.mp halone
  obtain ⟨⟨name', _⟩, hanswer', rfl⟩ := Option.map_eq_some_iff.mp hafter
  have hterminates : ∀ outcome : Except Fault (Except InferError InferenceResult), outcome.isOk = true →
      outcome ≠ .error .diverged := by
    rintro _ hok rfl
    cases hok
  refine ⟨hnames, hcycle, hneeds, hends, hends', halone.trans (Eq.trans ?_ hafter.symm)⟩
  exact congrArg some (answers_do_not_depend_on_request_order engine hnames 0 hcycle _ _ 0 1 f f rfl rfl name name' _ _
    hanswer hanswer' (hterminates _ hok) (hterminates _ hok'))

/-- In `a x = b x ; b x = [ 1, a x ]`, nothing is wrong with `b` if it is asked for first. If `a` is asked for first, it
is found to give lists, and then the items of `b` do not fit together. -/
theorem answers_for_a_cycle_depend_on_request_order :
    let a : ValueDecl :=
      ⟨2, none, .function ⟨3, "a"⟩ [.mk 0 0 (.var "x")],
        .mk 3 6 (.call (.mk 1 4 (.var (.plain "b"))) [.mk 2 5 (.var (.plain "x"))])⟩
    let b : ValueDecl :=
      ⟨12, none, .function ⟨13, "b"⟩ [.mk 4 7 (.var "x")],
        .mk 9 14 (.list
          [.mk 5 8 (.literal .int),
           .mk 8 11 (.call (.mk 6 9 (.var (.plain "a"))) [.mk 7 10 (.var (.plain "x"))])])⟩
    let engine : Engine := { file := 0, scope := { module := ⟨"Main", [.value a, .value b]⟩ } }
    let problems (answers : List (Name × Except Fault (Except InferError InferenceResult))) (k : Nat) :=
      answers[k]?.map (fun answer => answer.2.toOption.bind (·.toOption.map (·.problems.map Problem.pos)))
    engine.scope.module.DistinctNames ∧ problems (engine.inferEach [(1, b)] {}).1 0 = some (some []) ∧
      problems (engine.inferEach [(0, a), (1, b)] {}).1 1 = some (some [11]) := by
  intro a b engine problems
  exact ⟨⟨List.nodup_nil, by decide, by decide⟩, by decide +kernel, by decide +kernel⟩

end Engine

end ElmInference
