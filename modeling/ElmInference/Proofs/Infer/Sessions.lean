import ElmInference.Engine
import ElmInference.Proofs.Assoc
import ElmInference.Proofs.Infer.Runs

/-!
# Runs on a session

By itself a session does little: it looks at its flag, looks up names, works on the declared types, and infers a
declaration that has no kept result by a pass of its own. Here is what a run of each leaves of the session.

What holds of all results and declared types of a cache stays so over the call of a declaration if the passes keep it
so, and then it holds of the answer too, whether it was kept or is new.
-/

namespace ElmInference

/-! ### Kept results -/

namespace Cache

theorem get?_insert_self (c : Cache) (key : DeclKey) (result : InferenceResult) :
    (c.insert key result).get? key = some result := by
  rw [get?, insert, Assoc.get?_set_self]

theorem get?_insert_of_ne (c : Cache) {key other : DeclKey} (result : InferenceResult)
    (h : key.name ≠ other.name) : (c.insert key result).get? other = c.get? other := by
  have hkept : ∀ entry : Entry, (!(other, entry).1.sameDecl key || (other, entry).1.signature == key.signature) = true := by
    intro entry
    simp [DeclKey.sameDecl, Ne.symm h]
  rw [get?, insert, Assoc.get?_set_of_ne _ _ fun heq => h (congrArg DeclKey.name heq), Assoc.get?_filter hkept]
  rfl

theorem get?_entries_invalidate (c : Cache) (change : Change) (key : DeclKey) :
    Assoc.get? (c.invalidate change).entries key =
      (Assoc.get? c.entries key).map (fun entry => if c.affects change key then .stale else entry) := by
  have hentries : (c.invalidate change).entries =
      c.entries.map (fun e => (e.1, if c.affects change e.1 then Entry.stale else e.2)) := by
    refine List.map_congr_left fun e _ => ?_
    split <;> rfl
  rw [hentries, Assoc.get?_map c.entries (fun key e => if c.affects change key then Entry.stale else e)]

/-- A change takes away the results that it affects. -/
theorem get?_invalidate (c : Cache) (change : Change) (key : DeclKey) :
    (c.invalidate change).get? key = if c.affects change key then none else c.get? key := by
  rw [get?, get?_entries_invalidate]
  cases h : c.affects change key <;> rw [get?] <;> cases Assoc.get? c.entries key <;> rfl

/-- Whether all results that are in a cache are as asked, and so are all its declared types. -/
structure Keeps (R : InferenceResult → Prop) (D : DeclaredType → Prop) (c : Cache) : Prop where
  results : ∀ key r, (key, Entry.computed r) ∈ c.entries → R r
  declared : ∀ entry ∈ c.declared, D entry.2

variable {R : InferenceResult → Prop} {D : DeclaredType → Prop} {c : Cache} {key : DeclKey} {result : InferenceResult}

theorem Keeps.of_get? (h : c.Keeps R D) (hget : c.get? key = some result) : R result := by
  unfold get? at hget
  split at hget
  · next hentry =>
    cases hget
    exact h.results _ _ (Assoc.mem_of_get? hentry)
  · cases hget

theorem Keeps.insert (h : c.Keeps R D) (key : DeclKey) (hresult : R result) : (c.insert key result).Keeps R D where
  results key' r hmem := by
    rcases Assoc.mem_set hmem with hmem | heq
    · exact h.results key' r (List.mem_of_mem_filter hmem)
    · cases heq
      exact hresult
  declared := h.declared

end Cache

/-! ### The parts of a session -/

def Session.types (s : Session) : TypeTable :=
  ⟨s.cache.declared, s.converting⟩

def Session.withTypes (s : Session) (table : TypeTable) : Session :=
  { s with cache := { s.cache with declared := table.declared }, converting := table.converting }

namespace SessionM

variable {engine : Engine} {name : Ref} {s s' : Session}

/-- Without a flag the work is not called off. -/
theorem run_isCancelled_of_none (h : s.flag = none) : isCancelled engine s = (.ok false, s) := by
  obtain ⟨cache, active, converting, _⟩ := s
  cases h
  rfl

/-- To look at the flag changes nothing else. -/
theorem run_isCancelled_inv {seen : Bool} (hrun : isCancelled engine s = (.ok seen, s')) :
    ∃ flag, s' = { s with flag } := by
  obtain ⟨cache, active, converting, _ | flag⟩ := s
  · cases hrun
    exact ⟨_, rfl⟩
  · cases hrun
    exact ⟨_, rfl⟩

/-- Without a flag there is nothing to raise. -/
theorem run_trip_of_none (h : s.flag = none) (name : Ref) : trip name engine s = (.ok (), s) := by
  obtain ⟨cache, active, converting, _⟩ := s
  cases h
  have hread : (read : SessionM Engine) engine ⟨cache, active, converting, none⟩ =
    (.ok engine, ⟨cache, active, converting, none⟩) := rfl
  rw [trip, InferM.run_bind_ok _ hread]
  split <;> rfl

/-- A lookup may raise the flag and does nothing else. -/
theorem run_trip_inv {u : Unit} (hrun : trip name engine s = (.ok u, s')) : ∃ flag, s' = { s with flag } := by
  obtain ⟨_, _, hread, hrun⟩ := InferM.run_bind_inv hrun
  cases hread
  split at hrun
  · cases hrun
    exact ⟨_, rfl⟩
  · cases hrun
    exact ⟨_, rfl⟩

theorem run_findValues_of_none (h : s.flag = none) (name : Ref) :
    findValues name engine s = (.ok (engine.scope.findValues name), s) := by
  rw [findValues, InferM.run_bind_ok _ (run_trip_of_none h name)]
  rfl

theorem run_findValues_inv {targets : List ValueTarget} (hrun : findValues name engine s = (.ok targets, s')) :
    targets = engine.scope.findValues name ∧ ∃ flag, s' = { s with flag } := by
  obtain ⟨_, s₁, htrip, hrun⟩ := InferM.run_bind_inv hrun
  obtain ⟨flag, rfl⟩ := run_trip_inv htrip
  cases hrun
  exact ⟨rfl, flag, rfl⟩

theorem run_withTypes {α : Type} (work : StateM TypeTable α) (engine : Engine) (s : Session) :
    withTypes work engine s = (.ok (work s.types).1, s.withTypes (work s.types).2) := rfl

end SessionM

/-! ### Declarations -/

namespace SessionM

variable {engine : Engine} {inferBody : Expr → InferM Ty} {key : DeclKey} {i : Nat} {d : ValueDecl} {s s' : Session}

def entered (key : DeclKey) (s : Session) : Session :=
  { s with active := key.name :: s.active }

def left (key : DeclKey) (s : Session) : Session :=
  { s with active := s.active.filter (· != key.name) }

/-- A declaration is no longer in progress when it is done. -/
theorem active_left_entered (hfree : key.name ∉ s.active) (h : s'.active = (entered key s).active) :
    (left key s').active = s.active := by
  have hothers : (key.name :: s.active).filter (· != key.name) = s.active := by
    rw [List.filter_cons_of_neg (by simp)]
    exact List.filter_eq_self.mpr fun label hlabel => bne_iff_ne.mpr fun heq => hfree (heq ▸ hlabel)
  rw [left, h]
  exact hothers

/-- What becomes of the outcome of a pass: a result that depends on no other declaration in progress is kept. -/
def concluded (key : DeclKey) (s : Session) : Except InferError Inferred → Except InferError Inferred × Session
  | .error e => (.error e, s)
  | .ok (result, notes) =>
    (.ok (result, notes.filter (· != key.name)),
      if (notes.filter (· != key.name)).isEmpty then { s with cache := s.cache.insert key result } else s)

theorem run_compute {outcome : Except InferError Inferred} {w : Work}
    (h : InferM.inferDeclaration inferBody d ⟨engine, i⟩ ⟨entered key s, {}⟩ = (.ok outcome, w)) :
    compute inferBody key i d engine s =
      (.ok (concluded key (left key w.session) outcome).1, (concluded key (left key w.session) outcome).2) := by
  have henter : (modify (fun session : Session => { session with active := key.name :: session.active }) : SessionM _)
    engine s = (.ok ⟨⟩, entered key s) := rfl
  have hpass : runPass i (InferM.inferDeclaration inferBody d) engine (entered key s) = (.ok outcome, w.session) := by
    rw [runPass, h]
  have hleave : (modify (fun session : Session =>
      { session with active := session.active.filter (· != key.name) }) : SessionM _) engine w.session =
    (.ok ⟨⟩, left key w.session) := rfl
  rw [compute, InferM.run_bind_ok _ henter, InferM.run_bind_ok _ hpass, InferM.run_bind_ok _ hleave]
  rcases outcome with e | ⟨result, notes⟩
  · rfl
  · dsimp only [concluded]
    split <;> rfl

/-- A declaration that was inferred anew had a pass of its own. -/
theorem run_compute_pass {a : Except InferError Inferred} (hrun : compute inferBody key i d engine s = (.ok a, s')) :
    ∃ outcome w, InferM.inferDeclaration inferBody d ⟨engine, i⟩ ⟨entered key s, {}⟩ = (.ok outcome, w) ∧
      concluded key (left key w.session) outcome = (a, s') := by
  obtain ⟨_, _, hmodify, hlater⟩ := InferM.run_bind_inv hrun
  cases hmodify
  obtain ⟨outcome, _, hpass, -⟩ := InferM.run_bind_inv hlater
  have hdecl : InferM.inferDeclaration inferBody d ⟨engine, i⟩ ⟨entered key s, {}⟩ = (.ok outcome, _) :=
    Prod.ext (congrArg Prod.fst hpass :) rfl
  rw [run_compute hdecl] at hrun
  obtain ⟨ha, hs'⟩ := Prod.mk.inj hrun
  exact ⟨outcome, _, hdecl, Prod.ext (Except.ok.inj ha) hs'⟩

theorem run_compute_inv {a : Except InferError Inferred}
    (hrun : compute inferBody key i d engine s = (.ok a, s')) :
    ∃ outcome w, InferM.inferDeclaration inferBody d ⟨engine, i⟩ ⟨entered key s, {}⟩ = (.ok outcome, w) ∧
      a.map Prod.fst = outcome.map Prod.fst ∧ (s' = left key w.session ∨
        ∃ result, a.map Prod.fst = .ok result ∧
          s' = { left key w.session with cache := w.session.cache.insert key result }) := by
  obtain ⟨outcome, w, hdecl, hconcluded⟩ := run_compute_pass hrun
  refine ⟨outcome, w, hdecl, ?_⟩
  rcases outcome with e | ⟨result, notes⟩
  · cases hconcluded
    exact ⟨rfl, .inl rfl⟩
  · obtain ⟨rfl, rfl⟩ := Prod.mk.inj hconcluded
    refine ⟨rfl, ?_⟩
    split
    · exact .inr ⟨result, rfl, rfl⟩
    · exact .inl rfl

theorem run_inferTopLevel_of_kept {result : InferenceResult}
    (hkept : s.cache.get? (DeclKey.ofDecl engine.file d) = some result) :
    inferTopLevel inferBody i d engine s = (.ok (.ok (result, [])), s) := by
  have hread : (read : SessionM Engine) engine s = (.ok engine, s) := rfl
  have hget : (get : SessionM Session) engine s = (.ok s, s) := rfl
  rw [inferTopLevel, InferM.run_bind_ok _ hread, InferM.run_bind_ok _ hget, hkept]
  rfl

theorem run_inferTopLevel_of_new (hflag : s.flag = none) (hnew : s.cache.get? (DeclKey.ofDecl engine.file d) = none) :
    inferTopLevel inferBody i d engine s = compute inferBody (DeclKey.ofDecl engine.file d) i d engine s := by
  have hread : (read : SessionM Engine) engine s = (.ok engine, s) := rfl
  have hget : (get : SessionM Session) engine s = (.ok s, s) := rfl
  rw [inferTopLevel, InferM.run_bind_ok _ hread, InferM.run_bind_ok _ hget, hnew]
  exact InferM.run_bind_ok _ (run_isCancelled_of_none hflag)

/-- A declaration that has no kept result is called off at once, or inferred. -/
theorem run_inferTopLevel_new_inv {outcome : Except InferError Inferred}
    (hnew : s.cache.get? (DeclKey.ofDecl engine.file d) = none)
    (hrun : inferTopLevel inferBody i d engine s = (.ok outcome, s')) :
    ∃ flag, (outcome = .error .cancelled ∧ s' = { s with flag }) ∨
      compute inferBody (DeclKey.ofDecl engine.file d) i d engine { s with flag } = (.ok outcome, s') := by
  obtain ⟨_, _, hread, hrun⟩ := InferM.run_bind_inv hrun
  cases hread
  obtain ⟨_, _, hget, hrun⟩ := InferM.run_bind_inv hrun
  cases hget
  rw [hnew] at hrun
  obtain ⟨seen, s₁, hseen, hrun⟩ := InferM.run_bind_inv hrun
  obtain ⟨flag, rfl⟩ := run_isCancelled_inv hseen
  cases seen with
  | true =>
    cases hrun
    exact ⟨flag, .inl ⟨rfl, rfl⟩⟩
  | false => exact ⟨flag, .inr hrun⟩

/-- An answer for a declaration that is not kept was found by a pass of its own. -/
theorem exists_inferDeclaration {inferred : Inferred} (hnew : s.cache.get? (DeclKey.ofDecl engine.file d) = none)
    (hrun : inferTopLevel inferBody i d engine s = (.ok (.ok inferred), s')) :
    ∃ flag w out, InferM.inferDeclaration inferBody d ⟨engine, i⟩
      ⟨entered (DeclKey.ofDecl engine.file d) { s with flag }, {}⟩ = (.ok (.ok out), w) ∧ out.1 = inferred.1 := by
  obtain ⟨flag, ⟨hcancelled, -⟩ | hcompute⟩ := run_inferTopLevel_new_inv hnew hrun
  · cases hcancelled
  obtain ⟨outcome, w, hdecl, hsame, -⟩ := run_compute_inv hcompute
  cases outcome with
  | error e => cases hsame
  | ok out => exact ⟨flag, w, out, hdecl, (Except.ok.inj hsame).symm⟩

/-- What is asked of everything that is kept holds of every answer, if a pass keeps it so and its result is as asked. -/
theorem keeps_inferTopLevel {R : InferenceResult → Prop} {D : DeclaredType → Prop}
    {outcome : Except InferError Inferred} (hs : s.cache.Keeps R D)
    (hpass : ∀ s out w, s.cache.Keeps R D → InferM.inferDeclaration inferBody d ⟨engine, i⟩ ⟨s, {}⟩ = (.ok out, w) →
      w.session.cache.Keeps R D ∧ ∀ result notes, out = .ok (result, notes) → R result)
    (hrun : inferTopLevel inferBody i d engine s = (.ok outcome, s')) :
    s'.cache.Keeps R D ∧ ∀ result notes, outcome = .ok (result, notes) → R result := by
  rcases hkept : s.cache.get? (DeclKey.ofDecl engine.file d) with _ | kept
  · obtain ⟨flag, ⟨rfl, rfl⟩ | hcompute⟩ := run_inferTopLevel_new_inv hkept hrun
    · exact ⟨hs, nofun⟩
    obtain ⟨out, w, hdecl, hconcluded⟩ := run_compute_pass hcompute
    obtain ⟨hw, hout⟩ := hpass (entered _ { s with flag }) out w hs hdecl
    rcases out with e | ⟨result, notes⟩
    · cases hconcluded
      exact ⟨hw, nofun⟩
    · have hresult := hout result notes rfl
      obtain ⟨rfl, rfl⟩ := Prod.mk.inj hconcluded
      refine ⟨?_, fun _ _ heq => by cases heq; exact hresult⟩
      split
      · exact hw.insert _ hresult
      · exact hw
  · rw [run_inferTopLevel_of_kept hkept] at hrun
    cases hrun
    exact ⟨hs, fun _ _ heq => by cases heq; exact hs.of_get? hkept⟩

end SessionM

end ElmInference
