import ElmInference.Infer.Expr
import ElmInference.Proofs.Store.Access

/-!
# Runs of inference

A run of inference returns or faults, and leaves the state behind either way. Here is what a run that returns
says about its parts: each part has returned, in the state that the parts before it left. Work on the store
changes nothing of the state but the store.
-/

namespace ElmInference

def Work.withStore (w : Work) (s : Store) : Work :=
  { w with pass := { w.pass with store := s } }

@[simp]
theorem Work.store_withStore (w : Work) (s : Store) : (w.withStore s).pass.store = s := rfl

theorem Work.withStore_self (w : Work) : w.withStore w.pass.store = w := rfl

namespace InferM

section Sequence

-- Passes and sessions run alike, each on a state of its own.
variable {ρ σ α β : Type} {context : ρ} {w w' : σ}

theorem run_bind_ok {x : ReaderT ρ (ExceptT Fault (StateM σ)) α} {a : α}
    (f : α → ReaderT ρ (ExceptT Fault (StateM σ)) β) (h : x context w = (.ok a, w')) :
    (x >>= f) context w = f a context w' := by
  change ExceptT.bindCont (fun a => f a context) (x context w).1 (x context w).2 = _
  rw [h]
  rfl

theorem run_bind_inv {x : ReaderT ρ (ExceptT Fault (StateM σ)) α}
    {f : α → ReaderT ρ (ExceptT Fault (StateM σ)) β} {b : β} (h : (x >>= f) context w = (.ok b, w')) :
    ∃ a w₁, x context w = (.ok a, w₁) ∧ f a context w₁ = (.ok b, w') := by
  rcases hx : x context w with ⟨_ | a, w₁⟩
  · change ExceptT.bindCont (fun a => f a context) (x context w).1 (x context w).2 = _ at h
    rw [hx] at h
    cases h
  · rw [run_bind_ok f hx] at h
    exact ⟨a, w₁, rfl, h⟩

theorem run_pure_inv {a b : α} (h : (pure a : ReaderT ρ (ExceptT Fault (StateM σ)) α) context w = (.ok b, w')) :
    b = a ∧ w = w' := by
  cases h
  exact ⟨rfl, rfl⟩

theorem run_eq_of_isOk {x : ReaderT ρ (ExceptT Fault (StateM σ)) Unit} (h : (x context w).1.isOk = true) :
    x context w = (.ok (), (x context w).2) := by
  rcases hx : x context w with ⟨_ | _, w'⟩
  · rw [hx] at h
    cases h
  · rfl

end Sequence

variable {α : Type} {context : Context} {w w' : Work}

theorem run_store_ok {work : StoreM α} {a : α} {s' : Store} (h : work w.pass.store = .ok (a, s')) :
    store work context w = (.ok a, w.withStore s') := by
  have hpass : getPass context w = (.ok w.pass, w) := rfl
  unfold store
  rw [run_bind_ok _ hpass, h]
  rfl

theorem run_store_inv {work : StoreM α} {a : α} (h : store work context w = (.ok a, w')) :
    ∃ s', work w.pass.store = .ok (a, s') ∧ w' = w.withStore s' := by
  have hpass : getPass context w = (.ok w.pass, w) := rfl
  rcases hwork : work w.pass.store with fault | ⟨b, s'⟩
  · unfold store at h
    rw [run_bind_ok _ hpass, hwork] at h
    cases h
  · rw [run_store_ok hwork] at h
    cases h
    exact ⟨s', rfl, rfl⟩

theorem run_read_ok {f : Store → Except Fault α} {a : α} (h : f w.pass.store = .ok a) :
    store (StoreM.read f) context w = (.ok a, w) := by
  refine run_store_ok ?_
  rw [StoreM.read, h]
  rfl

theorem run_change_ok {f : Store → Except Fault Store} {s : Store} (h : f w.pass.store = .ok s) :
    store (StoreM.change f) context w = (.ok (), w.withStore s) := by
  refine run_store_ok ?_
  rw [StoreM.change, h]
  rfl

theorem run_read_inv {f : Store → Except Fault α} {a : α}
    (h : store (StoreM.read f) context w = (.ok a, w')) : f w.pass.store = .ok a ∧ w = w' := by
  obtain ⟨s', hread, rfl⟩ := run_store_inv h
  rcases hf : f w.pass.store with fault | b
  · simp [StoreM.read, hf, Except.map] at hread
  · simp only [StoreM.read, hf, Except.map, Except.ok.injEq, Prod.mk.injEq] at hread
    obtain ⟨rfl, rfl⟩ := hread
    exact ⟨rfl, w.withStore_self⟩

theorem run_freshVar (name : Name) :
    freshVar name context w =
      (.ok (.var ⟨w.pass.store.size, name, false⟩), w.withStore w.pass.store.extended) := rfl

theorem run_allocate (work : Store → α × Store) :
    allocate work context w = (.ok (work w.pass.store).1, w.withStore (work w.pass.store).2) := rfl

theorem run_session (x : SessionM α) (w : Work) : session x context w =
    ((x context.engine w.session).1, { w with session := (x context.engine w.session).2 }) := rfl

/-- Work of the session leaves the pass alone. -/
theorem run_session_inv {x : SessionM α} {a : α} (h : session x context w = (.ok a, w')) :
    ∃ s, x context.engine w.session = (.ok a, s) ∧ w' = { w with session := s } := by
  rw [run_session] at h
  obtain ⟨hresult, rfl⟩ := Prod.mk.inj h
  exact ⟨_, Prod.ext hresult rfl, rfl⟩

/-- A name is found in the scope that so many other scopes lie inside of. -/
theorem drop_of_lookupIn {name : Name} {scopes : List Scope} {inner : Nat} {binding : Binding}
    (h : lookupIn name scopes = some (inner, binding)) :
    ∃ scope outer, scopes.drop inner = scope :: outer ∧ Assoc.get? scope name = some binding := by
  induction scopes generalizing inner with
  | nil => cases h
  | cons scope outer ih =>
    rw [lookupIn] at h
    split at h
    · next hget =>
      cases h
      exact ⟨scope, outer, rfl, hget⟩
    · obtain ⟨⟨inner', binding'⟩, hfound, heq⟩ := Option.map_eq_some_iff.mp h
      cases heq
      exact ih hfound

end InferM

end ElmInference
