import ElmInference.Proofs.Infer.Meanings
import ElmInference.Proofs.Infer.References
import ElmInference.Proofs.Infer.Sessions

/-!
# Two runs side by side

A pass reads little of its session: the declared types, whether a declaration is being inferred, and the results of
other declarations. Two runs of one computation that get the same answers to these questions give the same, fault
alike and leave passes that differ at most in their notes on declarations in progress. This is followed through the
whole of inference here, for any relation between sessions that answer alike. A run that does not come to an end is
not compared with anything.
-/

namespace ElmInference

open Conversion TypeTable

/-- Whether the sessions that a relation relates differ in nothing that a pass reads of declared types, and cannot be
called off. -/
structure Concordant (engine : Engine) (S : Session → Session → Prop) : Prop where
  distinct : engine.scope.module.DistinctTypes
  flag : ∀ s s', S s s' → s.flag = none ∧ s'.flag = none
  types : ∃ R, Lawful engine.scope R ∧ (∀ s s', S s s' → R s.types s'.types) ∧
    ∀ s s' table table', S s s' → R table table' → S (s.withTypes table) (s'.withTypes table')

/-- Two states of inference that differ in their sessions and in the notes on declarations in progress. -/
structure Work.Alike (S : Session → Session → Prop) (w w' : Work) : Prop where
  pass : w.pass.known = w'.pass.known
  session : S w.session w'.session

/-- Whether two outcomes are of the same kind: the same fault, or results and states in relation. -/
def SameOutcome {α α' σ : Type} (V : α → α' → Prop) (T : σ → σ → Prop) (out : Except Fault α × σ)
    (out' : Except Fault α' × σ) : Prop :=
  out.1 ≠ .error .diverged → out'.1 ≠ .error .diverged →
    (∃ fault, out.1 = .error fault ∧ out'.1 = .error fault) ∨
      ∃ a a', out.1 = .ok a ∧ out'.1 = .ok a' ∧ V a a' ∧ T out.2 out'.2

theorem SameOutcome.mono {α α' σ : Type} {V V' : α → α' → Prop} {T T' : σ → σ → Prop} {out : Except Fault α × σ}
    {out' : Except Fault α' × σ} (h : SameOutcome V T out out') (hV : ∀ a a', V a a' → V' a a')
    (hT : ∀ s s', T s s' → T' s s') : SameOutcome V' T' out out' := by
  intro hout hout'
  refine (h hout hout').imp_right ?_
  rintro ⟨a, a', ha, ha', hvalues, hstates⟩
  exact ⟨a, a', ha, ha', hV _ _ hvalues, hT _ _ hstates⟩

theorem SameOutcome.imp_states {α α' σ τ : Type} {V : α → α' → Prop} {T : σ → σ → Prop} {T' : τ → τ → Prop}
    {out : Except Fault α × σ} {out' : Except Fault α' × σ} (h : SameOutcome V T out out') (t t' : σ → τ)
    (hT : ∀ s s', T s s' → T' (t s) (t' s')) : SameOutcome V T' (out.1, t out.2) (out'.1, t' out'.2) := by
  intro hout hout'
  refine (h hout hout').imp_right ?_
  rintro ⟨a, a', ha, ha', hvalues, hstates⟩
  exact ⟨a, a', ha, ha', hvalues, hT _ _ hstates⟩

theorem sameOutcome_ok {α α' σ : Type} {V : α → α' → Prop} {T : σ → σ → Prop} {a : α} {a' : α'} {s s' : σ}
    (hV : V a a') (hT : T s s') : SameOutcome V T (.ok a, s) (.ok a', s') :=
  fun _ _ => .inr ⟨a, a', rfl, rfl, hV, hT⟩

theorem run_bind_error {ρ α β σ : Type} {context : ρ} {w w' : σ} {x : ReaderT ρ (ExceptT Fault (StateM σ)) α}
    (f : α → ReaderT ρ (ExceptT Fault (StateM σ)) β) {fault : Fault} (h : x context w = (.error fault, w')) :
    (x >>= f) context w = (.error fault, w') := by
  change ExceptT.bindCont (fun a => f a context) (x context w).1 (x context w).2 = _
  rw [h]
  rfl

theorem sameOutcome_bind {ρ α α' β β' σ : Type} {context : ρ} {x : ReaderT ρ (ExceptT Fault (StateM σ)) α}
    {x' : ReaderT ρ (ExceptT Fault (StateM σ)) α'} {f : α → ReaderT ρ (ExceptT Fault (StateM σ)) β}
    {f' : α' → ReaderT ρ (ExceptT Fault (StateM σ)) β'} {V : α → α' → Prop} {V' : β → β' → Prop}
    {T T' : σ → σ → Prop} {w w' : σ} (hx : SameOutcome V T (x context w) (x' context w'))
    (hf : ∀ a a' w₁ w₁', x context w = (.ok a, w₁) → x' context w' = (.ok a', w₁') → V a a' → T w₁ w₁' →
      SameOutcome V' T' (f a context w₁) (f' a' context w₁')) :
    SameOutcome V' T' ((x >>= f) context w) ((x' >>= f') context w') := by
  intro hout hout'
  have hends : (x context w).1 ≠ .error .diverged :=
    fun heq => hout (congrArg Prod.fst (run_bind_error f (Prod.ext heq rfl)))
  have hends' : (x' context w').1 ≠ .error .diverged :=
    fun heq => hout' (congrArg Prod.fst (run_bind_error f' (Prod.ext heq rfl)))
  rcases hx hends hends' with ⟨fault, hfault, hfault'⟩ | ⟨a, a', ha, ha', hV, hT⟩
  · exact .inl ⟨fault, congrArg Prod.fst (run_bind_error f (Prod.ext hfault rfl)),
      congrArg Prod.fst (run_bind_error f' (Prod.ext hfault' rfl))⟩
  · have hrun : x context w = (.ok a, (x context w).2) := Prod.ext ha rfl
    have hrun' : x' context w' = (.ok a', (x' context w').2) := Prod.ext ha' rfl
    rw [InferM.run_bind_ok f hrun] at hout ⊢
    rw [InferM.run_bind_ok f' hrun'] at hout' ⊢
    exact hf _ _ _ _ hrun hrun' hV hT hout hout'

theorem Work.Alike.store {S : Session → Session → Prop} {w w' : Work} (h : w.Alike S w') :
    w.pass.store = w'.pass.store :=
  (congrArg Pass.store h.pass :)

namespace InferM

variable {α α' β β' : Type} {context : Context} {S : Session → Session → Prop} {P Q : List Scope → Prop}

/-- Whether two computations have outcomes of the same kind in states that are alike, and lead from `P` to `Q` for
the scopes. -/
def Agree (context : Context) (S : Session → Session → Prop) (P Q : List Scope → Prop) (V : α → α' → Prop)
    (x : InferM α) (x' : InferM α') : Prop :=
  ∀ w w', w.Alike S w' → P w.pass.scopes →
    SameOutcome V (fun w₁ w₁' => w₁.Alike S w₁' ∧ Q w₁.pass.scopes) (x context w) (x' context w')

theorem agree_pure {V : α → α' → Prop} {a : α} {a' : α'} (h : V a a') : Agree context S P P V (pure a) (pure a') :=
  fun _ _ halike hP => sameOutcome_ok h ⟨halike, hP⟩

theorem Agree.bind {x : InferM α} {x' : InferM α'} {f : α → InferM β} {f' : α' → InferM β'} {P₁ : List Scope → Prop}
    {V : α → α' → Prop} {V' : β → β' → Prop} (hx : Agree context S P P₁ V x x')
    (hf : ∀ a a', V a a' → Agree context S P₁ Q V' (f a) (f' a')) :
    Agree context S P Q V' (x >>= f) (x' >>= f') :=
  fun w w' halike hP => sameOutcome_bind (hx w w' halike hP) fun a a' _ _ _ _ hV h => hf a a' hV _ _ h.1 h.2

/-- Computations with the same result go on alike. -/
theorem Agree.bind_eq {x x' : InferM α} {f f' : α → InferM β} {P₁ : List Scope → Prop} {V : β → β → Prop}
    (hx : Agree context S P P₁ Eq x x') (hf : ∀ a, Agree context S P₁ Q V (f a) (f' a)) :
    Agree context S P Q V (x >>= f) (x' >>= f') :=
  hx.bind fun a _ heq => heq ▸ hf a

theorem Agree.mono {x : InferM α} {x' : InferM α'} {V V' : α → α' → Prop} {P' Q' : List Scope → Prop}
    (h : Agree context S P Q V x x') (hP : ∀ scopes, P' scopes → P scopes) (hQ : ∀ scopes, Q scopes → Q' scopes)
    (hV : ∀ a a', V a a' → V' a a') : Agree context S P' Q' V' x x' :=
  fun w w' halike hP' => (h w w' halike (hP _ hP')).mono hV fun _ _ hstates => ⟨hstates.1, hQ _ hstates.2⟩

/-- What a result is known to be may be used in what follows. -/
theorem Agree.yielding {x : InferM α} {x' : InferM α'} {V : α → α' → Prop} {Y : α → Prop}
    (h : Agree context S P Q V x x') (hY : ∀ w a w', x context w = (.ok a, w') → Y a) :
    Agree context S P Q (fun a a' => V a a' ∧ Y a) x x' := by
  intro w w' halike hP hout hout'
  refine (h w w' halike hP hout hout').imp_right ?_
  rintro ⟨a, a', ha, ha', hV, hstates⟩
  exact ⟨a, a', ha, ha', ⟨hV, hY w a _ (Prod.ext ha rfl)⟩, hstates⟩

/-- Whether two runs of one computation have outcomes of the same kind. -/
def Same (context : Context) (S : Session → Session → Prop) (P : List Scope → Prop) (x : InferM α) : Prop :=
  Agree context S P P Eq x x

theorem Same.agree {x : InferM α} (h : Same context S P x) : Agree context S P P Eq x x := h

theorem same_pure (a : α) : Same context S P (pure a) :=
  agree_pure rfl

theorem Same.bind {x : InferM α} {f : α → InferM β} (hx : Same context S P x) (hf : ∀ a, Same context S P (f a)) :
    Same context S P (x >>= f) :=
  hx.agree.bind_eq hf

theorem same_throw (fault : Fault) : Same context S P (throw fault : InferM α) :=
  fun _ _ _ _ _ _ => .inl ⟨fault, rfl, rfl⟩

/-! ### The state of a pass -/

/-- What is read of a pass, the notes on declarations in progress apart, is the same. -/
theorem same_getPass {f : Pass → InferM α} (hf : ∀ pass, f pass = f pass.known) (h : ∀ pass, Same context S P (f pass)) :
    Same context S P (getPass >>= f) := by
  intro w w' halike hP
  have hrun : (getPass >>= f) context w = f w.pass context w := rfl
  have hrun' : (getPass >>= f) context w' = f w'.pass context w' := rfl
  have hsame : f w'.pass = f w.pass := by rw [hf w.pass, hf w'.pass, halike.pass]
  rw [hrun, hrun', hsame]
  exact h w.pass w w' halike hP

/-- What follows a look at the pass may use what it sees. -/
theorem agree_getPass {f : Pass → InferM α} {f' : Pass → InferM α'} {V : α → α' → Prop}
    (h : ∀ pass pass', pass.known = pass'.known → P pass.scopes →
      Agree context S (fun scopes => scopes = pass.scopes) Q V (f pass) (f' pass')) :
    Agree context S P Q V (getPass >>= f) (getPass >>= f') :=
  fun w w' halike hP => h w.pass w'.pass halike.pass hP w w' halike rfl

theorem agree_modifyPass {f f' : Pass → Pass}
    (h : ∀ pass pass', pass.known = pass'.known → P pass.scopes → (f pass).known = (f' pass').known ∧ Q (f pass).scopes) :
    Agree context S P Q Eq (modifyPass f) (modifyPass f') := by
  intro w w' halike hP
  obtain ⟨hpass, hQ⟩ := h _ _ halike.pass hP
  exact sameOutcome_ok rfl ⟨⟨hpass, halike.session⟩, hQ⟩

/-- A change of the pass that neither reads the notes on declarations in progress nor touches the scopes. -/
theorem same_modifyPass {f : Pass → Pass} (h : ∀ pass, (f pass).known = (f pass.known).known)
    (hscopes : ∀ pass, (f pass).scopes = pass.scopes) : Same context S P (modifyPass f) := by
  refine agree_modifyPass fun pass pass' hpass hP => ⟨?_, (hscopes pass).symm ▸ hP⟩
  rw [h pass, h pass', hpass]

/-- The notes on declarations in progress may differ. -/
theorem agree_noted (more more' : List Name) {y : InferM α} (hy : Same context S P y) :
    Agree context S P P Eq
      (do modifyPass (fun pass => { pass with recursive := pass.recursive ++ more }); y)
      (do modifyPass (fun pass => { pass with recursive := pass.recursive ++ more' }); y) :=
  Agree.bind_eq (agree_modifyPass fun _ _ hpass hP => ⟨hpass, hP⟩) fun _ => hy

theorem same_read : Same context S P read :=
  fun _ _ halike hP => sameOutcome_ok rfl ⟨halike, hP⟩

theorem agree_engine_bind {f : Engine → InferM α} {f' : Engine → InferM α'} {V : α → α' → Prop}
    (h : Agree context S P Q V (f context.engine) (f' context.engine)) :
    Agree context S P Q V (engine >>= f) (engine >>= f') :=
  h

theorem same_engine_bind {f : Engine → InferM α} (h : Same context S P (f context.engine)) :
    Same context S P (engine >>= f) :=
  h

theorem run_store_error {work : StoreM α} {w : Work} {fault : Fault} (h : work w.pass.store = .error fault) :
    store work context w = (.error fault, w) := by
  have hpass : getPass context w = (.ok w.pass, w) := rfl
  unfold store
  rw [run_bind_ok _ hpass, h]
  rfl

theorem same_store (work : StoreM α) : Same context S P (store work) := by
  intro w w' halike hP
  rcases hwork : work w.pass.store with fault | ⟨a, s⟩
  · rw [run_store_error hwork, run_store_error (halike.store ▸ hwork)]
    exact fun _ _ => .inl ⟨fault, rfl, rfl⟩
  · rw [run_store_ok hwork, run_store_ok (halike.store ▸ hwork)]
    refine sameOutcome_ok rfl ⟨⟨?_, halike.session⟩, hP⟩
    exact congrArg (fun pass => { pass with store := s }) halike.pass

theorem same_allocate (work : Store → α × Store) : Same context S P (allocate work) := by
  intro w w' halike hP
  rw [run_allocate, run_allocate, ← halike.store]
  refine sameOutcome_ok rfl ⟨⟨?_, halike.session⟩, hP⟩
  exact congrArg (fun pass => { pass with store := (work w.pass.store).2 }) halike.pass

/-! ### Sessions -/

/-- Whether two computations of a session have outcomes of the same kind. -/
def Answers (engine : Engine) (S S' : Session → Session → Prop) (V : α → α' → Prop) (x : SessionM α)
    (x' : SessionM α') : Prop :=
  ∀ s s', S s s' → SameOutcome V S' (x engine s) (x' engine s')

theorem sameOutcome_session {x : SessionM α} {x' : SessionM α'} {V : α → α' → Prop} {S₀ : Session → Session → Prop}
    (h : Answers context.engine S₀ S V x x') {w w' : Work} (halike : w.Alike S w') (hsession : S₀ w.session w'.session)
    (hP : P w.pass.scopes) : SameOutcome V (fun w₁ w₁' => w₁.Alike S w₁' ∧ P w₁.pass.scopes) (session x context w)
      (session x' context w') := by
  rw [run_session, run_session]
  refine (h _ _ hsession).imp_states (fun s => { w with session := s }) (fun s => { w' with session := s }) ?_
  exact fun s s' hS => ⟨⟨halike.pass, hS⟩, hP⟩

theorem same_session {x : SessionM α} (h : Answers context.engine S S Eq x x) : Same context S P (session x) :=
  fun _ _ halike hP => sameOutcome_session h halike halike.session hP

theorem answers_trip (hS : Concordant context.engine S) (name : Ref) :
    Answers context.engine S S Eq (SessionM.trip name) (SessionM.trip name) := by
  intro s s' h
  obtain ⟨hflag, hflag'⟩ := hS.flag s s' h
  rw [SessionM.run_trip_of_none hflag, SessionM.run_trip_of_none hflag']
  exact sameOutcome_ok rfl h

theorem answers_findValues (hS : Concordant context.engine S) (name : Ref) :
    Answers context.engine S S Eq (SessionM.findValues name) (SessionM.findValues name) := by
  intro s s' h
  refine sameOutcome_bind (answers_trip hS name s s' h) fun _ _ s₁ s₁' _ _ _ hS => ?_
  exact sameOutcome_ok rfl hS

theorem run_findValues {name : Ref} {w w' : Work} {targets : List ValueTarget}
    (h : session (SessionM.findValues name) context w = (.ok targets, w')) :
    targets = context.engine.scope.findValues name := by
  obtain ⟨s, hfind, -⟩ := run_session_inv h
  exact (SessionM.run_findValues_inv hfind).1

theorem answers_isCancelled (hS : Concordant context.engine S) :
    Answers context.engine S S Eq SessionM.isCancelled SessionM.isCancelled := by
  intro s s' h
  obtain ⟨hflag, hflag'⟩ := hS.flag s s' h
  rw [SessionM.run_isCancelled_of_none hflag, SessionM.run_isCancelled_of_none hflag']
  exact sameOutcome_ok rfl h

theorem answers_withTypes (hS : Concordant context.engine S) {work : StateM TypeTable α}
    (h : Steadfast context.engine.scope work) :
    Answers context.engine S S Eq (SessionM.withTypes work) (SessionM.withTypes work) := by
  intro s s' hs
  obtain ⟨R, hlawful, htypes, hwith⟩ := hS.types
  obtain ⟨hvalue, htable⟩ := hlawful work h _ _ (htypes s s' hs)
  exact sameOutcome_ok hvalue (hwith _ _ _ _ hs htable)

theorem run_convert (rigid : Bool) (vars : Assoc Name Ty) (t : TypeExpr) (w : Work) :
    let out := Conversion.convert context.engine.scope rigid t
      { table := w.session.types, store := w.pass.store, vars := vars }
    convert rigid vars t context w = (.ok (out.1, out.2.vars, out.2.problems),
      { session := w.session.withTypes out.2.table, pass := { w.pass with store := out.2.store } }) := rfl

section Concordant

variable (hS : Concordant context.engine S)

include hS

theorem same_convert (rigid : Bool) (vars : Assoc Name Ty) (t : TypeExpr) :
    Same context S P (convert rigid vars t) := by
  intro w w' halike hP
  obtain ⟨R, hlawful, htypes, hwith⟩ := hS.types
  have hstart : Conversion.Alike R { table := w.session.types, store := w.pass.store, vars := vars }
      { table := w'.session.types, store := w'.pass.store, vars := vars } :=
    ⟨halike.store, rfl, rfl, htypes _ _ halike.session⟩
  obtain ⟨htype, hafter⟩ := together_convert hS.distinct hlawful rigid t _ _ hstart
  rw [run_convert, run_convert]
  refine sameOutcome_ok ?_ ⟨⟨?_, hwith _ _ _ _ halike.session hafter.table⟩, hP⟩
  · rw [htype, hafter.vars, hafter.problems]
  · rw [hafter.store]
    generalize (Conversion.convert context.engine.scope rigid t _).2.store = store
    exact congrArg (fun pass : Pass => { pass with store }) halike.pass

theorem same_findValues (name : Ref) : Same context S P (session (SessionM.findValues name)) :=
  same_session (answers_findValues hS name)

theorem same_unionType {m : Name} {decl : UnionDecl} {index : Nat}
    (h : context.engine.scope.Offers (.variant m decl index)) :
    Same context S P (session (SessionM.withTypes (TypeTable.unionType context.engine.scope m decl))) := by
  obtain ⟨rfl, hdecl⟩ := h
  exact same_session (answers_withTypes hS (steadfast_unionType hS.distinct hdecl))

theorem same_constructorTypes (name : Ref) : Same context S P (constructorTypes name) := by
  have hfind := (same_findValues (P := P) hS name).agree.yielding fun _ _ _ => run_findValues
  refine hfind.bind fun targets _ h => ?_
  obtain ⟨rfl, htargets⟩ := h
  have hoffers : ∀ target ∈ targets, context.engine.scope.Offers target :=
    fun target hmem => ModuleScope.offers_of_mem_findValues (htargets ▸ hmem)
  change Same context S P _
  split
  · next m decl index =>
    refine same_engine_bind ?_
    exact (same_unionType hS (hoffers _ (List.mem_singleton_self _))).bind fun _ => same_allocate _
  · refine (same_allocate _).bind fun t => ?_
    split <;> exact same_pure _
  · exact same_pure _

theorem same_isCancelled : Same context S P isCancelled := by
  refine same_getPass (fun _ => rfl) fun pass => ?_
  split
  · exact same_pure _
  · refine (same_session (answers_isCancelled hS)).bind fun seen => ?_
    split
    · exact Same.bind (same_modifyPass (fun _ => rfl) fun _ => rfl) fun _ => same_pure _
    · exact same_pure _

/-- Contained work gives the same in sessions that answer alike. -/
theorem Contained.same {records : Prop} {x : InferM α} (h : Contained records True x) : Same context S P x := by
  induction h with
  | pure a => exact same_pure a
  | bind _ _ hx hf => exact hx.bind hf
  | throw fault => exact same_throw fault
  | read => exact same_read
  | inspect hknown _ _ h => exact same_getPass hknown h
  | modify hknown _ hnames _ => exact same_modifyPass hknown fun pass => congrArg (fun n => n.1.1) (hnames pass)
  | record _ id t => exact same_modifyPass (fun _ => rfl) fun _ => rfl
  | store work => exact same_store work
  | allocate work => exact same_allocate work
  | isCancelled => exact same_isCancelled hS
  | trip name => exact same_session (answers_trip hS name)
  | findValues name => exact same_findValues hS name
  | convert rigid vars t => exact same_convert hS rigid vars t
  | constructorTypes name => exact same_constructorTypes hS name

theorem Contained.agree {x : InferM α} (h : Contained True True x) : Agree context S P P Eq x x :=
  h.same hS

/-! ### References to other declarations -/

def SameResult (outcome outcome' : Except InferError Inferred) : Prop :=
  outcome.map Prod.fst = outcome'.map Prod.fst

omit hS in
theorem SameResult.cases {outcome outcome' : Except InferError Inferred} (h : SameResult outcome outcome') :
    (∃ e, outcome = .error e ∧ outcome' = .error e) ∨
      ∃ result recursive recursive', outcome = .ok (result, recursive) ∧ outcome' = .ok (result, recursive') := by
  unfold SameResult at h
  rcases outcome with e | ⟨result, recursive⟩ <;> rcases outcome' with e' | ⟨result', recursive'⟩
  · cases h
    exact .inl ⟨e, rfl, rfl⟩
  · cases h
  · cases h
  · cases h
    exact .inr ⟨result, recursive, recursive', rfl, rfl⟩

/-- Whether two sides know alike if a declaration is being inferred, and get the same result for it if not. -/
structure Responds (engine : Engine) (S : Session → Session → Prop) (elsewhere elsewhere' : Elsewhere) (index : Nat)
    (decl : ValueDecl) : Prop where
  active : ∀ s s', S s s' → s.active.contains decl.head.label = s'.active.contains decl.head.label
  answer : Answers engine (fun s s' => S s s' ∧ s.active.contains decl.head.label = false) S SameResult
    (elsewhere.declaration index decl) (elsewhere'.declaration index decl)

/-- Whether two sides get the same for what is looked up in the module. -/
def Fine (engine : Engine) (S : Session → Session → Prop) (elsewhere elsewhere' : Elsewhere) (u : Use) : Prop :=
  ∀ index decl, engine.scope.target? u = some (.value index decl) → functionSignature? decl = none →
    Responds engine S elsewhere elsewhere' index decl

variable {elsewhere elsewhere' : Elsewhere}

theorem agree_declarationType (pos : Nat) (name : Name) {index : Nat} {decl : ValueDecl}
    (h : functionSignature? decl = none → Responds context.engine S elsewhere elsewhere' index decl) :
    Agree context S P P Eq (declarationType elsewhere pos name index decl)
      (declarationType elsewhere' pos name index decl) := by
  refine ((contained_checkCycle pos index decl).agree hS).bind_eq fun _ => ?_
  cases hsignature : functionSignature? decl with
  | some signature => exact (contained_convertForeign signature).agree hS
  | none =>
    intro w w' halike hP
    have hactive := (h hsignature).active _ _ halike.session
    have hrun : ∀ (f : Work → InferM Ty) (w : Work), (get >>= f) context w = f w context w := fun _ _ => rfl
    dsimp only
    rw [hrun, hrun, ← hactive]
    by_cases hmem : w.session.active.contains decl.head.label = true
    · rw [if_pos hmem, if_pos hmem]
      exact agree_noted _ _ (same_pure _) w w' halike hP
    · rw [if_neg hmem, if_neg hmem]
      have hanswer := sameOutcome_session (h hsignature).answer halike ⟨halike.session, Bool.not_eq_true _ ▸ hmem⟩ hP
      refine sameOutcome_bind hanswer fun outcome outcome' w₁ w₁' _ _ hsame halike₁ => ?_
      rcases hsame.cases with ⟨e, rfl, rfl⟩ | ⟨result, recursive, recursive', rfl, rfl⟩
      · cases e with
        | cancelled =>
          have hcancelled : Same context S P (do
              modifyPass (fun pass => { pass with cancelled := true })
              return .unknown : InferM Ty) :=
            Same.bind (same_modifyPass (fun _ => rfl) fun _ => rfl) fun _ => same_pure _
          exact hcancelled _ _ halike₁.1 halike₁.2
        | notTopLevel name => exact agree_pure rfl _ _ halike₁.1 halike₁.2
      · exact agree_noted _ _ (same_allocate _) _ _ halike₁.1 halike₁.2

theorem agree_targetType (pos : Nat) (name : Name) {target : ValueTarget} (hoffers : context.engine.scope.Offers target)
    (h : ∀ index decl, target = .value index decl → functionSignature? decl = none →
      Responds context.engine S elsewhere elsewhere' index decl) :
    Agree context S P P Eq (targetType elsewhere pos name target) (targetType elsewhere' pos name target) := by
  cases target with
  | value index decl => exact agree_declarationType hS pos name (h index decl rfl)
  | variant m decl index =>
    change Same context S P _
    refine same_engine_bind ((same_unionType hS hoffers).bind fun _ => (same_allocate _).bind fun found => ?_)
    split <;> exact same_pure _
  | recordConstructor m decl =>
    change Same context S P _
    obtain ⟨rfl, hdecl⟩ := hoffers
    have hexpand := same_session (P := P) (answers_withTypes hS (steadfast_expand hS.distinct hdecl))
    refine same_engine_bind (hexpand.bind fun found => ?_)
    split
    · exact same_pure _
    · refine (same_allocate _).bind fun t => ?_
      split <;> exact same_pure _
  | hostValue decl => exact (contained_convertForeign _).agree hS
  | external t => exact (contained_instantiate _).agree hS

theorem agree_globalReference (pos : Nat) {name : Ref} (h : Fine context.engine S elsewhere elsewhere' (.value name)) :
    Agree context S P P Eq (globalReference elsewhere pos name) (globalReference elsewhere' pos name) := by
  have hfind := (same_findValues (P := P) hS name).agree.yielding fun _ _ _ => run_findValues
  refine hfind.bind fun targets _ hsame => ?_
  obtain ⟨rfl, htargets⟩ := hsame
  rcases targets with _ | ⟨target, _ | ⟨_, _⟩⟩
  · exact agree_pure rfl
  · refine agree_targetType hS pos _ ?_ fun index decl heq hsignature => h index decl ?_ hsignature
    · exact ModuleScope.offers_of_mem_findValues (htargets ▸ List.mem_singleton_self _)
    · rw [ModuleScope.target?, ← htargets, heq]
      rfl
  · exact agree_pure rfl

theorem agree_operatorType (pos : Nat) {name : Name} (h : Fine context.engine S elsewhere elsewhere' (.operator name)) :
    Agree context S P P Eq (operatorType elsewhere pos name) (operatorType elsewhere' pos name) := by
  refine agree_engine_bind ?_
  rcases hfound : context.engine.scope.findOperators name with _ | ⟨operator, _ | ⟨_, _⟩⟩
  · exact agree_pure rfl
  · refine (agree_targetType hS pos name ?_ fun index decl heq hsignature => h index decl ?_ hsignature).bind_eq
      fun _ => agree_pure rfl
    · exact ModuleScope.offers_of_mem_findOperators (hfound ▸ List.mem_singleton_self _)
    · rw [ModuleScope.target?, hfound, ← heq]
      rfl
  · exact agree_pure rfl

theorem agree_operatorTypes {operators : List NameAt}
    (h : ∀ operator ∈ operators, Fine context.engine S elsewhere elsewhere' (.operator operator.name)) :
    Agree context S P P Eq (operatorTypes elsewhere operators) (operatorTypes elsewhere' operators) := by
  induction operators with
  | nil => exact agree_pure rfl
  | cons operator rest ih =>
    obtain ⟨hfirst, hrest⟩ := List.forall_mem_cons.mp h
    rw [operatorTypes, operatorTypes]
    refine (agree_operatorType hS _ hfirst).bind_eq fun found => ?_
    rcases found with _ | ⟨precedence, t⟩
    · exact agree_pure rfl
    · refine (ih hrest).bind_eq fun more => ?_
      rcases more with _ | ⟨precedences, types⟩ <;> exact agree_pure rfl

theorem agree_inferChain (operands : List (Nat × Ty)) {operators : List NameAt}
    (h : ∀ operator ∈ operators, Fine context.engine S elsewhere elsewhere' (.operator operator.name)) :
    Agree context S P P Eq (inferChain elsewhere operands operators) (inferChain elsewhere' operands operators) := by
  refine (agree_operatorTypes hS h).bind_eq fun found => ?_
  change Same context S P _
  split
  · exact same_pure _
  · split
    · exact ((contained_applyTree _ _ _).agree hS).bind_eq fun _ => same_pure _
    · exact (contained_reported _ _ _).agree hS
    · exact (contained_reported _ _ _).agree hS

end Concordant

end InferM

end ElmInference
