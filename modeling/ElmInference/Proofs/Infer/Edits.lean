import ElmInference.Proofs.Infer.Composition
import ElmInference.Proofs.Infer.Requests

/-!
# Requests after an edit

When the body of a declaration changes, the results that may depend on it are marked stale. Which ones these are is
decided from the entries at hand: if the declaration has an entry without signature, then every entry without signature
goes. What is left is of no use to inference, which calls only declarations without signature, so a request for the
edited module is answered as if nothing had been kept. If the declaration has no entry, because it was inferred as part
of a cycle that was entered elsewhere, everything stays, and an answer that depends on the old body comes back.

The argument runs the request twice, with what is left of the cache and with an empty one. Unlike for two orders of
requests, both runs make the same calls, so they give exactly the same, also where references lead into a cycle.
-/

namespace ElmInference

open Conversion TypeTable

/-! ### Runs that give exactly the same -/

section Mirrors

variable {ρ σ α β : Type} {context : ρ} {T : σ → σ → Prop}

/-- Whether a computation gives the same result or fault in related states, and leaves them related. -/
def Mirrors (context : ρ) (T : σ → σ → Prop) (x : ReaderT ρ (ExceptT Fault (StateM σ)) α) : Prop :=
  ∀ s s', T s s' → (x context s).1 = (x context s').1 ∧ T (x context s).2 (x context s').2

theorem mirrors_pure (a : α) : Mirrors context T (pure a) :=
  fun _ _ h => ⟨rfl, h⟩

theorem mirrors_throw (fault : Fault) : Mirrors context T (throw fault : ReaderT ρ (ExceptT Fault (StateM σ)) α) :=
  fun _ _ h => ⟨rfl, h⟩

theorem mirrors_read : Mirrors context T (read : ReaderT ρ (ExceptT Fault (StateM σ)) ρ) :=
  fun _ _ h => ⟨rfl, h⟩

theorem mirrors_modify {f : σ → σ} (h : ∀ s s', T s s' → T (f s) (f s')) :
    Mirrors context T (modify f : ReaderT ρ (ExceptT Fault (StateM σ)) Unit) :=
  fun s s' hs => ⟨rfl, h s s' hs⟩

/-- What follows may use what the first part returned. -/
theorem Mirrors.bind_of_run {x : ReaderT ρ (ExceptT Fault (StateM σ)) α}
    {f : α → ReaderT ρ (ExceptT Fault (StateM σ)) β} (hx : Mirrors context T x)
    (hf : ∀ a s s', x context s = (.ok a, s') → Mirrors context T (f a)) : Mirrors context T (x >>= f) := by
  intro s s' hs
  obtain ⟨hresult, hstates⟩ := hx s s' hs
  rcases hrun : x context s with ⟨fault | a, s₁⟩ <;> rcases hrun' : x context s' with ⟨fault' | a', s₁'⟩ <;>
    rw [hrun, hrun'] at hresult hstates <;> cases hresult
  · rw [run_bind_error f hrun, run_bind_error f hrun']
    exact ⟨rfl, hstates⟩
  · rw [InferM.run_bind_ok f hrun, InferM.run_bind_ok f hrun']
    exact hf a s s₁ hrun s₁ s₁' hstates

theorem Mirrors.bind {x : ReaderT ρ (ExceptT Fault (StateM σ)) α} {f : α → ReaderT ρ (ExceptT Fault (StateM σ)) β}
    (hx : Mirrors context T x) (hf : ∀ a, Mirrors context T (f a)) : Mirrors context T (x >>= f) :=
  hx.bind_of_run fun a _ _ _ => hf a

end Mirrors

/-- Two states with the same pass in related sessions. -/
structure Work.Twin (S : Session → Session → Prop) (w w' : Work) : Prop where
  pass : w.pass = w'.pass
  session : S w.session w'.session

namespace InferM

variable {α : Type} {context : Context} {S : Session → Session → Prop}

theorem mirrors_getPass : Mirrors context (Work.Twin S) getPass :=
  fun _ _ h => ⟨congrArg Except.ok h.pass, h⟩

theorem mirrors_modifyPass (f : Pass → Pass) : Mirrors context (Work.Twin S) (modifyPass f) :=
  fun _ _ h => ⟨rfl, congrArg f h.pass, h.session⟩

theorem mirrors_store (work : StoreM α) : Mirrors context (Work.Twin S) (store work) := by
  refine mirrors_getPass.bind fun pass => ?_
  split
  · exact (mirrors_modifyPass _).bind fun _ => mirrors_pure _
  · exact mirrors_throw _

theorem mirrors_allocate (work : Store → α × Store) : Mirrors context (Work.Twin S) (allocate work) := by
  intro w w' h
  rw [run_allocate, run_allocate, h.pass]
  refine ⟨rfl, ?_, h.session⟩
  exact congrArg (fun pass : Pass => { pass with store := (work w'.pass.store).2 }) h.pass

theorem mirrors_session {x : SessionM α} (hx : Mirrors context.engine S x) :
    Mirrors context (Work.Twin S) (session x) :=
  fun _ _ h => ⟨(hx _ _ h.session).1, h.pass, (hx _ _ h.session).2⟩

theorem mirrors_engine_bind {f : Engine → InferM α} (h : Mirrors context (Work.Twin S) (f context.engine)) :
    Mirrors context (Work.Twin S) (engine >>= f) :=
  h

/-- A pass of its own starts from nothing on both sides. -/
theorem mirrors_runPass {engine : Engine} {index : Nat} {x : InferM α}
    (hx : Mirrors ⟨engine, index⟩ (Work.Twin S) x) : Mirrors engine S (SessionM.runPass index x) := by
  intro s s' h
  obtain ⟨hresult, htwin⟩ := hx ⟨s, {}⟩ ⟨s', {}⟩ ⟨rfl, h⟩
  exact ⟨hresult, htwin.session⟩

section Concordant

variable (hS : Concordant context.engine S)

include hS

theorem mirrors_trip (name : Ref) : Mirrors context.engine S (SessionM.trip name) := by
  intro s s' h
  obtain ⟨hflag, hflag'⟩ := hS.flag s s' h
  rw [SessionM.run_trip_of_none hflag, SessionM.run_trip_of_none hflag']
  exact ⟨rfl, h⟩

theorem mirrors_findValues (name : Ref) : Mirrors context.engine S (SessionM.findValues name) :=
  (mirrors_trip hS name).bind fun _ => mirrors_read.bind fun _ => mirrors_pure _

theorem mirrors_isCancelled : Mirrors context.engine S SessionM.isCancelled := by
  intro s s' h
  obtain ⟨hflag, hflag'⟩ := hS.flag s s' h
  rw [SessionM.run_isCancelled_of_none hflag, SessionM.run_isCancelled_of_none hflag']
  exact ⟨rfl, h⟩

theorem mirrors_withTypes {work : StateM TypeTable α} (h : Steadfast context.engine.scope work) :
    Mirrors context.engine S (SessionM.withTypes work) := by
  intro s s' hs
  obtain ⟨R, hlawful, htypes, hwith⟩ := hS.types
  obtain ⟨hvalue, htable⟩ := hlawful work h _ _ (htypes s s' hs)
  exact ⟨congrArg Except.ok hvalue, hwith _ _ _ _ hs htable⟩

theorem mirrors_convert (rigid : Bool) (vars : Assoc Name Ty) (t : TypeExpr) :
    Mirrors context (Work.Twin S) (convert rigid vars t) := by
  intro w w' h
  obtain ⟨R, hlawful, htypes, hwith⟩ := hS.types
  have hstart : Conversion.Alike R { table := w.session.types, store := w.pass.store, vars := vars }
      { table := w'.session.types, store := w'.pass.store, vars := vars } :=
    ⟨by rw [h.pass], rfl, rfl, htypes _ _ h.session⟩
  obtain ⟨htype, hafter⟩ := together_convert hS.distinct hlawful rigid t _ _ hstart
  rw [run_convert, run_convert]
  refine ⟨?_, ?_, hwith _ _ _ _ h.session hafter.table⟩
  · rw [htype, hafter.vars, hafter.problems]
  · dsimp only
    rw [hafter.store, h.pass]

theorem mirrors_unionType {m : Name} {decl : UnionDecl} {index : Nat}
    (h : context.engine.scope.Offers (.variant m decl index)) :
    Mirrors context (Work.Twin S) (session (SessionM.withTypes (TypeTable.unionType context.engine.scope m decl))) := by
  obtain ⟨rfl, hdecl⟩ := h
  exact mirrors_session (mirrors_withTypes hS (steadfast_unionType hS.distinct hdecl))

theorem mirrors_constructorTypes (name : Ref) : Mirrors context (Work.Twin S) (constructorTypes name) := by
  refine (mirrors_session (mirrors_findValues hS name)).bind_of_run fun targets w w' hrun => ?_
  have hoffers : ∀ target ∈ targets, context.engine.scope.Offers target :=
    fun target hmem => ModuleScope.offers_of_mem_findValues (run_findValues hrun ▸ hmem)
  split
  · refine mirrors_engine_bind ?_
    exact (mirrors_unionType hS (hoffers _ (List.mem_singleton_self _))).bind fun _ => mirrors_allocate _
  · refine (mirrors_allocate _).bind fun t => ?_
    split <;> exact mirrors_pure _
  · exact mirrors_pure _

theorem Contained.mirrors {records : Prop} {x : InferM α} (h : Contained records True x) :
    Mirrors context (Work.Twin S) x := by
  induction h with
  | pure a => exact mirrors_pure a
  | bind _ _ hx hf => exact hx.bind hf
  | throw fault => exact mirrors_throw fault
  | read => exact mirrors_read
  | inspect _ _ _ h => exact mirrors_getPass.bind h
  | modify _ _ _ _ => exact mirrors_modifyPass _
  | record _ id t => exact mirrors_modifyPass _
  | store work => exact mirrors_store work
  | allocate work => exact mirrors_allocate work
  | isCancelled =>
    refine mirrors_getPass.bind fun pass => ?_
    split
    · exact mirrors_pure _
    · refine (mirrors_session (mirrors_isCancelled hS)).bind fun seen => ?_
      split
      · exact (mirrors_modifyPass _).bind fun _ => mirrors_pure _
      · exact mirrors_pure _
  | trip name => exact mirrors_session (mirrors_trip hS name)
  | findValues name => exact mirrors_session (mirrors_findValues hS name)
  | convert rigid vars t => exact mirrors_convert hS rigid vars t
  | constructorTypes name => exact mirrors_constructorTypes hS name

/-- Inference gives exactly the same in sessions in which the same declarations are in progress, if all calls of other
declarations do. -/
theorem Composed.mirrors
    {calls : Nat → ValueDecl → SessionM (Except InferError Inferred) → SessionM (Except InferError Inferred) → Prop}
    {x x' : InferM α} (h : Composed context.engine calls x x') (hactive : ∀ s s', S s s' → s.active = s'.active)
    (hcalls : ∀ index decl x x', context.engine.scope.Offers (.value index decl) → functionSignature? decl = none →
      calls index decl x x' → Mirrors context.engine S x) : Mirrors context (Work.Twin S) x := by
  induction h with
  | contained h => exact h.mirrors hS
  | diverged _ => exact mirrors_throw _
  | bind _ _ hx hf => exact hx.bind hf
  | engine _ h => exact h
  | find name _ h =>
    refine (mirrors_session (mirrors_findValues hS name)).bind_of_run fun targets w w' hrun => ?_
    rw [run_findValues hrun]
    exact h
  | getPass => exact mirrors_getPass
  | modify _ => exact mirrors_modifyPass _
  | unionType h => exact mirrors_unionType hS h
  | expand h =>
    obtain ⟨rfl, hdecl⟩ := h
    exact mirrors_session (mirrors_withTypes hS (steadfast_expand hS.distinct hdecl))
  | @awaited _ _ decl call _ use _ nothing h hsignature hcall _ huse =>
    have hnoted : Mirrors context (Work.Twin S) (do
        modifyPass (fun pass => { pass with recursive := pass.recursive ++ [decl.head.label] })
        return nothing) := (mirrors_modifyPass _).bind fun _ => mirrors_pure _
    have hcalled : Mirrors context (Work.Twin S) (called call use nothing) := by
      refine (mirrors_session (hcalls _ _ _ _ h hsignature hcall)).bind fun outcome => ?_
      split
      · exact (mirrors_modifyPass _).bind fun _ => huse _
      · exact (mirrors_modifyPass _).bind fun _ => mirrors_pure _
      · exact mirrors_pure _
    intro w w' htwin
    have hrun : ∀ w : Work, InferM.awaited decl.head.label call use nothing context w =
        (if w.session.active.contains decl.head.label then _ else _ : InferM _) context w := fun _ => rfl
    rw [hrun, hrun, hactive _ _ htwin.session]
    split
    · exact hnoted w w' htwin
    · exact hcalled w w' htwin

end Concordant

end InferM

/-! ### Sessions that keep the same for inference -/

/-- Whether two sessions keep the same results for the declarations that inference calls, and cannot be called off. -/
structure Session.Kin (engine : Engine) (s s' : Session) : Prop where
  flag : s.flag = none ∧ s'.flag = none
  types : Idle engine.scope s.types ∧ Idle engine.scope s'.types
  active : s.active = s'.active
  kept : ∀ j d, engine.scope.module.valueAt? j = some d → d.names ≠ [] → InferM.functionSignature? d = none →
    s.cache.get? (DeclKey.ofDecl engine.file d) = s'.cache.get? (DeclKey.ofDecl engine.file d)

section Kin

variable {engine : Engine} {i n : Nat} {d : ValueDecl} {s s' : Session}

theorem Session.kin_self (hflag : s.flag = none) (htypes : Idle engine.scope s.types) : s.Kin engine s :=
  ⟨⟨hflag, hflag⟩, ⟨htypes, htypes⟩, rfl, fun _ _ _ _ _ => rfl⟩

theorem concordant_kin (hnames : engine.scope.module.DistinctNames) : Concordant engine (Session.Kin engine) := by
  refine ⟨hnames.types, fun s s' h => h.flag, _, lawful_idle, fun s s' h => h.types, ?_⟩
  exact fun s s' table table' h htables => ⟨h.flag, htables, h.active, h.kept⟩

theorem Session.Kin.insert (hnames : engine.scope.module.DistinctNames) (h : s.Kin engine s')
    (hd : engine.scope.module.valueAt? i = some d) (hnamed : d.names ≠ []) (result : InferenceResult) :
    Session.Kin engine { s with cache := s.cache.insert (DeclKey.ofDecl engine.file d) result }
      { s' with cache := s'.cache.insert (DeclKey.ofDecl engine.file d) result } := by
  refine ⟨h.flag, h.types, h.active, fun j d' hd' hnamed' hsignature => ?_⟩
  dsimp only
  by_cases heq : d.head.label = d'.head.label
  · obtain rfl := hnames.eq_of_label hd hd' hnamed hnamed' heq
    obtain rfl := Option.some.inj (hd.symm.trans hd')
    rw [Cache.get?_insert_self, Cache.get?_insert_self]
  · rw [Cache.get?_insert_of_ne _ _ heq, Cache.get?_insert_of_ne _ _ heq]
    exact h.kept j d' hd' hnamed' hsignature

open InferM in
/-- Two runs that find the same kept results give exactly the same, faults included. The induction is on how deep they
go. -/
theorem kin_inferTopLevel (hnames : engine.scope.module.DistinctNames)
    (hd : engine.scope.module.valueAt? i = some d) (hnamed : d.names ≠ []) (hs : s.Kin engine s')
    (hkept : s.cache.get? (DeclKey.ofDecl engine.file d) = s'.cache.get? (DeclKey.ofDecl engine.file d)) :
    (SessionM.inferTopLevel (exprAt n) i d engine s).1 = (SessionM.inferTopLevel (exprAt n) i d engine s').1 ∧
      (SessionM.inferTopLevel (exprAt n) i d engine s).2.Kin engine
        (SessionM.inferTopLevel (exprAt n) i d engine s').2 := by
  induction n using Nat.strong_induction_on generalizing i d s s' with
  | _ n ih =>
  cases hresult : s.cache.get? (DeclKey.ofDecl engine.file d) with
  | some result =>
    rw [SessionM.run_inferTopLevel_of_kept hresult, SessionM.run_inferTopLevel_of_kept (hkept ▸ hresult)]
    exact ⟨rfl, hs⟩
  | none =>
    rw [SessionM.run_inferTopLevel_of_new hs.flag.1 hresult, SessionM.run_inferTopLevel_of_new hs.flag.2 (hkept ▸ hresult)]
    have hcalls : ∀ index decl x x', engine.scope.Offers (.value index decl) → functionSignature? decl = none →
        CallsBelow n index decl x x' → Mirrors engine (Session.Kin engine) x := by
      rintro index decl x x' ⟨hindex, hdecl⟩ hsignature ⟨m, _, hm, -, rfl, -⟩ s₁ s₁' hs₁
      exact ih m hm hindex hdecl hs₁ (hs₁.kept index decl hindex hdecl hsignature)
    have hpass : Mirrors ⟨engine, i⟩ (Work.Twin (Session.Kin engine)) (inferDeclaration (exprAt n) d) :=
      (composed_inferDeclaration (composed_exprAt (Nat.le_refl n) (Nat.le_refl n)) d).mirrors (concordant_kin hnames)
        (fun _ _ h => h.active) hcalls
    suffices hcompute : Mirrors engine (Session.Kin engine)
        (SessionM.compute (exprAt n) (DeclKey.ofDecl engine.file d) i d) from hcompute s s' hs
    refine (mirrors_modify fun s s' h => ⟨h.flag, h.types, congrArg (_ :: ·) h.active, h.kept⟩).bind fun _ => ?_
    refine (mirrors_runPass hpass).bind fun outcome => ?_
    refine (mirrors_modify fun s s' h => ⟨h.flag, h.types, congrArg (List.filter _) h.active, h.kept⟩).bind fun _ => ?_
    rcases outcome with e | ⟨result, recursive⟩
    · exact mirrors_pure _
    · dsimp only
      split
      · exact (mirrors_modify fun s s' h => h.insert hnames hd hnamed result).bind fun _ => mirrors_pure _
      · exact mirrors_pure _

/-- However requests go, and even if they fault, they leave the declared types in order. -/
theorem idle_inferEach (hnames : engine.scope.module.DistinctNames) (hflag : s.flag = none)
    (htypes : Idle engine.scope s.types) (requests : List (Nat × ValueDecl)) :
    (engine.inferEach requests s).2.flag = none ∧ Idle engine.scope (engine.inferEach requests s).2.types := by
  have hinfer : ∀ {s : Session} i, s.flag = none → Idle engine.scope s.types →
      (engine.infer (.declared i) s).2.flag = none ∧ Idle engine.scope (engine.infer (.declared i) s).2.types := by
    intro s i hflag htypes
    rcases engine.infer_cases i with ⟨e, hrefused⟩ | ⟨d, hd, hnamed, hanswered⟩
    · rw [hrefused s hflag]
      exact ⟨hflag, htypes⟩
    · rw [hanswered s hflag]
      have hkin := (kin_inferTopLevel (n := engine.budget) hnames hd hnamed (Session.kin_self hflag htypes) rfl).2
      exact ⟨hkin.flag.1, hkin.types.1⟩
  induction requests generalizing s with
  | nil => exact ⟨hflag, htypes⟩
  | cons request rest ih =>
    obtain ⟨hflag', htypes'⟩ := hinfer request.1 hflag htypes
    rw [Engine.inferEach]
    rcases hrun : engine.infer (.declared request.1) s with ⟨fault | answer, s₁⟩
    · rw [hrun] at hflag' htypes'
      exact ⟨hflag', htypes'⟩
    · rw [hrun] at hflag' htypes'
      exact ih hflag' htypes'

end Kin

/-! ### Bodies and declared types -/

namespace ModuleScope

structure SameTypes (scope scope' : ModuleScope) : Prop where
  name : scope.module.name = scope'.module.name
  find : scope.findType? = scope'.findType?
  count : scope.module.aliasCount = scope'.module.aliasCount
  aliases : ∀ decl, .typeAlias decl ∈ scope.module.declarations ↔ .typeAlias decl ∈ scope'.module.declarations
  unions : ∀ decl, .unionType decl ∈ scope.module.declarations ↔ .unionType decl ∈ scope'.module.declarations

variable {scope scope' : ModuleScope}

theorem SameTypes.reference (h : scope.SameTypes scope') :
    Conversion.reference scope = Conversion.reference scope' := by
  funext expand pos name args
  rw [Conversion.reference, Conversion.reference, h.find]

mutual

theorem SameTypes.convertWith (h : scope.SameTypes scope') (expand : Expand) (rigid : Bool) (t : TypeExpr) :
    Conversion.convertWith scope expand rigid t = Conversion.convertWith scope' expand rigid t := by
  match t with
  | .mk _ (.var name) | .mk _ .unit => rw [Conversion.convertWith, Conversion.convertWith]
  | .mk _ (.tuple items) | .mk _ (.function items) =>
    rw [Conversion.convertWith, Conversion.convertWith, h.convertList expand rigid items]
  | .mk _ (.record base fields) =>
    rw [Conversion.convertWith, Conversion.convertWith, h.convertFields expand rigid fields]
  | .mk pos (.ref name args) =>
    rw [Conversion.convertWith, Conversion.convertWith, h.convertList expand rigid args, h.reference]

theorem SameTypes.convertList (h : scope.SameTypes scope') (expand : Expand) (rigid : Bool) (ts : List TypeExpr) :
    Conversion.convertList scope expand rigid ts = Conversion.convertList scope' expand rigid ts := by
  match ts with
  | [] => rw [Conversion.convertList, Conversion.convertList]
  | t :: ts =>
    rw [Conversion.convertList, Conversion.convertList, h.convertWith expand rigid t, h.convertList expand rigid ts]

theorem SameTypes.convertFields (h : scope.SameTypes scope') (expand : Expand) (rigid : Bool)
    (fields : List (FieldDecl TypeExpr)) :
    Conversion.convertFields scope expand rigid fields = Conversion.convertFields scope' expand rigid fields := by
  match fields with
  | [] => rw [Conversion.convertFields, Conversion.convertFields]
  | ⟨pos, name, t⟩ :: rest =>
    rw [Conversion.convertFields, Conversion.convertFields, h.convertWith expand rigid t,
      h.convertFields expand rigid rest]

end

theorem SameTypes.expand (h : scope.SameTypes scope') : TypeTable.expand scope = TypeTable.expand scope' := by
  have hdepth : ∀ n, TypeTable.expandAt scope n = TypeTable.expandAt scope' n := by
    intro n
    induction n with
    | zero => rfl
    | succ n ih =>
      funext m decl table
      rw [TypeTable.expandAt, TypeTable.expandAt, ih]
      simp only [h.convertWith]
  rw [TypeTable.expand, TypeTable.expand, h.count, hdepth]

theorem SameTypes.unionType (h : scope.SameTypes scope') (m : Name) (decl : UnionDecl) :
    TypeTable.unionType scope m decl = TypeTable.unionType scope' m decl := by
  funext table
  rw [TypeTable.unionType, TypeTable.unionType]
  simp only [h.convertList, h.expand]

theorem SameTypes.applied (h : scope.SameTypes scope') (name : Ref) (count : Nat) :
    Conversion.applied scope name count = Conversion.applied scope' name count := by
  rw [Conversion.applied, Conversion.applied, h.find]

mutual

theorem SameTypes.used (h : scope.SameTypes scope') (t : TypeExpr) :
    Conversion.aliases scope t = Conversion.aliases scope' t := by
  match t with
  | .mk _ (.var name) | .mk _ .unit => rw [Conversion.aliases, Conversion.aliases]
  | .mk _ (.tuple items) | .mk _ (.function items) =>
    rw [Conversion.aliases, Conversion.aliases, h.usedList items]
  | .mk _ (.record base fields) => rw [Conversion.aliases, Conversion.aliases, h.usedFields fields]
  | .mk pos (.ref name args) => rw [Conversion.aliases, Conversion.aliases, h.usedList args, h.applied]

theorem SameTypes.usedList (h : scope.SameTypes scope') (ts : List TypeExpr) :
    Conversion.aliasesList scope ts = Conversion.aliasesList scope' ts := by
  match ts with
  | [] => rw [Conversion.aliasesList, Conversion.aliasesList]
  | t :: ts => rw [Conversion.aliasesList, Conversion.aliasesList, h.used t, h.usedList ts]

theorem SameTypes.usedFields (h : scope.SameTypes scope') (fields : List (FieldDecl TypeExpr)) :
    Conversion.aliasesFields scope fields = Conversion.aliasesFields scope' fields := by
  match fields with
  | [] => rw [Conversion.aliasesFields, Conversion.aliasesFields]
  | ⟨pos, name, t⟩ :: rest =>
    rw [Conversion.aliasesFields, Conversion.aliasesFields, h.used t, h.usedFields rest]

end

/-- A table that is in order for one scope is in order for the other. -/
theorem SameTypes.idle (h : scope.SameTypes scope') {table : TypeTable} (hidle : Idle scope table) :
    Idle scope' table := by
  have hunfolds : Unfolds scope = Unfolds scope' := by
    funext inner outer
    rw [Unfolds, Unfolds, h.used]
  refine ⟨⟨fun decl d hdecl hget => ?_, fun decl d hdecl hget => ?_⟩, hidle.converting⟩
  · rw [← hunfolds, ← h.expand, ← h.name]
    exact hidle.regular.aliases decl d ((h.aliases decl).mpr hdecl) (h.name ▸ hget)
  · rw [← h.unionType, ← h.name]
    exact hidle.regular.unions decl d ((h.unions decl).mpr hdecl) (h.name ▸ hget)

end ModuleScope

/-! ### Another body -/

def Declaration.withBody (body : Expr) : Declaration → Declaration
  | .value decl => .value { decl with body }
  | other => other

def Module.withBody (m : Module) (index : Nat) (body : Expr) : Module :=
  { m with declarations := m.declarations.modify index (Declaration.withBody body) }

def Engine.withBody (engine : Engine) (index : Nat) (body : Expr) : Engine :=
  { engine with scope := { engine.scope with module := engine.scope.module.withBody index body } }

theorem filterMap_modify {α β : Type} {f : α → Option β} {g : α → α} (h : ∀ a, f (g a) = f a) (xs : List α) (i : Nat) :
    (xs.modify i g).filterMap f = xs.filterMap f := by
  induction xs generalizing i with
  | nil => rw [List.modify_nil]
  | cons x xs ih =>
    cases i with
    | zero => rw [List.modify_zero_cons, List.filterMap_cons, List.filterMap_cons, h]
    | succ i => rw [List.modify_succ_cons, List.filterMap_cons, List.filterMap_cons, ih]

namespace Module

variable {m : Module} {k : Nat} {body : Expr}

/-- What does not look at bodies is the same for another body. -/
theorem filterMap_withBody {β : Type} {f : Declaration → Option β} (h : ∀ d body, f (d.withBody body) = f d) :
    (m.withBody k body).declarations.filterMap f = m.declarations.filterMap f :=
  filterMap_modify (fun d => h d body) _ _

theorem map_names_values (m : Module) :
    m.values.map (fun entry => entry.2.names) = m.declarations.filterMap (fun d => d.value?.map Definition.names) := by
  have hfirst : m.declarations.filterMap (fun d => d.value?.map Definition.names) =
      (m.declarations.zipIdx.map Prod.fst).filterMap (fun d => d.value?.map Definition.names) := by
    rw [List.zipIdx_map_fst]
  rw [hfirst, values, List.map_filterMap, List.filterMap_map]
  congr 1
  funext entry
  rw [Option.map_map]
  rfl

theorem mem_withBody_iff {d : Declaration} (hd : d.value? = none) :
    d ∈ (m.withBody k body).declarations ↔ d ∈ m.declarations := by
  let other? (d : Declaration) : Option Declaration := if d.value?.isSome then none else some d
  have hother : ∀ declarations : List Declaration, d ∈ declarations ↔ d ∈ declarations.filterMap other? := by
    intro declarations
    rw [List.mem_filterMap]
    refine ⟨fun hmem => ⟨d, hmem, if_neg (by rw [hd]; exact Bool.false_ne_true)⟩, ?_⟩
    rintro ⟨d', hmem, hsome⟩
    dsimp only [other?] at hsome
    split at hsome
    · cases hsome
    · exact Option.some.inj hsome ▸ hmem
  rw [hother, hother m.declarations, filterMap_withBody fun d body => by cases d <;> rfl]

theorem DistinctNames.withBody (h : m.DistinctNames) (k : Nat) (body : Expr) : (m.withBody k body).DistinctNames := by
  have hnames : (m.withBody k body).values.map (fun entry => entry.2.names) =
      m.values.map (fun entry => entry.2.names) := by
    rw [map_names_values, map_names_values]
    exact filterMap_withBody fun d body => by cases d <;> rfl
  refine ⟨?_, ?_, fun entry hentry name hname => ?_⟩
  · rw [DistinctTypes, filterMap_withBody fun d body => by cases d <;> rfl]
    exact h.types
  · rw [List.flatMap_def, hnames, ← List.flatMap_def]
    exact h.values
  · have hmem : entry.2.names ∈ m.values.map (fun entry => entry.2.names) :=
      hnames ▸ List.mem_map_of_mem (f := fun entry : Nat × ValueDecl => entry.2.names) hentry
    obtain ⟨entry', hentry', heq⟩ := List.mem_map.mp hmem
    exact h.plain entry' hentry' name (heq ▸ hname)

end Module

theorem Engine.sameTypes_withBody (engine : Engine) (k : Nat) (body : Expr) :
    engine.scope.SameTypes (engine.withBody k body).scope := by
  have hlocal : engine.scope.localTypes = (engine.withBody k body).scope.localTypes := by
    funext name
    exact (Module.filterMap_withBody fun d body => by cases d <;> rfl).symm
  have hfind : engine.scope.findTypes = (engine.withBody k body).scope.findTypes := by
    funext r
    rw [ModuleScope.findTypes, ModuleScope.findTypes, hlocal]
    rfl
  refine ⟨rfl, ?_, ?_, fun decl => ?_, fun decl => ?_⟩
  · funext r
    rw [ModuleScope.findType?, ModuleScope.findType?, hfind]
  · exact congrArg List.length (Module.filterMap_withBody fun d body => by cases d <;> rfl).symm
  · exact (Module.mem_withBody_iff rfl).symm
  · exact (Module.mem_withBody_iff rfl).symm

theorem Module.exists_of_valueAt?_withBody {m : Module} {k j : Nat} {body : Expr} {d : ValueDecl}
    (h : (m.withBody k body).valueAt? j = some d) :
    ∃ d', m.valueAt? j = some d' ∧ d'.head = d.head ∧ d'.signature = d.signature := by
  rw [valueAt?, withBody, List.getElem?_modify] at h
  obtain ⟨declaration, hget, hvalue⟩ := Option.bind_eq_some_iff.mp h
  obtain ⟨declaration', hget', rfl⟩ := Option.map_eq_some_iff.mp hget
  have hbefore : m.valueAt? j = declaration'.value? := by rw [valueAt?, hget', Option.bind_some]
  rw [hbefore]
  split at hvalue
  · cases declaration' with
    | value decl =>
      cases hvalue
      exact ⟨decl, rfl, rfl, rfl⟩
    | _ => cases hvalue
  · exact ⟨d, hvalue, rfl, rfl⟩

/-! ### Stale entries -/

/-- If the declaration that a change names has an entry without signature, nothing is left of the entries without
signature. -/
theorem Cache.get?_invalidate_of_hasUnsigned {c : Cache} {file : FileId} {name : Name}
    (h : c.hasUnsigned file name = true) {d : ValueDecl} (hd : d.signature = none) :
    (c.invalidate (.value file name)).get? (DeclKey.ofDecl file d) = none := by
  refine (c.get?_invalidate _ _).trans (if_pos ?_)
  simp [affects, DeclKey.ofDecl, DeclKey.isSigned, h, hd]

namespace Engine

/-- When the body of a declaration changes and a declaration with an entry without signature is invalidated, the next
request for a declaration without signature is answered as from an empty cache, if only functions and values have
signatures. A changed declaration that was never inferred, or only inside of a cycle, has no entry, and nothing is said
about it. -/
theorem answers_after_body_edit_are_fresh (engine : Engine) (hnames : engine.scope.module.DistinctNames)
    (hsigned : ∀ j d, engine.scope.module.valueAt? j = some d → d.signature ≠ none → d.head.name? ≠ none)
    (requests : List (Nat × ValueDecl)) (name : Name)
    (hkept : (engine.inferEach requests {}).2.cache.hasUnsigned engine.file name = true) (k : Nat) (body : Expr) (i : Nat)
    (d : ValueDecl) (hd : (engine.withBody k body).scope.module.valueAt? i = some d) (hunsigned : d.signature = none) :
    ((engine.withBody k body).infer (.declared i)
        { cache := (engine.inferEach requests {}).2.cache.invalidate (.value engine.file name) }).1 =
      ((engine.withBody k body).infer (.declared i) {}).1 := by
  obtain ⟨-, htypes⟩ := idle_inferEach (s := {}) hnames rfl idle_empty requests
  generalize (engine.inferEach requests {}).2 = s at hkept htypes ⊢
  have hedited : (engine.withBody k body).scope.module.DistinctNames := hnames.withBody k body
  have hstale : ∀ d : ValueDecl, d.signature = none →
      (s.cache.invalidate (.value engine.file name)).get? (DeclKey.ofDecl engine.file d) = none :=
    fun d hd => Cache.get?_invalidate_of_hasUnsigned hkept hd
  have hkin : Session.Kin (engine.withBody k body) { cache := s.cache.invalidate (.value engine.file name) } {} := by
    refine ⟨⟨rfl, rfl⟩, ⟨(engine.sameTypes_withBody k body).idle ?_, idle_empty⟩, rfl, fun j d' hd' _ hsignature => ?_⟩
    · have hsame : s.types = ⟨s.cache.declared, []⟩ := congrArg (TypeTable.mk s.cache.declared) htypes.converting
      rw [hsame] at htypes
      exact htypes
    · obtain ⟨d₀, hd₀, hhead, hsame⟩ := Module.exists_of_valueAt?_withBody hd'
      refine hstale d' ?_
      unfold InferM.functionSignature? at hsignature
      split at hsignature
      · exact hsignature
      · next pattern hpattern =>
        by_contra hsome
        refine hsigned j d₀ hd₀ (hsame ▸ hsome) ?_
        rw [hhead, hpattern]
        rfl
  rcases (engine.withBody k body).infer_cases i with ⟨e, hrefused⟩ | ⟨d', hd', hnamed, hanswered⟩
  · rw [hrefused _ rfl, hrefused _ rfl]
  · obtain rfl := Option.some.inj (hd.symm.trans hd')
    rw [hanswered _ rfl, hanswered _ rfl]
    exact congrArg answerOf (kin_inferTopLevel hedited hd hnamed hkin (hstale d hunsigned)).1

/-- In `f x = [ 1, g x ] ; g y = y`, both declarations are kept after a request for `f`. When the body of `g` becomes a
text, a request for `f` finds that its items do not fit together. -/
theorem answers_after_body_edit_are_fresh_of_call :
    let f : ValueDecl :=
      ⟨2, none, .function ⟨3, "f"⟩ [.mk 0 0 (.var "x")],
        .mk 5 8 (.list
          [.mk 1 4 (.literal .int), .mk 4 7 (.call (.mk 2 5 (.var (.plain "g"))) [.mk 3 6 (.var (.plain "x"))])])⟩
    let g : ValueDecl := ⟨10, none, .function ⟨11, "g"⟩ [.mk 6 9 (.var "y")], .mk 7 12 (.var (.plain "y"))⟩
    let engine : Engine := { file := 0, scope := { module := ⟨"Main", [.value f, .value g]⟩ } }
    let edited := engine.withBody 1 (.mk 8 13 (.literal .string))
    let cache := (engine.inferEach [(0, f)] {}).2.cache
    let problems (answer : Except Fault (Except InferError InferenceResult)) : Option (List Nat) :=
      answer.toOption.bind (·.toOption.map (·.problems.map Problem.pos))
    engine.scope.module.DistinctNames ∧ cache.hasUnsigned 0 "g" = true ∧
      problems (edited.infer (.declared 0) {}).1 = some [7] ∧
      (edited.infer (.declared 0) { cache := cache.invalidate (.value 0 "g") }).1 = (edited.infer (.declared 0) {}).1 := by
  intro f g engine edited cache problems
  have hnames : engine.scope.module.DistinctNames := ⟨List.nodup_nil, by decide, by decide⟩
  have hsigned : ∀ j d, engine.scope.module.valueAt? j = some d → d.signature ≠ none → d.head.name? ≠ none := by
    intro j d hd hsome
    match j with
    | 0 | 1 =>
      cases hd
      exact absurd rfl hsome
    | j + 2 => cases hd
  have hkept : cache.hasUnsigned 0 "g" = true := by decide +kernel
  refine ⟨hnames, hkept, by decide +kernel, ?_⟩
  exact answers_after_body_edit_are_fresh engine hnames hsigned [(0, f)] "g" hkept 1 _ 0 f rfl rfl

/-- In `a x = [ 1, b x ] ; b x = a x`, a request for `a` keeps `a` only, since `b` was inferred against `a` in progress.
When the body of `b` becomes a text, nothing goes stale, and a request for `a` gets the old result without problems. -/
theorem answer_after_edit_in_a_cycle_is_stale :
    let a : ValueDecl :=
      ⟨2, none, .function ⟨3, "a"⟩ [.mk 0 0 (.var "x")],
        .mk 5 8 (.list
          [.mk 1 4 (.literal .int), .mk 4 7 (.call (.mk 2 5 (.var (.plain "b"))) [.mk 3 6 (.var (.plain "x"))])])⟩
    let b : ValueDecl :=
      ⟨10, none, .function ⟨11, "b"⟩ [.mk 6 9 (.var "x")],
        .mk 9 14 (.call (.mk 7 12 (.var (.plain "a"))) [.mk 8 13 (.var (.plain "x"))])⟩
    let engine : Engine := { file := 0, scope := { module := ⟨"Main", [.value a, .value b]⟩ } }
    let edited := engine.withBody 1 (.mk 10 15 (.literal .string))
    let cache := (engine.inferEach [(0, a)] {}).2.cache
    let problems (answer : Except Fault (Except InferError InferenceResult)) : Option (List Nat) :=
      answer.toOption.bind (·.toOption.map (·.problems.map Problem.pos))
    engine.scope.module.DistinctNames ∧
      problems (edited.infer (.declared 0) { cache := cache.invalidate (.value 0 "b") }).1 = some [] ∧
      problems (edited.infer (.declared 0) {}).1 = some [7] := by
  intro a b engine edited cache problems
  exact ⟨⟨List.nodup_nil, by decide, by decide⟩, by decide +kernel, by decide +kernel⟩

end Engine

end ElmInference
