import ElmInference.Proofs.Infer.Capture
import ElmInference.Proofs.Infer.Concord

/-!
# Type variables of the signatures around

Inference looks at the type variables of the signatures around an expression in two places: a signature further
inside means them where it writes their names, and generalization leaves them free. So it makes no difference when
there are more of them, as long as no signature inside writes the names of the others and nothing at hand leads to
them. All other work does the same whatever the type variables around are.
-/

namespace ElmInference

open Store

variable {Q Q' : Set Mention} {s : Store}

def Work.wearing (w : Work) (vars : Assoc Name Ty) : Work :=
  { w with pass := { w.pass with typeVars := vars } }

/-- Type variables that are around one place and not around another one, and the names for which this must not be
seen. -/
structure Overlay where
  names : Set Name
  vars : Assoc Name Ty

/-- Whether a table has entries of an overlay besides those of another table, but the same for the names that matter. -/
structure Overlay.Extends (o : Overlay) (vars vars' : Assoc Name Ty) : Prop where
  same : ∀ name ∈ o.names, Assoc.get? vars' name = Assoc.get? vars name
  kept : ∀ entry ∈ vars, entry ∈ vars'
  added : ∀ entry ∈ vars', entry ∈ vars ∨ entry ∈ o.vars

/-- Whether the variables of an overlay are out of reach: they have no solution, and none of them is at hand. -/
def Overlay.Strange (o : Overlay) (s : Store) (Q : Set Mention) : Prop :=
  ∀ entry ∈ o.vars, ∃ v, entry.2 = .var v ∧ s.Unsolved v.id ∧ Away Q v.id

theorem Overlay.Strange.advance {o : Overlay} {w w' : World} (h : o.Strange w.1 w.2) (hadvances : Advances w w') :
    o.Strange w'.1 w'.2 := by
  intro entry hentry
  obtain ⟨v, hv, hun, haway⟩ := h entry hentry
  obtain ⟨hun', haway'⟩ := hadvances.unsolved_of_away haway hun
  exact ⟨v, hv, hun', haway'⟩

/-- A new entry for a name that matters goes into both tables. -/
theorem Overlay.Extends.set {o : Overlay} {vars vars' : Assoc Name Ty} (h : o.Extends vars vars') {name : Name}
    (hname : name ∈ o.names) (hget : Assoc.get? vars name = none) (t : Ty) :
    o.Extends (Assoc.set vars name t) (Assoc.set vars' name t) := by
  have hget' : Assoc.get? vars' name = none := (h.same name hname).trans hget
  refine ⟨fun other hother => ?_, fun entry hentry => ?_, fun entry hentry => ?_⟩
  · by_cases heq : name = other
    · rw [← heq, Assoc.get?_set_self, Assoc.get?_set_self]
    · rw [Assoc.get?_set_of_ne _ _ heq, Assoc.get?_set_of_ne _ _ heq, h.same other hother]
  · rcases Assoc.mem_set hentry with hentry | rfl
    · exact Assoc.mem_set_of_mem _ hget' (h.kept entry hentry)
    · exact Assoc.mem_set_self _ _ _
  · rcases Assoc.mem_set hentry with hentry | rfl
    · exact (h.added entry hentry).imp_left (Assoc.mem_set_of_mem _ hget)
    · exact .inl (Assoc.mem_set_self _ _ _)

/-! ### Names of type variables -/

namespace TypeExpr

mutual

def varNames : TypeExpr → List Name
  | .mk _ (.var name) => [name]
  | .mk _ .unit => []
  | .mk _ (.tuple items) => varNamesList items
  | .mk _ (.record base fields) => base.toList ++ varNamesFields fields
  | .mk _ (.function segments) => varNamesList segments
  | .mk _ (.ref _ args) => varNamesList args

def varNamesList : List TypeExpr → List Name
  | [] => []
  | t :: ts => varNames t ++ varNamesList ts

def varNamesFields : List (FieldDecl TypeExpr) → List Name
  | [] => []
  | ⟨_, _, t⟩ :: rest => varNames t ++ varNamesFields rest

end

end TypeExpr

/-! ### Converting signatures -/

namespace Conversion

variable {α β : Type} {o : Overlay} {rigid : Bool} {scope : ModuleScope} {expand : Expand}

/-- Whether a conversion does the same under an overlay. -/
def Overlaid (o : Overlay) (x : StateM Conversion α) : Prop :=
  ∀ c vars, o.Extends c.vars vars → ∃ vars', o.Extends (x c).2.vars vars' ∧
    x { c with vars := vars } = ((x c).1, { (x c).2 with vars := vars' })

theorem overlaid_pure (a : α) : Overlaid o (pure a) :=
  fun _ vars h => ⟨vars, h, rfl⟩

theorem Overlaid.bind {x : StateM Conversion α} {f : α → StateM Conversion β} (hx : Overlaid o x)
    (hf : ∀ a, Overlaid o (f a)) : Overlaid o (x >>= f) := by
  intro c vars h
  obtain ⟨vars₁, h₁, hrun₁⟩ := hx c vars h
  obtain ⟨vars₂, h₂, hrun₂⟩ := hf (x c).1 (x c).2 vars₁ h₁
  refine ⟨vars₂, h₂, ?_⟩
  change f (x { c with vars := vars }).1 (x { c with vars := vars }).2 = _
  rw [hrun₁]
  exact hrun₂

theorem overlaid_typeVar {name : Name} (hname : name ∈ o.names) : Overlaid o (Conversion.typeVar rigid name) := by
  intro c vars h
  cases hget : Assoc.get? c.vars name with
  | some t =>
    refine ⟨vars, ?_, ?_⟩
    · simpa only [Conversion.typeVar, hget] using h
    · simp only [Conversion.typeVar, hget, h.same name hname]
  | none =>
    refine ⟨Assoc.set vars name (.var (c.store.fresh name rigid).1), ?_, ?_⟩
    · simpa only [Conversion.typeVar, hget] using h.set hname hget _
    · simp only [Conversion.typeVar, hget, h.same name hname]

theorem overlaid_report (pos : Nat) (kind : ProblemKind) : Overlaid o (report pos kind) :=
  fun _ vars h => ⟨vars, h, rfl⟩

theorem overlaid_base {name : Option Name} (hname : ∀ n ∈ name.toList, n ∈ o.names) : Overlaid o (base rigid name) := by
  cases name with
  | none => exact overlaid_pure _
  | some name => exact (overlaid_typeVar (hname name (List.mem_singleton_self _))).bind fun _ => overlaid_pure _

theorem overlaid_saturated (pos : Nat) (m n : Name) (args : List Ty) (arity : Nat) :
    Overlaid o (saturated pos m n args arity) := by
  unfold saturated
  split
  · exact overlaid_pure _
  · exact (overlaid_report _ _).bind fun _ => overlaid_pure _

theorem overlaid_expanded (pos : Nat) (m : Name) (decl : AliasDecl) (args : List Ty) :
    Overlaid o (expanded expand pos m decl args) := by
  unfold expanded
  split
  · exact (overlaid_report _ _).bind fun _ => overlaid_pure _
  · refine Overlaid.bind (fun _ vars h => ⟨vars, h, rfl⟩) fun found => ?_
    cases found with
    | some declared => exact fun _ vars h => ⟨vars, h, rfl⟩
    | none => exact (overlaid_report _ _).bind fun _ => overlaid_pure _

theorem overlaid_reference (pos : Nat) (name : Ref) (args : List Ty) :
    Overlaid o (reference scope expand pos name args) := by
  unfold reference
  split
  · exact overlaid_pure _
  · exact overlaid_saturated _ _ _ _ _
  · exact overlaid_saturated _ _ _ _ _
  · exact overlaid_expanded _ _ _ _

mutual

theorem overlaid_convertWith (t : TypeExpr) (ht : ∀ name ∈ t.varNames, name ∈ o.names) :
    Overlaid o (convertWith scope expand rigid t) := by
  match t with
  | .mk _ (.var name) => exact overlaid_typeVar (ht name (List.mem_singleton_self _))
  | .mk _ .unit => exact overlaid_pure _
  | .mk _ (.tuple items) =>
    rw [convertWith]
    exact (overlaid_convertList items ht).bind fun _ => overlaid_pure _
  | .mk _ (.record baseName fields) =>
    rw [convertWith]
    obtain ⟨hbase, hfields⟩ := List.forall_mem_append.mp ht
    exact (overlaid_base hbase).bind fun _ => (overlaid_convertFields fields hfields).bind fun _ => overlaid_pure _
  | .mk _ (.function segments) =>
    rw [convertWith]
    exact (overlaid_convertList segments ht).bind fun _ => overlaid_pure _
  | .mk pos (.ref name args) =>
    rw [convertWith]
    exact (overlaid_convertList args ht).bind fun _ => overlaid_reference pos name _

theorem overlaid_convertList (ts : List TypeExpr) (hts : ∀ name ∈ TypeExpr.varNamesList ts, name ∈ o.names) :
    Overlaid o (convertList scope expand rigid ts) := by
  match ts with
  | [] => exact overlaid_pure _
  | t :: ts =>
    rw [convertList]
    obtain ⟨ht, hts⟩ := List.forall_mem_append.mp hts
    exact (overlaid_convertWith t ht).bind fun _ => (overlaid_convertList ts hts).bind fun _ => overlaid_pure _

theorem overlaid_convertFields (fields : List (FieldDecl TypeExpr))
    (hfields : ∀ name ∈ TypeExpr.varNamesFields fields, name ∈ o.names) :
    Overlaid o (convertFields scope expand rigid fields) := by
  match fields with
  | [] => exact overlaid_pure _
  | ⟨_, name, t⟩ :: rest =>
    rw [convertFields]
    obtain ⟨ht, hrest⟩ := List.forall_mem_append.mp hfields
    exact (overlaid_convertWith t ht).bind fun _ => (overlaid_convertFields rest hrest).bind fun _ => overlaid_pure _

end

end Conversion

namespace InferM

variable {α β : Type} {context : Context} {o : Overlay} {w w' : Work}

/-- A signature is converted to the same type under an overlay, when it writes names that matter only. -/
theorem run_convertSignature_overlaid {t : TypeExpr} (ht : ∀ name ∈ t.varNames, name ∈ o.names)
    {vars vars' : Assoc Name Ty} (hvars : o.Extends vars vars') {out : Ty × Assoc Name Ty}
    (hrun : convertSignature vars t context w = (.ok out, w')) :
    ∃ vars₁, o.Extends out.2 vars₁ ∧ convertSignature vars' t context w = (.ok (out.1, vars₁), w') := by
  let converted (vars : Assoc Name Ty) := Conversion.convert context.engine.scope true t (conversion w vars)
  have hform : ∀ vars, convertSignature vars t context w =
      (.ok ((converted vars).1, (converted vars).2.vars),
        ⟨{ w.session with
            cache := { w.session.cache with declared := (converted vars).2.table.declared }
            converting := (converted vars).2.table.converting },
          { w.pass with
            store := (converted vars).2.store
            problems := w.pass.problems ++ (converted vars).2.problems }⟩) := fun _ => rfl
  have hover : Conversion.Overlaid o (Conversion.convert context.engine.scope true t) :=
    Conversion.overlaid_convertWith t ht
  obtain ⟨vars₁, hextends, hsame⟩ := hover (conversion w vars) vars' hvars
  rw [hform vars] at hrun
  cases hrun
  refine ⟨vars₁, hextends, ?_⟩
  have hconverted : converted vars' = ((converted vars).1, { (converted vars).2 with vars := vars₁ }) := hsame
  rw [hform vars', hconverted]

/-! ### Work that does not look -/

/-- Whether work does the same whatever the type variables of the signatures around are. -/
def Blind (context : Context) (x : InferM α) : Prop :=
  ∀ w vars, x context (w.wearing vars) = ((x context w).1, (x context w).2.wearing vars)

theorem blind_pure (a : α) : Blind context (pure a) :=
  fun _ _ => rfl

theorem blind_throw (fault : Fault) : Blind context (throw fault : InferM α) :=
  fun _ _ => rfl

theorem Blind.bind {x : InferM α} {f : α → InferM β} (hx : Blind context x) (hf : ∀ a, Blind context (f a)) :
    Blind context (x >>= f) := by
  intro w vars
  have hwearing := hx w vars
  rcases hrun : x context w with ⟨r, w₁⟩
  rw [hrun] at hwearing
  cases r with
  | error fault => rw [run_bind_error f hrun, run_bind_error f hwearing]
  | ok a => rw [run_bind_ok f hrun, run_bind_ok f hwearing, hf a w₁ vars]

theorem blind_session (x : SessionM α) : Blind context (session x) :=
  fun _ _ => rfl

theorem blind_modifyPass {f : Pass → Pass}
    (h : ∀ pass vars, f { pass with typeVars := vars } = { f pass with typeVars := vars }) :
    Blind context (modifyPass f) := by
  intro w vars
  rw [run_modifyPass, run_modifyPass]
  exact congrArg (fun pass => (Except.ok (), Work.mk w.session pass)) (h w.pass vars)

theorem blind_inspect {f : Pass → InferM α} (hf : ∀ pass vars, f { pass with typeVars := vars } = f pass)
    (h : ∀ pass, Blind context (f pass)) : Blind context (getPass >>= f) := by
  intro w vars
  have hrun : ∀ w, (getPass >>= f) context w = f w.pass context w := fun _ => rfl
  rw [hrun, hrun]
  exact (congrFun (congrFun (hf w.pass vars) context) _).trans (h w.pass w vars)

theorem blind_store (work : StoreM α) : Blind context (store work) := by
  refine blind_inspect (fun _ _ => rfl) fun pass => ?_
  split
  · exact (blind_modifyPass fun _ _ => rfl).bind fun _ => blind_pure _
  · exact blind_throw _

theorem blind_allocate (work : Store → α × Store) : Blind context (allocate work) :=
  fun _ _ => rfl

theorem blind_read : Blind context read :=
  fun _ _ => rfl

theorem blind_isCancelled : Blind context isCancelled := by
  refine blind_inspect (fun _ _ => rfl) fun pass => ?_
  split
  · exact blind_pure _
  · refine (blind_session _).bind fun seen => ?_
    split
    · exact (blind_modifyPass fun _ _ => rfl).bind fun _ => blind_pure _
    · exact blind_pure _

theorem blind_constructorTypes (name : Ref) : Blind context (constructorTypes name) := by
  refine (blind_session _).bind fun targets => ?_
  split
  · exact (blind_read.bind fun _ => blind_pure _).bind fun _ => (blind_session _).bind fun _ => blind_allocate _
  · refine (blind_allocate _).bind fun t => ?_
    split <;> exact blind_pure _
  · exact blind_pure _

/-- Contained work is blind when it does not look at the type variables around. -/
theorem Contained.blind {records : Prop} {x : InferM α} (h : Contained records False x) : Blind context x := by
  induction h with
  | pure a => exact blind_pure a
  | bind _ _ hx hf => exact hx.bind hf
  | throw fault => exact blind_throw fault
  | read => exact blind_read
  | inspect _ hlooks _ h => exact blind_inspect (hlooks.resolve_left id) h
  | modify _ hblind _ _ => exact blind_modifyPass hblind
  | record _ id t => exact blind_modifyPass fun _ _ => rfl
  | store work => exact blind_store work
  | allocate work => exact blind_allocate work
  | isCancelled => exact blind_isCancelled
  | trip _ | findValues _ => exact blind_session _
  | convert rigid vars t =>
    refine (blind_read.bind fun _ => blind_pure _).bind fun _ => blind_inspect (fun _ _ => rfl) fun pass => ?_
    exact (blind_session _).bind fun _ => (blind_modifyPass fun _ _ => rfl).bind fun _ => blind_pure _
  | constructorTypes name => exact blind_constructorTypes name

/-- What the whole state is looked at for does not depend on the type variables around. -/
theorem blind_get {f : Work → InferM α} (hf : ∀ w vars, f (w.wearing vars) = f w) (h : ∀ w, Blind context (f w)) :
    Blind context (get >>= f) := by
  intro w vars
  have hrun : ∀ w, (get >>= f) context w = f w context w := fun _ => rfl
  rw [hrun, hrun, hf w vars]
  exact h w w vars

section Elsewhere

variable (elsewhere : Elsewhere)

/-- Other declarations are inferred in passes of their own. -/
theorem blind_declarationType (pos : Nat) (name : Name) (index : Nat) (decl : ValueDecl) :
    Blind context (declarationType elsewhere pos name index decl) := by
  refine (contained_checkCycle pos index decl : Contained False False _).blind.bind fun _ => ?_
  split
  · exact (contained_convertForeign _ : Contained False False _).blind
  · refine blind_get (fun _ _ => rfl) fun w => ?_
    split
    · exact (blind_modifyPass fun _ _ => rfl).bind fun _ => blind_pure _
    · refine (blind_session _).bind fun outcome => ?_
      split
      · exact (blind_modifyPass fun _ _ => rfl).bind fun _ => blind_allocate _
      · exact (blind_modifyPass fun _ _ => rfl).bind fun _ => blind_pure _
      · exact blind_pure _

theorem blind_targetType (pos : Nat) (name : Name) (target : ValueTarget) :
    Blind context (targetType elsewhere pos name target) := by
  have hengine : Blind context engine := blind_read.bind fun _ => blind_pure _
  cases target with
  | value index decl => exact blind_declarationType elsewhere pos name index decl
  | variant m decl index =>
    refine hengine.bind fun _ => (blind_session _).bind fun _ => (blind_allocate _).bind fun found => ?_
    split <;> exact blind_pure _
  | recordConstructor m decl =>
    refine hengine.bind fun _ => (blind_session _).bind fun found => ?_
    split
    · exact blind_pure _
    · refine (blind_allocate _).bind fun t => ?_
      split <;> exact blind_pure _
  | hostValue decl => exact (contained_convertForeign _ : Contained False False _).blind
  | external t => exact blind_allocate (Scheme.closed t).instantiate

theorem blind_globalReference (pos : Nat) (name : Ref) : Blind context (globalReference elsewhere pos name) := by
  refine (blind_session _).bind fun targets => ?_
  split
  · exact blind_targetType elsewhere _ _ _
  · exact blind_pure _

theorem blind_operatorType (pos : Nat) (name : Name) : Blind context (operatorType elsewhere pos name) := by
  refine (blind_read.bind fun _ => blind_pure _).bind fun engine => ?_
  split
  · exact (blind_targetType elsewhere _ _ _).bind fun _ => blind_pure _
  · exact blind_pure _

theorem blind_operatorTypes (operators : List NameAt) : Blind context (operatorTypes elsewhere operators) := by
  induction operators with
  | nil => exact blind_pure _
  | cons operator rest ih =>
    rw [operatorTypes]
    refine (blind_operatorType elsewhere _ _).bind fun found => ?_
    split
    · exact blind_pure _
    · refine ih.bind fun more => ?_
      split <;> exact blind_pure _

theorem blind_inferChain (operands : List (Nat × Ty)) (operators : List NameAt) :
    Blind context (inferChain elsewhere operands operators) := by
  refine (blind_operatorTypes elsewhere operators).bind fun found => ?_
  split
  · exact blind_pure _
  · split
    · exact (contained_applyTree _ _ _ : Contained False False _).blind.bind fun _ => blind_pure _
    · exact (contained_reported _ _ _ : Contained False False _).blind
    · exact (contained_reported _ _ _ : Contained False False _).blind

end Elsewhere

/-! ### Generalizing -/

/-- The free variables of types can be told when all the types can be zonked. -/
theorem exists_freeVars_iff {ts : List Ty} :
    (∃ ids, Scheme.freeVars s ts = .ok ids) ↔ ∀ t ∈ ts, ∃ z, s.zonk t = .ok z := by
  constructor
  · rintro ⟨ids, h⟩ t ht
    obtain ⟨zs, hzs, -⟩ := exists_of_bind_ok h
    obtain ⟨z, -, hz⟩ := exists_mem_of_forall₂ (mapM_eq_ok_iff.mp hzs).flip ht
    exact ⟨z, hz⟩
  · intro h
    obtain ⟨zs, hzs⟩ : ∃ zs, ts.mapM s.zonk = .ok zs := by
      induction ts with
      | nil => exact ⟨[], rfl⟩
      | cons t ts ih =>
        obtain ⟨hfirst, hrest⟩ := List.forall_mem_cons.mp h
        obtain ⟨z, hz⟩ := hfirst
        obtain ⟨zs, hzs⟩ := ih hrest
        exact ⟨z :: zs, by rw [List.mapM_cons, hz, hzs]; rfl⟩
    exact ⟨_, by rw [Scheme.freeVars, hzs]; rfl⟩

/-- An overlay lets the surroundings be searched as before, and finds nothing more there that is at hand. -/
theorem environmentVars_overlaid {vars : Assoc Name Ty} (hvars : o.Extends w.pass.typeVars vars)
    (hstrange : o.Strange w.pass.store Q) :
    ((∃ ids, environmentVars w.pass = .ok ids) ↔ ∃ ids, environmentVars (w.wearing vars).pass = .ok ids) ∧
      ∀ ids ids', environmentVars w.pass = .ok ids → environmentVars (w.wearing vars).pass = .ok ids' →
        ∀ v, .var v ∈ Q → (v.id ∈ ids ↔ v.id ∈ ids') := by
  constructor
  · have hsignatures : (∃ ids, Scheme.freeVars w.pass.store (w.pass.typeVars.map Prod.snd) = .ok ids) ↔
        ∃ ids, Scheme.freeVars w.pass.store (vars.map Prod.snd) = .ok ids := by
      rw [exists_freeVars_iff, exists_freeVars_iff, List.forall_mem_map, List.forall_mem_map]
      refine ⟨fun h entry hentry => ?_, fun h entry hentry => h entry (hvars.kept entry hentry)⟩
      rcases hvars.added entry hentry with hold | hnew
      · exact h entry hold
      · obtain ⟨v, hv, hun, -⟩ := hstrange entry hnew
        exact ⟨.var v, by rw [hv, Store.zonk, zonkAt_eq, zonkWith_unsolved hun]⟩
    have hsearch : ∀ pass : Pass, (∃ ids, environmentVars pass = .ok ids) ↔
        (∃ ids, Scheme.freeVars pass.store (pass.typeVars.map Prod.snd) = .ok ids) ∧
          ∃ found, (pass.scopes.flatten).mapM (fun entry => bindingVars pass.store entry.2) = .ok found := by
      intro pass
      constructor
      · rintro ⟨ids, h⟩
        obtain ⟨signatures, hsignatures, h⟩ := exists_of_bind_ok h
        obtain ⟨found, hfound, -⟩ := exists_of_bind_ok h
        exact ⟨⟨signatures, hsignatures⟩, found, hfound⟩
      · rintro ⟨⟨signatures, hsignatures⟩, found, hfound⟩
        exact ⟨signatures ++ found.flatten, by rw [environmentVars, hsignatures, ok_bind, hfound]; rfl⟩
    rw [hsearch, hsearch]
    exact and_congr_left fun _ => hsignatures
  · intro ids ids' h h' v hv
    rw [← not_iff_not, notMem_environmentVars_iff h, notMem_environmentVars_iff h']
    refine ⟨fun hhides => ⟨hhides.bindings, fun entry hentry => ?_⟩,
      fun hhides => ⟨hhides.bindings, fun entry hentry => hhides.typeVars entry (hvars.kept entry hentry)⟩⟩
    rcases hvars.added entry hentry with hold | hnew
    · exact hhides.typeVars entry hold
    · obtain ⟨u, hu, hun, haway⟩ := hstrange entry hnew
      rw [hu]
      exact hides_of_within (Ty.within_var.mpr (mem_clearOf_of_unsolved hun (Ne.symm (haway v hv))))

/-- A type at hand is generalized in the same way under an overlay. -/
theorem generalize_overlaid {vars : Assoc Name Ty} (hvars : o.Extends w.pass.typeVars vars)
    (hstrange : o.Strange w.pass.store Q) (hstore : Store.Orderly (w.pass.store, Q)) {t : Ty} (ht : t.Within Q)
    (scheme : Scheme) : (generalize t context w).1 = .ok scheme ↔
      (generalize t context (w.wearing vars)).1 = .ok scheme := by
  obtain ⟨hok, hids⟩ := environmentVars_overlaid hvars hstrange
  rw [run_generalize, run_generalize]
  change (environmentVars w.pass >>= Scheme.generalize w.pass.store t) = .ok scheme ↔
    (environmentVars (w.wearing vars).pass >>= Scheme.generalize w.pass.store t) = .ok scheme
  have hsame : ∀ ids ids', environmentVars w.pass = .ok ids → environmentVars (w.wearing vars).pass = .ok ids' →
      Scheme.generalize w.pass.store t ids = Scheme.generalize w.pass.store t ids' := by
    intro ids ids' h h'
    cases hz : w.pass.store.zonk t with
    | error fault => rw [Scheme.generalize, Scheme.generalize, hz]; rfl
    | ok z =>
      have hfilter : z.vars.filter (fun v => !ids.contains v.id) = z.vars.filter (fun v => !ids'.contains v.id) := by
        refine List.filter_congr fun v hv => ?_
        have hhand : .var v ∈ Q := hstore.within_zonk ht hz _ (Ty.mentions_of_mem_vars hv)
        rw [Bool.not_inj_iff, Bool.eq_iff_iff, List.contains_iff_mem, List.contains_iff_mem]
        exact hids ids ids' h h' v hhand
      rw [Scheme.generalize, Scheme.generalize, hz, ok_bind, ok_bind, hfilter]
  constructor
  · intro h
    obtain ⟨ids, hids, h⟩ := exists_of_bind_ok h
    obtain ⟨ids', hids'⟩ := hok.mp ⟨ids, hids⟩
    rw [hids', ok_bind, ← hsame ids ids' hids hids', h]
  · intro h
    obtain ⟨ids', hids', h⟩ := exists_of_bind_ok h
    obtain ⟨ids, hids⟩ := hok.mpr ⟨ids', hids'⟩
    rw [hids, ok_bind, hsame ids ids' hids hids', h]

/-- A signature quantifies the same variables under an overlay. -/
theorem signatureScheme_overlaid {vars vars' : Assoc Name Ty} (hvars : o.Extends vars vars') (hstrange : o.Strange s Q)
    {t : Ty} (ht : t.Within Q) : signatureScheme vars' t = signatureScheme vars t := by
  have hfilter : ∀ v ∈ t.vars,
      (v.id ∈ vars'.filterMap (fun entry => entry.2.var?.map TyVar.id) ↔
        v.id ∈ vars.filterMap (fun entry => entry.2.var?.map TyVar.id)) := by
    intro v hv
    simp only [List.mem_filterMap]
    refine ⟨fun ⟨entry, hentry, hid⟩ => ?_, fun ⟨entry, hentry, hid⟩ => ⟨entry, hvars.kept entry hentry, hid⟩⟩
    rcases hvars.added entry hentry with hold | hnew
    · exact ⟨entry, hold, hid⟩
    · obtain ⟨u, hu, -, haway⟩ := hstrange entry hnew
      rw [hu] at hid
      exact absurd (Option.some.inj hid).symm (haway v (ht _ (Ty.mentions_of_mem_vars hv)))
  rw [signatureScheme, signatureScheme]
  refine congrArg (Scheme.mk · t) (List.filter_congr fun v hv => ?_)
  rw [Bool.not_inj_iff, Bool.eq_iff_iff, List.contains_iff_mem, List.contains_iff_mem]
  exact hfilter v hv

end InferM

end ElmInference
