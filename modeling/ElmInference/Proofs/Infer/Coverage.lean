import ElmInference.Proofs.Infer.Lockstep
import ElmInference.Proofs.Infer.Results
import ElmInference.Proofs.Infer.Settings
import Mathlib.Tactic.Abel

/-!
# Inference comes by every node once

What inference records is balanced against what it has to do: the nodes recorded on the way, together with the nodes of
the definitions that still wait afterwards, are the nodes of the expression together with those of the definitions that
waited before. A definition that is inferred on demand is paid out of what was owed, so the balance holds however
definitions ask for each other. When a `let` is left, nothing waits there any more, and so a whole declaration is found
recorded, each node once and where it stands.

The balance is kept by runs that are not called off, in programs where no `let` binds a name twice. With `quiet`, only
runs that report nothing are of interest; then a name bound twice is out of the question as well.
-/

namespace ElmInference

/-- How runs of interest end: not called off, and without problems if these are of no interest. -/
structure Pass.Ends (quiet : Prop) (pass : Pass) : Prop where
  finished : pass.cancelled = false
  silent : quiet → pass.problems = []

theorem Pass.Ends.of_grows {quiet : Prop} {pass pass' : Pass} (h : pass'.Ends quiet) (hgrows : pass.Grows pass') :
    pass.Ends quiet := by
  refine ⟨Bool.eq_false_iff.mpr fun hcancelled => ?_, fun hquiet => ?_⟩
  · exact Bool.eq_false_iff.mp h.finished (hgrows.cancelled hcancelled)
  · exact List.prefix_nil.mp (h.silent hquiet ▸ hgrows.problems)

/-- Whether a site is not a `let` that binds a name twice, or such sites are out of the question anyway. -/
def Site.Apart (quiet : Prop) : Site → Prop
  | .expr _ _ (.mk _ _ (.letIn definitions _)) => quiet ∨ (definitions.flatMap Definition.names).Nodup
  | _ => True

namespace InferM

variable {α β : Type} {context : Context} {quiet : Prop} {σ τ ρ : Setting} {m m' m₁ m₂ : Multiset Site} {w w₁ w' : Work}

/-! ### Balance -/

/-- Whether a site was inferred where it stands before a state was reached. Of patterns nothing is said. -/
def Seen (context : Context) (w' : Work) : Site → Prop
  | .expr locals depth e => ∃ elsewhere w₁ t w₂, IsComposed context.engine elsewhere ∧ w₁.pass.depth = depth ∧
      w₂.pass.depth = depth ∧ (∀ name, name ∉ locals → lookupIn name w₁.pass.scopes = none) ∧
      inferKind elsewhere e.pos e.kind context w₁ = (.ok t, w₂) ∧ w₂.pass.Grows w'.pass
  | .pattern _ => True

theorem Seen.of_grows {site : Site} (h : Seen context w₁ site) (hgrows : w₁.pass.Grows w'.pass) :
    Seen context w' site := by
  cases site with
  | pattern p => trivial
  | expr locals depth e =>
    obtain ⟨elsewhere, w₂, t, w₃, hcomposed, hdepth, hdepth', hlocals, hrun, hlater⟩ := h
    exact ⟨elsewhere, w₂, t, w₃, hcomposed, hdepth, hdepth', hlocals, hrun, hlater.trans hgrows⟩

/-- Whether just these sites were inferred and recorded between two states. -/
structure Covers (context : Context) (w w' : Work) (m : Multiset Site) : Prop where
  recorded : (w'.pass.nodeTypes.map Prod.fst : Multiset NodeId) = (w.pass.nodeTypes.map Prod.fst : Multiset NodeId) + m.map Site.id
  seen : ∀ site ∈ m, Seen context w' site

theorem covers_zero (h : w'.pass.nodeTypes = w.pass.nodeTypes) : Covers context w w' 0 :=
  ⟨by rw [h, Multiset.map_zero, add_zero], nofun⟩

theorem Covers.trans (h : Covers context w w₁ m₁) (h' : Covers context w₁ w' m₂) (hgrows : w₁.pass.Grows w'.pass) :
    Covers context w w' (m₁ + m₂) := by
  refine ⟨by rw [h'.recorded, h.recorded, Multiset.map_add, add_assoc], fun site hsite => ?_⟩
  exact (Multiset.mem_add.mp hsite).elim (fun hm => (h.seen site hm).of_grows hgrows) (h'.seen site)

/-- Whether sites were inferred between two states, on account of what there was to do and what was owed. -/
def Balanced (context : Context) (σ τ : Setting) (m : Multiset Site) (w w' : Work) : Prop :=
  τ.Fits w'.pass ∧ ∃ m', Covers context w w' m' ∧ m' + τ.owed w'.pass = m + σ.owed w.pass

theorem Balanced.trans (h : Balanced context σ ρ m₁ w w₁) (h' : Balanced context ρ τ m₂ w₁ w')
    (hgrows : w₁.pass.Grows w'.pass) : Balanced context σ τ (m₁ + m₂) w w' := by
  obtain ⟨-, n₁, hcovers, hsum⟩ := h
  obtain ⟨hfits, n₂, hcovers', hsum'⟩ := h'
  refine ⟨hfits, n₁ + n₂, hcovers.trans hcovers' hgrows, ?_⟩
  calc n₁ + n₂ + τ.owed w'.pass = n₁ + (m₂ + ρ.owed w₁.pass) := by rw [add_assoc, hsum']
    _ = n₁ + ρ.owed w₁.pass + m₂ := by ac_rfl
    _ = m₁ + m₂ + σ.owed w.pass := by rw [hsum]; ac_rfl

theorem Balanced.of_eq (h : Balanced context σ τ m w w') (heq : m = m') : Balanced context σ τ m' w w' :=
  heq ▸ h

theorem balanced_of_stays (hfits : σ.Fits w.pass) (h : w.pass.Stays w'.pass) : Balanced context σ σ 0 w w' :=
  ⟨hfits.of_stays h, 0, covers_zero h.nodeTypes, by rw [Setting.owed_of_stays h]⟩

/-- Whether work leads from one setting to another and infers just these sites, besides those that were owed. -/
structure Turns (context : Context) (quiet : Prop) (σ τ : Setting) (m : Multiset Site) (x : InferM α) : Prop where
  growing : Growing context x
  pays : ∀ w a w', x context w = (.ok a, w') → w'.pass.Ends quiet → σ.Fits w.pass →
    (∀ site ∈ m + σ.owed w.pass, site.Apart quiet) → Balanced context σ τ m w w'

theorem Inert.turns {x : InferM α} (h : Inert context x) : Turns context quiet σ σ 0 x :=
  ⟨fun w a w' hrun => (h w a w' hrun).toGrows, fun w a w' hrun _ hfits _ => balanced_of_stays hfits (h w a w' hrun)⟩

theorem turns_pure (a : α) : Turns context quiet σ σ 0 (pure a) :=
  (inert_pure a).turns

def Returns (context : Context) (x : InferM α) (a : α) : Prop :=
  ∃ w w', x context w = (.ok a, w')

theorem Turns.bind {x : InferM α} {f : α → InferM β} (hx : Turns context quiet σ ρ m₁ x)
    (hf : ∀ a, Returns context x a → Turns context quiet ρ τ m₂ (f a)) :
    Turns context quiet σ τ (m₁ + m₂) (x >>= f) := by
  refine ⟨fun w b w' hrun => ?_, fun w b w' hrun hends hfits hapart => ?_⟩
  · obtain ⟨a, w₁, hrun₁, hrun₂⟩ := run_bind_inv hrun
    exact (hx.growing _ _ _ hrun₁).trans ((hf a ⟨_, _, hrun₁⟩).growing _ _ _ hrun₂)
  · obtain ⟨a, w₁, hrun₁, hrun₂⟩ := run_bind_inv hrun
    have hrest := hf a ⟨_, _, hrun₁⟩
    have hgrows := hrest.growing _ _ _ hrun₂
    have hfirst := hx.pays _ _ _ hrun₁ (hends.of_grows hgrows) hfits fun site hsite => hapart site <| by
      rw [add_right_comm]
      exact Multiset.mem_add.mpr (.inl hsite)
    refine hfirst.trans (hrest.pays _ _ _ hrun₂ hends hfirst.1 fun site hsite => hapart site ?_) hgrows
    obtain ⟨-, n, -, hsum⟩ := hfirst
    rcases Multiset.mem_add.mp hsite with hsite | hsite
    · exact Multiset.mem_add.mpr (.inl (Multiset.mem_add.mpr (.inr hsite)))
    · have hmem : site ∈ m₁ + σ.owed w.pass := hsum ▸ Multiset.mem_add.mpr (.inr hsite)
      rw [add_right_comm]
      exact Multiset.mem_add.mpr (.inl hmem)

theorem Turns.of_eq {x : InferM α} (h : Turns context quiet σ τ m x) (heq : m = m') : Turns context quiet σ τ m' x :=
  heq ▸ h

/-- Work that does nothing but lead to another setting may come first. -/
theorem Turns.first {x : InferM α} {f : α → InferM β} (hx : Turns context quiet σ ρ 0 x)
    (hf : ∀ a, Returns context x a → Turns context quiet ρ τ m (f a)) : Turns context quiet σ τ m (x >>= f) :=
  (hx.bind hf).of_eq (zero_add m)

/-- Work that does nothing but lead to another setting may follow. -/
theorem Turns.last {x : InferM α} {f : α → InferM β} (hx : Turns context quiet σ ρ m x)
    (hf : ∀ a, Turns context quiet ρ τ 0 (f a)) : Turns context quiet σ τ m (x >>= f) :=
  (hx.bind fun a _ => hf a).of_eq (add_zero m)

theorem Inert.first {x : InferM α} {f : α → InferM β} (hx : Inert context x)
    (hf : ∀ a, Returns context x a → Turns context quiet σ τ m (f a)) : Turns context quiet σ τ m (x >>= f) :=
  hx.turns.first hf

theorem Turns.done {x : InferM α} {f : α → InferM β} (hx : Turns context quiet σ τ m x) (hf : ∀ a, Inert context (f a)) :
    Turns context quiet σ τ m (x >>= f) :=
  hx.last fun a => (hf a).turns

/-! ### Patterns -/

/-- Recording the type of a pattern is the last that is done for it. -/
theorem turns_record (p : Pattern) (t : Ty) : Turns context quiet σ σ {.pattern p} (record p.id t) := by
  refine ⟨(Contained.record trivial p.id t).growing, fun w a w' hrun _ hfits _ => ?_⟩
  cases hrun
  refine ⟨⟨hfits.frames, hfits.depth⟩, {.pattern p}, ⟨?_, fun site hsite => ?_⟩, rfl⟩
  · rw [Multiset.map_singleton, add_comm]
    rfl
  · rw [Multiset.mem_singleton.mp hsite]
    trivial

theorem turns_recorded (p : Pattern) (t : Ty) (bound : Bound) :
    Turns context quiet σ σ {.pattern p} (do record p.id t; return bound : InferM Bound) :=
  (turns_record p t).done fun _ => inert_pure _

/-- A pattern is recorded after the patterns inside of it. -/
theorem Turns.recorded {x : InferM Bound} {kind : PatternKind Pattern}
    (h : Turns context quiet σ σ (Pattern.kindSites kind) x) (id : NodeId) (pos : Nat) (t : Ty) (f : Bound → Bound) :
    Turns context quiet σ σ (Pattern.sites (.mk id pos kind)) (do
      let bound ← x
      record id t
      return f bound : InferM Bound) := by
  refine (h.bind fun _ _ => turns_recorded (.mk id pos kind) t _).of_eq ?_
  rw [Pattern.sites, add_comm, Multiset.singleton_add]

mutual

theorem turns_inferPattern (place : PatternPlace) (p : Pattern) (t : Ty) :
    Turns context quiet σ σ p.sites (inferPattern place p t) := by
  match p with
  | .mk id pos .any | .mk id pos (.var name) =>
    rw [inferPattern]
    exact turns_recorded (.mk id pos _) t _
  | .mk id pos .unit =>
    rw [inferPattern]
    exact (contained_checkPattern _ _ _).inert.first fun _ _ => turns_recorded (.mk id pos _) t _
  | .mk id pos (.literal kind) =>
    rw [inferPattern]
    refine (contained_partialPattern _ _).inert.first fun _ _ => (contained_literalType kind).inert.first fun u _ => ?_
    exact (contained_checkPattern _ _ _).inert.first fun _ _ => turns_recorded (.mk id pos _) t _
  | .mk id pos (.tuple items) =>
    rw [inferPattern]
    refine (contained_freshVars _ _).inert.first fun types _ => (contained_checkPattern _ _ _).inert.first fun fits _ => ?_
    exact (turns_inferPatterns place items _).recorded id pos t _
  | .mk id pos (.list items) | .mk id pos (.cons items) =>
    rw [inferPattern]
    refine (contained_partialPattern _ _).inert.first fun _ _ => (contained_freshVar _).inert.first fun item _ => ?_
    refine (contained_checkPattern _ _ _).inert.first fun fits _ => ?_
    exact (turns_inferPatterns place items _).recorded id pos t _
  | .mk id pos (.record fields) =>
    rw [inferPattern]
    refine (contained_freshVars _ _).inert.first fun types _ => (contained_freshVar _).inert.first fun base _ => ?_
    exact (contained_checkPattern _ _ _).inert.first fun fits _ => turns_recorded (.mk id pos _) t _
  | .mk id pos (.constructor name args) =>
    rw [inferPattern]
    have hrest : ∀ types, Turns context quiet σ σ (Pattern.sites (.mk id pos (.constructor name args))) (do
        let bound ← inferPatterns place args types
        record id t
        return bound : InferM Bound) :=
      fun types => (turns_inferPatterns place args types).recorded id pos t _
    refine (Contained.constructorTypes name).inert.first fun found _ => ?_
    split
    · exact hrest _
    · split
      · exact (contained_report _ _).inert.first fun _ _ => hrest _
      · exact (contained_checkPattern _ _ _).inert.first fun fits _ => hrest _
  | .mk id pos (.named pattern name) =>
    rw [inferPattern]
    exact (turns_inferPattern place pattern t).recorded id pos t _

theorem turns_inferPatterns (place : PatternPlace) (ps : List Pattern) (types : List Ty) :
    Turns context quiet σ σ (Pattern.sitesList ps) (inferPatterns place ps types) := by
  match ps with
  | [] =>
    rw [inferPatterns]
    exact turns_pure _
  | p :: ps =>
    rw [inferPatterns]
    exact (turns_inferPattern place p _).bind fun _ _ => (turns_inferPatterns place ps _).done fun _ => inert_pure _

end

theorem turns_inferParams {params : List Pattern} {types : List Ty} (h : types.length = params.length) :
    Turns context quiet σ σ (Pattern.sitesList params) (inferParams params types) := by
  induction params generalizing types with
  | nil =>
    obtain rfl := List.eq_nil_of_length_eq_zero h
    exact turns_pure _
  | cons p ps ih =>
    cases types with
    | nil => cases h
    | cons t types =>
      rw [inferParams]
      refine (turns_inferPattern .parameter p t).bind fun _ _ => ?_
      exact (ih (Nat.succ.inj h)).done fun _ => inert_pure _

/-! ### Scopes in which nothing waits -/

theorem turns_modifyPass {f : Pass → Pass} (hgrows : ∀ pass : Pass, pass.Grows (f pass))
    (hnodes : ∀ pass : Pass, (f pass).nodeTypes = pass.nodeTypes)
    (h : ∀ pass, σ.Fits pass → τ.Fits (f pass) ∧ τ.owed (f pass) = m + σ.owed pass) :
    Turns context quiet σ τ m (modifyPass f) := by
  refine ⟨growing_modifyPass hgrows, fun w a w' hrun _ hfits _ => ?_⟩
  cases hrun
  obtain ⟨hfits', howed⟩ := h _ hfits
  exact ⟨hfits', 0, covers_zero (hnodes _), (zero_add _).trans howed⟩

/-- What waits in a scope is to be inferred from when the scope is entered. -/
theorem turns_pushScope {f : Frame} {scope : Scope} (h : f.Fits scope) :
    Turns context quiet σ (σ.push f) (f.owed (f.names ++ σ.locals) scope) (pushScope scope) :=
  turns_modifyPass (fun _ => ⟨List.prefix_rfl, id, List.Subset.refl _⟩) (fun _ => rfl) fun _ hfits =>
    ⟨⟨.cons h hfits.frames, hfits.depth⟩, rfl⟩

theorem turns_enterScope {names : List Name} {scope : Scope} (h : Frame.Fits ⟨names, []⟩ scope) :
    Turns context quiet σ (σ.push ⟨names, []⟩) 0 (pushScope scope) :=
  (turns_pushScope h).of_eq (h.owed_eq_zero rfl)

theorem turns_popScope {names : List Name} : Turns context quiet (σ.push ⟨names, []⟩) σ 0 popScope := by
  refine turns_modifyPass (fun _ => ⟨List.prefix_rfl, id, List.Subset.refl _⟩) (fun _ => rfl) fun pass hfits => ?_
  obtain ⟨scope, outer, hscope, houter, hscopes⟩ := List.forall₂_cons_left_iff.mp hfits.frames
  rw [Setting.owed, Setting.owed, hscopes, Setting.push, Frame.owedIn, hscope.owed_eq_zero rfl]
  exact ⟨⟨houter, hfits.depth⟩, by rw [zero_add, zero_add]; rfl⟩

/-- A name gets a meaning that does not wait, in a scope where nothing waits. -/
theorem turns_bindName {names : List Name} {name : Name} {binding : Binding} (hname : name ∈ names)
    (hbinding : ¬ binding.IsPending) :
    Turns context quiet (σ.push ⟨names, []⟩) (σ.push ⟨names, []⟩) 0 (InferM.bind name binding) := by
  rw [InferM.bind, modifyScope]
  refine turns_modifyPass (fun pass => ?_) (fun pass => ?_) fun pass hfits => ?_
  · split <;> exact ⟨List.prefix_rfl, id, List.Subset.refl _⟩
  · split <;> rfl
  · obtain ⟨scope, outer, hscope, houter, hscopes⟩ := List.forall₂_cons_left_iff.mp hfits.frames
    have hscope' : Frame.Fits ⟨names, []⟩ (Assoc.set scope name binding) := by
      refine hscope.of_rebinds ?_ (Assoc.nodup_keys_set hscope.keyed _ _) (Scope.rebinds_set scope name hbinding) ?_
      · exact List.cons_subset.mpr ⟨hname, List.nil_subset _⟩
      · exact fun _ _ _ _ _ hget => absurd (hscope.waits _ _ _ _ hget) List.not_mem_nil
    rw [hscopes]
    refine ⟨⟨.cons hscope' houter, hfits.depth⟩, ?_⟩
    rw [Setting.owed, Setting.owed, hscopes, Setting.push, Frame.owedIn, Frame.owedIn, hscope.owed_eq_zero rfl,
      hscope'.owed_eq_zero rfl, zero_add, zero_add]

/-- A scope in which nothing waits may get more names. -/
theorem Turns.widen {x : InferM α} {names names' : List Name} (h : Turns context quiet (σ.push ⟨names', []⟩) τ m x)
    (hnames : names ⊆ names') : Turns context quiet (σ.push ⟨names, []⟩) τ m x := by
  refine ⟨h.growing, fun w a w' hrun hends hfits hapart => ?_⟩
  obtain ⟨scope, outer, hscope, houter, hscopes⟩ := List.forall₂_cons_left_iff.mp hfits.frames
  have hscope' : Frame.Fits ⟨names', []⟩ scope :=
    ⟨hscope.keyed, hscope.coherent, fun name hsome => hnames (hscope.bound name hsome), hscope.waits⟩
  have howed : (σ.push ⟨names, []⟩).owed w.pass = (σ.push ⟨names', []⟩).owed w.pass := by
    rw [Setting.owed, Setting.owed, hscopes, Setting.push, Setting.push, Frame.owedIn, Frame.owedIn,
      hscope.owed_eq_zero rfl, hscope'.owed_eq_zero rfl]
  have hfits' : (σ.push ⟨names', []⟩).Fits w.pass := ⟨hscopes ▸ .cons hscope' houter, hfits.depth⟩
  rw [howed] at hapart
  obtain ⟨hfits₁, n, hcovers, hsum⟩ := h.pays _ _ _ hrun hends hfits' hapart
  exact ⟨hfits₁, n, hcovers, howed ▸ hsum⟩

theorem turns_bindAll (taken : List Name) {names : List Name} {bound : Bound} (h : bound.map (·.1.name) ⊆ names) :
    Turns context quiet (σ.push ⟨names, []⟩) (σ.push ⟨names, []⟩) 0 (bindAll taken bound) := by
  induction bound generalizing taken with
  | nil => exact turns_pure _
  | cons entry rest ih =>
    rw [List.map_cons] at h
    obtain ⟨hname, hrest⟩ := List.cons_subset.mp h
    rw [bindAll]
    refine (contained_declare taken entry.1).inert.first fun taken _ => ?_
    exact (turns_bindName hname id).first fun _ _ => ih taken hrest

/-- What lies inside of binders is inferred with their names in a scope of its own. -/
theorem turns_withBound (taken : List Name) {names : List Name} {binders : InferM Bound} {rest : InferM β}
    (hbinders : Turns context quiet (σ.push ⟨names, []⟩) (σ.push ⟨names, []⟩) m₁ binders)
    (hnames : ∀ bound, Returns context binders bound → bound.map (·.1.name) = names)
    (hrest : Turns context quiet (σ.push ⟨names, []⟩) τ m₂ rest) :
    Turns context quiet σ τ (m₁ + m₂) (do pushScope []; let bound ← binders; bindAll taken bound; rest) := by
  refine (turns_enterScope (Frame.fits_nil names)).first fun _ _ => hbinders.bind fun bound hbound => ?_
  exact (turns_bindAll taken (hnames bound hbound ▸ List.Subset.refl _)).first fun _ _ => hrest

theorem turns_deeper (levels : Nat) {work : InferM α}
    (h : Turns context quiet (σ.under levels) (σ.under levels) m work) :
    Turns context quiet σ σ m (deeper levels work) := by
  have henter : Turns context quiet σ (σ.under levels) 0
      (modifyPass (fun pass => { pass with depth := pass.depth + levels })) :=
    turns_modifyPass (fun _ => ⟨List.prefix_rfl, id, List.Subset.refl _⟩) (fun _ => rfl) fun pass hfits =>
      ⟨⟨hfits.frames, congrArg (· + levels) hfits.depth⟩, (zero_add _).symm⟩
  have hleave : Turns context quiet (σ.under levels) σ 0
      (modifyPass (fun pass => { pass with depth := pass.depth - levels })) :=
    turns_modifyPass (fun _ => ⟨List.prefix_rfl, id, List.Subset.refl _⟩) (fun _ => rfl) fun pass hfits =>
      ⟨⟨hfits.frames, (congrArg (· - levels) hfits.depth).trans (Nat.add_sub_cancel _ _)⟩, (zero_add _).symm⟩
  exact henter.first fun _ _ => h.last fun a => hleave.done fun _ => inert_pure a

/-! ### Definitions -/

section Bodies

variable {inferBody : Expr → InferM Ty}
  (hbody : ∀ σ e, Turns context quiet σ σ (Expr.sites σ.locals σ.depth e) (inferBody e))

include hbody

theorem turns_inferFunction (name : NameAt) (params : List Pattern) (body : Expr) (signature : Option Ty) :
    Turns context quiet σ σ
      (Pattern.sitesList params + body.sites ((Pattern.boundNamesList params).map NameAt.name ++ σ.locals)
        (σ.depth + if params.isEmpty then 0 else 1))
      (inferFunction inferBody name params body signature) := by
  -- All but the last step is the same with and without a signature.
  have hrest : ∀ types : List Ty, types.length = params.length → ∀ last : Ty → InferM Ty, (∀ t, Contained False True (last t)) →
      Turns context quiet σ σ
        (Pattern.sitesList params + body.sites ((Pattern.boundNamesList params).map NameAt.name ++ σ.locals)
          (σ.depth + if params.isEmpty then 0 else 1)) (do
        pushScope []
        let bound ← inferParams params types
        bindAll [name.name] bound
        let bodyType ← deeper (if params.isEmpty then 0 else 1) (inferBody body)
        popScope
        last bodyType) := by
    intro types hlength last hlast
    refine turns_withBound _ (turns_inferParams hlength) (fun _ ⟨_, _, hrun⟩ => names_inferParams hlength hrun) ?_
    exact (turns_deeper _ (hbody _ body)).last fun t => turns_popScope.done fun _ => (hlast t).inert
  refine (contained_expectedParams name params signature).inert.first fun expected ⟨_, _, hexpected⟩ => ?_
  cases expected with
  | some types =>
    refine hrest types (length_expectedParams hexpected types rfl) _ fun t => ?_
    cases signature with
    | some signature => exact (contained_check _ _ _).bind fun _ => .pure _
    | none => exact .pure _
  | none =>
    refine (contained_freshVars _ _).inert.first fun types ⟨_, _, htypes⟩ => ?_
    refine hrest types (length_freshVars htypes) _ fun t => ?_
    cases signature <;> exact .pure _

theorem turns_inferDestructuring (pattern : Pattern) (body : Expr) :
    Turns context quiet σ σ (pattern.sites + body.sites σ.locals σ.depth) (inferDestructuring inferBody pattern body) := by
  refine ((hbody σ body).bind fun t _ => (turns_inferPattern .declaration pattern t).done fun _ => inert_pure _).of_eq ?_
  exact add_comm _ _

end Bodies

/-! ### Definitions that wait -/

/-- Whether a pass has got other scopes and is otherwise the same as far as the balance goes. -/
structure Moves (pass : Pass) (scopes : List Scope) (pass' : Pass) : Prop extends Pass.Grows pass pass' where
  scopes : pass'.scopes = scopes
  nodeTypes : pass'.nodeTypes = pass.nodeTypes
  depth : pass'.depth = pass.depth

theorem exists_moves_bindGeneralized {bound : Bound} {scope : Scope} {outer : List Scope}
    (h : w.pass.scopes = scope :: outer) (hrun : bindGeneralized bound context w = (.ok (), w')) :
    ∃ scope', Moves w.pass (scope' :: outer) w'.pass ∧ (scope.Keyed → scope'.Keyed) := by
  induction bound generalizing w scope with
  | nil =>
    cases hrun
    exact ⟨scope, ⟨.refl _, h, rfl, rfl⟩, id⟩
  | cons entry rest ih =>
    obtain ⟨scheme, w₁, hscheme, hrun⟩ := run_bind_inv hrun
    have hstays := (contained_generalize _).inert _ _ _ hscheme
    rw [run_bind_ok _ (run_bindName (hstays.scopes.trans h))] at hrun
    obtain ⟨scope', hmoves, hkeyed⟩ := ih rfl hrun
    refine ⟨scope', ⟨hstays.toGrows.trans ⟨hmoves.problems, hmoves.cancelled, hmoves.recursive⟩, hmoves.scopes,
      hmoves.nodeTypes.trans hstays.nodeTypes, hmoves.depth.trans hstays.depth⟩, fun h => hkeyed ?_⟩
    exact Assoc.nodup_keys_set h _ _

def Settled (names : List Name) (pass : Pass) : Prop :=
  ∃ scope outer, pass.scopes = scope :: outer ∧ ∀ name ∈ names, ∀ binding, Assoc.get? scope name = some binding →
    ¬ binding.IsPending

/-- A waiting definition is paid out of what is owed: its names get a meaning for the time being, its nodes are
inferred, and then its names get another meaning. -/
theorem balanced_of_rebinds {f : Frame} {frames : List Frame} {depth slot : Nat} {d : ValueDecl} {name : Name}
    {scope scope₁ scope₂ scope' : Scope} {outer outer₂ : List Scope} {x : InferM α} {a : α} {w₂ : Work}
    (hrun : x context w₁ = (.ok a, w₂))
    (hx : Turns context quiet ⟨f :: frames, depth⟩ ⟨f :: frames, depth⟩ (d.sites (Frame.locals (f :: frames)) depth) x)
    (hends : w'.pass.Ends quiet) (hfits : Setting.Fits ⟨f :: frames, depth⟩ w.pass)
    (hapart : ∀ site ∈ Setting.owed ⟨f :: frames, depth⟩ w.pass, site.Apart quiet)
    (hscopes : w.pass.scopes = scope :: outer) (hget : Assoc.get? scope name = some (.pending slot d depth))
    (hstart : Moves w.pass (scope₁ :: outer) w₁.pass) (hkeyed₁ : scope₁.Keyed)
    (hrebinds₁ : Scope.Rebinds d.names scope scope₁) (hbound₁ : ∀ name ∈ d.names, (Assoc.get? scope₁ name).isSome)
    (hscopes₂ : w₂.pass.scopes = scope₂ :: outer₂)
    (hsettles : Scope.Settles scope₁ scope₂)
    (hend : Moves w₂.pass (scope' :: outer₂) w'.pass) (hkeyed' : scope₂.Keyed → scope'.Keyed)
    (hrebinds' : Scope.Rebinds d.names scope₂ scope') :
    Balanced context ⟨f :: frames, depth⟩ ⟨f :: frames, depth⟩ 0 w w' ∧ Settled d.names w'.pass := by
  obtain ⟨hscope, houter⟩ := List.forall₂_cons.mp (hscopes ▸ hfits.frames)
  have hnames : d.names ⊆ f.names := fun other hother =>
    hscope.bound other (Option.isSome_iff_exists.mpr ⟨_, hscope.coherent.shared _ _ _ _ hget other hother⟩)
  have hscope₁ : f.Fits scope₁ := by
    refine hscope.of_rebinds hnames hkeyed₁ hrebinds₁ fun name' slot' d' depth' hname' hget' other hother hmem => ?_
    -- A name of both definitions would make them one.
    have hboth := (hscope.coherent.shared _ _ _ _ hget other hmem).symm.trans (hscope.coherent.shared _ _ _ _ hget' other hother)
    cases hboth
    exact hname' (hscope.coherent.named _ _ _ _ hget')
  have hfits₁ : Setting.Fits ⟨f :: frames, depth⟩ w₁.pass :=
    ⟨hstart.scopes ▸ .cons hscope₁ houter, hstart.depth.trans hfits.depth⟩
  have howed : Setting.owed ⟨f :: frames, depth⟩ w.pass =
      d.sites (Frame.locals (f :: frames)) depth + Setting.owed ⟨f :: frames, depth⟩ w₁.pass := by
    rw [Setting.owed, Setting.owed, hscopes, hstart.scopes, Frame.owedIn, Frame.owedIn,
      hscope.owed_of_rebinds hget hrebinds₁, add_assoc]
  have hends₂ : w₂.pass.Ends quiet := hends.of_grows hend.toGrows
  obtain ⟨hfits₂, m', hcovers, hsum⟩ := hx.pays _ _ _ hrun hends₂ hfits₁ (howed ▸ hapart)
  obtain ⟨hscope₂, houter₂⟩ := List.forall₂_cons.mp (hscopes₂ ▸ hfits₂.frames)
  have hsettled₂ : ∀ other ∈ d.names, ∀ binding, Assoc.get? scope₂ other = some binding → ¬ binding.IsPending := by
    intro other hother binding hget₂
    obtain ⟨found, hfound⟩ := Option.isSome_iff_exists.mp (hbound₁ other hother)
    have hnot := hrebinds₁.settled other hother found hfound
    cases hget₂.symm.trans (hsettles.kept hscope₁.coherent _ _ hfound hnot)
    exact hnot
  have hscope' : f.Fits scope' := by
    refine hscope₂.of_rebinds hnames (hkeyed' hscope₂.keyed) hrebinds' fun name' slot' d' depth' _ hget' other hother hmem => ?_
    exact hsettled₂ other hmem _ (hscope₂.coherent.shared _ _ _ _ hget' other hother) trivial
  have howed' : Setting.owed ⟨f :: frames, depth⟩ w'.pass = Setting.owed ⟨f :: frames, depth⟩ w₂.pass := by
    rw [Setting.owed, Setting.owed, hend.scopes, hscopes₂, Frame.owedIn, Frame.owedIn, Frame.owed_of_settled hrebinds' hsettled₂]
  refine ⟨⟨⟨hend.scopes ▸ .cons hscope' houter₂, hend.depth.trans hfits₂.depth⟩, m', ⟨?_, ?_⟩, ?_⟩, ?_⟩
  · rw [hend.nodeTypes, hcovers.recorded, hstart.nodeTypes]
  · exact fun site hsite => (hcovers.seen site hsite).of_grows hend.toGrows
  · rw [howed', hsum, howed, zero_add]
  · exact ⟨scope', outer₂, hend.scopes, hrebinds'.settled⟩

section Bodies

variable {inferBody : Expr → InferM Ty} (hsteady : ∀ e, Steady context 0 0 (inferBody e))
  (hbody : ∀ σ e, Turns context quiet σ σ (Expr.sites σ.locals σ.depth e) (inferBody e))

include hsteady hbody

theorem balanced_inferDefinition {f : Frame} {frames : List Frame} {scope : Scope} {outer : List Scope} {name : Name}
    {slot depth : Nat} {d : ValueDecl} (hrun : inferDefinition inferBody d depth context w = (.ok (), w'))
    (hends : w'.pass.Ends quiet) (hfits : Setting.Fits ⟨f :: frames, depth⟩ w.pass)
    (hapart : ∀ site ∈ Setting.owed ⟨f :: frames, depth⟩ w.pass, site.Apart quiet)
    (hscopes : w.pass.scopes = scope :: outer) (hget : Assoc.get? scope name = some (.pending slot d depth)) :
    Balanced context ⟨f :: frames, depth⟩ ⟨f :: frames, depth⟩ 0 w w' ∧ Settled d.names w'.pass := by
  have hkeyed : scope.Keyed := (List.forall₂_cons.mp (hscopes ▸ hfits.frames)).1.keyed
  obtain ⟨pos, signature, head, body⟩ := d
  cases head with
  | function head params =>
    obtain ⟨self, w₁, hself, hrun⟩ := run_bind_inv hrun
    have hstays₁ := (contained_freshVar _).inert _ _ _ hself
    rw [run_bind_ok _ (run_bindName (hstays₁.scopes.trans hscopes))] at hrun
    obtain ⟨t, w₂, hfunction, hrun⟩ := run_bind_inv hrun
    obtain ⟨hsettles, -⟩ := steady_inferFunction hsteady _ _ _ _ _ _ _ hfunction
    obtain ⟨scope₂, outer₂, hscope, -, hscopes₂⟩ := List.forall₂_cons_left_iff.mp hsettles
    obtain ⟨_, w₃, hcheck, hrun⟩ := run_bind_inv hrun
    have hstays₃ := (contained_check _ _ _).inert _ _ _ hcheck
    rw [run_bind_ok _ (run_unbindName (hstays₃.scopes.trans hscopes₂))] at hrun
    obtain ⟨scheme, w₄, hscheme, hrun⟩ := run_bind_inv hrun
    have hstays₄ := (contained_generalize _).inert _ _ _ hscheme
    rw [run_bindName hstays₄.scopes] at hrun
    cases hrun
    have hstart : Moves w.pass (Assoc.set scope head.name (.active self (!params.isEmpty) depth) :: outer)
        { w₁.pass with scopes := Assoc.set scope head.name (.active self (!params.isEmpty) depth) :: outer } :=
      ⟨⟨hstays₁.problems, hstays₁.cancelled, hstays₁.recursive⟩, rfl, hstays₁.nodeTypes, hstays₁.depth⟩
    have hend : Moves w₂.pass (Assoc.set (Assoc.remove scope₂ head.name) head.name (.poly scheme) :: outer₂)
        { w₄.pass with scopes := Assoc.set (Assoc.remove scope₂ head.name) head.name (.poly scheme) :: outer₂ } :=
      have hgrows : w₂.pass.Grows w₄.pass :=
        hstays₃.toGrows.trans ⟨hstays₄.problems, hstays₄.cancelled, hstays₄.recursive⟩
      ⟨⟨hgrows.problems, hgrows.cancelled, hgrows.recursive⟩, rfl, hstays₄.nodeTypes.trans hstays₃.nodeTypes,
        hstays₄.depth.trans hstays₃.depth⟩
    refine balanced_of_rebinds hfunction (turns_inferFunction hbody _ _ _ _) hends hfits hapart hscopes hget hstart
      (Assoc.nodup_keys_set hkeyed _ _) (Scope.rebinds_set _ _ id) ?_ hscopes₂ hscope hend
      (fun hkeyed₂ => Assoc.nodup_keys_set (Assoc.nodup_keys_remove hkeyed₂ _) _ _) ?_
    · intro name hname
      rw [List.mem_singleton.mp hname, Assoc.get?_set_self]
      rfl
    · exact Scope.rebinds_set_remove scope₂ head.name id
  | pattern pattern =>
    obtain ⟨_, w₁, hbinding, hrun⟩ := run_bind_inv hrun
    rw [run_bindNames _ _ hscopes] at hbinding
    cases hbinding
    obtain ⟨out, w₂, hinfer, hrun⟩ := run_bind_inv hrun
    obtain ⟨hsettles, -⟩ := steady_inferDestructuring hsteady _ _ _ _ _ hinfer
    obtain ⟨scope₂, outer₂, hscope, -, hscopes₂⟩ := List.forall₂_cons_left_iff.mp hsettles
    obtain ⟨_, w₃, hunbinding, hrun⟩ := run_bind_inv hrun
    rw [run_unbindNames _ hscopes₂] at hunbinding
    cases hunbinding
    obtain ⟨scope', hscopes', hrebinds⟩ := rebinds_of_bindGeneralized (map_fst_inferDestructuring hinfer) rfl hrun
    obtain ⟨_, hmoves, hkeyed'⟩ := exists_moves_bindGeneralized rfl hrun
    cases hmoves.scopes.symm.trans hscopes'
    refine balanced_of_rebinds hinfer (turns_inferDestructuring hbody _ _) hends hfits hapart hscopes hget
      ⟨⟨List.prefix_rfl, id, List.Subset.refl _⟩, rfl, rfl, rfl⟩ (Scope.keyed_foldl_set hkeyed _ _)
      (Scope.rebinds_foldl_set pattern.boundNames scope id) ?_ hscopes₂ hscope
      ⟨⟨hmoves.problems, hmoves.cancelled, hmoves.recursive⟩, hscopes', hmoves.nodeTypes, hmoves.depth⟩
      (fun hkeyed₂ => hkeyed' (Scope.keyed_foldl_remove hkeyed₂ _)) hrebinds
    exact fun other hother => Scope.isSome_get?_foldl_set pattern.boundNames scope _ hother

/-- A definition that waits further out is inferred there, under as many lambdas as it was written under. -/
theorem balanced_inferPending {inner : Nat} {scope : Scope} {outer : List Scope} {name : Name} {slot depth : Nat}
    {d : ValueDecl} (hrun : inferPending inferBody inner d depth context w = (.ok (), w')) (hends : w'.pass.Ends quiet)
    (hfits : σ.Fits w.pass) (hapart : ∀ site ∈ σ.owed w.pass, site.Apart quiet)
    (hscopes : w.pass.scopes.drop inner = scope :: outer) (hget : Assoc.get? scope name = some (.pending slot d depth)) :
    Balanced context σ σ 0 w w' ∧ (inner = 0 → Settled d.names w'.pass) := by
  obtain ⟨w₂, hdefinition, rfl⟩ := run_inferPending_inv hrun
  have hdrop := List.forall₂_drop inner hfits.frames
  rw [hscopes] at hdrop
  obtain ⟨f, frames, hscope, houter, hframes⟩ := List.forall₂_cons_right_iff.mp hdrop
  have hlt : inner < w.pass.scopes.length := by
    rw [← Nat.not_le, ← List.drop_eq_nil_iff, hscopes]
    exact List.cons_ne_nil _ _
  have htake : (w.pass.scopes.take inner).length = inner := List.length_take_of_le hlt.le
  have hle : (w.pass.scopes.take inner).length ≤ σ.frames.length := by
    rw [htake, hfits.frames.length_eq]
    exact hlt.le
  obtain ⟨inside, hinside⟩ := Frame.exists_owedIn_append hle
  rw [htake, hframes] at hinside
  have hfits₁ : Setting.Fits ⟨f :: frames, depth⟩ { w.pass with scopes := w.pass.scopes.drop inner, depth } := by
    refine ⟨?_, rfl⟩
    change List.Forall₂ _ _ (w.pass.scopes.drop inner)
    rw [hscopes]
    exact .cons hscope houter
  have howed : σ.owed w.pass = inside + Frame.owedIn (f :: frames) (w.pass.scopes.drop inner) := by
    rw [← hinside, List.take_append_drop]
    rfl
  have hapart₁ : ∀ site ∈ Frame.owedIn (f :: frames) (w.pass.scopes.drop inner), site.Apart quiet :=
    fun site hsite => hapart site (howed ▸ Multiset.mem_add.mpr (.inr hsite))
  obtain ⟨⟨hfits₂, m', hcovers, hsum⟩, scope', outer', hscopes', hsettled⟩ := balanced_inferDefinition hsteady hbody hdefinition
    ⟨hends.finished, hends.silent⟩ hfits₁ hapart₁ hscopes hget
  refine ⟨⟨⟨?_, hfits.depth⟩, m', ⟨hcovers.recorded, fun site hsite => ?_⟩, ?_⟩, fun hinner => ?_⟩
  · rw [← List.take_append_drop inner σ.frames, hframes]
    exact List.rel_append (List.forall₂_take inner hfits.frames) hfits₂.frames
  · exact (hcovers.seen site hsite).of_grows ⟨List.prefix_rfl, id, List.Subset.refl _⟩
  · rw [howed, Setting.owed, hinside, add_left_comm, zero_add]
    exact congrArg (inside + ·) (hsum.trans (zero_add _))
  · subst hinner
    exact ⟨scope', outer', hscopes', hsettled⟩

end Bodies

/-! ### References and `let` -/

def SignedDefinition.sites (locals : List Name) (depth : Nat) (d : SignedDefinition) : Multiset Site :=
  Pattern.sitesList d.params + d.body.sites ((Pattern.boundNamesList d.params).map NameAt.name ++ locals)
    (depth + if d.params.isEmpty then 0 else 1)

/-- The nodes of the definitions that were read: those that wait are owed, those with signatures are to be checked. -/
def LetScope.due (f : Frame) (locals : List Name) (depth : Nat) (l : LetScope) : Multiset Site :=
  f.owed locals l.scope + (l.signed.map (SignedDefinition.sites locals depth)).sum

structure LetScope.Fits (f : Frame) (l : LetScope) : Prop where
  fits : f.Fits l.scope
  signed : ∀ d ∈ l.signed, d.name.name ∈ f.names

/-- A definition that is read is owed from then on, or is to be checked. -/
theorem due_readDefinition {f : Frame} {locals : List Name} {slot : Nat} {d : ValueDecl} {l l' : LetScope}
    (hrun : readDefinition slot d l context w = (.ok l', w')) (h : l.Fits f) (hnames : d.names ⊆ f.names)
    (hawaited : ⟨slot, d, w.pass.depth⟩ ∈ f.awaited) (hfresh : ∀ name ∈ d.names, Assoc.get? l.scope name = none) :
    l'.Fits f ∧ (∀ name, name ∉ d.names → Assoc.get? l'.scope name = Assoc.get? l.scope name) ∧
      l'.due f locals w.pass.depth =
        l.due f locals w.pass.depth + if d.names = [] then 0 else d.sites locals w.pass.depth := by
  obtain ⟨taken, w₁, htaken, -, ⟨name, params, scheme, vars, hhead, rfl⟩ | rfl⟩ := run_readDefinition_inv hrun
  · have hname : d.names = [name.name] := by
      rw [Definition.names, hhead]
      rfl
    have hrebinds : Scope.Rebinds d.names l.scope (Assoc.set l.scope name.name (.poly scheme)) :=
      hname ▸ Scope.rebinds_set l.scope name.name id
    have hfits : f.Fits (Assoc.set l.scope name.name (.poly scheme)) := by
      refine h.fits.of_rebinds hnames (Assoc.nodup_keys_set h.fits.keyed _ _) hrebinds fun _ _ d' _ _ hget other hother hmem => ?_
      cases (hfresh other hmem).symm.trans (h.fits.coherent.shared _ _ _ _ hget other hother)
    refine ⟨⟨hfits, List.forall_mem_append.mpr ⟨h.signed, fun s hs => ?_⟩⟩, hrebinds.others, ?_⟩
    · rw [List.mem_singleton.mp hs]
      exact hnames (hname ▸ List.mem_singleton_self _)
    · have howed : f.owed locals (Assoc.set l.scope name.name (.poly scheme)) = f.owed locals l.scope :=
        Frame.owed_of_settled hrebinds fun other hother b hget => by cases (hfresh other hother).symm.trans hget
      have hsites : d.sites locals w.pass.depth = SignedDefinition.sites locals w.pass.depth ⟨name, params, d.body, scheme, vars⟩ := by
        rw [Definition.sites, Head.levels, Head.paramNames, hhead]
        rfl
      rw [if_neg (hname ▸ List.cons_ne_nil _ _), hsites, LetScope.due, LetScope.due, howed, List.map_append, List.sum_append,
        List.map_singleton, List.sum_singleton, add_assoc]
  · have hdepth : w₁.pass.depth = w.pass.depth := ((contained_declareAll _ _).inert _ _ _ htaken).depth
    rw [hdepth]
    generalize hscope : d.head.boundNames.foldl
      (fun scope n => Assoc.set scope n.name (.pending slot d w.pass.depth)) l.scope = scope'
    have hothers : ∀ name, name ∉ d.names → Assoc.get? scope' name = Assoc.get? l.scope name :=
      hscope ▸ fun name hname => Scope.get?_foldl_set_of_notMem _ hname
    have hpending : ∀ name ∈ d.names, Assoc.get? scope' name = some (.pending slot d w.pass.depth) :=
      hscope ▸ fun name hname => Scope.get?_foldl_set_of_mem _ hname
    have hkeyed : Scope.Keyed scope' := hscope ▸ Scope.keyed_foldl_set h.fits.keyed _ _
    have hfits : f.Fits scope' := h.fits.await hkeyed hnames hawaited hfresh hothers hpending
    refine ⟨⟨hfits, h.signed⟩, hothers, ?_⟩
    split
    · next hnone =>
      have hsame : f.owed locals scope' = f.owed locals l.scope := by
        refine Finset.sum_congr rfl fun name _ => ?_
        rw [hothers name (hnone ▸ List.not_mem_nil)]
      rw [LetScope.due, LetScope.due, hsame, add_zero]
    · next hsome =>
      obtain ⟨name, hname⟩ := List.exists_mem_of_ne_nil _ hsome
      have hback : Scope.Rebinds d.names scope' l.scope :=
        ⟨fun other hother => (hothers other hother).symm, fun other hother b hget => by cases (hfresh other hother).symm.trans hget⟩
      rw [LetScope.due, LetScope.due, hfits.owed_of_rebinds (hpending name hname) hback]
      ac_rfl

def awaitedFrom (depth slot : Nat) : List ValueDecl → List Awaited
  | [] => []
  | d :: rest => ⟨slot, d, depth⟩ :: awaitedFrom depth (slot + 1) rest

/-- Reading the definitions of a `let` misses none of them, when they have different names. -/
theorem due_readDefinitions {f : Frame} {locals : List Name} {slot depth : Nat} {definitions : List ValueDecl}
    {l l' : LetScope} (hrun : readDefinitions slot definitions l context w = (.ok l', w')) (hdepth : w.pass.depth = depth)
    (h : l.Fits f) (hnames : definitions.flatMap Definition.names ⊆ f.names)
    (hawaited : awaitedFrom depth slot definitions ⊆ f.awaited) (hnodup : (definitions.flatMap Definition.names).Nodup)
    (hfresh : ∀ name ∈ definitions.flatMap Definition.names, Assoc.get? l.scope name = none) :
    l'.Fits f ∧ l'.due f locals depth = l.due f locals depth + Expr.sitesDefinitions locals depth definitions := by
  induction definitions generalizing slot l w with
  | nil =>
    cases hrun
    rw [Expr.sitesDefinitions, add_zero]
    exact ⟨h, rfl⟩
  | cons d rest ih =>
    obtain ⟨l₁, w₁, hfirst, hrun⟩ := run_bind_inv hrun
    subst hdepth
    rw [List.flatMap_cons] at hnames hnodup hfresh
    obtain ⟨hnames₁, hnames₂⟩ := List.append_subset.mp hnames
    obtain ⟨hawaited₁, hawaited₂⟩ := List.cons_subset.mp hawaited
    obtain ⟨-, hnodup₂, hdisjoint⟩ := List.nodup_append.mp hnodup
    obtain ⟨hfresh₁, hfresh₂⟩ := List.forall_mem_append.mp hfresh
    obtain ⟨hwithin, hothers, hdue⟩ := due_readDefinition hfirst h hnames₁ hawaited₁ hfresh₁
    have hstays := (contained_readDefinition _ _ _).inert _ _ _ hfirst
    obtain ⟨hwithin', hdue'⟩ := ih hrun hstays.depth hwithin hnames₂ hawaited₂ hnodup₂ fun name hname => by
      rw [hothers name fun hmem => hdisjoint name hmem name hname rfl]
      exact hfresh₂ name hname
    refine ⟨hwithin', ?_⟩
    rw [hdue', hdue, Expr.sitesDefinitions_cons, add_assoc]

theorem run_declare {taken taken' : List Name} {n : NameAt} (hrun : declare taken n context w = (.ok taken', w')) :
    taken' = n.name :: taken ∧ (n.name ∈ taken → w'.pass.problems ≠ []) := by
  have hrest : ∀ hidden w, (do
      if taken.contains n.name || hidden then report n.pos .conflictingName
      return n.name :: taken : InferM (List Name)) context w = (.ok taken', w') →
      taken' = n.name :: taken ∧ (n.name ∈ taken → w'.pass.problems ≠ []) := by
    intro hidden w hrun
    split at hrun
    · cases hrun
      exact ⟨rfl, fun _ => List.append_ne_nil_of_right_ne_nil _ (List.cons_ne_nil _ _)⟩
    · next hnot =>
      cases hrun
      refine ⟨rfl, fun hmem => absurd ?_ hnot⟩
      rw [List.contains_iff_mem.mpr hmem, Bool.true_or]
  obtain ⟨engine, w₁, -, hrun⟩ := run_bind_inv hrun
  split at hrun
  · exact hrest _ _ hrun
  · obtain ⟨hidden, w₂, -, hrun⟩ := run_bind_inv hrun
    exact hrest _ _ hrun

/-- Names that are declared together without a problem are different ones. -/
theorem nodup_of_declareAll {taken taken' : List Name} {names : List NameAt}
    (hrun : declareAll taken names context w = (.ok taken', w')) (hsilent : w'.pass.problems = []) :
    (names.map NameAt.name).Nodup ∧ (∀ name ∈ names.map NameAt.name, name ∉ taken) ∧
      taken' = (names.map NameAt.name).reverse ++ taken := by
  induction names generalizing taken w with
  | nil =>
    cases hrun
    exact ⟨List.nodup_nil, nofun, rfl⟩
  | cons n names ih =>
    obtain ⟨_, w₁, hdeclare, hrun⟩ := run_bind_inv hrun
    obtain ⟨rfl, hreports⟩ := run_declare hdeclare
    obtain ⟨hnodup, hfresh, rfl⟩ := ih hrun
    have hgrows := (contained_declareAll _ _ : Contained False True _).growing _ _ _ hrun
    have hfirst : n.name ∉ taken := fun hmem => hreports hmem (List.prefix_nil.mp (hsilent ▸ hgrows.problems))
    refine ⟨List.nodup_cons.mpr ⟨fun hmem => hfresh _ hmem List.mem_cons_self, hnodup⟩, ?_, ?_⟩
    · exact List.forall_mem_cons.mpr ⟨hfirst, fun name hname htaken => hfresh name hname (List.mem_cons_of_mem _ htaken)⟩
    · rw [List.map_cons, List.reverse_cons, List.append_assoc]
      rfl

/-- The definitions of a `let` that is read without a problem have different names. -/
theorem nodup_of_readDefinitions {slot : Nat} {definitions : List ValueDecl} {l l' : LetScope}
    (hrun : readDefinitions slot definitions l context w = (.ok l', w')) (hsilent : w'.pass.problems = []) :
    (definitions.flatMap Definition.names).Nodup ∧ ∀ name ∈ definitions.flatMap Definition.names, name ∉ l.names := by
  induction definitions generalizing slot l w with
  | nil => exact ⟨List.nodup_nil, nofun⟩
  | cons d rest ih =>
    obtain ⟨l₁, w₁, hfirst, hrun⟩ := run_bind_inv hrun
    obtain ⟨hnodup, hfresh⟩ := ih hrun
    have hgrows := (contained_readDefinitions _ _ _ : Contained False True _).growing _ _ _ hrun
    obtain ⟨names, w₂, hnames, hproblems, hread⟩ := run_readDefinition_inv hfirst
    obtain ⟨hnodup₁, hfresh₁, hnames⟩ := nodup_of_declareAll hnames <|
      List.prefix_nil.mp (hsilent ▸ hproblems.trans hgrows.problems)
    have hnames₁ : l₁.names = d.names.reverse ++ l.names := by
      rw [Definition.names, ← hnames]
      obtain ⟨_, _, _, _, -, rfl⟩ | rfl := hread <;> rfl
    rw [hnames₁] at hfresh
    refine ⟨List.nodup_append.mpr ⟨hnodup₁, hnodup, fun name hname other hother heq => ?_⟩, ?_⟩
    · exact hfresh other hother (List.mem_append_left _ (List.mem_reverse.mpr (heq ▸ hname)))
    · exact List.forall_mem_append.mpr ⟨hfresh₁, fun name hname hmem => hfresh name hname (List.mem_append_right _ hmem)⟩

theorem slot_le_of_mem_awaitedFrom {depth slot : Nat} {definitions : List ValueDecl} {a : Awaited}
    (h : a ∈ awaitedFrom depth slot definitions) : slot ≤ a.slot := by
  induction definitions generalizing slot with
  | nil => cases h
  | cons d rest ih =>
    rcases List.mem_cons.mp h with rfl | hrest
    · exact le_refl _
    · exact (Nat.le_succ slot).trans (ih hrest)

/-- When nothing waits at the first place any more, what waits is among the rest. -/
theorem balanced_later {names : List Name} {first : Awaited} {rest : List Awaited} {scope : Scope} {outer : List Scope}
    (hfits : (σ.push ⟨names, first :: rest⟩).Fits w.pass) (hscopes : w.pass.scopes = scope :: outer)
    (hfirst : ∀ name d depth, Assoc.get? scope name = some (.pending first.slot d depth) → False) :
    Balanced context (σ.push ⟨names, first :: rest⟩) (σ.push ⟨names, rest⟩) 0 w w := by
  obtain ⟨hscope, houter⟩ := List.forall₂_cons.mp (hscopes ▸ hfits.frames)
  refine ⟨⟨hscopes ▸ .cons ⟨hscope.keyed, hscope.coherent, hscope.bound, fun name slot d depth hget => ?_⟩ houter,
    hfits.depth⟩, 0, covers_zero rfl, congrArg (0 + ·) (Setting.owed_push ..)⟩
  rcases List.mem_cons.mp (hscope.waits name slot d depth hget) with rfl | hrest
  · exact (hfirst name d depth hget).elim
  · exact hrest

theorem run_isPending {slot : Nat} {scope : Scope} {outer : List Scope} {waiting : Bool}
    (h : w.pass.scopes = scope :: outer) (hrun : isPending slot context w = (.ok waiting, w')) :
    w = w' ∧ (waiting = true ↔ ∃ name d depth, (name, Binding.pending slot d depth) ∈ scope) := by
  obtain ⟨_, _, hpass, hrun⟩ := run_bind_inv hrun
  cases hpass
  rw [h] at hrun
  cases hrun
  refine ⟨rfl, List.any_eq_true.trans ⟨?_, ?_⟩⟩
  · rintro ⟨⟨name, binding⟩, hmem, hslot⟩
    cases binding with
    | pending other d depth =>
      obtain rfl := beq_iff_eq.mp hslot
      exact ⟨name, d, depth, hmem⟩
    | _ => cases hslot
  · rintro ⟨name, d, depth, hmem⟩
    exact ⟨_, hmem, beq_self_eq_true slot⟩

section Bodies

variable
  {calls : Nat → ValueDecl → SessionM (Except InferError Inferred) → SessionM (Except InferError Inferred) → Prop}
  {elsewhere : Elsewhere}
  (hcomposed : ∀ e, Composed context.engine calls (elsewhere.body e) (elsewhere.body e))
  (hsteady : ∀ e, Steady context 0 0 (elsewhere.body e))
  (hbody : ∀ σ e, Turns context quiet σ σ (Expr.sites σ.locals σ.depth e) (elsewhere.body e))

include hcomposed hsteady hbody

theorem turns_localReference (pos : Nat) (name : Name) :
    Turns context quiet σ σ 0 (localReference elsewhere pos name) := by
  have huse : ∀ binding, Inert context (do return some (← useBinding pos binding) : InferM (Option Ty)) :=
    fun binding => (contained_useBinding pos binding).inert.bind fun _ => inert_pure _
  refine ⟨(composed_localReference hcomposed pos name).growing, fun w found w' hrun hends hfits hapart => ?_⟩
  rw [zero_add] at hapart
  obtain ⟨_, _, hlookup, hrun⟩ := run_bind_inv hrun
  cases hlookup
  rcases hfound : lookupIn name w.pass.scopes with _ | ⟨inner, binding⟩
  · rw [hfound] at hrun
    exact balanced_of_stays hfits (inert_pure _ _ _ _ hrun)
  · rw [hfound] at hrun
    cases binding with
    | pending slot d depth =>
      obtain ⟨scope, outer, hdrop, hget⟩ := drop_of_lookupIn hfound
      obtain ⟨_, w₁, hpending, hrun⟩ := run_bind_inv hrun
      obtain ⟨_, _, hlookup, hrun⟩ := run_bind_inv hrun
      cases hlookup
      have hstays : w₁.pass.Stays w'.pass := by
        rcases hagain : lookupIn name w₁.pass.scopes with _ | ⟨_, binding⟩
        · rw [hagain] at hrun
          exact inert_pure _ _ _ _ hrun
        · rw [hagain] at hrun
          exact huse binding _ _ _ hrun
      obtain ⟨hbalanced, -⟩ := balanced_inferPending hsteady hbody hpending (hends.of_grows hstays.toGrows) hfits hapart hdrop hget
      exact hbalanced.trans (balanced_of_stays hbalanced.1 hstays) hstays.toGrows
    | mono t | poly scheme | checking scheme hasParams depth | active t hasParams depth =>
      exact balanced_of_stays hfits (huse _ _ _ _ hrun)

theorem turns_reference (pos : Nat) (name : Ref) : Turns context quiet σ σ 0 (reference elsewhere pos name) := by
  unfold reference
  split
  · exact (inert_globalReference elsewhere pos name).turns
  · refine (turns_localReference hcomposed hsteady hbody pos name.name).done fun found => ?_
    split
    · exact inert_pure _
    · exact inert_globalReference elsewhere pos name

end Bodies

section Let

variable
  {calls : Nat → ValueDecl → SessionM (Except InferError Inferred) → SessionM (Except InferError Inferred) → Prop}
  {inferBody : Expr → InferM Ty}
  (hcomposed : ∀ e, Composed context.engine calls (inferBody e) (inferBody e))
  (hsteady : ∀ e, Steady context 0 0 (inferBody e))
  (hbody : ∀ σ e, Turns context quiet σ σ (Expr.sites σ.locals σ.depth e) (inferBody e))

include hcomposed hsteady hbody

theorem turns_inferWaiting {names : List Name} (slot : Nat) (definitions : List ValueDecl) :
    Turns context quiet (σ.push ⟨names, awaitedFrom σ.depth slot definitions⟩) (σ.push ⟨names, []⟩) 0
      (inferWaiting inferBody slot definitions) := by
  induction definitions generalizing slot with
  | nil => exact turns_pure _
  | cons d rest ih =>
    have hrest := ih (slot + 1)
    -- Only this definition waits at this place.
    have honly : ∀ d' depth', ⟨slot, d', depth'⟩ ∈ awaitedFrom σ.depth slot (d :: rest) → d = d' ∧ σ.depth = depth' := by
      intro d' depth' hmem
      rcases List.mem_cons.mp hmem with heq | hlater
      · cases heq
        exact ⟨rfl, rfl⟩
      · exact absurd (slot_le_of_mem_awaitedFrom hlater) (Nat.not_succ_le_self slot)
    refine ⟨(composed_inferWaiting hcomposed slot (d :: rest)).growing, fun w a w' hrun hends hfits hapart => ?_⟩
    obtain ⟨waiting, _, hwaiting, hrun⟩ := run_bind_inv hrun
    obtain ⟨scope, outer, hscope, houter, hscopes⟩ := List.forall₂_cons_left_iff.mp hfits.frames
    obtain ⟨rfl, hiff⟩ := run_isPending hscopes hwaiting
    cases waiting with
    | false =>
      have hlater : Balanced context _ (σ.push ⟨names, awaitedFrom σ.depth (slot + 1) rest⟩) 0 w w :=
        balanced_later hfits hscopes fun name d depth hget =>
          Bool.false_ne_true (hiff.mpr ⟨name, d, depth, Assoc.mem_of_get? hget⟩)
      rw [Setting.owed_push] at hapart
      exact hlater.trans (hrest.pays _ _ _ hrun hends hlater.1 hapart) (hrest.growing _ _ _ hrun)
    | true =>
      obtain ⟨name, d', depth', hentry⟩ := hiff.mp rfl
      have hget := Assoc.get?_of_mem hscope.keyed hentry
      obtain ⟨rfl, rfl⟩ := honly _ _ (hscope.waits _ _ _ _ hget)
      obtain ⟨_, _, hpass, hrun⟩ := run_bind_inv hrun
      cases hpass
      obtain ⟨_, w₁, hpending, hrun⟩ := run_bind_inv hrun
      have hgrows := hrest.growing _ _ _ hrun
      rw [show w.pass.depth = σ.depth from hfits.depth] at hpending
      rw [zero_add] at hapart
      obtain ⟨hfirst, hsettled⟩ := balanced_inferPending hsteady hbody hpending (hends.of_grows hgrows) hfits hapart hscopes hget
      obtain ⟨scope₁, outer₁, hscopes₁, hnames⟩ := hsettled rfl
      obtain ⟨hscope₁, -⟩ := List.forall₂_cons.mp (hscopes₁ ▸ hfirst.1.frames)
      have hlater : Balanced context (σ.push ⟨names, awaitedFrom σ.depth slot (d :: rest)⟩)
          (σ.push ⟨names, awaitedFrom σ.depth (slot + 1) rest⟩) 0 w₁ w₁ := by
        refine balanced_later hfirst.1 hscopes₁ fun other d'' depth'' hget₁ => ?_
        obtain ⟨rfl, -⟩ := honly _ _ (hscope₁.waits _ _ _ _ hget₁)
        exact hnames other (hscope₁.coherent.named _ _ _ _ hget₁) _ hget₁ trivial
      have hboth := hfirst.trans hlater (.refl _)
      refine hboth.trans (hrest.pays _ _ _ hrun hends hlater.1 fun site hsite => hapart site ?_) hgrows
      obtain ⟨-, n, -, hsum⟩ := hboth
      rw [add_zero, zero_add] at hsum
      rw [zero_add] at hsite
      exact hsum ▸ Multiset.mem_add.mpr (.inr hsite)

omit hcomposed hsteady in
theorem turns_checkSigned {names : List Name} {d : SignedDefinition} (hname : d.name.name ∈ names) :
    Turns context quiet (σ.push ⟨names, []⟩) (σ.push ⟨names, []⟩) (d.sites (names ++ σ.locals) σ.depth)
      (checkSigned inferBody d) := by
  have hvars : ∀ vars : Assoc Name Ty, Inert context (modifyPass (fun pass => { pass with typeVars := vars })) :=
    fun vars => inert_modifyPass fun _ => ⟨⟨List.prefix_rfl, id, List.Subset.refl _⟩, rfl, rfl, rfl⟩
  refine (inert_of_unchanged fun _ => rfl : Inert context getPass).first fun pass _ => ?_
  refine (turns_bindName hname id).first fun _ _ => (hvars d.vars).first fun _ _ => ?_
  refine (turns_inferFunction hbody d.name d.params d.body (some d.scheme.ty)).last fun _ => ?_
  exact (hvars pass.typeVars).first fun _ _ => turns_bindName hname id

omit hcomposed hsteady in
theorem turns_checkAll {names : List Name} {signed : List SignedDefinition} (h : ∀ d ∈ signed, d.name.name ∈ names) :
    Turns context quiet (σ.push ⟨names, []⟩) (σ.push ⟨names, []⟩)
      (signed.map (SignedDefinition.sites (names ++ σ.locals) σ.depth)).sum (signed.forM (checkSigned inferBody)) := by
  induction signed with
  | nil => exact turns_pure _
  | cons d rest ih =>
    obtain ⟨hfirst, hrest⟩ := List.forall_mem_cons.mp h
    rw [List.map_cons, List.sum_cons]
    exact (turns_checkSigned hbody hfirst).bind fun _ _ => ih hrest

/-- Opening a `let` comes by all of its definitions that bind a name. -/
theorem turns_enterLet {definitions : List ValueDecl} (h : quiet ∨ (definitions.flatMap Definition.names).Nodup) :
    Turns context quiet σ (σ.push ⟨definitions.flatMap Definition.names, []⟩)
      (Expr.sitesDefinitions (definitions.flatMap Definition.names ++ σ.locals) σ.depth definitions)
      (enterLet inferBody definitions) := by
  refine ⟨(composed_enterLet hcomposed definitions).growing, fun w a w' hrun hends hfits hapart => ?_⟩
  obtain ⟨l, w₁, hread, hrun⟩ := run_bind_inv hrun
  have hstays := (contained_readDefinitions 0 definitions {}).inert _ _ _ hread
  have hgrows : w₁.pass.Grows w'.pass := by
    refine Growing.bind (composed_pushScope l.scope : Composed context.engine calls _ _).growing (fun _ => ?_) _ _ _ hrun
    exact (composed_inferWaiting hcomposed 0 definitions).growing.bind fun _ =>
      (composed_forM (fun d => composed_checkSigned hcomposed d) _).growing
  have hnodup : (definitions.flatMap Definition.names).Nodup :=
    h.elim (fun hquiet => (nodup_of_readDefinitions hread ((hends.of_grows hgrows).silent hquiet)).1) id
  let f : Frame := ⟨definitions.flatMap Definition.names, awaitedFrom σ.depth 0 definitions⟩
  have hempty : LetScope.Fits f {} := ⟨⟨List.nodup_nil, ⟨nofun, nofun⟩, nofun, nofun⟩, nofun⟩
  have hread : l.Fits f ∧ l.due f (f.names ++ σ.locals) σ.depth =
      LetScope.due f (f.names ++ σ.locals) σ.depth {} + Expr.sitesDefinitions (f.names ++ σ.locals) σ.depth definitions :=
    due_readDefinitions hread hfits.depth hempty (List.Subset.refl _) (List.Subset.refl _) hnodup fun _ _ => rfl
  obtain ⟨hwithin, hdue⟩ := hread
  have hnothing : LetScope.due f (f.names ++ σ.locals) σ.depth {} = 0 :=
    (add_zero _).trans (Finset.sum_eq_zero fun _ _ => rfl)
  rw [hnothing, zero_add, LetScope.due] at hdue
  have hrest := (turns_pushScope hwithin.fits).bind fun _ _ =>
    (turns_inferWaiting hcomposed hsteady hbody 0 definitions).first fun _ _ => turns_checkAll hbody hwithin.signed
  have hbalanced := (hrest.of_eq hdue).pays _ _ _ hrun hends (hfits.of_stays hstays) (Setting.owed_of_stays hstays ▸ hapart)
  exact ((balanced_of_stays hfits hstays).trans hbalanced hgrows :).of_eq (zero_add _)

end Let

/-! ### Expressions -/

/-- An expression is seen where it stands, and its type is recorded once all its parts have been inferred. -/
theorem balanced_record {elsewhere : Elsewhere} {id : NodeId} {pos : Nat} {kind : ExprKind Expr} {t : Ty} {w₂ : Work}
    (hcomposed : IsComposed context.engine elsewhere) (hfits : σ.Fits w.pass) (hrun : inferKind elsewhere pos kind context w = (.ok t, w₂))
    (hparts : Balanced context σ σ (Expr.kindSites σ.locals σ.depth kind) w w₂)
    (hrecord : record id t context w₂ = (.ok (), w')) :
    Balanced context σ σ (Expr.sites σ.locals σ.depth (.mk id pos kind)) w w' := by
  cases hrecord
  have hself : Balanced context σ σ {.expr σ.locals σ.depth (.mk id pos kind)} w₂
      { w₂ with pass := { w₂.pass with nodeTypes := (id, t) :: w₂.pass.nodeTypes } } := by
    refine ⟨⟨hparts.1.frames, hparts.1.depth⟩, _, ⟨?_, fun site hsite => ?_⟩, rfl⟩
    · rw [Multiset.map_singleton, add_comm]
      rfl
    · rw [Multiset.mem_singleton.mp hsite]
      exact ⟨elsewhere, w, t, w₂, hcomposed, hfits.depth, hparts.1.depth,
        fun name hname => Setting.lookupIn_eq_none hfits.frames hname, hrun, List.prefix_rfl, fun h => h,
        List.Subset.refl _⟩
  refine (hparts.trans hself ⟨List.prefix_rfl, fun h => h, List.Subset.refl _⟩).of_eq ?_
  rw [Expr.sites, add_comm, Multiset.singleton_add]

theorem cancelled_of_isCancelled (hrun : isCancelled context w = (.ok true, w')) : w'.pass.cancelled = true := by
  obtain ⟨_, _, hpass, hrun⟩ := run_bind_inv hrun
  cases hpass
  split at hrun
  · next hcancelled =>
    cases hrun
    exact hcancelled
  · obtain ⟨seen, w₁, -, hrun⟩ := run_bind_inv hrun
    cases seen with
    | true =>
      cases hrun
      rfl
    | false => cases hrun

section Elsewhere

variable
  {calls : Nat → ValueDecl → SessionM (Except InferError Inferred) → SessionM (Except InferError Inferred) → Prop}
  {elsewhere : Elsewhere}
  (hcalls : ∀ index decl, calls index decl (elsewhere.declaration index decl) (elsewhere.declaration index decl))
  (hcomposed : ∀ e, Composed context.engine calls (elsewhere.body e) (elsewhere.body e))
  (hsteady : ∀ e, Steady context 0 0 (elsewhere.body e))
  (hbody : ∀ σ e, Turns context quiet σ σ (Expr.sites σ.locals σ.depth e) (elsewhere.body e))

include hcalls hcomposed hsteady hbody

set_option linter.unusedSectionVars false in
mutual

theorem turns_inferExpr (σ : Setting) (e : Expr) :
    Turns context quiet σ σ (e.sites σ.locals σ.depth) (inferExpr elsewhere e) := by
  match e with
  | .mk id pos kind =>
    refine ⟨(composed_inferExpr hcalls hcomposed _).growing, fun w t w' hrun hends hfits hapart => ?_⟩
    rw [inferExpr] at hrun
    obtain ⟨cancelled, w₁, hcancelled, hrun⟩ := run_bind_inv hrun
    have hstays := Contained.isCancelled.inert _ _ _ hcancelled
    cases cancelled with
    | true =>
      cases hrun
      exact absurd (cancelled_of_isCancelled hcancelled) (Bool.eq_false_iff.mp hends.finished)
    | false =>
      obtain ⟨u, w₂, hkind, hrun⟩ := run_bind_inv hrun
      obtain ⟨_, w₃, hrecord, hrun⟩ := run_bind_inv hrun
      cases hrun
      have hgrows₂ : w₂.pass.Grows w'.pass := (Contained.record trivial id t).growing _ _ _ hrecord
      rw [← Setting.owed_of_stays hstays, Expr.sites, Multiset.cons_add] at hapart
      obtain ⟨hself, hapart⟩ := Multiset.forall_mem_cons.mp hapart
      have hparts := turns_inferKind σ id pos kind hself
      have hgrows₁ := (hparts.growing _ _ _ hkind).trans hgrows₂
      have hbalanced := balanced_record ⟨calls, hcalls, hcomposed⟩ (hfits.of_stays hstays) hkind
        (hparts.pays _ _ _ hkind (hends.of_grows hgrows₂) (hfits.of_stays hstays) hapart) hrecord
      exact ((balanced_of_stays hfits hstays).trans hbalanced hgrows₁).of_eq (zero_add _)

theorem turns_inferKind (σ : Setting) (id : NodeId) (pos : Nat) (kind : ExprKind Expr)
    (h : (Site.expr σ.locals σ.depth (.mk id pos kind)).Apart quiet) :
    Turns context quiet σ σ (Expr.kindSites σ.locals σ.depth kind) (inferKind elsewhere pos kind) := by
  match kind with
  | .unit =>
    rw [inferKind]
    exact turns_pure _
  | .literal kind =>
    rw [inferKind]
    exact (contained_literalType kind).inert.turns
  | .var name =>
    rw [inferKind]
    exact turns_reference hcomposed hsteady hbody pos name
  | .operator name =>
    rw [inferKind]
    refine ((inert_operatorType elsewhere pos name).bind fun found => ?_).turns
    split <;> exact inert_pure _
  | .call target args =>
    rw [inferKind]
    exact (turns_inferExpr σ target).bind fun t _ => (turns_inferAll σ args).done fun types => (contained_apply _ _ _).inert
  | .binary operands operators =>
    rw [inferKind]
    exact (turns_inferAll σ operands).done fun types => inert_inferChain elsewhere _ _
  | .negate operand =>
    rw [inferKind]
    refine (turns_inferExpr σ operand).done fun t => (contained_freshVar _).inert.bind fun number => ?_
    exact (contained_check _ _ _).inert.bind fun _ => inert_pure _
  | .tuple items =>
    rw [inferKind]
    exact (turns_inferAll σ items).done fun types => inert_pure _
  | .list items =>
    rw [inferKind]
    refine (turns_inferItems σ none items).done fun found => ?_
    split
    · exact inert_pure _
    · exact (contained_freshVar _).inert.bind fun _ => inert_pure _
  | .record fields =>
    rw [inferKind]
    exact (turns_inferFields σ fields).done fun _ => inert_pure _
  | .update base fields =>
    rw [inferKind]
    refine (turns_reference hcomposed hsteady hbody _ _).first fun t _ => ?_
    exact (turns_inferUpdates σ _ t true fields).done fun _ => inert_pure _
  | .access target field =>
    rw [inferKind]
    exact (turns_inferExpr σ target).done fun t => (contained_accessType _ _ _).inert
  | .accessor field =>
    rw [inferKind]
    refine ((contained_freshVar _).inert.bind fun _ => (contained_freshVar _).inert.bind fun _ => ?_).turns
    exact inert_pure _
  | .conditional branches otherwise =>
    rw [inferKind]
    refine (turns_inferBranches σ none branches).bind fun found _ => ?_
    exact (turns_inferExpr σ otherwise).done fun t => (contained_joinType _ _ _).inert
  | .caseOf scrutinee branches =>
    rw [inferKind]
    refine (turns_inferExpr σ scrutinee).bind fun t _ => ?_
    exact (turns_inferCases σ t none branches).done fun _ => inert_pure _
  | .lambda params body =>
    rw [inferKind]
    refine (contained_freshVars _ _).inert.first fun types ⟨_, _, htypes⟩ => ?_
    have hlength := length_freshVars htypes
    refine turns_withBound [] (turns_inferParams hlength) (fun _ ⟨_, _, hrun⟩ => names_inferParams hlength hrun) ?_
    exact (turns_deeper 1 (turns_inferExpr _ body)).last fun t => turns_popScope.done fun _ => inert_pure _
  | .letIn definitions body =>
    rw [inferKind]
    refine (turns_enterLet hcomposed hsteady hbody h).bind fun _ _ => ?_
    exact (turns_inferExpr _ body).last fun t => turns_popScope.done fun _ => inert_pure _

theorem turns_inferAll (σ : Setting) (es : List Expr) :
    Turns context quiet σ σ (Expr.sitesList σ.locals σ.depth es) (inferAll elsewhere es) := by
  match es with
  | [] =>
    rw [inferAll]
    exact turns_pure _
  | e :: es =>
    rw [inferAll]
    exact (turns_inferExpr σ e).bind fun t _ => (turns_inferAll σ es).done fun _ => inert_pure _

theorem turns_inferItems (σ : Setting) (first : Option Ty) (es : List Expr) :
    Turns context quiet σ σ (Expr.sitesList σ.locals σ.depth es) (inferItems elsewhere first es) := by
  match es with
  | [] =>
    rw [inferItems]
    exact turns_pure _
  | e :: es =>
    rw [inferItems]
    refine (turns_inferExpr σ e).bind fun t _ => (contained_joinType _ _ _).inert.first fun first _ => ?_
    exact turns_inferItems σ (some first) es

theorem turns_inferFields (σ : Setting) (fields : List (NameAt × Expr)) :
    Turns context quiet σ σ (Expr.sitesFields σ.locals σ.depth fields) (inferFields elsewhere fields) := by
  match fields with
  | [] =>
    rw [inferFields]
    exact turns_pure _
  | (name, e) :: rest =>
    rw [inferFields]
    exact (turns_inferExpr σ e).bind fun t _ => (turns_inferFields σ rest).done fun _ => inert_pure _

theorem turns_inferUpdates (σ : Setting) (basePos : Nat) (base : Ty) (isRecord : Bool) (fields : List (NameAt × Expr)) :
    Turns context quiet σ σ (Expr.sitesFields σ.locals σ.depth fields)
      (inferUpdates elsewhere basePos base isRecord fields) := by
  match fields with
  | [] =>
    rw [inferUpdates]
    exact turns_pure _
  | (name, e) :: rest =>
    rw [inferUpdates]
    refine (turns_inferExpr σ e).bind fun t _ => ?_
    split
    · exact (contained_updateField _ _ _ _ _).inert.first fun isRecord _ => turns_inferUpdates σ basePos base isRecord rest
    · exact turns_inferUpdates σ basePos base false rest

theorem turns_inferBranches (σ : Setting) (first : Option Ty) (branches : List (Expr × Expr)) :
    Turns context quiet σ σ (Expr.sitesBranches σ.locals σ.depth branches) (inferBranches elsewhere first branches) := by
  match branches with
  | [] =>
    rw [inferBranches]
    exact turns_pure _
  | (condition, branch) :: rest =>
    rw [inferBranches, Expr.sitesBranches, add_assoc]
    refine (turns_inferExpr σ condition).bind fun t _ => (contained_check _ _ _).inert.first fun _ _ => ?_
    refine (turns_inferExpr σ branch).bind fun u _ => (contained_joinType _ _ _).inert.first fun first _ => ?_
    exact turns_inferBranches σ (some first) rest

theorem turns_inferCases (σ : Setting) (scrutinee : Ty) (first : Option Ty) (branches : List (Pattern × Expr)) :
    Turns context quiet σ σ (Expr.sitesCases σ.locals σ.depth branches) (inferCases elsewhere scrutinee first branches) := by
  match branches with
  | [] =>
    rw [inferCases]
    exact turns_pure _
  | (pattern, body) :: rest =>
    rw [inferCases, Expr.sitesCases, add_assoc]
    refine turns_withBound [] (turns_inferPattern .branch pattern scrutinee) (fun _ ⟨_, _, hrun⟩ => names_inferPattern hrun) ?_
    refine (turns_inferExpr _ body).bind fun t _ => (contained_joinType _ _ _).inert.first fun first _ => ?_
    exact turns_popScope.first fun _ _ => turns_inferCases σ scrutinee (some first) rest

end

end Elsewhere

/-! ### Declarations -/

theorem turns_exprAt (n : Nat) (σ : Setting) (e : Expr) :
    Turns context quiet σ σ (e.sites σ.locals σ.depth) (exprAt n e) := by
  induction n generalizing σ e with
  | zero => exact ⟨fun _ _ _ hrun => (nomatch hrun), fun _ _ _ hrun => (nomatch hrun)⟩
  | succ n ih =>
    exact turns_inferExpr (fun _ _ => ⟨n, n, Nat.lt_succ_self n, Nat.le_refl n, rfl, rfl⟩)
      (fun e => composed_exprAt (Nat.le_succ n) (Nat.le_refl n) e)
      (fun e => steady_exprAt n e) ih σ e

theorem fits_single {name : Name} {binding : Binding} (h : ¬ binding.IsPending) : Frame.Fits ⟨[name], []⟩ [(name, binding)] := by
  refine ⟨List.nodup_singleton name, Scope.coherent_single_of_not_isPending h, fun other hsome => ?_, ?_⟩
  · obtain ⟨found, hget⟩ := Option.isSome_iff_exists.mp hsome
    exact List.mem_singleton.mpr (Scope.get?_single hget).1
  · rintro other slot d depth hget
    exact absurd ((Scope.get?_single hget).2 ▸ trivial) h

section Bodies

variable {inferBody : Expr → InferM Ty}
  (hbody : ∀ σ e, Turns context quiet σ σ (Expr.sites σ.locals σ.depth e) (inferBody e))

include hbody

theorem turns_inferTopFunction (name : NameAt) (params : List Pattern) (body : Expr) (signature : Option TypeExpr) :
    Turns context quiet ⟨[], 0⟩ ⟨[], 0⟩
      (Pattern.sitesList params + body.sites ((Pattern.boundNamesList params).map NameAt.name ++ [name.name])
        (0 + if params.isEmpty then 0 else 1))
      (inferTopFunction inferBody name params body signature) := by
  cases signature with
  | some signature =>
    refine (contained_convertSignature _ _).inert.first fun out _ => Inert.first ?_ fun _ _ => ?_
    · exact inert_modifyPass fun _ => ⟨⟨List.prefix_rfl, id, List.Subset.refl _⟩, rfl, rfl, rfl⟩
    · refine (turns_enterScope (fits_single id)).first fun _ _ => ?_
      exact (turns_inferFunction hbody _ _ _ _).last fun t => turns_popScope.done fun _ => inert_pure _
  | none =>
    refine (contained_freshVar "a").inert.first fun self _ => (turns_enterScope (fits_single id)).first fun _ _ => ?_
    refine (turns_inferFunction hbody _ _ _ _).last fun t => turns_popScope.done fun _ => ?_
    exact (contained_check _ _ _).inert.bind fun _ => inert_pure _

theorem turns_inferTopPattern (pattern : Pattern) (body : Expr) :
    Turns context quiet ⟨[], 0⟩ ⟨[], 0⟩ (pattern.sites + body.sites [] 0) (inferTopPattern inferBody pattern body) := by
  refine (turns_enterScope (Frame.fits_nil [])).first fun _ _ => (turns_inferDestructuring hbody pattern body).last fun out => ?_
  refine Turns.widen ?_ (List.nil_subset (out.2.map (·.1.name)))
  exact (turns_bindAll [] (List.Subset.refl _)).first fun _ _ => turns_popScope.done fun _ => inert_pure _

/-- The inference of a declaration comes by each of its nodes once. -/
theorem covers_inferDeclaration {d : ValueDecl} {session : Session} {inferred : Inferred}
    (hrun : inferDeclaration inferBody d context ⟨session, {}⟩ = (.ok (.ok inferred), w'))
    (hsilent : quiet → inferred.1.problems = []) (hapart : ∀ site ∈ d.declaredSites, site.Apart quiet) :
    Covers context ⟨session, {}⟩ w' d.declaredSites ∧ ∃ t, Freezes context w' t inferred.1 := by
  have hrest : ∀ {x : InferM Ty}, Turns context quiet ⟨[], 0⟩ ⟨[], 0⟩ d.declaredSites x → (do
      let t ← x
      if (← getPass).cancelled then return .error .cancelled
      return .ok (← finish t) : InferM (Except InferError Inferred)) context ⟨session, {}⟩ = (.ok (.ok inferred), w') →
      Covers context ⟨session, {}⟩ w' d.declaredSites ∧ ∃ t, Freezes context w' t inferred.1 := by
    intro x hx hrun
    obtain ⟨t, w₁, hrun₁, hrun⟩ := run_bind_inv hrun
    obtain ⟨_, _, hpass, hrun⟩ := run_bind_inv hrun
    cases hpass
    split at hrun
    · cases hrun
    · next hcancelled =>
      obtain ⟨out, w₂, hfinish, hrun⟩ := run_bind_inv hrun
      cases hrun
      obtain ⟨rfl, hfreezes⟩ := freezes_finish hfinish
      obtain ⟨-, n, hcovers, hsum⟩ := hx.pays _ _ _ hrun₁
        ⟨Bool.eq_false_iff.mpr hcancelled, fun hquiet => hfreezes.silent (hsilent hquiet)⟩ ⟨.nil, rfl⟩
        fun site hsite => hapart site ((Multiset.mem_add.mp hsite).resolve_right (Multiset.notMem_zero site))
      have hall : n = d.declaredSites := (add_zero n).symm.trans (hsum.trans (add_zero _))
      exact ⟨hall ▸ hcovers, t, hfreezes⟩
  obtain ⟨pos, signature, head, body⟩ := d
  cases head with
  | function name params => exact hrest (turns_inferTopFunction hbody name params body signature) hrun
  | pattern pattern => exact hrest (turns_inferTopPattern hbody pattern body) hrun

end Bodies

end InferM

end ElmInference
