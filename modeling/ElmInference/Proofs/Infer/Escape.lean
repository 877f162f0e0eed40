import ElmInference.Proofs.Infer.Expressions

/-!
# Variables of signatures outside of their `let`

A `let` function with a signature is used at any types for the variables of its signature that do not come from
the surroundings. These variables are allocated when the signature is read, so no type around the `let` leads to
them at first. While the body is checked, a flexible variable of the surroundings may be solved by one of them, and
nothing looks for that afterwards.

A settled type has no flexible variable left, and never comes to show a variable of the signature. For all other
types, what counts is the moment when the definitions of the `let` are done: if nothing in scope leads to the
variable then, nothing will.
-/

namespace ElmInference

open Store

variable {Q Q' : Set Mention}

theorem Ty.eq_var_of_var? {t : Ty} {v : TyVar} (h : t.var? = some v) : t = .var v := by
  cases t with
  | var u => exact congrArg Ty.var (Option.some.inj h)
  | _ => cases h

/-! ### Two sets at once -/

theorem Binding.Within.inter {binding : Binding} (h : binding.Within Q) (h' : binding.Within Q') :
    binding.Within (Q ∩ Q') := by
  have hscheme : ∀ {scheme : Scheme}, scheme.Within Q → scheme.Within Q' → scheme.Within (Q ∩ Q') := by
    intro scheme h h' r hr
    rcases h r hr with hQ | hquantified
    · exact (h' r hr).imp_left fun hQ' => ⟨hQ, hQ'⟩
    · exact .inr hquantified
  cases binding with
  | mono t => exact fun r hr => ⟨h r hr, h' r hr⟩
  | poly scheme => exact hscheme h h'
  | pending slot definition depth => trivial
  | checking scheme hasParams depth => exact hscheme h h'
  | active t hasParams depth => exact fun r hr => ⟨h r hr, h' r hr⟩

theorem Pass.Within.inter {pass : Pass} (h : pass.Within Q) (h' : pass.Within Q') : pass.Within (Q ∩ Q') := by
  refine ⟨fun scope hscope entry hentry =>
    (h.bindings scope hscope entry hentry).inter (h'.bindings scope hscope entry hentry), fun entry hentry => ?_⟩
  obtain ⟨v, hv, hQ⟩ := h.typeVars entry hentry
  obtain ⟨u, hu, hQ'⟩ := h'.typeVars entry hentry
  obtain rfl : v = u := Ty.var.inj (hv.symm.trans hu)
  exact ⟨v, hv, hQ, hQ'⟩

/-- When nothing in scope leads to a variable, the state is orderly without it. -/
theorem Work.Orderly.clear {w : Work} (h : w.Orderly Q) {id : VarId}
    (hclear : w.pass.Within (w.pass.store.clearOf id)) : w.Orderly (Q ∩ w.pass.store.clearOf id) :=
  ⟨h.store.clear id, h.pass.inter hclear, h.session⟩

namespace InferM

variable {context : Context} {w w' : Work}

/-- A computation that behaves keeps everything in scope clear of a variable, and returns what is clear of it. -/
theorem Behaves.clear {α : Type} {x : InferM α} {V : Set Mention → α → Prop} {a : α} {id : VarId}
    (hx : ∀ Q, Behaves context Q x V) (hw : w.Orderly Q) (hid : id < w.pass.store.size)
    (hclear : w.pass.Within (w.pass.store.clearOf id)) (hrun : x context w = (.ok a, w')) :
    w'.pass.Within (w'.pass.store.clearOf id) ∧ ∃ Q', Q' ⊆ w'.pass.store.clearOf id ∧ V Q' a := by
  obtain ⟨Q', hadvances, hw', ha⟩ := hx _ _ _ _ (hw.clear hclear) hrun
  have hsubset := hadvances.subset_clearOf (hw.store.clear id) hid
  exact ⟨hw'.pass.mono hsubset, Q', hsubset, ha⟩

/-! ### Variables of signatures are new -/

/-- What a signature quantifies is mentioned by its type and does not come from the surroundings. -/
theorem mentions_of_mem_signatureScheme {surroundings : Assoc Name Ty} {t : Ty} {v : TyVar}
    (h : v ∈ (signatureScheme surroundings t).vars) :
    .var v ∈ t.mentions false ∧ ∀ entry ∈ surroundings, entry.2 ≠ .var v := by
  obtain ⟨hv, houter⟩ := List.mem_filter.mp h
  refine ⟨Ty.mentions_of_mem_vars hv, fun entry hentry heq => ?_⟩
  have hmem : v.id ∈ surroundings.filterMap (fun entry => entry.2.var?.map TyVar.id) :=
    List.mem_filterMap.mpr ⟨entry, hentry, by rw [heq]; rfl⟩
  simp [hmem] at houter

/-- The variables of a converted type come from the surroundings or are new. -/
theorem new_of_convertSignature (hw : w.Orderly Q) {vars : Assoc Name Ty} (hvars : VarsWithin vars Q)
    {signature : TypeExpr} {out : Ty × Assoc Name Ty}
    (hrun : convertSignature vars signature context w = (.ok out, w')) {v : TyVar}
    (hv : .var v ∈ out.1.mentions false) :
    (∃ entry ∈ vars, entry.2 = .var v) ∨ w.pass.store.size ≤ v.id := by
  obtain ⟨converted, w₁, hconvert, hrest⟩ := run_bind_inv hrun
  obtain ⟨u, c, hconverted, rfl, -, -⟩ := run_convert_inv hconvert
  cases hrest
  -- The conversion gets to see the surroundings only, so the type mentions these and what is new.
  have hstart : (conversion w vars).Within
      {r | r.node? = none ∨ ∃ entry ∈ vars, ∃ x, entry.2 = .var x ∧ r = .var x} := by
    refine ⟨fun r hr => .inl hr, fun entry hentry => ?_, hw.session.declared⟩
    obtain ⟨x, hx, -⟩ := hvars entry hentry
    exact ⟨x, hx, .inr ⟨entry, hentry, x, hx, rfl⟩⟩
  obtain ⟨Q', hmints, -, hu⟩ := Conversion.yields_convert context.engine.scope true signature hstart
  rw [hconverted] at hmints hu
  rcases hmints.new (hu _ hv) with (hplain | ⟨entry, hentry, x, hx, hvar⟩) | ⟨x, hvar, hle⟩
  · cases hplain
  · cases hvar
    exact .inl ⟨entry, hentry, hx⟩
  · cases hvar
    exact .inr hle

/-- Whether the variables that a signature quantifies were allocated between two states. -/
def AllocatedBetween (w w' : Work) (d : SignedDefinition) : Prop :=
  ∀ v ∈ d.scheme.vars, w.pass.store.size ≤ v.id ∧ v.id < w'.pass.store.size

theorem AllocatedBetween.mono {w₁ w₂ : Work} {d : SignedDefinition} (h : AllocatedBetween w₁ w₂ d)
    (hbefore : w.pass.store.size ≤ w₁.pass.store.size) (hafter : w₂.pass.store.size ≤ w'.pass.store.size) :
    AllocatedBetween w w' d :=
  fun v hv => ⟨hbefore.trans (h v hv).1, Nat.lt_of_lt_of_le (h v hv).2 hafter⟩

theorem allocatedBetween_readDefinition {slot : Nat} {definition : ValueDecl} {l l' : LetScope} (hw : w.Orderly Q)
    (hrun : readDefinition slot definition l context w = (.ok l', w')) :
    ∀ d ∈ l'.signed, d ∈ l.signed ∨ AllocatedBetween w w' d := by
  obtain ⟨names, w₁, hdeclare, hrun⟩ := run_bind_inv hrun
  obtain ⟨Q₁, hadvances, hw₁, -⟩ := behaves_declareAll _ _ _ _ _ hw hdeclare
  obtain ⟨pass, _, hpass, hrun⟩ := run_bind_inv hrun
  cases hpass
  obtain ⟨pos, signature, head, body⟩ := definition
  cases head with
  | pattern p =>
    cases hrun
    exact fun d hd => .inl hd
  | function name params =>
    cases signature with
    | none =>
      cases hrun
      exact fun d hd => .inl hd
    | some signature =>
      obtain ⟨out, w₂, hconvert, hrest⟩ := run_bind_inv hrun
      obtain ⟨Q₂, -, hw₂, hout⟩ := behaves_convertSignature signature hw₁.pass.typeVars _ _ _ hw₁ hconvert
      cases hrest
      intro d hd
      rcases List.mem_append.mp hd with hd | hd
      · exact .inl hd
      · rw [List.mem_singleton.mp hd]
        refine .inr fun v hv => ?_
        obtain ⟨hmention, houter⟩ := mentions_of_mem_signatureScheme hv
        refine ⟨?_, hw₂.store.tidy.owned _ (hout.1 _ hmention)⟩
        rcases new_of_convertSignature hw₁ hw₁.pass.typeVars hconvert hmention with ⟨entry, hentry, heq⟩ | hle
        · exact absurd heq (houter entry hentry)
        · exact hadvances.size.trans hle

/-- The variables that the signatures of a `let` quantify are allocated while the signatures are read. -/
theorem allocatedBetween_readDefinitions {slot : Nat} {definitions : List ValueDecl} {l l' : LetScope}
    (hl : LetScope.Within l Q) (hw : w.Orderly Q)
    (hrun : readDefinitions slot definitions l context w = (.ok l', w')) :
    ∀ d ∈ l'.signed, d ∈ l.signed ∨ AllocatedBetween w w' d := by
  induction definitions generalizing slot l w Q with
  | nil =>
    cases hrun
    exact fun d hd => .inl hd
  | cons definition rest ih =>
    obtain ⟨l₁, w₁, hfirst, hrest⟩ := run_bind_inv hrun
    obtain ⟨Q₁, hadvances, hw₁, hl₁⟩ := behaves_readDefinition slot definition hl _ _ _ hw hfirst
    obtain ⟨Q₂, hadvances', -⟩ := behaves_readDefinitions (slot + 1) rest hl₁ _ _ _ hw₁ hrest
    intro d hd
    rcases ih hl₁ hw₁ hrest d hd with hd | hnew
    · exact (allocatedBetween_readDefinition hw hfirst d hd).imp_right (·.mono (Nat.le_refl _) hadvances'.size)
    · exact .inr (hnew.mono hadvances.size (Nat.le_refl _))

/-! ### What the surroundings come to show -/

/-- The variables that the signatures of a `let` quantify and the types around it, once the definitions of the `let`
are inferred. A type that was settled when the `let` was entered does not show them, now or later. And if nothing in
scope leads to such a variable now, then no type that is inferred from here on shows it, and no name in scope then. -/
theorem quantified_variables_enter_open_types_only (n : Nat) (context : Context) (definitions : List ValueDecl)
    (w w₁ : Work) (Q : Set Mention) (hscope : context.engine.scope.Frozen) (hw : w.Orderly Q)
    (hlet : enterLet (exprAt n) definitions context w = (.ok (), w₁)) :
    ∃ l w₀ Q₁, readDefinitions 0 definitions {} context w = (.ok l, w₀) ∧
      Advances (w.pass.store, Q) (w₁.pass.store, Q₁) ∧ w₁.Orderly Q₁ ∧
      ∀ d ∈ l.signed, ∀ v ∈ d.scheme.vars,
        (∀ t W, w.pass.store.Owns t → Settled (w.pass.store, Q) t → Advances (w₁.pass.store, Q₁) W →
          W.1.Hides v.id t) ∧
        (w₁.pass.Within (w₁.pass.store.clearOf v.id) → ∀ m e t w₂, exprAt m e context w₁ = (.ok t, w₂) →
          w₂.pass.Within (w₂.pass.store.clearOf v.id) ∧ w₂.pass.store.Hides v.id t ∧
          ∀ scope ∈ w₂.pass.scopes, ∀ name x, (name, .mono x) ∈ scope → w₂.pass.store.Hides v.id x) := by
  obtain ⟨l, w₀, hread, hrest⟩ := run_bind_inv hlet
  have hempty : LetScope.Within {} Q := ⟨by simp, by simp⟩
  obtain ⟨Q₀, hreading, hw₀, hl⟩ := behaves_readDefinitions 0 definitions hempty _ _ _ hw hread
  obtain ⟨Q₁, hinferring, hw₁, -⟩ := behaves_inferSigned hscope (behaves_exprAt n hscope) definitions hl _ _ _ hw₀ hrest
  refine ⟨l, w₀, Q₁, hread, hreading.trans hinferring, hw₁, fun d hd v hv => ?_⟩
  obtain ⟨hnew, hlt⟩ : w.pass.store.size ≤ v.id ∧ v.id < w₀.pass.store.size := by
    rcases allocatedBetween_readDefinitions hempty hw hread d hd with hnone | hallocated
    · cases hnone
    · exact hallocated v hv
  refine ⟨fun t W ht hsettled hlater => ?_, fun hclear m e t w₂ hrun => ?_⟩
  · exact hsettled.hides hw.store.tidy ht hnew (hreading.trans (hinferring.trans hlater))
  · have hlt₁ : v.id < w₁.pass.store.size := Nat.lt_of_lt_of_le hlt hinferring.size
    obtain ⟨hpass, Q₂, hsubset, ht⟩ :=
      Behaves.clear (fun Q => behaves_exprAt m hscope Q e) hw₁ hlt₁ hclear hrun
    exact ⟨hpass, hides_of_within (Ty.Within.mono ht hsubset),
      fun scope hscope name x hx => hides_of_within (hpass.bindings scope hscope _ hx)⟩

/-- `g : a -> ( a, b )` with `g y = ( y, x )`, where `x : b` for a variable `b` of a signature around. -/
theorem quantified_variables_enter_open_types_only_of_pair :
    let b : TyVar := ⟨0, "b", true⟩
    let Q : Set Mention := insert (.var b) {r | r.node? = none}
    let g : ValueDecl :=
      ⟨5, some (.mk 4 (.function [.mk 0 (.var "a"), .mk 3 (.tuple [.mk 1 (.var "a"), .mk 2 (.var "b")])])),
        .function ⟨6, "g"⟩ [.mk 0 7 (.var "y")],
        .mk 3 10 (.tuple [.mk 1 8 (.var (.plain "y")), .mk 2 9 (.var (.plain "x"))])⟩
    let w : Work := ⟨{}, { store := ({} : Store).extended, scopes := [[("x", .mono (.var b))]],
                           typeVars := [("b", .var b)] }⟩
    let w₁ := (enterLet (exprAt 1) [g] default w).2
    w.Orderly Q ∧ enterLet (exprAt 1) [g] default w = (.ok (), w₁) ∧ w₁.pass.Within (w₁.pass.store.clearOf 1) ∧
      (∃ Q₁, ∀ W, Advances (w₁.pass.store, Q₁) W → W.1.Hides 1 (.var b)) ∧
      ∀ m e t w₂, exprAt m e default w₁ = (.ok t, w₂) → w₂.pass.store.Hides 1 t := by
  intro b Q g w w₁
  have hb : .var b ∈ Q := Set.mem_insert _ _
  have hstore : Store.Orderly (w.pass.store, Q) := (Advance.move (.fresh "b" true)).orderly orderly_empty
  have hw : w.Orderly Q := by
    refine ⟨hstore, ⟨?_, ?_⟩, Session.frozen_empty⟩
    · intro scope hscope entry hentry
      cases List.mem_singleton.mp hscope
      cases List.mem_singleton.mp hentry
      exact Ty.within_var.mpr hb
    · intro entry hentry
      cases List.mem_singleton.mp hentry
      exact ⟨b, rfl, hb⟩
  have hlet : enterLet (exprAt 1) [g] default w = (.ok (), w₁) := run_eq_of_isOk (by decide +kernel)
  have hclear : w₁.pass.Within (w₁.pass.store.clearOf 1) := by
    have hbindings : ∀ scope ∈ w₁.pass.scopes, ∀ entry ∈ scope, entry.2.Within {r | r = .var b} := by decide +kernel
    have htypeVars : ∀ entry ∈ w₁.pass.typeVars, entry.2.var? = some b := by decide +kernel
    have hlt : 0 < w₁.pass.store.size := by decide +kernel
    have hsolution : (w₁.pass.store.solution? 0).isNone = true := by decide +kernel
    have hunsolved : w₁.pass.store.Unsolved 0 := ⟨hlt, Option.isNone_iff_eq_none.mp hsolution⟩
    refine Pass.Within.mono ⟨hbindings, fun entry hentry => ⟨b, ?_, rfl⟩⟩ ?_
    · exact Ty.eq_var_of_var? (htypeVars entry hentry)
    · rintro r rfl
      exact mem_clearOf_of_unsolved hunsolved (by decide)
  have hquantified : (readDefinitions 0 [g] {} default w).1.toOption.map (fun l => l.signed.map (·.scheme.vars)) =
      some [[⟨1, "a", true⟩]] := by decide +kernel
  obtain ⟨l, w₀, Q₁, hread, -, -, hall⟩ :=
    quantified_variables_enter_open_types_only 1 default [g] w w₁ Q
      ⟨fun _ h => absurd h List.not_mem_nil, fun _ h => absurd h List.not_mem_nil⟩ hw hlet
  rw [hread] at hquantified
  obtain ⟨d, hd, hvars⟩ : ∃ d ∈ l.signed, d.scheme.vars = [⟨1, "a", true⟩] := by
    obtain ⟨d, hsigned, hd⟩ := List.map_eq_singleton_iff.mp (Option.some.inj hquantified)
    exact ⟨d, by rw [hsigned]; exact List.mem_singleton_self d, hd⟩
  obtain ⟨hsettled, hlater⟩ := hall d hd ⟨1, "a", true⟩ (by rw [hvars]; exact List.mem_singleton_self _)
  refine ⟨hw, hlet, hclear, ⟨Q₁, fun W => hsettled (.var b) W ?_ ?_⟩,
    fun m e t w₂ hrun => (hlater hclear m e t w₂ hrun).2.1⟩
  · exact hstore.tidy.owns (Ty.within_var.mpr hb)
  · exact hstore.settled_var hb rfl (unsolved_extended_self {})

/-- In `f x = let g : a -> List a ; g y = [ x, y ] in ( g 1, g "s" )` nothing is reported, and `x` gets the type `a`
that the signature of `g` quantifies. -/
theorem parameter_gets_quantified_type :
    let g : ValueDecl :=
      ⟨7, some (.mk 6 (.function [.mk 3 (.var "a"), .mk 5 (.ref (.plain "List") [.mk 4 (.var "a")])])),
        .function ⟨8, "g"⟩ [.mk 1 9 (.var "y")],
        .mk 4 12 (.list [.mk 2 10 (.var (.plain "x")), .mk 3 11 (.var (.plain "y"))])⟩
    let body : Expr := .mk 12 20 (.letIn [g] (.mk 11 19 (.tuple
      [.mk 7 15 (.call (.mk 5 13 (.var (.plain "g"))) [.mk 6 14 (.literal .int)]),
       .mk 10 18 (.call (.mk 8 16 (.var (.plain "g"))) [.mk 9 17 (.literal .string)])])))
    let f : ValueDecl := ⟨0, none, .function ⟨1, "f"⟩ [.mk 0 2 (.var "x")], body⟩
    let engine : Engine := { file := default, scope := { module := ⟨"Main", [.value f]⟩ } }
    let a : TyVar := ⟨2, "a", true⟩
    let x : TyVar := ⟨1, "a", false⟩
    let before : Work := ⟨{}, { store := ({} : Store).extended.extended, scopes := [[("x", .mono (.var x))]] }⟩
    let read := readDefinitions 0 [g] {} ⟨engine, 0⟩ before
    let done := inferTopFunction (exprAt engine.budget) ⟨1, "f"⟩ [.mk 0 2 (.var "x")] body none ⟨engine, 0⟩ ⟨{}, {}⟩
    read.1.toOption.map (fun l => l.signed.map (·.scheme.vars)) = some [[a]] ∧
      done.1.isOk = true ∧ done.2.pass.problems.isEmpty = true ∧ done.2.pass.store.zonk (.var x) = .ok (.var a) := by
  intro g body f engine a x before read done
  have hzonk : (done.2.pass.store.zonk (.var x)).toOption.bind Ty.var? = some a := by decide +kernel
  refine ⟨by decide +kernel, by decide +kernel, by decide +kernel, ?_⟩
  cases hz : done.2.pass.store.zonk (.var x) with
  | error fault =>
    rw [hz] at hzonk
    cases hzonk
  | ok z =>
    rw [hz] at hzonk
    exact congrArg Except.ok (Ty.eq_var_of_var? hzonk)

end InferM

end ElmInference
