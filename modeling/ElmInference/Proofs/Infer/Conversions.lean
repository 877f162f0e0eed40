import ElmInference.Proofs.Infer.Meanings
import ElmInference.Proofs.Store.Mints

/-!
# Converting type expressions

A conversion allocates variables and does nothing else to the store. The type that comes out mentions the type
variables in scope and new variables. No growing record comes out of a conversion, so none stands in a declared
type, and every use of a declared type is at home in the store where it is used.
-/

namespace ElmInference

open Store

def TypeTable.Frozen (table : TypeTable) : Prop :=
  ∀ entry ∈ table.declared, entry.2.Frozen

namespace Conversion

/-- The type variables in scope of a conversion are at hand, and its declared types are without growing
records. -/
structure Within (c : Conversion) (Q : Set Mention) : Prop where
  plain : ∀ r, r.node? = none → r ∈ Q
  vars : ∀ entry ∈ c.vars, ∃ v, entry.2 = .var v ∧ .var v ∈ Q
  table : c.table.Frozen

/-- How a conversion may go on: with new variables, and with a result that is at hand. -/
def Yields {α : Type} (c : Conversion) (Q : Set Mention) (x : StateM Conversion α)
    (V : Set Mention → α → Prop) : Prop :=
  ∃ Q', Mints (c.store, Q) ((x c).2.store, Q') ∧ (x c).2.Within Q' ∧ V Q' (x c).1

/-- Conversion of the bodies of aliases that keeps growing records out. -/
def Thaws (expand : Expand) : Prop :=
  ∀ m decl table, table.Frozen →
    (expand m decl table).2.Frozen ∧ ∀ d, (expand m decl table).1 = some d → d.Frozen

variable {α β : Type} {c : Conversion} {Q Q' : Set Mention}

theorem Yields.bind {x : StateM Conversion α} {f : α → StateM Conversion β} {V : Set Mention → α → Prop}
    {V' : Set Mention → β → Prop} (hx : Yields c Q x V)
    (hf : ∀ a c' Q', Q ⊆ Q' → c'.Within Q' → V Q' a → Yields c' Q' (f a) V') :
    Yields c Q (x >>= f) V' := by
  obtain ⟨Q₁, hmints, hc₁, ha⟩ := hx
  obtain ⟨Q₂, hmints', hc₂, hb⟩ := hf _ _ _ hmints.subset hc₁ ha
  exact ⟨Q₂, hmints.trans hmints', hc₂, hb⟩

theorem yields_pure {a : α} {V : Set Mention → α → Prop} (hc : c.Within Q) (ha : V Q a) :
    Yields c Q (pure a) V :=
  ⟨Q, .refl, hc, ha⟩

theorem yields_report (pos : Nat) (kind : ProblemKind) (hc : c.Within Q) :
    Yields c Q (report pos kind) (fun _ _ => True) :=
  ⟨Q, .refl, ⟨hc.plain, hc.vars, hc.table⟩, trivial⟩

theorem Within.unknown (hc : c.Within Q) : Ty.unknown.Within Q :=
  fun r hr => hc.plain r (by simp [List.mem_singleton.mp hr, Mention.node?])

/-- A new variable for a name that had none. -/
theorem Within.fresh (hc : c.Within Q) (name : Name) (rigid : Bool) : Within { c with
    store := c.store.extended, vars := Assoc.set c.vars name (.var ⟨c.store.size, name, rigid⟩) }
      (insert (.var ⟨c.store.size, name, rigid⟩) Q) where
  plain r hr := Set.mem_insert_of_mem _ (hc.plain r hr)
  vars entry hentry := by
    rcases Assoc.mem_set hentry with hentry | rfl
    · obtain ⟨v, hv, hvQ⟩ := hc.vars entry hentry
      exact ⟨v, hv, Set.mem_insert_of_mem _ hvQ⟩
    · exact ⟨_, rfl, Set.mem_insert _ _⟩
  table := hc.table

variable {rigid : Bool}

/-! ### Parts of a conversion -/

theorem yields_typeVar (name : Name) (hc : c.Within Q) :
    Yields c Q (Conversion.typeVar rigid name) (fun Q t => t.Within Q) := by
  cases hget : Assoc.get? c.vars name with
  | some t =>
    obtain ⟨v, rfl, hv⟩ := hc.vars _ (Assoc.mem_of_get? hget)
    unfold Yields Conversion.typeVar
    simp only [hget]
    exact ⟨Q, .refl, hc, Ty.within_var.mpr hv⟩
  | none =>
    unfold Yields Conversion.typeVar
    simp only [hget]
    exact ⟨_, mints_fresh c.store Q name rigid, hc.fresh name rigid, Ty.within_var.mpr (Set.mem_insert _ _)⟩

theorem yields_base (name : Option Name) (hc : c.Within Q) :
    Yields c Q (base rigid name) (fun Q t => ∀ b, t = some b → b.Within Q) := by
  cases name with
  | none => exact yields_pure hc nofun
  | some name =>
    refine (yields_typeVar name hc).bind fun t c' Q' _ hc' ht => yields_pure hc' ?_
    intro b hb
    cases hb
    exact ht

theorem within_ofSegments {segments : List Ty} (hunknown : Ty.unknown.Within Q)
    (h : ∀ t ∈ segments, t.Within Q) : (ofSegments segments).Within Q := by
  unfold ofSegments
  cases hlast : segments.getLast? with
  | none => exact hunknown
  | some ret =>
    refine Ty.within_function (fun t ht => h t (List.mem_of_mem_dropLast ht)) (h ret ?_)
    exact List.mem_of_getLast? hlast

theorem yields_saturated (pos : Nat) (m n : Name) {args : List Ty} (arity : Nat) (hc : c.Within Q)
    (hargs : ∀ t ∈ args, t.Within Q) :
    Yields c Q (saturated pos m n args arity) (fun Q t => t.Within Q) := by
  unfold saturated
  split
  · exact yields_pure hc (Ty.within_union.mpr hargs)
  · exact (yields_report _ _ hc).bind fun _ c' Q' _ hc' _ => yields_pure hc' hc'.unknown

theorem yields_expanded {expand : Expand} (hexpand : Thaws expand) (pos : Nat) (m : Name) (decl : AliasDecl)
    {args : List Ty} (hc : c.Within Q) (hargs : ∀ t ∈ args, t.Within Q) :
    Yields c Q (expanded expand pos m decl args) (fun Q t => t.Within Q) := by
  unfold expanded
  split
  · exact (yields_report _ _ hc).bind fun _ c' Q' _ hc' _ => yields_pure hc' hc'.unknown
  · obtain ⟨htable, hfound⟩ := hexpand m decl c.table hc.table
    have hlookup : Yields c Q
        (modifyGet (fun c => ((expand m decl c.table).1, { c with table := (expand m decl c.table).2 })))
        (fun _ found => ∀ d, found = some d → d.Frozen) :=
      ⟨Q, .refl, ⟨hc.plain, hc.vars, htable⟩, hfound⟩
    refine hlookup.bind fun found c' Q' hsub hc' hfrozen => ?_
    cases found with
    | none => exact (yields_report _ _ hc').bind fun _ c' Q' _ hc' _ => yields_pure hc' hc'.unknown
    | some d =>
      obtain ⟨Q'', hmints, hwithin⟩ := (hfrozen d rfl).instantiate c'.store hc'.plain
        (fun t ht => (hargs t ht).mono hsub)
      refine ⟨Q'', hmints, ⟨fun r hr => hmints.subset (hc'.plain r hr), fun entry hentry => ?_, hc'.table⟩, hwithin⟩
      obtain ⟨v, hv, hvQ⟩ := hc'.vars entry hentry
      exact ⟨v, hv, hmints.subset hvQ⟩

theorem yields_reference {expand : Expand} (hexpand : Thaws expand) (scope : ModuleScope) (pos : Nat) (name : Ref)
    {args : List Ty} (hc : c.Within Q) (hargs : ∀ t ∈ args, t.Within Q) :
    Yields c Q (reference scope expand pos name args) (fun Q t => t.Within Q) := by
  unfold reference
  split
  · exact yields_pure hc hc.unknown
  · exact yields_saturated _ _ _ _ hc hargs
  · exact yields_saturated _ _ _ _ hc hargs
  · exact yields_expanded hexpand _ _ _ hc hargs

/-! ### The recursion -/

mutual

theorem yields_convertWith {expand : Expand} (hexpand : Thaws expand) (scope : ModuleScope) (t : TypeExpr)
    {c : Conversion} {Q : Set Mention} (hc : c.Within Q) :
    Yields c Q (convertWith scope expand rigid t) (fun Q t => t.Within Q) := by
  match t with
  | .mk _ (.var name) => exact yields_typeVar name hc
  | .mk _ .unit => exact yields_pure hc nofun
  | .mk _ (.tuple items) =>
    rw [convertWith]
    exact (yields_convertList hexpand scope items hc).bind fun ts c' Q' _ hc' hts =>
      yields_pure hc' (Ty.within_tuple.mpr hts)
  | .mk _ (.record baseName fields) =>
    rw [convertWith]
    refine (yields_base baseName hc).bind fun under c₁ Q₁ _ hc₁ hunder => ?_
    refine (yields_convertFields hexpand scope fields hc₁).bind fun converted c₂ Q₂ hsub hc₂ hfields => ?_
    refine yields_pure hc₂ (Ty.within_recordWith (fun field hf => ⟨hc₂.plain _ rfl, hfields field hf⟩) ?_)
    exact fun b hb => (hunder b hb).mono hsub
  | .mk _ (.function segments) =>
    rw [convertWith]
    exact (yields_convertList hexpand scope segments hc).bind fun ts c' Q' _ hc' hts =>
      yields_pure hc' (within_ofSegments hc'.unknown hts)
  | .mk pos (.ref name args) =>
    rw [convertWith]
    exact (yields_convertList hexpand scope args hc).bind fun ts c' Q' _ hc' hts =>
      yields_reference hexpand scope pos name hc' hts

theorem yields_convertList {expand : Expand} (hexpand : Thaws expand) (scope : ModuleScope) (ts : List TypeExpr)
    {c : Conversion} {Q : Set Mention} (hc : c.Within Q) :
    Yields c Q (convertList scope expand rigid ts) (fun Q ts => ∀ t ∈ ts, t.Within Q) := by
  match ts with
  | [] => exact yields_pure hc nofun
  | t :: ts =>
    rw [convertList]
    refine (yields_convertWith hexpand scope t hc).bind fun t c₁ Q₁ _ hc₁ ht => ?_
    refine (yields_convertList hexpand scope ts hc₁).bind fun ts c₂ Q₂ hsub hc₂ hts => yields_pure hc₂ ?_
    exact List.forall_mem_cons.mpr ⟨ht.mono hsub, hts⟩

theorem yields_convertFields {expand : Expand} (hexpand : Thaws expand) (scope : ModuleScope)
    (fields : List (FieldDecl TypeExpr)) {c : Conversion} {Q : Set Mention} (hc : c.Within Q) :
    Yields c Q (convertFields scope expand rigid fields) (fun Q fields => ∀ field ∈ fields, field.2.Within Q) := by
  match fields with
  | [] => exact yields_pure hc nofun
  | ⟨_, name, t⟩ :: rest =>
    rw [convertFields]
    refine (yields_convertWith hexpand scope t hc).bind fun t c₁ Q₁ _ hc₁ ht => ?_
    refine (yields_convertFields hexpand scope rest hc₁).bind fun ts c₂ Q₂ hsub hc₂ hts => yields_pure hc₂ ?_
    exact List.forall_mem_cons.mpr ⟨ht.mono hsub, hts⟩

end

/-! ### Declarations -/

/-- A conversion that has allocated variables and nothing else since its store was new. -/
def Standalone (c : Conversion) (Q : Set Mention) : Prop :=
  Mints ({}, {r | r.node? = none}) (c.store, Q) ∧ c.Within Q

theorem Standalone.frozen {t : Ty} (h : c.Standalone Q) (ht : t.Within Q) : t.Frozen := by
  intro id hid
  rcases h.1.new (ht _ hid) with hr | ⟨v, hv, -⟩
  · cases hr
  · cases hv

theorem Standalone.yields {α : Type} {x : StateM Conversion α} {V : Set Mention → α → Prop}
    (h : c.Standalone Q) (hx : Yields c Q x V) : ∃ Q', (x c).2.Standalone Q' ∧ V Q' (x c).1 := by
  obtain ⟨Q', hmints, hc', ha⟩ := hx
  exact ⟨Q', ⟨h.1.trans hmints, hc'⟩, ha⟩

theorem Standalone.fresh (h : c.Standalone Q) (name : Name) : ∃ Q', Standalone { c with
    store := c.store.extended, vars := Assoc.set c.vars name (.var ⟨c.store.size, name, false⟩) } Q' := by
  obtain ⟨hmints, hc⟩ := h
  exact ⟨_, hmints.trans (mints_fresh c.store Q name false), hc.fresh name false⟩

theorem standalone_paramScope {table : TypeTable} (htable : table.Frozen) (params : List Name) :
    ∃ Q, (paramScope table params).2.Standalone Q := by
  unfold paramScope
  refine List.foldlRecOn (motive := fun (p : List TyVar × Conversion) => ∃ Q, p.2.Standalone Q) params _ ?_
    (fun p hp name _ => ?_)
  · exact ⟨{r | r.node? = none}, .refl, ⟨fun r hr => hr, nofun, htable⟩⟩
  · obtain ⟨Q, h⟩ := hp
    exact h.fresh name

theorem yields_mapM {α β : Type} {f : β → StateM Conversion α} {V : Set Mention → α → Prop}
    (hmono : ∀ Q Q' a, Q ⊆ Q' → V Q a → V Q' a) (xs : List β)
    (h : ∀ x c Q, c.Within Q → Yields c Q (f x) V) (hc : c.Within Q) :
    Yields c Q (xs.mapM f) (fun Q as => ∀ a ∈ as, V Q a) := by
  induction xs generalizing c Q with
  | nil => exact yields_pure hc nofun
  | cons x xs ih =>
    rw [List.mapM_cons]
    refine (h x c Q hc).bind fun a c₁ Q₁ _ hc₁ ha => (ih hc₁).bind fun as c₂ Q₂ hsub hc₂ has => ?_
    exact yields_pure hc₂ (List.forall_mem_cons.mpr ⟨hmono _ _ _ hsub ha, has⟩)

end Conversion

namespace TypeTable

open Conversion

theorem thaws_expandAt (scope : ModuleScope) (n : Nat) : Thaws (expandAt scope n) := by
  induction n with
  | zero => exact fun m decl table h => ⟨h, nofun⟩
  | succ n ih =>
    intro m decl table h
    have hconverting : Frozen { table with converting := (m, decl.name) :: table.converting } := h
    obtain ⟨Q, hstart⟩ := standalone_paramScope hconverting decl.params
    obtain ⟨Q', hafter, hwithin⟩ := hstart.yields (yields_convertWith ih scope decl.body hstart.2)
    refine forall_declared_expandAt h rfl hafter.2.table ⟨hafter.frozen ?_, nofun⟩
    exact (Ty.within_writtenAs? (w := some ⟨m, decl.name, _⟩)).mpr hwithin

theorem thaws_expand (scope : ModuleScope) : Thaws (expand scope) :=
  thaws_expandAt scope _

theorem frozen_unionType (scope : ModuleScope) (m : Name) (decl : UnionDecl) {table : TypeTable}
    (h : table.Frozen) : (unionType scope m decl table).2.Frozen ∧ (unionType scope m decl table).1.Frozen := by
  obtain ⟨Q, hstart⟩ := standalone_paramScope h decl.params
  have hvariants := yields_mapM (V := fun Q (ts : List Ty) => ∀ t ∈ ts, t.Within Q)
    (f := fun variant : Variant => convertList scope (expand scope) false variant.args)
    (fun Q Q' ts hsub hts t ht => (hts t ht).mono hsub) decl.variants
    (fun variant c Q hc => yields_convertList (thaws_expand scope) scope variant.args hc) hstart.2
  obtain ⟨Q', hafter, hwithin⟩ := hstart.yields hvariants
  refine forall_declared_unionType h rfl hafter.2.table ⟨fun id hid => ?_, fun args hargs t ht => ?_⟩
  · simp [unionOf, DeclaredType.type, Ty.named, Ty.mentions, Ty.mem_mentionsList] at hid
  · exact hafter.frozen (hwithin args hargs t ht)

end TypeTable

theorem Conversion.yields_convert {c : Conversion} {Q : Set Mention} (scope : ModuleScope) (rigid : Bool)
    (t : TypeExpr) (hc : c.Within Q) :
    Yields c Q (Conversion.convert scope rigid t) (fun Q t => t.Within Q) :=
  yields_convertWith (TypeTable.thaws_expand scope) scope t hc

end ElmInference
