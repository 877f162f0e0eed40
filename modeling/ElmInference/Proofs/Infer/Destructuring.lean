import ElmInference.Proofs.Infer.Expressions
import ElmInference.Proofs.Infer.NodeTypes
import ElmInference.Proofs.Unify.RecordPatterns

/-!
# Destructured names

A destructuring finds types for its names twice. While it is inferred, its pattern binds each name to a type: that of the
part that the name stands for, or a fresh variable for the field of a record. When others ask for a name later, all that
is left are the types recorded for the nodes of the pattern, and the field is looked up in the record.

Both ways lead to the same type as long as everything is known. Every pattern that fits is recorded with the type of its
part. A record pattern that fits makes its record give the fields, so each of them is written out as its variable is,
unless the end of the record is unknown: such a record accepts the pattern and gains nothing, and is written out without
the field.
-/

namespace ElmInference

open Store

/-! ### Names that a result recalls -/

namespace Pattern

variable {s s' : Store} {log log' : List (NodeId × Ty)} {p : Pattern} {name : Name} {t : Ty}

/-- Where a pattern that was inferred got the type of one of its names from: it was recorded for the node that binds the
name, or the type that was recorded for a record pattern gives it. -/
inductive Binds (s : Store) (log : List (NodeId × Ty)) : Pattern → Name → Ty → Prop
  | var {id : NodeId} {pos : Nat} {name : Name} {t : Ty} :
      (id, t) ∈ log → Binds s log (.mk id pos (.var name)) name t
  | named {id : NodeId} {pos : Nat} {p : Pattern} {name : NameAt} {t : Ty} :
      (id, t) ∈ log → Binds s log (.mk id pos (.named p name)) name.name t
  | inner {id : NodeId} {pos : Nat} {p : Pattern} {other : NameAt} {name : Name} {t : Ty} :
      Binds s log p name t → Binds s log (.mk id pos (.named p other)) name t
  | field {id : NodeId} {pos : Nat} {fields : List NameAt} {e : Ty} {name : Name} {t : Ty} :
      (id, e) ∈ log → name ∈ fields.map NameAt.name → s.Gives e name t → Binds s log (.mk id pos (.record fields)) name t
  | item {id : NodeId} {pos : Nat} {items : List Pattern} {p : Pattern} {name : Name} {t : Ty} :
      p ∈ items → Binds s log p name t → Binds s log (.mk id pos (.tuple items)) name t
  | arg {id : NodeId} {pos : Nat} {constructor : Ref} {args : List Pattern} {p : Pattern} {name : Name} {t : Ty} :
      p ∈ args → Binds s log p name t → Binds s log (.mk id pos (.constructor constructor args)) name t

theorem Binds.later (h : Binds s log p name t) (hext : s.Extends s') (hsane : s'.Sane) (hlog : log ⊆ log') :
    Binds s' log' p name t := by
  induction h with
  | var hmem => exact .var (hlog hmem)
  | named hmem => exact .named (hlog hmem)
  | inner _ ih => exact .inner ih
  | field hmem hname hgives => exact .field (hlog hmem) hname (hgives.later hext hsane)
  | item hp _ ih => exact .item hp ih
  | arg hp _ ih => exact .arg hp ih

theorem mem_boundNamesList {ps : List Pattern} (hp : p ∈ ps) (hname : name ∈ p.boundNames.map NameAt.name) :
    name ∈ (boundNamesList ps).map NameAt.name := by
  obtain ⟨n, hn, rfl⟩ := List.mem_map.mp hname
  rw [boundNamesList_eq_flatMap]
  exact List.mem_map_of_mem (List.mem_flatMap_of_mem hp hn)

theorem Binds.mem_boundNames (h : Binds s log p name t) : name ∈ p.boundNames.map NameAt.name := by
  induction h with
  | var _ => exact List.mem_singleton_self _
  | named _ => simp [boundNames]
  | inner _ ih =>
    rw [boundNames, List.map_append]
    exact List.mem_append_left _ ih
  | field _ hname _ => exact hname
  | item hp _ ih => exact mem_boundNamesList hp ih
  | arg hp _ ih => exact mem_boundNamesList hp ih

end Pattern

namespace InferenceResult

variable {r : InferenceResult} {name : Name}

mutual

/-- A result tells nothing about names that a pattern does not bind. -/
theorem boundType?_of_notMem {p : Pattern} (h : name ∉ p.boundNames.map NameAt.name) : r.boundType? name p = none := by
  match p with
  | .mk id _ (.var other) =>
    rw [boundType?, if_neg]
    rintro rfl
    exact h (List.mem_singleton_self _)
  | .mk id _ (.record fields) =>
    have hnone : fields.any (·.name == name) = false := by
      refine List.any_eq_false.mpr fun field hfield heq => h ?_
      exact List.mem_map.mpr ⟨field, hfield, beq_iff_eq.mp heq⟩
    rw [boundType?, hnone]
    split <;> rfl
  | .mk id _ (.named pattern other) =>
    rw [Pattern.boundNames, List.map_append, List.mem_append, not_or] at h
    rw [boundType?, if_neg, boundType?_of_notMem h.1]
    rintro rfl
    exact h.2 (List.mem_singleton_self _)
  | .mk _ _ (.tuple items) | .mk _ _ (.list items) | .mk _ _ (.cons items) | .mk _ _ (.constructor _ items) =>
    rw [boundType?]
    exact boundTypeList?_of_notMem h
  | .mk _ _ .any | .mk _ _ .unit | .mk _ _ (.literal _) => rw [boundType?]

theorem boundTypeList?_of_notMem {ps : List Pattern} (h : name ∉ (Pattern.boundNamesList ps).map NameAt.name) :
    r.boundTypeList? name ps = none := by
  match ps with
  | [] => rw [boundTypeList?]
  | p :: ps =>
    rw [Pattern.boundNamesList, List.map_append, List.mem_append, not_or] at h
    rw [boundTypeList?, boundType?_of_notMem h.1]
    exact boundTypeList?_of_notMem h.2

end

/-- What a result tells about a name comes from the one pattern that binds it. -/
theorem boundTypeList?_of_mem {ps : List Pattern} {p : Pattern} (hnodup : ((Pattern.boundNamesList ps).map NameAt.name).Nodup)
    (hp : p ∈ ps) (hname : name ∈ p.boundNames.map NameAt.name) : r.boundTypeList? name ps = r.boundType? name p := by
  induction ps with
  | nil => cases hp
  | cons q rest ih =>
    rw [Pattern.boundNamesList, List.map_append, List.nodup_append'] at hnodup
    obtain ⟨-, hrest, hdisjoint⟩ := hnodup
    rw [boundTypeList?]
    rcases List.mem_cons.mp hp with rfl | hp
    · rw [boundTypeList?_of_notMem (hdisjoint hname)]
      cases r.boundType? name p <;> rfl
    · have hlater : name ∈ (Pattern.boundNamesList rest).map NameAt.name := Pattern.mem_boundNamesList hp hname
      rw [boundType?_of_notMem fun hmem => hdisjoint hmem hlater]
      exact ih hrest hp

end InferenceResult


namespace Pattern

variable {s : Store} {log : List (NodeId × Ty)} {p q : Pattern} {name : Name} {t : Ty}

/-- Whether a name is a field that a record pattern asks for and that is nowhere to be found: the type recorded for the
pattern lacks it, and ends in the unknown type. -/
def Misses (s : Store) (log : List (NodeId × Ty)) (p : Pattern) (name : Name) : Prop :=
  ∃ id pos fields e f, .pattern (.mk id pos (.record fields)) ∈ p.sites ∧ name ∈ fields.map NameAt.name ∧
    (id, e) ∈ log ∧ s.flatten e = .ok f ∧ f.tail = .unknown ∧ f.field? name = none

theorem Misses.of_subset (h : p.Misses s log name) (hsites : p.sites ⊆ q.sites) : q.Misses s log name := by
  obtain ⟨id, pos, fields, e, f, hsite, hrest⟩ := h
  exact ⟨id, pos, fields, e, f, hsites hsite, hrest⟩

theorem sites_subset_sitesList {ps : List Pattern} (hp : p ∈ ps) : p.sites ⊆ sitesList ps := by
  induction ps with
  | nil => cases hp
  | cons q rest ih =>
    rw [sitesList]
    rcases List.mem_cons.mp hp with rfl | hp
    · exact Multiset.subset_of_le (Multiset.le_add_right _ _)
    · exact Multiset.Subset.trans (ih hp) (Multiset.subset_of_le (Multiset.le_add_left _ _))

theorem sites_subset_of_kindSites {id : NodeId} {pos : Nat} {kind : PatternKind Pattern} (h : p.sites ⊆ kindSites kind) :
    p.sites ⊆ (Pattern.mk id pos kind).sites := by
  rw [sites]
  exact fun site hsite => Multiset.mem_cons_of_mem (h hsite)

end Pattern

/-- Whether a result has the type of a name, except for the alias that it is written with, or has none since the name is
missing. -/
def InferenceResult.Recalls (r : InferenceResult) (s : Store) (log : List (NodeId × Ty)) (p : Pattern) (name : Name)
    (t : Ty) : Prop :=
  (∃ z use, s.zonk t = .ok z ∧ r.boundType? name p = some (z.writtenAs? use)) ∨
    r.boundType? name p = none ∧ p.Misses s log name

namespace Pattern

variable {s : Store} {log : List (NodeId × Ty)} {p q : Pattern} {name : Name} {t : Ty} {r : InferenceResult}

theorem recalls_of_part (h : r.Recalls s log p name t) (hsites : p.sites ⊆ q.sites)
    (heq : r.boundType? name q = r.boundType? name p) : r.Recalls s log q name t := by
  rw [InferenceResult.Recalls, heq]
  exact h.imp_right fun ⟨hnone, hmisses⟩ => ⟨hnone, hmisses.of_subset hsites⟩

/-- A result that has the types recorded for the patterns, and in which nothing is unknown, remembers the names. -/
theorem Binds.recalls (h : Binds s log p name t) (hnodup : (p.boundNames.map NameAt.name).Nodup)
    (hreads : ∀ id e, (id, e) ∈ log → ∃ z, s.zonk e = .ok z ∧ r.typeOf? id = some z ∧ .hole ∉ z.mentions false) :
    r.Recalls s log p name t := by
  induction h with
  | var hmem =>
    obtain ⟨z, hz, htype, -⟩ := hreads _ _ hmem
    exact .inl ⟨z, none, hz, by rw [InferenceResult.boundType?, if_pos rfl, htype]; rfl⟩
  | named hmem =>
    obtain ⟨z, hz, htype, -⟩ := hreads _ _ hmem
    exact .inl ⟨z, none, hz, by rw [InferenceResult.boundType?, if_pos rfl, htype]; rfl⟩
  | @inner id pos p other name t h ih =>
    rw [boundNames, List.map_append, List.nodup_append'] at hnodup
    obtain ⟨hp, -, hdisjoint⟩ := hnodup
    refine recalls_of_part (ih hp) (sites_subset_of_kindSites (Multiset.Subset.refl _)) ?_
    rw [InferenceResult.boundType?, if_neg]
    rintro rfl
    exact hdisjoint h.mem_boundNames (List.mem_singleton_self _)
  | @field id pos fields e name t hmem hname hgives =>
    obtain ⟨z, hz, htype, hhole⟩ := hreads _ _ hmem
    have hany : fields.any (·.name == name) = true := by
      obtain ⟨field, hfield, heq⟩ := List.mem_map.mp hname
      exact List.any_eq_true.mpr ⟨field, hfield, beq_iff_eq.mpr heq⟩
    obtain ⟨inner, base, use, refs, rfl, hread⟩ := hgives.reads hz hhole
    have hbound : r.boundType? name (.mk id pos (.record fields)) = Assoc.get? inner name := by
      rw [InferenceResult.boundType?, htype]
      dsimp only
      rw [if_pos hany]
    rw [InferenceResult.Recalls, hbound]
    refine hread.imp (fun ⟨y, use, hy, hget⟩ => ⟨y, use, hy, hget⟩) fun ⟨hnone, f, hf, htail, hfield⟩ => ⟨hnone, ?_⟩
    refine ⟨id, pos, fields, e, f, ?_, hname, hmem, hf, htail, hfield⟩
    rw [sites]
    exact Multiset.mem_cons_self _ _
  | item hp h ih | arg hp h ih =>
    refine recalls_of_part (ih (hnodup.sublist ?_)) (sites_subset_of_kindSites (sites_subset_sitesList hp)) ?_
    · rw [boundNames, boundNamesList_eq_flatMap, List.flatMap_def]
      exact (List.sublist_flatten_of_mem (List.mem_map_of_mem hp)).map _
    · rw [InferenceResult.boundType?]
      exact InferenceResult.boundTypeList?_of_mem hnodup hp h.mem_boundNames

end Pattern


/-! ### Patterns that fit -/

/-- How a state goes on while no problem is found. -/
structure Work.Proceeds (w : Work) (Q : Set Mention) (w' : Work) (Q' : Set Mention) : Prop where
  moves : Moves (w.pass.store, Q) (w'.pass.store, Q')
  orderly : w'.Orderly Q'
  recorded : w.pass.nodeTypes ⊆ w'.pass.nodeTypes

namespace Work.Proceeds

variable {w w₁ w' : Work} {Q Q₁ Q' : Set Mention}

theorem trans (h : w.Proceeds Q w₁ Q₁) (h' : w₁.Proceeds Q₁ w' Q') : w.Proceeds Q w' Q' :=
  ⟨h.moves.trans h'.moves, h'.orderly, List.Subset.trans h.recorded h'.recorded⟩

theorem of_moves {s : Store} (hw : w.Orderly Q) (hmoves : Moves (w.pass.store, Q) (s, Q')) :
    w.Proceeds Q (w.withStore s) Q' :=
  ⟨hmoves, InferM.Work.Orderly.withStore hw hmoves.advances, List.Subset.refl _⟩

theorem subset (h : w.Proceeds Q w' Q') : Q ⊆ Q' :=
  h.moves.subset

theorem binds {p : Pattern} {name : Name} {t : Ty} (h : w.Proceeds Q w' Q')
    (hbinds : p.Binds w.pass.store w.pass.nodeTypes name t) : p.Binds w'.pass.store w'.pass.nodeTypes name t :=
  hbinds.later h.moves.extends h.orderly.store.tidy.sane h.recorded

end Work.Proceeds

namespace InferM

variable {α : Type} {context : Context} {w w₁ w' : Work} {Q : Set Mention} {pos : Nat} {t u : Ty}

/-- A pass without problems had none before. -/
theorem silent_before {x : InferM α} {a : α} (hx : Growing context x) (hrun : x context w = (.ok a, w'))
    (hsilent : w'.pass.problems = []) : w.pass.problems = [] :=
  List.prefix_nil.mp (hsilent ▸ (hx _ _ _ hrun).problems)

theorem not_silent_of_report {kind : ProblemKind} {x : InferM α} {a : α} (hx : Contained True True x)
    (hrun : (do report pos kind; x) context w = (.ok a, w')) : w'.pass.problems ≠ [] := by
  obtain ⟨_, w₁, hreport, hrun⟩ := run_bind_inv hrun
  cases hreport
  intro hsilent
  have hnil := silent_before hx.growing hrun hsilent
  simp at hnil

/-- A pattern without problems is unified with the type that it takes apart. -/
theorem run_checkPattern_inv {fits : Bool} (hrun : checkPattern pos t u context w = (.ok fits, w'))
    (hsilent : w'.pass.problems = []) :
    fits = true ∧ ∃ s, StoreM.unify t u w.pass.store = .ok (.ok (), s) ∧ w' = w.withStore s := by
  have hreport : ∀ (kind : ProblemKind) w₁, (do report pos kind; return false : InferM Bool) context w₁ ≠ (.ok fits, w') :=
    fun kind w₁ hrun => not_silent_of_report (.pure false) hrun hsilent
  have hrest : ∀ diff w₁, (do
      let patternType ← zonk t
      let required ← zonk u
      report pos (.invalidPattern patternType required diff)
      return false : InferM Bool) context w₁ ≠ (.ok fits, w') := by
    intro diff w₁ hrun
    obtain ⟨_, _, -, hrun⟩ := run_bind_inv hrun
    obtain ⟨_, _, -, hrun⟩ := run_bind_inv hrun
    exact hreport _ _ hrun
  obtain ⟨o, w₁, hunify, hrun⟩ := run_bind_inv hrun
  obtain ⟨s, hsolved, rfl⟩ := run_store_inv hunify
  rcases o with e | ⟨⟩
  · cases e with
    | infiniteType => exact absurd hrun (hreport _ _)
    | mismatch => exact absurd hrun (hrest _ _)
    | record diff =>
      obtain ⟨_, _, -, hrun⟩ := run_bind_inv hrun
      exact absurd hrun (hrest _ _)
  · cases hrun
    exact ⟨rfl, s, hsolved, rfl⟩

theorem proceeds_checkPattern {fits : Bool} (hw : w.Orderly Q) (ht : t.Within Q) (hu : u.Within Q)
    (hrun : checkPattern pos t u context w = (.ok fits, w')) (hsilent : w'.pass.problems = []) :
    fits = true ∧ ∃ Q', w.Proceeds Q w' Q' := by
  obtain ⟨rfl, s, hunify, rfl⟩ := run_checkPattern_inv hrun hsilent
  have hlands := StoreM.safe_unify w.pass.store t u Q hw.store.tidy ht hu
  rw [hunify] at hlands
  obtain ⟨Q', hmoves⟩ := hlands
  exact ⟨rfl, Q', .of_moves hw hmoves⟩

theorem proceeds_freshVar {name : Name} (hw : w.Orderly Q) (hrun : freshVar name context w = (.ok t, w')) :
    ∃ Q', w.Proceeds Q w' Q' ∧ t.Within Q' := by
  rw [run_freshVar] at hrun
  cases hrun
  exact ⟨_, .of_moves hw (mints_fresh w.pass.store Q name false).moves, Ty.within_var.mpr (Set.mem_insert _ _)⟩

theorem proceeds_freshVars {name : Name} {xs : List α} {types : List Ty} (hw : w.Orderly Q)
    (hrun : freshVars name xs context w = (.ok types, w')) : ∃ Q', w.Proceeds Q w' Q' ∧ ∀ t ∈ types, t.Within Q' := by
  induction xs generalizing w Q types with
  | nil =>
    cases hrun
    exact ⟨Q, ⟨.refl, hw, List.Subset.refl _⟩, nofun⟩
  | cons x xs ih =>
    rw [freshVars, List.mapM_cons] at hrun
    obtain ⟨t, w₁, hfirst, hrun⟩ := run_bind_inv hrun
    obtain ⟨rest, w₂, hrest, hrun⟩ := run_bind_inv hrun
    cases hrun
    obtain ⟨Q₁, hproceeds, ht⟩ := proceeds_freshVar hw hfirst
    obtain ⟨Q₂, hproceeds', htypes⟩ := ih hproceeds.orderly hrest
    exact ⟨Q₂, hproceeds.trans hproceeds', List.forall_mem_cons.mpr ⟨ht.mono hproceeds'.subset, htypes⟩⟩

theorem proceeds_allocate {work : Store → α × Store} {V : Set Mention → α → Prop} {a : α} (hw : w.Orderly Q)
    (h : ∃ Q', Mints (w.pass.store, Q) ((work w.pass.store).2, Q') ∧ V Q' (work w.pass.store).1)
    (hrun : allocate work context w = (.ok a, w')) : ∃ Q', w.Proceeds Q w' Q' ∧ V Q' a := by
  rw [run_allocate] at hrun
  cases hrun
  obtain ⟨Q', hmints, ha⟩ := h
  exact ⟨Q', .of_moves hw hmints.moves, ha⟩

theorem proceeds_session {x : SessionM α} {P : α → Prop} {a : α} (h : SessionM.Behaves context.engine x P)
    (hw : w.Orderly Q) (hrun : session x context w = (.ok a, w')) : w.Proceeds Q w' Q ∧ P a := by
  obtain ⟨session', hx, rfl⟩ := run_session_inv hrun
  obtain ⟨hfrozen, ha⟩ := h _ _ _ hw.session hx
  exact ⟨⟨.refl, ⟨hw.store, hw.pass, hfrozen⟩, List.Subset.refl _⟩, ha⟩

theorem proceeds_constructorTypes (hscope : context.engine.scope.Frozen) {name : Ref} {found : Option (List Ty × Ty)}
    (hw : w.Orderly Q) (hrun : constructorTypes name context w = (.ok found, w')) :
    ∃ Q', w.Proceeds Q w' Q' ∧ ConstructorAtHand Q' found := by
  obtain ⟨targets, w₁, htargets, hrun⟩ := run_bind_inv hrun
  obtain ⟨hproceeds₁, heq⟩ := proceeds_session (SessionM.behaves_findValues name) hw htargets
  have hw₁ := hproceeds₁.orderly
  split at hrun
  · obtain ⟨_, _, hengine, hrun⟩ := run_bind_inv hrun
    cases hengine
    obtain ⟨d, w₂, hunion, hrun⟩ := run_bind_inv hrun
    obtain ⟨hproceeds₂, hd⟩ := proceeds_session (SessionM.behaves_withTypes fun _ htable =>
      TypeTable.frozen_unionType context.engine.scope _ _ htable) hw₁ hunion
    have hplain : ∀ r, r.node? = none → r ∈ Q := hproceeds₂.orderly.store.plain
    obtain ⟨Q', hproceeds', hfound⟩ := proceeds_allocate (V := ConstructorAtHand) hproceeds₂.orderly
      (hd.variant? _ _ hplain) hrun
    exact ⟨Q', (hproceeds₁.trans hproceeds₂).trans hproceeds', hfound⟩
  · have hfrozen := hscope.external (r := name) (by rw [← heq]; exact List.mem_singleton_self _)
    obtain ⟨t, w₂, hinstantiate, hrun⟩ := run_bind_inv hrun
    obtain ⟨Q', hproceeds', ht⟩ := proceeds_allocate (V := AtHand) hw₁
      ((Scheme.within_closed hfrozen hw₁.store.plain).instantiate _) hinstantiate
    refine ⟨Q', ?_, ?_⟩
    · split at hrun <;>
      · cases hrun
        exact hproceeds₁.trans hproceeds'
    · split at hrun
      · cases hrun
        intro args u heq
        cases heq
        exact Ty.within_arrow.mp ht
      · cases hrun
        intro args u heq
        cases heq
        exact ⟨fun _ hu => absurd hu List.not_mem_nil, ht⟩
  · cases hrun
    refine ⟨Q, hproceeds₁, fun args u heq => ?_⟩
    cases heq

/-! ### Record patterns -/

/-- Fresh variables are different, and nobody knows them. -/
theorem asides_freshVars {name : Name} {xs : List α} {types : List Ty} (htidy : Tidy (w.pass.store, Q))
    (hrun : freshVars name xs context w = (.ok types, w')) :
    Tidy (w'.pass.store, Q) ∧ (∀ v, Aside (w.pass.store, Q) v → Aside (w'.pass.store, Q) v) ∧
      (∀ t ∈ types, ∃ v, t = .var v ∧ Aside (w'.pass.store, Q) v ∧ w.pass.store.size ≤ v.id) ∧
      types.Pairwise StoreM.Apart := by
  induction xs generalizing w types with
  | nil =>
    cases hrun
    exact ⟨htidy, fun _ hv => hv, nofun, .nil⟩
  | cons x xs ih =>
    rw [freshVars, List.mapM_cons] at hrun
    obtain ⟨t, w₁, hfirst, hrun⟩ := run_bind_inv hrun
    obtain ⟨rest, w₂, hrest, hrun⟩ := run_bind_inv hrun
    cases hrun
    rw [run_freshVar] at hfirst
    cases hfirst
    obtain ⟨htidy', hkept, hnew, hapart⟩ := ih (w := w.withStore w.pass.store.extended) htidy.extended hrest
    have hsize : w.pass.store.extended.size = w.pass.store.size + 1 := size_extended _
    refine ⟨htidy', fun v hv => hkept v hv.extended, fun u hu => ?_, List.pairwise_cons.mpr ⟨fun u hu v v' hv hv' => ?_, hapart⟩⟩
    · rcases List.mem_cons.mp hu with rfl | hu
      · exact ⟨_, rfl, hkept _ (htidy.aside_extended name false), Nat.le_refl _⟩
      · obtain ⟨v, rfl, haside, hle⟩ := hnew u hu
        rw [Work.store_withStore] at hle
        exact ⟨v, rfl, haside, by omega⟩
    · obtain ⟨v'', rfl, -, hle⟩ := hnew u hu
      rw [Work.store_withStore] at hle
      cases hv
      cases hv'
      have hlt : w.pass.store.size < v'.id := by omega
      exact Nat.ne_of_lt hlt

theorem blank_of_run {fields : List NameAt} {types : List Ty} {base : Ty} (htidy : Tidy (w.pass.store, Q))
    (hnodup : (fields.map NameAt.name).Nodup) (hfields : freshVars "a" fields context w = (.ok types, w₁))
    (hbase : freshVar "b" context w₁ = (.ok base, w')) :
    ∃ b, base = .var b ∧ w'.pass.store.Unsolved b.id ∧ Tidy (w'.pass.store, Q) ∧
      Blank (w'.pass.store, Q) ((fields.map NameAt.name).zip types) := by
  have hlength := length_freshVars hfields
  obtain ⟨htidy₁, -, hnew, hapart⟩ := asides_freshVars htidy hfields
  rw [run_freshVar] at hbase
  cases hbase
  refine ⟨_, rfl, unsolved_extended_self _, htidy₁.extended, ?_, fun field hfield => ?_, ?_⟩
  · rw [List.map_fst_zip (by rw [List.length_map, hlength])]
    exact hnodup
  · obtain ⟨v, hv, haside, -⟩ := hnew field.2 (List.of_mem_zip hfield).2
    exact ⟨v, hv, haside.extended⟩
  · have hsnd : ((fields.map NameAt.name).zip types).map Prod.snd = types :=
      List.map_snd_zip (by rw [List.length_map, hlength])
    rw [← hsnd] at hapart
    exact List.pairwise_map.mp hapart

/-- A record pattern that fits takes its fields from the type that it takes apart. -/
theorem gives_of_checkPattern {fields : List NameAt} {types : List Ty} {base : Ty} {refs : FieldReferences} {fits : Bool}
    {w₂ : Work} (htidy : Tidy (w.pass.store, Q)) (ht : t.Within Q) (hnodup : (fields.map NameAt.name).Nodup)
    (hfields : freshVars "a" fields context w = (.ok types, w₁)) (hbase : freshVar "b" context w₁ = (.ok base, w₂))
    (hcheck : checkPattern pos (.recordWith ((fields.map NameAt.name).zip types) (some base) refs) t context w₂ =
      (.ok fits, w')) (hsilent : w'.pass.problems = []) {name : NameAt} {u : Ty} (hentry : (name, u) ∈ fields.zip types) :
    w'.pass.store.Gives t name.name u := by
  obtain ⟨b, rfl, hb, htidy₂, hblank⟩ := blank_of_run htidy hnodup hfields hbase
  obtain ⟨-, s, hunify, rfl⟩ := run_checkPattern_inv hcheck hsilent
  have hfield : (name.name, u) ∈ (fields.map NameAt.name).zip types := by
    rw [List.zip_map_left]
    exact List.mem_map.mpr ⟨(name, u), hentry, rfl⟩
  exact StoreM.gives_of_unify htidy₂ ht hblank hb hunify hfield

/-! ### Patterns of declarations -/

theorem proceeds_record (id : NodeId) (t : Ty) (hw : w.Orderly Q) :
    w.Proceeds Q { w with pass := { w.pass with nodeTypes := (id, t) :: w.pass.nodeTypes } } Q :=
  ⟨.refl, ⟨hw.store, ⟨hw.pass.bindings, hw.pass.typeVars⟩, hw.session⟩, List.subset_cons_self _ _⟩

mutual

/-- A pattern of a declaration that finds no problem binds its names. -/
theorem proceeds_inferPattern (hscope : context.engine.scope.Frozen) (p : Pattern) {t : Ty} {w w' : Work} {bound : Bound}
    {Q : Set Mention} (hw : w.Orderly Q) (ht : t.Within Q) (hnodup : (p.boundNames.map NameAt.name).Nodup)
    (hrun : inferPattern .declaration p t context w = (.ok bound, w')) (hsilent : w'.pass.problems = []) :
    ∃ Q', w.Proceeds Q w' Q' ∧
      ∀ entry ∈ bound, p.Binds w'.pass.store w'.pass.nodeTypes entry.1.name entry.2 := by
  match p with
  | .mk id pos .any =>
    rw [inferPattern] at hrun
    cases hrun
    exact ⟨Q, proceeds_record id t hw, nofun⟩
  | .mk id pos (.var name) =>
    rw [inferPattern] at hrun
    cases hrun
    exact ⟨Q, proceeds_record id t hw, List.forall_mem_singleton.mpr (.var List.mem_cons_self)⟩
  | .mk id pos .unit =>
    rw [inferPattern] at hrun
    obtain ⟨fits, w₁, hcheck, hrun⟩ := run_bind_inv hrun
    cases hrun
    obtain ⟨-, Q₁, hproceeds⟩ := proceeds_checkPattern hw (by simp [Ty.Within, Ty.mentions]) ht hcheck hsilent
    exact ⟨Q₁, hproceeds.trans (proceeds_record id t hproceeds.orderly), nofun⟩
  | .mk id pos (.literal kind) =>
    rw [inferPattern] at hrun
    refine absurd hsilent (not_silent_of_report ?_ hrun)
    refine (contained_literalType kind).bind fun u => (contained_checkPattern pos u t).bind fun _ => ?_
    exact contained_recorded id t []
  | .mk id pos (.list items) | .mk id pos (.cons items) =>
    rw [inferPattern] at hrun
    refine absurd hsilent (not_silent_of_report ?_ hrun)
    refine (contained_freshVar "a").bind fun item => (contained_checkPattern pos (.list item) t).bind fun _ => ?_
    exact (contained_inferPatterns .declaration items _).bind fun bound => contained_recorded id t bound
  | .mk id pos (.tuple items) =>
    rw [inferPattern] at hrun
    obtain ⟨types, w₁, hfields, hrun⟩ := run_bind_inv hrun
    obtain ⟨fits, w₂, hcheck, hrun⟩ := run_bind_inv hrun
    obtain ⟨inner, w₃, hitems, hrun⟩ := run_bind_inv hrun
    cases hrun
    have hsilent₂ := silent_before (contained_inferPatterns .declaration items _).growing hitems hsilent
    obtain ⟨Q₁, hproceeds₁, htypes⟩ := proceeds_freshVars hw hfields
    obtain ⟨-, Q₂, hproceeds₂⟩ := proceeds_checkPattern hproceeds₁.orderly (Ty.within_tuple.mpr htypes)
      (ht.mono hproceeds₁.subset) hcheck hsilent₂
    obtain ⟨Q₃, hproceeds₃, hbinds⟩ := proceeds_inferPatterns hscope items hproceeds₂.orderly
      (forall_ifFits fits fun u hu => (htypes u hu).mono hproceeds₂.subset) hnodup hitems hsilent
    have hlast := proceeds_record id t hproceeds₃.orderly
    refine ⟨Q₃, ((hproceeds₁.trans hproceeds₂).trans hproceeds₃).trans hlast, fun entry hentry => ?_⟩
    obtain ⟨p, hp, hb⟩ := hbinds entry hentry
    exact .item hp (hlast.binds hb)
  | .mk id pos (.record fields) =>
    rw [inferPattern] at hrun
    obtain ⟨types, w₁, hfields, hrun⟩ := run_bind_inv hrun
    obtain ⟨base, w₂, hbase, hrun⟩ := run_bind_inv hrun
    obtain ⟨fits, w₃, hcheck, hrun⟩ := run_bind_inv hrun
    cases hrun
    obtain ⟨Q₁, hproceeds₁, htypes⟩ := proceeds_freshVars hw hfields
    obtain ⟨Q₂, hproceeds₂, hbase'⟩ := proceeds_freshVar hproceeds₁.orderly hbase
    have hrecord : (Ty.recordWith ((fields.map NameAt.name).zip types) (some base)
        (fields.foldl (fun refs field => refs.add field.name field.pos) FieldReferences.empty)).Within Q₂ := by
      refine Ty.within_recordWith (fun field hfield => ⟨hproceeds₂.orderly.store.plain _ rfl, ?_⟩) fun b hb => ?_
      · exact (htypes _ (List.of_mem_zip hfield).2).mono hproceeds₂.subset
      · cases hb
        exact hbase'
    obtain ⟨rfl, Q₃, hproceeds₃⟩ := proceeds_checkPattern hproceeds₂.orderly hrecord
      (ht.mono (hproceeds₁.trans hproceeds₂).subset) hcheck hsilent
    have hlast := proceeds_record id t hproceeds₃.orderly
    refine ⟨Q₃, ((hproceeds₁.trans hproceeds₂).trans hproceeds₃).trans hlast, fun entry hentry => ?_⟩
    refine .field List.mem_cons_self (List.mem_map_of_mem (List.of_mem_zip hentry).1) ?_
    exact gives_of_checkPattern hw.store.tidy ht hnodup hfields hbase hcheck hsilent hentry
  | .mk id pos (.constructor name args) =>
    rw [inferPattern] at hrun
    -- what is left once the types of the arguments are known
    have hrest : ∀ {w₁ : Work} {Q₁ : Set Mention} {types : List Ty}, w.Proceeds Q w₁ Q₁ → (∀ u ∈ types, u.Within Q₁) → (do
        let bound ← inferPatterns .declaration args types
        record id t
        return bound : InferM Bound) context w₁ = (.ok bound, w') → ∃ Q', w.Proceeds Q w' Q' ∧
          ∀ entry ∈ bound, Pattern.Binds w'.pass.store w'.pass.nodeTypes (.mk id pos (.constructor name args)) entry.1.name
            entry.2 := by
      intro w₁ Q₁ types hproceeds₁ htypes hrun
      obtain ⟨inner, w₂, hargs, hrun⟩ := run_bind_inv hrun
      cases hrun
      obtain ⟨Q₂, hproceeds₂, hbinds⟩ := proceeds_inferPatterns hscope args hproceeds₁.orderly htypes hnodup hargs hsilent
      have hlast := proceeds_record id t hproceeds₂.orderly
      refine ⟨Q₂, (hproceeds₁.trans hproceeds₂).trans hlast, fun entry hentry => ?_⟩
      obtain ⟨p, hp, hb⟩ := hbinds entry hentry
      exact .arg hp (hlast.binds hb)
    have hcontained : ∀ types, Contained True True (do
        let bound ← inferPatterns .declaration args types
        record id t
        return bound : InferM Bound) := fun types =>
      (contained_inferPatterns .declaration args types).bind fun bound => contained_recorded id t bound
    obtain ⟨found, w₁, hfound, hrun⟩ := run_bind_inv hrun
    obtain ⟨Q₁, hproceeds₁, htypes⟩ := proceeds_constructorTypes hscope hw hfound
    split at hrun
    · exact hrest hproceeds₁ (fun _ hu => absurd hu List.not_mem_nil) hrun
    · next params u =>
      obtain ⟨hparams, hu⟩ := htypes params u rfl
      split at hrun
      · exact absurd hsilent (not_silent_of_report (hcontained _) hrun)
      · obtain ⟨fits, w₂, hcheck, hrun⟩ := run_bind_inv hrun
        obtain ⟨-, Q₂, hproceeds₂⟩ := proceeds_checkPattern hproceeds₁.orderly hu (ht.mono hproceeds₁.subset) hcheck
          (silent_before (hcontained _).growing hrun hsilent)
        exact hrest (hproceeds₁.trans hproceeds₂) (forall_ifFits fits fun v hv => (hparams v hv).mono hproceeds₂.subset) hrun
  | .mk id pos (.named pattern name) =>
    rw [Pattern.boundNames, List.map_append, List.nodup_append'] at hnodup
    rw [inferPattern] at hrun
    obtain ⟨inner, w₁, hinner, hrun⟩ := run_bind_inv hrun
    cases hrun
    obtain ⟨Q₁, hproceeds₁, hbinds⟩ := proceeds_inferPattern hscope pattern hw ht hnodup.1 hinner hsilent
    have hlast := proceeds_record id t hproceeds₁.orderly
    refine ⟨Q₁, hproceeds₁.trans hlast, fun entry hentry => ?_⟩
    rcases List.mem_append.mp hentry with hentry | hentry
    · exact .inner (hlast.binds (hbinds entry hentry))
    · rw [List.mem_singleton.mp hentry]
      exact .named List.mem_cons_self

theorem proceeds_inferPatterns (hscope : context.engine.scope.Frozen) (ps : List Pattern) {types : List Ty} {w w' : Work}
    {bound : Bound} {Q : Set Mention} (hw : w.Orderly Q) (htypes : ∀ t ∈ types, t.Within Q)
    (hnodup : ((Pattern.boundNamesList ps).map NameAt.name).Nodup)
    (hrun : inferPatterns .declaration ps types context w = (.ok bound, w')) (hsilent : w'.pass.problems = []) :
    ∃ Q', w.Proceeds Q w' Q' ∧
      ∀ entry ∈ bound, ∃ p ∈ ps, p.Binds w'.pass.store w'.pass.nodeTypes entry.1.name entry.2 := by
  match ps with
  | [] =>
    rw [inferPatterns] at hrun
    cases hrun
    exact ⟨Q, ⟨.refl, hw, List.Subset.refl _⟩, nofun⟩
  | p :: ps =>
    rw [Pattern.boundNamesList, List.map_append, List.nodup_append'] at hnodup
    rw [inferPatterns] at hrun
    obtain ⟨first, w₁, hfirst, hrun⟩ := run_bind_inv hrun
    obtain ⟨rest, w₂, hrest, hrun⟩ := run_bind_inv hrun
    cases hrun
    have hhead : (types.head?.getD .unknown).Within Q := by
      cases types with
      | nil => exact Ty.within_unknown hw.store.plain
      | cons t types => exact htypes t List.mem_cons_self
    have hsilent₁ := silent_before (contained_inferPatterns .declaration ps _).growing hrest hsilent
    obtain ⟨Q₁, hproceeds₁, hbinds⟩ := proceeds_inferPattern hscope p hw hhead hnodup.1 hfirst hsilent₁
    obtain ⟨Q₂, hproceeds₂, hbinds'⟩ := proceeds_inferPatterns hscope ps hproceeds₁.orderly
      (fun t ht => (htypes t (List.mem_of_mem_tail ht)).mono hproceeds₁.subset) hnodup.2.1 hrest hsilent
    refine ⟨Q₂, hproceeds₁.trans hproceeds₂, fun entry hentry => ?_⟩
    rcases List.mem_append.mp hentry with hentry | hentry
    · exact ⟨p, List.mem_cons_self, hproceeds₂.binds (hbinds entry hentry)⟩
    · obtain ⟨q, hq, hb⟩ := hbinds' entry hentry
      exact ⟨q, List.mem_cons_of_mem _ hq, hb⟩

end

/-! ### Results of destructurings -/

def storeAndNodes (pass : Pass) : Store × List (NodeId × Ty) :=
  (pass.store, pass.nodeTypes)

theorem keeps_declare (taken : List Name) (name : NameAt) : Keeps context storeAndNodes (declare taken name) := by
  have hrest : ∀ hidden, Keeps context storeAndNodes (do
      if taken.contains name.name || hidden then report name.pos .conflictingName
      return name.name :: taken : InferM (List Name)) := by
    intro hidden
    split
    · exact Keeps.bind (keeps_modifyPass fun _ => rfl) fun _ => keeps_pure _
    · exact keeps_pure _
  have hshadows : Keeps context storeAndNodes (shadows name.name) := by
    refine Keeps.bind (keeps_of_unchanged fun _ => rfl) fun pass => ?_
    split
    · exact keeps_pure _
    · exact (keeps_session _).bind fun targets => Keeps.bind (keeps_of_unchanged fun _ => rfl) fun _ => keeps_pure _
  refine Keeps.bind (keeps_of_unchanged fun _ => rfl) fun engine => ?_
  split
  · exact hrest _
  · exact hshadows.bind hrest

theorem keeps_bindAll (taken : List Name) (bound : Bound) : Keeps context storeAndNodes (bindAll taken bound) := by
  induction bound generalizing taken with
  | nil => exact keeps_pure _
  | cons entry rest ih =>
    refine (keeps_declare taken entry.1).bind fun taken => Keeps.bind ?_ fun _ => ih taken
    rw [InferM.bind, modifyScope]
    refine keeps_modifyPass fun pass => ?_
    split <;> rfl

theorem growing_bindAll (taken : List Name) (bound : Bound) : Growing context (bindAll taken bound) := by
  induction bound generalizing taken with
  | nil => exact growing_pure _
  | cons entry rest ih =>
    have hdeclare : Contained True True (declare taken entry.1) := contained_declare taken entry.1
    refine hdeclare.growing.bind fun taken => Growing.bind ?_ fun _ => ih taken
    rw [InferM.bind, modifyScope]
    refine growing_modifyPass fun pass => ?_
    split
    · exact .refl _
    · exact ⟨List.prefix_rfl, id, List.Subset.refl _⟩

/-- The inference of a destructuring infers the body and then the pattern. What follows neither changes the store nor
records anything. -/
theorem run_inferDeclaration_pattern_inv {inferBody : Expr → InferM Ty} {d : ValueDecl} {p : Pattern} {inferred : Inferred}
    (hhead : d.head = .pattern p) (hrun : inferDeclaration inferBody d context w = (.ok (.ok inferred), w')) :
    ∃ t w₁ bound w₂, inferBody d.body context { w with pass := { w.pass with scopes := [] :: w.pass.scopes } } = (.ok t, w₁) ∧
      inferPattern .declaration p t context w₁ = (.ok bound, w₂) ∧ storeAndNodes w'.pass = storeAndNodes w₂.pass ∧
        w₂.pass.problems <+: w'.pass.problems := by
  obtain ⟨pos, signature, head, body⟩ := d
  obtain rfl : head = .pattern p := hhead
  obtain ⟨_, w₄, htop, hrun⟩ := run_bind_inv hrun
  obtain ⟨_, w₁, henter, htop⟩ := run_bind_inv htop
  cases henter
  obtain ⟨⟨t, bound⟩, w₂, hdestructuring, htop⟩ := run_bind_inv htop
  obtain ⟨_, w₁, hbody, hdestructuring⟩ := run_bind_inv hdestructuring
  obtain ⟨_, _, hpattern, hdestructuring⟩ := run_bind_inv hdestructuring
  cases hdestructuring
  obtain ⟨_, w₃, hbind, htop⟩ := run_bind_inv htop
  obtain ⟨_, _, hleave, htop⟩ := run_bind_inv htop
  cases hleave
  cases htop
  obtain ⟨_, _, hpass, hrun⟩ := run_bind_inv hrun
  cases hpass
  split at hrun
  · cases hrun
  · obtain ⟨out, w₅, hfinish, hrun⟩ := run_bind_inv hrun
    obtain ⟨rfl, -⟩ := freezes_finish hfinish
    cases hrun
    have hkept := keeps_bindAll [] bound _ _ _ hbind
    exact ⟨_, w₁, bound, w₂, hbody, hpattern, hkept, (growing_bindAll [] bound _ _ _ hbind).problems⟩

/-- A pattern binds its names in source order, whatever it is checked against. A destructuring that is inferred without
problems, whose nodes and names are different ones, and in whose recorded types nothing is unknown, remembers the types
that its pattern bound to the names. -/
theorem destructurings_recall_their_names :
    (∀ (place : PatternPlace) (p : Pattern) (t : Ty) (context : Context) (w w' : Work) (bound : Bound),
      inferPattern place p t context w = (.ok bound, w') → bound.map Prod.fst = p.boundNames) ∧
    ∀ (engine : Engine) (i n : Nat) (s : Session) (d : ValueDecl) (p : Pattern) (result : InferenceResult)
      (notes : List Name) (w : Work), engine.scope.Frozen → s.Frozen → d.head = .pattern p →
      (d.nodeIds fun _ => false).Nodup → (p.boundNames.map NameAt.name).Nodup →
      inferDeclaration (exprAt n) d ⟨engine, i⟩ ⟨s, {}⟩ = (.ok (.ok (result, notes)), w) → result.problems = [] →
      (∀ entry ∈ result.nodeTypes, .hole ∉ entry.2.mentions false) →
      ∃ t w₁ bound w₂, exprAt n d.body ⟨engine, i⟩ ⟨s, { scopes := [[]] }⟩ = (.ok t, w₁) ∧
        inferPattern .declaration p t ⟨engine, i⟩ w₁ = (.ok bound, w₂) ∧
          ∀ entry ∈ bound, result.Recalls w.pass.store w.pass.nodeTypes p entry.1.name entry.2 := by
  refine ⟨fun place p t context w w' bound hrun => map_fst_inferPattern place p hrun, ?_⟩
  intro engine i n s d p result notes w hscope hs hhead hids hnames hrun hsilent hknown
  obtain ⟨hcovers, u, hfreezes⟩ := covers_inferDeclaration (turns_exprAt n) hrun (fun _ : True => hsilent)
    fun site _ => apart_of_quiet site
  obtain ⟨t, w₁, bound, w₂, hbody, hpattern, hkept, hproblems⟩ := run_inferDeclaration_pattern_inv hhead hrun
  obtain ⟨hstore, hnodes⟩ := Prod.mk.inj hkept
  refine ⟨t, w₁, bound, w₂, hbody, hpattern, fun entry hentry => ?_⟩
  have hw : Work.Orderly ⟨s, { scopes := [[]] }⟩ {r | r.node? = none} := by
    refine ⟨orderly_empty, ⟨fun scope hscope entry hentry => ?_, fun _ h => by cases h⟩, hs⟩
    rw [List.mem_singleton.mp hscope] at hentry
    cases hentry
  obtain ⟨Q₁, -, hw₁, ht⟩ := behaves_exprAt n hscope _ d.body _ _ _ hw hbody
  have hsilent₂ : w₂.pass.problems = [] := List.prefix_nil.mp (hfreezes.silent hsilent ▸ hproblems)
  obtain ⟨Q₂, -, hbinds⟩ := proceeds_inferPattern hscope p hw₁ ht hnames hpattern hsilent₂
  have hnodup := nodup_keys_of_covers hcovers hids
  rw [hstore, hnodes]
  refine (hbinds entry hentry).recalls hnames fun id e hmem => ?_
  obtain ⟨z, hz, htype, hz'⟩ := hfreezes.exists_typeOf? hnodup (hnodes ▸ hmem)
  exact ⟨z, hstore ▸ hz, htype, hknown _ hz'⟩

/-- In `( { x } as r, y ) = ( { x = 1 }, "a" )`, the types of `x`, `r` and `y` are remembered. -/
theorem destructuring_recalls_field_and_record :
    let p : Pattern :=
      .mk 0 1 (.tuple [.mk 1 2 (.named (.mk 2 2 (.record [⟨3, "x"⟩])) ⟨4, "r"⟩), .mk 3 5 (.var "y")])
    let d : ValueDecl :=
      ⟨0, none, .pattern p,
        .mk 4 6 (.tuple [.mk 5 7 (.record [(⟨8, "x"⟩, .mk 6 9 (.literal .int))]), .mk 7 10 (.literal .string)])⟩
    let engine : Engine := { file := 0, scope := { module := ⟨"Main", [.value d]⟩ } }
    ∃ result notes w, inferDeclaration (exprAt engine.budget) d ⟨engine, 0⟩ ⟨{}, {}⟩ = (.ok (.ok (result, notes)), w) ∧
      result.problems = [] ∧ ∃ bound : Bound, bound.map Prod.fst = [⟨3, "x"⟩, ⟨4, "r"⟩, ⟨5, "y"⟩] ∧
        ∀ entry ∈ bound, result.Recalls w.pass.store w.pass.nodeTypes p entry.1.name entry.2 := by
  intro p d engine
  have hok : ((inferDeclaration (exprAt engine.budget) d ⟨engine, 0⟩ ⟨{}, {}⟩).1.toOption.bind Except.toOption).map
      (fun found => found.1.problems.isEmpty && found.1.nodeTypes.all (fun entry => decide (.hole ∉ entry.2.mentions false))) =
        some true := by decide +kernel
  rcases hrun : inferDeclaration (exprAt engine.budget) d ⟨engine, 0⟩ ⟨{}, {}⟩ with ⟨fault | e | ⟨result, notes⟩, w⟩
  · rw [hrun] at hok
    cases hok
  · rw [hrun] at hok
    cases hok
  · rw [hrun] at hok
    obtain ⟨hsilent, hknown⟩ := Bool.and_eq_true_iff.mp (Option.some.inj hok)
    have hsilent : result.problems = [] := List.isEmpty_iff.mp hsilent
    have hknown : ∀ entry ∈ result.nodeTypes, .hole ∉ entry.2.mentions false := fun entry hentry =>
      of_decide_eq_true (List.all_eq_true.mp hknown entry hentry)
    have hscope : engine.scope.Frozen :=
      ⟨fun _ h => absurd h List.not_mem_nil, fun _ h => absurd h List.not_mem_nil⟩
    obtain ⟨hnames, hrecalls⟩ := destructurings_recall_their_names
    obtain ⟨t, w₁, bound, w₂, -, hpattern, hbound⟩ := hrecalls engine 0 engine.budget {} d p result notes w hscope
      Session.frozen_empty rfl (by decide +kernel) (by decide +kernel) hrun hsilent hknown
    exact ⟨result, notes, w, rfl, hsilent, bound, hnames _ p t _ _ _ bound hpattern, hbound⟩

/-- With an operator that takes `A Missing` for `type alias A a = { a | x : Int }`, the end of the record that
`{ y } = loop (\p -> case p <+> 1 of _ -> p)` takes apart is unknown. The record is written out without its end, and no
type is found for `y`. Nor is one found in a type that is in progress elsewhere. -/
theorem destructuring_finds_no_field_in_unknown_end :
    let int : TypeExpr := .mk 0 (.ref (.plain "Int") [])
    let var : TypeExpr := .mk 0 (.var "a")
    let open' : AliasDecl := ⟨1, "A", ["a"], .mk 2 (.record (some "a") [⟨3, "x", int⟩])⟩
    let op : ValueDecl :=
      ⟨4, some (.mk 5 (.function [.mk 6 (.ref (.plain "A") [.mk 7 (.ref (.plain "Missing") [])]), int, int])),
        .function ⟨8, "op"⟩ [.mk 0 9 .any, .mk 1 10 .any], .mk 2 11 (.literal .int)⟩
    let loop : ValueDecl :=
      ⟨12, some (.mk 13 (.function [.mk 14 (.function [var, var]), var])), .function ⟨15, "loop"⟩ [.mk 3 16 (.var "f")],
        .mk 4 17 (.call (.mk 5 18 (.var (.plain "loop"))) [.mk 6 19 (.var (.plain "f"))])⟩
    let p : Pattern := .mk 7 20 (.record [⟨21, "y"⟩])
    let branch : Expr :=
      .mk 12 26 (.caseOf (.mk 13 27 (.binary [.mk 14 28 (.var (.plain "p")), .mk 15 30 (.literal .int)] [⟨29, "<+>"⟩]))
        [(.mk 16 31 .any, .mk 17 32 (.var (.plain "p")))])
    let d : ValueDecl :=
      ⟨20, none, .pattern p,
        .mk 8 22 (.call (.mk 9 23 (.var (.plain "loop"))) [.mk 10 24 (.lambda [.mk 11 25 (.var "p")] branch)])⟩
    let q : Pattern := .mk 0 1 (.record [⟨2, "x"⟩])
    let d' : ValueDecl := ⟨0, none, .pattern q, .mk 1 3 (.var (.plain "lib"))⟩
    let engine : Engine :=
      { file := 0
        scope := {
          module := ⟨"Main", [.typeAlias open', .value op, .fixity ⟨33, "<+>", .left, 5, .plain "op"⟩, .value loop, .value d]⟩
          types := [⟨"Basics", "Int", 0⟩] } }
    let engine' : Engine :=
      { file := 0, scope := { module := ⟨"Main", [.value d']⟩, values := [⟨"Lib", "lib", .inProgress⟩] } }
    let answer := (inferDeclaration (exprAt engine.budget) d ⟨engine, 4⟩ ⟨{}, {}⟩).1.toOption.bind Except.toOption
    let answer' := (inferDeclaration (exprAt engine'.budget) d' ⟨engine', 0⟩ ⟨{}, {}⟩).1.toOption.bind Except.toOption
    let run' := inferDestructuring (exprAt engine'.budget) q d'.body ⟨engine', 0⟩ ⟨{}, { scopes := [[]] }⟩
    ((d.nodeIds fun _ => false).Nodup ∧ (p.boundNames.map NameAt.name) = ["y"] ∧
      answer.map (·.1.problems.map Problem.pos) = some [] ∧
      answer.map (·.1.nodeTypes.all fun entry => decide (.hole ∉ entry.2.mentions false)) = some true ∧
      answer.map (fun found => (found.1.boundType? "y" p).isNone) = some true) ∧
    ((d'.nodeIds fun _ => false).Nodup ∧ (q.boundNames.map NameAt.name) = ["x"] ∧
      answer'.map (·.1.problems.map Problem.pos) = some [] ∧
      answer'.map (·.1.nodeTypes.all fun entry => entry.2 == .inProgress) = some true ∧
      answer'.map (fun found => (found.1.boundType? "x" q).map (· == .unknown)) = some (some true) ∧
      run'.1.toOption.map (·.2.map fun entry => (run'.2.pass.store.zonk entry.2).toOption.map (· == .unknown)) =
        some [some false]) := by
  intro int var open' op loop p branch d q d' engine engine' answer answer' run'
  refine ⟨⟨by decide +kernel, rfl, by decide +kernel, by decide +kernel, by decide +kernel⟩, ?_⟩
  exact ⟨by decide +kernel, rfl, by decide +kernel, by decide +kernel, by decide +kernel, by decide +kernel⟩

end InferM

end ElmInference
