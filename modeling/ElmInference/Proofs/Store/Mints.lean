import ElmInference.Declared.Basic
import ElmInference.Proofs.Store.Moves
import ElmInference.Proofs.Unify.Binding

/-!
# Copies with new variables

Instantiating a scheme or a declared type allocates variables and does nothing else to the store: the world gains
them one by one, `Mints`. What comes out mentions the new variables, the arguments that were given, and what is
left of the type itself, from which the copied variables are gone.
-/

namespace ElmInference

namespace Store

open Relation

/-! ### Allocating variables -/

inductive Mint : World → World → Prop
  | mk {s : Store} {Q : Set Mention} (name : Name) (rigid : Bool) :
      Mint (s, Q) (s.extended, insert (.var ⟨s.size, name, rigid⟩) Q)

abbrev Mints : World → World → Prop :=
  ReflTransGen Mint

variable {s s' : Store} {Q Q' : Set Mention} {w w' : World}

theorem Mints.moves (h : Mints w w') : Moves w w' := by
  refine ReflTransGen.mono (fun _ _ hmint => ?_) _ _ h
  cases hmint with
  | mk name rigid => exact .fresh name rigid

theorem Mints.subset (h : Mints w w') : w.2 ⊆ w'.2 :=
  h.moves.subset

theorem mints_fresh (s : Store) (Q : Set Mention) (name : Name) (rigid : Bool) :
    Mints (s, Q) (s.extended, insert (.var ⟨s.size, name, rigid⟩) Q) :=
  .single (.mk name rigid)

/-- Nothing is new but variables that the store did not have. -/
theorem Mints.new (h : Mints w w') {r : Mention} (hr : r ∈ w'.2) :
    r ∈ w.2 ∨ ∃ v, r = .var v ∧ w.1.size ≤ v.id := by
  induction h with
  | refl => exact .inl hr
  | tail hmints hmint ih =>
    cases hmint with
    | mk name rigid =>
      rcases hr with rfl | hr
      · exact .inr ⟨_, rfl, (Mints.moves hmints).extends.size⟩
      · exact ih hr

end Store

/-! ### Substitution -/

namespace Ty

open Store

variable {Q : Set Mention}

theorem mentions_writtenAs? (t : Ty) (w : Option (AliasUse Ty)) :
    (t.writtenAs? w).mentions false = t.mentions false := by
  cases w with
  | none => rfl
  | some use => cases t <;> simp [writtenAs?, writtenAs, mentions]

theorem mentions_recordWith_subset (fields : List (Name × Ty)) (base : Option Ty) (refs : FieldReferences) :
    (recordWith fields base refs).mentions false ⊆ mentionsFields false fields ++ mentionsBase false base := by
  intro r hr
  unfold recordWith at hr
  split at hr
  · simp only [mentions, mentionsBase, mentionsAlias_false, List.append_nil, List.mem_append,
      mem_mentionsFields] at hr ⊢
    rcases hr with ⟨field, hfield, hr⟩ | hr
    · rcases mem_addFields hfield with hfield | hfield
      · exact .inl ⟨field, hfield, hr⟩
      · exact .inr (.inl ⟨field, hfield, hr⟩)
    · exact .inr (.inr hr)
  · simpa only [mentions, mentionsAlias_false, List.append_nil] using hr

/-- Whether what a mention becomes under a substitution stays in a set. -/
def MapsInto (f : TyVar → Option Ty) (Q : Set Mention) : Mention → Prop
  | .var v => ((f v).getD (.var v)).Within Q
  | r => r ∈ Q

theorem within_writtenAs? {t : Ty} {w : Option (AliasUse Ty)} : (t.writtenAs? w).Within Q ↔ t.Within Q := by
  rw [Ty.Within, mentions_writtenAs?, Ty.Within]

theorem within_recordWith {fields : List (Name × Ty)} {base : Option Ty} {refs : FieldReferences}
    (hfields : ∀ field ∈ fields, .field field.1 ∈ Q ∧ field.2.Within Q)
    (hbase : ∀ b, base = some b → b.Within Q) : (recordWith fields base refs).Within Q := by
  intro r hr
  rcases List.mem_append.mp (mentions_recordWith_subset _ _ _ hr) with hr | hr
  · obtain ⟨field, hf, rfl | hr⟩ := mem_mentionsFields.mp hr
    · exact (hfields field hf).1
    · exact (hfields field hf).2 r hr
  · cases base with
    | none => cases hr
    | some b => exact hbase b rfl r hr

theorem within_function {params : List Ty} {ret : Ty} (hparams : ∀ t ∈ params, t.Within Q)
    (hret : ret.Within Q) : (function params ret).Within Q := by
  intro r hr
  rcases List.mem_append.mp (mentions_function_subset _ _ hr) with hr | hr
  · obtain ⟨t, ht, hr⟩ := mem_mentionsList.mp hr
    exact hparams t ht r hr
  · exact hret r hr

theorem within_subst {f : TyVar → Option Ty} {t : Ty} (h : ∀ r ∈ t.mentions false, MapsInto f Q r) :
    (t.subst f).Within Q := by
  have hpart : ∀ {t u : Ty}, t.Part u → (∀ r ∈ t.mentions false, MapsInto f Q r) →
      ∀ r ∈ u.mentions false, MapsInto f Q r :=
    fun hpart ht r hr => ht r (hpart.mentions_subset hr)
  induction t using Ty.inductParts with
  | unit => nofun
  | unknown | inProgress =>
    intro r hr
    obtain rfl : r = .hole := by simpa [subst, mentions] using hr
    exact h .hole hr
  | growing id =>
    intro r hr
    obtain rfl : r = .record id := by simpa [subst, mentions] using hr
    exact h (.record id) hr
  | var v => exact h (.var v) (by simp [mentions])
  | union m n args w ih _ =>
    rw [subst, substList_eq_map, within_union]
    intro u hu
    obtain ⟨t, ht, rfl⟩ := List.mem_map.mp hu
    exact ih t ht (hpart (.arg ht) h)
  | tuple items ih =>
    rw [subst, substList_eq_map, within_tuple]
    intro u hu
    obtain ⟨t, ht, rfl⟩ := List.mem_map.mp hu
    exact ih t ht (hpart (.item ht) h)
  | record fields base w refs ihf ihb _ =>
    rw [subst, within_writtenAs?, substFields_eq_map]
    refine within_recordWith (fun field hf => ?_) (fun b hb => ?_)
    · obtain ⟨field, hmem, rfl⟩ := List.mem_map.mp hf
      refine ⟨h (.field field.1) ?_, ihf field hmem (hpart (.field hmem) h)⟩
      simp only [mentions, List.mem_append, mem_mentionsFields]
      exact .inl ⟨field, hmem, .inl rfl⟩
    · cases base with
      | none => cases hb
      | some b =>
        cases hb
        exact ihb b rfl (hpart .base h)
  | arrow params ret w ihp ihr _ =>
    rw [subst, within_writtenAs?, substList_eq_map]
    refine within_function (fun u hu => ?_) (ihr (hpart .ret h))
    obtain ⟨t, ht, rfl⟩ := List.mem_map.mp hu
    exact ihp t ht (hpart (.param ht) h)

theorem within_substTable {table : Assoc VarId Ty} {t : Ty} (htable : ∀ entry ∈ table, entry.2.Within Q)
    (h : ∀ r ∈ t.mentions false, r ∈ Q ∨ ∃ v, r = .var v ∧ Assoc.get? table v.id ≠ none) :
    (t.substTable table).Within Q := by
  refine within_subst (fun r hr => ?_)
  cases r with
  | var v =>
    cases hget : Assoc.get? table v.id with
    | some u =>
      rw [MapsInto, hget]
      exact htable _ (Assoc.mem_of_get? hget)
    | none =>
      rw [MapsInto, hget]
      rcases h _ hr with hv | ⟨u, hu, hsome⟩
      · exact within_var.mpr hv
      · cases hu
        exact absurd hget hsome
  | _ =>
    rcases h _ hr with hr | ⟨u, hu, -⟩
    · exact hr
    · cases hu

/-! ### The variables of a type -/

theorem mem_occurrences {t : Ty} {v : TyVar} : v ∈ t.occurrences ↔ .var v ∈ t.mentions false := by
  induction t using Ty.inductParts with
  | unit | unknown | inProgress | growing => simp [occurrences, mentions]
  | var u => simp [occurrences, mentions]
  | union m n args w ih _ =>
    simp only [occurrences, occurrencesList_eq_flatMap, List.mem_flatMap, mentions, mentionsAlias_false,
      List.append_nil, mem_mentionsList]
    exact exists_congr fun t => and_congr_right fun ht => ih t ht
  | tuple items ih =>
    simp only [occurrences, occurrencesList_eq_flatMap, List.mem_flatMap, mentions, mem_mentionsList]
    exact exists_congr fun t => and_congr_right fun ht => ih t ht
  | record fields base w refs ihf ihb _ =>
    have hfields : v ∈ occurrencesFields fields ↔ .var v ∈ mentionsFields false fields := by
      rw [mem_mentionsFields]
      clear ihb
      induction fields with
      | nil => simp [occurrencesFields]
      | cons field rest ih =>
        rw [occurrencesFields, List.mem_append, ihf field List.mem_cons_self,
          ih (fun x hx => ihf x (List.mem_cons_of_mem _ hx))]
        simp
    have hbase : v ∈ occurrencesBase base ↔ .var v ∈ mentionsBase false base := by
      cases base with
      | none => simp [occurrencesBase, mentionsBase]
      | some b => exact ihb b rfl
    simp only [occurrences, mentions, mentionsAlias_false, List.append_nil, List.mem_append, hfields, hbase]
  | arrow params ret w ihp ihr _ =>
    simp only [occurrences, occurrencesList_eq_flatMap, List.mem_append, List.mem_flatMap, mentions,
      mentionsAlias_false, List.append_nil, mem_mentionsList, ihr]
    exact or_congr_left (exists_congr fun t => and_congr_right fun ht => ihp t ht)

theorem mem_of_mem_distinctVars {vars : List TyVar} {v : TyVar} (h : v ∈ distinctVars vars) : v ∈ vars := by
  induction vars with
  | nil => exact h
  | cons u rest ih =>
    rcases List.mem_cons.mp h with rfl | h
    · exact List.mem_cons_self
    · exact List.mem_cons_of_mem _ (ih (List.mem_of_mem_filter h))

theorem exists_mem_distinctVars {vars : List TyVar} {v : TyVar} (h : v ∈ vars) :
    ∃ u ∈ distinctVars vars, u.id = v.id := by
  induction vars with
  | nil => cases h
  | cons x rest ih =>
    by_cases hid : x.id = v.id
    · exact ⟨x, List.mem_cons_self, hid⟩
    · rcases List.mem_cons.mp h with rfl | h
      · exact absurd rfl hid
      · obtain ⟨u, hu, huv⟩ := ih h
        refine ⟨u, List.mem_cons_of_mem _ (List.mem_filter.mpr ⟨hu, ?_⟩), huv⟩
        simpa [huv] using Ne.symm hid

theorem mentions_of_mem_vars {t : Ty} {v : TyVar} (h : v ∈ t.vars) : .var v ∈ t.mentions false :=
  mem_occurrences.mp (mem_of_mem_distinctVars h)

theorem exists_mem_vars {t : Ty} {v : TyVar} (h : .var v ∈ t.mentions false) : ∃ u ∈ t.vars, u.id = v.id :=
  exists_mem_distinctVars (mem_occurrences.mpr h)

theorem nodup_vars (t : Ty) : (t.vars.map TyVar.id).Nodup := by
  have hnodup : ∀ vars : List TyVar, ((distinctVars vars).map TyVar.id).Nodup := by
    intro vars
    induction vars with
    | nil => exact List.nodup_nil
    | cons v rest ih =>
      refine List.nodup_cons.mpr ⟨fun hmem => ?_, ih.sublist (List.filter_sublist.map _)⟩
      obtain ⟨u, hu, hid⟩ := List.mem_map.mp hmem
      simp [hid] at hu
  exact hnodup t.occurrences

def Frozen (t : Ty) : Prop :=
  ∀ id, .record id ∉ t.mentions false

end Ty

/-! ### Schemes -/

open Store

variable {s : Store} {Q Q' : Set Mention}

/-- Whether a scheme mentions nothing outside of a set but what it quantifies. -/
def Scheme.Within (scheme : Scheme) (Q : Set Mention) : Prop :=
  ∀ r ∈ scheme.ty.mentions false, r ∈ Q ∨ ∃ v ∈ scheme.vars, r.node? = some (.var v.id)

instance (scheme : Scheme) (Q : Set Mention) [DecidablePred (· ∈ Q)] : Decidable (scheme.Within Q) :=
  inferInstanceAs (Decidable (∀ r ∈ _, _))

/-- Images that are all at hand, after they have been handed out. -/
def Store.HandsOut (w : World) (images : Assoc VarId Ty) (s : Store) (keys : List TyVar) : Prop :=
  ∃ Q, Mints w (s, Q) ∧ (∀ entry ∈ images, entry.2.Within Q) ∧ ∀ v ∈ keys, Assoc.get? images v.id ≠ none

namespace Scheme

theorem Within.mono {scheme : Scheme} (h : scheme.Within Q) (hQ : Q ⊆ Q') : scheme.Within Q' :=
  fun r hr => (h r hr).imp_left (hQ ·)

theorem within_mono {t : Ty} (h : t.Within Q) : (Scheme.mono t).Within Q :=
  fun r hr => .inl (h r hr)

/-- A closed scheme of a type without growing records is at home in every world. -/
theorem within_closed {t : Ty} (h : t.Frozen) (hplain : ∀ r, r.node? = none → r ∈ Q) :
    (Scheme.closed t).Within Q := by
  intro r hr
  cases r with
  | var v =>
    obtain ⟨u, hu, hid⟩ := Ty.exists_mem_vars hr
    exact .inr ⟨u, hu, by rw [hid]; rfl⟩
  | record id => exact absurd hr (h id)
  | field name => exact .inl (hplain _ rfl)
  | hole => exact .inl (hplain _ rfl)

theorem handsOut_freshCopies (vars : List TyVar) (s : Store) (Q : Set Mention) :
    HandsOut (s, Q) (freshCopies vars s).1 (freshCopies vars s).2 vars := by
  induction vars generalizing s Q with
  | nil => exact ⟨Q, .refl, nofun, nofun⟩
  | cons v rest ih =>
    obtain ⟨Q', hmints, hwithin, hkeys⟩ := ih s.extended (insert (.var ⟨s.size, v.name, false⟩) Q)
    refine ⟨Q', (mints_fresh s Q v.name false).trans hmints, fun entry hentry => ?_, fun u hu => ?_⟩
    · rcases List.mem_cons.mp hentry with rfl | hentry
      · exact Ty.within_var.mpr (hmints.subset (Set.mem_insert _ _))
      · exact hwithin entry hentry
    · rcases List.mem_cons.mp hu with rfl | hu
      · simp [freshCopies, Assoc.get?]
      · simp only [freshCopies, Assoc.get?]
        split
        · simp
        · exact hkeys u hu

/-- Every use of a scheme gets a type that is at hand, with new variables. -/
theorem Within.instantiate {scheme : Scheme} (h : scheme.Within Q) (s : Store) :
    ∃ Q', Mints (s, Q) ((scheme.instantiate s).2, Q') ∧ (scheme.instantiate s).1.Within Q' := by
  unfold Scheme.instantiate
  split
  · next hempty =>
    refine ⟨Q, .refl, fun r hr => ?_⟩
    rcases h r hr with hr | ⟨v, hv, -⟩
    · exact hr
    · rw [List.isEmpty_iff.mp hempty] at hv
      cases hv
  · obtain ⟨Q', hmints, hwithin, hkeys⟩ := handsOut_freshCopies scheme.vars s Q
    refine ⟨Q', hmints, Ty.within_substTable hwithin (fun r hr => ?_)⟩
    rcases h r hr with hr | ⟨v, hv, hnode⟩
    · exact .inl (hmints.subset hr)
    · cases r with
      | var u =>
        have hid : u.id = v.id := by simpa [Mention.node?] using hnode
        exact .inr ⟨u, rfl, hid ▸ hkeys v hv⟩
      | record id => cases hnode
      | field name => cases hnode
      | hole => cases hnode

end Scheme

/-! ### Declared types -/

namespace DeclaredType

structure Frozen (d : DeclaredType) : Prop where
  type : d.type.Frozen
  variants : ∀ args ∈ d.variants, ∀ t ∈ args, t.Frozen

theorem paramImages_nil (params : List TyVar) (s : Store) :
    paramImages params [] s = Scheme.freshCopies params s := by
  induction params generalizing s with
  | nil => rfl
  | cons v params ih =>
    simp only [paramImages, Scheme.freshCopies]
    rw [ih]

theorem handsOut_paramImages (params : List TyVar) {args : List Ty} (s : Store)
    (hargs : ∀ t ∈ args, t.Within Q) :
    HandsOut (s, Q) (paramImages params args s).1 (paramImages params args s).2 params := by
  induction params generalizing args with
  | nil => exact ⟨Q, .refl, by simp [paramImages], nofun⟩
  | cons v params ih =>
    cases args with
    | nil =>
      rw [paramImages_nil]
      exact Scheme.handsOut_freshCopies _ s Q
    | cons arg args =>
      obtain ⟨Q', hmints, hwithin, hkeys⟩ := ih (fun t ht => hargs t (List.mem_cons_of_mem _ ht))
      refine ⟨Q', hmints, fun entry hentry => ?_, fun u hu => ?_⟩
      · rcases List.mem_cons.mp hentry with rfl | hentry
        · exact (hargs arg List.mem_cons_self).mono hmints.subset
        · exact hwithin entry hentry
      · simp only [paramImages, Assoc.get?]
        split
        · simp
        · next hne =>
          rcases List.mem_cons.mp hu with rfl | hu
          · exact absurd rfl hne
          · exact hkeys u hu

theorem handsOut_otherImages {w : World} {images : Assoc VarId Ty} {keys : List TyVar} (vars : List TyVar)
    (h : HandsOut w images s keys) :
    HandsOut w (otherImages images vars s).1 (otherImages images vars s).2 (vars ++ keys) := by
  induction vars generalizing images s keys with
  | nil => exact h
  | cons v vars ih =>
    obtain ⟨Q, hmints, hwithin, hkeys⟩ := h
    -- Whether the variable has an image already or gets one now, it has one from here on.
    have hnext : ∀ {images : Assoc VarId Ty} {s : Store}, HandsOut w images s (v :: keys) →
        HandsOut w (otherImages images vars s).1 (otherImages images vars s).2 (v :: vars ++ keys) := by
      intro images s hhands
      obtain ⟨Q, hmints, hwithin, hkeys⟩ := ih hhands
      refine ⟨Q, hmints, hwithin, fun u hu => hkeys u ?_⟩
      simp only [List.cons_append, List.mem_cons, List.mem_append] at hu ⊢
      tauto
    rw [otherImages]
    split
    · next hhas =>
      refine hnext ⟨Q, hmints, hwithin, fun u hu => ?_⟩
      rcases List.mem_cons.mp hu with rfl | hu
      · simpa [Assoc.has, Option.isSome_iff_ne_none] using hhas
      · exact hkeys u hu
    · refine hnext ⟨_, hmints.trans (mints_fresh s Q v.name false), fun entry hentry => ?_, fun u hu => ?_⟩
      · rcases List.mem_append.mp hentry with hentry | hentry
        · exact (hwithin entry hentry).mono (Set.subset_insert _ _)
        · rw [List.mem_singleton.mp hentry]
          exact Ty.within_var.mpr (Set.mem_insert _ _)
      · rw [Assoc.get?_append]
        rcases List.mem_cons.mp hu with rfl | hu
        · simp [Assoc.get?]
        · simp [hkeys u hu]

theorem handsOut_images (d : DeclaredType) {args : List Ty} (s : Store) (hargs : ∀ t ∈ args, t.Within Q) :
    HandsOut (s, Q) (d.images args s).1 (d.images args s).2 (d.allVars ++ d.params) :=
  handsOut_otherImages d.allVars (handsOut_paramImages d.params s hargs)

/-- A type of a declaration, with all its variables replaced, is at hand. -/
theorem within_substImages {d : DeclaredType} {images : Assoc VarId Ty} {t : Ty} (ht : t.Frozen)
    (hplain : ∀ r, r.node? = none → r ∈ Q) (himages : ∀ entry ∈ images, entry.2.Within Q)
    (hkeys : ∀ v ∈ d.allVars ++ d.params, Assoc.get? images v.id ≠ none)
    (hvars : ∀ v ∈ t.vars, v ∈ d.allVars) : (t.substTable images).Within Q := by
  refine Ty.within_substTable himages (fun r hr => ?_)
  cases r with
  | var v =>
    obtain ⟨u, hu, hid⟩ := Ty.exists_mem_vars hr
    exact .inr ⟨v, rfl, hid ▸ hkeys u (List.mem_append_left _ (hvars u hu))⟩
  | record id => exact absurd hr (ht id)
  | field name => exact .inl (hplain _ rfl)
  | hole => exact .inl (hplain _ rfl)

theorem Frozen.instantiate {d : DeclaredType} (h : d.Frozen) {args : List Ty} (s : Store)
    (hplain : ∀ r, r.node? = none → r ∈ Q) (hargs : ∀ t ∈ args, t.Within Q) :
    ∃ Q', Mints (s, Q) ((d.instantiate args s).2, Q') ∧ (d.instantiate args s).1.Within Q' := by
  obtain ⟨Q', hmints, hwithin, hkeys⟩ := handsOut_images d s hargs
  refine ⟨Q', hmints, within_substImages h.type (fun r hr => hmints.subset (hplain r hr)) hwithin hkeys ?_⟩
  exact fun v hv => List.mem_append_left _ hv

theorem Frozen.variant? {d : DeclaredType} (h : d.Frozen) (index : Nat) (s : Store)
    (hplain : ∀ r, r.node? = none → r ∈ Q) :
    ∃ Q', Mints (s, Q) ((d.variant? index s).2, Q') ∧
      ∀ args t, (d.variant? index s).1 = some (args, t) → (∀ u ∈ args, u.Within Q') ∧ t.Within Q' := by
  cases d with
  | typeAlias params type => exact ⟨Q, .refl, nofun⟩
  | unionType params type variants =>
    unfold DeclaredType.variant?
    cases hargs : variants[index]? with
    | none =>
      simp only [hargs]
      exact ⟨Q, .refl, nofun⟩
    | some args =>
      simp only [hargs]
      obtain ⟨Q', hmints, hwithin, hkeys⟩ :=
        handsOut_images (unionType params type variants) s (fun t (ht : t ∈ []) => by cases ht)
      have hmem : args ∈ variants := List.mem_of_getElem? hargs
      have hplain' : ∀ r, r.node? = none → r ∈ Q' := fun r hr => hmints.subset (hplain r hr)
      refine ⟨Q', hmints, fun args' t heq => ?_⟩
      obtain ⟨rfl, rfl⟩ := Prod.mk.inj (Option.some.inj heq)
      refine ⟨fun u hu => ?_, within_substImages h.type hplain' hwithin hkeys
        (fun v hv => List.mem_append_left _ hv)⟩
      obtain ⟨t, ht, rfl⟩ := List.mem_map.mp hu
      refine within_substImages (h.variants args hmem t ht) hplain' hwithin hkeys (fun v hv => ?_)
      exact List.mem_append_right _ (List.mem_flatMap.mpr ⟨t, List.mem_flatten.mpr ⟨args, hmem, ht⟩, hv⟩)

end DeclaredType

end ElmInference
