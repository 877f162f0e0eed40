import ElmInference.Proofs.Infer.WrittenOut
import ElmInference.Proofs.Types.Readability
import Mathlib.Data.Set.Function

/-!
# What a qualified type text says

A rendered type is its spelling under names that tell its variables apart, as long as none of them belongs to a class.
So two types that are rendered alike are types of one shape with the same names at the same places, and a variable of
the one is renamed to the variable of the other that has its name.
-/

namespace ElmInference

namespace Ty

variable {capital : Char → Bool} {σ τ : VarId → Name} {R : VarId → VarId → Prop} {t u : Ty}

/-! ### Names -/

/-- The variables of a type. A variable is the same wherever it has the same number, whatever it is called. -/
def ids (t : Ty) : Set VarId :=
  {id | ∃ v ∈ t.occurrences, v.id = id}

theorem shownList_eq_flatMap (ts : List Ty) : shownList ts = ts.flatMap shown := by
  induction ts with
  | nil => rfl
  | cons t ts ih => rw [shownList, ih, List.flatMap_cons]

theorem shownFields_eq_flatMap (fields : List (Name × Ty)) :
    shownFields fields = fields.flatMap fun field => field.2.shown := by
  induction fields with
  | nil => rfl
  | cons field fields ih => rw [shownFields, ih, List.flatMap_cons]

theorem occurrencesFields_eq_flatMap (fields : List (Name × Ty)) :
    occurrencesFields fields = fields.flatMap fun field => field.2.occurrences := by
  induction fields with
  | nil => rfl
  | cons field fields ih => rw [occurrencesFields, ih, List.flatMap_cons]

/-- Without aliases all variables are read. -/
theorem Readable.shown_eq (h : Readable capital t) : t.shown = t.occurrences := by
  have hlist {ts : List Ty} (hts : ∀ t ∈ ts, t.shown = t.occurrences) : shownList ts = occurrencesList ts := by
    rw [shownList_eq_flatMap, occurrencesList_eq_flatMap, List.flatMap_congr hts]
  have hfields {fields : List (Name × Ty)} (h : ∀ field ∈ fields, field.2.shown = field.2.occurrences) :
      shownFields fields = occurrencesFields fields := by
    rw [shownFields_eq_flatMap, occurrencesFields_eq_flatMap, List.flatMap_congr h]
  induction h with
  | unit => rfl
  | var => rfl
  | union _ _ _ ih => rw [shown, occurrences, hlist ih]
  | tuple _ _ ih => rw [shown, occurrences, hlist ih]
  | closed _ _ ih => rw [shown, occurrences, hfields ih, shownBase, occurrencesBase]
  | extension _ _ _ _ _ ih => rw [shown, occurrences, hfields ih, shownBase, occurrencesBase, shown, occurrences]
  | arrow _ _ _ _ ihparams ihret => rw [shown, occurrences, hlist ihparams, ihret]

theorem Readable.names (h : Readable capital t) :
    ∀ v ∈ t.occurrences, Cased capital false v.name ∧ v.typeclass = none := by
  have hlist {ts : List Ty} (hts : ∀ t ∈ ts, ∀ v ∈ t.occurrences, Cased capital false v.name ∧ v.typeclass = none) :
      ∀ v ∈ occurrencesList ts, Cased capital false v.name ∧ v.typeclass = none := by
    rw [occurrencesList_eq_flatMap]
    exact List.forall_mem_flatMap.mpr hts
  have hfields {fields : List (Name × Ty)}
      (h : ∀ field ∈ fields, ∀ v ∈ field.2.occurrences, Cased capital false v.name ∧ v.typeclass = none) :
      ∀ v ∈ occurrencesFields fields, Cased capital false v.name ∧ v.typeclass = none := by
    rw [occurrencesFields_eq_flatMap]
    exact List.forall_mem_flatMap.mpr h
  induction h with
  | unit => exact List.forall_mem_nil _
  | var hname hclass => exact List.forall_mem_singleton.mpr ⟨hname, hclass⟩
  | union _ _ _ ih => exact hlist ih
  | tuple _ _ ih => exact hlist ih
  | closed _ _ ih => exact List.forall_mem_append.mpr ⟨hfields ih, List.forall_mem_nil _⟩
  | extension _ hname hclass _ _ ih =>
    exact List.forall_mem_append.mpr ⟨hfields ih, List.forall_mem_singleton.mpr ⟨hname, hclass⟩⟩
  | arrow _ _ _ _ ihparams ihret => exact List.forall_mem_append.mpr ⟨hlist ihparams, ihret⟩

/-- The names that are given to variables are names of variables or names of the sequence. -/
theorem forall_names_meet {P : Name → Prop} (hseq : ∀ n, P (nthVarName n)) {vs : List TyVar} (hvs : ∀ v ∈ vs, P v.name)
    {N : Naming} (hN : ∀ {id name}, Assoc.get? N.names id = some name → P name) {id : VarId} {name : Name}
    (h : Assoc.get? (N.meet vs).names id = some name) : P name := by
  induction vs generalizing N with
  | nil => exact hN h
  | cons v vs ih =>
    obtain ⟨hv, hvs⟩ := List.forall_mem_cons.mp hvs
    refine ih hvs (fun {id name} hget => ?_) h
    rw [Naming.get?_nameOf, Option.or_eq_some_iff] at hget
    rcases hget with hget | ⟨_, hget⟩
    · exact hN hget
    · split at hget
      · cases hget
        unfold Naming.choose
        split
        · exact hv
        · obtain ⟨n, heq, -, -⟩ := Naming.unused_is_first_free N.taken
          exact heq ▸ hseq n
      · cases hget

/-- Letters and digits are neither marks nor dots. -/
theorem not_isMark_of_isAlphanum {c : Char} (h : c.isAlphanum = true) : isMark c = false ∧ c ≠ '.' := by
  refine ⟨?_, by rintro rfl; cases h⟩
  rw [Bool.eq_false_iff]
  intro hmark
  simp only [isMark, List.contains_iff_mem, List.mem_cons, List.not_mem_nil, or_false] at hmark
  rcases hmark with rfl | rfl | rfl | rfl | rfl | rfl | rfl | rfl | rfl | rfl <;> cases h

theorem isLower_nthLetter (n : Nat) : (nthLetter n).isLower = true := by
  have hletter : (nthLetter n).val.toNat = 97 + n % 26 := toNat_nthLetter n
  have ha : 'a'.val.toNat = 97 := rfl
  have hz : 'z'.val.toNat = 122 := rfl
  have hlow : 'a'.val ≤ (nthLetter n).val := UInt32.le_iff_toNat_le.mpr (by omega)
  have hhigh : (nthLetter n).val ≤ 'z'.val := UInt32.le_iff_toNat_le.mpr (by omega)
  exact Bool.and_eq_true_iff.mpr ⟨decide_eq_true hlow, decide_eq_true hhigh⟩

theorem cased_nthVarName (hcapital : ∀ c : Char, c.isLower = true → capital c = false) (n : Nat) :
    Cased capital false (nthVarName n) := by
  have hchars : ∀ c ∈ (nthVarName n).toList, isMark c = false ∧ c ≠ '.' := by
    intro c hc
    rw [toList_nthVarName, List.mem_cons] at hc
    refine not_isMark_of_isAlphanum ?_
    rcases hc with rfl | hc
    · exact Bool.or_eq_true_iff.mpr (.inl (Bool.or_eq_true_iff.mpr (.inr (isLower_nthLetter n))))
    · exact Bool.or_eq_true_iff.mpr (.inr (isDigit_of_mem_roundDigits hc))
  refine ⟨⟨⟨fun hempty => ?_, fun c hc => (hchars c hc).1⟩, fun hdot => (hchars '.' hdot).2 rfl⟩, fun c hc => ?_⟩
  · have := toList_nthVarName n
    simp [hempty] at this
  · rw [toList_nthVarName] at hc
    cases hc
    exact hcapital _ (isLower_nthLetter n)

/-- A rendered type is its spelling under names that tell its variables apart. -/
theorem Readable.exists_names (hcapital : ∀ c : Char, c.isLower = true → capital c = false) (ht : Readable capital t) :
    ∃ σ : VarId → Name, CallsSmall capital σ ∧ t.render true = t.spell true σ ∧ Set.InjOn σ t.ids := by
  have hempty : ∀ id, Assoc.get? ({} : Naming).names id = none := fun _ => rfl
  have hgiven {id : VarId} {name : Name} (h : Assoc.get? (Naming.meet {} t.shown).names id = some name) :
      Cased capital false name ∧ Typeclass.ofName name = none :=
    forall_names_meet (P := fun name => Cased capital false name ∧ Typeclass.ofName name = none)
      (fun n => ⟨cased_nthVarName hcapital n, ofName_nthVarName n⟩) (ht.shown_eq ▸ ht.names)
      (fun h => absurd h (by simp [hempty])) h
  let σ : VarId → Name := fun id => (Assoc.get? (Naming.meet {} t.shown).names id).getD (nthVarName 0)
  have hσ : ∀ v ∈ t.shown, Assoc.get? (Naming.meet {} t.shown).names v.id = some (σ v.id) := by
    intro v hv
    obtain ⟨name, hname⟩ := Naming.exists_get?_meet (N := {}) hv
    simp only [σ, hname, Option.getD_some]
  refine ⟨σ, fun id => ?_, (writesAs_write true t {}).2 σ hσ, ?_⟩
  · cases hget : Assoc.get? (Naming.meet {} t.shown).names id with
    | none =>
      simp only [σ, hget, Option.getD_none]
      exact cased_nthVarName hcapital 0
    | some name =>
      simp only [σ, hget, Option.getD_some]
      exact (hgiven hget).1
  · have happart : (Naming.meet {} t.shown).TellsApart :=
      Naming.tellsApart_meet t.shown ⟨fun h => absurd h (by simp [hempty]), fun h => absurd h (by simp [hempty])⟩
    rintro _ ⟨v, hv, rfl⟩ _ ⟨w, hw, rfl⟩ heq
    rw [← ht.shown_eq] at hv hw
    by_contra hne
    have hmarked := happart.marked (hσ v hv) (heq ▸ hσ w hw) hne
    rw [(hgiven (hσ v hv)).2] at hmarked
    cases hmarked

/-! ### Renaming -/

/-- Gives variables other numbers and takes away what they are called. -/
def relabel (ρ : VarId → VarId) (v : TyVar) : Option Ty :=
  some (.var ⟨ρ v.id, "", false⟩)

theorem Readable.subst_congr {f g : TyVar → Option Ty} (ht : Readable capital t) (h : ∀ v ∈ t.occurrences, f v = g v) :
    t.subst f = t.subst g := by
  have hlist {ts : List Ty} (ih : ∀ t ∈ ts, (∀ v ∈ t.occurrences, f v = g v) → t.subst f = t.subst g)
      (h : ∀ v ∈ occurrencesList ts, f v = g v) : substList f ts = substList g ts := by
    rw [occurrencesList_eq_flatMap, List.forall_mem_flatMap] at h
    rw [substList_eq_map, substList_eq_map]
    exact List.map_congr_left fun t ht => ih t ht (h t ht)
  have hfields {fields : List (Name × Ty)}
      (ih : ∀ field ∈ fields, (∀ v ∈ field.2.occurrences, f v = g v) → field.2.subst f = field.2.subst g)
      (h : ∀ v ∈ occurrencesFields fields, f v = g v) : substFields f fields = substFields g fields := by
    rw [occurrencesFields_eq_flatMap, List.forall_mem_flatMap] at h
    rw [substFields_eq_map, substFields_eq_map]
    exact List.map_congr_left fun field hfield => by rw [ih field hfield (h field hfield)]
  induction ht with
  | unit => rfl
  | var => rw [subst, subst, h _ (List.mem_singleton.mpr rfl)]
  | union _ _ _ ih => rw [subst, subst, hlist ih h]; rfl
  | tuple _ _ ih => rw [subst, subst, hlist ih h]
  | closed _ _ ih =>
    rw [subst, subst, hfields ih (List.forall_mem_append.mp h).1]
    rfl
  | extension _ _ _ _ _ ih =>
    obtain ⟨hfirst, hbase⟩ := List.forall_mem_append.mp h
    rw [subst, subst, hfields ih hfirst, substBase, substBase, subst, subst, hbase _ (List.mem_singleton.mpr rfl)]
    rfl
  | arrow _ _ _ _ ihparams ihret =>
    obtain ⟨hparams, hret⟩ := List.forall_mem_append.mp h
    rw [subst, subst, hlist ihparams hparams, ihret hret]
    rfl

theorem isBareArrow_writtenAs (t : Ty) (use : AliasUse Ty) : (t.writtenAs use).isBareArrow = false := by
  cases t <;> rfl

/-- Renaming does not make a function of what is none. -/
theorem isBareArrow_subst_relabel (ρ : VarId → VarId) (h : t.isBareArrow = false) :
    (t.subst (relabel ρ)).isBareArrow = false := by
  have hwritten {t : Ty} (ht : t.isBareArrow = false) (w : Option (AliasUse Ty)) :
      (t.writtenAs? w).isBareArrow = false := by
    cases w with
    | none => exact ht
    | some use => exact isBareArrow_writtenAs t use
  cases t with
  | record fields base w refs =>
    rw [subst]
    refine hwritten ?_ _
    unfold recordWith
    split <;> rfl
  | arrow params ret w =>
    rcases w with _ | ⟨m, n, args⟩
    · cases h
    · rw [subst, substAlias]
      exact isBareArrow_writtenAs _ _
  | _ => rfl

theorem beqList_of_forall₂ {f g : TyVar → Option Ty} {ts us : List Ty}
    (h : List.Forall₂ (fun t u => (t.subst f).beq (u.subst g) = true) ts us) :
    beqList (substList f ts) (substList g us) = true := by
  induction h with
  | nil => rw [substList, substList, beqList]
  | cons hfirst _ ih => rw [substList, substList, beqList, hfirst, ih, Bool.and_self]

theorem beqFields_of_forall₂ {f g : TyVar → Option Ty} {fields fields' : List (Name × Ty)}
    (h : List.Forall₂ (fun field field' => field.1 = field'.1 ∧ (field.2.subst f).beq (field'.2.subst g) = true)
      fields fields') : beqFields (substFields f fields) (substFields g fields') = true := by
  induction h with
  | nil => rw [substFields, substFields, beqFields]
  | cons hfirst _ ih =>
    rw [substFields, substFields, beqFields, hfirst.1, hfirst.2, ih, beq_self_eq_true, Bool.and_self, Bool.and_self]

/-- Types that are alike are equal once related variables have been given the same numbers. -/
theorem Alike.beq_subst_relabel {ρ υ : VarId → VarId} (h : Alike R t u) (hR : ∀ {i j}, R i j → ρ i = υ j) :
    (t.subst (relabel ρ)).beq (u.subst (relabel υ)) = true := by
  induction h with
  | unit => rw [subst, subst, beq]
  | var hvar =>
    rw [subst, subst, relabel, relabel, hR hvar]
    simp [beq]
  | union hlength _ ih =>
    rw [subst, subst, beq, beqList_of_forall₂ (forall₂_of_forall_zip hlength ih)]
    simp [substAlias, beqAlias]
  | tuple hlength _ ih => rw [subst, subst, beq, beqList_of_forall₂ (forall₂_of_forall_zip hlength ih)]
  | closed hlength hnames _ ih =>
    have hfields := beqFields_of_forall₂ (forall₂_of_forall_zip hlength fun p hp => ⟨hnames p hp, ih p hp⟩)
    rw [subst, subst]
    simp [recordWith, substBase, substAlias, writtenAs?, beq, hfields, beqBase, beqAlias]
  | extension hbase hlength hnames _ ih =>
    have hfields := beqFields_of_forall₂ (forall₂_of_forall_zip hlength fun p hp => ⟨hnames p hp, ih p hp⟩)
    rw [subst, subst]
    simp [recordWith, substBase, substAlias, writtenAs?, beq, hfields, beqBase, beqAlias, subst, relabel, hR hbase]
  | arrow hne hlength _ hret hret' _ ihparams ihret =>
    have hparams := beqList_of_forall₂ (forall₂_of_forall_zip hlength ihparams)
    have hne' := hne
    rw [ne_eq, ← List.length_eq_zero_iff, hlength, List.length_eq_zero_iff] at hne'
    rw [subst, subst, function_of_not_bare (by simpa [substList_eq_map] using hne) (isBareArrow_subst_relabel ρ hret),
      function_of_not_bare (by simpa [substList_eq_map] using hne') (isBareArrow_subst_relabel υ hret')]
    simp [writtenAs?, substAlias, beq, hparams, ihret, beqAlias]

theorem Alike.occurrences (h : Alike R t u) :
    List.Forall₂ (fun v w => R v.id w.id) t.occurrences u.occurrences := by
  have hlist {ts us : List Ty}
      (h : List.Forall₂ (fun t u => List.Forall₂ (fun v w => R v.id w.id) t.occurrences u.occurrences) ts us) :
      List.Forall₂ (fun v w => R v.id w.id) (occurrencesList ts) (occurrencesList us) := by
    induction h with
    | nil => exact .nil
    | cons hfirst _ ih => exact List.rel_append hfirst ih
  have hfields {fields fields' : List (Name × Ty)}
      (h : List.Forall₂ (fun field field' =>
        List.Forall₂ (fun v w => R v.id w.id) field.2.occurrences field'.2.occurrences) fields fields') :
      List.Forall₂ (fun v w => R v.id w.id) (occurrencesFields fields) (occurrencesFields fields') := by
    induction h with
    | nil => exact .nil
    | cons hfirst _ ih => exact List.rel_append hfirst ih
  induction h with
  | unit => exact .nil
  | var hvar => exact .cons hvar .nil
  | union hlength _ ih => exact hlist (forall₂_of_forall_zip hlength ih)
  | tuple hlength _ ih => exact hlist (forall₂_of_forall_zip hlength ih)
  | closed hlength _ _ ih => exact List.rel_append (hfields (forall₂_of_forall_zip hlength ih)) .nil
  | extension hbase hlength _ _ ih =>
    exact List.rel_append (hfields (forall₂_of_forall_zip hlength ih)) (.cons hbase .nil)
  | arrow _ hlength _ _ _ _ ihparams ihret =>
    exact List.rel_append (hlist (forall₂_of_forall_zip hlength ihparams)) ihret

theorem image_ids {α : Type} (f : VarId → α) (t : Ty) : f '' t.ids = {x | x ∈ t.occurrences.map fun v => f v.id} := by
  ext x
  simp [ids]

theorem Alike.image_ids_eq (h : Alike (SameName σ τ) t u) : σ '' t.ids = τ '' u.ids := by
  have hmap : (t.occurrences.map fun v => σ v.id) = u.occurrences.map fun w => τ w.id := by
    rw [← List.forall₂_eq_eq_eq, List.forall₂_map_left_iff, List.forall₂_map_right_iff]
    exact h.occurrences
  rw [image_ids, image_ids, hmap]

/-- Types that read the same are the same but for the numbers of their variables, and what these are called. -/
theorem qualified_rendering_is_unambiguous (hcapital : ∀ c : Char, c.isLower = true → capital c = false)
    (ht : Readable capital t) (hu : Readable capital u) (h : t.render true = u.render true) :
    ∃ ρ : VarId → VarId, Set.BijOn ρ t.ids u.ids ∧
      (t.subst (relabel ρ) == u.subst (relabel id)) = true := by
  obtain ⟨σ, hσ, htext, htinj⟩ := ht.exists_names hcapital
  obtain ⟨τ, hτ, hutext, huinj⟩ := hu.exists_names hcapital
  have halike : Alike (SameName σ τ) t u := by
    refine (ht.tells_text hσ hτ .whole hu [] [] trivial trivial ?_).1
    rw [text_of_not_encloses rfl, text_of_not_encloses rfl, ← htext, ← hutext, h]
  -- a variable becomes the one that has its name in the other type
  let owner : Name → VarId := Function.invFunOn τ u.ids
  have howner : Set.BijOn owner (σ '' t.ids) u.ids := by
    rw [halike.image_ids_eq]
    exact Set.BijOn.symm huinj.bijOn_image.invOn_invFunOn.symm huinj.bijOn_image
  have hback : u.subst (relabel (owner ∘ τ)) = u.subst (relabel id) := by
    refine hu.subst_congr fun v hv => ?_
    have hid : owner (τ v.id) = v.id := huinj.leftInvOn_invFunOn ⟨v, hv, rfl⟩
    rw [relabel, relabel, Function.comp_apply, hid, id]
  refine ⟨owner ∘ σ, howner.comp htinj.bijOn_image, ?_⟩
  rw [← hback]
  exact halike.beq_subst_relabel fun hname => congrArg owner hname

/-- A function type, and one that has other variables and calls each of them by several names. -/
theorem qualified_rendering_is_unambiguous_of_reader :
    let reader (a a' a'' b b' : TyVar) : Ty :=
      .arrow [.arrow [.var a] (.var b) none,
          .union "Json.Decode" "Decoder" [.union "Maybe" "Maybe" [.var a'] none] none]
        (.record [("first", .tuple [.unit, .var b'])] (some (.var a'')) none .empty) none
    let t := reader ⟨0, "a", false⟩ ⟨0, "a", false⟩ ⟨0, "a", false⟩ ⟨1, "b", true⟩ ⟨1, "b", true⟩
    let u := reader ⟨4, "a", false⟩ ⟨4, "x", false⟩ ⟨4, "b", true⟩ ⟨2, "a", false⟩ ⟨2, "y", false⟩
    t.render true = "(a -> b) -> Json.Decode.Decoder (Maybe.Maybe a) -> \x7b a | first : ( (), b ) \x7d" ∧
      ∃ ρ : VarId → VarId, Set.BijOn ρ t.ids u.ids ∧ (t.subst (relabel ρ) == u.subst (relabel id)) = true := by
  intro reader t u
  have hunion {m n : Name} {arg : Ty} (hm : Dotted m) (hn : Cased Char.isUpper true n)
      (harg : Readable Char.isUpper arg) : Readable Char.isUpper (.union m n [arg] none) :=
    .union (.inr hm) hn (List.forall_mem_singleton.mpr harg)
  have hreader (a a' a'' b b' : TyVar)
      (h : ∀ v ∈ [a, a', a'', b, b'], Cased Char.isUpper false v.name ∧ v.typeclass = none) :
      Readable Char.isUpper (reader a a' a'' b b') := by
    simp only [List.forall_mem_cons] at h
    obtain ⟨ha, ha', ha'', hb, hb', -⟩ := h
    have hcallback : Readable Char.isUpper (.arrow [.var a] (.var b) none) :=
      .arrow (List.cons_ne_nil _ _) rfl (List.forall_mem_singleton.mpr (.var ha.1 ha.2)) (.var hb.1 hb.2)
    have hdecoder : Readable Char.isUpper
        (.union "Json.Decode" "Decoder" [.union "Maybe" "Maybe" [.var a'] none] none) :=
      hunion (by decide +kernel) (by decide +kernel) (hunion (by decide +kernel) (by decide +kernel) (.var ha'.1 ha'.2))
    have hpair : Readable Char.isUpper (.tuple [.unit, .var b']) :=
      .tuple (Nat.le_refl 2) (List.forall_mem_cons.mpr ⟨.unit, List.forall_mem_singleton.mpr (.var hb'.1 hb'.2)⟩)
    exact .arrow (List.cons_ne_nil _ _) rfl
      (List.forall_mem_cons.mpr ⟨hcallback, List.forall_mem_singleton.mpr hdecoder⟩)
      (.extension (List.cons_ne_nil _ _) ha''.1 ha''.2
        (List.forall_mem_singleton.mpr (by decide +kernel : Identifier "first"))
        (List.forall_mem_singleton.mpr hpair))
  have hcapital (c : Char) (hc : c.isLower = true) : c.isUpper = false := by
    refine Bool.eq_false_iff.mpr fun hupper => ?_
    have ha : 'a'.val ≤ c.val := of_decide_eq_true (Bool.and_eq_true_iff.mp hc).1
    obtain ⟨-, hz⟩ : 'A'.val ≤ c.val ∧ c.val ≤ 'Z'.val := of_decide_eq_true hupper
    exact absurd (UInt32.le_trans ha hz) (by decide)
  exact ⟨by decide +kernel, qualified_rendering_is_unambiguous hcapital (hreader _ _ _ _ _ (by decide +kernel))
    (hreader _ _ _ _ _ (by decide +kernel)) (by decide +kernel)⟩

end Ty

end ElmInference
