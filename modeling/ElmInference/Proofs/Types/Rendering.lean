import ElmInference.Ty.Render
import ElmInference.Proofs.Store.Mentions
import Mathlib.Data.List.Nodup
import Mathlib.Data.List.Perm.Subperm

/-!
# The names in a rendered type

A rendered type is its spelling under one assignment of names to variables, and the assignment is the one that is left
after the variables have been met in reading order. What later variables are called has no influence on the names given
before, so an occurrence is spelled by the final assignment as well as by the one of its time. Two variables are told
apart because a name is given to a second variable only if it marks a class, and an invented name never does.
-/

namespace ElmInference

/-! ### The sequence of names -/

def nthLetter (n : Nat) : Char := Char.ofNat ('a'.toNat + n % 26)

/-- The digits after the letter; there are none in the first round through the alphabet. -/
def roundDigits (n : Nat) : List Char := if n < 26 then [] else Nat.toDigits 10 (n / 26)

theorem toList_nthVarName (n : Nat) : (nthVarName n).toList = nthLetter n :: roundDigits n := by
  unfold nthVarName nthLetter roundDigits
  split
  · simp [Char.toString]
  · simp [Char.toString, Nat.toList_repr]

theorem toNat_nthLetter (n : Nat) : (nthLetter n).toNat = 97 + n % 26 := by
  have hvalid : (97 + n % 26).isValidChar := .inl (by omega)
  have ha : 'a'.toNat = 97 := rfl
  unfold nthLetter
  rw [ha, Char.ofNat, dif_pos hvalid]
  rfl

theorem roundDigits_injective {n m : Nat} (h : roundDigits n = roundDigits m) : n / 26 = m / 26 := by
  unfold roundDigits at h
  split at h <;> split at h
  · omega
  · exact absurd h.symm Nat.toDigits_ne_nil
  · exact absurd h Nat.toDigits_ne_nil
  · have := congrArg (fun digits => Nat.ofDigitChars 10 digits 0) h
    simpa using this

theorem nthVarName_injective : Function.Injective nthVarName := by
  intro n m h
  have hlist := congrArg String.toList h
  rw [toList_nthVarName, toList_nthVarName] at hlist
  injection hlist with hletter hdigits
  have hmod := congrArg Char.toNat hletter
  rw [toNat_nthLetter, toNat_nthLetter] at hmod
  have hdiv := roundDigits_injective hdigits
  omega

theorem isDigit_of_mem_roundDigits {n : Nat} {c : Char} (h : c ∈ roundDigits n) : c.isDigit := by
  unfold roundDigits at h
  split at h
  · cases h
  · exact Nat.isDigit_of_mem_toDigits (by omega) (by omega) h

/-- The second letter of a class is not a digit. -/
theorem ofName_nthVarName (n : Nat) : Typeclass.ofName (nthVarName n) = none := by
  rw [Typeclass.ofName, List.find?_eq_none]
  intro c _
  rw [Typeclass.marks, toList_nthVarName]
  cases hrest : roundDigits n with
  | nil => cases c <;> simp [Typeclass.name]
  | cons d rest =>
    have hd : d.isDigit := isDigit_of_mem_roundDigits (hrest ▸ List.mem_cons_self)
    have hne : ∀ letter : Char, letter.isDigit = false → letter ≠ d := by
      rintro letter hletter rfl
      simp [hletter] at hd
    cases c <;> simp [Typeclass.name, hne 'u' (by decide), hne 'o' (by decide), hne 'p' (by decide)]

namespace Naming

variable {N : Naming} {v w : TyVar} {vs : List TyVar} {id : VarId} {name : Name}

/-- Some name of the sequence is free, and the first one is found although only finitely many are tried. -/
theorem unused_is_first_free (taken : List Name) :
    ∃ n, unused taken = nthVarName n ∧ nthVarName n ∉ taken ∧ ∀ m < n, nthVarName m ∈ taken := by
  unfold unused
  dsimp only
  rw [List.find?_map]
  cases hfind : (List.range (taken.length + 1)).find? ((fun name => !taken.contains name) ∘ nthVarName) with
  | none =>
    rw [List.find?_eq_none] at hfind
    have hsub : (List.range (taken.length + 1)).map nthVarName ⊆ taken := by
      intro name hname
      obtain ⟨n, hn, rfl⟩ := List.mem_map.mp hname
      simpa using hfind n hn
    have hnodup : ((List.range (taken.length + 1)).map nthVarName).Nodup :=
      List.nodup_range.map nthVarName_injective
    have hlength := (hnodup.subperm hsub).length_le
    rw [List.length_map, List.length_range] at hlength
    omega
  | some n =>
    obtain ⟨hfree, _, hfirst⟩ := List.find?_range_eq_some.mp hfind
    exact ⟨n, rfl, by simpa using hfree, fun m hm => by simpa using hfirst m hm⟩

theorem unused_not_mem (taken : List Name) : unused taken ∉ taken := by
  obtain ⟨n, heq, hfree, _⟩ := unused_is_first_free taken
  exact heq ▸ hfree

theorem ofName_unused (taken : List Name) : Typeclass.ofName (unused taken) = none := by
  obtain ⟨n, heq, _, _⟩ := unused_is_first_free taken
  exact heq ▸ ofName_nthVarName n

/-! ### Meeting variables -/

def meet (N : Naming) (vs : List TyVar) : Naming :=
  vs.foldl (fun N v => (N.nameOf v).2) N

theorem meet_append (N : Naming) (vs ws : List TyVar) : N.meet (vs ++ ws) = (N.meet vs).meet ws :=
  List.foldl_append

theorem nameOf_of_some (h : Assoc.get? N.names v.id = some name) : N.nameOf v = (name, N) := by
  rw [nameOf, h]

theorem nameOf_of_none (h : Assoc.get? N.names v.id = none) :
    N.nameOf v = (N.choose v, ⟨N.names ++ [(v.id, N.choose v)], N.taken ++ [N.choose v]⟩) := by
  rw [nameOf, h]

/-- What is known after a variable has been met: what was known before, and the name it is given if it is new. -/
theorem get?_nameOf (N : Naming) (v : TyVar) (id : VarId) :
    Assoc.get? (N.nameOf v).2.names id =
      (Assoc.get? N.names id).or (if v.id = id then some (N.choose v) else none) := by
  cases h : Assoc.get? N.names v.id with
  | some name =>
    rw [nameOf_of_some h]
    split
    · next heq =>
      rw [← heq, h]
      rfl
    · rw [Option.or_none]
  | none =>
    rw [nameOf_of_none h, Assoc.get?_append]
    rfl

theorem get?_nameOf_self (N : Naming) (v : TyVar) :
    Assoc.get? (N.nameOf v).2.names v.id = some (N.nameOf v).1 := by
  rw [get?_nameOf]
  cases h : Assoc.get? N.names v.id with
  | some name => rw [nameOf_of_some h, Option.some_or]
  | none => rw [nameOf_of_none h, if_pos rfl, Option.none_or]

theorem get?_meet_of_some (h : Assoc.get? N.names id = some name) (vs : List TyVar) :
    Assoc.get? (N.meet vs).names id = some name := by
  induction vs generalizing N with
  | nil => exact h
  | cons v vs ih => exact ih (by rw [get?_nameOf, h, Option.some_or])

theorem exists_get?_meet (h : v ∈ vs) : ∃ name, Assoc.get? (N.meet vs).names v.id = some name := by
  induction vs generalizing N with
  | nil => cases h
  | cons w vs ih =>
    rcases List.mem_cons.mp h with rfl | h
    · exact ⟨_, get?_meet_of_some (get?_nameOf_self N v) vs⟩
    · exact ih h

/-- A naming with which names are told apart: a name of two variables marks a class. -/
structure TellsApart (N : Naming) : Prop where
  taken : ∀ {id name}, Assoc.get? N.names id = some name → name ∈ N.taken
  marked : ∀ {id id' name}, Assoc.get? N.names id = some name → Assoc.get? N.names id' = some name → id ≠ id' →
    (Typeclass.ofName name).isSome

theorem ofName_choose_of_mem_taken (h : N.choose v ∈ N.taken) : (Typeclass.ofName (N.choose v)).isSome := by
  unfold choose at h ⊢
  split at h
  · next hkeep =>
    rw [if_pos hkeep]
    rcases Bool.or_eq_true_iff.mp hkeep with hclass | hfree
    · exact hclass
    · simp [h] at hfree
  · exact absurd h (unused_not_mem N.taken)

theorem TellsApart.nameOf (hN : N.TellsApart) (v : TyVar) : (N.nameOf v).2.TellsApart := by
  cases hknown : Assoc.get? N.names v.id with
  | some name =>
    rw [nameOf_of_some hknown]
    exact hN
  | none =>
    -- the name of an old variable is in use; if the new variable is given it all the same, it marks a class
    have hget : ∀ {id name}, Assoc.get? (N.nameOf v).2.names id = some name →
        Assoc.get? N.names id = some name ∨ v.id = id ∧ N.choose v = name := by
      intro id name h
      rw [get?_nameOf, Option.or_eq_some_iff] at h
      rcases h with h | ⟨_, h⟩
      · exact .inl h
      · split at h
        · next heq => exact .inr ⟨heq, Option.some.inj h⟩
        · cases h
    have hshared : ∀ {id}, Assoc.get? N.names id = some (N.choose v) → (Typeclass.ofName (N.choose v)).isSome :=
      fun h => ofName_choose_of_mem_taken (hN.taken h)
    refine ⟨fun h => ?_, fun h h' hne => ?_⟩
    · rw [nameOf_of_none hknown]
      rcases hget h with h | ⟨_, rfl⟩
      · exact List.mem_append_left _ (hN.taken h)
      · exact List.mem_append_right _ (List.mem_singleton.mpr rfl)
    · rcases hget h with h | ⟨hid, hname⟩ <;> rcases hget h' with h' | ⟨hid', hname'⟩
      · exact hN.marked h h' hne
      · exact hname' ▸ hshared (hname' ▸ h)
      · exact hname ▸ hshared (hname ▸ h')
      · exact absurd (hid.symm.trans hid') hne

theorem tellsApart_meet (vs : List TyVar) (hN : N.TellsApart) : (N.meet vs).TellsApart := by
  induction vs generalizing N with
  | nil => exact hN
  | cons v vs ih => exact ih (hN.nameOf v)

/-- A naming that has not changed what class a variable belongs to. -/
def KeepsClass (N : Naming) (v : TyVar) : Prop :=
  ∀ {name}, Assoc.get? N.names v.id = some name → Typeclass.ofName name = v.typeclass

theorem ofName_choose (N : Naming) (v : TyVar) : Typeclass.ofName (N.choose v) = v.typeclass := by
  unfold choose
  split
  · rfl
  · next hnew =>
    rw [ofName_unused, eq_comm]
    exact Option.not_isSome_iff_eq_none.mp fun hclass => hnew (by rw [hclass, Bool.true_or])

theorem keepsClass_meet (hname : ∀ w ∈ vs, w.id = v.id → w.name = v.name) (hN : N.KeepsClass v) :
    (N.meet vs).KeepsClass v := by
  induction vs generalizing N with
  | nil => exact hN
  | cons w vs ih =>
    obtain ⟨hw, hvs⟩ := List.forall_mem_cons.mp hname
    refine ih hvs fun {name} h => ?_
    rw [get?_nameOf, Option.or_eq_some_iff] at h
    rcases h with h | ⟨_, h⟩
    · exact hN h
    · split at h
      · next hid =>
        cases h
        rw [ofName_choose, TyVar.typeclass, TyVar.typeclass, hw hid]
      · cases h

end Naming

namespace Ty

/-! ### Spelling -/

mutual

/-- The source text of a type whose variables have been given names. -/
def spell (qualify : Bool) (σ : VarId → Name) : Ty → String
  | .unit => "()"
  | .unknown => "unknown"
  | .inProgress => "unknown"
  | .growing _ => "\x7b .. \x7d"
  | .var v => σ v.id
  | .union m n args none => typeName qualify m n ++ spellArgs qualify σ args
  | .union _ _ _ (some ⟨m, n, args⟩) => typeName qualify m n ++ spellArgs qualify σ args
  | .tuple items => "( " ++ String.intercalate ", " (spellList qualify σ items) ++ " )"
  | .record fields base none _ => recordText (spellFields qualify σ fields) (spellBase qualify σ base)
  | .record _ _ (some ⟨m, n, args⟩) _ => typeName qualify m n ++ spellArgs qualify σ args
  | .arrow params ret none =>
    String.intercalate " -> " (spellSegments qualify σ params ++ [parens ret.isBareArrow (spell qualify σ ret)])
  | .arrow _ _ (some ⟨m, n, args⟩) => typeName qualify m n ++ spellArgs qualify σ args

def spellArgs (qualify : Bool) (σ : VarId → Name) : List Ty → String
  | [] => ""
  | t :: ts => " " ++ parens t.needsParens (spell qualify σ t) ++ spellArgs qualify σ ts

def spellList (qualify : Bool) (σ : VarId → Name) : List Ty → List String
  | [] => []
  | t :: ts => spell qualify σ t :: spellList qualify σ ts

def spellSegments (qualify : Bool) (σ : VarId → Name) : List Ty → List String
  | [] => []
  | t :: ts => parens t.isBareArrow (spell qualify σ t) :: spellSegments qualify σ ts

def spellFields (qualify : Bool) (σ : VarId → Name) : List (Name × Ty) → List String
  | [] => []
  | (name, t) :: rest => (name ++ " : " ++ spell qualify σ t) :: spellFields qualify σ rest

def spellBase (qualify : Bool) (σ : VarId → Name) : Option Ty → Option String
  | none => none
  | some t => some (spell qualify σ t)

end

mutual

/-- The variables that can be read off a rendered type, in reading order. Of a type with an alias these are the ones of
the alias arguments. -/
def shown : Ty → List TyVar
  | .unit => []
  | .unknown => []
  | .inProgress => []
  | .growing _ => []
  | .var v => [v]
  | .union _ _ args none => shownList args
  | .union _ _ _ (some ⟨_, _, args⟩) => shownList args
  | .tuple items => shownList items
  | .record fields base none _ => shownFields fields ++ shownBase base
  | .record _ _ (some ⟨_, _, args⟩) _ => shownList args
  | .arrow params ret none => shownList params ++ ret.shown
  | .arrow _ _ (some ⟨_, _, args⟩) => shownList args

def shownList : List Ty → List TyVar
  | [] => []
  | t :: ts => t.shown ++ shownList ts

def shownFields : List (Name × Ty) → List TyVar
  | [] => []
  | (_, t) :: rest => t.shown ++ shownFields rest

def shownBase : Option Ty → List TyVar
  | none => []
  | some t => t.shown

end

/-! ### Writing is spelling -/

/-- A text that is written while the variables `vs` are met, and that reads as `f` under the names they have then. -/
def WritesAs {α : Type} (x : StateM Naming α) (vs : List TyVar) (f : (VarId → Name) → α) : Prop :=
  ∀ N : Naming, (x N).2 = N.meet vs ∧
    ∀ σ, (∀ v ∈ vs, Assoc.get? (N.meet vs).names v.id = some (σ v.id)) → (x N).1 = f σ

section

variable {α β : Type} {x : StateM Naming α} {vs ws : List TyVar} {f : (VarId → Name) → α} {qualify : Bool}

theorem writesAs_pure (a : α) : WritesAs (pure a) [] (fun _ => a) :=
  fun _ => ⟨rfl, fun _ _ => rfl⟩

/-- The names that the first text was written with are still the names when the second one has been written. -/
theorem WritesAs.bind {k : α → StateM Naming β} {g : α → (VarId → Name) → β} (hx : WritesAs x vs f)
    (hk : ∀ a, WritesAs (k a) ws (g a)) : WritesAs (x >>= k) (vs ++ ws) (fun σ => g (f σ) σ) := by
  intro N
  obtain ⟨hstate, htext⟩ := hx N
  obtain ⟨hstate', htext'⟩ := hk (x N).1 (N.meet vs)
  have hrun : (x >>= k) N = k (x N).1 (N.meet vs) := by rw [← hstate]; rfl
  rw [hrun, Naming.meet_append]
  refine ⟨hstate', fun σ hσ => ?_⟩
  have hfirst : ∀ v ∈ vs, Assoc.get? (N.meet vs).names v.id = some (σ v.id) := by
    intro v hv
    obtain ⟨name, hname⟩ := Naming.exists_get?_meet (N := N) hv
    have hlater := hσ v (List.mem_append_left _ hv)
    rw [Naming.get?_meet_of_some hname ws] at hlater
    rw [hname, hlater]
  rw [htext' σ fun v hv => hσ v (List.mem_append_right _ hv), htext σ hfirst]

theorem WritesAs.map {g : α → β} (hx : WritesAs x vs f) :
    WritesAs (do return g (← x)) vs (fun σ => g (f σ)) := by
  have := hx.bind fun a => writesAs_pure (g a)
  rwa [List.append_nil] at this

theorem writesAs_var (v : TyVar) : WritesAs (write qualify (.var v)) (shown (.var v)) (spell qualify · (.var v)) := by
  intro N
  simp only [write, shown, spell]
  refine ⟨rfl, fun σ hσ => ?_⟩
  have hname := hσ v (List.mem_singleton.mpr rfl)
  exact Option.some.inj ((Naming.get?_nameOf_self N v).symm.trans hname)

section Lists

variable {ts : List Ty} {fields : List (Name × Ty)}

theorem writesAs_args (h : ∀ t ∈ ts, WritesAs (write qualify t) t.shown (spell qualify · t)) :
    WritesAs (writeArgs qualify ts) (shownList ts) (spellArgs qualify · ts) := by
  induction ts with
  | nil =>
    simp only [writeArgs, shownList, spellArgs]
    exact writesAs_pure ""
  | cons t ts ih =>
    obtain ⟨ht, hts⟩ := List.forall_mem_cons.mp h
    simp only [writeArgs, shownList, spellArgs]
    exact ht.bind fun _ => (ih hts).map

theorem writesAs_list (h : ∀ t ∈ ts, WritesAs (write qualify t) t.shown (spell qualify · t)) :
    WritesAs (writeList qualify ts) (shownList ts) (spellList qualify · ts) := by
  induction ts with
  | nil =>
    simp only [writeList, shownList, spellList]
    exact writesAs_pure []
  | cons t ts ih =>
    obtain ⟨ht, hts⟩ := List.forall_mem_cons.mp h
    simp only [writeList, shownList, spellList]
    exact ht.bind fun _ => (ih hts).map

theorem writesAs_segments (h : ∀ t ∈ ts, WritesAs (write qualify t) t.shown (spell qualify · t)) :
    WritesAs (writeSegments qualify ts) (shownList ts) (spellSegments qualify · ts) := by
  induction ts with
  | nil =>
    simp only [writeSegments, shownList, spellSegments]
    exact writesAs_pure []
  | cons t ts ih =>
    obtain ⟨ht, hts⟩ := List.forall_mem_cons.mp h
    simp only [writeSegments, shownList, spellSegments]
    exact ht.bind fun _ => (ih hts).map

theorem writesAs_fields (h : ∀ field ∈ fields, WritesAs (write qualify field.2) field.2.shown (spell qualify · field.2)) :
    WritesAs (writeFields qualify fields) (shownFields fields) (spellFields qualify · fields) := by
  induction fields with
  | nil =>
    simp only [writeFields, shownFields, spellFields]
    exact writesAs_pure []
  | cons field rest ih =>
    obtain ⟨hfield, hrest⟩ := List.forall_mem_cons.mp h
    simp only [writeFields, shownFields, spellFields]
    exact hfield.bind fun _ => (ih hrest).map

theorem writesAs_base {base : Option Ty}
    (h : ∀ t, base = some t → WritesAs (write qualify t) t.shown (spell qualify · t)) :
    WritesAs (writeBase qualify base) (shownBase base) (spellBase qualify · base) := by
  cases base with
  | none =>
    simp only [writeBase, shownBase, spellBase]
    exact writesAs_pure none
  | some t =>
    simp only [writeBase, shownBase, spellBase]
    exact (h t rfl).map

end Lists

end

theorem writesAs_write (qualify : Bool) (t : Ty) : WritesAs (write qualify t) t.shown (spell qualify · t) := by
  induction t using inductParts with
  | unit => exact writesAs_pure _
  | unknown => exact writesAs_pure _
  | inProgress => exact writesAs_pure _
  | growing id => exact writesAs_pure _
  | var v => exact writesAs_var v
  | union m n args w hargs hw =>
    rcases w with _ | ⟨m', n', others⟩ <;> simp only [write, shown, spell]
    · exact (writesAs_args hargs).map
    · exact (writesAs_args hw).map
  | tuple items hitems =>
    simp only [write, shown, spell]
    exact (writesAs_list hitems).map
  | record fields base w refs hfields hbase hw =>
    rcases w with _ | ⟨m', n', others⟩ <;> simp only [write, shown, spell]
    · exact (writesAs_fields hfields).bind fun _ => (writesAs_base hbase).map
    · exact (writesAs_args hw).map
  | arrow params ret w hparams hret hw =>
    rcases w with _ | ⟨m', n', others⟩ <;> simp only [write, shown, spell]
    · exact (writesAs_segments hparams).bind fun _ => hret.map
    · exact (writesAs_args hw).map

/-- A rendered type is its spelling under one assignment of names, so all occurrences of a variable read the same, and
no variable reads as one without a class does. Every search for a free name finds one, because no name of the sequence
comes twice; and none of them marks a class. -/
theorem rendered_names_are_consistent_and_unambiguous (t : Ty)
    (hnames : ∀ v ∈ t.shown, ∀ w ∈ t.shown, v.id = w.id → v.name = w.name) :
    (∃ σ : VarId → Name, (∀ qualify, t.render qualify = t.spell qualify σ) ∧
      ∀ v ∈ t.shown, ∀ w ∈ t.shown, v.id ≠ w.id → v.typeclass = none → σ v.id ≠ σ w.id) ∧
    (∀ taken, ∃ n, Naming.unused taken = nthVarName n ∧ nthVarName n ∉ taken ∧ ∀ m < n, nthVarName m ∈ taken) ∧
    Function.Injective nthVarName ∧ ∀ n, Typeclass.ofName (nthVarName n) = none := by
  refine ⟨?_, Naming.unused_is_first_free, nthVarName_injective, ofName_nthVarName⟩
  have hempty : ∀ id, Assoc.get? ({} : Naming).names id = none := fun _ => rfl
  have hmet : ∀ v ∈ t.shown, ∃ name, Assoc.get? (Naming.meet {} t.shown).names v.id = some name :=
    fun v hv => Naming.exists_get?_meet hv
  let σ : VarId → Name := fun id => (Assoc.get? (Naming.meet {} t.shown).names id).getD ""
  have hσ : ∀ v ∈ t.shown, Assoc.get? (Naming.meet {} t.shown).names v.id = some (σ v.id) := by
    intro v hv
    obtain ⟨name, hname⟩ := hmet v hv
    simp only [σ, hname, Option.getD_some]
  have happart : (Naming.meet {} t.shown).TellsApart :=
    Naming.tellsApart_meet t.shown ⟨fun h => absurd h (by simp [hempty]), fun h => absurd h (by simp [hempty])⟩
  refine ⟨σ, fun qualify => (writesAs_write qualify t {}).2 σ hσ, fun v hv w hw hne hclass heq => ?_⟩
  have hkeeps : (Naming.meet {} t.shown).KeepsClass v :=
    Naming.keepsClass_meet (fun u hu hid => hnames u hu v hv hid) fun h => absurd h (by simp [hempty])
  have hmarked := happart.marked (hσ v hv) (heq ▸ hσ w hw) hne
  rw [hkeeps (hσ v hv), hclass] at hmarked
  cases hmarked

/-- The second `a` gets the next name, and so does the variable that was called by it. -/
theorem rendered_names_of_clashing_vars :
    let t : Ty := .arrow [.var ⟨0, "a", false⟩, .var ⟨1, "a", false⟩, .var ⟨2, "b", false⟩] (.var ⟨0, "a", false⟩) none
    t.render true = "a -> b -> c -> a" ∧
    (∃ σ : VarId → Name, (∀ qualify, t.render qualify = t.spell qualify σ) ∧
      ∀ v ∈ t.shown, ∀ w ∈ t.shown, v.id ≠ w.id → v.typeclass = none → σ v.id ≠ σ w.id) :=
  ⟨by decide +kernel, (rendered_names_are_consistent_and_unambiguous _ (by decide)).1⟩

end Ty

end ElmInference
