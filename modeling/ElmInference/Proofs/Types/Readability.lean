import ElmInference.Proofs.Types.Rendering
import ElmInference.Proofs.Types.Telling

/-!
# Reading a type text

A type text is written in one of three places: by itself, between arrows, or behind the name of a type. What may follow
depends on the place, since the end of an argument may be followed by another argument, the end of a parameter by an
arrow, and the end of a whole type by neither. Functions, and types with arguments, are put in parentheses where they
would run into what follows. So the parts of a text end at the same places however it is read, and they are parts of the
same kind: an opening bracket is followed by another character in each of its roles, and a word is a variable if and only
if it begins with a small letter and has no dot.
-/

namespace ElmInference

namespace Ty

/-! ### Types that can be read -/

/-- The types whose texts are made of names: each variable is called by a small letter and without a class, each type by
a capital, and neither an alias nor anything that is still unknown hides what the type is. -/
inductive Readable (capital : Char → Bool) : Ty → Prop
  | unit : Readable capital .unit
  | var {v : TyVar} : Cased capital false v.name → v.typeclass = none → Readable capital (.var v)
  | union {m n : Name} {args : List Ty} : m = "" ∨ Dotted m → Cased capital true n → (∀ t ∈ args, Readable capital t) →
      Readable capital (.union m n args none)
  | tuple {items : List Ty} : 2 ≤ items.length → (∀ t ∈ items, Readable capital t) → Readable capital (.tuple items)
  | closed {fields : List (Name × Ty)} {refs : FieldReferences} : (∀ field ∈ fields, Identifier field.1) →
      (∀ field ∈ fields, Readable capital field.2) → Readable capital (.record fields none none refs)
  | extension {fields : List (Name × Ty)} {v : TyVar} {refs : FieldReferences} : fields ≠ [] →
      Cased capital false v.name → v.typeclass = none → (∀ field ∈ fields, Identifier field.1) →
      (∀ field ∈ fields, Readable capital field.2) → Readable capital (.record fields (some (.var v)) none refs)
  | arrow {params : List Ty} {ret : Ty} : params ≠ [] → ret.isBareArrow = false → (∀ t ∈ params, Readable capital t) →
      Readable capital ret → Readable capital (.arrow params ret none)

/-- Types of one shape, with related variables at the same places. -/
inductive Alike (R : VarId → VarId → Prop) : Ty → Ty → Prop
  | unit : Alike R .unit .unit
  | var {v w : TyVar} : R v.id w.id → Alike R (.var v) (.var w)
  | union {m n : Name} {args args' : List Ty} : args.length = args'.length →
      (∀ p ∈ args.zip args', Alike R p.1 p.2) → Alike R (.union m n args none) (.union m n args' none)
  | tuple {items items' : List Ty} : items.length = items'.length → (∀ p ∈ items.zip items', Alike R p.1 p.2) →
      Alike R (.tuple items) (.tuple items')
  | closed {fields fields' : List (Name × Ty)} {refs refs' : FieldReferences} :
      fields.length = fields'.length → (∀ p ∈ fields.zip fields', p.1.1 = p.2.1) →
      (∀ p ∈ fields.zip fields', Alike R p.1.2 p.2.2) →
      Alike R (.record fields none none refs) (.record fields' none none refs')
  | extension {fields fields' : List (Name × Ty)} {v w : TyVar} {refs refs' : FieldReferences} :
      R v.id w.id → fields.length = fields'.length → (∀ p ∈ fields.zip fields', p.1.1 = p.2.1) →
      (∀ p ∈ fields.zip fields', Alike R p.1.2 p.2.2) →
      Alike R (.record fields (some (.var v)) none refs) (.record fields' (some (.var w)) none refs')
  | arrow {params params' : List Ty} {ret ret' : Ty} : params ≠ [] → params.length = params'.length →
      (∀ p ∈ params.zip params', Alike R p.1 p.2) → ret.isBareArrow = false → ret'.isBareArrow = false →
      Alike R ret ret' → Alike R (.arrow params ret none) (.arrow params' ret' none)

/-- The parts between the arrows of a type. -/
def segments : Ty → List Ty
  | .arrow params ret none => params ++ [ret]
  | t => [t]

theorem segments_of_not_bare {t : Ty} (h : t.isBareArrow = false) : t.segments = [t] := by
  unfold segments
  split
  · cases h
  · rfl

theorem segments_ne_nil (t : Ty) : t.segments ≠ [] := by
  unfold segments
  split
  · exact List.append_ne_nil_of_right_ne_nil _ (List.cons_ne_nil _ _)
  · exact List.cons_ne_nil _ _

/-! ### Places -/

/-- Where a type stands: by itself, between arrows, or behind the name of a type. -/
inductive Place where
  | whole
  | segment
  | argument
deriving DecidableEq

def Place.encloses : Place → Ty → Bool
  | .whole, _ => false
  | .segment, t => t.isBareArrow
  | .argument, t => t.needsParens

def Place.text (place : Place) (σ : VarId → Name) (t : Ty) : List Char :=
  (parens (place.encloses t) (t.spell true σ)).toList

/-- What may stand behind a blank that is behind a type. -/
def Place.followers : Place → List Char
  | .whole => [')', '\x7d', '|']
  | _ => [')', '\x7d', '|', '-']

/-- What may follow a type. -/
def Place.Ends (place : Place) : List Char → Prop
  | [] => True
  | ' ' :: rest => place = .argument ∨ ∃ c more, rest = c :: more ∧ c ∈ place.followers
  | c :: _ => c = ')' ∨ c = ','

variable {place : Place} {r : List Char} {σ τ : VarId → Name} {t u : Ty}

/-- Between arrows and behind a name a function is put in parentheses. -/
theorem encloses_arrow (hplace : place ≠ .whole) (params : List Ty) (ret : Ty) :
    place.encloses (.arrow params ret none) = true := by
  cases place with
  | whole => exact absurd rfl hplace
  | segment => rfl
  | argument => rfl

theorem text_of_encloses (h : place.encloses t = true) (σ : VarId → Name) :
    place.text σ t = ['('] ++ (t.spell true σ).toList ++ [')'] := by
  simp [Place.text, h, parens]

theorem text_of_not_encloses (h : place.encloses t = false) (σ : VarId → Name) :
    place.text σ t = (t.spell true σ).toList := by
  simp [Place.text, h, parens]

theorem endsWord_of_ends (h : place.Ends r) : EndsWord r := by
  unfold Place.Ends at h
  rintro c hc
  split at h
  · cases hc
  · cases hc
    rfl
  · cases hc
    rcases h with rfl | rfl <;> rfl

theorem ends_segment_of_whole (h : Place.whole.Ends r) : Place.segment.Ends r := by
  unfold Place.Ends at h ⊢
  split at h
  · trivial
  · obtain h | ⟨c, more, rfl, hc⟩ := h
    · cases h
    · exact .inr ⟨c, more, rfl, List.mem_append_left ['-'] hc⟩
  · exact h

theorem ends_argument_of_ends (h : place.Ends r) : Place.argument.Ends r := by
  unfold Place.Ends at h ⊢
  split at h
  · trivial
  · exact .inl rfl
  · exact h

theorem endsWord_append {q : List Char} {c : Char} (h : q.head? = some c) (hc : isMark c = true) (r : List Char) :
    EndsWord (q ++ r) := by
  intro d hd
  rw [List.head?_append, h] at hd
  exact Option.some.inj hd ▸ hc

/-! ### The texts of the constructors -/

theorem spellList_eq_map (qualify : Bool) (σ : VarId → Name) (ts : List Ty) :
    spellList qualify σ ts = ts.map (spell qualify σ) := by
  induction ts with
  | nil => rfl
  | cons t ts ih => rw [spellList, ih, List.map_cons]

theorem spellSegments_eq_map (qualify : Bool) (σ : VarId → Name) (ts : List Ty) :
    spellSegments qualify σ ts = ts.map fun t => parens t.isBareArrow (spell qualify σ t) := by
  induction ts with
  | nil => rfl
  | cons t ts ih => rw [spellSegments, ih, List.map_cons]

theorem spellFields_eq_map (qualify : Bool) (σ : VarId → Name) (fields : List (Name × Ty)) :
    spellFields qualify σ fields = fields.map fun field => field.1 ++ " : " ++ spell qualify σ field.2 := by
  induction fields with
  | nil => rfl
  | cons field fields ih => rw [spellFields, ih, List.map_cons]

def fieldText (σ : VarId → Name) (field : Name × Ty) : List Char :=
  field.1.toList ++ (" : ".toList ++ Place.whole.text σ field.2)

theorem toList_spellArgs (σ : VarId → Name) (args : List Ty) :
    (spellArgs true σ args).toList = tails [' '] (Place.argument.text σ) args := by
  induction args with
  | nil => rfl
  | cons t ts ih => simp [spellArgs, tails_cons, ih, Place.text, Place.encloses]

theorem toList_intercalate_map {α : Type} (sep : String) (text : α → String) (xs : List α) :
    (String.intercalate sep (xs.map text)).toList = joined sep.toList (fun x => (text x).toList) xs := by
  rw [String.toList_intercalate, List.map_map, ← intercalate_map]
  rfl

theorem toList_spell_unit (σ : VarId → Name) : (spell true σ .unit).toList = ['(', ')'] := by
  rw [spell]
  rfl

theorem toList_spell_empty (σ : VarId → Name) (refs : FieldReferences) :
    (spell true σ (.record [] none none refs)).toList = ['\x7b', '\x7d'] := by
  rw [spell, spellFields, spellBase]
  rfl

theorem toList_spell_union (σ : VarId → Name) (m n : Name) (args : List Ty) :
    (spell true σ (.union m n args none)).toList =
      (typeName true m n).toList ++ tails [' '] (Place.argument.text σ) args := by
  rw [spell, String.toList_append, toList_spellArgs]

theorem toList_spell_tuple (σ : VarId → Name) (items : List Ty) :
    (spell true σ (.tuple items)).toList =
      "( ".toList ++ joined ", ".toList (Place.whole.text σ) items ++ " )".toList := by
  rw [spell, String.toList_append, String.toList_append, spellList_eq_map, toList_intercalate_map]
  rfl

theorem toList_intercalate_fields (σ : VarId → Name) (fields : List (Name × Ty)) :
    (String.intercalate ", " (spellFields true σ fields)).toList = joined ", ".toList (fieldText σ) fields := by
  rw [spellFields_eq_map, toList_intercalate_map]
  congr 1
  funext field
  rw [String.toList_append, String.toList_append, List.append_assoc]
  rfl

theorem toList_spell_arrow (σ : VarId → Name) (params : List Ty) (ret : Ty) :
    (spell true σ (.arrow params ret none)).toList =
      joined " -> ".toList (Place.segment.text σ) (params ++ [ret]) := by
  have hmap : (params ++ [ret]).map (fun t => parens t.isBareArrow (spell true σ t)) =
      params.map (fun t => parens t.isBareArrow (spell true σ t)) ++ [parens ret.isBareArrow (spell true σ ret)] :=
    List.map_append
  rw [spell, spellSegments_eq_map, ← hmap, toList_intercalate_map]
  rfl

theorem toList_spell_closed (σ : VarId → Name) {fields : List (Name × Ty)} (hne : fields ≠ [])
    (refs : FieldReferences) :
    (spell true σ (.record fields none none refs)).toList =
      "\x7b ".toList ++ joined ", ".toList (fieldText σ) fields ++ " \x7d".toList := by
  have hnonempty : (spellFields true σ fields).isEmpty = false := by simp [spellFields_eq_map, hne]
  rw [spell, spellBase, recordText, hnonempty, if_neg Bool.false_ne_true, String.toList_append, String.toList_append,
    toList_intercalate_fields]

theorem toList_spell_extension (σ : VarId → Name) {fields : List (Name × Ty)} (hne : fields ≠ []) (v : TyVar)
    (refs : FieldReferences) :
    (spell true σ (.record fields (some (.var v)) none refs)).toList =
      "\x7b ".toList ++ ((σ v.id).toList ++ (" | ".toList ++ joined ", ".toList (fieldText σ) fields)) ++
        " \x7d".toList := by
  have hnonempty : (spellFields true σ fields).isEmpty = false := by simp [spellFields_eq_map, hne]
  rw [spell, spellBase, recordText, hnonempty, if_neg Bool.false_ne_true]
  simp only [String.toList_append, toList_intercalate_fields, spell, List.append_assoc]

/-- The text of a type is made of the texts between its arrows. -/
theorem toList_spell_eq_joined (σ : VarId → Name) (t : Ty) :
    (t.spell true σ).toList = joined " -> ".toList (Place.segment.text σ) t.segments := by
  cases hbare : t.isBareArrow with
  | true =>
    unfold isBareArrow at hbare
    split at hbare
    · exact toList_spell_arrow σ _ _
    · cases hbare
  | false =>
    rw [segments_of_not_bare hbare, joined, text_of_not_encloses (show Place.segment.encloses t = false from hbare)]
    exact (List.append_nil _).symm

/-! ### How a text begins -/

def Opens (c : Char) : Prop :=
  isMark c = false ∨ c = '(' ∨ c = '\x7b'

theorem exists_opening_text (h : ∃ c rest, (t.spell true σ).toList = c :: rest ∧ Opens c) (place : Place) :
    ∃ c rest, place.text σ t = c :: rest ∧ Opens c := by
  cases hencloses : place.encloses t with
  | true => exact ⟨'(', _, text_of_encloses hencloses σ, .inr (.inl rfl)⟩
  | false =>
    rw [text_of_not_encloses hencloses]
    exact h

variable {capital : Char → Bool}

def CallsSmall (capital : Char → Bool) (σ : VarId → Name) : Prop :=
  ∀ id, Cased capital false (σ id)

theorem Readable.exists_opening (hσ : CallsSmall capital σ) (h : Readable capital t) :
    ∃ c rest, (t.spell true σ).toList = c :: rest ∧ Opens c := by
  induction h with
  | unit => exact ⟨_, _, toList_spell_unit σ, .inr (.inl rfl)⟩
  | @var v =>
    obtain ⟨c, rest, hlist, hc⟩ := (hσ v.id).1.1.exists_cons
    exact ⟨c, rest, hlist, .inl hc⟩
  | @union m n args hm hn _ _ =>
    obtain ⟨c, rest, hlist, hc⟩ := (Dotted.typeName hm hn.1.1).exists_cons
    exact ⟨c, _, by rw [toList_spell_union, hlist]; rfl, .inl hc⟩
  | tuple => exact ⟨_, _, toList_spell_tuple σ _, .inr (.inl rfl)⟩
  | @closed fields refs =>
    cases fields with
    | nil => exact ⟨_, _, toList_spell_empty σ refs, .inr (.inr rfl)⟩
    | cons => exact ⟨_, _, toList_spell_closed σ (List.cons_ne_nil _ _) refs, .inr (.inr rfl)⟩
  | extension hne => exact ⟨_, _, toList_spell_extension σ hne _ _, .inr (.inr rfl)⟩
  | @arrow params ret hne _ _ _ ih _ =>
    cases params with
    | nil => exact absurd rfl hne
    | cons first params =>
      obtain ⟨c, rest, htext, hc⟩ := exists_opening_text (ih first List.mem_cons_self) .segment
      exact ⟨c, _, by rw [toList_spell_arrow, List.cons_append, joined, htext]; rfl, hc⟩

/-- What can be seen at the beginning of a text. -/
inductive Lead where
  | unit
  | tuple
  | enclosed
  | record
  | word

/-- What the first two characters of a text say. -/
def Lead.ofText : List Char → Lead
  | '(' :: ')' :: _ => .unit
  | '(' :: ' ' :: _ => .tuple
  | '(' :: _ => .enclosed
  | '\x7b' :: _ => .record
  | _ => .word

def lead : Ty → Lead
  | .unit => .unit
  | .tuple _ => .tuple
  | .record _ _ _ _ => .record
  | _ => .word

theorem ofText_of_word {c : Char} (hc : isMark c = false) (rest : List Char) : Lead.ofText (c :: rest) = .word := by
  unfold Lead.ofText
  split <;> first | rfl | (next heq => cases heq; cases hc)

theorem ofText_of_opens {c : Char} (hc : Opens c) (rest : List Char) : Lead.ofText ('(' :: c :: rest) = .enclosed := by
  have hclosing : c ≠ ')' := by
    rintro rfl
    rcases hc with hc | hc | hc <;> cases hc
  have hblank : c ≠ ' ' := by
    rintro rfl
    rcases hc with hc | hc | hc <;> cases hc
  simp [Lead.ofText, hclosing, hblank]

theorem Readable.ofText_text (hσ : CallsSmall capital σ) (h : Readable capital t)
    (hplace : place ≠ .whole) (r : List Char) :
    Lead.ofText (place.text σ t ++ r) = if place.encloses t then .enclosed else t.lead := by
  cases hencloses : place.encloses t with
  | true =>
    obtain ⟨c, rest, hlist, hc⟩ := h.exists_opening hσ
    rw [text_of_encloses hencloses, hlist]
    exact ofText_of_opens hc _
  | false =>
    rw [text_of_not_encloses hencloses, if_neg Bool.false_ne_true]
    cases h with
    | unit =>
      rw [toList_spell_unit]
      rfl
    | @var v =>
      obtain ⟨c, rest, hlist, hc⟩ := (hσ v.id).1.1.exists_cons
      rw [spell, hlist]
      exact ofText_of_word hc _
    | @union m n args hm hn =>
      obtain ⟨c, rest, hlist, hc⟩ := (Dotted.typeName hm hn.1.1).exists_cons
      rw [toList_spell_union, hlist]
      exact ofText_of_word hc _
    | tuple =>
      rw [toList_spell_tuple]
      rfl
    | @closed fields refs =>
      cases fields with
      | nil =>
        rw [toList_spell_empty]
        rfl
      | cons =>
        rw [toList_spell_closed σ (List.cons_ne_nil _ _)]
        rfl
    | extension hne =>
      rw [toList_spell_extension σ hne]
      rfl
    | arrow =>
      rw [encloses_arrow hplace] at hencloses
      cases hencloses

theorem lead_ne_enclosed (t : Ty) : t.lead ≠ .enclosed := by
  cases t <;> simp [lead]

/-! ### Reading -/

def SameName (σ τ : VarId → Name) (i j : VarId) : Prop :=
  σ i = τ j

section

variable (hσ : CallsSmall capital σ) (hτ : CallsSmall capital τ)
include hσ hτ

/-- Two types are told apart at a place if they are when both are put in parentheses there and when neither is. -/
theorem tells_text_of {P : Prop} (ht : Readable capital t) (hu : Readable capital u) (hplace : place ≠ .whole)
    (hplain : place.encloses t = false → place.encloses u = false → t.lead = u.lead →
      Tells place.Ends (t.spell true σ).toList (u.spell true τ).toList P)
    (hwhole : place.encloses t = true → Tells Place.whole.Ends (t.spell true σ).toList (u.spell true τ).toList P) :
    Tells place.Ends (place.text σ t) (place.text τ u) P := by
  intro r s hr hs heq
  have hlead := congrArg Lead.ofText heq
  rw [ht.ofText_text hσ hplace, hu.ofText_text hτ hplace] at hlead
  cases ht' : place.encloses t <;> cases hu' : place.encloses u <;> rw [ht', hu'] at hlead
  · rw [text_of_not_encloses ht', text_of_not_encloses hu'] at heq
    exact hplain ht' hu' hlead r s hr hs heq
  · exact absurd hlead (lead_ne_enclosed t)
  · exact absurd hlead.symm (lead_ne_enclosed u)
  · rw [text_of_encloses ht', text_of_encloses hu'] at heq
    exact (hwhole ht').between ['('] [')'] (fun _ => .inl rfl) r s hr hs heq

end

theorem Readable.segments (h : Readable capital t) : ∀ x ∈ t.segments, Readable capital x := by
  cases hbare : t.isBareArrow with
  | true =>
    cases h with
    | arrow _ _ hparams hret =>
      intro x hx
      rcases List.mem_append.mp hx with hx | hx
      · exact hparams x hx
      · exact List.mem_singleton.mp hx ▸ hret
    | _ => cases hbare
  | false =>
    rw [segments_of_not_bare hbare]
    exact fun x hx => List.mem_singleton.mp hx ▸ h

theorem forall_zip_of_forall₂ {α β : Type} {R : α → β → Prop} {xs : List α} {ys : List β} (h : List.Forall₂ R xs ys) :
    ∀ p ∈ xs.zip ys, R p.1 p.2 :=
  fun _ hp => (List.forall₂_iff_zip.mp h).2 hp

theorem forall₂_of_forall_zip {α β : Type} {R : α → β → Prop} {xs : List α} {ys : List β}
    (hlength : xs.length = ys.length) (h : ∀ p ∈ xs.zip ys, R p.1 p.2) : List.Forall₂ R xs ys :=
  List.forall₂_iff_zip.mpr ⟨hlength, fun hp => h _ hp⟩

variable {R : VarId → VarId → Prop}

theorem Readable.one_lt_length_segments (h : Readable capital t) (hbare : t.isBareArrow = true) :
    1 < t.segments.length := by
  cases h with
  | arrow hne =>
    rw [Ty.segments, List.length_append, List.length_singleton]
    exact Nat.succ_lt_succ (List.length_pos_iff.mpr hne)
  | _ => cases hbare

/-- Types are alike if the parts between their arrows are. -/
theorem Readable.alike_of_segments (ht : Readable capital t) (hu : Readable capital u)
    (h : List.Forall₂ (Alike R) t.segments u.segments) : Alike R t u := by
  have hlength := h.length_eq
  cases ht' : t.isBareArrow <;> cases hu' : u.isBareArrow
  · rw [segments_of_not_bare ht', segments_of_not_bare hu'] at h
    exact (List.forall₂_cons.mp h).1
  · rw [segments_of_not_bare ht'] at hlength
    exact absurd hlength (Nat.ne_of_lt (hu.one_lt_length_segments hu'))
  · rw [segments_of_not_bare hu'] at hlength
    exact absurd hlength (Nat.ne_of_gt (ht.one_lt_length_segments ht'))
  · cases ht with
    | arrow hne hret =>
      cases hu with
      | arrow _ hret' =>
        rw [Ty.segments, Ty.segments, ← List.forall₂_reverse_iff, List.reverse_concat, List.reverse_concat,
          List.forall₂_cons, List.forall₂_reverse_iff] at h
        exact .arrow hne h.2.length_eq (forall_zip_of_forall₂ h.2) hret hret' h.1
      | _ => cases hu'
    | _ => cases ht'

section

variable (hσ : CallsSmall capital σ) (hτ : CallsSmall capital τ)

/-- A type is told from another one if the parts between its arrows are. -/
theorem Readable.tells_whole (ht : Readable capital t) (hu : Readable capital u)
    (h : ∀ x ∈ t.segments, ∀ y, Readable capital y →
      Tells Place.segment.Ends (Place.segment.text σ x) (Place.segment.text τ y) (Alike R x y)) :
    Tells Place.whole.Ends (t.spell true σ).toList (u.spell true τ).toList (Alike R t u) := by
  rw [toList_spell_eq_joined, toList_spell_eq_joined]
  refine Tells.imp (tells_joined (segments_ne_nil t) (segments_ne_nil u) (fun x hx y hy => h x hx y (hu.segments y hy))
    (fun rest => .inr ⟨'-', _, rfl, by decide⟩) (fun _ => ends_segment_of_whole) ?_) (ht.alike_of_segments hu)
  rintro r rest hr rfl
  obtain h | ⟨c, more, heq, hc⟩ := hr
  · cases h
  · cases heq
    exact absurd hc (by decide)

/-- Whether a type is told from others that begin like it, where neither of the two is put in parentheses. -/
def TellsPlainly (capital : Char → Bool) (σ τ : VarId → Name) (R : VarId → VarId → Prop) (t : Ty) : Prop :=
  ∀ (place : Place) (u : Ty), place ≠ .whole → Readable capital u → place.encloses t = false →
    place.encloses u = false → t.lead = u.lead →
    Tells place.Ends (t.spell true σ).toList (u.spell true τ).toList (Alike R t u)

include hσ hτ in
/-- A type is told from another one at all places if the parts between its arrows are, and if it is where it needs no
parentheses. -/
theorem Readable.tells_text_of_parts (ht : Readable capital t)
    (hsegments : ∀ x ∈ t.segments, ∀ y, Readable capital y →
      Tells Place.segment.Ends (Place.segment.text σ x) (Place.segment.text τ y) (Alike R x y))
    (hplain : TellsPlainly capital σ τ R t) (place : Place) (hu : Readable capital u) :
    Tells place.Ends (place.text σ t) (place.text τ u) (Alike R t u) := by
  have hwhole := ht.tells_whole hu hsegments
  by_cases hplace : place = .whole
  · subst hplace
    rwa [text_of_not_encloses rfl, text_of_not_encloses rfl]
  · exact tells_text_of hσ hτ ht hu hplace (hplain place u hplace hu) fun _ => hwhole

include hσ hτ in
theorem Readable.tells_text_of_plain (ht : Readable capital t) (hbare : t.isBareArrow = false)
    (hplain : TellsPlainly capital σ τ R t) (place : Place) (hu : Readable capital u) :
    Tells place.Ends (place.text σ t) (place.text τ u) (Alike R t u) := by
  refine ht.tells_text_of_parts hσ hτ (fun x hx y hy => ?_) hplain place hu
  rw [segments_of_not_bare hbare, List.mem_singleton] at hx
  subst hx
  refine tells_text_of hσ hτ ht hy nofun (hplain .segment y nofun hy) fun h => ?_
  rw [Place.encloses, hbare] at h
  cases h

/-! ### Reading the constructors -/

theorem tellsPlainly_unit : TellsPlainly capital σ τ R .unit := by
  intro place u _ hu _ _ hlead
  cases hu with
  | unit =>
    rw [toList_spell_unit, toList_spell_unit]
    exact (tells_same _).imp fun _ => .unit
  | _ => cases hlead

/-- Whether each of some types is told from others by itself and at all places. -/
def TellsAll (capital : Char → Bool) (σ τ : VarId → Name) (R : VarId → VarId → Prop) (ts : List Ty) : Prop :=
  ∀ t ∈ ts, ∀ (place : Place) (u : Ty), Readable capital u →
    Tells place.Ends (place.text σ t) (place.text τ u) (Alike R t u)

/-- Texts with commas between them, before a closing bracket. -/
theorem tells_listed {α β : Type} {f : α → List Char} {g : β → List Char} {xs : List α} {ys : List β}
    {Q : α → β → Prop} {c : Char} (hc : c = ')' ∨ c = '\x7d') (hxs : xs ≠ []) (hys : ys ≠ [])
    (h : ∀ x ∈ xs, ∀ y ∈ ys, Tells Place.whole.Ends (f x) (g y) (Q x y)) :
    Tells ([' ', c] <+: ·) (joined ", ".toList f xs) (joined ", ".toList g ys) (List.Forall₂ Q xs ys) := by
  refine tells_joined hxs hys h (fun rest => .inr rfl) ?_ ?_
  · rintro _ ⟨rest, rfl⟩
    exact .inr ⟨c, _, rfl, by rcases hc with rfl | rfl <;> decide⟩
  · rintro _ rest ⟨_, rfl⟩ heq
    cases heq

theorem tellsPlainly_tuple {items : List Ty} (hlength : 2 ≤ items.length) (h : TellsAll capital σ τ R items) :
    TellsPlainly capital σ τ R (.tuple items) := by
  intro place u _ hu _ _ hlead
  cases hu with
  | @tuple items' hlength' hitems' =>
    rw [toList_spell_tuple, toList_spell_tuple]
    have hitems : Tells ([' ', ')'] <+: ·) (joined ", ".toList (Place.whole.text σ) items)
        (joined ", ".toList (Place.whole.text τ) items') (List.Forall₂ (Alike R) items items') :=
      tells_listed (.inl rfl) (by rintro rfl; cases hlength) (by rintro rfl; cases hlength')
        fun x hx y hy => h x hx .whole y (hitems' y hy)
    exact (hitems.between _ _ (List.prefix_append _)).imp fun hall => .tuple hall.length_eq (forall_zip_of_forall₂ hall)
  | _ => cases hlead

/-! ### Reading records -/

/-- A name that is followed by a colon in one text and by a bar in the other one. -/
theorem tells_of_name_ne {ends : List Char → Prop} {P : Prop} {a b : Name} (ha : Dotted a) (hb : Dotted b)
    (c d : List Char) : Tells ends (a.toList ++ (" : ".toList ++ c)) (b.toList ++ (" | ".toList ++ d)) P := by
  refine tells_of_ne fun r s _ _ heq => ?_
  rw [List.append_assoc, List.append_assoc, List.append_assoc, List.append_assoc] at heq
  obtain ⟨-, heq⟩ := tells_word ha hb _ _ (endsWord_append rfl (by decide) _) (endsWord_append rfl (by decide) _) heq
  cases heq

theorem tells_field {field field' : Name × Ty} (hname : Identifier field.1) (hname' : Identifier field'.1)
    (h : Tells Place.whole.Ends (Place.whole.text σ field.2) (Place.whole.text τ field'.2) (Alike R field.2 field'.2)) :
    Tells Place.whole.Ends (fieldText σ field) (fieldText τ field')
      (field.1 = field'.1 ∧ Alike R field.2 field'.2) :=
  (tells_word hname.1 hname'.1).append (fun r _ => endsWord_append rfl (by decide) r)
    (fun r _ => endsWord_append rfl (by decide) r) fun _ => h.behind _

section

variable {fields fields' : List (Name × Ty)} {v w : TyVar} {refs refs' : FieldReferences}

theorem tells_fields (hne : fields ≠ []) (hne' : fields' ≠ []) (hnames : ∀ field ∈ fields, Identifier field.1)
    (hnames' : ∀ field ∈ fields', Identifier field.1) (h : TellsAll capital σ τ R (fields.map (·.2)))
    (hfields' : ∀ field ∈ fields', Readable capital field.2) :
    Tells ([' ', '\x7d'] <+: ·) (joined ", ".toList (fieldText σ) fields) (joined ", ".toList (fieldText τ) fields')
      (List.Forall₂ (fun field field' => field.1 = field'.1 ∧ Alike R field.2 field'.2) fields fields') :=
  tells_listed (.inr rfl) hne hne' fun field hfield field' hfield' =>
    tells_field (hnames field hfield) (hnames' field' hfield')
      (h field.2 (List.mem_map_of_mem hfield) .whole field'.2 (hfields' field' hfield'))

theorem tells_closed (hnames : ∀ field ∈ fields, Identifier field.1) (hnames' : ∀ field ∈ fields', Identifier field.1)
    (h : TellsAll capital σ τ R (fields.map (·.2))) (hfields' : ∀ field ∈ fields', Readable capital field.2) :
    Tells place.Ends (spell true σ (.record fields none none refs)).toList
      (spell true τ (.record fields' none none refs')).toList
      (Alike R (.record fields none none refs) (.record fields' none none refs')) := by
  by_cases hne : fields = [] <;> by_cases hne' : fields' = []
  · subst hne hne'
    rw [toList_spell_empty, toList_spell_empty]
    exact (tells_same _).imp fun _ => .closed rfl nofun nofun
  · subst hne
    rw [toList_spell_empty, toList_spell_closed τ hne']
    exact tells_of_ne fun r s _ _ heq => by cases heq
  · subst hne'
    rw [toList_spell_closed σ hne, toList_spell_empty]
    exact tells_of_ne fun r s _ _ heq => by cases heq
  · rw [toList_spell_closed σ hne, toList_spell_closed τ hne']
    exact ((tells_fields hne hne' hnames hnames' h hfields').between _ _ (List.prefix_append _)).imp
      fun hall => .closed hall.length_eq (fun p hp => (forall_zip_of_forall₂ hall p hp).1)
        fun p hp => (forall_zip_of_forall₂ hall p hp).2

theorem tells_closed_extension {ends : List Char → Prop} {P : Prop} (hτ : CallsSmall capital τ)
    (hnames : ∀ field ∈ fields, Identifier field.1) (hne' : fields' ≠ []) :
    Tells ends (spell true σ (.record fields none none refs)).toList
      (spell true τ (.record fields' (some (.var w)) none refs')).toList P := by
  rw [toList_spell_extension τ hne']
  cases fields with
  | nil =>
    rw [toList_spell_empty]
    exact tells_of_ne fun r s _ _ heq => by cases heq
  | cons field fields =>
    rw [toList_spell_closed σ (List.cons_ne_nil _ _), joined, fieldText]
    simp only [List.append_assoc]
    exact (tells_of_name_ne (hnames field List.mem_cons_self).1 (hτ w.id).1.1 _ _).behind _

theorem tells_extension (hσ : CallsSmall capital σ) (hτ : CallsSmall capital τ)
    (hne : fields ≠ []) (hne' : fields' ≠ []) (hnames : ∀ field ∈ fields, Identifier field.1)
    (hnames' : ∀ field ∈ fields', Identifier field.1) (h : TellsAll capital σ τ (SameName σ τ) (fields.map (·.2)))
    (hfields' : ∀ field ∈ fields', Readable capital field.2) :
    Tells place.Ends (spell true σ (.record fields (some (.var v)) none refs)).toList
      (spell true τ (.record fields' (some (.var w)) none refs')).toList
      (Alike (SameName σ τ) (.record fields (some (.var v)) none refs)
        (.record fields' (some (.var w)) none refs')) := by
  rw [toList_spell_extension σ hne, toList_spell_extension τ hne']
  have hbody := (tells_word (hσ v.id).1.1 (hτ w.id).1.1).append
    (fun r _ => endsWord_append rfl (by decide) r) (fun r _ => endsWord_append rfl (by decide) r)
    fun _ => (tells_fields hne hne' hnames hnames' h hfields').behind " | ".toList
  exact (hbody.between _ _ (List.prefix_append _)).imp fun ⟨hbase, hall⟩ =>
    .extension hbase hall.length_eq (fun p hp => (forall_zip_of_forall₂ hall p hp).1)
      fun p hp => (forall_zip_of_forall₂ hall p hp).2

include hτ in
theorem tellsPlainly_closed (hnames : ∀ field ∈ fields, Identifier field.1)
    (h : TellsAll capital σ τ R (fields.map (·.2))) : TellsPlainly capital σ τ R (.record fields none none refs) := by
  intro place u _ hu _ _ hlead
  cases hu with
  | closed hnames' hfields' => exact tells_closed hnames hnames' h hfields'
  | extension hne' => exact tells_closed_extension hτ hnames hne'
  | _ => cases hlead

include hσ hτ in
theorem tellsPlainly_extension (hne : fields ≠ []) (hnames : ∀ field ∈ fields, Identifier field.1)
    (h : TellsAll capital σ τ (SameName σ τ) (fields.map (·.2))) :
    TellsPlainly capital σ τ (SameName σ τ) (.record fields (some (.var v)) none refs) := by
  intro place u _ hu _ _ hlead
  cases hu with
  | closed hnames' _ => exact (tells_closed_extension hσ hnames' hne).symm
  | extension hne' _ _ hnames' hfields' => exact tells_extension hσ hτ hne hne' hnames hnames' h hfields'
  | _ => cases hlead

end

/-! ### Reading words -/

/-- What may stand behind a blank does not begin a type, unless it is an argument. -/
theorem not_opens_of_mem_followers {c : Char} (h : c ∈ place.followers) : ¬Opens c := by
  have hmem : c ∈ [')', '\x7d', '|', '-'] := by
    cases place with
    | whole => exact List.mem_append_left ['-'] h
    | segment => exact h
    | argument => exact h
  simp only [List.mem_cons, List.not_mem_nil, or_false] at hmem
  rcases hmem with rfl | rfl | rfl | rfl <;> rintro (h | h | h) <;> cases h

theorem ne_argument_of_ends (hσ : CallsSmall capital σ) (ht : Readable capital t) (hplace : place ≠ .argument)
    (hr : place.Ends r) (rest : List Char) : r ≠ [' '] ++ (Place.argument.text σ t ++ rest) := by
  rintro rfl
  obtain ⟨c, more, htext, hc⟩ := exists_opening_text (ht.exists_opening hσ) .argument
  rw [htext] at hr
  obtain hr | ⟨d, _, heq, hd⟩ := hr
  · exact hplace hr
  · cases heq
    exact not_opens_of_mem_followers hd hc

/-- Arguments of types, at a place where there can only be some if an argument cannot follow. -/
theorem tells_args (hσ : CallsSmall capital σ) (hτ : CallsSmall capital τ) {args args' : List Ty}
    (hargs : ∀ t ∈ args, Readable capital t) (hargs' : ∀ t ∈ args', Readable capital t)
    (hplace : place = .argument → args = [] ∧ args' = []) (h : TellsAll capital σ τ R args) :
    Tells place.Ends (tails [' '] (Place.argument.text σ) args) (tails [' '] (Place.argument.text τ) args')
      (List.Forall₂ (Alike R) args args') := by
  have hread : ∀ x ∈ args, ∀ y ∈ args',
      Tells Place.argument.Ends (Place.argument.text σ x) (Place.argument.text τ y) (Alike R x y) :=
    fun x hx y hy => h x hx .argument y (hargs' y hy)
  have hne {x : Ty} (hx : x ∈ args ∨ x ∈ args') : place ≠ .argument := by
    intro heq
    obtain ⟨rfl, rfl⟩ := hplace heq
    rcases hx with hx | hx <;> cases hx
  exact tells_tails hread (fun _ => .inl rfl) (fun _ => ends_argument_of_ends)
    (fun x hx _ rest hr => ne_argument_of_ends hσ (hargs x hx) (hne (.inl hx)) hr rest)
    fun y hy _ rest hr => ne_argument_of_ends hτ (hargs' y hy) (hne (.inr hy)) hr rest

theorem endsWord_tails (hr : place.Ends r) (σ : VarId → Name) (args : List Ty) :
    EndsWord (tails [' '] (Place.argument.text σ) args ++ r) :=
  ends_tails (fun rest => endsWord_append rfl (by decide) rest) (endsWord_of_ends hr) _ _

/-- A word before arguments. -/
theorem tells_applied (hσ : CallsSmall capital σ) (hτ : CallsSmall capital τ) {a b : Name}
    (ha : Dotted a) (hb : Dotted b) {args args' : List Ty} (hargs : ∀ t ∈ args, Readable capital t)
    (hargs' : ∀ t ∈ args', Readable capital t) (hplace : place = .argument → args = [] ∧ args' = [])
    (h : TellsAll capital σ τ R args) :
    Tells place.Ends (a.toList ++ tails [' '] (Place.argument.text σ) args)
      (b.toList ++ tails [' '] (Place.argument.text τ) args') (a = b ∧ List.Forall₂ (Alike R) args args') :=
  (tells_word ha hb).append (fun _ hr => endsWord_tails hr σ args) (fun _ hr => endsWord_tails hr τ args')
    fun _ => tells_args hσ hτ hargs hargs' hplace h

/-- A variable before what may follow, and a type before its arguments. -/
theorem tells_var_union {P : Prop} (hσ : CallsSmall capital σ) (v : TyVar) {m n : Name} (hm : m = "" ∨ Dotted m)
    (hn : Cased capital true n) (args : List Ty) :
    Tells place.Ends (spell true σ (.var v)).toList (spell true τ (.union m n args none)).toList P := by
  rw [toList_spell_union, spell]
  refine tells_of_ne fun r s hr hs heq => ?_
  rw [List.append_assoc] at heq
  obtain ⟨hname, -⟩ := tells_word (hσ v.id).1.1 (Dotted.typeName hm hn.1.1) _ _ (endsWord_of_ends hr)
    (endsWord_tails hs τ args) heq
  exact (hσ v.id).ne_typeName hm hn hname

theorem args_eq_nil {m n : Name} {args : List Ty} (h : place.encloses (.union m n args none) = false)
    (hplace : place = .argument) : args = [] := by
  subst hplace
  simpa [Place.encloses, needsParens, written?] using h

section

variable (hσ : CallsSmall capital σ) (hτ : CallsSmall capital τ)
include hσ hτ

theorem tellsPlainly_var {v : TyVar} : TellsPlainly capital σ τ (SameName σ τ) (.var v) := by
  intro place u hplace hu _ hencloses hlead
  cases hu with
  | arrow =>
    rw [encloses_arrow hplace] at hencloses
    cases hencloses
  | @var w =>
    rw [spell, spell]
    exact ((tells_word (hσ v.id).1.1 (hτ w.id).1.1).of_ends fun _ => endsWord_of_ends).imp fun hname => .var hname
  | union hm hn => exact tells_var_union hσ v hm hn _
  | _ => cases hlead

theorem tellsPlainly_union {m n : Name} {args : List Ty} (hm : m = "" ∨ Dotted m) (hn : Cased capital true n)
    (hargs : ∀ t ∈ args, Readable capital t) (h : TellsAll capital σ τ R args) :
    TellsPlainly capital σ τ R (.union m n args none) := by
  intro place u hplace hu hencloses hencloses' hlead
  cases hu with
  | arrow =>
    rw [encloses_arrow hplace] at hencloses'
    cases hencloses'
  | @var w => exact (tells_var_union hτ w hm hn args).symm
  | @union m' n' args' hm' hn' hargs' =>
    rw [toList_spell_union, toList_spell_union]
    refine (tells_applied hσ hτ (Dotted.typeName hm hn.1.1) (Dotted.typeName hm' hn'.1.1) hargs hargs'
      (fun heq => ⟨args_eq_nil hencloses heq, args_eq_nil hencloses' heq⟩) h).imp fun hall => ?_
    obtain ⟨rfl, rfl⟩ := typeName_inj hm hm' hn.1.2 hn'.1.2 hall.1
    exact .union hall.2.length_eq (forall_zip_of_forall₂ hall.2)
  | _ => cases hlead

/-- The text of a type tells what the type is, at all places. -/
theorem Readable.tells_text (ht : Readable capital t) (place : Place) (hu : Readable capital u) :
    Tells place.Ends (place.text σ t) (place.text τ u) (Alike (SameName σ τ) t u) := by
  induction ht generalizing place u with
  | unit => exact Readable.unit.tells_text_of_plain hσ hτ rfl tellsPlainly_unit place hu
  | var hname hclass => exact (Readable.var hname hclass).tells_text_of_plain hσ hτ rfl (tellsPlainly_var hσ hτ) place hu
  | union hm hn hargs ih =>
    exact (Readable.union hm hn hargs).tells_text_of_plain hσ hτ rfl
      (tellsPlainly_union hσ hτ hm hn hargs fun t ht place u hu => ih t ht place hu) place hu
  | tuple hlength hitems ih =>
    exact (Readable.tuple hlength hitems).tells_text_of_plain hσ hτ rfl
      (tellsPlainly_tuple hlength fun t ht place u hu => ih t ht place hu) place hu
  | closed hnames hfields ih =>
    refine (Readable.closed hnames hfields).tells_text_of_plain hσ hτ rfl (tellsPlainly_closed hτ hnames ?_) place hu
    exact List.forall_mem_map.mpr fun field hfield place u hu => ih field hfield place hu
  | extension hne hname hclass hnames hfields ih =>
    refine (Readable.extension hne hname hclass hnames hfields).tells_text_of_plain hσ hτ rfl
      (tellsPlainly_extension hσ hτ hne hnames ?_) place hu
    exact List.forall_mem_map.mpr fun field hfield place u hu => ih field hfield place hu
  | arrow hne hret hparams hlegible ihparams ihret =>
    refine (Readable.arrow hne hret hparams hlegible).tells_text_of_parts hσ hτ (fun x hx y hy => ?_)
      (fun place _ hplace _ hencloses => ?_) place hu
    · rcases List.mem_append.mp hx with hx | hx
      · exact ihparams x hx .segment hy
      · exact List.mem_singleton.mp hx ▸ ihret .segment hy
    · rw [encloses_arrow hplace] at hencloses
      cases hencloses

end

end

end Ty

end ElmInference
