import ElmInference.Ty.Render
import Mathlib.Data.List.Forall2

/-!
# Texts that are told apart

Whoever reads a text from left to right has to see where each of its parts ends. So a text is compared with another one
in front of what may follow: if the two still read alike then, they were the same, and the same follows. Texts that tell
something in this way can be put together, because each of them may be followed by the next one; and lists of them need
nothing but a separator that does not look like the end of the list.
-/

namespace ElmInference

/-! ### Texts that are told apart -/

/-- Whether two texts tell something: it is so, and the same follows, whenever they are followed by what may follow them
and read alike then. -/
def Tells (ends : List Char → Prop) (a b : List Char) (P : Prop) : Prop :=
  ∀ r s, ends r → ends s → a ++ r = b ++ s → P ∧ r = s

section

variable {ends ends' : List Char → Prop} {a b c d : List Char} {P Q : Prop}

theorem tells_same (a : List Char) : Tells ends a a True :=
  fun _ _ _ _ h => ⟨trivial, List.append_cancel_left h⟩

theorem tells_of_ne (h : ∀ r s, ends r → ends s → a ++ r ≠ b ++ s) : Tells ends a b P :=
  fun r s hr hs heq => absurd heq (h r s hr hs)

theorem Tells.imp (h : Tells ends a b P) (hP : P → Q) : Tells ends a b Q :=
  fun r s hr hs heq => (h r s hr hs heq).imp_left hP

theorem Tells.of_ends (h : Tells ends a b P) (hends : ∀ r, ends' r → ends r) : Tells ends' a b P :=
  fun r s hr hs heq => h r s (hends r hr) (hends s hs) heq

theorem Tells.symm (h : Tells ends a b P) : Tells ends b a P :=
  fun r s hr hs heq => (h s r hs hr heq.symm).imp_right Eq.symm

theorem Tells.behind (h : Tells ends a b P) (p : List Char) : Tells ends (p ++ a) (p ++ b) P := by
  intro r s hr hs heq
  rw [List.append_assoc, List.append_assoc] at heq
  exact h r s hr hs (List.append_cancel_left heq)

/-- A text behind another one: the first one is followed by the second one. -/
theorem Tells.append (h : Tells ends a b P) (hc : ∀ r, ends' r → ends (c ++ r)) (hd : ∀ r, ends' r → ends (d ++ r))
    (h' : P → Tells ends' c d Q) : Tells ends' (a ++ c) (b ++ d) (P ∧ Q) := by
  intro r s hr hs heq
  rw [List.append_assoc, List.append_assoc] at heq
  obtain ⟨hP, heq⟩ := h _ _ (hc r hr) (hd s hs) heq
  obtain ⟨hQ, heq⟩ := h' hP r s hr hs heq
  exact ⟨⟨hP, hQ⟩, heq⟩

/-- Texts between the same brackets. -/
theorem Tells.between (h : Tells ends a b P) (opening closing : List Char) (hclosing : ∀ r, ends (closing ++ r)) :
    Tells ends' (opening ++ a ++ closing) (opening ++ b ++ closing) P := by
  intro r s _ _ heq
  rw [List.append_assoc, List.append_assoc, List.append_assoc, List.append_assoc] at heq
  obtain ⟨hP, heq⟩ := h _ _ (hclosing r) (hclosing s) (List.append_cancel_left heq)
  exact ⟨hP, List.append_cancel_left heq⟩

/-! ### Lists -/

variable {α β : Type} {sep : List Char} {f : α → List Char} {g : β → List Char} {xs : List α} {ys : List β}

def tails (sep : List Char) (f : α → List Char) (xs : List α) : List Char :=
  xs.flatMap fun x => sep ++ f x

theorem tails_cons (sep : List Char) (f : α → List Char) (x : α) (xs : List α) :
    tails sep f (x :: xs) = sep ++ (f x ++ tails sep f xs) := by
  simp [tails]

def joined (sep : List Char) (f : α → List Char) : List α → List Char
  | [] => []
  | x :: xs => f x ++ tails sep f xs

theorem intercalate_map (sep : List Char) (f : α → List Char) (xs : List α) :
    sep.intercalate (xs.map f) = joined sep f xs := by
  induction xs with
  | nil => rfl
  | cons x xs ih =>
    cases xs with
    | nil => simp [joined, tails, List.intercalate]
    | cons y ys =>
      rw [List.map_cons, List.map_cons, List.intercalate_cons_cons, ← List.map_cons, ih]
      simp [joined, tails]

theorem ends_tails (hsep : ∀ rest, ends (sep ++ rest)) {r : List Char} (hr : ends r) (f : α → List Char) (xs : List α) :
    ends (tails sep f xs ++ r) := by
  cases xs with
  | nil => exact hr
  | cons x xs =>
    rw [tails_cons, List.append_assoc]
    exact hsep _

/-- Texts in a list are told apart if each of them is and the end of the list does not look like another one. -/
theorem tells_tails {R : α → β → Prop} (h : ∀ x ∈ xs, ∀ y ∈ ys, Tells ends (f x) (g y) (R x y))
    (hsep : ∀ rest, ends (sep ++ rest)) (hends : ∀ r, ends' r → ends r)
    (hf : ∀ x ∈ xs, ∀ r rest, ends' r → r ≠ sep ++ (f x ++ rest))
    (hg : ∀ y ∈ ys, ∀ r rest, ends' r → r ≠ sep ++ (g y ++ rest)) :
    Tells ends' (tails sep f xs) (tails sep g ys) (List.Forall₂ R xs ys) := by
  intro r s hr hs heq
  induction xs generalizing ys with
  | nil =>
    cases ys with
    | nil => exact ⟨.nil, heq⟩
    | cons y ys =>
      rw [tails_cons, List.append_assoc, List.append_assoc] at heq
      exact absurd heq (hg y List.mem_cons_self r _ hr)
  | cons x xs ih =>
    cases ys with
    | nil =>
      rw [tails_cons, List.append_assoc, List.append_assoc] at heq
      exact absurd heq.symm (hf x List.mem_cons_self s _ hs)
    | cons y ys =>
      rw [tails_cons, tails_cons, List.append_assoc, List.append_assoc, List.append_assoc, List.append_assoc] at heq
      obtain ⟨hfirst, heq⟩ := h x List.mem_cons_self y List.mem_cons_self _ _ (ends_tails hsep (hends r hr) f xs)
        (ends_tails hsep (hends s hs) g ys) (List.append_cancel_left heq)
      obtain ⟨hrest, heq⟩ := ih (fun x hx y hy => h x (.tail _ hx) y (.tail _ hy)) (fun x hx => hf x (.tail _ hx))
        (fun y hy => hg y (.tail _ hy)) heq
      exact ⟨.cons hfirst hrest, heq⟩

theorem tells_joined {R : α → β → Prop} (hxs : xs ≠ []) (hys : ys ≠ [])
    (h : ∀ x ∈ xs, ∀ y ∈ ys, Tells ends (f x) (g y) (R x y)) (hsep : ∀ rest, ends (sep ++ rest))
    (hends : ∀ r, ends' r → ends r) (hends' : ∀ r rest, ends' r → r ≠ sep ++ rest) :
    Tells ends' (joined sep f xs) (joined sep g ys) (List.Forall₂ R xs ys) := by
  cases xs with
  | nil => exact absurd rfl hxs
  | cons x xs =>
    cases ys with
    | nil => exact absurd rfl hys
    | cons y ys =>
      refine Tells.imp (Tells.append (h x List.mem_cons_self y List.mem_cons_self)
        (fun r hr => ends_tails hsep (hends r hr) f xs) (fun r hr => ends_tails hsep (hends r hr) g ys)
        fun _ => tells_tails (fun x hx y hy => h x (.tail _ hx) y (.tail _ hy)) hsep hends
          (fun _ _ r rest hr => hends' r _ hr) fun _ _ r rest hr => hends' r _ hr) ?_
      rintro ⟨hfirst, hrest⟩
      exact .cons hfirst hrest

end

/-! ### Words -/

/-- The characters that are written around names. -/
def isMark (c : Char) : Bool :=
  [' ', '(', ')', '\x7b', '\x7d', ',', '|', ':', '-', '>'].contains c

/-- Identifiers with dots between them. -/
def Dotted (name : Name) : Prop :=
  name ≠ "" ∧ ∀ c ∈ name.toList, isMark c = false

def Identifier (name : Name) : Prop :=
  Dotted name ∧ '.' ∉ name.toList

/-- Identifiers whose first letter is, or is not, a capital. -/
def Cased (capital : Char → Bool) (isCapital : Bool) (name : Name) : Prop :=
  Identifier name ∧ ∀ c ∈ name.toList.head?, capital c = isCapital

-- `List.decidableBAll` is named since the instance that is found for `∀ c` may run over all characters there are
instance (name : Name) : Decidable (Dotted name) :=
  @instDecidableAnd _ _ inferInstance (List.decidableBAll _ _)

instance (name : Name) : Decidable (Identifier name) :=
  inferInstanceAs (Decidable (Dotted name ∧ '.' ∉ name.toList))

instance (capital : Char → Bool) (isCapital : Bool) (name : Name) : Decidable (Cased capital isCapital name) :=
  @instDecidableAnd _ _ inferInstance (Option.decidableForallMem _)

/-- Whether a text does not go on with the word before it. -/
def EndsWord (r : List Char) : Prop :=
  ∀ c, r.head? = some c → isMark c = true

/-- Texts are cut where a property of their characters ends. -/
theorem append_inj_of_all (p : Char → Bool) {a b r s : List Char} (ha : ∀ c ∈ a, p c = true) (hb : ∀ c ∈ b, p c = true)
    (hr : ∀ c, r.head? = some c → p c = false) (hs : ∀ c, s.head? = some c → p c = false) (h : a ++ r = b ++ s) :
    a = b ∧ r = s := by
  have hcut : ∀ {a r : List Char}, (∀ c ∈ a, p c = true) → (∀ c, r.head? = some c → p c = false) →
      (a ++ r).takeWhile p = a := by
    intro a r ha hr
    rw [List.takeWhile_append_of_pos ha]
    cases r with
    | nil => exact List.append_nil a
    | cons c r => rw [List.takeWhile_cons_of_neg (by simp [hr c rfl]), List.append_nil]
  have hab : a = b := (hcut ha hr).symm.trans ((congrArg (List.takeWhile p) h).trans (hcut hb hs))
  subst hab
  exact ⟨rfl, List.append_cancel_left h⟩

theorem tells_word {a b : Name} (ha : Dotted a) (hb : Dotted b) : Tells EndsWord a.toList b.toList (a = b) := by
  intro r s hr hs h
  obtain ⟨hab, hrs⟩ := append_inj_of_all (fun c => !isMark c) (fun c hc => by simp [ha.2 c hc])
    (fun c hc => by simp [hb.2 c hc]) (fun c hc => by simp [hr c hc]) (fun c hc => by simp [hs c hc]) h
  exact ⟨String.toList_inj.mp hab, hrs⟩

/-- The first character of a word. -/
theorem Dotted.exists_cons {name : Name} (h : Dotted name) :
    ∃ c rest, name.toList = c :: rest ∧ isMark c = false := by
  cases hlist : name.toList with
  | nil => exact absurd (String.toList_eq_nil_iff.mp hlist) h.1
  | cons c rest => exact ⟨c, rest, rfl, h.2 c (hlist ▸ List.mem_cons_self)⟩

theorem toList_typeName {m : Name} (hm : m ≠ "") (n : Name) :
    (Ty.typeName true m n).toList = m.toList ++ '.' :: n.toList := by
  simp [Ty.typeName, hm]

theorem typeName_empty (n : Name) : Ty.typeName true "" n = n :=
  rfl

theorem Dotted.typeName {m n : Name} (hm : m = "" ∨ Dotted m) (hn : Dotted n) : Dotted (Ty.typeName true m n) := by
  rcases hm with rfl | hm
  · exact hn
  · have hlist := toList_typeName hm.1 n
    refine ⟨fun hempty => ?_, fun c hc => ?_⟩
    · simp [hempty] at hlist
    · rw [hlist, List.mem_append, List.mem_cons] at hc
      rcases hc with hc | rfl | hc
      · exact hm.2 c hc
      · rfl
      · exact hn.2 c hc

/-- The module is what stands before the last dot. -/
theorem typeName_inj {m n m' n' : Name} (hm : m = "" ∨ Dotted m) (hm' : m' = "" ∨ Dotted m') (hn : '.' ∉ n.toList)
    (hn' : '.' ∉ n'.toList) (h : Ty.typeName true m n = Ty.typeName true m' n') : m = m' ∧ n = n' := by
  have hdot {m n : Name} (hm : Dotted m) : '.' ∈ (Ty.typeName true m n).toList := by
    simp [toList_typeName hm.1]
  rcases hm with rfl | hm <;> rcases hm' with rfl | hm'
  · exact ⟨rfl, h⟩
  · exact absurd (typeName_empty n ▸ h.symm ▸ hdot hm') hn
  · exact absurd (typeName_empty n' ▸ h ▸ hdot hm) hn'
  · have hlist := congrArg (fun name => name.toList.reverse) h
    simp only [toList_typeName hm.1, toList_typeName hm'.1, List.reverse_append, List.reverse_cons, List.append_assoc,
      List.singleton_append] at hlist
    have hfree {n : Name} (hn : '.' ∉ n.toList) : ∀ c ∈ n.toList.reverse, (c != '.') = true := by
      rintro c hc
      rw [bne_iff_ne]
      rintro rfl
      exact hn (List.mem_reverse.mp hc)
    obtain ⟨hname, hmodule⟩ := append_inj_of_all (· != '.') (hfree hn) (hfree hn') (by simp) (by simp) hlist
    exact ⟨String.toList_inj.mp (List.reverse_inj.mp (List.cons.inj hmodule).2),
      String.toList_inj.mp (List.reverse_inj.mp hname)⟩

/-- A variable does not read like a type. -/
theorem Cased.ne_typeName {capital : Char → Bool} {m n name : Name} (hname : Cased capital false name)
    (hm : m = "" ∨ Dotted m) (hn : Cased capital true n) : name ≠ Ty.typeName true m n := by
  rintro rfl
  rcases hm with rfl | hm
  · obtain ⟨c, rest, hlist, -⟩ := hn.1.1.exists_cons
    have hcapital := hn.2 c (by rw [hlist]; rfl)
    rw [hname.2 c (by rw [typeName_empty, hlist]; rfl)] at hcapital
    cases hcapital
  · exact hname.1.2 (by simp [toList_typeName hm.1])

end ElmInference
