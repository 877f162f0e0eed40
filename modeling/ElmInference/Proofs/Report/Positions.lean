import ElmInference.Report.Basic
import Mathlib.Data.List.DropRight
import Mathlib.Order.Bounds.Defs
import Mathlib.Tactic.Common

/-!
# Positions and printed lines

The line and the column of an offset are counted over the text before it, the line that a report prints is one of those
that the text is cut into, and the caret is drawn below a column. The three agree: a step over one character moves the
position forward by one column or to the next line (`after_concat`), and cutting the text before a character leaves open
the line that the character belongs to, as long as its column (`getElem?_collect_append`).
-/

namespace ElmInference

/-! ### Bytes -/

def byteCount : List Char → Nat
  | [] => 0
  | c :: rest => c.utf8Size + byteCount rest

theorem byteCount_cons (c : Char) (rest : List Char) : byteCount (c :: rest) = c.utf8Size + byteCount rest :=
  rfl

theorem byteCount_append (before rest : List Char) :
    byteCount (before ++ rest) = byteCount before + byteCount rest := by
  induction before with
  | nil => exact (Nat.zero_add _).symm
  | cons c before ih => rw [List.cons_append, byteCount_cons, byteCount_cons, ih, Nat.add_assoc]

theorem utf8ByteSize_ofList (chars : List Char) : (String.ofList chars).utf8ByteSize = byteCount chars := by
  induction chars with
  | nil => rfl
  | cons c chars ih =>
    rw [String.ofList_cons, String.utf8ByteSize_append, String.utf8ByteSize_singleton, ih, byteCount_cons]

theorem utf8ByteSize_eq (text : String) : text.utf8ByteSize = byteCount text.toList := by
  rw [← utf8ByteSize_ofList, String.ofList_toList]

/-- Whether a byte offset stands at one end of a text or between two of its characters. -/
def IsBoundary (text : String) (b : Nat) : Prop :=
  String.Pos.Raw.IsValid text ⟨b⟩

theorem isBoundary_iff {text : String} {b : Nat} :
    IsBoundary text b ↔ ∃ before rest, text.toList = before ++ rest ∧ b = byteCount before := by
  rw [IsBoundary, String.Pos.Raw.isValid_iff_exists_append]
  constructor
  · rintro ⟨before, rest, rfl, hb⟩
    refine ⟨before.toList, rest.toList, String.toList_append, ?_⟩
    rw [← utf8ByteSize_eq]
    exact congrArg String.Pos.Raw.byteIdx hb
  · rintro ⟨before, rest, htext, rfl⟩
    refine ⟨String.ofList before, String.ofList rest, ?_, ?_⟩
    · rw [← String.ofList_append, ← htext, String.ofList_toList]
    · exact congrArg String.Pos.Raw.mk (utf8ByteSize_ofList before).symm

namespace Position

theorem charsWithin_append (bytes : Nat) : ∀ before rest : List Char,
    charsWithin (byteCount before + bytes) (before ++ rest) = before ++ charsWithin bytes rest
  | [], rest => by rw [List.nil_append, List.nil_append, show byteCount [] = 0 from rfl, Nat.zero_add]
  | c :: before, rest => by
    rw [byteCount_cons, List.cons_append, charsWithin, if_pos (by omega), List.cons_append, Nat.add_assoc,
      Nat.add_sub_cancel_left, charsWithin_append bytes before rest]

theorem charsWithin_zero (chars : List Char) : charsWithin 0 chars = [] := by
  cases chars with
  | nil => rfl
  | cons c rest => exact if_neg (Nat.not_le_of_lt c.utf8Size_pos)

/-- The characters before an offset that stands between two of them. -/
theorem charsWithin_byteCount (before rest : List Char) : charsWithin (byteCount before) (before ++ rest) = before := by
  have := charsWithin_append 0 before rest
  rwa [charsWithin_zero, Nat.add_zero, List.append_nil] at this

theorem charsWithin_prefix (bytes : Nat) (chars : List Char) : charsWithin bytes chars <+: chars := by
  fun_induction charsWithin bytes chars with
  | case1 => exact List.prefix_refl _
  | case2 bytes c rest _ ih => exact (List.prefix_cons_inj c).mpr ih
  | case3 => exact List.nil_prefix

theorem byteCount_charsWithin_le (bytes : Nat) (chars : List Char) : byteCount (charsWithin bytes chars) ≤ bytes := by
  fun_induction charsWithin bytes chars with
  | case1 => exact Nat.zero_le _
  | case2 bytes c rest hfits ih => rw [byteCount_cons]; omega
  | case3 => exact Nat.zero_le _

/-- An offset counts as the last boundary that is not behind it. -/
theorem isGreatest_byteCount_charsWithin (text : String) (offset : Nat) :
    IsGreatest {b | IsBoundary text b ∧ b ≤ min offset text.utf8ByteSize}
      (byteCount (charsWithin offset text.toList)) := by
  obtain ⟨rest, htext⟩ := charsWithin_prefix offset text.toList
  refine ⟨⟨isBoundary_iff.mpr ⟨_, rest, htext.symm, rfl⟩, Nat.le_min.mpr ⟨byteCount_charsWithin_le .., ?_⟩⟩, ?_⟩
  · have := byteCount_append (charsWithin offset text.toList) rest
    rw [htext, ← utf8ByteSize_eq] at this
    omega
  · rintro b ⟨hb, hle⟩
    obtain ⟨before, rest, hbefore, rfl⟩ := isBoundary_iff.mp hb
    obtain ⟨bytes, rfl⟩ := Nat.exists_eq_add_of_le (Nat.le_trans hle (Nat.min_le_left ..))
    rw [hbefore, charsWithin_append, byteCount_append]
    exact Nat.le_add_right _ _

theorem ofOffset_eq_after {text : String} {before rest : List Char} (htext : text.toList = before ++ rest) :
    ofOffset text (byteCount before) = after before := by
  rw [ofOffset, htext, charsWithin_byteCount]

/-! ### Order -/

def Before (p q : Position) : Prop :=
  p.line < q.line ∨ p.line = q.line ∧ p.column < q.column

theorem Before.trans {p q r : Position} (hpq : p.Before q) (hqr : q.Before r) : p.Before r := by
  unfold Before at *
  omega

theorem lineBeginning_eq_rtakeWhile (text : List Char) : lineBeginning text = text.rtakeWhile (· != '\n') :=
  rfl

theorem lineBeginning_concat (before : List Char) (c : Char) :
    lineBeginning (before ++ [c]) = if c = '\n' then [] else lineBeginning before ++ [c] := by
  rw [lineBeginning_eq_rtakeWhile, lineBeginning_eq_rtakeWhile, List.rtakeWhile_concat]
  by_cases hc : c = '\n' <;> simp [hc]

/-- Behind a newline a position is at the beginning of the next line, behind any other character in the next column. -/
theorem after_concat (before : List Char) (c : Char) :
    after (before ++ [c]) =
      if c = '\n' then ⟨(after before).line + 1, 1⟩ else ⟨(after before).line, (after before).column + 1⟩ := by
  rw [after, lineBeginning_concat, List.count_append]
  by_cases hc : c = '\n' <;> simp [hc, after]

theorem before_after_concat (before : List Char) (c : Char) : (after before).Before (after (before ++ [c])) := by
  rw [after_concat]
  split
  · exact .inl (Nat.lt_succ_self _)
  · exact .inr ⟨rfl, Nat.lt_succ_self _⟩

theorem before_after_append {between : List Char} (hne : between ≠ []) (before : List Char) :
    (after before).Before (after (before ++ between)) := by
  induction between using List.reverseRecOn with
  | nil => exact absurd rfl hne
  | append_singleton between c ih =>
    rw [← List.append_assoc]
    have hstep := before_after_concat (before ++ between) c
    rcases eq_or_ne between [] with rfl | hne
    · rwa [List.append_nil] at hstep ⊢
    · exact (ih hne).trans hstep

theorem ofOffset_before {text : String} {b₁ b₂ : Nat} (h₁ : IsBoundary text b₁) (h₂ : IsBoundary text b₂)
    (hlt : b₁ < b₂) : (ofOffset text b₁).Before (ofOffset text b₂) := by
  obtain ⟨before₁, rest₁, htext₁, rfl⟩ := isBoundary_iff.mp h₁
  obtain ⟨before₂, rest₂, htext₂, rfl⟩ := isBoundary_iff.mp h₂
  rw [ofOffset_eq_after htext₁, ofOffset_eq_after htext₂]
  -- of two beginnings of a text the one with fewer bytes is a beginning of the other
  rcases List.prefix_or_prefix_of_prefix ⟨rest₁, htext₁.symm⟩ ⟨rest₂, htext₂.symm⟩ with
    ⟨between, rfl⟩ | ⟨between, rfl⟩
  · refine before_after_append ?_ before₁
    rintro rfl
    rw [List.append_nil] at hlt
    exact Nat.lt_irrefl _ hlt
  · rw [byteCount_append] at hlt
    omega

end Position

namespace TextLine

open Position

/-! ### Lines -/

def AtEnding : List Char → Prop
  | '\n' :: _ => True
  | '\r' :: '\n' :: _ => True
  | _ => False

theorem dropReturn_suffix (line : List Char) : dropReturn line <:+ line := by
  unfold dropReturn
  split
  · exact List.suffix_cons _ _
  · exact List.suffix_refl _

theorem suffix_dropReturn_cons (c : Char) (line : List Char) : line <:+ dropReturn (c :: line) := by
  unfold dropReturn
  split
  · next heq => exact (List.cons.inj heq).2 ▸ List.suffix_refl _
  · exact List.suffix_cons _ _

theorem dropReturn_cons_of_ne {c : Char} (hc : c ≠ '\r') (line : List Char) : dropReturn (c :: line) = c :: line := by
  unfold dropReturn
  split
  · next heq => exact absurd (List.cons.inj heq).1 hc
  · rfl

theorem collect_newline (line rest : List Char) :
    collect line ('\n' :: rest) = (dropReturn line).reverse :: collect [] rest :=
  if_pos rfl

theorem collect_cons_of_ne {c : Char} (hc : c ≠ '\n') (line rest : List Char) :
    collect line (c :: rest) = collect (c :: line) rest :=
  if_neg hc

/-- The line that was begun keeps its beginning, but for a carriage return at its end. -/
theorem exists_collect_head {line : List Char} (hne : line ≠ []) (rest : List Char) :
    ∃ first, (collect line rest)[0]? = some first ∧ (dropReturn line).reverse <+: first := by
  induction rest generalizing line with
  | nil =>
    refine ⟨line.reverse, ?_, List.reverse_prefix.mpr (dropReturn_suffix line)⟩
    rw [collect, List.isEmpty_eq_false_iff.mpr hne]
    rfl
  | cons c rest ih =>
    by_cases hc : c = '\n'
    · subst hc
      exact ⟨_, by rw [collect_newline]; rfl, List.prefix_refl _⟩
    · obtain ⟨first, hfirst, hprefix⟩ := ih (List.cons_ne_nil c line)
      refine ⟨first, by rw [collect_cons_of_ne hc, hfirst], .trans (List.reverse_prefix.mpr ?_) hprefix⟩
      exact (dropReturn_suffix line).trans (suffix_dropReturn_cons c line)

/-- A character that does not belong to the ending of a line stays in its line. -/
theorem exists_collect_head_of_not_atEnding {c : Char} {rest : List Char} (hc : ¬AtEnding (c :: rest))
    (line : List Char) : ∃ first, (collect line (c :: rest))[0]? = some first ∧ line.reverse ++ [c] <+: first := by
  have hnewline : c ≠ '\n' := by
    rintro rfl
    exact hc trivial
  rw [collect_cons_of_ne hnewline, ← List.reverse_cons]
  rcases rest with _ | ⟨d, rest⟩
  · exact ⟨_, rfl, List.prefix_refl _⟩
  · by_cases hd : d = '\n'
    · subst hd
      have hreturn : c ≠ '\r' := by
        rintro rfl
        exact hc trivial
      rw [collect_newline, dropReturn_cons_of_ne hreturn]
      exact ⟨_, rfl, List.prefix_refl _⟩
    · obtain ⟨first, hfirst, hprefix⟩ := exists_collect_head (List.cons_ne_nil d (c :: line)) rest
      refine ⟨first, by rw [collect_cons_of_ne hd, hfirst], .trans (List.reverse_prefix.mpr ?_) hprefix⟩
      exact suffix_dropReturn_cons d (c :: line)

theorem lineBeginning_eq_self {line : List Char} (hline : '\n' ∉ line) : lineBeginning line = line := by
  rw [lineBeginning_eq_rtakeWhile, List.rtakeWhile_eq_self_iff]
  rintro c hc
  rw [bne_iff_ne]
  rintro rfl
  exact hline hc

theorem lineBeginning_newline (before rest : List Char) :
    lineBeginning (before ++ '\n' :: rest) = lineBeginning rest := by
  induction rest using List.reverseRecOn with
  | nil => exact (lineBeginning_concat before '\n').trans (if_pos rfl)
  | append_singleton rest c ih =>
    rw [← List.cons_append, ← List.append_assoc, lineBeginning_concat, lineBeginning_concat, ih]

/-- Cutting a text leaves open the line that its end belongs to. -/
theorem getElem?_collect_append (before rest : List Char) {line : List Char} (hline : '\n' ∉ line) :
    (collect line.reverse (before ++ rest))[before.count '\n']? =
      (collect (lineBeginning (line ++ before)).reverse rest)[0]? := by
  induction before generalizing line with
  | nil => rw [List.append_nil, lineBeginning_eq_self hline]; rfl
  | cons c before ih =>
    by_cases hc : c = '\n'
    · subst hc
      rw [List.cons_append, collect_newline, List.count_cons_self, List.getElem?_cons_succ, lineBeginning_newline]
      exact ih List.not_mem_nil
    · rw [List.cons_append, collect_cons_of_ne hc, List.count_cons_of_ne hc, ← List.reverse_concat,
        ih (by simp [hline, Ne.symm hc]), List.append_assoc, List.singleton_append]

/-- A character that does not belong to the ending of a line stands in the line and the column of its position. -/
theorem exists_line {text : String} {before rest : List Char} {c : Char} (htext : text.toList = before ++ c :: rest)
    (hc : ¬AtEnding (c :: rest)) :
    ∃ line, (split text)[(after before).line - 1]? = some line ∧ line.toList[(after before).column - 1]? = some c := by
  obtain ⟨first, hfirst, hprefix⟩ :=
    exists_collect_head_of_not_atEnding hc (lineBeginning before).reverse
  refine ⟨String.ofList first, ?_, ?_⟩
  · have hcut := @getElem?_collect_append before (c :: rest) [] List.not_mem_nil
    rw [List.nil_append, hfirst, ← htext] at hcut
    rw [split, List.getElem?_map, Position.after, Nat.add_sub_cancel]
    exact congrArg (Option.map String.ofList) hcut
  · rw [List.reverse_reverse] at hprefix
    obtain ⟨more, rfl⟩ := hprefix
    rw [String.toList_ofList, Position.after, Nat.add_sub_cancel, List.append_assoc,
      List.getElem?_append_right (Nat.le_refl _), Nat.sub_self]
    rfl

theorem newline_not_mem_of_mem_collect {line rest : List Char} (hline : '\n' ∉ line) :
    ∀ l ∈ collect line rest, '\n' ∉ l := by
  induction rest generalizing line with
  | nil =>
    intro l hl
    rw [collect] at hl
    split at hl
    · cases hl
    · simpa [List.mem_singleton.mp hl] using hline
  | cons c rest ih =>
    intro l hl
    by_cases hc : c = '\n'
    · subst hc
      rw [collect_newline] at hl
      rcases List.mem_cons.mp hl with rfl | hl
      · exact fun hmem => hline ((dropReturn_suffix line).subset (List.mem_reverse.mp hmem))
      · exact ih List.not_mem_nil l hl
    · rw [collect_cons_of_ne hc] at hl
      exact ih (by simp [hline, Ne.symm hc]) l hl

theorem newline_not_mem_split {text line : String} (hline : line ∈ split text) : '\n' ∉ line.toList := by
  obtain ⟨chars, hchars, rfl⟩ := List.mem_map.mp hline
  rw [String.toList_ofList]
  exact newline_not_mem_of_mem_collect List.not_mem_nil chars hchars

end TextLine

namespace Report

/-! ### Carets -/

theorem toList_blanks (n : Nat) : (blanks n).toList = List.replicate n ' ' :=
  String.toList_ofList

theorem length_gutter (p : Position) : (gutter p).length = (toString p.line).length := by
  rw [← String.length_toList, gutter, toList_blanks, List.length_replicate]

theorem getElem?_behind_bar (front content : String) (i : Nat) :
    (front ++ " | " ++ content).toList[front.length + 3 + i]? = content.toList[i]? := by
  have hlength : (front ++ " | ").toList.length = front.length + 3 := by simp [String.length_toList]
  rw [String.toList_append, List.getElem?_append_right (by omega), hlength, Nat.add_sub_cancel_left]

/-- The caret is drawn below the column. -/
theorem exists_caret {p : Position} {line : String} {c : Char} (hc : line.toList[p.column - 1]? = some c) :
    ∃ (number : String) (k : Nat), sourceRow p line = number ++ line ∧ k = number.length + (p.column - 1) ∧
      (sourceRow p line).toList[k]? = some c ∧ (caretRow p).toList[k]? = some '^' := by
  refine ⟨toString p.line ++ " | ", (toString p.line).length + 3 + (p.column - 1), rfl, ?_, ?_, ?_⟩
  · rw [String.length_append]
    rfl
  · rw [sourceRow, getElem?_behind_bar, hc]
  rw [caretRow, String.append_assoc, ← length_gutter, getElem?_behind_bar, String.toList_append, toList_blanks,
    List.getElem?_append_right (by simp)]
  simp

/-! ### Rows of a report -/

/-- Whether a text has two rows one directly below the other. -/
def HasRows (text row next : String) : Prop :=
  (∃ above below : String, text = above ++ "\n" ++ row ++ "\n" ++ next ++ below ∧
    (below = "" ∨ ∃ rest, below = "\n" ++ rest)) ∧ '\n' ∉ row.toList ∧ '\n' ∉ next.toList

/-- What one of several texts shows is shown by all of them printed one below the other. -/
theorem HasRows.intercalate {text row next : String} (h : HasRows text row next) {texts : List String}
    (htext : text ∈ texts) : HasRows (String.intercalate "\n" texts) row next := by
  obtain ⟨⟨above, below, hsplit, hbelow⟩, hrow, hnext⟩ := h
  refine ⟨?_, hrow, hnext⟩
  induction texts with
  | nil => cases htext
  | cons first rest ih =>
    rcases List.mem_cons.mp htext with rfl | htext
    · by_cases hrest : rest = []
      · subst hrest
        exact ⟨above, below, by simpa using hsplit, hbelow⟩
      · refine ⟨above, below ++ "\n" ++ String.intercalate "\n" rest, ?_, ?_⟩
        · rw [String.intercalate_cons_of_ne_nil hrest, hsplit]
          simp [String.append_assoc]
        · rcases hbelow with rfl | ⟨more, rfl⟩
          · exact .inr ⟨String.intercalate "\n" rest, by simp⟩
          · exact .inr ⟨more ++ "\n" ++ String.intercalate "\n" rest, by simp [String.append_assoc]⟩
    · obtain ⟨above', below', hsplit', hbelow'⟩ := ih htext
      refine ⟨first ++ "\n" ++ above', below', ?_, hbelow'⟩
      rw [String.intercalate_cons_of_ne_nil (List.ne_nil_of_mem htext), hsplit']
      simp [String.append_assoc]

theorem newline_not_mem_toDigits (n : Nat) : '\n' ∉ Nat.toDigits 10 n := by
  intro h
  have hdigit := Nat.isDigit_of_mem_toDigits (by decide) (by decide) h
  simp [Char.isDigit] at hdigit

theorem newline_not_mem_blanks (n : Nat) : '\n' ∉ (blanks n).toList := by
  simp [toList_blanks, List.mem_replicate]

/-- An excerpt shows the source line and, directly below it, the caret. -/
theorem excerpt_hasRows {p : Position} {line : String} (hline : '\n' ∉ line.toList) (label : String)
    (message : Message) : HasRows (excerpt p label line message) (sourceRow p line) (caretRow p) := by
  refine ⟨⟨heading label (some p) message.content ++ "\n" ++ (gutter p ++ " |"), ?_⟩, ?_, ?_⟩
  · cases hmore : message.addendum with
    | none => exact ⟨"", by simp [excerpt, hmore, String.append_assoc], .inl rfl⟩
    | some rest => exact ⟨"\n" ++ rest, by simp [excerpt, hmore, String.append_assoc], .inr ⟨rest, rfl⟩⟩
  · simp [sourceRow, newline_not_mem_toDigits, hline]
  · simp [caretRow, gutter, newline_not_mem_blanks]

theorem HasRows.render {r : Report} {sources : Sources} {location : Location} {message : Message} {row next : String}
    (h : HasRows (locatedText sources location message) row next) (hmem : (location, message) ∈ r.located) :
    HasRows (r.render sources) row next :=
  h.intercalate (List.mem_append_right _ (List.mem_map.mpr ⟨_, hmem, rfl⟩))

theorem locatedText_eq_excerpt {sources : Sources} {source : Source} {text : String}
    (hsource : sources.text? source = some text) (offset : Nat) (message : Message) :
    locatedText sources ⟨source, some offset⟩ message =
      excerpt (.ofOffset text offset) source.label (TextLine.nth text (Position.ofOffset text offset).line)
        message := by
  rw [locatedText, hsource]

end Report

open Position TextLine Report in
/-- An offset counts as the last boundary that is not behind it. Of two boundaries the earlier has the earlier position.
A character that does not belong to the ending of a line stands in the printed line at the column of its position, and
directly above the caret: the row that shows the line and the row of the caret follow each other in the report. -/
theorem positions_agree_with_printed_lines (text : String) :
    (∀ offset, ∃ b, IsGreatest {b | IsBoundary text b ∧ b ≤ min offset text.utf8ByteSize} b ∧
      ofOffset text offset = ofOffset text b) ∧
    (∀ b₁ b₂, IsBoundary text b₁ → IsBoundary text b₂ → b₁ < b₂ → (ofOffset text b₁).Before (ofOffset text b₂)) ∧
    ∀ before c rest, text.toList = before ++ c :: rest → ¬AtEnding (c :: rest) →
      let b := (String.ofList before).utf8ByteSize
      let p := ofOffset text b
      ∃ line, (split text)[p.line - 1]? = some line ∧ line.toList[p.column - 1]? = some c ∧
        (∀ (sources : Sources) (source : Source) (message : Message), sources.text? source = some text →
          locatedText sources ⟨source, some b⟩ message = excerpt p source.label line message ∧
            ∀ r : Report, (⟨source, some b⟩, message) ∈ r.located →
              HasRows (r.render sources) (sourceRow p line) (caretRow p)) ∧
        ∃ (number : String) (k : Nat), sourceRow p line = number ++ line ∧ k = number.length + (p.column - 1) ∧
          (sourceRow p line).toList[k]? = some c ∧ (caretRow p).toList[k]? = some '^' := by
  refine ⟨fun offset => ?_, fun b₁ b₂ => ofOffset_before, fun before c rest htext hc => ?_⟩
  · obtain ⟨rest, htext⟩ := charsWithin_prefix offset text.toList
    exact ⟨_, isGreatest_byteCount_charsWithin text offset, (ofOffset_eq_after htext.symm).symm⟩
  · intro b p
    have hp : p = Position.after before := by
      rw [← ofOffset_eq_after htext, ← utf8ByteSize_ofList]
    obtain ⟨line, hline, hcolumn⟩ := exists_line htext hc
    rw [← hp] at hline hcolumn
    refine ⟨line, hline, hcolumn, fun sources source message hsource => ?_, exists_caret hcolumn⟩
    have hprinted : locatedText sources ⟨source, some b⟩ message = excerpt p source.label line message := by
      rw [locatedText_eq_excerpt hsource, nth, hline]
      rfl
    have hrows := excerpt_hasRows (p := p) (newline_not_mem_split (List.mem_of_getElem? hline)) source.label message
    rw [← hprinted] at hrows
    exact ⟨hprinted, fun r hmem => hrows.render hmem⟩

/-- The letter behind a letter of two bytes, in the line below a line that ends with a carriage return. -/
theorem positions_agree_with_printed_lines_of_accent :
    let text := "a\r\né = x"
    let p := Position.ofOffset text 8
    let input := Source.interactive "<repl>"
    let report : Report := { located := [(⟨input, some 8⟩, ⟨"unknown name", some "Is it defined?"⟩)] }
    text.toList = "a\r\né = ".toList ++ 'x' :: [] ∧ ¬TextLine.AtEnding ['x'] ∧ p = ⟨2, 5⟩ ∧
      (∃ line, (TextLine.split text)[1]? = some line ∧ line.toList[4]? = some 'x') ∧
      Report.HasRows (report.render [(input, text)]) "2 | é = x" "  |     ^" ∧
      Position.ofOffset text 3 = Position.ofOffset text 4 := by
  intro text p input report
  obtain ⟨-, -, hline⟩ := positions_agree_with_printed_lines text
  have htext : text.toList = "a\r\né = ".toList ++ 'x' :: [] := by decide
  have hending : ¬TextLine.AtEnding ['x'] := id
  have hp : Position.ofOffset text (String.ofList "a\r\né = ".toList).utf8ByteSize = ⟨2, 5⟩ := by decide
  obtain ⟨line, hnth, hx, hprints, -⟩ := hline _ _ _ htext hending
  have hsource : Sources.text? [(input, text)] input = some text := by decide
  have hrows := (hprints _ _ ⟨"unknown name", some "Is it defined?"⟩ hsource).2 report List.mem_cons_self
  rw [hp] at hnth hx hrows
  obtain rfl : line = "é = x" := by
    have hsplit : (TextLine.split text)[1]? = some "é = x" := by decide
    exact Option.some.inj (hnth.symm.trans hsplit)
  exact ⟨htext, hending, by decide, ⟨_, hnth, hx⟩, hrows, by decide⟩

end ElmInference
