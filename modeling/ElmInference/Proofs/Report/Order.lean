import ElmInference.Report.Basic
import Mathlib.Tactic.Common

/-!
# The order of a report

Located messages are kept in ascending order of their offsets, since a message is inserted where a search for its offset
ends, and the search can be relied upon as long as the offsets are ascending. A search that ends at the last one of
several equal offsets puts a message behind all that came before it. So what a report holds in the end is what was
added, sorted in a way that does not disturb equal offsets.
-/

namespace ElmInference

namespace Report

/-! ### Offsets -/

/-- No offset is the beginning of the scale. -/
theorem offsetLe_iff {a b : Option Nat} : offsetLe a b = true ↔ a.elim 0 (· + 1) ≤ b.elim 0 (· + 1) := by
  cases a <;> cases b <;> simp [offsetLe]

theorem offsetLe_refl (a : Option Nat) : offsetLe a a = true :=
  offsetLe_iff.mpr (Nat.le_refl _)

theorem offsetLe_trans {a b c : Option Nat} (hab : offsetLe a b = true) (hbc : offsetLe b c = true) :
    offsetLe a c = true :=
  offsetLe_iff.mpr (Nat.le_trans (offsetLe_iff.mp hab) (offsetLe_iff.mp hbc))

theorem offsetLe_of_not {a b : Option Nat} (h : offsetLe a b = false) : offsetLe b a = true := by
  rw [Bool.eq_false_iff, ne_eq, offsetLe_iff] at h
  exact offsetLe_iff.mpr (Nat.le_of_not_le h)

theorem offsetLe_antisymm {a b : Option Nat} (hab : offsetLe a b = true) (hba : offsetLe b a = true) : a = b := by
  cases a <;> cases b <;> simp only [offsetLe, decide_eq_true_eq, Bool.false_eq_true] at hab hba
  · rfl
  · exact congrArg some (Nat.le_antisymm hab hba)

/-- An offset that comes after another one by no means comes before it. -/
theorem offsetLe_eq_false {a b : Option Nat} (hba : offsetLe b a = true) (hne : a ≠ b) : offsetLe a b = false :=
  Bool.eq_false_iff.mpr fun hab => hne (offsetLe_antisymm hab hba)

def Ascending (offsets : List (Option Nat)) : Prop :=
  offsets.Pairwise (fun a b => offsetLe a b = true)

variable {offsets : List (Option Nat)} {offset : Option Nat}

theorem Ascending.offsetLe_of_le (h : Ascending offsets) {i j : Nat} {a b : Option Nat} (hij : i ≤ j)
    (ha : offsets[i]? = some a) (hb : offsets[j]? = some b) : offsetLe a b = true := by
  obtain ⟨hi, rfl⟩ := List.getElem?_eq_some_iff.mp ha
  obtain ⟨hj, rfl⟩ := List.getElem?_eq_some_iff.mp hb
  rcases Nat.lt_or_eq_of_le hij with hlt | rfl
  · exact List.pairwise_iff_getElem.mp h i j hi hj hlt
  · exact offsetLe_refl _

theorem mem_take_iff {index : Nat} {other : Option Nat} :
    other ∈ offsets.take index ↔ ∃ i, i < index ∧ offsets[i]? = some other := by
  simp only [List.mem_iff_getElem?, List.getElem?_take]
  refine exists_congr fun i => ?_
  split <;> simp [*]

theorem mem_drop_iff {index : Nat} {other : Option Nat} :
    other ∈ offsets.drop index ↔ ∃ i, index ≤ i ∧ offsets[i]? = some other := by
  simp only [List.mem_iff_getElem?, List.getElem?_drop]
  constructor
  · rintro ⟨i, hi⟩
    exact ⟨index + i, Nat.le_add_right _ _, hi⟩
  · rintro ⟨i, hle, hi⟩
    exact ⟨i - index, by rwa [Nat.add_sub_cancel' hle]⟩

/-! ### Searching -/

/-- Whether a search can be relied upon among ascending offsets: it ends at the last one of those that are equal to the
offset, or, if there is none, between the ones before the offset and the ones after it. -/
structure FindsLast (search : List (Option Nat) → Option Nat → Spot) : Prop where
  found : ∀ {offsets offset index}, Ascending offsets → search offsets offset = .found index →
    offsets[index]? = some offset ∧ ∀ later, index < later → offsets[later]? ≠ some offset
  missing : ∀ {offsets offset index}, Ascending offsets → search offsets offset = .missing index →
    offset ∉ offsets ∧ index ≤ offsets.length ∧ (∀ other ∈ offsets.take index, offsetLe other offset = true) ∧
      ∀ other ∈ offsets.drop index, offsetLe offset other = true

/-- Where a search ends, what stands before comes no later than the offset and the rest comes after it. -/
theorem FindsLast.splits {search : List (Option Nat) → Option Nat → Spot} (hsearch : FindsLast search)
    (hasc : Ascending offsets) (offset : Option Nat) :
    (search offsets offset).insertion ≤ offsets.length ∧
      (∀ other ∈ offsets.take (search offsets offset).insertion, offsetLe other offset = true) ∧
      ∀ other ∈ offsets.drop (search offsets offset).insertion, offsetLe other offset = false := by
  cases hspot : search offsets offset with
  | found index =>
    obtain ⟨hfound, hlast⟩ := hsearch.found hasc hspot
    obtain ⟨hlt, -⟩ := List.getElem?_eq_some_iff.mp hfound
    refine ⟨hlt, fun other hother => ?_, fun other hother => ?_⟩
    · obtain ⟨i, hi, hother⟩ := mem_take_iff.mp hother
      exact hasc.offsetLe_of_le (Nat.le_of_lt_succ hi) hother hfound
    · obtain ⟨i, hi, hother⟩ := mem_drop_iff.mp hother
      refine offsetLe_eq_false (hasc.offsetLe_of_le (Nat.le_of_succ_le hi) hfound hother) ?_
      rintro rfl
      exact hlast i hi hother
  | missing index =>
    obtain ⟨hnew, hlength, hbefore, hbehind⟩ := hsearch.missing hasc hspot
    refine ⟨hlength, hbefore, fun other hother => offsetLe_eq_false (hbehind other hother) ?_⟩
    rintro rfl
    exact hnew (List.mem_of_mem_drop hother)

/-- Of the range that is left, the beginning comes no later than the offset, unless it is the beginning of the list, and
what stands behind the range comes after the offset. -/
theorem narrow_spec (hasc : Ascending offsets) (offset : Option Nat) {base size : Nat} (hsize : 0 < size)
    (hlength : base + size ≤ offsets.length)
    (hbase : base = 0 ∨ ∀ other, offsets[base]? = some other → offsetLe other offset = true)
    (hend : ∀ i other, base + size ≤ i → offsets[i]? = some other → offsetLe other offset = false) :
    narrow offsets offset base size < offsets.length ∧
      (narrow offsets offset base size = 0 ∨
        ∀ other, offsets[narrow offsets offset base size]? = some other → offsetLe other offset = true) ∧
      ∀ i other, narrow offsets offset base size < i → offsets[i]? = some other → offsetLe other offset = false := by
  fun_induction narrow offsets offset base size with
  | case1 base size hone => exact ⟨by omega, hbase, fun i other hi => hend i other (by omega)⟩
  | case2 base size hmore middle later ih =>
    have hmiddle : middle < offsets.length := by omega
    have hlater : later = !offsetLe offsets[middle] offset := by
      simp only [later, List.getElem?_eq_getElem hmiddle, Option.any_some]
    cases hle : offsetLe offsets[middle] offset with
    | true =>
      rw [hlater, hle, Bool.not_true, dif_neg Bool.false_ne_true] at ih
      rw [hlater, hle, Bool.not_true, if_neg Bool.false_ne_true]
      refine ih (by omega) (by omega) (.inr fun other hother => ?_) fun i other hi => hend i other (by omega)
      obtain rfl : offsets[middle] = other := Option.some.inj ((List.getElem?_eq_getElem hmiddle).symm.trans hother)
      exact hle
    | false =>
      rw [hlater, hle, Bool.not_false, dif_pos rfl] at ih
      rw [hlater, hle, Bool.not_false, if_pos rfl]
      refine ih (by omega) (by omega) hbase fun i other hi hother => ?_
      -- what is behind the middle comes no earlier, so it comes after the offset, too
      refine Bool.eq_false_iff.mpr fun hother' => Bool.eq_false_iff.mp hle ?_
      exact offsetLe_trans (hasc.offsetLe_of_le (by omega) (List.getElem?_eq_getElem hmiddle) hother) hother'

/-- Where halving ends in a list that is not empty. -/
theorem exists_narrow (hasc : Ascending offsets) (hne : offsets ≠ []) (offset : Option Nat) :
    ∃ last, offsets[narrow offsets offset 0 offsets.length]? = some last ∧
      (narrow offsets offset 0 offsets.length = 0 ∨ offsetLe last offset = true) ∧
      ∀ i other, narrow offsets offset 0 offsets.length < i → offsets[i]? = some other →
        offsetLe other offset = false := by
  obtain ⟨hlt, hlast, hbehind⟩ := narrow_spec hasc offset (List.length_pos_iff.mpr hne)
    (Nat.le_of_eq (Nat.zero_add _)) (.inl rfl) fun i other hi hother => by
      rw [List.getElem?_eq_none (by omega)] at hother
      cases hother
  exact ⟨_, List.getElem?_eq_getElem hlt, hlast.imp_right fun h => h _ (List.getElem?_eq_getElem hlt), hbehind⟩

/-- An offset that would have to stand at the end of halving, or behind it, stands nowhere else. -/
theorem not_mem_of_between (hasc : Ascending offsets) {place : Nat} {last : Option Nat}
    (hlast : offsets[place]? = some last) (hbefore : place = 0 ∨ offsetLe last offset = true)
    (hbehind : ∀ i other, place < i → offsets[i]? = some other → offsetLe other offset = false) (hne : last ≠ offset) :
    offset ∉ offsets := by
  intro hmem
  obtain ⟨i, hi⟩ := List.mem_iff_getElem?.mp hmem
  rcases Nat.lt_or_ge place i with hlt | hge
  · exact Bool.false_ne_true ((hbehind i offset hlt hi).symm.trans (offsetLe_refl offset))
  · rcases hbefore with rfl | hle
    · obtain rfl := Nat.le_zero.mp hge
      exact hne (Option.some.inj (hlast.symm.trans hi))
    · exact hne (offsetLe_antisymm hle (hasc.offsetLe_of_le hge hi hlast))

/-- Halving ends at the last one of several equal offsets. -/
theorem findsLast_bisect : FindsLast bisect where
  found {offsets offset index} hasc hspot := by
    rw [bisect] at hspot
    split at hspot
    · cases hspot
    · next other hother =>
      split at hspot
      · next heq =>
        cases hspot
        obtain ⟨last, hlast, -, hbehind⟩ := exists_narrow hasc (by rintro rfl; cases hother) offset
        refine ⟨heq ▸ hother, fun later hlater heq' => ?_⟩
        exact Bool.false_ne_true ((hbehind later offset hlater heq').symm.trans (offsetLe_refl offset))
      · cases hspot
  missing {offsets offset index} hasc hspot := by
    by_cases hempty : offsets = []
    · subst hempty
      rw [bisect, narrow] at hspot
      cases hspot
      simp
    obtain ⟨last, hlast, hbefore, hbehind⟩ := exists_narrow hasc hempty offset
    rw [bisect, hlast] at hspot
    dsimp only at hspot
    generalize narrow offsets offset 0 offsets.length = place at hlast hbefore hbehind hspot
    have hne : last ≠ offset := fun heq => by rw [if_pos heq] at hspot; cases hspot
    rw [if_neg hne] at hspot
    refine ⟨not_mem_of_between hasc hlast hbefore hbehind hne, ?_⟩
    obtain ⟨hlt, -⟩ := List.getElem?_eq_some_iff.mp hlast
    cases hle : offsetLe last offset with
    | true =>
      rw [hle, if_pos rfl] at hspot
      cases hspot
      refine ⟨hlt, fun other hother => ?_, fun other hother => ?_⟩
      · obtain ⟨i, hi, hother⟩ := mem_take_iff.mp hother
        exact offsetLe_trans (hasc.offsetLe_of_le (Nat.le_of_lt_succ hi) hother hlast) hle
      · obtain ⟨i, hi, hother⟩ := mem_drop_iff.mp hother
        exact offsetLe_of_not (hbehind i other hi hother)
    | false =>
      rw [hle, if_neg Bool.false_ne_true] at hspot
      cases hspot
      obtain rfl := hbefore.resolve_right (by rw [hle]; exact Bool.false_ne_true)
      refine ⟨Nat.zero_le _, fun other hother => absurd hother List.not_mem_nil, fun other hother => ?_⟩
      obtain ⟨i, -, hother⟩ := mem_drop_iff.mp hother
      rcases Nat.eq_zero_or_pos i with rfl | hpos
      · obtain rfl := Option.some.inj (hlast.symm.trans hother)
        exact offsetLe_of_not hle
      · exact offsetLe_of_not (hbehind i other hpos hother)

/-! ### Entries -/

def atOffset (offset : Option Nat) (entries : List (Location × Message)) : List (Location × Message) :=
  entries.filter (·.1.offset = offset)

theorem atOffset_append (offset : Option Nat) (front behind : List (Location × Message)) :
    atOffset offset (front ++ behind) = atOffset offset front ++ atOffset offset behind :=
  List.filter_append ..

theorem mem_atOffset {offset : Option Nat} {entries : List (Location × Message)} {entry : Location × Message} :
    entry ∈ atOffset offset entries ↔ entry ∈ entries ∧ entry.1.offset = offset := by
  simp [atOffset]

theorem atOffset_cons_of_eq {offset : Option Nat} {entry : Location × Message} (h : entry.1.offset = offset)
    (entries : List (Location × Message)) : atOffset offset (entry :: entries) = entry :: atOffset offset entries := by
  simp [atOffset, h]

theorem atOffset_cons_of_ne {offset : Option Nat} {entry : Location × Message} (h : entry.1.offset ≠ offset)
    (entries : List (Location × Message)) : atOffset offset (entry :: entries) = atOffset offset entries := by
  simp [atOffset, h]

/-- Whether entries stand in the order of their offsets, and those with the same offset in the order in which they
came. -/
structure Arranges (arranged came : List (Location × Message)) : Prop where
  ascending : Ascending (arranged.map (·.1.offset))
  perm : arranged.Perm came
  stable : ∀ offset, atOffset offset arranged = atOffset offset came

theorem arranges_nil : Arranges [] [] :=
  ⟨List.Pairwise.nil, .refl _, fun _ => rfl⟩

variable {arranged came : List (Location × Message)}

theorem ascending_map_iff :
    Ascending (arranged.map (·.1.offset)) ↔ arranged.Pairwise (fun a b => offsetLe a.1.offset b.1.offset = true) :=
  List.pairwise_map

/-- An entry between the ones that come no later and the ones that come after it stands in order. -/
theorem Arranges.between {front behind : List (Location × Message)} {entry : Location × Message}
    (h : Arranges (front ++ behind) came) (hfront : ∀ other ∈ front, offsetLe other.1.offset entry.1.offset = true)
    (hbehind : ∀ other ∈ behind, offsetLe other.1.offset entry.1.offset = false) :
    Arranges (front ++ entry :: behind) (came ++ [entry]) := by
  obtain ⟨hasc, hperm, hstable⟩ := h
  refine ⟨?_, ?_, fun offset => ?_⟩
  · rw [ascending_map_iff, List.pairwise_append] at hasc ⊢
    obtain ⟨hfronts, hbehinds, hacross⟩ := hasc
    refine ⟨hfronts, List.pairwise_cons.mpr ⟨fun b hb => offsetLe_of_not (hbehind b hb), hbehinds⟩, fun a ha b hb => ?_⟩
    rcases List.mem_cons.mp hb with rfl | hb
    · exact hfront a ha
    · exact hacross a ha b hb
  · exact List.perm_middle.trans (((hperm.cons entry)).trans (List.perm_append_singleton entry came).symm)
  · rw [atOffset_append, atOffset_append, ← hstable offset, atOffset_append]
    by_cases heq : entry.1.offset = offset
    · -- none of the entries behind has this offset
      have hnone : atOffset offset behind = [] := by
        refine List.eq_nil_iff_forall_not_mem.mpr fun other hother => ?_
        obtain ⟨hother, hsame⟩ := mem_atOffset.mp hother
        have hlater := hbehind other hother
        rw [heq, hsame, offsetLe_refl] at hlater
        cases hlater
      rw [atOffset_cons_of_eq heq, atOffset_cons_of_eq heq, hnone, List.append_nil]
      rfl
    · rw [atOffset_cons_of_ne heq, atOffset_cons_of_ne heq]
      exact (List.append_nil _).symm

/-- A message that is inserted where a reliable search ends stands behind all that came before it with its offset. -/
theorem Arranges.insert (h : Arranges arranged came) {search : List (Option Nat) → Option Nat → Spot}
    (hsearch : FindsLast search) (entry : Location × Message) :
    Arranges (arranged.insertIdx (search (arranged.map (·.1.offset)) entry.1.offset).insertion entry)
      (came ++ [entry]) := by
  obtain ⟨hlength, hbefore, hbehind⟩ := hsearch.splits h.ascending entry.1.offset
  generalize (search (arranged.map (·.1.offset)) entry.1.offset).insertion = index at hlength hbefore hbehind ⊢
  rw [List.length_map] at hlength
  obtain ⟨front, behind, rfl, rfl, hinsert⟩ := List.exists_of_modifyTailIdx (List.cons entry) hlength
  rw [List.insertIdx, hinsert]
  rw [← List.map_take, List.take_left] at hbefore
  rw [← List.map_drop, List.drop_left] at hbehind
  exact h.between (fun other hother => hbefore _ (List.mem_map_of_mem hother))
    fun other hother => hbehind _ (List.mem_map_of_mem hother)

/-- Entries in order are known from those of each offset. -/
theorem eq_of_atOffset_eq : ∀ {xs ys : List (Location × Message)},
    Ascending (xs.map (·.1.offset)) → Ascending (ys.map (·.1.offset)) →
    (∀ offset, atOffset offset xs = atOffset offset ys) → xs = ys
  | [], [], _, _, _ => rfl
  | [], y :: ys, _, _, hsame => by simpa [atOffset] using hsame y.1.offset
  | x :: xs, [], _, _, hsame => by simpa [atOffset] using hsame x.1.offset
  | x :: xs, y :: ys, hxs, hys, hsame => by
    have hmem (entry : Location × Message) : entry ∈ x :: xs ↔ entry ∈ y :: ys := by
      have := congrArg (entry ∈ ·) (hsame entry.1.offset)
      simpa only [mem_atOffset, and_true, eq_iff_iff] using this
    rw [List.map_cons, Ascending, List.pairwise_cons, List.forall_mem_map] at hxs hys
    have hoffset : x.1.offset = y.1.offset := by
      -- each of the two entries comes first among the same entries
      rcases List.mem_cons.mp ((hmem y).mpr List.mem_cons_self) with rfl | hy
      · rfl
      · rcases List.mem_cons.mp ((hmem x).mp List.mem_cons_self) with rfl | hx
        · rfl
        · exact offsetLe_antisymm (hxs.1 y hy) (hys.1 x hx)
    have hfirst := hsame y.1.offset
    rw [atOffset_cons_of_eq hoffset, atOffset_cons_of_eq rfl] at hfirst
    obtain ⟨rfl, -⟩ := List.cons.inj hfirst
    refine congrArg (x :: ·) (eq_of_atOffset_eq hxs.2 hys.2 fun offset => ?_)
    have hsame := hsame offset
    by_cases hx : x.1.offset = offset
    · rw [atOffset_cons_of_eq hx, atOffset_cons_of_eq hx] at hsame
      exact (List.cons.inj hsame).2
    · rwa [atOffset_cons_of_ne hx, atOffset_cons_of_ne hx] at hsame

/-- Sorting by offset in a way that does not disturb equal offsets. -/
def byOffset (entries : List (Location × Message)) : List (Location × Message) :=
  entries.mergeSort (fun a b => offsetLe a.1.offset b.1.offset)

theorem arranges_byOffset (came : List (Location × Message)) : Arranges (byOffset came) came := by
  have htrans (a b c : Location × Message) (hab : offsetLe a.1.offset b.1.offset = true)
      (hbc : offsetLe b.1.offset c.1.offset = true) : offsetLe a.1.offset c.1.offset = true := offsetLe_trans hab hbc
  have htotal (a b : Location × Message) :
      (offsetLe a.1.offset b.1.offset || offsetLe b.1.offset a.1.offset) = true := by
    cases hab : offsetLe a.1.offset b.1.offset
    · rw [offsetLe_of_not hab, Bool.or_true]
    · rfl
  have hperm : (byOffset came).Perm came := List.mergeSort_perm _ _
  refine ⟨ascending_map_iff.mpr (List.pairwise_mergeSort htrans htotal came), hperm, fun offset => ?_⟩
  -- entries with one offset are in order as they came, so sorting leaves them as they are
  have hsorted : (atOffset offset came).Pairwise (fun a b => offsetLe a.1.offset b.1.offset = true) := by
    refine List.pairwise_of_forall_mem_list fun a ha b hb => ?_
    rw [(mem_atOffset.mp ha).2, (mem_atOffset.mp hb).2]
    exact offsetLe_refl _
  have hsublist := (List.sublist_mergeSort htrans htotal hsorted List.filter_sublist).filter (·.1.offset = offset)
  rw [atOffset, List.filter_filter] at hsublist
  simp only [Bool.and_self] at hsublist
  exact (hsublist.eq_of_length (hperm.filter _).length_eq.symm).symm

/-- There is only one way to arrange entries. -/
theorem Arranges.eq_byOffset (h : Arranges arranged came) : arranged = byOffset came := by
  have hsorted := arranges_byOffset came
  exact eq_of_atOffset_eq h.ascending hsorted.ascending fun offset =>
    (h.stable offset).trans (hsorted.stable offset).symm

/-! ### Runs -/

def unplaced (calls : List (Option Location × Message)) : List Message :=
  calls.filterMap fun (location, message) => if location.isNone then some message else none

def placed (calls : List (Option Location × Message)) : List (Location × Message) :=
  calls.filterMap fun (location, message) => location.map (·, message)

theorem length_unplaced_add_length_placed (calls : List (Option Location × Message)) :
    (unplaced calls).length + (placed calls).length = calls.length := by
  induction calls with
  | nil => rfl
  | cons call calls ih =>
    obtain ⟨_ | location, message⟩ := call <;> simp [unplaced, placed] at ih ⊢ <;> omega

def addAllBy (search : List (Option Nat) → Option Nat → Spot) (r : Report)
    (calls : List (Option Location × Message)) : Report :=
  calls.foldl (fun r (location, message) => r.addBy search location message) r

/-- Whether a report holds what came, and its located messages in order. -/
structure Holds (r : Report) (calls : List (Option Location × Message)) : Prop where
  items : r.items = unplaced calls
  arranges : Arranges r.located (placed calls)

theorem holds_nil : Holds {} [] :=
  ⟨rfl, arranges_nil⟩

variable {search : List (Option Nat) → Option Nat → Spot}

/-- Adding keeps the order that the next search relies upon. -/
theorem Holds.addBy (hsearch : FindsLast search) {r : Report} {calls : List (Option Location × Message)}
    (h : Holds r calls) (location : Option Location) (message : Message) :
    Holds (r.addBy search location message) (calls ++ [(location, message)]) := by
  obtain ⟨hitems, harranges⟩ := h
  cases location with
  | none => exact ⟨by simp [Report.addBy, unplaced, hitems], by simpa [Report.addBy, placed] using harranges⟩
  | some location =>
    refine ⟨by simp [Report.addBy, unplaced, hitems], ?_⟩
    have := harranges.insert hsearch (location, message)
    simpa [Report.addBy, placed] using this

theorem Holds.addAllBy (hsearch : FindsLast search) : ∀ (more : List (Option Location × Message)) {r : Report}
    {calls : List (Option Location × Message)}, Holds r calls → Holds (r.addAllBy search more) (calls ++ more)
  | [], r, calls, h => by simpa [Report.addAllBy] using h
  | (location, message) :: more, r, calls, h => by
    have := Holds.addAllBy hsearch more (h.addBy hsearch location message)
    rwa [List.append_assoc] at this

/-! ### Headings -/

/-- The line and the column that the heading of a located message tells. -/
def placeText (sources : Sources) (location : Location) : String :=
  match location.offset, sources.text? location.source with
  | some offset, some text =>
    let p := Position.ofOffset text offset
    toString p.line ++ ":" ++ toString p.column ++ ":"
  | _, _ => ""

theorem plain_begins (message : Message) : ∃ more, plain message = "error: " ++ message.content ++ more :=
  ⟨_, rfl⟩

theorem excerpt_begins (p : Position) (label line : String) (message : Message) :
    ∃ more, excerpt p label line message = heading label (some p) message.content ++ more :=
  ⟨_, by rw [excerpt, List.cons_append, String.intercalate_cons_of_ne_nil (by simp), String.append_assoc]⟩

theorem locatedText_begins (sources : Sources) (location : Location) (message : Message) :
    ∃ more, locatedText sources location message =
      location.source.label ++ ":" ++ placeText sources location ++ " error: " ++ message.content ++ more := by
  unfold placeText
  split
  · next offset text hoffset htext =>
    obtain ⟨more, hmore⟩ := excerpt_begins (.ofOffset text offset) location.source.label
      (TextLine.nth text (Position.ofOffset text offset).line) message
    refine ⟨more, ?_⟩
    simp only [locatedText, hoffset, htext]
    exact hmore
  · next h =>
    refine ⟨"", ?_⟩
    rw [locatedText, String.append_empty]
    split
    · next offset text hoffset htext => exact absurd htext (h offset text hoffset)
    · simp [heading]

/-- Whatever is added in whatever order, a report holds the messages without a location as they came and the others
sorted by offset, those with the same offset as they came. It prints them in this order, each of them once and under a
heading with its place and its content. -/
theorem reports_are_stably_ordered (hsearch : FindsLast search) (calls : List (Option Location × Message))
    (sources : Sources) :
    let r := addAllBy search {} calls
    r.items = unplaced calls ∧ r.located = byOffset (placed calls) ∧ Arranges r.located (placed calls) ∧
      r.size = calls.length ∧ (r.texts sources).length = calls.length ∧
      r.render sources = String.intercalate "\n" ((unplaced calls).map plain ++
        (byOffset (placed calls)).map fun (location, message) => locatedText sources location message) ∧
      (∀ message ∈ unplaced calls, ∃ more, plain message = "error: " ++ message.content ++ more) ∧
      ∀ entry ∈ byOffset (placed calls), ∃ more, locatedText sources entry.1 entry.2 =
        entry.1.source.label ++ ":" ++ placeText sources entry.1 ++ " error: " ++ entry.2.content ++ more := by
  intro r
  obtain ⟨hitems, harranges⟩ := holds_nil.addAllBy hsearch calls
  have hsize : r.size = calls.length := by
    rw [Report.size, hitems, harranges.perm.length_eq]
    exact length_unplaced_add_length_placed calls
  refine ⟨hitems, harranges.eq_byOffset, harranges, hsize, ?_, ?_, fun message _ => plain_begins message,
    fun entry _ => locatedText_begins sources entry.1 entry.2⟩
  · rw [Report.texts, List.length_append, List.length_map, List.length_map]
    exact hsize
  · rw [Report.render, Report.texts, hitems, harranges.eq_byOffset]
    rfl

/-- The report that looks for offsets by halving, on messages of two sources that come in no order. -/
theorem reports_are_stably_ordered_by_halving :
    let main := Source.file "Main.elm"
    let input := Source.interactive "<repl>"
    let calls : List (Option Location × Message) :=
      [(some ⟨main, some 7⟩, ⟨"late", none⟩), (none, ⟨"general", none⟩), (some ⟨input, some 3⟩, ⟨"first", none⟩),
        (some ⟨main, some 3⟩, ⟨"second", none⟩), (some ⟨input, none⟩, ⟨"nowhere", none⟩)]
    let r := addAllBy bisect {} calls
    FindsLast bisect ∧ r.located = byOffset (placed calls) ∧
      r.located.map (·.2.content) = ["nowhere", "first", "second", "late"] ∧
      (r.texts []).length = 5 := by
  intro main input calls r
  obtain ⟨-, hlocated, -, -, hlength, -⟩ := reports_are_stably_ordered findsLast_bisect calls []
  exact ⟨findsLast_bisect, hlocated, by decide +kernel, hlength⟩

end Report

end ElmInference
