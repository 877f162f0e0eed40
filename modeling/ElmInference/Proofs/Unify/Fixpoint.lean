import ElmInference.Proofs.Unify.Clock
import Mathlib.Tactic.Ring

/-!
# Unification without its clock

On the types of a sane store the clock of unification always suffices, `unify_returns`, and then it does not
show in the result either: `unify` satisfies the equation of the plain recursion, `unify_eq`. The bound on
the rounds comes from what there is to be learned about the variables and field names that the store and
the two types mention.
-/

namespace ElmInference

def Mention.field? : Mention → Option Name
  | .field name => some name
  | _ => none

def fieldNames (mentions : List Mention) : List Name :=
  mentions.filterMap Mention.field?

@[simp] theorem fieldNames_append (ms ns : List Mention) :
    fieldNames (ms ++ ns) = fieldNames ms ++ fieldNames ns :=
  List.filterMap_append

theorem mem_fieldNames {name : Name} {mentions : List Mention} :
    name ∈ fieldNames mentions ↔ .field name ∈ mentions := by
  simp only [fieldNames, List.mem_filterMap]
  constructor
  · rintro ⟨r, hr, hname⟩
    cases r with
    | field other =>
      cases hname
      exact hr
    | var v => cases hname
    | record id => cases hname
    | hole => cases hname
  · intro h
    exact ⟨_, h, rfl⟩

namespace Ty

theorem length_fieldNames_list {ts : List Ty}
    (h : ∀ t ∈ ts, (fieldNames (t.mentions false)).length < t.size) :
    (fieldNames (mentionsList false ts)).length ≤ sizeList ts := by
  induction ts with
  | nil => simp [mentionsList, fieldNames, sizeList]
  | cons t ts ih =>
    have hhead := h t List.mem_cons_self
    have htail := ih (fun u hu => h u (List.mem_cons_of_mem _ hu))
    simp only [mentionsList, fieldNames_append, List.length_append, sizeList]
    omega

theorem length_fieldNames_fields {fields : List (Name × Ty)}
    (h : ∀ field ∈ fields, (fieldNames (field.2.mentions false)).length < field.2.size) :
    (fieldNames (mentionsFields false fields)).length ≤ sizeFields fields := by
  induction fields with
  | nil => simp [mentionsFields, fieldNames, sizeFields]
  | cons field rest ih =>
    obtain ⟨name, t⟩ := field
    have hhead : (fieldNames (t.mentions false)).length < t.size := h _ List.mem_cons_self
    have htail := ih (fun u hu => h u (List.mem_cons_of_mem _ hu))
    have hcons : fieldNames (mentionsFields false ((name, t) :: rest)) =
        name :: (fieldNames (t.mentions false) ++ fieldNames (mentionsFields false rest)) := by
      rw [mentionsFields, ← fieldNames_append]
      rfl
    simp only [hcons, List.length_cons, List.length_append, sizeFields]
    omega

/-- A type has more nodes than field names. -/
theorem length_fieldNames_lt (t : Ty) : (fieldNames (t.mentions false)).length < t.size := by
  induction t using inductParts with
  | unit | unknown | inProgress | var | growing =>
    simp [mentions, fieldNames, Mention.field?, size]
  | union m n args w iha _ =>
    have := length_fieldNames_list iha
    simp only [mentions, mentionsAlias_false, List.append_nil, size]
    omega
  | tuple items ih =>
    have := length_fieldNames_list ih
    simp only [mentions, size]
    omega
  | record fields base w refs ihf ihb _ =>
    have hfields := length_fieldNames_fields ihf
    have hbase : (fieldNames (mentionsBase false base)).length ≤ sizeBase base := by
      cases base with
      | none => simp [mentionsBase, fieldNames, sizeBase]
      | some b => exact Nat.le_of_lt (ihb b rfl)
    simp only [mentions, mentionsAlias_false, List.append_nil, fieldNames_append, List.length_append,
      size]
    omega
  | arrow params ret w ihp ihr _ =>
    have := length_fieldNames_list ihp
    simp only [mentions, mentionsAlias_false, List.append_nil, fieldNames_append, List.length_append,
      size]
    omega

end Ty

namespace Store

variable {s : Store}

def entryMentions (s : Store) : List Mention :=
  s.solutions.entries.toList.flatMap (Ty.mentionsBase false) ++
    s.records.toList.flatMap (GrowingRecord.links false)

private theorem length_fieldNames_foldl {α : Type} (mentions : α → List Mention)
    (step : Nat → α → Nat) (hstep : ∀ acc x, acc + (fieldNames (mentions x)).length ≤ step acc x)
    (xs : List α) (start : Nat) :
    start + (fieldNames (xs.flatMap mentions)).length ≤ xs.foldl step start := by
  induction xs generalizing start with
  | nil => simp [fieldNames]
  | cons x xs ih =>
    have hhead := hstep start x
    have htail := ih (step start x)
    simp only [List.flatMap_cons, fieldNames_append, List.length_append, List.foldl_cons]
    omega

theorem length_entryMentions_le (s : Store) : (fieldNames s.entryMentions).length ≤ s.weight := by
  have hsolutions := length_fieldNames_foldl (Ty.mentionsBase false)
    (fun acc t => acc + 1 + Ty.sizeBase t) (fun acc entry => by
      cases entry with
      | none => simp [Ty.mentionsBase, fieldNames, Ty.sizeBase]
      | some t =>
        have := t.length_fieldNames_lt
        simp only [Ty.mentionsBase, Ty.sizeBase]
        omega) s.solutions.entries.toList 0
  have hrecords := length_fieldNames_foldl (GrowingRecord.links false)
    (fun acc r => acc + 1 + Ty.sizeFields r.fields + r.base.size) (fun acc g => by
      have := Ty.length_fieldNames_fields (fun field (_ : field ∈ g.fields) => field.2.length_fieldNames_lt)
      have := g.base.length_fieldNames_lt
      simp only [GrowingRecord.links, fieldNames_append, List.length_append]
      omega) s.records.toList 0
  simp only [Array.foldl_toList, Nat.zero_add] at hsolutions hrecords
  simp only [entryMentions, fieldNames_append, List.length_append, weight]
  omega

def origin (s : Store) (a e : Ty) : Origin :=
  ⟨s.size, s.records.size,
    (fieldNames (a.mentions false ++ (e.mentions false ++ s.entryMentions))).toFinset⟩

/-- A mention of the store's own that stands in the types or in the entries is original. -/
theorem mem_origin {a e : Ty} {r : Mention} (hr : s.Has r)
    (hmem : r ∈ a.mentions false ++ (e.mentions false ++ s.entryMentions)) :
    r ∈ (s.origin a e).mentions := by
  cases r with
  | var v => exact hr
  | record id => exact hr
  | field name =>
    have hname : name ∈ (s.origin a e).names := List.mem_toFinset.mpr (mem_fieldNames.mpr hmem)
    exact hname
  | hole => trivial

theorem mem_entryMentions_solution {id : VarId} {t : Ty} (hsol : s.solution? id = some t) {r : Mention}
    (hr : r ∈ t.mentions false) : r ∈ s.entryMentions := by
  have hentry : s.solutions.entries[id]? = some (some t) := by
    simpa [solution?, Option.join_eq_some_iff] using hsol
  refine List.mem_append_left _ (List.mem_flatMap.mpr ⟨some t, ?_, hr⟩)
  exact Array.mem_toList_iff.mpr (Array.mem_of_getElem? hentry)

theorem mem_entryMentions_record {id : RecordId} {g : GrowingRecord} (hrec : s.records[id]? = some g)
    {r : Mention} (hr : r ∈ g.links false) : r ∈ s.entryMentions :=
  List.mem_append_right _ (List.mem_flatMap.mpr
    ⟨g, Array.mem_toList_iff.mpr (Array.mem_of_getElem? hrec), hr⟩)

theorem inherits_origin (hclosed : s.Closed) (a e : Ty) : Inherits (s.origin a e) s := by
  have entry : ∀ r, s.Has r → r ∈ s.entryMentions → r ∈ (s.origin a e).mentions :=
    fun r hr hmem => mem_origin hr (List.mem_append_right _ (List.mem_append_right _ hmem))
  have link : ∀ (id : Nat) g, s.records[id]? = some g → ∀ r ∈ g.links false,
      r ∈ (s.origin a e).mentions :=
    fun id g hrec r hr => entry r (hclosed.has_link hrec r hr) (mem_entryMentions_record hrec hr)
  refine ⟨Nat.le_refl _, Nat.le_refl _, fun id t hsol => .within (fun r hr => ?_),
    fun id g hrec r hr => ?_, fun id g hrec => .within (fun r hr => ?_), fun id g _ hrec r hr => ?_⟩
  · exact entry r (hclosed.owns_solution hsol r hr) (mem_entryMentions_solution hsol hr)
  · exact link id g hrec r (List.mem_append_left _ hr)
  · exact link id g hrec r (List.mem_append_right _ hr)
  · exact link id g hrec r (List.mem_append_right _ hr)

theorem card_facts_lt (s : Store) (a e : Ty) :
    (s.origin a e).facts.card < StoreM.roundLimit s a e := by
  have hcard := (s.origin a e).card_facts_le
  have hnames : (s.origin a e).names.card ≤ s.weight + a.size + e.size := by
    refine (List.toFinset_card_le _).trans ?_
    have := a.length_fieldNames_lt
    have := e.length_fieldNames_lt
    have := s.length_entryMentions_le
    simp only [fieldNames_append, List.length_append]
    omega
  have hsize : (s.origin a e).size ≤ s.weight + a.size + e.size := by
    have := s.size_le_weight
    change s.size ≤ _
    omega
  simp only [StoreM.roundLimit]
  generalize s.weight + a.size + e.size = n at *
  generalize (s.origin a e).names.card = names at *
  generalize (s.origin a e).size = size at *
  have hsquare : size * size ≤ n * n := Nat.mul_le_mul hsize hsize
  have hproduct : size * names ≤ n * n := Nat.mul_le_mul hsize hnames
  have hcube : (n + 1) * (n + 1) * (n + 1) = n * n * n + 3 * (n * n) + 3 * n + 1 := by ring
  rw [hcube]
  omega

end Store

namespace StoreM

open Store

variable {s : Store}

/-- Unification of types of a sane store ends. -/
theorem unify_returns (hsane : s.Sane) {a e : Ty} (ha : s.Owns a) (he : s.Owns e) :
    unify a e s ≠ .error .diverged := by
  refine unifyRounds_returns (o := s.origin a e) (roundLimit s a e) hsane
    (inherits_origin hsane.closed a e) (.inl (fun r hr => ?_)) (.inl (fun r hr => ?_)) ?_
  · exact mem_origin (ha r hr) (List.mem_append_left _ hr)
  · exact mem_origin (he r hr) (List.mem_append_right _ (List.mem_append_left _ hr))
  · exact Nat.lt_of_le_of_lt (pending_le_card s _) (card_facts_lt s a e)

/-! ### The equation of the recursion

Without rounds, recursion to depth `n` is `unifyWithin` with nothing beyond. A computation settles when it
agrees with all deep enough computations of a sequence, unless it has used up its clock. -/

/-- Whether a computation is the limit of a sequence, where it does not diverge. -/
def Settles {α : Type} (x : StoreM α) (y : Nat → StoreM α) : Prop :=
  ∀ s, x s = .error .diverged ∨ ∃ n, ∀ m, n ≤ m → y m s = x s

theorem settles_const {α : Type} (x : StoreM α) : Settles x (fun _ => x) :=
  fun _ => .inr ⟨0, fun _ _ => rfl⟩

theorem Settles.bind {α β : Type} {x : StoreM α} {y : Nat → StoreM α} {f : α → StoreM β}
    {g : Nat → α → StoreM β} (hx : Settles x y) (hf : ∀ a, Settles (f a) (fun m => g m a)) :
    Settles (x >>= f) (fun m => y m >>= g m) := by
  intro s
  rcases hx s with hdiverged | ⟨n, hn⟩
  · exact .inl (run_bind_error hdiverged)
  · cases hrun : x s with
    | error fault =>
      refine .inr ⟨n, fun m hm => ?_⟩
      rw [run_bind_error hrun]
      exact run_bind_error ((hn m hm).trans hrun)
    | ok p =>
      obtain ⟨a, s₁⟩ := p
      rw [run_bind_ok hrun]
      rcases hf a s₁ with hdiverged | ⟨n', hn'⟩
      · exact .inl hdiverged
      · refine .inr ⟨max n n', fun m hm => ?_⟩
        exact (run_bind_ok ((hn m (le_of_max_le_left hm)).trans hrun)).trans
          (hn' m (le_of_max_le_right hm))

section Level

variable {unify : Ty → Ty → StoreM Outcome} {unifyAt : Nat → Ty → Ty → StoreM Outcome}
  (hunify : ∀ a e, Settles (unify a e) (fun m => unifyAt m a e))

include hunify

theorem settles_pairs (pairs : List (Ty × Ty)) :
    Settles (unifyPairs unify pairs) (fun m => unifyPairs (unifyAt m) pairs) := by
  induction pairs with
  | nil => exact settles_const _
  | cons pair rest ih => exact (hunify _ _).bind (fun _ => ih.bind (fun _ => settles_const _))

theorem settles_fields (fields : List (Name × Ty × Ty)) :
    Settles (unifyFields unify fields) (fun m => unifyFields (unifyAt m) fields) := by
  induction fields with
  | nil => exact settles_const _
  | cons field rest ih => exact (hunify _ _).bind (fun _ => ih.bind (fun _ => settles_const _))

theorem settles_joinEnds (f g : Flattened) :
    Settles (joinEnds unify f g) (fun m => joinEnds (unifyAt m) f g) := by
  cases hg : (fieldsMissingIn g f).isEmpty <;> cases hf : (fieldsMissingIn f g).isEmpty <;>
    simp only [joinEnds, hg, hf]
  · exact settles_const _
  · exact settles_const _
  · exact settles_const _
  · cases f.tail with
    | opened v =>
      cases g.tail with
      | opened w => exact hunify _ _
      | _ => exact settles_const _
    | _ => cases g.tail <;> exact settles_const _

theorem settles_flattened (f g : Flattened) :
    Settles (unifyFlattened unify f g) (fun m => unifyFlattened (unifyAt m) f g) := by
  refine (settles_fields hunify _).bind (fun found => ?_)
  obtain ⟨mismatched, infinite⟩ := found
  cases infinite with
  | true => exact settles_const _
  | false =>
    cases hdiff : (recordDiff f g mismatched).isEmpty with
    | true =>
      simp only [Bool.false_eq_true, if_false, hdiff, Bool.not_true]
      exact settles_joinEnds hunify f g
    | false =>
      simp only [Bool.false_eq_true, if_false, hdiff, Bool.not_false, if_true]
      exact settles_const _

theorem settles_resolved (a e : Ty) :
    Settles (unifyResolved unify a e) (fun m => unifyResolved (unifyAt m) a e) := by
  unfold unifyResolved
  split
  · exact settles_const _
  · split
    · exact settles_const _
    · exact settles_const _
    · exact settles_const _
    · exact settles_const _
    · split
      · exact settles_pairs hunify _
      · exact settles_const _
    · split
      · exact settles_pairs hunify _
      · exact settles_const _
    · exact (settles_pairs hunify _).bind (fun _ => (hunify _ _).bind (fun _ => settles_const _))
    · split
      · exact (settles_const _).bind (fun f => (settles_const _).bind
          (fun g => settles_flattened hunify f g))
      · exact settles_const _

theorem settles_step (a e : Ty) : Settles (unifyStep unify a e) (fun m => unifyStep (unifyAt m) a e) :=
  (settles_const _).bind (fun a' => (settles_const _).bind (fun e' => settles_resolved hunify a' e'))

end Level

/-- Unification by recursion of depth at most `n`. -/
def unifyTo (n : Nat) : Ty → Ty → StoreM Outcome :=
  unifyWithin (fun _ _ => throw .diverged) n

theorem settles_shift {α : Type} {x : StoreM α} {y : Nat → StoreM α}
    (h : Settles x (fun m => y (m + 1))) : Settles x y := by
  intro s
  refine (h s).imp_right (fun ⟨n, hn⟩ => ⟨n + 1, fun m hm => ?_⟩)
  obtain ⟨k, rfl⟩ : ∃ k, m = k + 1 := ⟨m - 1, by omega⟩
  exact hn k (by omega)

theorem settles_unifyWithin {beyond : Ty → Ty → StoreM Outcome}
    (hbeyond : ∀ a e, Settles (beyond a e) (fun m => unifyTo m a e)) (n : Nat) (a e : Ty) :
    Settles (unifyWithin beyond n a e) (fun m => unifyTo m a e) := by
  induction n generalizing a e with
  | zero => exact hbeyond a e
  | succ n ih => exact settles_shift (settles_step ih a e)

theorem settles_unifyRounds (n : Nat) (a e : Ty) :
    Settles (unifyRounds n a e) (fun m => unifyTo m a e) := by
  induction n generalizing a e with
  | zero => exact fun s => .inl rfl
  | succ n ih => exact fun s => settles_unifyWithin ih (roundDepth s a e) a e s

theorem settles_unify (a e : Ty) : Settles (unify a e) (fun m => unifyTo m a e) :=
  fun s => settles_unifyRounds (roundLimit s a e) a e s

/-- What one level does with calls of `unify` is safe, and it does not diverge. -/
theorem unifyStep_returns (hsane : s.Sane) {a e : Ty} (ha : s.Owns a) (he : s.Owns e) :
    unifyStep unify a e s ≠ .error .diverged := by
  have hunify : ∀ s a e, Safe (fun _ => False) s a e (unify a e s) := by
    intro s a e Q htidy ha he
    have hlands := safe_unify s a e Q htidy ha he
    cases hrun : unify a e s with
    | ok p =>
      rw [hrun] at hlands
      exact hlands
    | error fault =>
      rw [hrun] at hlands
      refine hlands.imp_left (fun hdiverged => ?_)
      rw [hdiverged] at hrun
      exact unify_returns htidy.sane (htidy.owns ha) (htidy.owns he) hrun
  have hstep := safe_unified (unified_run hunify s a e) _ hsane.tidy ha he
  intro hrun
  rw [hrun] at hstep
  rcases hstep with hfalse | ⟨id, hid⟩
  · exact hfalse
  · cases hid

/-- On types of a sane store, unification satisfies the equation of its recursion. -/
theorem unify_eq (hsane : s.Sane) {a e : Ty} (ha : s.Owns a) (he : s.Owns e) :
    unify a e s = unifyStep unify a e s := by
  rcases settles_unify a e s with hdiverged | ⟨n, hn⟩
  · exact absurd hdiverged (unify_returns hsane ha he)
  · rcases settles_shift (y := fun m => unifyTo m a e) (settles_step settles_unify a e) s with
      hdiverged | ⟨n', hn'⟩
    · exact absurd hdiverged (unifyStep_returns hsane ha he)
    · rw [← hn (max n n') (le_max_left _ _), ← hn' (max n n') (le_max_right _ _)]

end StoreM

end ElmInference
