import ElmInference.Proofs.Infer.Requests

/-!
# What a cache remembers

A cache is filled and spoilt by a sequence of events, and what it answers can be told from that history alone. For each
declaration the result that was put in last counts, whatever its signature was. It can be got under its key until a
change covers that key, and from then on the entry is stale. A change of a value covers the unsigned keys of its file
only if the declaration is held under an unsigned key at that moment, stale or not, and that is again a question about
the results that were put in.
-/

namespace ElmInference

def Change.inFile : Change → FileId
  | .value place _ => place
  | .signature place _ => place
  | .type place => place
  | .file place => place

theorem DeclKey.sameDecl_iff {k other : DeclKey} : k.sameDecl other = true ↔ k.file = other.file ∧ k.name = other.name := by
  rw [sameDecl, Bool.and_eq_true, beq_iff_eq, beq_iff_eq]

theorem DeclKey.eq_of_sameDecl {k other : DeclKey} (h : k.sameDecl other = true) (hsignature : k.signature = other.signature) :
    k = other := by
  obtain ⟨hfile, hname⟩ := sameDecl_iff.mp h
  obtain ⟨file, name, signature⟩ := k
  obtain rfl : signature = other.signature := hsignature
  rw [show file = other.file from hfile, show name = other.name from hname]

inductive CacheEvent where
  | insert (key : DeclKey) (result : InferenceResult)
  | invalidate (change : Change)

namespace CacheEvent

def inFile : CacheEvent → FileId
  | .insert key _ => key.file
  | .invalidate change => change.inFile

/-- Whether an event puts in a result for a declaration, under any signature. -/
def isFor (file : FileId) (name : Name) : CacheEvent → Bool
  | .insert key _ => key.file == file && key.name == name
  | .invalidate _ => false

def apply (c : Cache) : CacheEvent → Cache
  | .insert key result => c.insert key result
  | .invalidate change => c.invalidate change

theorem isFor_insert (key key' : DeclKey) (result : InferenceResult) :
    (insert key result).isFor key'.file key'.name = key'.sameDecl key := by
  rw [isFor, DeclKey.sameDecl, Bool.beq_comm, Bool.beq_comm (a := key.name)]

end CacheEvent

def Cache.after (history : List CacheEvent) : Cache :=
  history.foldl CacheEvent.apply {}

theorem Cache.after_concat (history : List CacheEvent) (event : CacheEvent) :
    after (history ++ [event]) = event.apply (after history) := by
  rw [after, after, List.foldl_append]
  rfl

/-! ### Histories -/

namespace CacheHistory

/-- A history in which the result put in last for the declaration of a key came under this key; what came before, and
what came since. -/
structure Latest (history before : List CacheEvent) (key : DeclKey) (result : InferenceResult) (since : List CacheEvent) : Prop where
  split : history = before ++ .insert key result :: since
  last : ∀ event ∈ since, event.isFor key.file key.name = false

/-- Whether the result put in last for a declaration came under an unsigned key. -/
def HoldsUnsigned (history : List CacheEvent) (file : FileId) (name : Name) : Prop :=
  ∃ before result since, Latest history before ⟨file, name, none⟩ result since

/-- Whether a change that follows a history covers a key. -/
def Covers (history : List CacheEvent) : Change → DeclKey → Prop
  | .value file name, key =>
    key.file = file ∧ (key.name = name ∨ key.signature = none ∧ HoldsUnsigned history file name)
  | .signature file _, key => key.file = file
  | .type file, key => key.file = file
  | .file file, key => key.file = file

/-- Whether some change covers a key, among the events that follow a history. -/
def Spoilt (history since : List CacheEvent) (key : DeclKey) : Prop :=
  ∃ between change rest, since = between ++ .invalidate change :: rest ∧ Covers (history ++ between) change key

/-- What a history leaves under a key: the result put in last, or the place of it when a change has covered the key. -/
def Leaves (history : List CacheEvent) (key : DeclKey) (entry : Entry) : Prop :=
  ∃ before result since, Latest history before key result since ∧
    (Spoilt (before ++ [.insert key result]) since key ∧ entry = .stale ∨
      ¬ Spoilt (before ++ [.insert key result]) since key ∧ entry = .computed result)

variable {history before since : List CacheEvent} {event : CacheEvent} {key key' : DeclKey} {result : InferenceResult}
variable {entry : Entry}

theorem not_latest_nil : ¬ Latest [] before key result since :=
  fun h => by simpa using congrArg List.length h.split

theorem Latest.start (history : List CacheEvent) (key : DeclKey) (result : InferenceResult) :
    Latest (history ++ [.insert key result]) history key result [] :=
  ⟨rfl, nofun⟩

theorem Latest.concat (h : Latest history before key result since) (hevent : event.isFor key.file key.name = false) :
    Latest (history ++ [event]) before key result (since ++ [event]) := by
  refine ⟨by rw [h.split, List.append_assoc, List.cons_append], fun e he => ?_⟩
  rcases List.mem_append.mp he with he | he
  · exact h.last e he
  · exact List.mem_singleton.mp he ▸ hevent

/-- The last event of a history puts the result in, or it concerns another declaration and changes nothing about it. -/
theorem Latest.of_concat (h : Latest (history ++ [event]) before key result since) :
    (event = .insert key result ∧ before = history ∧ since = []) ∨
      (event.isFor key.file key.name = false ∧ ∃ since', since = since' ++ [event] ∧ Latest history before key result since') := by
  rcases List.eq_nil_or_concat since with rfl | ⟨since', last, rfl⟩
  · obtain ⟨hhistory, hevent⟩ := List.append_inj' h.split rfl
    exact .inl ⟨List.singleton_inj.mp hevent, hhistory.symm, rfl⟩
  · rw [List.concat_eq_append] at h ⊢
    have hsplit : history ++ [event] = (before ++ .insert key result :: since') ++ [last] := by
      rw [h.split, List.append_assoc, List.cons_append]
    obtain ⟨hhistory, hlast⟩ := List.append_inj' hsplit rfl
    obtain rfl := List.singleton_inj.mp hlast
    refine .inr ⟨h.last _ (List.mem_append_right _ (List.mem_singleton_self _)), since', rfl, hhistory, fun e he => ?_⟩
    exact h.last e (List.mem_append_left _ he)

theorem not_spoilt_nil : ¬ Spoilt history [] key := by
  rintro ⟨between, change, rest, h, -⟩
  simpa using congrArg List.length h

theorem spoilt_concat : Spoilt history (since ++ [event]) key ↔
    Spoilt history since key ∨ ∃ change, event = .invalidate change ∧ Covers (history ++ since) change key := by
  constructor
  · rintro ⟨between, change, rest, hsplit, hcovers⟩
    rcases List.eq_nil_or_concat rest with rfl | ⟨rest', last, rfl⟩
    · obtain ⟨rfl, hevent⟩ := List.append_inj' hsplit rfl
      exact .inr ⟨change, List.singleton_inj.mp hevent, hcovers⟩
    · rw [List.concat_eq_append, ← List.cons_append, ← List.append_assoc] at hsplit
      exact .inl ⟨between, change, rest', (List.append_inj' hsplit rfl).1, hcovers⟩
  · rintro (⟨between, change, rest, rfl, hcovers⟩ | ⟨change, rfl, hcovers⟩)
    · exact ⟨between, change, rest ++ [event], by rw [List.append_assoc, List.cons_append], hcovers⟩
    · exact ⟨since, change, [], rfl, hcovers⟩

theorem leaves_congr {start since' : List CacheEvent} (h : Spoilt start since key ↔ Spoilt start since' key) :
    (Spoilt start since key ∧ entry = .stale ∨ ¬ Spoilt start since key ∧ entry = .computed result) ↔
      (Spoilt start since' key ∧ entry = .stale ∨ ¬ Spoilt start since' key ∧ entry = .computed result) := by
  rw [h]

/-- Putting a result in decides what is left for its declaration, and leaves all other ones alone. -/
theorem leaves_concat_insert : Leaves (history ++ [.insert key result]) key' entry ↔
    if key' = key then entry = .computed result else key'.sameDecl key = false ∧ Leaves history key' entry := by
  have hsame : ∀ start since, Spoilt start (since ++ [.insert key result]) key' ↔ Spoilt start since key' :=
    fun start since => spoilt_concat.trans (or_iff_left (by rintro ⟨change, heq, -⟩; cases heq))
  constructor
  · rintro ⟨before, result', since, hlatest, hentry⟩
    rcases hlatest.of_concat with ⟨heq, rfl, rfl⟩ | ⟨hother, since', rfl, hlatest'⟩
    · cases heq
      rw [if_pos rfl]
      exact (hentry.resolve_left fun h => not_spoilt_nil h.1).2
    · rw [CacheEvent.isFor_insert] at hother
      have hne : key' ≠ key := by
        rintro rfl
        simp [DeclKey.sameDecl] at hother
      rw [if_neg hne]
      exact ⟨hother, before, result', since', hlatest', (leaves_congr (hsame _ _)).mp hentry⟩
  · intro h
    split at h
    · next heq =>
      subst heq h
      exact ⟨history, result, [], .start _ _ _, .inr ⟨not_spoilt_nil, rfl⟩⟩
    · obtain ⟨hother, before, result', since, hlatest, hentry⟩ := h
      rw [← CacheEvent.isFor_insert key key' result] at hother
      exact ⟨before, result', _, hlatest.concat hother, (leaves_congr (hsame _ _)).mpr hentry⟩

/-- A change makes what it covers stale. -/
theorem leaves_concat_invalidate {change : Change} {covered : Bool} (hcovered : covered = true ↔ Covers history change key) :
    Leaves (history ++ [.invalidate change]) key entry ↔
      ∃ entry', Leaves history key entry' ∧ (if covered then .stale else entry') = entry := by
  have hspoilt : ∀ {before result since}, Latest history before key result since →
      (Spoilt (before ++ [.insert key result]) (since ++ [.invalidate change]) key ↔
        Spoilt (before ++ [.insert key result]) since key ∨ covered = true) := by
    intro before result since hlatest
    have hhistory : before ++ [.insert key result] ++ since = history := by
      rw [hlatest.split, List.append_assoc, List.singleton_append]
    rw [spoilt_concat, hhistory, hcovered]
    refine or_congr_right ⟨?_, fun h => ⟨change, rfl, h⟩⟩
    rintro ⟨change', heq, h⟩
    cases heq
    exact h
  constructor
  · rintro ⟨before, result, since, hlatest, hentry⟩
    rcases hlatest.of_concat with ⟨heq, -, -⟩ | ⟨-, since', rfl, hlatest'⟩
    · cases heq
    rw [hspoilt hlatest'] at hentry
    cases covered with
    | true =>
      have hstale := (hentry.resolve_right fun h => h.1 (.inr rfl)).2
      by_cases hbefore : Spoilt (before ++ [.insert key result]) since' key
      · exact ⟨_, ⟨before, result, since', hlatest', .inl ⟨hbefore, rfl⟩⟩, hstale.symm⟩
      · exact ⟨_, ⟨before, result, since', hlatest', .inr ⟨hbefore, rfl⟩⟩, hstale.symm⟩
    | false =>
      rw [or_iff_left Bool.false_ne_true] at hentry
      exact ⟨entry, ⟨before, result, since', hlatest', hentry⟩, rfl⟩
  · rintro ⟨entry', ⟨before, result, since, hlatest, hentry⟩, rfl⟩
    refine ⟨before, result, _, hlatest.concat rfl, ?_⟩
    rw [hspoilt hlatest]
    cases covered with
    | true => exact .inl ⟨.inr rfl, rfl⟩
    | false => rwa [or_iff_left Bool.false_ne_true]

end CacheHistory

namespace Cache

open CacheHistory

variable {c : Cache} {key key' : DeclKey} {result : InferenceResult}

/-! ### Entries -/

theorem get?_entries_insert (c : Cache) (key key' : DeclKey) (result : InferenceResult) :
    Assoc.get? (c.insert key result).entries key' =
      if key' = key then some (.computed result) else if key'.sameDecl key then none else Assoc.get? c.entries key' := by
  rw [insert]
  split
  · next heq => rw [heq, Assoc.get?_set_self]
  · next hne =>
    rw [Assoc.get?_set_of_ne _ _ (Ne.symm hne)]
    split
    · next hsame =>
      -- an entry of the declaration under another signature goes
      refine Assoc.get?_filter_of_not fun entry => ?_
      have hsignature : key'.signature ≠ key.signature := fun heq => hne (DeclKey.eq_of_sameDecl hsame heq)
      simp [hsame, hsignature]
    · next hother => exact Assoc.get?_filter fun entry => by simp [hother]

theorem hasUnsigned_iff {file : FileId} {name : Name} :
    c.hasUnsigned file name = true ↔ ∃ entry, Assoc.get? c.entries ⟨file, name, none⟩ = some entry := by
  rw [hasUnsigned, List.any_eq_true, ← Option.isSome_iff_exists, Assoc.isSome_get?_iff]
  constructor
  · rintro ⟨⟨⟨file', name', signature⟩, entry⟩, hmem, h⟩
    simp only [Bool.and_eq_true, beq_iff_eq, DeclKey.isSigned, Bool.not_eq_true', Option.isSome_eq_false_iff,
      Option.isNone_iff_eq_none] at h
    obtain ⟨⟨rfl, rfl⟩, rfl⟩ := h
    exact List.mem_map_of_mem hmem
  · intro hmem
    obtain ⟨e, he, heq⟩ := List.mem_map.mp hmem
    exact ⟨e, he, by simp [heq, DeclKey.isSigned]⟩

theorem affects_iff {history : List CacheEvent} (hunsigned : ∀ file name, c.hasUnsigned file name = true ↔ HoldsUnsigned history file name)
    (change : Change) (key : DeclKey) : c.affects change key = true ↔ Covers history change key := by
  cases change with
  | value file name => simp [affects, Covers, DeclKey.isSigned, hunsigned, and_comm]
  | signature file name | type file | file file => simp [affects, Covers]

/-- Under each key there is in a cache what its history leaves there. -/
theorem get?_entries_after (history : List CacheEvent) (key : DeclKey) (entry : Entry) :
    Assoc.get? (after history).entries key = some entry ↔ Leaves history key entry := by
  induction history using List.reverseRecOn generalizing key entry with
  | nil =>
    refine ⟨nofun, ?_⟩
    rintro ⟨before, result, since, hlatest, -⟩
    exact absurd hlatest not_latest_nil
  | append_singleton history event ih =>
    rw [after_concat]
    cases event with
    | insert key' result =>
      rw [CacheEvent.apply, get?_entries_insert, leaves_concat_insert, ← ih]
      split
      · rw [Option.some_inj, eq_comm]
      · cases key.sameDecl key' <;> simp
    | invalidate change =>
      have hunsigned : ∀ file name, (after history).hasUnsigned file name = true ↔ HoldsUnsigned history file name := by
        intro file name
        rw [hasUnsigned_iff]
        constructor
        · rintro ⟨entry, hentry⟩
          obtain ⟨before, result, since, hlatest, -⟩ := (ih _ _).mp hentry
          exact ⟨before, result, since, hlatest⟩
        · rintro ⟨before, result, since, hlatest⟩
          by_cases hspoilt : Spoilt (before ++ [.insert ⟨file, name, none⟩ result]) since ⟨file, name, none⟩
          · exact ⟨_, (ih _ _).mpr ⟨before, result, since, hlatest, .inl ⟨hspoilt, rfl⟩⟩⟩
          · exact ⟨_, (ih _ _).mpr ⟨before, result, since, hlatest, .inr ⟨hspoilt, rfl⟩⟩⟩
      rw [CacheEvent.apply, get?_entries_invalidate, leaves_concat_invalidate (affects_iff hunsigned change key),
        Option.map_eq_some_iff]
      simp only [ih]

/-! ### Counts and files -/

theorem computationsOf_insert (c : Cache) (key : DeclKey) (result : InferenceResult) (file : FileId) (name : Name) :
    (c.insert key result).computationsOf file name =
      c.computationsOf file name + (if (CacheEvent.insert key result).isFor file name then 1 else 0) := by
  rw [computationsOf, insert]
  by_cases heq : (key.file, key.name) = (file, name)
  · obtain ⟨rfl, rfl⟩ := Prod.mk.inj heq
    simp [Assoc.get?_set_self, CacheEvent.isFor]
  · rw [Assoc.get?_set_of_ne _ _ heq]
    have hother : (CacheEvent.insert key result).isFor file name = false := by
      rw [CacheEvent.isFor, Bool.eq_false_iff]
      intro h
      rw [Bool.and_eq_true, beq_iff_eq, beq_iff_eq] at h
      exact heq (Prod.ext h.1 h.2)
    simp [hother, computationsOf]

theorem computationsOf_after (history : List CacheEvent) (file : FileId) (name : Name) :
    (after history).computationsOf file name = history.countP (CacheEvent.isFor file name) := by
  induction history using List.reverseRecOn with
  | nil => rfl
  | append_singleton history event ih =>
    rw [after_concat, List.countP_append, ← ih]
    cases event with
    | insert key result =>
      rw [CacheEvent.apply, computationsOf_insert, List.countP_singleton]
    | invalidate change =>
      rw [List.countP_singleton]
      simp [CacheEvent.apply, CacheEvent.isFor, computationsOf, invalidate]

/-- An event in one file changes no entry of another one. -/
theorem get?_entries_apply {event : CacheEvent} (h : event.inFile ≠ key.file) :
    Assoc.get? (event.apply c).entries key = Assoc.get? c.entries key := by
  cases event with
  | insert key' result =>
    have hfile : key'.file ≠ key.file := h
    have hother : key.sameDecl key' = false :=
      Bool.eq_false_iff.mpr fun hsame => hfile (DeclKey.sameDecl_iff.mp hsame).1.symm
    have hne : key ≠ key' := fun heq => hfile (congrArg DeclKey.file heq.symm)
    rw [CacheEvent.apply, get?_entries_insert, if_neg hne, hother]
    rfl
  | invalidate change =>
    have hfile : (key.file == change.inFile) = false := beq_eq_false_iff_ne.mpr (Ne.symm h)
    have hspared : c.affects change key = false := by
      cases change with
      | value file name => exact (congrArg (· && _) hfile).trans (Bool.false_and _)
      | signature file name | type file | file file => exact hfile
    rw [CacheEvent.apply, get?_entries_invalidate, hspared]
    simp

/-! ### One entry for each declaration -/

/-- Giving a key a value keeps the declarations of the entries different, if no other key is of its declaration. -/
theorem nodup_decls_set {m : Assoc DeclKey Entry} (key : DeclKey) (entry : Entry)
    (hnodup : (m.map fun e => (e.1.file, e.1.name)).Nodup) (honly : ∀ e ∈ m, e.1.sameDecl key = true → e.1 = key) :
    ((Assoc.set m key entry).map fun e => (e.1.file, e.1.name)).Nodup := by
  induction m with
  | nil => simp [Assoc.set]
  | cons first rest ih =>
    obtain ⟨hfirst, hrest⟩ := List.nodup_cons.mp hnodup
    rw [Assoc.set]
    split
    · exact hnodup
    · next hne =>
      refine List.nodup_cons.mpr ⟨fun hmem => ?_, ih hrest fun e he => honly e (List.mem_cons_of_mem _ he)⟩
      obtain ⟨e, he, heq⟩ := List.mem_map.mp hmem
      rcases Assoc.mem_set he with he | rfl
      · exact hfirst (List.mem_map.mpr ⟨e, he, heq⟩)
      · obtain ⟨hfile, hname⟩ := Prod.mk.inj heq
        exact hne (honly first List.mem_cons_self (DeclKey.sameDecl_iff.mpr ⟨hfile.symm, hname.symm⟩))

theorem nodup_decls_after (history : List CacheEvent) :
    ((after history).entries.map fun e => (e.1.file, e.1.name)).Nodup := by
  induction history using List.reverseRecOn with
  | nil => exact List.nodup_nil
  | append_singleton history event ih =>
    rw [after_concat]
    cases event with
    | insert key result =>
      refine nodup_decls_set key _ (ih.sublist (List.filter_sublist.map _)) fun e he hsame => ?_
      have hkept := (List.mem_filter.mp he).2
      simp only [hsame, Bool.not_true, Bool.false_or, beq_iff_eq] at hkept
      exact DeclKey.eq_of_sameDecl hsame hkept
    | invalidate change =>
      have hkeys : ((after history).invalidate change).entries.map (fun e => (e.1.file, e.1.name)) =
          (after history).entries.map fun e => (e.1.file, e.1.name) := by
        rw [invalidate, List.map_map]
        refine List.map_congr_left fun e _ => ?_
        rw [Function.comp_apply]
        split <;> rfl
      rw [CacheEvent.apply, hkeys]
      exact ih

/-! ### The main statement -/

theorem get?_eq_some_iff : c.get? key = some result ↔ Assoc.get? c.entries key = some (.computed result) := by
  rw [get?]
  split
  · next heq => rw [heq, Option.some_inj, Option.some_inj, Entry.computed.injEq]
  · next hnot =>
    refine ⟨fun h => ?_, fun h => absurd h (hnot _)⟩
    cases h

theorem isStale_iff : c.isStale key = true ↔ Assoc.get? c.entries key = some .stale := by
  rw [isStale]
  split
  · next heq => simp [heq]
  · next hnot =>
    refine ⟨fun h => ?_, fun h => absurd h hnot⟩
    cases h

/-- A cache is determined by its history. It has one entry for each declaration at most. A key gives the result that was
put in under it, if no other one was put in for the declaration since and no change has covered the key, and it is stale
if a change has. Each result that was put in is counted. And an event in one file concerns no other file. -/
theorem cache_is_determined_by_history (history : List CacheEvent) :
    ((after history).entries.map fun e => (e.1.file, e.1.name)).Nodup ∧
      (∀ key result, (after history).get? key = some result ↔
        ∃ before since, Latest history before key result since ∧ ¬ Spoilt (before ++ [.insert key result]) since key) ∧
      (∀ key, (after history).isStale key = true ↔
        ∃ before result since, Latest history before key result since ∧ Spoilt (before ++ [.insert key result]) since key) ∧
      (∀ file name, (after history).computationsOf file name = history.countP (CacheEvent.isFor file name)) ∧
      ∀ (event : CacheEvent) (key : DeclKey), event.inFile ≠ key.file →
        (event.apply (after history)).get? key = (after history).get? key ∧
          (event.apply (after history)).isStale key = (after history).isStale key ∧
          (event.apply (after history)).computationsOf key.file key.name = (after history).computationsOf key.file key.name := by
  refine ⟨nodup_decls_after history, fun key result => ?_, fun key => ?_, computationsOf_after history, fun event key hfile => ?_⟩
  · rw [get?_eq_some_iff, get?_entries_after]
    constructor
    · rintro ⟨before, result', since, hlatest, hentry⟩
      obtain ⟨hnot, heq⟩ := hentry.resolve_left fun h => by cases h.2
      cases heq
      exact ⟨before, since, hlatest, hnot⟩
    · rintro ⟨before, since, hlatest, hnot⟩
      exact ⟨before, result, since, hlatest, .inr ⟨hnot, rfl⟩⟩
  · rw [isStale_iff, get?_entries_after]
    constructor
    · rintro ⟨before, result, since, hlatest, hentry⟩
      exact ⟨before, result, since, hlatest, (hentry.resolve_right fun h => by cases h.2).1⟩
    · rintro ⟨before, result, since, hlatest, hspoilt⟩
      exact ⟨before, result, since, hlatest, .inl ⟨hspoilt, rfl⟩⟩
  · have hsame : Assoc.get? (event.apply (after history)).entries key = Assoc.get? (after history).entries key :=
      get?_entries_apply hfile
    have hnone : CacheEvent.isFor key.file key.name event = false := by
      cases event with
      | insert key' result =>
        have hne : (key'.file == key.file) = false := beq_eq_false_iff_ne.mpr hfile
        rw [CacheEvent.isFor, hne, Bool.false_and]
      | invalidate change => rfl
    refine ⟨by rw [get?, get?, hsame], by rw [isStale, isStale, hsame], ?_⟩
    rw [← after_concat, computationsOf_after, computationsOf_after, List.countP_append, List.countP_singleton, hnone]
    simp

/-- After results for the unsigned `f` and `g`, a change of the value `f` makes `g` stale as well. A change of another file
leaves it so. -/
theorem cache_is_determined_by_history_of_unsigned :
    let f : DeclKey := ⟨0, "f", none⟩
    let g : DeclKey := ⟨0, "g", none⟩
    let history : List CacheEvent := [.insert f ⟨.unit, [], []⟩, .insert g ⟨.unit, [], []⟩, .invalidate (.value 0 "f")]
    let event : CacheEvent := .invalidate (.file 1)
    (after history).isStale g = true ∧ event.inFile ≠ g.file ∧ (event.apply (after history)).isStale g = true := by
  intro f g history event
  obtain ⟨-, -, hstale, -, hother⟩ := cache_is_determined_by_history history
  have hlatest : Latest history [.insert f ⟨.unit, [], []⟩] g ⟨.unit, [], []⟩ [.invalidate (.value 0 "f")] := ⟨rfl, by decide⟩
  have hunsigned : HoldsUnsigned [.insert f ⟨.unit, [], []⟩, .insert g ⟨.unit, [], []⟩] 0 "f" :=
    ⟨[], ⟨.unit, [], []⟩, [.insert g ⟨.unit, [], []⟩], rfl, by decide⟩
  have hg : (after history).isStale g = true :=
    (hstale g).mpr ⟨_, _, _, hlatest, [], .value 0 "f", [], rfl, rfl, .inr ⟨rfl, hunsigned⟩⟩
  have hfile : event.inFile ≠ g.file := by decide
  exact ⟨hg, hfile, (hother event g hfile).2.1.trans hg⟩

end Cache

end ElmInference
