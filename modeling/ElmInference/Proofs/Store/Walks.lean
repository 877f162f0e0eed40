import ElmInference.Store.Occurs
import ElmInference.Store.Zonk
import ElmInference.Proofs.Store.Measure

/-!
# Walks through a store

What `resolve` and `anyNode` compute, said without the crossings they spend, and that they have enough
of them: on a type that the store owns, a closed store without loops never makes a walk diverge.
-/

namespace ElmInference

namespace Store

open Relation

theorem exists_of_bind_ok {α β : Type} {x : Except Fault α} {f : α → Except Fault β} {b : β}
    (h : (x >>= f) = .ok b) : ∃ a, x = .ok a ∧ f a = .ok b := by
  cases x with
  | error fault => cases h
  | ok a => exact ⟨a, rfl, h⟩

/-! ### Resolving -/

/-- Where following solved variables ends. -/
inductive ResolvesTo (s : Store) : Ty → Ty → Prop
  | solved {v : TyVar} {t r : Ty} :
      s.solution? v.id = some t → ResolvesTo s t r → ResolvesTo s (.var v) r
  | unsolved {v : TyVar} : s.Unsolved v.id → ResolvesTo s (.var v) (.var v)
  | other {t : Ty} : (∀ v, t ≠ .var v) → ResolvesTo s t t

variable {s : Store}

theorem resolveAt_of_not_var (s : Store) (n : Nat) {t : Ty} (h : ∀ v, t ≠ .var v) :
    s.resolveAt n t = .ok t := by
  cases t with
  | var v => exact absurd rfl (h v)
  | _ => unfold resolveAt; rfl

theorem resolveAt_unsolved {v : TyVar} (n : Nat) (h : s.Unsolved v.id) :
    s.resolveAt n (.var v) = .ok (.var v) := by
  unfold resolveAt
  rw [h.solution_eq]

theorem resolveAt_solved {v : TyVar} {t : Ty} (n : Nat) (h : s.solution? v.id = some t) :
    s.resolveAt (n + 1) (.var v) = s.resolveAt n t := by
  rw [resolveAt, solution_of_some h]

theorem resolvesTo_of_resolveAt {n : Nat} {t r : Ty} (h : s.resolveAt n t = .ok r) :
    s.ResolvesTo t r := by
  by_cases hvar : ∃ v, t = .var v
  · obtain ⟨v, rfl⟩ := hvar
    by_cases hlt : v.id < s.size
    · rcases unsolved_or_some hlt with hun | ⟨u, hsol⟩
      · rw [resolveAt_unsolved n hun] at h
        cases h
        exact .unsolved hun
      · cases n with
        | zero =>
          unfold resolveAt at h
          rw [solution_of_some hsol] at h
          cases h
        | succ n =>
          rw [resolveAt_solved n hsol] at h
          exact .solved hsol (resolvesTo_of_resolveAt h)
    · unfold resolveAt at h
      rw [solution_of_ge (Nat.le_of_not_lt hlt)] at h
      cases h
  · have hnot : ∀ v, t ≠ .var v := fun v heq => hvar ⟨v, heq⟩
    rw [resolveAt_of_not_var s n hnot] at h
    cases h
    exact .other hnot

theorem resolvesTo_of_resolve {t r : Ty} (h : s.resolve t = .ok r) : s.ResolvesTo t r :=
  resolvesTo_of_resolveAt h

theorem exists_resolveAt (hloop : s.Loopfree false) (hclosed : s.Closed) {n : Nat} {t : Ty}
    (ht : s.Owns t) (hrank : s.rank false t ≤ n) : ∃ r, s.resolveAt n t = .ok r := by
  by_cases hvar : ∃ v, t = .var v
  · obtain ⟨v, rfl⟩ := hvar
    rcases unsolved_or_some ht.var_lt with hun | ⟨u, hsol⟩
    · exact ⟨.var v, resolveAt_unsolved n hun⟩
    · have hlt := rank_solution_lt hloop hsol
      cases n with
      | zero => omega
      | succ n =>
        rw [resolveAt_solved n hsol]
        exact exists_resolveAt hloop hclosed (hclosed.owns_solution hsol) (by omega)
  · exact ⟨t, resolveAt_of_not_var s n (fun v heq => hvar ⟨v, heq⟩)⟩

theorem exists_resolve (hloop : s.Loopfree false) (hclosed : s.Closed) {t : Ty} (ht : s.Owns t) :
    ∃ r, s.resolve t = .ok r :=
  exists_resolveAt hloop hclosed ht (s.rank_le_crossings false t)

namespace ResolvesTo

theorem reads {t r : Ty} (h : s.ResolvesTo t r) : ReflTransGen s.Child t r := by
  induction h with
  | solved hsol _ ih => exact .head (.solution hsol) ih
  | unsolved _ => exact .refl
  | other _ => exact .refl

theorem owns {t r : Ty} (h : s.ResolvesTo t r) (hclosed : s.Closed) (ht : s.Owns t) : s.Owns r := by
  induction h with
  | solved hsol _ ih => exact ih (hclosed.owns_solution hsol)
  | unsolved _ => exact ht
  | other _ => exact ht

theorem mentions {Q : Mention → Prop} {t r : Ty} (h : s.ResolvesTo t r) (hkeeps : s.Keeps Q)
    (ht : ∀ m ∈ t.mentions false, Q m) : ∀ m ∈ r.mentions false, Q m := by
  induction h with
  | solved hsol _ ih => exact ih (hkeeps.solution _ _ (ht _ (by simp [Ty.mentions])) hsol)
  | unsolved _ => exact ht
  | other _ => exact ht

theorem unsolved_of_var {t : Ty} {v : TyVar} (h : s.ResolvesTo t (.var v)) : s.Unsolved v.id := by
  generalize hr : Ty.var v = r at h
  induction h with
  | solved _ _ ih => exact ih hr
  | unsolved hun =>
    cases hr
    exact hun
  | other hnot => exact absurd hr.symm (hnot v)

theorem unique {t r r' : Ty} (h : s.ResolvesTo t r) (h' : s.ResolvesTo t r') : r = r' := by
  induction h with
  | solved hsol _ ih =>
    cases h' with
    | solved hsol' hrest' =>
      rw [hsol] at hsol'
      cases hsol'
      exact ih hrest'
    | unsolved hun => exact absurd hun (not_unsolved_of_some hsol)
    | other hnot => exact absurd rfl (hnot _)
  | unsolved hun =>
    cases h' with
    | solved hsol _ => exact absurd hun (not_unsolved_of_some hsol)
    | unsolved _ => rfl
    | other hnot => exact absurd rfl (hnot _)
  | other hnot =>
    cases h' with
    | solved _ _ => exact absurd rfl (hnot _)
    | unsolved _ => exact absurd rfl (hnot _)
    | other _ => rfl

end ResolvesTo

/-! ### Functions to apply -/

/-- A step from a function without parameters to its result. -/
def Passes (s : Store) (t ret : Ty) : Prop :=
  ∃ w, s.resolve t = .ok (.arrow [] ret w)

theorem callee_of_resolve {t r : Ty} (h : s.resolve t = .ok r) (hne : ∀ ret w, r ≠ .arrow [] ret w) :
    s.callee t = .ok (t, r) := by
  rw [callee, calleeAt, h]
  cases r with
  | arrow params ret w =>
    cases params with
    | nil => exact absurd rfl (hne ret w)
    | cons param params => rfl
  | _ => rfl

theorem calleeAt_arrow {n : Nat} {t ret : Ty} {w : Option (AliasUse Ty)} (h : s.resolve t = .ok (.arrow [] ret w)) :
    s.calleeAt (n + 1) t = s.calleeAt n ret := by
  rw [calleeAt, h]
  rfl

/-- What takes the next argument is found behind functions without parameters. -/
theorem passes_of_calleeAt {n : Nat} {t u r : Ty} (h : s.calleeAt n t = .ok (u, r)) :
    ReflTransGen s.Passes t u ∧ s.resolve u = .ok r ∧ ∀ ret w, r ≠ .arrow [] ret w := by
  induction n generalizing t with
  | zero =>
    rw [calleeAt] at h
    obtain ⟨resolved, hresolve, h⟩ := exists_of_bind_ok h
    split at h
    · cases h
    · next hne =>
      cases h
      exact ⟨.refl, hresolve, fun ret w => hne ret w⟩
  | succ n ih =>
    rw [calleeAt] at h
    obtain ⟨resolved, hresolve, h⟩ := exists_of_bind_ok h
    split at h
    · obtain ⟨hpasses, hresolves, hne⟩ := ih h
      exact ⟨.head ⟨_, hresolve⟩ hpasses, hresolves, hne⟩
    · next hne =>
      cases h
      exact ⟨.refl, hresolve, fun ret w => hne ret w⟩

theorem passes_of_callee {t u r : Ty} (h : s.callee t = .ok (u, r)) :
    ReflTransGen s.Passes t u ∧ s.resolve u = .ok r ∧ ∀ ret w, r ≠ .arrow [] ret w :=
  passes_of_calleeAt h

/-! ### Looking for a node -/

/-- Whether a reading of a type comes to a node that satisfies `p`. -/
def Finds (s : Store) (p : Ty → Bool) (t : Ty) : Prop :=
  ∃ u, ReflTransGen s.Child t u ∧ p u = true

theorem finds_iff {p : Ty → Bool} {t : Ty} :
    s.Finds p t ↔ p t = true ∨ ∃ c, s.Child t c ∧ s.Finds p c := by
  constructor
  · rintro ⟨u, hpath, hp⟩
    rcases hpath.cases_head with rfl | ⟨c, hstep, hrest⟩
    · exact .inl hp
    · exact .inr ⟨c, hstep, u, hrest, hp⟩
  · rintro (hp | ⟨c, hstep, u, hrest, hp⟩)
    · exact ⟨t, .refl, hp⟩
    · exact ⟨u, .head hstep hrest, hp⟩

/-- What a search in `Except` says once it has an answer. -/
def Answers (x : Except Fault Bool) (P : Prop) : Prop :=
  ∀ b, x = .ok b → (b = true ↔ P)

theorem Answers.congr {x : Except Fault Bool} {P Q : Prop} (h : Answers x P) (hPQ : P ↔ Q) :
    Answers x Q :=
  fun b hb => (h b hb).trans hPQ

theorem answers_ok {b : Bool} {P : Prop} (h : b = true ↔ P) : Answers (.ok b) P := by
  intro b' hb
  cases hb
  exact h

/-- A search that stops at the first success. -/
theorem Answers.orElse {x y : Except Fault Bool} {P Q : Prop} (hx : Answers x P) (hy : Answers y Q) :
    Answers (x >>= fun b => if b = true then pure true else y) (P ∨ Q) := by
  intro b hb
  cases x with
  | error fault => cases hb
  | ok first =>
    have hfirst := hx first rfl
    cases first with
    | true =>
      cases hb
      exact ⟨fun _ => .inl (hfirst.mp rfl), fun _ => rfl⟩
    | false =>
      have hrest := hy b hb
      constructor
      · intro h
        exact .inr (hrest.mp h)
      · rintro (h | h)
        · exact absurd (hfirst.mpr h) (by simp)
        · exact hrest.mpr h

theorem answers_anyM {follow : Ty → Except Fault Bool} {p : Ty → Bool} {fields : List (Name × Ty)}
    (h : ∀ field ∈ fields, Answers (follow field.2) (s.Finds p field.2)) :
    Answers (fields.anyM (fun field => follow field.2)) (∃ field ∈ fields, s.Finds p field.2) := by
  induction fields with
  | nil => exact answers_ok (by simp)
  | cons field rest ih =>
    have hrest := ih (fun other hother => h other (List.mem_cons_of_mem _ hother))
    have hboth := (h field List.mem_cons_self).orElse hrest
    intro b hb
    rw [hboth b ?_]
    · simp
    · rw [← hb, List.anyM]
      congr 1
      funext b
      cases b <;> rfl

/-- A search that looks at the node at hand first. -/
theorem Answers.guard {y : Except Fault Bool} {b : Bool} {Q : Prop} (hy : Answers y Q) :
    Answers (if b = true then pure true else y) (b = true ∨ Q) := by
  cases b with
  | true => exact answers_ok (by simp)
  | false => simpa using hy

theorem answers_anyNodeList {follow : Ty → Except Fault Bool} {p : Ty → Bool} {ts : List Ty}
    (h : ∀ t ∈ ts, Answers (s.anyNodeWith p follow t) (s.Finds p t)) :
    Answers (s.anyNodeList p follow ts) (∃ t ∈ ts, s.Finds p t) := by
  induction ts with
  | nil => exact answers_ok (by simp)
  | cons t ts ih =>
    have hrest := ih (fun u hu => h u (List.mem_cons_of_mem _ hu))
    rw [anyNodeList]
    exact ((h t List.mem_cons_self).orElse hrest).congr (by simp)

theorem answers_anyNodeFields {follow : Ty → Except Fault Bool} {p : Ty → Bool}
    {fields : List (Name × Ty)}
    (h : ∀ field ∈ fields, Answers (s.anyNodeWith p follow field.2) (s.Finds p field.2)) :
    Answers (s.anyNodeFields p follow fields) (∃ field ∈ fields, s.Finds p field.2) := by
  induction fields with
  | nil => exact answers_ok (by simp)
  | cons field rest ih =>
    have hrest := ih (fun other hother => h other (List.mem_cons_of_mem _ hother))
    rw [anyNodeFields]
    exact ((h field List.mem_cons_self).orElse hrest).congr (by simp)

/-- One level of the search is right when what goes on behind it is. -/
theorem answers_anyNodeWith {follow : Ty → Except Fault Bool} {p : Ty → Bool}
    (hfollow : ∀ t, Answers (follow t) (s.Finds p t)) (t : Ty) :
    Answers (s.anyNodeWith p follow t) (s.Finds p t) := by
  have leaf : ∀ u : Ty, (∀ c, ¬ s.Child u c) → Answers (.ok (p u)) (s.Finds p u) := by
    intro u hleaf
    refine answers_ok ?_
    rw [finds_iff]
    exact ⟨.inl, fun h => h.resolve_right (fun ⟨c, hc, _⟩ => hleaf c hc)⟩
  induction t using Ty.inductParts with
  | unit => exact leaf _ (fun c hc => by cases hc)
  | unknown => exact leaf _ (fun c hc => by cases hc)
  | inProgress => exact leaf _ (fun c hc => by cases hc)
  | var v =>
    rw [anyNodeWith]
    refine (Answers.guard ?_).congr finds_iff.symm
    by_cases hlt : v.id < s.size
    · rw [solution_of_lt hlt]
      cases hsol : s.solution? v.id with
      | none =>
        refine answers_ok ⟨fun h => (by cases h), ?_⟩
        rintro ⟨c, hc, _⟩
        cases hc with
        | solution hsol' => rw [hsol] at hsol'; cases hsol'
      | some u =>
        refine (hfollow u).congr ⟨fun h => ⟨u, .solution hsol, h⟩, ?_⟩
        rintro ⟨c, hc, h⟩
        cases hc with
        | solution hsol' => rw [hsol] at hsol'; cases hsol'; exact h
    · rw [solution_of_ge (Nat.le_of_not_lt hlt)]
      intro b hb
      cases hb
  | growing id =>
    rw [anyNodeWith]
    refine (Answers.guard ?_).congr finds_iff.symm
    cases hrec : s.records[id]? with
    | none =>
      intro b hb
      simp only [record, hrec] at hb
      cases hb
    | some g =>
      rw [record_of_some hrec]
      refine ((answers_anyM (fun field _ => hfollow field.2)).orElse (hfollow g.base)).congr ?_
      constructor
      · rintro (⟨field, hf, h⟩ | h)
        · exact ⟨field.2, .growingField hrec hf, h⟩
        · exact ⟨g.base, .growingBase hrec, h⟩
      · rintro ⟨c, hc, h⟩
        cases hc with
        | growingField hrec' hf => rw [hrec] at hrec'; cases hrec'; exact .inl ⟨_, hf, h⟩
        | growingBase hrec' => rw [hrec] at hrec'; cases hrec'; exact .inr h
  | union m n args w iha _ =>
    rw [anyNodeWith]
    refine (Answers.guard (answers_anyNodeList iha)).congr (.trans (or_congr_right ?_) finds_iff.symm)
    constructor
    · rintro ⟨t, ht, h⟩
      exact ⟨t, .arg ht, h⟩
    · rintro ⟨c, hc, h⟩
      cases hc with
      | arg ht => exact ⟨c, ht, h⟩
  | tuple items ih =>
    rw [anyNodeWith]
    refine (Answers.guard (answers_anyNodeList ih)).congr (.trans (or_congr_right ?_) finds_iff.symm)
    constructor
    · rintro ⟨t, ht, h⟩
      exact ⟨t, .item ht, h⟩
    · rintro ⟨c, hc, h⟩
      cases hc with
      | item ht => exact ⟨c, ht, h⟩
  | record fields base w refs ihf ihb _ =>
    rw [anyNodeWith]
    have hbase : Answers (s.anyNodeBase p follow base) (∃ t, base = some t ∧ s.Finds p t) := by
      cases base with
      | none =>
        rw [anyNodeBase]
        exact answers_ok (by simp)
      | some b =>
        rw [anyNodeBase]
        exact (ihb b rfl).congr (by simp)
    refine (Answers.guard ((answers_anyNodeFields ihf).orElse hbase)).congr
      (.trans (or_congr_right ?_) finds_iff.symm)
    constructor
    · rintro (⟨field, hf, h⟩ | ⟨t, rfl, h⟩)
      · exact ⟨field.2, .field hf, h⟩
      · exact ⟨t, .base, h⟩
    · rintro ⟨c, hc, h⟩
      cases hc with
      | field hf => exact .inl ⟨_, hf, h⟩
      | base => exact .inr ⟨c, rfl, h⟩
  | arrow params ret w ihp ihr _ =>
    rw [anyNodeWith]
    refine (Answers.guard ((answers_anyNodeList ihp).orElse ihr)).congr
      (.trans (or_congr_right ?_) finds_iff.symm)
    constructor
    · rintro (⟨t, ht, h⟩ | h)
      · exact ⟨t, .param ht, h⟩
      · exact ⟨ret, .ret, h⟩
    · rintro ⟨c, hc, h⟩
      cases hc with
      | param ht => exact .inl ⟨c, ht, h⟩
      | ret => exact .inr h

theorem answers_anyNodeAt (s : Store) (p : Ty → Bool) (n : Nat) (t : Ty) :
    Answers (s.anyNodeAt p n t) (s.Finds p t) := by
  induction n generalizing t with
  | zero => exact answers_anyNodeWith (fun u b hb => by cases hb) t
  | succ n ih => exact answers_anyNodeWith ih t

/-! ### Searches that end -/

theorem exists_orElse {x y : Except Fault Bool} (hx : ∃ b, x = .ok b) (hy : ∃ b, y = .ok b) :
    ∃ b, (x >>= fun b => if b = true then pure true else y) = .ok b := by
  obtain ⟨b, rfl⟩ := hx
  cases b with
  | true => exact ⟨true, rfl⟩
  | false => exact hy

theorem exists_guard {y : Except Fault Bool} (b : Bool) (hy : ∃ b, y = .ok b) :
    ∃ b', (if b = true then pure true else y) = .ok b' := by
  cases b with
  | true => exact ⟨true, rfl⟩
  | false => exact hy

theorem exists_anyM {follow : Ty → Except Fault Bool} {fields : List (Name × Ty)}
    (h : ∀ field ∈ fields, ∃ b, follow field.2 = .ok b) :
    ∃ b, fields.anyM (fun field => follow field.2) = .ok b := by
  induction fields with
  | nil => exact ⟨false, rfl⟩
  | cons field rest ih =>
    obtain ⟨b, hb⟩ := h field List.mem_cons_self
    rw [List.anyM, hb]
    cases b with
    | true => exact ⟨true, rfl⟩
    | false => exact ih (fun other hother => h other (List.mem_cons_of_mem _ hother))

/-- What passes on to resolved types and to results is passed on to what takes the next argument. -/
theorem callee_induct {P : Ty → Prop} (hresolve : ∀ t r, P t → s.resolve t = .ok r → P r)
    (hret : ∀ ret w, P (.arrow [] ret w) → P ret) {t u r : Ty} (ht : P t) (h : s.callee t = .ok (u, r)) :
    P u ∧ P r := by
  obtain ⟨hpasses, hresolved, -⟩ := passes_of_callee h
  have hu : P u := by
    clear h hresolved
    induction hpasses with
    | refl => exact ht
    | tail _ hstep ih =>
      obtain ⟨w, hstep⟩ := hstep
      exact hret _ w (hresolve _ _ ih hstep)
  exact ⟨hu, hresolve _ _ hu hresolved⟩

theorem Owns.child {t u : Ty} (h : s.Child t u) (hclosed : s.Closed) (ht : s.Owns t) : s.Owns u := by
  rcases child_cases h with hsub | ⟨v, rfl, hsol⟩ | ⟨id, g, rfl, hrec, hsub⟩
  · exact fun r hr => ht r (hsub hr)
  · exact hclosed.owns_solution hsol
  · exact fun r hr => hclosed.has_link hrec r (hsub hr)

/-- In a closed store without loops a function without parameters has something behind it. -/
theorem exists_calleeAt (hloop : s.Loopfree false) (hclosed : s.Closed) {n : Nat} {t : Ty} (ht : s.Owns t)
    (hdepth : s.depth t ≤ n) : ∃ u r, s.calleeAt n t = .ok (u, r) := by
  induction n generalizing t with
  | zero =>
    have hpos := t.size_pos
    unfold depth at hdepth
    omega
  | succ n ih =>
    obtain ⟨r, hr⟩ := exists_resolve hloop hclosed ht
    by_cases hempty : ∃ ret w, r = .arrow [] ret w
    · obtain ⟨ret, w, rfl⟩ := hempty
      have hreads := (resolvesTo_of_resolve hr).reads
      have hret : s.Owns ret := ((resolvesTo_of_resolve hr).owns hclosed ht).child .ret hclosed
      have hlt : s.depth ret < s.depth t := depth_lt_of_path hloop (.tail' hreads .ret)
      rw [calleeAt_arrow hr]
      exact ih hret (by omega)
    · refine ⟨t, r, ?_⟩
      rw [calleeAt, hr]
      cases r with
      | arrow params ret w =>
        cases params with
        | nil => exact absurd ⟨ret, w, rfl⟩ hempty
        | cons param params => rfl
      | _ => rfl

theorem exists_callee (hloop : s.Loopfree false) (hclosed : s.Closed) {t : Ty} (ht : s.Owns t) :
    ∃ u r, s.callee t = .ok (u, r) :=
  exists_calleeAt hloop hclosed ht (s.depth_le t)

theorem exists_anyNodeList {follow : Ty → Except Fault Bool} {p : Ty → Bool} {ts : List Ty}
    (h : ∀ t ∈ ts, ∃ b, s.anyNodeWith p follow t = .ok b) :
    ∃ b, s.anyNodeList p follow ts = .ok b := by
  induction ts with
  | nil => exact ⟨false, rfl⟩
  | cons t ts ih =>
    rw [anyNodeList]
    exact exists_orElse (h t List.mem_cons_self) (ih (fun u hu => h u (List.mem_cons_of_mem _ hu)))

theorem exists_anyNodeFields {follow : Ty → Except Fault Bool} {p : Ty → Bool}
    {fields : List (Name × Ty)} (h : ∀ field ∈ fields, ∃ b, s.anyNodeWith p follow field.2 = .ok b) :
    ∃ b, s.anyNodeFields p follow fields = .ok b := by
  induction fields with
  | nil => exact ⟨false, rfl⟩
  | cons field rest ih =>
    rw [anyNodeFields]
    exact exists_orElse (h field List.mem_cons_self)
      (ih (fun other hother => h other (List.mem_cons_of_mem _ hother)))

theorem rank_lt_of_child {t u w : Ty} (h : s.Child t u) (hrank : s.rank false w < s.rank false u) :
    s.rank false w < s.rank false t :=
  hrank.trans_le (rank_mono (fun _ hn => leads_of_child h hn))

/-- One level of the search ends when what goes on behind it does. The parts of a type have no higher
rank than the type, and what stands behind its variables and records has a lower one. -/
theorem exists_anyNodeWith (hloop : s.Loopfree false) (hclosed : s.Closed)
    {follow : Ty → Except Fault Bool} {p : Ty → Bool} {t : Ty} (ht : s.Owns t)
    (hfollow : ∀ u, s.Owns u → s.rank false u < s.rank false t → ∃ b, follow u = .ok b) :
    ∃ b, s.anyNodeWith p follow t = .ok b := by
  induction t using Ty.inductParts with
  | unit => exact ⟨_, rfl⟩
  | unknown => exact ⟨_, rfl⟩
  | inProgress => exact ⟨_, rfl⟩
  | var v =>
    rw [anyNodeWith]
    refine exists_guard _ ?_
    rcases unsolved_or_some ht.var_lt with hun | ⟨u, hsol⟩
    · rw [hun.solution_eq]
      exact ⟨false, rfl⟩
    · rw [solution_of_some hsol]
      exact hfollow u (hclosed.owns_solution hsol) (rank_solution_lt hloop hsol)
  | growing id =>
    rw [anyNodeWith]
    refine exists_guard _ ?_
    obtain ⟨g, hrec⟩ := exists_record ht.growing_lt
    rw [record_of_some hrec]
    refine exists_orElse (exists_anyM (fun field hf => ?_)) ?_
    · exact hfollow _ (hclosed.owns_field hrec hf) (rank_field_lt hloop hrec hf)
    · exact hfollow _ (hclosed.owns_base hrec) (rank_base_lt hloop hrec)
  | union m n args w iha _ =>
    rw [anyNodeWith]
    exact exists_guard _ (exists_anyNodeList (fun t hmem => iha t hmem (ht.child (.arg hmem) hclosed)
      (fun u hu hrank => hfollow u hu (rank_lt_of_child (.arg hmem) hrank))))
  | tuple items ih =>
    rw [anyNodeWith]
    exact exists_guard _ (exists_anyNodeList (fun t hmem => ih t hmem (ht.child (.item hmem) hclosed)
      (fun u hu hrank => hfollow u hu (rank_lt_of_child (.item hmem) hrank))))
  | record fields base w refs ihf ihb _ =>
    rw [anyNodeWith]
    refine exists_guard _ (exists_orElse (exists_anyNodeFields (fun field hf => ?_)) ?_)
    · exact ihf field hf (ht.child (.field hf) hclosed)
        (fun u hu hrank => hfollow u hu (rank_lt_of_child (.field hf) hrank))
    · cases base with
      | none => exact ⟨false, rfl⟩
      | some b =>
        exact ihb b rfl (ht.child .base hclosed)
          (fun u hu hrank => hfollow u hu (rank_lt_of_child .base hrank))
  | arrow params ret w ihp ihr _ =>
    rw [anyNodeWith]
    refine exists_guard _ (exists_orElse (exists_anyNodeList (fun t hmem => ?_)) ?_)
    · exact ihp t hmem (ht.child (.param hmem) hclosed)
        (fun u hu hrank => hfollow u hu (rank_lt_of_child (.param hmem) hrank))
    · exact ihr (ht.child .ret hclosed)
        (fun u hu hrank => hfollow u hu (rank_lt_of_child .ret hrank))

theorem exists_anyNodeAt (hloop : s.Loopfree false) (hclosed : s.Closed) (p : Ty → Bool) {n : Nat}
    {t : Ty} (ht : s.Owns t) (hrank : s.rank false t ≤ n) : ∃ b, s.anyNodeAt p n t = .ok b := by
  induction n generalizing t with
  | zero => exact exists_anyNodeWith hloop hclosed ht (fun u _ hu => by omega)
  | succ n ih => exact exists_anyNodeWith hloop hclosed ht (fun u hown hu => ih hown (by omega))

theorem exists_anyNode (hloop : s.Loopfree false) (hclosed : s.Closed) (p : Ty → Bool) {t : Ty}
    (ht : s.Owns t) : ∃ b, s.anyNode p t = .ok b :=
  exists_anyNodeAt hloop hclosed p ht (s.rank_le_crossings false t)

/-! ### Occurrences -/

theorem exists_occurs (hloop : s.Loopfree false) (hclosed : s.Closed) (id : VarId) {t : Ty}
    (ht : s.Owns t) : ∃ b, s.occurs id t = .ok b :=
  exists_anyNode hloop hclosed _ ht

theorem leads_of_reads_var {t : Ty} {v : TyVar} (h : ReflTransGen s.Child t (.var v)) :
    s.Leads false t (.var v.id) :=
  leads_of_reads h (leads_var_iff.mpr .refl)

theorem leads_of_reads_growing {t : Ty} {id : RecordId} (h : ReflTransGen s.Child t (.growing id)) :
    s.Leads false t (.record id) :=
  leads_of_reads h (leads_growing_iff.mpr .refl)

/-- Where a type leads to can be read in it. -/
theorem reads_of_leads {t : Ty} {n : Node} (h : s.Leads false t n) :
    ∃ u, Stands n u ∧ ReflTransGen s.Child t u := by
  obtain ⟨m, ⟨r, hr, hnode⟩, hpath⟩ := h
  obtain ⟨u, hu, hstands⟩ := exists_mentioned hnode
  have hread := reads_of_mention s hr hu
  rcases reflTransGen_iff_eq_or_transGen.mp hpath with rfl | hpath
  · exact ⟨u, hstands, hread⟩
  · obtain ⟨w, hw, c, hchild, hrest⟩ := reads_of_path hpath hstands
    exact ⟨w, hw, (hread.tail hchild).trans hrest⟩

/-- The occurs check looks through solutions and growing records. -/
theorem occurs_iff {id : VarId} {t : Ty} {b : Bool} (h : s.occurs id t = .ok b) :
    b = true ↔ s.Leads false t (.var id) := by
  refine (answers_anyNodeAt s _ _ t b h).trans ⟨?_, ?_⟩
  · rintro ⟨u, hread, hu⟩
    cases u with
    | var v =>
      rw [← beq_iff_eq.mp hu]
      exact leads_of_reads_var hread
    | _ => cases hu
  · intro hleads
    obtain ⟨u, ⟨r, hnode, hu⟩, hread⟩ := reads_of_leads hleads
    refine ⟨u, hread, ?_⟩
    cases r with
    | var v =>
      cases hu
      simpa [Mention.node?] using hnode
    | record id' => cases hnode
    | field name => cases hnode
    | hole => cases hnode

/-- The same for growing records. -/
theorem mentionsRecord_iff {id : RecordId} {t : Ty} {b : Bool} (h : s.mentionsRecord id t = .ok b) :
    b = true ↔ s.Leads false t (.record id) := by
  refine (answers_anyNodeAt s _ _ t b h).trans ⟨?_, ?_⟩
  · rintro ⟨u, hread, hu⟩
    cases u with
    | growing other =>
      rw [← beq_iff_eq.mp hu]
      exact leads_of_reads_growing hread
    | _ => cases hu
  · intro hleads
    obtain ⟨u, ⟨r, hnode, hu⟩, hread⟩ := reads_of_leads hleads
    refine ⟨u, hread, ?_⟩
    cases r with
    | var v => cases hnode
    | record id' =>
      cases hu
      simpa [Mention.node?] using hnode
    | field name => cases hnode
    | hole => cases hnode

end Store

end ElmInference
