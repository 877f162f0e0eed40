import ElmInference.Proofs.Unify.Learning

/-!
# How deep unification can go

`Deep s n t` bounds the levels of unification that a type can take part in. Variables are transparent, so
calm changes keep the bound; a function is one level deeper than the function of its parameters but the
first, so that matching functions of different arity brings both down.
-/

namespace ElmInference

namespace Store

/-- Whether unification can go at most `n` levels into a type. -/
inductive Deep (s : Store) : Nat → Ty → Prop
  | unsolved {n : Nat} {v : TyVar} : s.Unsolved v.id → Deep s n (.var v)
  | solved {n : Nat} {v : TyVar} {t : Ty} : s.solution? v.id = some t → Deep s n t → Deep s n (.var v)
  | unit {n : Nat} : Deep s n .unit
  | accepts {n : Nat} {t : Ty} : StoreM.acceptsAll t = true → Deep s n t
  | union {n : Nat} {m name : Name} {args : List Ty} {w : Option (AliasUse Ty)} :
      (∀ t ∈ args, Deep s n t) → Deep s (n + 1) (.union m name args w)
  | tuple {n : Nat} {items : List Ty} : (∀ t ∈ items, Deep s n t) → Deep s (n + 1) (.tuple items)
  | record {n : Nat} {fields : List (Name × Ty)} {base : Option Ty} {w : Option (AliasUse Ty)}
      {refs : FieldReferences} : (∀ field ∈ fields, Deep s n field.2) →
      (∀ b, base = some b → Deep s n b) → Deep s (n + 1) (.record fields base w refs)
  | growing {n : Nat} {id : RecordId} {g : GrowingRecord} : s.records[id]? = some g →
      (∀ field ∈ g.fields, Deep s n field.2) → Deep s n g.base → Deep s (n + 1) (.growing id)
  | nullary {n : Nat} {ret : Ty} {w : Option (AliasUse Ty)} : Deep s n ret →
      Deep s (n + 1) (.arrow [] ret w)
  | arrow {n : Nat} {param : Ty} {params : List Ty} {ret : Ty} {w : Option (AliasUse Ty)} :
      Deep s n param → Deep s n (.arrow params ret w) → Deep s (n + 1) (.arrow (param :: params) ret w)

variable {s s' : Store}

namespace Deep

theorem mono {n m : Nat} {t : Ty} (h : s.Deep n t) (hnm : n ≤ m) : s.Deep m t := by
  induction h generalizing m with
  | unsolved hun => exact .unsolved hun
  | solved hsol _ ih => exact .solved hsol (ih hnm)
  | unit => exact .unit
  | accepts h => exact .accepts h
  | union _ ih =>
    obtain ⟨k, rfl⟩ : ∃ k, m = k + 1 := ⟨m - 1, by omega⟩
    exact .union (fun t ht => ih t ht (by omega))
  | tuple _ ih =>
    obtain ⟨k, rfl⟩ : ∃ k, m = k + 1 := ⟨m - 1, by omega⟩
    exact .tuple (fun t ht => ih t ht (by omega))
  | record _ _ ihf ihb =>
    obtain ⟨k, rfl⟩ : ∃ k, m = k + 1 := ⟨m - 1, by omega⟩
    exact .record (fun field hf => ihf field hf (by omega)) (fun b hb => ihb b hb (by omega))
  | growing hrec _ _ ihf ihb =>
    obtain ⟨k, rfl⟩ : ∃ k, m = k + 1 := ⟨m - 1, by omega⟩
    exact .growing hrec (fun field hf => ihf field hf (by omega)) (ihb (by omega))
  | nullary _ ih =>
    obtain ⟨k, rfl⟩ : ∃ k, m = k + 1 := ⟨m - 1, by omega⟩
    exact .nullary (ih (by omega))
  | arrow _ _ ihp ihr =>
    obtain ⟨k, rfl⟩ : ∃ k, m = k + 1 := ⟨m - 1, by omega⟩
    exact .arrow (ihp (by omega)) (ihr (by omega))

theorem of_resolvesTo {t : Ty} {w : TyVar} (n : Nat) (h : s.ResolvesTo t (.var w)) : s.Deep n t := by
  generalize hr : Ty.var w = r at h
  induction h with
  | solved hsol _ ih => exact .solved hsol (ih hr)
  | unsolved hun => exact .unsolved hun
  | other hnot => exact absurd hr.symm (hnot w)

/-- Renaming variables makes no type deeper. -/
theorem calm {T : VarId → Prop} {n : Nat} {t : Ty} (h : s.Deep n t) (hcalm : s.Calm T s') :
    s'.Deep n t := by
  induction h with
  | unsolved hun =>
    rcases hcalm.unsolved _ hun with hun' | ⟨-, w, hresolves⟩
    · exact .unsolved hun'
    · exact of_resolvesTo _ hresolves
  | solved hsol _ ih => exact .solved (hcalm.extension.solution _ _ hsol) ih
  | unit => exact .unit
  | accepts h => exact .accepts h
  | union _ ih => exact .union ih
  | tuple _ ih => exact .tuple ih
  | record _ _ ihf ihb => exact .record ihf ihb
  | growing hrec _ _ ihf ihb => exact .growing (hcalm.extension.record _ _ hrec) ihf ihb
  | nullary _ ih => exact .nullary ih
  | arrow _ _ ihp ihr => exact .arrow ihp ihr

theorem resolve {n : Nat} {t r : Ty} (h : s.Deep n t) (hr : s.ResolvesTo t r) : s.Deep n r := by
  induction hr with
  | solved hsol _ ih =>
    refine ih ?_
    cases h with
    | unsolved hun => exact absurd hun (not_unsolved_of_some hsol)
    | solved hsol' ht =>
      rw [hsol] at hsol'
      cases hsol'
      exact ht
    | accepts h => cases h
  | unsolved _ => exact h
  | other _ => exact h

/-! ### Functions -/

theorem written {n : Nat} {params : List Ty} {ret : Ty} {w : Option (AliasUse Ty)}
    (h : s.Deep n (.arrow params ret w)) (w' : Option (AliasUse Ty)) :
    s.Deep n (.arrow params ret w') := by
  induction params generalizing n with
  | nil =>
    cases h with
    | accepts h => cases h
    | nullary hret => exact .nullary hret
  | cons p ps ih =>
    cases h with
    | accepts h => cases h
    | arrow hp hps => exact .arrow hp (ih hps)

theorem param {n : Nat} {params : List Ty} {ret : Ty} {w : Option (AliasUse Ty)}
    (h : s.Deep (n + 1) (.arrow params ret w)) : ∀ p ∈ params, s.Deep n p := by
  induction params generalizing n with
  | nil => exact fun p hp => by cases hp
  | cons q qs ih =>
    intro p hp
    cases h with
    | accepts h => cases h
    | arrow hq hqs =>
      rcases List.mem_cons.mp hp with rfl | hp
      · exact hq
      · cases n with
        | zero =>
          cases hqs with
          | accepts h => cases h
        | succ n => exact (ih hqs p hp).mono (Nat.le_succ n)

theorem fold {n : Nat} {params more : List Ty} {last : Ty} {w w' : Option (AliasUse Ty)}
    (h : s.Deep n (.arrow params (.arrow more last w) w')) :
    s.Deep n (.arrow (params ++ more) last w') := by
  induction params generalizing n with
  | nil =>
    cases h with
    | accepts h => cases h
    | nullary hret => exact (hret.written w').mono (Nat.le_succ _)
  | cons p ps ih =>
    cases h with
    | accepts h => cases h
    | arrow hp hps => exact .arrow hp (ih hps)

theorem function {n : Nat} {params : List Ty} {ret : Ty} (hne : params ≠ [])
    (h : s.Deep n (.arrow params ret none)) : s.Deep n (Ty.function params ret) := by
  unfold Ty.function
  split
  · exact absurd rfl hne
  · split
    · exact h.fold
    · exact h

theorem drop {n : Nat} {params : List Ty} {ret : Ty} {w : Option (AliasUse Ty)}
    (h : s.Deep n (.arrow params ret w)) {count : Nat} (hcount : count ≤ params.length) :
    ∃ k, k + count ≤ n ∧ s.Deep k (.arrow (params.drop count) ret w) := by
  induction count generalizing n params with
  | zero => exact ⟨n, Nat.le_refl _, h⟩
  | succ count ih =>
    cases params with
    | nil => cases hcount
    | cons p ps =>
      cases h with
      | accepts h => cases h
      | @arrow n _ _ _ _ hp hps =>
        obtain ⟨k, hk, hdrop⟩ := ih hps (Nat.le_of_succ_le_succ hcount)
        exact ⟨k, by omega, hdrop⟩

/-- What is left of a function after some arguments; all of them make one level more. -/
theorem dropParams {n : Nat} {params : List Ty} {ret : Ty} {w : Option (AliasUse Ty)}
    (h : s.Deep n (.arrow params ret w)) {count : Nat} (hcount : count ≤ params.length) :
    ∃ k, s.Deep k (Ty.dropParams params ret count) ∧ k + count ≤ n ∧
      (count = params.length → k + count < n) := by
  obtain ⟨k, hk, hdrop⟩ := h.drop hcount
  unfold Ty.dropParams
  split
  · next hlt =>
    have hne : params.drop count ≠ [] := by
      intro hnil
      have := List.length_drop (i := count) (l := params)
      rw [hnil, List.length_nil] at this
      omega
    exact ⟨k, (hdrop.written none).function hne, hk, fun heq => absurd heq (Nat.ne_of_lt hlt)⟩
  · next hge =>
    have hnil : params.drop count = [] := List.drop_eq_nil_of_le (Nat.le_of_not_lt hge)
    rw [hnil] at hdrop
    cases hdrop with
    | accepts h => cases h
    | @nullary k _ _ hret => exact ⟨k, hret, by omega, fun _ => by omega⟩

/-! ### Records -/

theorem flatten {n m : Nat} {t : Ty} {above : List (Name × Ty)} {f : Flattened}
    (h : s.FlattensTo t above f) (hdeep : s.Deep n t) (hnm : n ≤ m + 1)
    (habove : ∀ field ∈ above, s.Deep m field.2) : ∀ field ∈ f.fields, s.Deep m field.2 := by
  have added : ∀ {above fields : List (Name × Ty)}, (∀ field ∈ above, s.Deep m field.2) →
      (∀ field ∈ fields, s.Deep m field.2) →
      ∀ field ∈ Ty.addFields above fields, s.Deep m field.2 := by
    intro above fields habove hfields field hfield
    rcases Ty.mem_addFields hfield with hfield | hfield
    · exact habove field hfield
    · exact hfields field hfield
  induction h generalizing n with
  | closed =>
    cases hdeep with
    | accepts h => cases h
    | record hfields _ => exact added habove (fun field hf => (hfields field hf).mono (by omega))
  | base _ ih =>
    cases hdeep with
    | accepts h => cases h
    | record hfields hbase =>
      exact ih (hbase _ rfl) (by omega) (added habove (fun field hf => (hfields field hf).mono (by omega)))
  | growing hrec _ ih =>
    cases hdeep with
    | accepts h => cases h
    | growing hrec' hfields hbase =>
      rw [hrec] at hrec'
      cases hrec'
      exact ih hbase (by omega) (added habove (fun field hf => (hfields field hf).mono (by omega)))
  | unsolved _ => exact habove
  | solved hsol _ ih =>
    cases hdeep with
    | unsolved hun => exact absurd hun (not_unsolved_of_some hsol)
    | solved hsol' ht =>
      rw [hsol] at hsol'
      cases hsol'
      exact ih ht hnm habove
    | accepts h => cases h
  | unknown => exact habove
  | baseless _ => exact habove

end Deep

/-- Every type of a sane store has a depth. -/
theorem deep_depth (hsane : s.Sane) {t : Ty} (ht : s.Owns t) : s.Deep (s.depth t) t := by
  induction hn : s.depth t using Nat.strongRecOn generalizing t with
  | _ n ih =>
    subst hn
    -- whatever is nearer to the leaves has its depth already
    have below : ∀ {u : Ty}, s.Owns u → s.depth u < s.depth t → s.Deep (s.depth t - 1) u :=
      fun hu hlt => (ih _ hlt hu rfl).mono (by omega)
    have child : ∀ {u : Ty}, s.Child t u → s.Deep (s.depth t - 1) u :=
      fun h => below (ht.child h hsane.closed) (depth_lt_of_child hsane.loopfree h)
    have hpos : s.depth t = (s.depth t - 1) + 1 := by
      have := t.size_pos
      have : t.size ≤ s.depth t := Nat.le_add_right _ _
      omega
    rw [hpos]
    cases t with
    | unit => exact .unit
    | unknown => exact .accepts rfl
    | inProgress => exact .accepts rfl
    | var v =>
      rcases unsolved_or_some ht.var_lt with hun | ⟨u, hsol⟩
      · exact .unsolved hun
      · exact .solved hsol ((child (.solution hsol)).mono (Nat.le_succ _))
    | union m n args w => exact .union (fun u hu => child (.arg hu))
    | tuple items => exact .tuple (fun u hu => child (.item hu))
    | record fields base w refs =>
      refine .record (fun field hf => child (.field hf)) (fun b hb => ?_)
      subst hb
      exact child .base
    | growing id =>
      obtain ⟨g, hrec⟩ := exists_record ht.growing_lt
      exact .growing hrec (fun field hf => child (.growingField hrec hf)) (child (.growingBase hrec))
    | arrow params ret w =>
      cases params with
      | nil => exact .nullary (child .ret)
      | cons p ps =>
        refine .arrow (child (.param List.mem_cons_self)) (below (fun r hr => ht r ?_) ?_)
        · simp only [Ty.mentions, Ty.mentionsList, List.append_assoc, List.mem_append] at hr ⊢
          exact .inr hr
        · refine depth_lt_of_size_lt ?_ (leads_mono (fun r hr => ?_))
          · have := p.size_pos
            simp only [Ty.size, Ty.sizeList]
            omega
          · simp only [Ty.mentions, Ty.mentionsList, List.append_assoc, List.mem_append] at hr ⊢
            exact .inr hr

end Store

end ElmInference
