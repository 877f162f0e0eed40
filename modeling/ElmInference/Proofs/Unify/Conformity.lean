import ElmInference.Proofs.Store.Advances
import ElmInference.Proofs.Unify.Histories

/-!
# Solutions of constrained variables

A variable whose name carries a class should stand for types of that class only. Joining two variables and
solving a variable by a type look at the classes, and solving the end of a record does not: a record that is
closed or extended takes its end with it, whatever the name of the end is. A constrained variable that stands
for a record has gone astray.

Nothing else goes wrong. In every store with a history a constrained variable stands for a type of its class
unless a variable that has gone astray can be read in it, and so do the types that were constrained.
-/

namespace ElmInference

namespace Store

open Relation StoreM

/-- Whether a type belongs to a class. Only unsolved variables are taken at their names. -/
def Belongs (s : Store) : Typeclass → Ty → Prop :=
  s.Satisfies (fun v => s.Unsolved v.id)

structure Astray (s : Store) (v : TyVar) : Prop where
  constrained : v.typeclass ≠ none
  record : ∃ t, s.ResolvesTo (.var v) t ∧ shape? t = some .record

/-- Whether a variable that has gone astray can be read in a type. -/
def Misled (s : Store) (t : Ty) : Prop :=
  ∃ v, ReflTransGen s.Child t (.var v) ∧ s.Astray v

variable {s s' : Store} {Q : Set Mention} {L : Ty → Prop} {aliases : Bool} {w w' : World}

/-! ### Classes and types -/

theorem admits_of_join {c d : Typeclass} {m n : Name} {args : List Ty} (h : Typeclass.join c d = some d)
    (hlist : (d.needsComparableItems && isListType m n args) = false) (hadmits : d.admits m n args = true) :
    (c.needsComparableItems && isListType m n args) = false ∧ c.admits m n args = true := by
  cases c <;> cases d <;> cases h <;>
    simp_all [Typeclass.needsComparableItems, Typeclass.admits, isListType]

theorem eq_appendable_of_join : ∀ c d : Typeclass, Typeclass.join c d = some d → d ≠ .number →
    c.needsComparableItems = false → c = .appendable := by
  decide

/-- What belongs to a class belongs to every class that it refines. -/
theorem Satisfies.weaken {P : TyVar → Prop} {c d : Typeclass} {t : Ty} (h : s.Satisfies P d t)
    (hjoin : Typeclass.join c d = some d) : s.Satisfies P c t := by
  induction h with
  | unknown => exact .unknown
  | named hpromises hv =>
    obtain ⟨e, he, hle⟩ := hpromises
    exact .named ⟨e, he, Typeclass.join_trans _ _ _ hjoin hle⟩ hv
  | solved hsol _ ih => exact .solved hsol (ih hjoin)
  | tuple hitems _ =>
    obtain rfl := Typeclass.eq_comparable_of_join c hjoin
    exact .tuple hitems
  | @list d m n args _ hlist hitems _ =>
    cases hneeds : c.needsComparableItems with
    | true =>
      refine .list ?_ hitems
      rw [hneeds]
      exact (Bool.and_eq_true_iff.mp hlist).2
    | false =>
      have hd : d ≠ .number := by
        rintro rfl
        cases hlist
      obtain rfl := eq_appendable_of_join c d hjoin hd hneeds
      refine .admitted (by simp [hneeds]) ?_
      simp [Typeclass.admits, (Bool.and_eq_true_iff.mp hlist).2]
  | admitted hlist hadmits =>
    obtain ⟨hlist, hadmits⟩ := admits_of_join hjoin hlist hadmits
    exact .admitted hlist hadmits

theorem belongs_iff_of_resolvesTo {c : Typeclass} {t r : Ty} (h : s.ResolvesTo t r) :
    s.Belongs c t ↔ s.Belongs c r := by
  induction h with
  | solved hsol _ ih =>
    refine ⟨fun hbelongs => ?_, fun hbelongs => .solved hsol (ih.mpr hbelongs)⟩
    cases hbelongs with
    | named _ hun => exact absurd hun (not_unsolved_of_some hsol)
    | solved hsol' hu =>
      rw [hsol] at hsol'
      cases hsol'
      exact ih.mp hu
  | unsolved _ => exact Iff.rfl
  | other _ => exact Iff.rfl

/-- Records belong to no class, so a variable that has gone astray does not belong to its own. -/
theorem Astray.not_belongs {v : TyVar} (h : s.Astray v) (c : Typeclass) : ¬ s.Belongs c (.var v) := by
  obtain ⟨t, hresolves, hshape⟩ := h.record
  rw [belongs_iff_of_resolvesTo hresolves]
  intro hbelongs
  cases hbelongs <;> cases hshape

theorem Misled.of_child {t u : Ty} (h : s.Child t u) (hu : s.Misled u) : s.Misled t := by
  obtain ⟨v, hreads, hastray⟩ := hu
  exact ⟨v, .head h hreads, hastray⟩

/-! ### What histories keep -/

/-- Solutions of constrained variables belong to their classes, as far as names say, or are records. -/
def Upholds (w : World) : Prop :=
  ∀ v c t, .var v ∈ w.2 → v.typeclass = some c → w.1.solution? v.id = some t →
    w.1.Guards c t ∨ shape? t = some .record

theorem Upholds.later (h : Upholds w) {s' : Store} (hsolution : ∀ id t, w.1.solution? id = some t →
    s'.solution? id = some t) {v : TyVar} {c : Typeclass} {t : Ty} (hv : .var v ∈ w.2)
    (hc : v.typeclass = some c) (hsol : w.1.solution? v.id = some t) :
    s'.Guards c t ∨ shape? t = some .record :=
  (h v c t hv hc hsol).imp_left (fun hguards => Satisfies.later hguards hsolution (fun _ => id))

/-- Solving one more variable asks for the class of this variable only. -/
theorem Upholds.solved (h : Upholds (s, Q)) (hw : Stocked aliases L (s, Q)) {v : TyVar} {t : Ty}
    (hun : s.Unsolved v.id) (hv : .var v ∈ Q)
    (ht : ∀ c, v.typeclass = some c → s.Guards c t ∨ shape? t = some .record) :
    Upholds (s.solved v.id t, Q) := by
  have hext := extends_solved t hun
  intro u c t' hu hc hsol
  by_cases hid : u.id = v.id
  · obtain rfl := hw.named u v hu hv hid
    rw [solution?_solved_self t hun.1] at hsol
    cases hsol
    exact (ht c hc).imp_left (fun hguards => hguards.later hext)
  · rw [solution?_solved_of_ne s t hid] at hsol
    exact h.later hext.solution hu hc hsol

theorem Change.upholds (h : Change aliases L w w') (hw : Stocked aliases L w) (hupholds : Upholds w) :
    Upholds w' := by
  cases h with
  | @fresh s Q name rigid =>
    rintro v c t (hv | hv) hc hsol
    · obtain rfl := Mention.var.inj hv
      exact absurd (unsolved_extended_self s) (not_unsolved_of_some hsol)
    · exact hupholds.later (extends_extended s).solution hv hc (by simpa using hsol)
  | @copy s Q g hg =>
    rintro v c t (hv | hv) hc hsol
    · cases hv
    · exact hupholds.later (extends_recorded s g).solution hv hc (by simpa using hsol)
  | join hun _ _ _ hv _ hmeets =>
    exact hupholds.solved hw hun hv (fun c hc => .inl (.named (hmeets c hc) trivial))
  | bind hun _ hv _ _ _ hguards => exact hupholds.solved hw hun hv (fun c hc => .inl (hguards c hc))
  | close hun _ hv _ _ hshape => exact hupholds.solved hw hun hv (fun _ _ => .inr hshape)

theorem Changes.upholds (hL : Ty.Hereditary L) (h : Changes aliases L w w') (hw : Stocked aliases L w)
    (hupholds : Upholds w) : Upholds w' := by
  induction h with
  | refl => exact hupholds
  | tail hchanges hchange ih => exact hchange.upholds (Changes.stocked hL hchanges hw) ih

theorem Insertion.upholds (h : Insertion aliases L w w') (hupholds : Upholds w) : Upholds w' := by
  have hsolution : ∀ id t, w.1.solution? id = some t → w'.1.solution? id = some t :=
    fun id t hsol => (h.solution? id).trans hsol
  intro v c t hv hc hsol
  refine hupholds.later hsolution ?_ hc ((h.solution? v.id).symm.trans hsol)
  cases h
  exact hv

theorem Operation.upholds (hL : Ty.Hereditary L) (h : Operation aliases L w w')
    (hw : Stocked aliases L w) (hupholds : Upholds w) : Upholds w' := by
  obtain ⟨Q, X, heq, -, hX, hkind⟩ := h.cases hL hw
  have hlater : Stocked aliases L (w'.1, Q) ∧ Upholds (w'.1, Q) := by
    rcases hkind with hchanges | hinsertion
    · exact ⟨hchanges.stocked hL hw, hchanges.upholds hL hw hupholds⟩
    · exact ⟨hinsertion.stocked hL hw, hinsertion.upholds hupholds⟩
  -- what the store mentions was among the mentions of the changes already
  have hsubset : w'.2 ⊆ Q := by
    rw [heq]
    rintro r (hr | ⟨n, hr⟩)
    · exact hX hr
    · exact hlater.1.mem_of_links hr
  exact fun v c t hv => hlater.2 v c t (hsubset hv)

theorem History.upholds (hL : Ty.Hereditary L) (h : History aliases L w w') (hw : Stocked aliases L w)
    (hupholds : Upholds w) : Upholds w' := by
  induction h with
  | refl => exact hupholds
  | tail hhistory hoperation ih => exact hoperation.upholds hL (History.stocked hL hhistory hw) ih

theorem upholds_blank : Upholds blank :=
  fun _ _ _ hv => by cases hv

/-- What a type is known to be as far as names say, it is, unless it has been misled. The names on the way
are those of variables that stand closer to the end, since the store has no loops. -/
theorem Stocked.belongs_of_guards (hw : Stocked aliases L (s, Q)) (hupholds : Upholds (s, Q))
    {c : Typeclass} {t : Ty} (ht : t.Within Q) (hguards : s.Guards c t) (hclear : ¬ s.Misled t) :
    s.Belongs c t := by
  induction hn : s.depth t using Nat.strongRecOn generalizing c t with
  | _ n ih =>
  subst hn
  have hchild : ∀ {c : Typeclass} {u : Ty}, s.Child t u → s.Guards c u → s.Belongs c u := by
    intro c u hchild hguards
    exact ih _ (depth_lt_of_child hw.loopfree hchild) (hw.tidy.within_child hchild ht) hguards
      (fun hmisled => hclear (hmisled.of_child hchild)) rfl
  cases hguards with
  | unknown => exact .unknown
  | @named c v hpromises _ =>
    have hv : .var v ∈ Q := Ty.within_var.mp ht
    rcases unsolved_or_some (hw.owned _ hv) with hun | ⟨u, hsol⟩
    · exact .named hpromises hun
    · obtain ⟨d, hd, hjoin⟩ := hpromises
      rcases hupholds v d u hv hd hsol with hguards | hshape
      · exact .solved hsol ((hchild (.solution hsol) hguards).weaken hjoin)
      · refine absurd ⟨v, .refl, ⟨by simp [hd], u, .solved hsol (.other ?_), hshape⟩⟩ hclear
        rintro v rfl
        cases hshape
  | solved hsol hguards => exact .solved hsol (hchild (.solution hsol) hguards)
  | tuple hitems => exact .tuple (fun u hu => hchild (.item hu) (hitems u hu))
  | list hlist hargs => exact .list hlist (fun u hu => hchild (.arg hu) (hargs u hu))
  | admitted hlist hadmits => exact .admitted hlist hadmits

/-! ### The main statement -/

/-- In every store with a history, a constrained variable stands for a type of its class unless it has been
misled by a constrained variable that stands for a record. So all constrained variables do exactly if none of
them stands for a record. A type that was constrained with success belongs to the class for good, with the same
exception. -/
theorem constraints_hold_unless_misled {w : World} (h : History false (fun _ => True) blank w) :
    (∀ v c, .var v ∈ w.2 → v.typeclass = some c →
      ∃ t, w.1.resolve (.var v) = .ok t ∧ (w.1.Belongs c t ∨ w.1.Misled (.var v))) ∧
    ((∀ v c t, .var v ∈ w.2 → v.typeclass = some c → w.1.resolve (.var v) = .ok t → w.1.Belongs c t) ↔
      ∀ v, .var v ∈ w.2 → ¬ w.1.Astray v) ∧
    ∀ c t s' w', t.Within w.2 → constrain c t w.1 = .ok (.ok (), s') →
      History false (fun _ => True) (.after false s' w.2) w' → w'.1.Belongs c t ∨ w'.1.Misled t := by
  have hL := Ty.hereditary_true
  have hw := h.stocked hL stocked_blank
  have hupholds := h.upholds hL stocked_blank upholds_blank
  have hstands : ∀ v c, .var v ∈ w.2 → v.typeclass = some c →
      w.1.Belongs c (.var v) ∨ w.1.Misled (.var v) := by
    intro v c hv hc
    by_cases hmisled : w.1.Misled (.var v)
    · exact .inr hmisled
    · have hguards : w.1.Guards c (.var v) := .named ⟨c, hc, Typeclass.join_self c⟩ trivial
      exact .inl (hw.belongs_of_guards hupholds (Ty.within_var.mpr hv) hguards hmisled)
  refine ⟨fun v c hv hc => ?_, ⟨fun hall v hv hastray => ?_, fun hnone v c t hv hc hres => ?_⟩, ?_⟩
  · obtain ⟨t, hres⟩ := exists_resolve hw.loopfree hw.tidy.closed (owns_var (hw.owned _ hv))
    refine ⟨t, hres, (hstands v c hv hc).imp_left ?_⟩
    exact (belongs_iff_of_resolvesTo (resolvesTo_of_resolve hres)).mp
  · obtain ⟨c, hc⟩ := Option.ne_none_iff_exists'.mp hastray.constrained
    obtain ⟨t, hres⟩ := exists_resolve hw.loopfree hw.tidy.closed (owns_var (hw.owned _ hv))
    have hbelongs := (belongs_iff_of_resolvesTo (resolvesTo_of_resolve hres)).mpr (hall v c t hv hc hres)
    exact hastray.not_belongs c hbelongs
  · rcases hstands v c hv hc with hbelongs | ⟨u, hreads, hastray⟩
    · exact (belongs_iff_of_resolvesTo (resolvesTo_of_resolve hres)).mp hbelongs
    · have hu := hw.tidy.within_of_reads hreads (Ty.within_var.mpr hv)
      exact absurd hastray (hnone u (Ty.within_var.mp hu))
  · intro c t s' w' ht hrun hlater
    have hoperation : Operation false (fun _ => True) w (.after false s' w.2) :=
      .constrain ⟨ht, trivial⟩ hrun
    have hw' := hoperation.stocked hL hw
    have hall : History false (fun _ => True) blank w' := (h.tail hoperation).trans hlater
    by_cases hmisled : w'.1.Misled t
    · exact .inr hmisled
    · refine .inl ((hall.stocked hL stocked_blank).belongs_of_guards
        (hall.upholds hL stocked_blank upholds_blank) (fun r hr => ?_) ?_ hmisled)
      · exact hlater.subset hL hw' (.inl (ht r hr))
      · exact Satisfies.later (guards_constrain hrun) (fun _ _ => hlater.solution hL hw') (fun _ => id)

theorem not_astray_of_solutions (h : ∀ id t, s.solution? id = some t → shape? t ≠ some .record) (v : TyVar) :
    ¬ s.Astray v := by
  rintro ⟨-, t, hresolves, hshape⟩
  have hmet : ∀ u r, s.ResolvesTo u r → shape? u ≠ some .record → shape? r ≠ some .record := by
    intro u r hur
    induction hur with
    | solved hsol _ ih => exact fun _ => ih (h _ _ hsol)
    | unsolved _ => exact fun hu => hu
    | other _ => exact fun hu => hu
  exact hmet _ _ hresolves nofun hshape

/-- A comparable variable that is solved by a list makes the items comparable. -/
theorem constraints_hold_unless_misled_of_list :
    ∃ Q, let s : Store := { solutions := ⟨#[some (.union "List" "List" [.var ⟨1, "a", false⟩] none),
                                            some (.var ⟨2, "comparable", false⟩), none]⟩ }
      History false (fun _ => True) blank (s, Q) ∧ .var ⟨0, "comparable", false⟩ ∈ Q ∧
        s.resolve (.var ⟨0, "comparable", false⟩) = .ok (.union "List" "List" [.var ⟨1, "a", false⟩] none) ∧
        s.Belongs .comparable (.union "List" "List" [.var ⟨1, "a", false⟩] none) := by
  have hL := Ty.hereditary_true
  obtain ⟨Q₁, h₁, hQ₁⟩ := History.next (.start false fun _ => True) (.fresh "comparable" false)
  obtain ⟨Q₂, h₂, hQ₂⟩ := History.next h₁ (.fresh "a" false)
  have hv : .var ⟨0, "comparable", false⟩ ∈ Q₂ := hQ₂ (Set.mem_insert_of_mem _ (hQ₁ (Set.mem_insert _ _)))
  have hlist : Ty.MadeOf false (fun _ => True) Q₂ (.union "List" "List" [.var ⟨1, "a", false⟩] none) := by
    refine ⟨fun r hr => ?_, trivial⟩
    obtain rfl : r = .var ⟨1, "a", false⟩ := by
      simpa [Ty.mentions, Ty.mentionsList, Ty.mentionsAlias] using hr
    exact hQ₂ (Set.mem_insert _ _)
  obtain ⟨Q₃, h₃, hQ₃⟩ := History.next h₂ (.unify (Ty.madeOf_var hL hv) hlist rfl)
  obtain ⟨-, hall, -⟩ := constraints_hold_unless_misled h₃
  refine ⟨Q₃, h₃, hQ₃ hv, rfl, hall.mpr (fun v _ => not_astray_of_solutions ?_ v) ⟨0, "comparable", false⟩
    .comparable _ (hQ₃ hv) (by decide) rfl⟩
  intro id t hsol
  rcases id with _ | _ | _ | id <;> cases hsol <;> decide

/-- A number can be the end of a record. Unifying that record with a closed one succeeds, and then the variable
stands for the empty record, and so does the one that was constrained to be a number. -/
theorem number_stands_for_record_after_closing :
    let a : Ty := .var ⟨0, "a", false⟩
    let number : TyVar := ⟨1, "number", false⟩
    ∃ s₁ s₂ Q, constrain .number a (({} : Store).fresh "a" false).2 = .ok (.ok (), s₁) ∧
      unify (.record [("x", .unit)] (some a) none .empty) (.record [("x", .unit)] none none .empty) s₁ =
        .ok (.ok (), s₂) ∧
      History false (fun _ => True) blank (s₂, Q) ∧ .var number ∈ Q ∧ number.typeclass = some .number ∧
      s₂.resolve (.var number) = .ok .emptyRecord ∧ s₂.resolve a = .ok .emptyRecord ∧
      ¬ s₂.Belongs .number .emptyRecord := by
  have hL := Ty.hereditary_true
  obtain ⟨Q₁, h₁, hQ₁⟩ := History.next (.start false fun _ => True) (.fresh "a" false)
  have ha : Ty.MadeOf false (fun _ => True) Q₁ (.var ⟨0, "a", false⟩) :=
    Ty.madeOf_var hL (hQ₁ (Set.mem_insert _ _))
  have hx : Ty.FieldsOf false (fun _ => True) Q₁ [("x", .unit)] := by
    intro field hf
    obtain rfl := List.mem_singleton.mp hf
    exact ⟨hQ₁ (Set.mem_insert_of_mem _ rfl), ⟨nofun, trivial⟩⟩
  have hrun : constrain .number (.var ⟨0, "a", false⟩) (({} : Store).fresh "a" false).2 =
      .ok (.ok (), { solutions := ⟨#[some (.var ⟨1, "number", false⟩), none]⟩ }) := rfl
  obtain ⟨Q₂, h₂, hQ₂⟩ := History.next h₁ (.constrain ha hrun)
  have hopen : Ty.MadeOf false (fun _ => True) Q₂
      (.record [("x", .unit)] (some (.var ⟨0, "a", false⟩)) none .empty) := by
    refine Ty.madeOf_record hL _ (hx.mono hQ₂) (fun b hb => ?_)
    obtain rfl := Option.some.inj hb
    exact ha.mono hQ₂
  have hclosed : Ty.MadeOf false (fun _ => True) Q₂ (.record [("x", .unit)] none none .empty) :=
    Ty.madeOf_record hL _ (hx.mono hQ₂) nofun
  obtain ⟨Q₃, h₃, -⟩ := History.next h₂ (.unify hopen hclosed rfl)
  refine ⟨_, _, Q₃, hrun, rfl, h₃, ?_, by decide, rfl, rfl, fun hbelongs => by cases hbelongs⟩
  have hw := History.stocked hL h₃ stocked_blank
  exact hw.mem_of_links (n := .var 0) (by decide)

end Store

end ElmInference
