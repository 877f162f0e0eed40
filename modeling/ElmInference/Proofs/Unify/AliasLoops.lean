import ElmInference.Proofs.Store.Crossings
import ElmInference.Proofs.Unify.Histories

/-!
# Aliases that lead back to themselves

Zonking follows the arguments of the alias a type was written with, and the checks that keep a store free of
loops do not. So a variable can be solved by a type, or a growing record can get a field, whose alias has an
argument that holds this variable or record. Then zonking does not end. This is the only way: there is no loop
without an alias argument, and zonking ends on every type that leads to no loop.

An alias can do this only if it has an argument that its type does not use. Where all aliases show what they
hold in the type itself, zonking always ends.
-/

namespace ElmInference

open Relation

namespace Ty

/-- A type in which no alias has an argument that holds more than the type written with it, at any depth. -/
def Overt (t : Ty) : Prop :=
  ∀ u, ReflTransGen Part t u → ∀ arg ∈ aliasArgs u.written?, ∀ n, arg.Holds true n → u.Holds false n

theorem Overt.part {t u : Ty} (h : t.Overt) (hpart : t.Part u) : u.Overt :=
  fun v hv => h v (.head hpart hv)

/-- A type without alias is overt when its parts are. -/
theorem overt_of_parts {t : Ty} (hwritten : t.written? = none) (hparts : ∀ u, t.Part u → u.Overt) :
    t.Overt := by
  intro u hreads arg harg
  rcases hreads.cases_head with rfl | ⟨v, hpart, hrest⟩
  · rw [hwritten] at harg
    cases harg
  · exact hparts v hpart u hrest arg harg

theorem hereditary_overt : Hereditary Overt where
  var v := overt_of_parts rfl (fun u hpart => by cases hpart)
  growing id := overt_of_parts rfl (fun u hpart => by cases hpart)
  part t u hpart h := h.part hpart
  record fields base refs hfields hbase := by
    refine overt_of_parts rfl (fun u hpart => ?_)
    cases hpart with
    | field hf => exact hfields _ hf
    | base => exact hbase u rfl
  arrow params ret _ hparams hret := by
    refine overt_of_parts rfl (fun u hpart => ?_)
    cases hpart with
    | param hmem => exact hparams u hmem
    | ret => exact hret

theorem Part.holds {aliases : Bool} {t u : Ty} {n : Node} (h : t.Part u) (hu : u.Holds aliases n) :
    t.Holds aliases n := by
  obtain ⟨r, hr, hnode⟩ := hu
  exact ⟨r, h.mentions_subset hr, hnode⟩

/-- An overt type holds nothing but what it holds without its aliases. -/
theorem Overt.holds {t : Ty} (h : t.Overt) {n : Node} (hn : t.Holds true n) : t.Holds false n := by
  obtain ⟨r, hr, hnode⟩ := hn
  induction t using inductParts with
  | unit => cases hr
  | unknown | inProgress | var | growing => exact ⟨r, hr, hnode⟩
  | union m name args w iha _ =>
    simp only [mentions, mentionsAlias_true, List.mem_append, mem_mentionsList] at hr
    rcases hr with ⟨u, hu, hr⟩ | ⟨u, hu, hr⟩
    · exact Part.holds (.arg hu) (iha u hu (h.part (.arg hu)) hr)
    · exact h _ .refl u hu n ⟨r, hr, hnode⟩
  | tuple items ih =>
    simp only [mentions, mem_mentionsList] at hr
    obtain ⟨u, hu, hr⟩ := hr
    exact Part.holds (.item hu) (ih u hu (h.part (.item hu)) hr)
  | record fields base w refs ihf ihb _ =>
    simp only [mentions, mentionsAlias_true, List.mem_append, mem_mentionsFields, mem_mentionsList] at hr
    rcases hr with ⟨field, hf, rfl | hr⟩ | hr | ⟨u, hu, hr⟩
    · cases hnode
    · exact Part.holds (.field hf) (ihf field hf (h.part (.field hf)) hr)
    · cases base with
      | none => cases hr
      | some b => exact Part.holds .base (ihb b rfl (h.part .base) hr)
    · exact h _ .refl u hu n ⟨r, hr, hnode⟩
  | arrow params ret w ihp ihr _ =>
    simp only [mentions, mentionsAlias_true, List.mem_append, mem_mentionsList] at hr
    rcases hr with ⟨u, hu, hr⟩ | hr | ⟨u, hu, hr⟩
    · exact Part.holds (.param hu) (ihp u hu (h.part (.param hu)) hr)
    · exact Part.holds .ret (ihr (h.part .ret) hr)
    · exact h _ .refl u hu n ⟨r, hr, hnode⟩

end Ty

namespace Store

open StoreM

variable {s : Store} {Q : Set Mention} {L : Ty → Prop} {w : World}

theorem Stocked.exhibits (h : Stocked true L (s, Q)) : s.Exhibits := by
  refine ⟨fun id t hsol r hr => h.owned r ((h.solution id t hsol).mentions r hr), fun id g hrec r hr => ?_⟩
  rw [links_record_eq] at hr
  exact h.owned r ((h.record id g hrec).mentions r hr)

/-- Aliases of overt types add no edge to the solution graph. -/
theorem Stocked.edge_of_overt (h : Stocked true Ty.Overt (s, Q)) {n m : Node} (hedge : s.Edge true n m) :
    s.Edge false n m := by
  obtain ⟨r, hr, hnode⟩ := hedge
  cases n with
  | var id =>
    cases hsol : s.solution? id with
    | none => simp [links, hsol] at hr
    | some t =>
      have hholds : t.Holds true m := ⟨r, by simpa [links, hsol] using hr, hnode⟩
      exact edge_of_solution hsol ((h.solution id t hsol).property.holds hholds)
  | record id =>
    cases hrec : s.records[id]? with
    | none => simp [links, hrec] at hr
    | some g =>
      have hholds : (Ty.record g.fields (some g.base) none g.refs).Holds true m :=
        ⟨r, by simpa [links, hrec, links_record_eq] using hr, hnode⟩
      obtain ⟨r', hr', hnode'⟩ := (h.record id g hrec).property.holds hholds
      exact edge_of_record hrec (by simpa [links_record_eq] using hr') hnode'

theorem Stocked.not_loops_of_overt (h : Stocked true Ty.Overt (s, Q)) (t : Ty) : ¬ s.Loops t := by
  rintro ⟨n, -, hloop⟩
  exact h.loopfree n (TransGen.mono (fun _ _ => h.edge_of_overt) _ _ hloop)

/-! ### The main statement -/

/-- In every store with a history the solution graph has no loop but through the arguments of aliases, and
zonking a type ends exactly if the type leads to no such loop; otherwise it does not end however long it runs.
No type leads to a loop when all types in the history were overt. -/
theorem zonk_ends_unless_aliases_lead_back {w : World} (h : History true (fun _ => True) blank w) {t : Ty}
    (ht : ∀ r ∈ t.mentions true, r ∈ w.2) :
    w.1.Loopfree false ∧ ((∃ z, w.1.zonk t = .ok z) ↔ ¬ w.1.Loops t) ∧
      (w.1.Loops t → ∀ n, w.1.zonkAt n t = .error .diverged) ∧
      (History true Ty.Overt blank w → ∃ z, w.1.zonk t = .ok z) := by
  have hw := h.stocked Ty.hereditary_true stocked_blank
  have hdisplays : w.1.Displays t := fun r hr => hw.owned r (ht r hr)
  have hends := exists_zonk_iff hw.exhibits hdisplays
  refine ⟨hw.loopfree, hends, fun hloops n => zonkAt_of_loops hw.exhibits n hdisplays hloops, ?_⟩
  intro hovert
  exact hends.mpr ((hovert.stocked Ty.hereditary_overt stocked_blank).not_loops_of_overt t)

/-- An integer under an alias with one argument, of which nothing is left in the type. -/
def tagged (arg : Ty) : Ty :=
  .union "Basics" "Int" [] (some ⟨"Main", "Tagged", [arg]⟩)

/-- A list under an alias that has the type of the items for an argument. -/
def boxes (item : Ty) : Ty :=
  .union "List" "List" [item] (some ⟨"Main", "Boxes", [item]⟩)

theorem overt_boxes (v : TyVar) : (boxes (.var v)).Overt := by
  intro u hreads arg harg n hn
  rcases hreads.cases_head with rfl | ⟨u', hpart, hrest⟩
  · obtain rfl := List.mem_singleton.mp harg
    obtain ⟨r, hr, hnode⟩ := hn
    exact ⟨r, hr, hnode⟩
  · cases hpart with
    | arg hmem =>
      obtain rfl := List.mem_singleton.mp hmem
      exact (Ty.hereditary_overt.var v) u hrest arg harg n hn

/-- A variable that stands for a list of another one, written with an alias. -/
theorem zonk_ends_unless_aliases_lead_back_of_boxes :
    ∃ Q, let s : Store := { solutions := ⟨#[some (boxes (.var ⟨1, "b", false⟩)), none]⟩ }
      History true (fun _ => True) blank (s, Q) ∧ History true Ty.Overt blank (s, Q) ∧
        .var ⟨0, "a", false⟩ ∈ Q ∧ s.zonk (.var ⟨0, "a", false⟩) = .ok (boxes (.var ⟨1, "b", false⟩)) ∧
        ∃ z, s.zonk (.var ⟨0, "a", false⟩) = .ok z := by
  have hL := Ty.hereditary_overt
  obtain ⟨Q₁, h₁, hQ₁⟩ := History.next (.start true Ty.Overt) (.fresh "a" false)
  obtain ⟨Q₂, h₂, hQ₂⟩ := History.next h₁ (.fresh "b" false)
  have ha : .var ⟨0, "a", false⟩ ∈ Q₂ := hQ₂ (Set.mem_insert_of_mem _ (hQ₁ (Set.mem_insert _ _)))
  have hb : .var ⟨1, "b", false⟩ ∈ Q₂ := hQ₂ (Set.mem_insert _ _)
  have hboxes : Ty.MadeOf true Ty.Overt Q₂ (boxes (.var ⟨1, "b", false⟩)) := by
    refine ⟨fun r hr => ?_, overt_boxes _⟩
    obtain rfl : r = .var ⟨1, "b", false⟩ := by
      simpa [boxes, Ty.mentions, Ty.mentionsList, Ty.mentionsAlias] using hr
    exact hb
  obtain ⟨Q₃, h₃, hQ₃⟩ := History.next h₂ (.unify (Ty.madeOf_var hL ha) hboxes rfl)
  have hall := History.imp h₃ (fun _ _ => trivial)
  obtain ⟨-, -, -, hends⟩ := zonk_ends_unless_aliases_lead_back hall (t := .var ⟨0, "a", false⟩)
    (Ty.within_var.mpr (hQ₃ ha))
  exact ⟨Q₃, hall, h₃, hQ₃ ha, rfl, hends h₃⟩

/-- A growing record can get a field, and a variable can be solved by a type, whose alias has that record or
variable for an argument. Both operations succeed, and then zonking does not end. -/
theorem zonk_does_not_end_after_phantom_argument :
    (∃ Q, let s : Store := { solutions := ⟨#[none]⟩
                             records := #[⟨[("f", tagged (.growing 0))], .var ⟨0, "b", false⟩, .empty⟩] }
      History true (fun _ => True) blank (s, Q) ∧ .record 0 ∈ Q ∧
        ∀ n, s.zonkAt n (.growing 0) = .error .diverged) ∧
    ∃ Q, let s : Store := { solutions := ⟨#[some (tagged (.var ⟨0, "a", false⟩))]⟩ }
      History true (fun _ => True) blank (s, Q) ∧ .var ⟨0, "a", false⟩ ∈ Q ∧
        ∀ n, s.zonkAt n (.var ⟨0, "a", false⟩) = .error .diverged := by
  have hL := Ty.hereditary_true
  have htagged : ∀ (arg : Ty) (Q : Set Mention), (∀ r ∈ arg.mentions true, r ∈ Q) →
      Ty.MadeOf true (fun _ => True) Q (tagged arg) := by
    intro arg Q hQ
    refine ⟨fun r hr => hQ r ?_, trivial⟩
    simpa [tagged, Ty.mentions, Ty.mentionsList, Ty.mentionsAlias] using hr
  constructor
  · obtain ⟨Q₁, h₁, hQ₁⟩ := History.next (.start true fun _ => True) (.fresh "b" false)
    have hnone : Ty.FieldsOf true (fun _ => True) Q₁ [] := fun _ h => by cases h
    obtain ⟨Q₂, h₂, hQ₂⟩ := History.next h₁
      (.newRecord hnone (Ty.madeOf_var hL (hQ₁ (Set.mem_insert _ _))))
    have hid : .record 0 ∈ Q₂ := hQ₂ (Set.mem_insert _ _)
    have hfield : .field "f" ∈ Q₂ := hQ₂ (Set.mem_insert_of_mem _ (hQ₁ (Set.mem_insert_of_mem _ rfl)))
    have hmade := htagged (.growing 0) Q₂ (Ty.within_growing.mpr hid)
    have hrun : StoreM.insertField 0 "f" (tagged (.growing 0)) none
        ((({} : Store).fresh "b" false).2.newRecord [] (.var ⟨0, "b", false⟩)).2 = .ok (.ok (), _) := rfl
    obtain ⟨Q₃, h₃, hQ₃⟩ := History.next h₂ (.insertField hid hfield hmade hrun)
    refine ⟨Q₃, h₃, hQ₃ hid, fun n => ?_⟩
    have hw := History.stocked hL h₃ stocked_blank
    refine zonkAt_of_loops hw.exhibits n (fun r hr => hw.owned r (hQ₃ (Ty.within_growing.mpr hid r hr))) ?_
    exact ⟨.record 0, leads_of_holds (holds_growing_iff.mpr rfl), .single ⟨.record 0, by decide, rfl⟩⟩
  · obtain ⟨Q₁, h₁, hQ₁⟩ := History.next (.start true fun _ => True) (.fresh "a" false)
    have ha : .var ⟨0, "a", false⟩ ∈ Q₁ := hQ₁ (Set.mem_insert _ _)
    have hmade := htagged (.var ⟨0, "a", false⟩) Q₁ (Ty.within_var.mpr ha)
    obtain ⟨Q₂, h₂, hQ₂⟩ := History.next h₁ (.unify (Ty.madeOf_var hL ha) hmade rfl)
    refine ⟨Q₂, h₂, hQ₂ ha, fun n => ?_⟩
    have hw := History.stocked hL h₂ stocked_blank
    refine zonkAt_of_loops hw.exhibits n (fun r hr => hw.owned r (hQ₂ (Ty.within_var.mpr ha r hr))) ?_
    exact ⟨.var 0, leads_of_holds (holds_var_iff.mpr rfl), .single ⟨.var ⟨0, "a", false⟩, by decide, rfl⟩⟩

end Store

end ElmInference
