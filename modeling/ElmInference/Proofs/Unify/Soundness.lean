import ElmInference.Proofs.Store.Models
import ElmInference.Proofs.Unify.Safety

/-!
# Unified types say the same

When unification succeeds, the store has made the two types equal: in every environment that models this
store or a later one, both say the same. A success inside of a larger type therefore stays true whatever
is unified after it, and the proof follows the recursion of unification without looking at what its calls
did to the store.

Two things can go wrong. A part about which nothing is known is accepted wherever it stands, and a record
on a base that is no record flattens to a closed one. The statements exclude both: types mention no hole,
and the records in them rest on records or on unsolved variables.
-/

namespace ElmInference

namespace Store

open Relation

variable {s s' : Store}

/-- Whether two types say the same, whatever is learned from now on and whatever the unsolved variables
stand for. -/
def Equates (s : Store) (a e : Ty) : Prop :=
  ∀ (κ : Type) (η : Env κ) (s' : Store), s.Extends s' → s'.Models η → s'.Based a → s'.Based e →
    a.read η = e.read η

theorem Equates.later {a e : Ty} (h : s.Equates a e) (hext : s.Extends s') : s'.Equates a e :=
  fun κ η s'' hext' => h κ η s'' (hext.trans hext')

theorem equates_of_read {a e : Ty}
    (h : ∀ (κ : Type) (η : Env κ) (s' : Store), s.Extends s' → s'.Models η → a.read η = e.read η) :
    s.Equates a e :=
  fun κ η s' hext hmodels _ _ => h κ η s' hext hmodels

theorem Equates.symm {a e : Ty} (h : s.Equates a e) : s.Equates e a :=
  fun κ η s' hext hmodels hbased hbased' => (h κ η s' hext hmodels hbased' hbased).symm

theorem Based.reads {t u : Ty} (h : s.Based t) (hreads : ReflTransGen s.Child t u) : s.Based u :=
  fun w b hw hrests => h w b (hreads.trans hw) hrests

/-- Types that resolve to types that say the same say the same. -/
theorem Equates.resolve {a e a' e' : Ty} (h : s'.Equates a' e') (hext : s.Extends s')
    (ha : s.ResolvesTo a a') (he : s.ResolvesTo e e') : s'.Equates a e := by
  intro κ η s'' hext' hmodels hbased hbased'
  have hearlier := hmodels.earlier (hext.trans hext')
  rw [hearlier.read_resolve ha, hearlier.read_resolve he]
  exact h κ η s'' hext' hmodels (hbased.reads ((hext.trans hext').reads ha.reads))
    (hbased'.reads ((hext.trans hext').reads he.reads))

/-! ### Tuples, unions and functions -/

/-- Lists agree as far as their pairs do. -/
theorem map_take_of_zip {α : Type} {f : Ty → α} {ts us : List Ty}
    (h : ∀ p ∈ ts.zip us, f p.1 = f p.2) :
    (ts.take (min ts.length us.length)).map f = (us.take (min ts.length us.length)).map f := by
  induction ts generalizing us with
  | nil => simp
  | cons t ts ih =>
    cases us with
    | nil => simp
    | cons u us =>
      have hmin : min (t :: ts).length (u :: us).length = min ts.length us.length + 1 := by
        simp only [List.length_cons]
        omega
      have hhead : f t = f u := h (t, u) List.mem_cons_self
      rw [hmin, List.take_succ_cons, List.take_succ_cons, List.map_cons, List.map_cons, hhead,
        ih (fun p hp => h p (List.mem_cons_of_mem _ hp))]

theorem map_of_zip {α : Type} {f : Ty → α} {ts us : List Ty} (hlength : ts.length = us.length)
    (h : ∀ p ∈ ts.zip us, f p.1 = f p.2) : ts.map f = us.map f := by
  have hmap := map_take_of_zip h
  rwa [hlength, Nat.min_self, List.take_length, ← hlength, List.take_length] at hmap

theorem equates_tuple {items items' : List Ty} (hlength : items.length = items'.length)
    (h : ∀ p ∈ items.zip items', s.Equates p.1 p.2) : s.Equates (.tuple items) (.tuple items') := by
  intro κ η s' hext hmodels hbased hbased'
  rw [Ty.read_tuple, Ty.read_tuple, map_of_zip hlength]
  intro p hp
  obtain ⟨ht, hu⟩ := List.of_mem_zip hp
  exact h p hp κ η s' hext hmodels (hbased.child (.item ht)) (hbased'.child (.item hu))

theorem equates_union {m n : Name} {args args' : List Ty} {w w' : Option (AliasUse Ty)}
    (hlength : args.length = args'.length) (h : ∀ p ∈ args.zip args', s.Equates p.1 p.2) :
    s.Equates (.union m n args w) (.union m n args' w') := by
  intro κ η s' hext hmodels hbased hbased'
  rw [Ty.read_union, Ty.read_union, map_of_zip hlength]
  intro p hp
  obtain ⟨ht, hu⟩ := List.of_mem_zip hp
  exact h p hp κ η s' hext hmodels (hbased.child (.arg ht)) (hbased'.child (.arg hu))

theorem reads_function {params : List Ty} {ret u : Ty} {w : Option (AliasUse Ty)}
    (h : s.Child (Ty.function params ret) u) : ReflTransGen s.Child (.arrow params ret w) u := by
  unfold Ty.function at h
  split at h
  · exact .head .ret (.single h)
  · split at h
    · cases h with
      | param hmem =>
        rcases List.mem_append.mp hmem with hmem | hmem
        · exact .single (.param hmem)
        · exact .head .ret (.single (.param hmem))
      | ret => exact .head .ret (.single .ret)
    · cases h with
      | param hmem => exact .single (.param hmem)
      | ret => exact .single .ret

theorem reads_drop {params : List Ty} {ret u : Ty} {w : Option (AliasUse Ty)} {count : Nat}
    (h : s.Child (.arrow (params.drop count) ret none) u) : s.Child (.arrow params ret w) u := by
  cases h with
  | param hmem => exact .param (List.mem_of_mem_drop hmem)
  | ret => exact .ret

/-- What is left of a function rests on what the function rests on. -/
theorem based_dropParams {params : List Ty} {ret : Ty} {w : Option (AliasUse Ty)} (count : Nat)
    (h : s.Based (.arrow params ret w)) : s.Based (Ty.dropParams params ret count) := by
  rw [Ty.dropParams_eq_function]
  have hdrop : s.Based (.arrow (params.drop count) ret none) := by
    intro u b hreads hrests
    rcases ReflTransGen.cases_head hreads with rfl | ⟨c, hchild, hrest⟩
    · cases hrests
    · exact h u b (.head (reads_drop hchild) hrest) hrests
  intro u b hreads hrests
  rcases ReflTransGen.cases_head hreads with rfl | ⟨c, hchild, hrest⟩
  · -- a function rests on nothing, so what is left is the result alone
    unfold Ty.function at hrests
    split at hrests
    · exact (hdrop.child .ret).isBase hrests
    · split at hrests <;> cases hrests
  · exact hdrop u b ((reads_function hchild).trans hrest) hrests

theorem equates_arrow {params params' : List Ty} {ret ret' : Ty} {w w' : Option (AliasUse Ty)}
    (hparams : ∀ p ∈ params.zip params', s.Equates p.1 p.2)
    (hrest : s.Equates (Ty.dropParams params ret (min params.length params'.length))
      (Ty.dropParams params' ret' (min params.length params'.length))) :
    s.Equates (.arrow params ret w) (.arrow params' ret' w') := by
  intro κ η s' hext hmodels hbased hbased'
  rw [Ty.read_dropParams params _ _ (min params.length params'.length),
    Ty.read_dropParams params' _ _ (min params.length params'.length)]
  congr 1
  · apply map_take_of_zip
    intro p hp
    obtain ⟨ht, hu⟩ := List.of_mem_zip hp
    exact hparams p hp κ η s' hext hmodels (hbased.child (.param ht)) (hbased'.child (.param hu))
  · exact hrest κ η s' hext hmodels (based_dropParams _ hbased) (based_dropParams _ hbased')

end Store

namespace StoreM

open Store Relation

variable {κ : Type} {η : Env κ} {s s₁ s' : Store} {Q : Set Mention}

/-! ### Records -/

theorem fieldReadings_missing (f g : Flattened) (name : Name) :
    Ty.fieldReadings η (fieldsMissingIn f g) name =
      if g.field? name = none then Ty.fieldReadings η f.fields name else none := by
  unfold fieldsMissingIn Ty.fieldReadings
  induction f.fields with
  | nil => simp [Assoc.get?]
  | cons field rest ih =>
    obtain ⟨other, t⟩ := field
    by_cases hother : g.field? other = none
    · rw [List.filter_cons_of_pos (by simp [hother]), Assoc.get?, Assoc.get?]
      by_cases heq : other = name
      · subst heq
        simp [hother]
      · simpa only [heq, if_false] using ih
    · rw [List.filter_cons_of_neg (by simpa using hother), ih, Assoc.get?]
      by_cases heq : other = name
      · subst heq
        simp [hother]
      · simp only [heq, if_false]

def SharedAlike (η : Env κ) (f g : Flattened) : Prop :=
  ∀ name a e, f.field? name = some a → g.field? name = some e → a.read η = e.read η

/-- Two records whose common fields agree have the same fields, once each is given what it lacks. -/
theorem fieldReadings_joined {f g : Flattened} (h : SharedAlike η f g) :
    (fun name => (Ty.fieldReadings η f.fields name).or
      (Ty.fieldReadings η (fieldsMissingIn g f) name)) =
    fun name => (Ty.fieldReadings η g.fields name).or
      (Ty.fieldReadings η (fieldsMissingIn f g) name) := by
  funext name
  rw [fieldReadings_missing, fieldReadings_missing]
  have hf : Ty.fieldReadings η f.fields name = (f.field? name).map (Ty.read η) := rfl
  have hg : Ty.fieldReadings η g.fields name = (g.field? name).map (Ty.read η) := rfl
  rw [hf, hg]
  cases ha : f.field? name with
  | none =>
    cases he : g.field? name with
    | none => rfl
    | some e => simp
  | some a =>
    cases he : g.field? name with
    | none => simp
    | some e => simp [h name a e ha he]

theorem fieldReadings_nil_or (fields : Name → Option (Reading κ)) :
    (fun name => (fields name).or (Ty.fieldReadings η [] name)) = fields := by
  funext name
  simp [Ty.fieldReadings, Assoc.get?]

def Says (η : Env κ) (f : Flattened) : Reading κ :=
  .extend (Ty.fieldReadings η f.fields) (f.tail.toTy.read η)

/-- Records with the same fields say the same when their ends do. -/
theorem says_of_tails {f g : Flattened} (h : SharedAlike η f g) (hf : fieldsMissingIn f g = [])
    (hg : fieldsMissingIn g f = []) (htail : f.tail.toTy.read η = g.tail.toTy.read η) :
    Says η f = Says η g := by
  have hjoined := fieldReadings_joined h
  rw [hf, hg, fieldReadings_nil_or, fieldReadings_nil_or] at hjoined
  rw [Says, Says, hjoined, htail]

/-- A record whose end is what the other one has beyond it says what the other one says. -/
theorem says_of_grown {f g : Flattened} (h : SharedAlike η f g) (hf : fieldsMissingIn f g = [])
    (htail : f.tail.toTy.read η = (Ty.extension g.tail.toTy (fieldsMissingIn g f)).read η) :
    Says η f = Says η g := by
  have hjoined := fieldReadings_joined h
  rw [hf, fieldReadings_nil_or] at hjoined
  rw [Says, htail, Ty.read_extension, Reading.extend_extend, hjoined, Says]

theorem SharedAlike.symm {f g : Flattened} (h : SharedAlike η f g) : SharedAlike η g f :=
  fun name a e ha he => (h name e a he ha).symm

/-- Two records that grew by each other's fields, and on which the same now follows, say the same. -/
theorem says_of_grownBoth {f g : Flattened} {rest : Ty} (h : SharedAlike η f g)
    (hf : f.tail.toTy.read η = (Ty.extension rest (fieldsMissingIn g f)).read η)
    (hg : g.tail.toTy.read η = (Ty.extension rest (fieldsMissingIn f g)).read η) :
    Says η f = Says η g := by
  rw [Says, Says, hf, hg, Ty.read_extension, Ty.read_extension, Reading.extend_extend,
    Reading.extend_extend, fieldReadings_joined h]

theorem read_of_solved {v : TyVar} {t : Ty} (hlt : v.id < s.size)
    (hext : (s.solved v.id t).Extends s') (hmodels : s'.Models η) : (Ty.var v).read η = t.read η :=
  hmodels.solution _ _ (hext.solution _ _ (solution?_solved_self t hlt))

/-- A record that was grown without an error ends in what it was grown by. -/
theorem Grown.read {tail : Tail} {fields : List (Name × Ty)} {rest : Ty}
    (h : Grown s tail fields rest (.ok (.ok (), s₁))) (hknown : tail ≠ .unknown)
    (hext : s₁.Extends s') (hmodels : s'.Models η) :
    tail.toTy.read η = (Ty.extension rest fields).read η := by
  cases h with
  | unknown htail => exact absurd htail hknown
  | solved htail _ hun _ =>
    subst htail
    exact read_of_solved hun.1 hext hmodels

theorem tail_ne_unknown {f : Flattened} (hhole : .hole ∉ Q) (hf : f.Within (· ∈ Q)) :
    f.tail ≠ .unknown := by
  intro htail
  exact hhole (hf.tail .hole (by simp [htail, Tail.toTy, Ty.mentions]))

/-- Success at the ends of two records whose common fields agree makes the records equal. -/
theorem says_of_ends {R : Behaviour} {f g : Flattened} (h : Ends R s f g (.ok (.ok (), s₁)))
    (htidy : Tidy (s, Q)) (hhole : .hole ∉ Q) (hf : f.Within (· ∈ Q)) (hg : g.Within (· ∈ Q))
    (hshared : SharedAlike η f g) (hext : s₁.Extends s') (hmodels : s'.Models η)
    (hcall : ∀ v w, R s (.var v) (.var w) (.ok (.ok (), s₁)) → f.tail = .opened v →
      g.tail = .opened w → (Ty.var v).read η = (Ty.var w).read η) : Says η f = Says η g := by
  have hft := tail_ne_unknown hhole hf
  have hgt := tail_ne_unknown hhole hg
  cases h with
  | settled hmissing hmissing' htails =>
    rcases htails with htail | htail | ⟨hfc, hgc⟩
    · exact absurd htail hft
    · exact absurd htail hgt
    · exact says_of_tails hshared hmissing hmissing' (by rw [hfc, hgc])
  | tails hmissing hmissing' hfv hgw hrun =>
    refine says_of_tails hshared hmissing hmissing' ?_
    rw [hfv, hgw]
    exact hcall _ _ hrun hfv hgw
  | @close v _ hmissing hmissing' _ htails hrun =>
    have hclosed : ∀ v : TyVar, v.id < s.size → solve v .emptyRecord s = .ok (.ok (), s₁) →
        (Ty.var v).read η = Ty.emptyRecord.read η := by
      intro v hlt hrun
      rcases unsolved_or_some hlt with hun | ⟨u, hsol⟩
      · rw [run_solve _ hun] at hrun
        cases hrun
        exact read_of_solved hlt hext hmodels
      · rw [run_solve_some _ hsol] at hrun
        cases hrun
    rcases htails with ⟨hfv, hgc⟩ | ⟨hfc, hgv⟩
    · refine says_of_tails hshared hmissing hmissing' ?_
      rw [hfv, hgc]
      exact hclosed v (tail_lt htidy hf.tail v hfv) hrun
    · refine says_of_tails hshared hmissing hmissing' ?_
      rw [hfc, hgv]
      exact (hclosed v (tail_lt htidy hg.tail v hgv) hrun).symm
  | growLeft hmissing _ hrun =>
    have hgrown := grown_grow htidy.loopfree htidy.closed (tail_lt htidy hf.tail)
      (htidy.owns (Ty.within_extension (within_fieldsMissingIn hg f) hg.tail))
    rw [hrun] at hgrown
    exact says_of_grown hshared hmissing (hgrown.read hft hext hmodels)
  | growRight _ hmissing' hrun =>
    have hgrown := grown_grow htidy.loopfree htidy.closed (tail_lt htidy hg.tail)
      (htidy.owns (Ty.within_extension (within_fieldsMissingIn hf g) hf.tail))
    rw [hrun] at hgrown
    exact (says_of_grown hshared.symm hmissing' (hgrown.read hgt hext hmodels)).symm
  | growBoth _ _ hrun =>
    have hboth := grown_growBoth htidy hf.tail hg.tail (within_fieldsMissingIn hf g)
      (within_fieldsMissingIn hg f)
    rw [hrun] at hboth
    cases hboth with
    | second _ hfirst hsecond =>
      have hmove : Move (s, Q) _ := .fresh "a" false
      have hmoves := hsecond.moves (fun r hr => hmove.subset (hg.tail r hr))
        (within_shared s.size (within_fieldsMissingIn hf g))
      exact says_of_grownBoth hshared (hfirst.read hft (hmoves.extends.trans hext) hmodels)
        (hsecond.read hgt hext hmodels)

/-! ### Runs -/

def Sound : Behaviour := fun s a e res =>
  ∀ Q, Tidy (s, Q) → .hole ∉ Q → a.Within Q → e.Within Q →
    ∀ s', res = .ok (.ok (), s') → s'.Equates a e

/-- What the calls of a level are known to do. -/
def SafeSound : Behaviour := fun s a e res =>
  Safe (· = .diverged) s a e res ∧ Sound s a e res

theorem not_hole_of_moves {w w' : World} (h : Moves w w') (hhole : .hole ∉ w.2) : .hole ∉ w'.2 := by
  induction h with
  | refl => exact hhole
  | tail _ hmove ih =>
    cases hmove with
    | fresh name rigid => simpa using ih
    | solve _ _ _ _ _ => exact ih
    | copy _ => simpa using ih

theorem andThen_ok {o o' : Outcome} (h : o.andThen o' = .ok ()) : o = .ok () ∧ o' = .ok () := by
  rcases o with err | ⟨⟩
  · cases h
  · exact ⟨rfl, h⟩

theorem nested_ok {o : Outcome} (h : o.nested = .ok ()) : o = .ok () := by
  rcases o with err | ⟨⟩
  · cases h
  · rfl

theorem equates_pairs {pairs : List (Ty × Ty)} {res : Ending Outcome}
    (h : Pairs SafeSound s pairs res) (hres : res = .ok (.ok (), s')) (htidy : Tidy (s, Q))
    (hhole : .hole ∉ Q) (hpairs : ∀ p ∈ pairs, p.1.Within Q ∧ p.2.Within Q) :
    ∀ p ∈ pairs, s'.Equates p.1 p.2 := by
  induction h generalizing Q s' with
  | nil => intro p hp; cases hp
  | fault _ => cases hres
  | later _ _ _ => cases hres
  | @cons s s₁ s₂ a e rest o o' hfirst hothers ih =>
    obtain ⟨hboth, rfl⟩ := Prod.mk.inj (Except.ok.inj hres)
    obtain ⟨ho, rfl⟩ := andThen_ok hboth
    obtain rfl := nested_ok ho
    obtain ⟨ha, he⟩ := hpairs _ List.mem_cons_self
    obtain ⟨Q₁, hmoves⟩ := hfirst.1 Q htidy ha he
    have hrest : ∀ p ∈ rest, p.1.Within Q₁ ∧ p.2.Within Q₁ := by
      intro p hp
      obtain ⟨ha, he⟩ := hpairs p (List.mem_cons_of_mem _ hp)
      exact ⟨ha.mono hmoves.subset, he.mono hmoves.subset⟩
    obtain ⟨Q₂, hmoves'⟩ := lands_pairs (hothers.mono (fun _ _ _ _ hrun => hrun.1))
      (hmoves.tidy htidy) hrest
    intro p hp
    rcases List.mem_cons.mp hp with rfl | hp
    · exact (hfirst.2 Q htidy hhole ha he s₁ rfl).later hmoves'.extends
    · exact ih rfl (hmoves.tidy htidy) (not_hole_of_moves hmoves hhole) hrest p hp

theorem equates_fields {fields : List (Name × Ty × Ty)} (h : Fields SafeSound s fields (.ok (([], false), s')))
    (htidy : Tidy (s, Q)) (hhole : .hole ∉ Q)
    (hfields : ∀ p ∈ fields.map Prod.snd, p.1.Within Q ∧ p.2.Within Q) :
    ∀ p ∈ fields.map Prod.snd, s'.Equates p.1 p.2 := by
  obtain ⟨o, hpairs, hok⟩ := h.pairs_of_ok
  obtain rfl := hok rfl
  exact equates_pairs hpairs rfl htidy hhole hfields

theorem isBase_of_shape {t : Ty} (h : shape? t = some .record) : s.IsBase t := by
  cases t with
  | record fields base w refs =>
    exact ⟨_, .other (fun v hv => by cases hv), .inl ⟨_, _, _, _, rfl⟩⟩
  | growing id => exact ⟨_, .other (fun v hv => by cases hv), .inr (.inl ⟨_, rfl⟩)⟩
  | _ => cases h

/-- A record says what it says when it is flattened. -/
theorem read_flatten {t : Ty} {f : Flattened} (ht : shape? t = some .record)
    (hflat : s.flatten t = .ok f) (hown : s.Owns t) (hext : s.Extends s') (hmodels : s'.Models η)
    (hbased : s'.Based t) : t.read η = Says η f := by
  have hread := (flattensTo_of_flatten hflat).read hext hmodels hbased (isBase_of_shape ht)
  rw [Says, ← hread]
  cases t with
  | record fields base w refs =>
    rw [Ty.read_record, Reading.extend_extend]
    rfl
  | growing id =>
    obtain ⟨g, hrec⟩ := exists_record hown.growing_lt
    rw [Ty.read_growing, hmodels.record _ _ (hext.record _ _ hrec), GrowingRecord.read, Reading.extend_extend]
    rfl
  | _ => cases ht

theorem mem_commonFields_of_field? {f g : Flattened} {name : Name} {a e : Ty}
    (ha : f.field? name = some a) (he : g.field? name = some e) :
    (a, e) ∈ (commonFields f g).map Prod.snd := by
  refine List.mem_map.mpr ⟨(name, a, e), ?_, rfl⟩
  exact List.mem_filterMap.mpr ⟨(name, a), Assoc.mem_of_get? ha, by simp [he]⟩

theorem reads_field {t : Ty} {above : List (Name × Ty)} {f : Flattened} (h : s.FlattensTo t above f)
    {field : Name × Ty} (hfield : field ∈ f.fields) :
    field ∈ above ∨ ReflTransGen s.Child t field.2 := by
  induction h with
  | closed =>
    rcases Ty.mem_addFields hfield with hmem | hmem
    · exact .inl hmem
    · exact .inr (.single (.field hmem))
  | base _ ih =>
    rcases ih hfield with hmem | hreads
    · rcases Ty.mem_addFields hmem with hmem | hmem
      · exact .inl hmem
      · exact .inr (.single (.field hmem))
    · exact .inr (.head .base hreads)
  | growing hrec _ ih =>
    rcases ih hfield with hmem | hreads
    · rcases Ty.mem_addFields hmem with hmem | hmem
      · exact .inl hmem
      · exact .inr (.single (.growingField hrec hmem))
    · exact .inr (.head (.growingBase hrec) hreads)
  | unsolved _ => exact .inl hfield
  | solved hsol _ ih => exact (ih hfield).imp_right (fun hreads => .head (.solution hsol) hreads)
  | unknown => exact .inl hfield
  | baseless _ => exact .inl hfield

theorem based_field {t u : Ty} {f : Flattened} {name : Name} (hflat : s.flatten t = .ok f)
    (hfield : f.field? name = some u) (hext : s.Extends s') (hbased : s'.Based t) : s'.Based u := by
  rcases reads_field (flattensTo_of_flatten hflat) (Assoc.mem_of_get? hfield) with hmem | hreads
  · cases hmem
  · exact hbased.reads (hext.reads hreads)

theorem based_var (hext : s.Extends s') {t : Ty} {above : List (Name × Ty)} {f : Flattened} {v : TyVar}
    (h : s.FlattensTo t above f) (htail : f.tail = .opened v) (hbased : s'.Based t) :
    s'.Based (.var v) := by
  induction h with
  | closed | unknown | baseless => cases htail
  | base _ ih => exact ih htail (hbased.child .base)
  | growing hrec _ ih => exact ih htail (hbased.child (.growingBase (hext.record _ _ hrec)))
  | unsolved _ =>
    cases htail
    exact hbased
  | solved hsol _ ih => exact ih htail (hbased.child (.solution (hext.solution _ _ hsol)))

theorem equates_records {a e : Ty} (h : Records SafeSound s a e (.ok (.ok (), s')))
    (ha : shape? a = some .record) (he : shape? e = some .record) (htidy : Tidy (s, Q))
    (hhole : .hole ∉ Q) (haQ : a.Within Q) (heQ : e.Within Q) : s'.Equates a e := by
  cases h with
  | @agree f g s₁ _ hfa hfe hfields _ _ hends =>
    have hf := within_flatten htidy haQ hfa
    have hg := within_flatten htidy heQ hfe
    have hcommon := within_commonFields hf hg
    obtain ⟨Q₁, hmoves⟩ := lands_fields (hfields.mono (fun _ _ _ _ hrun => hrun.1)) htidy hcommon
    have htidy₁ := hmoves.tidy htidy
    have hhole₁ := not_hole_of_moves hmoves hhole
    have hf₁ := Flattened.Within.mono hf hmoves.subset
    have hg₁ := Flattened.Within.mono hg hmoves.subset
    obtain ⟨Q₂, hmoves'⟩ := lands_ends (hends.mono (fun _ _ _ _ hrun => hrun.1)) htidy₁ hf₁ hg₁
    have hequates := equates_fields hfields htidy hhole hcommon
    intro κ η s'' hext hmodels hbased hbased'
    have hext₁ : s₁.Extends s'' := hmoves'.extends.trans hext
    have hext₀ : s.Extends s'' := hmoves.extends.trans hext₁
    rw [read_flatten ha hfa (htidy.owns haQ) hext₀ hmodels hbased,
      read_flatten he hfe (htidy.owns heQ) hext₀ hmodels hbased']
    have hshared : SharedAlike η f g := fun name t u ht hu =>
      hequates _ (mem_commonFields_of_field? ht hu) κ η s'' hext₁ hmodels
        (based_field hfa ht hext₀ hbased) (based_field hfe hu hext₀ hbased')
    -- both sides are read in the last store, so it does not matter that the ends were found in the first
    refine says_of_ends hends htidy₁ hhole₁ hf₁ hg₁ hshared hext hmodels
      (fun v w hrun hfv hgw => ?_)
    exact hrun.2 Q₁ htidy₁ hhole₁ (within_opened hf₁ hfv) (within_opened hg₁ hgw) s' rfl κ η s''
      hext hmodels (based_var hext₀ (flattensTo_of_flatten hfa) hfv hbased)
      (based_var hext₀ (flattensTo_of_flatten hfe) hgw hbased')

/-! ### All types -/

theorem Joins.equates {v w : TyVar} (h : s.Joins v w (.ok ()) s') (hv : s.Unsolved v.id)
    (hw : s.Unsolved w.id) : s'.Equates (.var v) (.var w) := by
  refine equates_of_read (fun κ η s'' hext hmodels => ?_)
  cases h with
  | left _ _ => exact read_of_solved hv.1 hext hmodels
  | right _ _ => exact (read_of_solved hw.1 hext hmodels).symm
  | @both c d both _ _ _ _ _ =>
    have hlater := read_of_solved (v := w) (by simpa using hw.extended.1) hext hmodels
    rw [hlater]
    by_cases heq : v.id = w.id
    · have hsame : (Ty.var v).read η = (Ty.var w).read η := by rw [Ty.read_var, Ty.read_var, heq]
      rw [hsame, hlater]
    · -- the second solution leaves the first one in place
      refine hmodels.solution _ _ (hext.solution _ _ ?_)
      rw [solution?_solved_of_ne _ _ heq, solution?_solved_self _ hv.extended.1]

theorem Bound.equates {v : TyVar} {t : Ty} (h : Bound s v t (.ok ()) s') :
    s'.Equates (.var v) t := by
  refine equates_of_read (fun κ η s'' hext hmodels => ?_)
  cases h with
  | solved _ _ hun _ _ => exact read_of_solved hun.1 hext hmodels
  | @copied s₁ fields base w refs hrecord _ _ hun _ =>
    have hcopy := read_of_solved (s := s₁.recorded { fields, base, refs }) hun.1 hext hmodels
    have hrec : s''.records[s₁.records.size]? = some { fields, base, refs } :=
      hext.record _ _ (by simpa using record?_recorded_self s₁ { fields, base, refs })
    rw [hcopy, hrecord, Ty.read_growing, hmodels.record _ _ hrec, GrowingRecord.read, Ty.read_record]
    rfl

theorem hole_of_accepts {t : Ty} (h : acceptsAll t = true) (ht : t.Within Q) : .hole ∈ Q := by
  cases t with
  | unknown => exact ht .hole (by simp [Ty.mentions])
  | inProgress => exact ht .hole (by simp [Ty.mentions])
  | _ => cases h

theorem equates_resolved {a e : Ty} (h : Resolved SafeSound s a e (.ok (.ok (), s')))
    (htidy : Tidy (s, Q)) (hhole : .hole ∉ Q) (ha : a.Within Q) (he : e.Within Q)
    (hleft : ∀ v, a = .var v → s.Unsolved v.id) (hright : ∀ v, e = .var v → s.Unsolved v.id) :
    s'.Equates a e := by
  generalize hres : (Except.ok (Except.ok (), s') : Ending Outcome) = res at h
  cases h with
  | accepted haccepts =>
    rcases haccepts with hacc | hacc
    · exact absurd (hole_of_accepts hacc ha) hhole
    · exact absurd (hole_of_accepts hacc he) hhole
  | same hid =>
    cases hres
    refine equates_of_read (fun κ η s'' _ _ => ?_)
    rw [Ty.read_var, Ty.read_var, hid]
  | @vars v w _ hne hrun =>
    obtain ⟨o, s₁, hrun', hjoins⟩ := joins_unifyVars (hleft v rfl) (hright w rfl) hne
    rw [hrun, ← hres] at hrun'
    cases hrun'
    exact Joins.equates hjoins (hleft v rfl) (hright w rfl)
  | @varLeft v t _ _ _ hrun =>
    obtain ⟨o, s₁, hrun', hbound⟩ := bound_unifyVar htidy (hleft v rfl) he
    rw [hrun, ← hres] at hrun'
    cases hrun'
    exact hbound.equates
  | @varRight v t _ _ _ hrun =>
    obtain ⟨o, s₁, hrun', hbound⟩ := bound_unifyVar htidy (hright v rfl) ha
    rw [hrun, ← hres] at hrun'
    cases hrun'
    exact hbound.equates.symm
  | unit => exact equates_of_read (fun _ _ _ _ _ => rfl)
  | tuple hlength hpairs =>
    exact equates_tuple hlength (equates_pairs hpairs hres.symm htidy hhole
      (within_zip (Ty.within_tuple.mp ha) (Ty.within_tuple.mp he)))
  | union hlength hpairs =>
    exact equates_union hlength (equates_pairs hpairs hres.symm htidy hhole
      (within_zip (Ty.within_union.mp ha) (Ty.within_union.mp he)))
  | params _ => cases hres
  | rest _ _ => cases hres
  | @arrow params params' ret ret' w w' o o' s₁ s₂ hpairs hrest =>
    obtain ⟨hboth, rfl⟩ := Prod.mk.inj (Except.ok.inj hres)
    obtain ⟨rfl, ho'⟩ := andThen_ok hboth.symm
    obtain rfl := nested_ok ho'
    have hwithin := within_zip (Ty.within_arrow.mp ha).1 (Ty.within_arrow.mp he).1
    obtain ⟨Q₁, hmoves⟩ := lands_pairs (hpairs.mono (fun _ _ _ _ hrun => hrun.1)) htidy hwithin
    have htidy₁ := hmoves.tidy htidy
    have ha₁ := (Ty.within_dropParams (min params.length params'.length) ha).mono hmoves.subset
    have he₁ := (Ty.within_dropParams (min params.length params'.length) he).mono hmoves.subset
    obtain ⟨Q₂, hmoves'⟩ := hrest.1 Q₁ htidy₁ ha₁ he₁
    refine equates_arrow (fun p hp => ?_) ?_
    · exact (equates_pairs hpairs rfl htidy hhole hwithin p hp).later hmoves'.extends
    · exact hrest.2 Q₁ htidy₁ (not_hole_of_moves hmoves hhole) ha₁ he₁ s' rfl
  | record hshape hshape' hrecords =>
    subst hres
    exact equates_records hrecords hshape hshape' htidy hhole ha he
  | clash _ _ _ => cases hres

theorem sound_unified {a e : Ty} {res : Ending Outcome} (h : Unified SafeSound s a e res) :
    SafeSound s a e res := by
  refine ⟨safe_unified (h.mono (fun _ _ _ _ hrun => hrun.1)), ?_⟩
  intro Q htidy hhole ha he s' hres
  subst hres
  have hlands := safe_unified (h.mono (fun _ _ _ _ hrun => hrun.1)) Q htidy ha he
  obtain ⟨Q', hmoves⟩ := hlands
  cases h with
  | resolved hra hre hresolved =>
    refine Equates.resolve ?_ hmoves.extends (resolvesTo_of_resolve hra) (resolvesTo_of_resolve hre)
    refine equates_resolved hresolved htidy hhole (within_resolve htidy ha hra)
      (within_resolve htidy he hre) (fun v heq => ?_) (fun v heq => ?_)
    · exact (resolvesTo_of_resolve (heq ▸ hra)).unsolved_of_var
    · exact (resolvesTo_of_resolve (heq ▸ hre)).unsolved_of_var

/-- When unification succeeds, both types say the same from then on. -/
theorem sound_unify (s : Store) (a e : Ty) : Sound s a e (unify a e s) := by
  have hstop : ∀ s a e, SafeSound s a e (.error .diverged) := by
    intro s a e
    refine ⟨fun _ _ _ _ => .inl rfl, ?_⟩
    intro Q _ _ _ _ s' hres
    cases hres
  exact (unify_induct hstop (fun _ _ _ _ => sound_unified) s a e).2

end StoreM

end ElmInference
