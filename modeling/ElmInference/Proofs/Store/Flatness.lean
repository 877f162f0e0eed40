import ElmInference.Store.Unify
import ElmInference.Proofs.Store.Facts
import ElmInference.Proofs.Store.Fields
import ElmInference.Proofs.Types.Building

/-!
# Records, flattened and written out

A record may be spread over a chain of bases. `flatten` goes down the chain and collects the fields on its way,
`zonk` writes out the innermost base first and merges it on its way back. Both come to the same record: the same
fields in the same order, where a field that is written above hides the ones of its name below, and the same end.
-/

namespace ElmInference

open Relation

/-! ### The first field of each name -/

namespace Ty

/-- The fields of which none with the same name comes before. -/
def distinctFields (fields : List (Name × Ty)) : List (Name × Ty) :=
  fields.eraseDupsBy (fun field other => field.1 == other.1)

theorem addFields_nil_left (fields : List (Name × Ty)) : addFields [] fields = distinctFields fields := by
  suffices h : ∀ acc, addFields acc.reverse fields =
      List.eraseDupsBy.loop (fun field other => field.1 == other.1) fields acc from h []
  induction fields with
  | nil => exact fun _ => rfl
  | cons field rest ih =>
    intro acc
    have hsame : acc.reverse.any (·.1 == field.1) = acc.any (fun other => field.1 == other.1) := by
      rw [List.any_reverse]
      exact congrArg acc.any (funext fun other => Bool.beq_comm)
    rw [addFields_cons, hsame, List.eraseDupsBy.loop]
    cases acc.any (fun other => field.1 == other.1) with
    | true => exact ih acc
    | false => simpa using ih (field :: acc)

theorem get?_distinctFields (fields : List (Name × Ty)) (name : Name) :
    Assoc.get? (distinctFields fields) name = Assoc.get? fields name := by
  rw [← addFields_nil_left, get?_addFields]
  rfl

/-! ### The parts of a record that was written out -/

def ownFields (t : Ty) : List (Name × Ty) :=
  t.fields?.getD []

/-- What comes after the fields of a type. A type without fields is an end itself. -/
def rest? : Ty → Option Ty
  | .record _ base _ _ => base
  | t => some t

theorem ownFields_writtenAs? (t : Ty) (w : Option (AliasUse Ty)) : (t.writtenAs? w).ownFields = t.ownFields := by
  cases w with
  | none => rfl
  | some use => cases t <;> rfl

theorem ownFields_recordWith (fields : List (Name × Ty)) (base : Option Ty) (refs : FieldReferences) :
    (recordWith fields base refs).ownFields = addFields fields (base.elim [] ownFields) := by
  cases base with
  | none => rfl
  | some b => cases b <;> rfl

theorem rest?_recordWith (fields : List (Name × Ty)) (base : Option Ty) (refs : FieldReferences)
    (w : Option (AliasUse Ty)) : ((recordWith fields base refs).writtenAs? w).rest? = base.bind rest? := by
  cases base with
  | none => cases w <;> rfl
  | some b => cases b <;> cases w <;> rfl

end Ty

/-- What may come after the fields of a record that was written out, if this is what it ends in. Nothing does if the
record is known to be complete, and also if a growing record has an unknown base. -/
def Tail.Leaves : Tail → Option Ty → Prop
  | .closed, rest => ∀ b, rest = some b → Store.isBaseless b = true
  | .opened v, rest => rest = some (.var v)
  | .unknown, rest => rest = none ∨ rest = some .unknown

theorem Tail.Leaves.eq_var_iff {tail : Tail} {rest : Option Ty} (h : tail.Leaves rest) (v : TyVar) :
    rest = some (.var v) ↔ tail = .opened v := by
  cases tail with
  | closed =>
    refine ⟨fun hrest => ?_, fun htail => by cases htail⟩
    cases h _ hrest
  | opened w =>
    cases h
    simp
  | unknown => rcases h with rfl | rfl <;> simp

namespace Store

variable {s : Store} {t u z : Ty} {above zabove fields : List (Name × Ty)} {f : Flattened} {n m : Nat}

theorem isBaseless_parts (h : isBaseless z = true) : z.ownFields = [] ∧ z.rest? = some z := by
  cases z <;> first | exact ⟨rfl, rfl⟩ | cases h

theorem ownFields_writtenOut (fields : List (Name × Ty)) (base : Ty) (refs : FieldReferences) :
    (writtenOut fields base refs).ownFields = Ty.addFields fields base.ownFields := by
  unfold writtenOut
  split <;> rw [Ty.ownFields_recordWith] <;> rfl

theorem rest?_writtenOut {base : Ty} (h : base ≠ .unknown) (fields : List (Name × Ty)) (refs : FieldReferences) :
    (writtenOut fields base refs).rest? = base.rest? := by
  rw [writtenOut_of_ne h]
  exact Ty.rest?_recordWith fields (some base) refs none

theorem ne_nil_of_zonkList {follow : Ty → Except Fault Ty} {ts ys : List Ty} (hne : ts ≠ []) (h : s.zonkList follow ts = .ok ys) :
    ys ≠ [] := by
  rintro rfl
  exact hne (List.forall₂_nil_right_iff.mp (zonkList_iff.mp h))

/-! ### One record -/

theorem leaves_writtenOut {tail : Tail} {base : Ty} (h : tail.Leaves base.rest?) (fields : List (Name × Ty))
    (refs : FieldReferences) : tail.Leaves (writtenOut fields base refs).rest? := by
  by_cases hbase : base = .unknown
  · subst hbase
    cases tail with
    | closed => cases h _ rfl
    | opened v => cases h
    | unknown => exact .inl rfl
  · rwa [rest?_writtenOut hbase]

theorem ZonkedFields.addFields {follow : Ty → Except Fault Ty} {more zmore : List (Name × Ty)}
    (h : ZonkedFields follow fields zabove) (hmore : ZonkedFields follow more zmore) :
    ZonkedFields follow (Ty.addFields fields more) (Ty.addFields zabove zmore) := by
  induction hmore generalizing fields zabove with
  | nil => exact h
  | @cons field zonked rest zrest hfirst _ ih =>
    rw [Ty.addFields_cons, Ty.addFields_cons]
    refine ih ?_
    have hsame : zabove.any (·.1 == zonked.1) = fields.any (·.1 == field.1) := by
      rw [hfirst.1]
      clear ih
      induction h with
      | nil => rfl
      | cons hhead _ ih => simp only [List.any_cons, hhead.1, ih]
    rw [hsame]
    split
    · exact h
    · exact List.rel_append h (.cons hfirst .nil)

theorem ZonkedFields.mono {more : List (Name × Ty)} (hnm : n ≤ m) (h : ZonkedFields (s.zonkAt n) fields more) :
    ZonkedFields (s.zonkAt m) fields more :=
  h.imp fun _ _ hfield => ⟨hfield.1, zonkAt_mono hnm hfield.2⟩

/-- No function without parameters stands on a chain of bases. `Ty.function` builds none: without parameters, a
function is its result. -/
def Ended (s : Store) (t : Ty) : Prop :=
  ∀ ret w, ¬ ReflTransGen s.Chain t (.arrow [] ret w)

theorem Ended.next (h : s.Ended t) (hchain : s.Chain t u) : s.Ended u :=
  fun ret w hreads => h ret w (.head hchain hreads)

/-- The chain of an open record ends in a variable. -/
theorem ended_of_endsAt {id : VarId} (h : s.EndsAt t id) : s.Ended t := by
  intro ret w hchain
  obtain ⟨-, v, -, hrest⟩ := h.of_chain hchain
  obtain ⟨u, hstep, -⟩ := hrest.cases_head.resolve_left (by simp)
  cases hstep

theorem isBaseless_function {params : List Ty} (h : params ≠ []) (ret : Ty) (w : Option (AliasUse Ty)) :
    isBaseless ((Ty.function params ret).writtenAs? w) = true := by
  obtain ⟨all, last, heq⟩ := Ty.exists_arrow_function h ret
  rw [heq]
  cases w <;> rfl

theorem isBaseless_zonkAt (hended : s.Ended t) (ht : isBaseless t = true) (hz : s.zonkAt n t = .ok z) :
    isBaseless z = true := by
  rw [zonkAt_eq] at hz
  cases t with
  | unit | inProgress =>
    cases hz
    rfl
  | union module name args w =>
    rw [zonkWith] at hz
    obtain ⟨ys, -, hz⟩ := exists_of_bind_ok hz
    obtain ⟨w', -, hz⟩ := exists_of_bind_ok hz
    cases hz
    rfl
  | tuple items =>
    rw [zonkWith] at hz
    obtain ⟨ys, -, hz⟩ := exists_of_bind_ok hz
    cases hz
    rfl
  | arrow params ret w =>
    obtain ⟨ys, r, w', hys, -, -, rfl⟩ := exists_of_zonkWith_arrow hz
    have hne : params ≠ [] := fun hnil => hended ret w (hnil ▸ .refl)
    exact isBaseless_function (ne_nil_of_zonkList hne hys) r w'
  | record | growing | var | unknown => cases ht

/-- The fields that flattening collects below some others are the ones that stand in the zonked type, and what it
comes to is what comes after them. -/
theorem FlattensTo.zonkAt (hended : s.Ended t) (h : s.FlattensTo t above f)
    (habove : ZonkedFields (s.zonkAt m) above zabove) (hnm : n ≤ m) (hz : s.zonkAt n t = .ok z) :
    ZonkedFields (s.zonkAt m) f.fields (Ty.addFields zabove z.ownFields) ∧ f.tail.Leaves z.rest? := by
  induction h generalizing zabove n z with
  | @closed fields above w refs =>
    rw [zonkAt_eq] at hz
    obtain ⟨zs, b, w', hzs, hb, -, rfl⟩ := exists_of_zonkWith_record hz
    cases hb
    have hfields := zonkFields_iff.mp hzs
    rw [← zonkAt_eq] at hfields
    rw [Ty.ownFields_writtenAs?, Ty.rest?_recordWith]
    exact ⟨habove.addFields (hfields.mono hnm), fun b hb => by cases hb⟩
  | @base fields above b w refs f hrest ih =>
    rw [zonkAt_eq] at hz
    obtain ⟨zs, b', w', hzs, hb, -, rfl⟩ := exists_of_zonkWith_record hz
    obtain ⟨zb, hzb, rfl⟩ := exists_of_zonkBase hb
    have hfields := zonkFields_iff.mp hzs
    rw [← zonkAt_eq] at hfields hzb
    rw [Ty.ownFields_writtenAs?, Ty.ownFields_recordWith, Ty.rest?_recordWith, Ty.addFields_addFields]
    exact ih (hended.next .base) (habove.addFields (hfields.mono hnm)) hnm hzb
  | @growing id g above f hrec hrest ih =>
    obtain ⟨n, zs, zb, rfl, hzs, hzb, rfl⟩ := exists_of_zonkAt_growing hrec hz
    have hle : n ≤ m := Nat.le_of_succ_le hnm
    obtain ⟨hall, hleaves⟩ := ih (hended.next (.growing hrec)) (habove.addFields (hzs.mono hle)) hle hzb
    rw [ownFields_writtenOut, Ty.addFields_addFields]
    exact ⟨hall, leaves_writtenOut hleaves zs g.refs⟩
  | unsolved hun =>
    rw [zonkAt_eq, zonkWith_unsolved hun] at hz
    cases hz
    exact ⟨habove, rfl⟩
  | @solved v t above f hsol hrest ih =>
    obtain ⟨n, rfl, hnext⟩ := exists_of_zonkAt_solved hsol hz
    exact ih (hended.next (.solution hsol)) habove (Nat.le_of_succ_le hnm) hnext
  | unknown =>
    rw [zonkAt_eq] at hz
    cases hz
    exact ⟨habove, .inr rfl⟩
  | baseless ht =>
    have hz := isBaseless_zonkAt hended ht hz
    rw [(isBaseless_parts hz).1, (isBaseless_parts hz).2]
    refine ⟨habove, fun b hb => ?_⟩
    cases hb
    exact hz

/-! ### The chain of a record -/

theorem FlattensTo.next (h : s.FlattensTo t above f) (hchain : s.Chain t u) : ∃ more, s.FlattensTo u more f := by
  cases hchain with
  | solution hsol =>
    cases h with
    | unsolved hun => exact absurd hun (not_unsolved_of_some hsol)
    | solved hsol' h =>
      cases hsol.symm.trans hsol'
      exact ⟨_, h⟩
    | baseless ht => cases ht
  | base =>
    cases h with
    | base h => exact ⟨_, h⟩
    | baseless ht => cases ht
  | growing hrec =>
    cases h with
    | growing hrec' h =>
      cases hrec.symm.trans hrec'
      exact ⟨_, h⟩
    | baseless ht => cases ht

/-- A chain that comes to a record without a base is closed. -/
theorem FlattensTo.closed_of_chain {w : Option (AliasUse Ty)} {refs : FieldReferences} (h : s.FlattensTo t above f)
    (hchain : ReflTransGen s.Chain t (.record fields none w refs)) : f.tail = .closed := by
  induction hchain using ReflTransGen.head_induction_on generalizing above with
  | refl =>
    cases h with
    | closed => rfl
    | baseless ht => cases ht
  | head hstep _ ih =>
    obtain ⟨more, hmore⟩ := h.next hstep
    exact ih hmore

/-- Nothing comes after the fields of a record that has no base in the end. -/
theorem rest?_of_chain {w : Option (AliasUse Ty)} {refs : FieldReferences}
    (hchain : ReflTransGen s.Chain t (.record fields none w refs)) (hz : s.zonkAt n t = .ok z) : z.rest? = none := by
  induction hchain using ReflTransGen.head_induction_on generalizing n z with
  | refl =>
    rw [zonkAt_eq] at hz
    obtain ⟨zs, b, w', -, hb, -, rfl⟩ := exists_of_zonkWith_record hz
    cases hb
    exact Ty.rest?_recordWith zs none refs w'
  | head hstep _ ih =>
    cases hstep with
    | solution hsol =>
      obtain ⟨m, -, hnext⟩ := exists_of_zonkAt_solved hsol hz
      exact ih hnext
    | base =>
      rw [zonkAt_eq] at hz
      obtain ⟨zs, b, w', -, hb, -, rfl⟩ := exists_of_zonkWith_record hz
      obtain ⟨zb, hzb, rfl⟩ := exists_of_zonkBase hb
      rw [← zonkAt_eq] at hzb
      rw [Ty.rest?_recordWith]
      exact ih hzb
    | growing hrec =>
      obtain ⟨m, zs, zb, -, -, hzb, rfl⟩ := exists_of_zonkAt_growing hrec hz
      have hrest := ih hzb
      rw [rest?_writtenOut (fun heq => by rw [heq] at hrest; cases hrest)]
      exact hrest

/-- Records are written out as records. -/
theorem exists_record_of_zonkAt (ht : StoreM.isRecord t = true) (hz : s.zonkAt n t = .ok z) :
    ∃ all rest w refs, z = .record all rest w refs := by
  rw [zonkAt_eq] at hz
  cases t with
  | record fields base w refs =>
    obtain ⟨zs, b, w', -, -, -, rfl⟩ := exists_of_zonkWith_record hz
    obtain ⟨all, rest, others, heq⟩ := Ty.exists_record_recordWith zs b refs
    rw [heq]
    cases w' <;> exact ⟨_, _, _, _, rfl⟩
  | growing id =>
    rw [zonkWith] at hz
    obtain ⟨g, hrec, hz⟩ := exists_of_bind_ok hz
    obtain ⟨zs, -, hz⟩ := exists_of_bind_ok hz
    obtain ⟨b, -, hz⟩ := exists_of_bind_ok hz
    split at hz <;> cases hz
    · obtain ⟨all, rest, others, heq⟩ := Ty.exists_record_recordWith zs none g.refs
      exact ⟨all, rest, none, others, heq⟩
    · obtain ⟨all, rest, others, heq⟩ := Ty.exists_record_recordWith zs (some b) g.refs
      exact ⟨all, rest, none, others, heq⟩
  | unit | unknown | inProgress | var | union | tuple | arrow => cases ht

/-- Flattening a record and writing it out show the same record: the fields of the one are those of the other, the
first of each name in the same order, and the one is open exactly if the other has a variable as its base. -/
theorem flatten_is_zonk_without_hidden_fields {r : Ty} (hended : s.Ended t) (hr : s.resolve t = .ok r)
    (hrecord : StoreM.isRecord r = true) (hz : s.zonk t = .ok z) :
    ∃ f all rest w refs, s.flatten t = .ok f ∧ z = .record all rest w refs ∧
      ZonkedFields s.zonk f.fields (Ty.distinctFields all) ∧
      (∀ name, (f.field? name).mapM s.zonk = .ok (z.field? name)) ∧
      (∀ v, rest = some (.var v) ↔ f.tail = .opened v) ∧
      (∀ last w' refs', ReflTransGen s.Chain t (.record last none w' refs') → f.tail = .closed ∧ rest = none) := by
  obtain ⟨f, hf⟩ := exists_flatten_of_zonk hz
  have hflat := flattensTo_of_flatten hf
  obtain ⟨all, rest, w, refs, rfl⟩ := exists_record_of_zonkAt hrecord (zonkAt_resolved (resolvesTo_of_resolve hr) hz)
  obtain ⟨hfields, hleaves⟩ := hflat.zonkAt hended .nil le_rfl hz
  have hfields : ZonkedFields s.zonk f.fields (Ty.distinctFields all) := by
    rw [← Ty.addFields_nil_left]
    exact hfields
  refine ⟨f, all, rest, w, refs, hf, rfl, hfields, fun name => ?_, hleaves.eq_var_iff, fun last w' refs' hchain =>
    ⟨hflat.closed_of_chain hchain, rest?_of_chain hchain hz⟩⟩
  have hget : Ty.field? (.record all rest w refs) name = Assoc.get? (Ty.distinctFields all) name :=
    (Ty.get?_distinctFields all name).symm
  rw [hget]
  rcases hfields.get? name with ⟨hnone, hnone'⟩ | ⟨u, y, hu, hy, hget⟩
  · rw [Flattened.field?, hnone, hnone']
    rfl
  · rw [Flattened.field?, hu, hget, Option.mapM_some, hy]
    rfl

/-- The growing record writes `x` twice and hides the `x` of its base, which ends in a variable. -/
theorem flatten_is_zonk_without_hidden_fields_of_row :
    let b : TyVar := ⟨1, "b", false⟩
    let s : Store :=
      { solutions := ⟨#[some (.record [("y", .unit), ("x", Ty.string)] (some (.var b)) none .empty), none]⟩
        records := #[{ fields := [("x", Ty.int), ("x", .unit)], base := .var ⟨0, "a", false⟩ }] }
    let z : Ty := .record [("x", Ty.int), ("x", .unit), ("y", .unit)] (some (.var b)) none .empty
    s.Ended (.growing 0) ∧ s.resolve (.growing 0) = .ok (.growing 0) ∧ StoreM.isRecord (.growing 0) = true ∧
      s.zonk (.growing 0) = .ok z ∧ s.flatten (.growing 0) = .ok ⟨[("x", Ty.int), ("y", .unit)], .opened b⟩ ∧
      ∃ f all rest w refs, s.flatten (.growing 0) = .ok f ∧ z = .record all rest w refs ∧
        ZonkedFields s.zonk f.fields (Ty.distinctFields all) ∧
        (∀ name, (f.field? name).mapM s.zonk = .ok (z.field? name)) ∧
        (∀ v, rest = some (.var v) ↔ f.tail = .opened v) ∧
        (∀ last w' refs', ReflTransGen s.Chain (.growing 0) (.record last none w' refs') →
          f.tail = .closed ∧ rest = none) := by
  intro b s z
  have hends : s.EndsAt (.growing 0) b.id :=
    ⟨⟨Nat.lt_succ_self 1, rfl⟩, b, rfl, .head (.growing rfl) (.head (.solution rfl) (.single .base))⟩
  have hended := ended_of_endsAt hends
  exact ⟨hended, rfl, rfl, rfl, rfl, flatten_is_zonk_without_hidden_fields hended (r := .growing 0) rfl rfl rfl⟩

end Store

end ElmInference
