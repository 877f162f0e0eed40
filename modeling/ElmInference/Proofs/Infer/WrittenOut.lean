import ElmInference.Proofs.Infer.Cancellation
import ElmInference.Proofs.Infer.ClosedTypes
import ElmInference.Proofs.Store.Tracking
import ElmInference.Proofs.Types.Building

/-!
# Types that are written out

Zonking rebuilds a type with the constructors of types while it puts solutions for variables and records for growing
records. So a solution that is a function is folded into the function that returns it, a solution that is a record is
merged into the record that extends it, and nothing is left to be done: a zonked type is a fixed point of zonking.

A result is frozen by zonking everything in it. This holds of answers and of what is kept in the session alike, since
nothing comes into the cache except at the end of a pass.
-/

namespace ElmInference

namespace Ty

/-! ### What the constructors build -/

theorem Built.writtenAs? {t : Ty} {w : Option (AliasUse Ty)} (ht : t.Built) (hw : ∀ u ∈ aliasArgs w, u.Built) :
    (t.writtenAs? w).Built := by
  cases w with
  | none => exact ht
  | some use =>
    cases ht with
    | union hargs _ => exact .union hargs hw
    | record hfields hbase hflat _ => exact .record hfields hbase hflat hw
    | arrow hne hparams hret hfolded _ => exact .arrow hne hparams hret hfolded hw
    | unit => exact .unit
    | unknown => exact .unknown
    | inProgress => exact .inProgress
    | var v => exact .var v
    | growing id => exact .growing id
    | tuple hitems => exact .tuple hitems

theorem built_function {params : List Ty} {ret : Ty} (hparams : ∀ t ∈ params, t.Built) (hret : ret.Built) :
    (function params ret).Built := by
  obtain ⟨rfl, heq⟩ | ⟨more, last, hne, rfl, heq⟩ | ⟨hne, hfolded, heq⟩ := function_shapes params ret
  · rwa [heq]
  · rw [heq]
    cases hret with
    | arrow _ hmore hlast hfolded _ =>
      refine .arrow (by simp [hne]) (fun t ht => ?_) hlast hfolded (fun _ h => nomatch h)
      rcases List.mem_append.mp ht with ht | ht
      · exact hparams t ht
      · exact hmore t ht
  · rw [heq]
    exact .arrow hne hparams hret hfolded (fun _ h => nomatch h)

theorem built_recordWith {fields : List (Name × Ty)} {base : Option Ty} (hfields : ∀ field ∈ fields, field.2.Built)
    (hbase : ∀ t, base = some t → t.Built) (refs : FieldReferences) : (recordWith fields base refs).Built := by
  unfold recordWith
  split
  · next inner innerBase w innerRefs =>
    cases hbase _ rfl with
    | record hinner hinnerBase hflat _ =>
      refine .record (fun field hfield => ?_) hinnerBase hflat (fun _ h => nomatch h)
      rcases mem_addFields hfield with hfield | hfield
      · exact hfields field hfield
      · exact hinner field hfield
  · next hnot =>
    refine .record hfields hbase (fun t ht => ?_) (fun _ h => nomatch h)
    cases t with
    | record inner innerBase w innerRefs => exact absurd ht (hnot inner innerBase w innerRefs)
    | _ => rfl

end Ty

namespace Store

variable {s : Store}

/-- What zonking leaves in a type: every mention but growing records and variables that have a solution. -/
def Leaves (s : Store) : Mention → Prop
  | .var v => s.Unsolved v.id
  | .record _ => False
  | .field _ => True
  | .hole => True

/-- Whether a type is one that the constructors build, with neither a growing record nor a solved variable in it. The
arguments of aliases count. -/
structure WrittenOut (s : Store) (t : Ty) : Prop where
  built : t.Built
  leaves : ∀ r ∈ t.mentions true, s.Leaves r

/-! ### Zonked types are written out -/

theorem WrittenOut.writtenAs? {t : Ty} {w : Option (AliasUse Ty)} (ht : s.WrittenOut t)
    (hw : ∀ u ∈ Ty.aliasArgs w, s.WrittenOut u) : s.WrittenOut (t.writtenAs? w) := by
  refine ⟨ht.built.writtenAs? (fun u hu => (hw u hu).built), fun r hr => ?_⟩
  rcases Ty.mem_of_mem_mentions_writtenAs? hr with hr | hr
  · exact ht.leaves r hr
  · obtain ⟨u, hu, hr⟩ := Ty.mem_mentionsList.mp hr
    exact (hw u hu).leaves r hr

theorem writtenOut_function {params : List Ty} {ret : Ty} (hparams : ∀ t ∈ params, s.WrittenOut t)
    (hret : s.WrittenOut ret) : s.WrittenOut (Ty.function params ret) := by
  refine ⟨Ty.built_function (fun t ht => (hparams t ht).built) hret.built, fun r hr => ?_⟩
  rcases Ty.mem_mentions_function.mp hr with ⟨t, ht, hr⟩ | hr
  · exact (hparams t ht).leaves r hr
  · exact hret.leaves r hr

theorem writtenOut_recordWith {fields : List (Name × Ty)} {base : Option Ty}
    (hfields : ∀ field ∈ fields, s.WrittenOut field.2) (hbase : ∀ t, base = some t → s.WrittenOut t)
    (refs : FieldReferences) : s.WrittenOut (Ty.recordWith fields base refs) := by
  refine ⟨Ty.built_recordWith (fun field hf => (hfields field hf).built) (fun t ht => (hbase t ht).built) refs,
    fun r hr => ?_⟩
  rcases Ty.mem_of_mem_mentions_recordWith hr with hr | hr
  · obtain ⟨field, hfield, rfl | hr⟩ := Ty.mem_mentionsFields.mp hr
    · trivial
    · exact (hfields field hfield).leaves r hr
  · cases base with
    | none => cases hr
    | some t => exact (hbase t rfl).leaves r hr

theorem Alongside.forall_mid {α : Type} {R : α → α → α → Prop} {P : α → Prop} (hR : ∀ x y z, R x y z → P y)
    {xs ys zs : List α} (h : Alongside R xs ys zs) : ∀ y ∈ ys, P y := by
  intro y hy
  obtain ⟨x, -, z, hrel⟩ := h.exists_left hy
  exact hR x y z hrel

theorem BaseRel.forall_mid {R : Ty → Ty → Ty → Prop} {P : Ty → Prop} (hR : ∀ x y z, R x y z → P y)
    {w y z : Option Ty} (h : BaseRel R w y z) : ∀ t, y = Option.some t → P t := by
  cases h with
  | none => exact fun _ h => nomatch h
  | some hbase => exact fun _ ht => Option.some.inj ht ▸ hR _ _ _ hbase

theorem respectful_writtenOut : Respectful (fun _ y _ => s.WrittenOut y) where
  unit := ⟨.unit, fun _ h => nomatch h⟩
  unknown := ⟨.unknown, by simp [Ty.mentions, Leaves]⟩
  inProgress := ⟨.inProgress, by simp [Ty.mentions, Leaves]⟩
  union hargs hw := by
    have hargs := hargs.forall_mid (P := s.WrittenOut) (fun _ _ _ h => h)
    have hw := hw.args.forall_mid (P := s.WrittenOut) (fun _ _ _ h => h)
    refine ⟨.union (fun t ht => (hargs t ht).built) (fun t ht => (hw t ht).built), fun r hr => ?_⟩
    rw [Ty.mentions, Ty.mentionsAlias_true, List.mem_append, Ty.mem_mentionsList, Ty.mem_mentionsList] at hr
    rcases hr with ⟨t, ht, hr⟩ | ⟨t, ht, hr⟩
    · exact (hargs t ht).leaves r hr
    · exact (hw t ht).leaves r hr
  tuple hitems := by
    have hitems := hitems.forall_mid (P := s.WrittenOut) (fun _ _ _ h => h)
    refine ⟨.tuple (fun t ht => (hitems t ht).built), fun r hr => ?_⟩
    rw [Ty.mentions] at hr
    obtain ⟨t, ht, hr⟩ := Ty.mem_mentionsList.mp hr
    exact (hitems t ht).leaves r hr
  record hfields hbase hw := by
    have hfields := hfields.forall_mid (P := fun field => s.WrittenOut field.2) (fun _ _ _ h => h.2.2)
    have hbase := hbase.forall_mid (P := s.WrittenOut) (fun _ _ _ h => h)
    exact (writtenOut_recordWith hfields hbase _).writtenAs? (hw.args.forall_mid (P := s.WrittenOut) (fun _ _ _ h => h))
  arrow hparams hret hw := by
    have hparams := hparams.forall_mid (P := s.WrittenOut) (fun _ _ _ h => h)
    exact (writtenOut_function hparams hret).writtenAs? (hw.args.forall_mid (P := s.WrittenOut) (fun _ _ _ h => h))

theorem writtenOut_of_zonkAt {n : Nat} {t z : Ty} (h : s.zonkAt n t = .ok z) : s.WrittenOut z := by
  refine zonkAt_induct (P := fun _ y => s.WrittenOut y) respectful_writtenOut (fun v hun => ?_) (fun _ _ _ _ h => h)
    (fun id g ys zs b _ hys hb => ?_) h
  · exact ⟨.var v, by simpa [Ty.mentions, Leaves] using hun⟩
  · have hfields := hys.forall_mid (fun _ _ _ h => h.2.2)
    have hbase : ∀ t, some b = some t → s.WrittenOut t := fun t ht => Option.some.inj ht ▸ hb
    unfold writtenOut
    split
    · exact writtenOut_recordWith hfields (by simp) _
    · exact writtenOut_recordWith hfields hbase _

/-! ### Types that are written out are fixed -/

section Fixed

variable {follow : Ty → Except Fault Ty}

theorem zonkList_self {ts : List Ty} (h : ∀ t ∈ ts, s.zonkWith follow t = .ok t) : s.zonkList follow ts = .ok ts :=
  zonkList_iff.mpr (List.forall₂_same.mpr h)

theorem zonkFields_self {fields : List (Name × Ty)} (h : ∀ field ∈ fields, s.zonkWith follow field.2 = .ok field.2) :
    s.zonkFields follow fields = .ok fields :=
  zonkFields_iff.mpr (List.forall₂_same.mpr (fun field hfield => ⟨rfl, h field hfield⟩))

theorem zonkBase_self {base : Option Ty} (h : ∀ t, base = some t → s.zonkWith follow t = .ok t) :
    s.zonkBase follow base = .ok base := by
  cases base with
  | none => rfl
  | some t =>
    rw [zonkBase, h t rfl]
    rfl

theorem zonkAlias_self {w : Option (AliasUse Ty)} (h : ∀ t ∈ Ty.aliasArgs w, s.zonkWith follow t = .ok t) :
    s.zonkAlias follow w = .ok w := by
  rcases w with _ | ⟨m, n, args⟩
  · rfl
  · have hargs : s.zonkList follow args = .ok args := zonkList_self h
    rw [zonkAlias, hargs]
    rfl

end Fixed

end Store

namespace Ty

theorem recordWith_of_not_record {fields : List (Name × Ty)} {base : Option Ty}
    (h : ∀ t, base = some t → t.fields? = none) (refs : FieldReferences) :
    recordWith fields base refs = .record fields base none refs :=
  recordWith_of_ne (fun _ _ _ _ heq => by cases h _ heq) fields refs

end Ty

namespace Store

variable {s : Store}

theorem leaves_mentionsList {ts : List Ty} :
    (∀ r ∈ Ty.mentionsList true ts, s.Leaves r) ↔ ∀ t ∈ ts, ∀ r ∈ t.mentions true, s.Leaves r := by
  simp only [Ty.mem_mentionsList]
  exact ⟨fun h t ht r hr => h r ⟨t, ht, hr⟩, fun h r ⟨t, ht, hr⟩ => h t ht r hr⟩

theorem leaves_mentionsFields {fields : List (Name × Ty)} (h : ∀ r ∈ Ty.mentionsFields true fields, s.Leaves r) :
    ∀ field ∈ fields, ∀ r ∈ field.2.mentions true, s.Leaves r :=
  fun field hfield r hr => h r (Ty.mem_mentionsFields.mpr ⟨field, hfield, .inr hr⟩)

/-- Whatever is done with solutions and growing records, a type that is written out contains none. -/
theorem WrittenOut.zonkWith {t : Ty} (h : s.WrittenOut t) (follow : Ty → Except Fault Ty) :
    s.zonkWith follow t = .ok t := by
  obtain ⟨hbuilt, hleaves⟩ := h
  induction hbuilt with
  | unit => rfl
  | unknown => rfl
  | inProgress => rfl
  | var v => exact zonkWith_unsolved (hleaves (.var v) List.mem_cons_self)
  | growing id => exact (hleaves (.record id) List.mem_cons_self).elim
  | union _ _ ihargs ihw =>
    simp only [Ty.mentions, Ty.mentionsAlias_true, List.forall_mem_append, leaves_mentionsList] at hleaves
    rw [Store.zonkWith, zonkList_self (fun t ht => ihargs t ht (hleaves.1 t ht)),
      zonkAlias_self (fun t ht => ihw t ht (hleaves.2 t ht))]
    rfl
  | tuple _ ih =>
    rw [Ty.mentions, leaves_mentionsList] at hleaves
    rw [Store.zonkWith, zonkList_self (fun t ht => ih t ht (hleaves t ht))]
    rfl
  | @record fields base w refs _ _ hflat _ ihf ihb ihw =>
    simp only [Ty.mentions, Ty.mentionsAlias_true, List.forall_mem_append, leaves_mentionsList] at hleaves
    obtain ⟨hfields, hbase, hw⟩ := hleaves
    have hfixed : s.zonkBase follow base = .ok base := by
      refine zonkBase_self (fun t ht => ihb t ht ?_)
      subst ht
      exact hbase
    rw [Store.zonkWith, zonkFields_self (fun field hf => ihf field hf (leaves_mentionsFields hfields field hf)),
      hfixed, zonkAlias_self (fun t ht => ihw t ht (hw t ht)), ok_bind, ok_bind, ok_bind,
      Ty.recordWith_of_not_record hflat]
    cases w <;> rfl
  | @arrow params ret w hne _ _ hfolded _ ihp ihr ihw =>
    simp only [Ty.mentions, Ty.mentionsAlias_true, List.forall_mem_append, leaves_mentionsList] at hleaves
    obtain ⟨hparams, hret, hw⟩ := hleaves
    rw [Store.zonkWith, zonkList_self (fun t ht => ihp t ht (hparams t ht)), ihr hret,
      zonkAlias_self (fun t ht => ihw t ht (hw t ht)), ok_bind, ok_bind, ok_bind,
      Ty.function_of_not_bare hne hfolded]
    cases w <;> rfl

theorem WrittenOut.zonk {t : Ty} (h : s.WrittenOut t) : s.zonk t = .ok t := by
  rw [Store.zonk, zonkAt_eq]
  exact h.zonkWith _

end Store

/-! ### Results -/

def RecordDiff.types (diff : RecordDiff) : List Ty :=
  diff.extra.map Prod.snd ++ diff.missing.map Prod.snd ++
    diff.mismatched.flatMap (fun field => [field.2.1, field.2.2])

def ProblemKind.types : ProblemKind → List Ty
  | .typeMismatch found required diff => found :: required :: diff.elim [] RecordDiff.types
  | .invalidPattern found required diff => found :: required :: diff.elim [] RecordDiff.types
  | .typeMustBeRecord found => [found]
  | .fieldAccessOnNonRecord found => [found]
  | _ => []

def InferenceResult.types (result : InferenceResult) : List Ty :=
  result.ty :: (result.nodeTypes.map Prod.snd ++ result.problems.flatMap (fun problem => problem.kind.types))

namespace InferM

variable {context : Context} {w w' : Work}

theorem writtenOut_of_run_zonk {t u : Ty} (hrun : zonk t context w = (.ok u, w')) : w.pass.store.WrittenOut u :=
  Store.writtenOut_of_zonkAt (run_read_inv hrun).1

/-- Entries that are zonked one by one. -/
theorem writtenOut_of_run_zonkEntries {entries zonked : List (Name × Ty)}
    (hrun : (entries.mapM (fun entry => do return (entry.1, ← zonk entry.2)) : InferM (List (Name × Ty))) context w =
      (.ok zonked, w')) :
    w = w' ∧ ∀ t ∈ zonked.map Prod.snd, w.pass.store.WrittenOut t := by
  have hentry : ∀ entry : Name × Ty, Looks context (do return (entry.1, ← zonk entry.2) : InferM (Name × Ty)) :=
    fun entry => (looks_zonk entry.2).bind fun _ => looks_pure _
  obtain ⟨rfl, hall⟩ := run_mapM_inv hentry hrun
  refine ⟨rfl, fun t ht => ?_⟩
  obtain ⟨entry, hentry, rfl⟩ := List.mem_map.mp ht
  obtain ⟨_, -, hentry⟩ := exists_mem_of_forall₂ hall hentry
  obtain ⟨u, _, hu, hentry⟩ := run_bind_inv hentry
  cases hentry
  exact writtenOut_of_run_zonk hu

theorem writtenOut_of_run_mapDiff {diff zonked : RecordDiff}
    (hrun : diff.mapTypesM zonk context w = (.ok zonked, w')) : ∀ t ∈ zonked.types, w.pass.store.WrittenOut t := by
  obtain ⟨extra, w₁, hextra, hrun⟩ := run_bind_inv hrun
  obtain ⟨rfl, hextra'⟩ := writtenOut_of_run_zonkEntries hextra
  obtain ⟨missing, w₂, hmissing, hrun⟩ := run_bind_inv hrun
  obtain ⟨rfl, hmissing'⟩ := writtenOut_of_run_zonkEntries hmissing
  obtain ⟨mismatched, w₃, hmismatched, hrun⟩ := run_bind_inv hrun
  have hlooks : ∀ field : Name × Ty × Ty, Looks context (do
      let found ← zonk field.2.1
      return (field.1, found, ← zonk field.2.2) : InferM (Name × Ty × Ty)) :=
    fun field => (looks_zonk field.2.1).bind fun _ => (looks_zonk field.2.2).bind fun _ => looks_pure _
  obtain ⟨rfl, hall⟩ := run_mapM_inv hlooks hmismatched
  cases hrun
  intro t ht
  rcases List.mem_append.mp ht with ht | ht
  · exact (List.mem_append.mp ht).elim (hextra' t) (hmissing' t)
  · obtain ⟨field, hfield, ht⟩ := List.mem_flatMap.mp ht
    obtain ⟨_, -, hfield⟩ := exists_mem_of_forall₂ hall hfield
    obtain ⟨found, w₁, hfound, hfield⟩ := run_bind_inv hfield
    obtain rfl := looks_zonk _ _ _ _ hfound
    obtain ⟨required, w₂, hrequired, hfield⟩ := run_bind_inv hfield
    cases hfield
    rcases List.mem_pair.mp ht with rfl | rfl
    · exact writtenOut_of_run_zonk hfound
    · exact writtenOut_of_run_zonk hrequired

theorem writtenOut_of_run_mapKind {kind zonked : ProblemKind}
    (hrun : kind.mapTypesM zonk context w = (.ok zonked, w')) : ∀ t ∈ zonked.types, w.pass.store.WrittenOut t := by
  have hdiff : ∀ {diff diff' : Option RecordDiff} {w'}, ProblemKind.mapDiffM zonk diff context w = (.ok diff', w') →
      ∀ t ∈ diff'.elim [] RecordDiff.types, w.pass.store.WrittenOut t := by
    intro diff diff' w' hrun
    cases diff with
    | none =>
      cases hrun
      exact fun _ ht => absurd ht List.not_mem_nil
    | some diff =>
      obtain ⟨zonked, w₁, hzonked, hrun⟩ := run_bind_inv hrun
      cases hrun
      exact writtenOut_of_run_mapDiff hzonked
  cases kind with
  | typeMismatch found required diff | invalidPattern found required diff =>
    obtain ⟨found', w₁, hfound, hrun⟩ := run_bind_inv hrun
    obtain rfl := looks_zonk _ _ _ _ hfound
    obtain ⟨required', w₂, hrequired, hrun⟩ := run_bind_inv hrun
    obtain rfl := looks_zonk _ _ _ _ hrequired
    obtain ⟨diff', w₃, hdiff', hrun⟩ := run_bind_inv hrun
    cases hrun
    exact List.forall_mem_cons.mpr ⟨writtenOut_of_run_zonk hfound,
      List.forall_mem_cons.mpr ⟨writtenOut_of_run_zonk hrequired, hdiff hdiff'⟩⟩
  | typeMustBeRecord found | fieldAccessOnNonRecord found =>
    obtain ⟨found', w₁, hfound, hrun⟩ := run_bind_inv hrun
    cases hrun
    exact List.forall_mem_singleton.mpr (writtenOut_of_run_zonk hfound)
  | _ =>
    cases hrun
    exact fun _ ht => absurd ht List.not_mem_nil

/-- Whatever a pass has found, its result is written out in the store that the pass has left. -/
theorem Freezes.writtenOut {t : Ty} {result : InferenceResult} (h : Freezes context w t result) :
    ∀ u ∈ result.types, w.pass.store.WrittenOut u := by
  refine List.forall_mem_cons.mpr ⟨Store.writtenOut_of_zonkAt h.ty, fun u hu => ?_⟩
  rcases List.mem_append.mp hu with hu | hu
  · obtain ⟨entry, hentry, rfl⟩ := List.mem_map.mp hu
    obtain ⟨_, -, -, hzonk⟩ := exists_mem_of_forall₂ h.nodeTypes hentry
    exact Store.writtenOut_of_zonkAt hzonk
  · obtain ⟨problem, hproblem, hu⟩ := List.mem_flatMap.mp hu
    obtain ⟨problems, hall, hsorted⟩ := h.problems
    rw [hsorted] at hproblem
    obtain ⟨_, -, -, hkind⟩ := exists_mem_of_forall₂ hall (mem_sortBy.mp hproblem)
    exact writtenOut_of_run_mapKind hkind u hu

end InferM

/-! ### What is kept and what is answered -/

namespace Engine

variable {engine : Engine} {s s' : Session}

/-- Whether a result is that of a pass over a declaration of the module, and everything in it is written out in the
store that the pass has left. -/
def Completes (engine : Engine) (result : InferenceResult) : Prop :=
  ∃ i d n s notes w, engine.scope.module.valueAt? i = some d ∧
    InferM.inferDeclaration (InferM.exprAt n) d ⟨engine, i⟩ ⟨s, {}⟩ = (.ok (.ok (result, notes)), w) ∧
    ∀ t ∈ result.types, w.pass.store.WrittenOut t

/-- Whether every result that is kept in a session was kept before or is that of a pass. -/
def Gathers (engine : Engine) (s s' : Session) : Prop :=
  ∀ key result, s'.cache.get? key = some result → s.cache.get? key = some result ∨ engine.Completes result

theorem gathers_of_cache (h : s'.cache.entries = s.cache.entries) : engine.Gathers s s' := by
  intro key result hresult
  rw [Cache.get?, h] at hresult
  exact .inl hresult

theorem Gathers.trans {s₁ : Session} (h : engine.Gathers s s₁) (h' : engine.Gathers s₁ s') : engine.Gathers s s' :=
  fun key result hresult => (h' key result hresult).elim (h key result) .inr

theorem tolerates_gathers : engine.Tolerates engine.Gathers :=
  ⟨fun _ => gathers_of_cache rfl, .trans, fun _ _ => gathers_of_cache rfl, fun _ _ => gathers_of_cache rfl⟩

open InferM SessionM in
/-- A call of a declaration keeps results of passes only, and it is answered by a result that was kept before or is that
of a pass. The induction is on the depth, since the calls within go less deep. -/
theorem gathers_inferTopLevel {i n : Nat} {d : ValueDecl} {outcome : Except InferError Inferred}
    (hoffers : engine.scope.Offers (.value i d))
    (hrun : inferTopLevel (exprAt n) i d engine s = (.ok outcome, s')) :
    engine.Gathers s s' ∧ ∀ result notes, outcome = .ok (result, notes) →
      (∃ key, s.cache.get? key = some result) ∨ engine.Completes result := by
  induction n using Nat.strong_induction_on generalizing i d s s' outcome with
  | _ n ih =>
  rcases hkept : s.cache.get? (DeclKey.ofDecl engine.file d) with _ | kept
  · obtain ⟨flag, ⟨rfl, rfl⟩ | hcompute⟩ := run_inferTopLevel_new_inv hkept hrun
    · exact ⟨gathers_of_cache rfl, nofun⟩
    obtain ⟨out, w, hdecl, hconcluded⟩ := run_compute_pass hcompute
    have hpass : engine.Gathers s w.session :=
      relates_inferDeclaration tolerates_gathers d (fun m hm _ _ _ _ _ hoffers _ hcall => (ih m hm hoffers hcall).1)
        _ _ _ hdecl
    have hleft : engine.Gathers s (left (DeclKey.ofDecl engine.file d) w.session) :=
      hpass.trans (gathers_of_cache rfl)
    obtain ⟨rfl, -⟩ | ⟨result, rfl, -, t, hfreezes⟩ := run_inferDeclaration_inv hdecl
    · cases hconcluded
      exact ⟨hleft, nofun⟩
    have hresult : engine.Completes result := ⟨i, d, n, _, _, w, hoffers.1, hdecl, hfreezes.writtenOut⟩
    obtain ⟨rfl, rfl⟩ := Prod.mk.inj hconcluded
    refine ⟨?_, fun _ _ heq => ?_⟩
    · split
      · exact fun key found hfound => (Cache.eq_or_of_get?_insert hfound).elim (fun h => .inr (h.2 ▸ hresult))
          (hleft key found)
      · exact hleft
    · cases heq
      exact .inr hresult
  · rw [run_inferTopLevel_of_kept hkept] at hrun
    cases hrun
    refine ⟨gathers_of_cache rfl, fun _ _ heq => ?_⟩
    cases heq
    exact .inl ⟨_, hkept⟩

end Engine

/-- The sessions that come about: nothing is kept at first, requests are answered, by whichever engine, the flag is
handed over, and changes make entries stale. -/
inductive Session.Reached : Session → Prop
  | start (flag : Option CancelFlag) : Reached { flag }
  | request {s s' : Session} {engine : Engine} {request : Request} {answer : Except InferError InferenceResult} :
      Reached s → engine.infer request s = (.ok answer, s') → Reached s'
  | handOver {s : Session} (flag : Option CancelFlag) : Reached s → Reached { s with flag }
  | edit {s : Session} (change : Change) : Reached s → Reached { s with cache := s.cache.invalidate change }

namespace Engine

variable {engine : Engine} {s s' : Session}

theorem gathers_infer {request : Request} {answer : Except InferError InferenceResult}
    (hrun : engine.infer request s = (.ok answer, s')) :
    engine.Gathers s s' ∧ ∀ result, answer = .ok result →
      (∃ key, s.cache.get? key = some result) ∨ engine.Completes result := by
  obtain ⟨flag, ⟨name, rfl, rfl⟩ | ⟨i, d, outcome, -, hoffers, rfl, hcall⟩⟩ := infer_inv hrun
  · exact ⟨gathers_of_cache rfl, nofun⟩
  · obtain ⟨hgathers, hanswer⟩ := gathers_inferTopLevel hoffers hcall
    refine ⟨hgathers, fun result heq => ?_⟩
    rcases outcome with e | ⟨found, notes⟩
    · cases heq
    · cases heq
      exact hanswer found notes rfl

theorem exists_completes_of_reached (h : s.Reached) {key : DeclKey} {result : InferenceResult}
    (hkept : s.cache.get? key = some result) : ∃ engine : Engine, engine.Completes result := by
  induction h generalizing key with
  | start flag => cases hkept
  | request _ hrun ih => exact ((gathers_infer hrun).1 key result hkept).elim ih (fun h => ⟨_, h⟩)
  | handOver flag _ ih => exact ih hkept
  | @edit s change _ ih =>
    have hbefore : (if s.cache.affects change key then none else s.cache.get? key) = some result :=
      (s.cache.get?_invalidate change key).symm.trans hkept
    split at hbefore
    · cases hbefore
    · exact ih hbefore

/-- What zonking yields is written out, and zonking it again changes nothing. So every answer in a session that came about
by requests and changes is the result of some pass, and all types in it, those of its problems included, are written out
in the store that the pass has left. -/
theorem zonked_types_are_written_out :
    (∀ (s : Store) (t z : Ty), s.zonk t = .ok z → s.WrittenOut z ∧ s.zonk z = .ok z) ∧
      ∀ (engine : Engine) (request : Request) (s s' : Session) (result : InferenceResult), s.Reached →
        engine.infer request s = (.ok (.ok result), s') → ∃ engine' : Engine, engine'.Completes result := by
  refine ⟨fun s t z hz => ?_, fun engine request s s' result hs hrun => ?_⟩
  · have hwritten : s.WrittenOut z := Store.writtenOut_of_zonkAt hz
    exact ⟨hwritten, hwritten.zonk⟩
  · rcases (gathers_infer hrun).2 result rfl with ⟨key, hkept⟩ | hcompletes
    · exact exists_completes_of_reached hs hkept
    · exact ⟨engine, hcompletes⟩

/-- With `a` standing for `Int -> { r | x : Int }` and `r` for `{ y : b }`, the function `b -> a` is written out as
`b -> Int -> { x : Int, y : b }`. And in `f x = g x ; g y = [ y, 1 ]` the answer for `g` is found in the cache after `f`. -/
theorem zonked_types_are_written_out_of_function :
    let a : TyVar := ⟨0, "a", false⟩
    let r : TyVar := ⟨1, "r", false⟩
    let b : TyVar := ⟨2, "b", false⟩
    let s : Store :=
      { solutions := ⟨#[some (.arrow [Ty.int] (.growing 0) none), some (Ty.closedRecord [("y", .var b)]), none]⟩,
        records := #[⟨[("x", Ty.int)], .var r, .empty⟩] }
    let z : Ty := .arrow [.var b, Ty.int] (Ty.closedRecord [("x", Ty.int), ("y", .var b)]) none
    let f : ValueDecl :=
      ⟨2, none, .function ⟨3, "f"⟩ [.mk 0 0 (.var "x")],
        .mk 3 6 (.call (.mk 1 4 (.var (.plain "g"))) [.mk 2 5 (.var (.plain "x"))])⟩
    let g : ValueDecl :=
      ⟨10, none, .function ⟨11, "g"⟩ [.mk 4 7 (.var "y")],
        .mk 7 12 (.list [.mk 5 8 (.var (.plain "y")), .mk 6 9 (.literal .int)])⟩
    let engine : Engine := { file := 0, scope := { module := ⟨"Main", [.value f, .value g]⟩ } }
    let session := (engine.infer (.declared 0) {}).2
    (s.zonk (.arrow [.var b] (.var a) none) = .ok z ∧ s.WrittenOut z ∧ s.zonk z = .ok z) ∧
      ∃ result session', session.Reached ∧ engine.infer (.declared 1) session = (.ok (.ok result), session') ∧
        ∃ engine' : Engine, engine'.Completes result := by
  intro a r b s z f g engine session
  have hzonk : s.zonk (.arrow [.var b] (.var a) none) = .ok z := by rfl
  have hends : (engine.infer (.declared 0) {}).1.isOk = true := by decide +kernel
  have hfound : ((engine.infer (.declared 1) session).1.toOption.bind Except.toOption).isSome = true := by decide +kernel
  obtain ⟨hwritten, hresults⟩ := zonked_types_are_written_out
  refine ⟨⟨hzonk, hwritten s _ z hzonk⟩, ?_⟩
  have hreached : session.Reached := by
    rcases hrun : engine.infer (.declared 0) {} with ⟨fault | answer, s'⟩
    · rw [hrun] at hends
      cases hends
    · have heq : session = s' := congrArg Prod.snd hrun
      exact heq ▸ .request (.start none) hrun
  obtain ⟨result, hsome⟩ := Option.isSome_iff_exists.mp hfound
  have hrun : engine.infer (.declared 1) session = (.ok (.ok result), (engine.infer (.declared 1) session).2) := by
    rw [← ok_of_answer hsome]
  exact ⟨result, _, hreached, hrun, hresults engine (.declared 1) session _ result hreached hrun⟩

end Engine

end ElmInference
