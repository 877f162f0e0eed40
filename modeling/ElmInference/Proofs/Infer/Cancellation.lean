import ElmInference.Proofs.Infer.Composition
import ElmInference.Proofs.Infer.Requests
import ElmInference.Proofs.Infer.Results

/-!
# Work that is called off

Someone else may raise the flag at any time and take it back again. A pass that has once seen it raised is called off
for good and gives no result, and a pass that gives a result has never seen it. So each result that is kept can be
replayed without the flag. It can even be replayed on its own: a result that is kept depends on no declaration in
progress, so those around it might as well not have been there.

What is said here of all work on a session is put together from its steps: declared types are converted, and
declarations are answered for. Either way, the declarations and aliases in progress are in the end what they were.
-/

namespace ElmInference

open Conversion TypeTable

/-! ### Aliases in progress -/

namespace TypeTable

variable {scope : ModuleScope}

/-- Two tables that are the same, with given aliases in progress. -/
def SameAmid (outer : List TypeKey) (table table' : TypeTable) : Prop :=
  table = table' ∧ table.converting = outer

theorem sameAmid_self (table : TypeTable) : SameAmid table.converting table table :=
  ⟨rfl, rfl⟩

/-- The conversion of an alias ends with the aliases in progress that it began with. -/
theorem match_expandAt (n : Nat) (m : Name) (decl : AliasDecl) (outer : List TypeKey) :
    Match (SameAmid outer) (expandAt scope n m decl) (expandAt scope n m decl) := by
  induction n generalizing m decl outer with
  | zero =>
    rintro table _ ⟨rfl, houter⟩
    exact ⟨rfl, rfl, houter⟩
  | succ n ih =>
    rintro table _ ⟨rfl, houter⟩
    refine ⟨rfl, rfl, ?_⟩
    rcases hget : Assoc.get? table.declared (m, decl.name) with _ | d
    · by_cases hconverting : (m, decl.name) ∈ table.converting
      · rw [expandAt_of_converting hget hconverting]
        exact houter
      · rw [expandAt_of_new hget hconverting]
        have hstart : Alike (SameAmid ((m, decl.name) :: outer)) (table.bodyScope m decl).2 (table.bodyScope m decl).2 :=
          (alike_paramScope ⟨rfl, congrArg (_ :: ·) houter⟩ decl.params).2
        have hbody : (convertWith scope (expandAt scope n) false decl.body (table.bodyScope m decl).2).2.table.converting =
            (m, decl.name) :: outer :=
          (together_convertWith decl.body (fun inner _ _ => ih _ inner _) _ _ hstart).2.table.2
        unfold meaning
        split
        · rw [ended, hbody, List.erase_cons_head]
        · rw [remember, ended, hbody, List.erase_cons_head]
    · rw [expandAt_of_declared hget]
      exact houter

theorem converting_expand (m : Name) (decl : AliasDecl) (table : TypeTable) :
    (expand scope m decl table).2.converting = table.converting :=
  (match_expandAt _ m decl _ _ _ (sameAmid_self table)).2.2

theorem converting_unionType (m : Name) (decl : UnionDecl) (table : TypeTable) :
    (unionType scope m decl table).2.converting = table.converting := by
  rcases hget : Assoc.get? table.declared (m, decl.name) with _ | d
  · rw [unionType_of_new hget]
    have hstart := (alike_paramScope (sameAmid_self table) decl.params).2
    exact (together_mapM (fun variant _ => together_convertList variant.args fun inner _ _ =>
      match_expandAt _ _ inner _) _ _ hstart).2.table.2
  · rw [unionType_of_declared hget]

end TypeTable

theorem Conversion.converting_convert (scope : ModuleScope) (rigid : Bool) (t : TypeExpr) (c : Conversion) :
    (Conversion.convert scope rigid t c).2.table.converting = c.table.converting :=
  (together_convertWith t (fun inner _ _ => match_expandAt _ _ inner _) _ _
    ⟨rfl, rfl, rfl, sameAmid_self c.table⟩).2.table.2

/-! ### The same work in another session -/

def Session.unflagged (s : Session) : Session :=
  { s with flag := none }

def Session.aside (outer : List Name) (s : Session) : Session :=
  { s with active := s.active.filter (fun label => !outer.contains label), flag := none }

def Session.alone (s : Session) : Session :=
  { s with active := [], flag := none }

theorem Session.aside_nil (s : Session) : s.aside [] = s.unflagged := by
  have hall : s.active.filter (fun label => !List.contains [] label) = s.active :=
    List.filter_eq_self.mpr fun _ _ => rfl
  rw [Session.aside, hall, Session.unflagged]

theorem Session.aside_active (s : Session) : s.aside s.active = s.alone := by
  have hnone : s.active.filter (fun label => !s.active.contains label) = [] := by
    refine List.filter_eq_nil_iff.mpr fun label hlabel => ?_
    rw [List.contains_iff_mem.mpr hlabel]
    exact Bool.false_ne_true
  rw [Session.aside, hnone, Session.alone]

theorem Session.mem_aside {outer : List Name} {s : Session} {label : Name} :
    label ∈ (s.aside outer).active ↔ label ∈ s.active ∧ label ∉ outer := by
  simp [Session.aside]

def Work.aside (outer : List Name) (w : Work) : Work :=
  { w with session := w.session.aside outer }

namespace InferM

variable {α β : Type} {context : Context}

/-- Whether every run that is not called off can be replayed in a session without the flag, and without declarations in
progress that the run has not noted. -/
def Replays (context : Context) (x x' : InferM α) : Prop :=
  ∀ w a w', x context w = (.ok a, w') → w'.pass.cancelled = false → ∀ outer : List Name,
    (∀ label ∈ outer, label ∉ w'.pass.recursive) → x' context (w.aside outer) = (.ok a, w'.aside outer)

theorem Replays.bind_of_run {x x' : InferM α} {f f' : α → InferM β} (hx : Replays context x x')
    (hf : ∀ w a w', x context w = (.ok a, w') → Replays context (f a) (f' a) ∧ Growing context (f a)) :
    Replays context (x >>= f) (x' >>= f') := by
  intro w b w' hrun hcancelled outer hnotes
  obtain ⟨a, w₁, hrun₁, hrun₂⟩ := run_bind_inv hrun
  obtain ⟨hreplays, hgrowing⟩ := hf _ _ _ hrun₁
  have hgrows := hgrowing _ _ _ hrun₂
  have hcancelled₁ : w₁.pass.cancelled = false :=
    Bool.eq_false_iff.mpr fun h => Bool.eq_false_iff.mp hcancelled (hgrows.cancelled h)
  have hfirst := hx _ _ _ hrun₁ hcancelled₁ outer fun label hlabel hnoted =>
    hnotes label hlabel (hgrows.recursive hnoted)
  rw [run_bind_ok _ hfirst]
  exact hreplays _ _ _ hrun₂ hcancelled outer hnotes

theorem Replays.bind {x x' : InferM α} {f f' : α → InferM β} (hx : Replays context x x')
    (hf : ∀ a, Replays context (f a) (f' a)) (hgrowing : ∀ a, Growing context (f a)) :
    Replays context (x >>= f) (x' >>= f') :=
  hx.bind_of_run fun _ a _ _ => ⟨hf a, hgrowing a⟩

/-- What has nothing to do with the session. -/
theorem replays_of_pass {x : InferM α} (h : ∀ pass, ∃ out pass', ∀ s, x context ⟨s, pass⟩ = (out, ⟨s, pass'⟩)) :
    Replays context x x := by
  rintro ⟨s, pass⟩ a w' hrun - outer -
  obtain ⟨out, pass', hx⟩ := h pass
  rw [hx] at hrun
  cases hrun
  exact hx _

/-- What takes of the session neither the flag nor the declarations in progress. -/
theorem replays_session {x : SessionM α}
    (h : ∀ s a s', x context.engine s = (.ok a, s') → ∀ outer, x context.engine (s.aside outer) = (.ok a, s'.aside outer)) :
    Replays context (session x) (session x) := by
  intro w a w' hrun _ outer _
  obtain ⟨s, hx, rfl⟩ := run_session_inv hrun
  have hsame : x context.engine (w.aside outer).session = _ := h _ a _ hx outer
  rw [run_session, hsame]
  rfl

theorem replays_pure (a : α) : Replays context (pure a) (pure a) :=
  replays_of_pass fun _ => ⟨_, _, fun _ => rfl⟩

theorem replays_getPass : Replays context getPass getPass :=
  replays_of_pass fun _ => ⟨_, _, fun _ => rfl⟩

theorem replays_modifyPass (f : Pass → Pass) : Replays context (modifyPass f) (modifyPass f) :=
  replays_of_pass fun _ => ⟨_, _, fun _ => rfl⟩

theorem replays_allocate (work : Store → α × Store) : Replays context (allocate work) (allocate work) := by
  intro w a w' hrun _ outer _
  rw [run_allocate] at hrun ⊢
  cases hrun
  rfl

theorem replays_store (work : StoreM α) : Replays context (store work) (store work) := by
  intro w a w' hrun _ outer _
  obtain ⟨s', hwork, rfl⟩ := run_store_inv hrun
  exact run_store_ok hwork

theorem replays_trip (name : Ref) : Replays context (session (SessionM.trip name)) (session (SessionM.trip name)) := by
  refine replays_session fun s a s' hrun outer => ?_
  obtain ⟨flag, rfl⟩ := SessionM.run_trip_inv hrun
  exact SessionM.run_trip_of_none rfl name

theorem replays_findValues (name : Ref) :
    Replays context (session (SessionM.findValues name)) (session (SessionM.findValues name)) := by
  refine replays_session fun s a s' hrun outer => ?_
  obtain ⟨rfl, flag, rfl⟩ := SessionM.run_findValues_inv hrun
  exact SessionM.run_findValues_of_none rfl name

theorem replays_withTypes (work : StateM TypeTable α) :
    Replays context (session (SessionM.withTypes work)) (session (SessionM.withTypes work)) := by
  refine replays_session fun s a s' hrun outer => ?_
  cases hrun
  rfl

/-- Either the work is called off when the flag is looked at, or only the flag has changed. -/
theorem run_lookout_inv {w w' : Work} {seen : Bool} (hrun : isCancelled context w = (.ok seen, w')) :
    w'.pass.cancelled = seen ∧ (seen = false → w'.pass = w.pass) ∧ ∃ flag, w'.session = { w.session with flag } := by
  obtain ⟨_, _, hpass, hrun⟩ := run_bind_inv hrun
  cases hpass
  split at hrun
  · next hcancelled =>
    cases hrun
    exact ⟨hcancelled, nofun, _, rfl⟩
  · next hcancelled =>
    obtain ⟨seen', w₁, hseen, hrun⟩ := run_bind_inv hrun
    obtain ⟨s, hlook, rfl⟩ := run_session_inv hseen
    obtain ⟨flag, hflag⟩ := SessionM.run_isCancelled_inv hlook
    cases seen' with
    | true =>
      cases hrun
      exact ⟨rfl, nofun, flag, hflag⟩
    | false =>
      cases hrun
      exact ⟨Bool.eq_false_iff.mpr hcancelled, fun _ => rfl, flag, hflag⟩

theorem replays_isCancelled : Replays context isCancelled isCancelled := by
  rintro w seen ⟨s', pass'⟩ hrun hcancelled outer -
  obtain ⟨hseen, hpass, flag, hsession⟩ := run_lookout_inv hrun
  obtain rfl : false = seen := hcancelled.symm.trans hseen
  obtain rfl : pass' = w.pass := hpass rfl
  obtain rfl : s' = { w.session with flag } := hsession
  have hlooked : session SessionM.isCancelled context (w.aside outer) = (.ok false, w.aside outer) := by
    rw [run_session, SessionM.run_isCancelled_of_none rfl]
  have hpassed : getPass context (w.aside outer) = (.ok w.pass, w.aside outer) := rfl
  rw [isCancelled, run_bind_ok _ hpassed, if_neg (Bool.eq_false_iff.mp hcancelled), run_bind_ok _ hlooked]
  rfl

theorem replays_constructorTypes (name : Ref) : Replays context (constructorTypes name) (constructorTypes name) := by
  refine (replays_findValues name).bind (fun targets => ?_) fun targets => ?_
  · split
    · refine Replays.bind (replays_of_pass fun _ => ⟨_, _, fun _ => rfl⟩) (fun _ => ?_) fun _ => ?_
      · exact (replays_withTypes _).bind (fun _ => replays_allocate _) fun _ => growing_allocate _
      · exact (growing_session _).bind fun _ => growing_allocate _
    · refine (replays_allocate _).bind (fun t => ?_) fun t => ?_
      · split <;> exact replays_pure _
      · split <;> exact growing_pure _
    · exact replays_pure _
  · split
    · exact (growing_of_unchanged fun _ => rfl).bind fun _ => (growing_session _).bind fun _ => growing_allocate _
    · refine (growing_allocate _).bind fun t => ?_
      split <;> exact growing_pure _
    · exact growing_pure _

theorem Contained.replays {records : Prop} {x : InferM α} (h : Contained records True x) : Replays context x x := by
  induction h with
  | pure a => exact replays_pure a
  | bind _ hf hx hf' => exact hx.bind hf' fun a => (hf a).growing
  | throw fault => exact fun _ _ _ hrun => by cases hrun
  | read => exact replays_of_pass fun _ => ⟨_, _, fun _ => rfl⟩
  | inspect _ _ hf hf' => exact replays_getPass.bind hf' fun pass => (hf pass).growing
  | modify _ _ _ _ => exact replays_modifyPass _
  | record _ id t => exact replays_modifyPass _
  | store work => exact replays_store work
  | allocate work => exact replays_allocate work
  | isCancelled => exact replays_isCancelled
  | trip name => exact replays_trip name
  | findValues name => exact replays_findValues name
  | convert rigid vars t =>
    intro w a w' hrun _ outer _
    rw [run_convert] at hrun ⊢
    cases hrun
    rfl
  | constructorTypes name => exact replays_constructorTypes name

/-! ### References to other declarations -/

/-- How a declaration is called so that its call can be replayed, if it is not called off. -/
def CallReplays (engine : Engine) (decl : ValueDecl) (x x' : SessionM (Except InferError Inferred)) : Prop :=
  ∀ s outcome s', x engine s = (.ok outcome, s') → outcome ≠ .error .cancelled → ∀ outer : List Name,
    (decl.head.label ∈ outer → decl.head.label ∉ s.active) →
    (∀ result notes, outcome = .ok (result, notes) → ∀ label ∈ outer, label ∉ notes) →
    x' engine (s.aside outer) = (.ok outcome, s'.aside outer)

variable {calls : Nat → ValueDecl → SessionM (Except InferError Inferred) → SessionM (Except InferError Inferred) → Prop}

theorem replays_awaited {decl : ValueDecl} {call call' : SessionM (Except InferError Inferred)}
    {use use' : InferenceResult → InferM α} (nothing : α) (hcall : CallReplays context.engine decl call call')
    (huse : ∀ result, Replays context (use result) (use' result)) (hgrowing : ∀ result, Growing context (use result)) :
    Replays context (awaited decl.head.label call use nothing) (awaited decl.head.label call' use' nothing) := by
  intro w a w' hrun hcancelled outer hnotes
  by_cases hactive : decl.head.label ∈ w.session.active
  · rw [run_awaited_of_active hactive] at hrun
    cases hrun
    have hkept : decl.head.label ∉ outer := fun hmem => hnotes _ hmem (List.mem_append_right _ (List.mem_singleton_self _))
    exact run_awaited_of_active (Session.mem_aside.mpr ⟨hactive, hkept⟩)
  · rw [run_awaited_of_free hactive] at hrun
    rw [run_awaited_of_free fun hmem => hactive (Session.mem_aside.mp hmem).1]
    obtain ⟨outcome, s, hcalled, hout⟩ := run_called_inv hrun
    have hcalled' (hnot : outcome ≠ .error .cancelled)
        (hdisjoint : ∀ result notes, outcome = .ok (result, notes) → ∀ label ∈ outer, label ∉ notes) :
        session call' context (w.aside outer) = (.ok outcome, ⟨s.aside outer, w.pass⟩) := by
      have hrun' : call' context.engine (w.aside outer).session = _ :=
        hcall _ _ _ hcalled hnot outer (fun _ => hactive) hdisjoint
      rw [run_session, hrun']
      rfl
    obtain ⟨result, notes, rfl, hused⟩ | ⟨rfl, -, rfl⟩ | ⟨name, rfl, rfl, rfl⟩ := hout
    · have hgrows := hgrowing result _ _ _ hused
      have hdisjoint : ∀ label ∈ outer, label ∉ notes := fun label hlabel hnoted =>
        hnotes label hlabel (hgrows.recursive (List.mem_append_right _ hnoted))
      rw [called, run_bind_ok _ (hcalled' nofun fun _ _ heq => by cases heq; exact hdisjoint)]
      exact huse result _ _ _ hused hcancelled outer hnotes
    · cases hcancelled
    · rw [called, run_bind_ok _ (hcalled' nofun nofun)]
      rfl

/-- Inference can be replayed if the calls of other declarations can. -/
theorem Composed.replays {x x' : InferM α} (h : Composed context.engine calls x x')
    (hcalls : ∀ index decl x x', calls index decl x x' → CallReplays context.engine decl x x') :
    Replays context x x' := by
  induction h with
  | contained h => exact h.replays
  | diverged _ => exact fun _ _ _ hrun => by cases hrun
  | bind _ hf hx hf' => exact hx.bind hf' fun a => (hf a).growing
  | engine _ h => exact h
  | find name hf h =>
    refine (replays_findValues name).bind_of_run fun w targets w' hrun => ?_
    obtain rfl := run_findValues hrun
    exact ⟨h, hf.growing⟩
  | getPass => exact replays_getPass
  | modify _ => exact replays_modifyPass _
  | unionType _ | expand _ => exact replays_withTypes _
  | awaited nothing _ _ hcall hused huse =>
    exact replays_awaited nothing (hcalls _ _ _ _ hcall) huse fun result => (hused result).growing

end InferM

/-! ### Declarations on their own -/

namespace SessionM

variable {engine : Engine} {i : Nat} {d : ValueDecl} {s s' : Session} {key : DeclKey} {outer : List Name}

def inner (key : DeclKey) (outer : List Name) : List Name :=
  outer.filter (· != key.name)

theorem mem_inner {label : Name} : label ∈ inner key outer ↔ label ∈ outer ∧ label ≠ key.name := by
  simp [inner]

theorem aside_entered (h : key.name ∈ outer → key.name ∉ s.active) (flag : Option CancelFlag) :
    (entered key { s with flag }).aside (inner key outer) = entered key (s.aside outer) := by
  have hself : (!(inner key outer).contains key.name) = true := by simp [inner]
  have hothers : s.active.filter (fun label => !(inner key outer).contains label) =
      s.active.filter (fun label => !outer.contains label) := by
    refine List.filter_congr fun label hlabel => ?_
    by_cases hmem : label ∈ outer
    · have hne : label ≠ key.name := fun heq => h (heq ▸ hmem) (heq ▸ hlabel)
      rw [List.contains_iff_mem.mpr hmem, List.contains_iff_mem.mpr (mem_inner.mpr ⟨hmem, hne⟩)]
    · simp [hmem, inner]
  have hactive : (key.name :: s.active).filter (fun label => !(inner key outer).contains label) =
      key.name :: s.active.filter (fun label => !outer.contains label) := by
    rw [← hothers]
    exact List.filter_cons_of_pos hself
  exact congrArg (fun active => ({ s with active, flag := none } : Session)) hactive

theorem aside_left (s : Session) : left key (s.aside (inner key outer)) = (left key s).aside outer := by
  have hactive : (s.active.filter (fun label => !(inner key outer).contains label)).filter (· != key.name) =
      (s.active.filter (· != key.name)).filter (fun label => !outer.contains label) := by
    rw [List.filter_filter, List.filter_filter]
    refine List.filter_congr fun label _ => ?_
    by_cases hname : label = key.name
    · simp [hname]
    · by_cases hmem : label ∈ outer <;> simp [inner, hname, hmem]
  exact congrArg (fun active => ({ s with active, flag := none } : Session)) hactive

theorem aside_concluded (outcome : Except InferError Inferred) (s : Session) :
    concluded key (s.aside outer) outcome = ((concluded key s outcome).1, (concluded key s outcome).2.aside outer) := by
  rcases outcome with e | ⟨result, notes⟩
  · rfl
  · simp only [concluded]
    split <;> rfl

open InferM in
/-- A call of a declaration that is not called off can be replayed, also if it may go deeper. The induction is on the
depth, since the calls within go less deep. -/
theorem callReplays_inferTopLevel {m n : Nat} (h : m ≤ n) (i : Nat) (d : ValueDecl) :
    CallReplays engine d (inferTopLevel (exprAt m) i d) (inferTopLevel (exprAt n) i d) := by
  induction m using Nat.strong_induction_on generalizing n i d with
  | _ m ih =>
  intro s outcome s' hrun hnot outer hfree hnotes
  rcases hkept : s.cache.get? (DeclKey.ofDecl engine.file d) with _ | result
  · obtain ⟨flag, ⟨rfl, -⟩ | hcompute⟩ := run_inferTopLevel_new_inv hkept hrun
    · exact absurd rfl hnot
    obtain ⟨out, w, hdecl, hconcluded⟩ := run_compute_pass hcompute
    have hreplays : Replays ⟨engine, i⟩ (inferDeclaration (exprAt m) d) (inferDeclaration (exprAt n) d) := by
      refine (composed_inferDeclaration (composed_exprAt (Nat.le_refl m) h) d).replays ?_
      rintro index decl _ _ ⟨m', n', hm', hn', rfl, rfl⟩
      exact ih m' hm' hn' index decl
    obtain ⟨rfl, -⟩ | ⟨result, rfl, hcancelled, -⟩ := run_inferDeclaration_inv hdecl
    · cases hconcluded
      exact absurd rfl hnot
    obtain rfl : _ = outcome := congrArg Prod.fst hconcluded
    have hinner : ∀ label ∈ inner (DeclKey.ofDecl engine.file d) outer, label ∉ w.pass.recursive := by
      intro label hlabel hnoted
      obtain ⟨hmem, hne⟩ := mem_inner.mp hlabel
      exact hnotes _ _ rfl label hmem (List.mem_filter.mpr ⟨hnoted, bne_iff_ne.mpr hne⟩)
    have hpass := hreplays _ _ _ hdecl hcancelled _ hinner
    have hstart : (Work.aside (inner (DeclKey.ofDecl engine.file d) outer)
        ⟨entered (DeclKey.ofDecl engine.file d) { s with flag }, {}⟩) =
        ⟨entered (DeclKey.ofDecl engine.file d) (s.aside outer), {}⟩ :=
      congrArg (Work.mk · {}) (aside_entered hfree flag)
    rw [hstart] at hpass
    have hkept' : (s.aside outer).cache.get? (DeclKey.ofDecl engine.file d) = none := hkept
    rw [run_inferTopLevel_of_new rfl hkept', run_compute hpass, Work.aside, aside_left, aside_concluded, hconcluded]
  · have hkept' : (s.aside outer).cache.get? (DeclKey.ofDecl engine.file d) = some result := hkept
    rw [run_inferTopLevel_of_kept hkept] at hrun
    rw [run_inferTopLevel_of_kept hkept']
    cases hrun
    rfl

end SessionM

/-! ### What becomes of a session -/

namespace Cache

variable {c : Cache} {key other : DeclKey} {result found : InferenceResult}

theorem entry_insert_of_ne (h : key.name ≠ other.name) :
    Assoc.get? (c.insert key result).entries other = Assoc.get? c.entries other := by
  have hkept : ∀ entry : Entry, (!(other, entry).1.sameDecl key || (other, entry).1.signature == key.signature) = true := by
    intro entry
    simp [DeclKey.sameDecl, Ne.symm h]
  rw [insert, Assoc.get?_set_of_ne _ _ fun heq => h (congrArg DeclKey.name heq), Assoc.get?_filter hkept]

theorem computationsOf_insert_of_ne (h : key.name ≠ other.name) :
    (c.insert key result).computationsOf other.file other.name = c.computationsOf other.file other.name := by
  rw [computationsOf, insert, Assoc.get?_set_of_ne _ _ fun heq => h (congrArg Prod.snd heq), computationsOf]

/-- What is found after an insertion is what was inserted, or was there before. -/
theorem eq_or_of_get?_insert (h : (c.insert key result).get? other = some found) :
    (other = key ∧ found = result) ∨ c.get? other = some found := by
  by_cases heq : other = key
  · rw [heq, get?_insert_self] at h
    exact .inl ⟨heq, (Option.some.inj h).symm⟩
  · rw [get?, insert, Assoc.get?_set_of_ne _ _ (Ne.symm heq)] at h
    cases hkept : !other.sameDecl key || other.signature == key.signature with
    | true =>
      rw [Assoc.get?_filter fun _ => hkept] at h
      exact .inr h
    | false =>
      rw [Assoc.get?_filter_of_not fun _ => hkept] at h
      cases h

end Cache

namespace Engine

variable {engine : Engine}

/-- What can happen to a session: a declaration is answered for, or declared types are converted. -/
inductive Proceeds (engine : Engine) : Session → Session → Prop where
  | answer {s s' : Session} {i : Nat} {result : InferenceResult}
      (h : engine.infer (.declared i) s = (.ok (.ok result), s')) : Proceeds engine s s'
  | convert (s : Session) (rigid : Bool) (t : TypeExpr) (store : Store) (vars : Assoc Name Ty) :
      Proceeds engine s (s.withTypes (Conversion.convert engine.scope rigid t { table := s.types, store, vars }).2.table)
  | unionType (s : Session) (m : Name) (decl : UnionDecl) :
      Proceeds engine s (s.withTypes (TypeTable.unionType engine.scope m decl s.types).2)
  | expand (s : Session) (m : Name) (decl : AliasDecl) :
      Proceeds engine s (s.withTypes (TypeTable.expand engine.scope m decl s.types).2)

/-- Whether a result is the answer for the declaration of a key in a session that nobody can call off, in which nothing
is in progress, and which a given one became by nothing else than such answers and conversions. -/
def Earned (engine : Engine) (s : Session) (key : DeclKey) (result : InferenceResult) : Prop :=
  ∃ i d, ∃ s₁ s₂ : Session, engine.scope.module.valueAt? i = some d ∧ key = DeclKey.ofDecl engine.file d ∧
    Relation.ReflTransGen engine.Proceeds s.alone s₁.alone ∧ engine.infer (.declared i) s₁.alone = (.ok (.ok result), s₂)

/-- Whether work has left a session in order: nothing more and nothing less is in progress, the entries of declarations
in progress are as they were, and what is new has been earned. -/
structure Orderly (engine : Engine) (s s' : Session) : Prop where
  active : s'.active = s.active
  converting : s'.converting = s.converting
  untouched : ∀ key : DeclKey, key.name ∈ s.active → Assoc.get? s'.cache.entries key = Assoc.get? s.cache.entries key ∧
    s'.cache.computationsOf key.file key.name = s.cache.computationsOf key.file key.name
  reached : Relation.ReflTransGen engine.Proceeds s.alone s'.alone
  earned : ∀ key result, s'.cache.get? key = some result → s.cache.get? key = some result ∨ engine.Earned s key result

namespace Orderly

variable {s s₁ s' : Session}

theorem refl (s : Session) : engine.Orderly s s :=
  ⟨rfl, rfl, fun _ _ => ⟨rfl, rfl⟩, .refl, fun _ _ => .inl⟩

theorem trans (h : engine.Orderly s s₁) (h' : engine.Orderly s₁ s') : engine.Orderly s s' := by
  refine ⟨h'.active.trans h.active, h'.converting.trans h.converting, fun key hkey => ?_, h.reached.trans h'.reached,
    fun key result hresult => ?_⟩
  · obtain ⟨hentry, hcount⟩ := h.untouched key hkey
    obtain ⟨hentry', hcount'⟩ := h'.untouched key (h.active ▸ hkey)
    exact ⟨hentry'.trans hentry, hcount'.trans hcount⟩
  · rcases h'.earned key result hresult with hbefore | ⟨i, d, s₂, s₃, hd, hkey, hreached, hanswer⟩
    · exact h.earned key result hbefore
    · exact .inr ⟨i, d, s₂, s₃, hd, hkey, h.reached.trans hreached, hanswer⟩

/-- The flag is no part of the order. -/
theorem flag (s : Session) (flag : Option CancelFlag) : engine.Orderly s { s with flag } :=
  ⟨rfl, rfl, fun _ _ => ⟨rfl, rfl⟩, .refl, fun _ _ => .inl⟩

theorem withTypes {table : TypeTable} (hconverting : table.converting = s.converting)
    (hstep : engine.Proceeds s.alone (s.withTypes table).alone) : engine.Orderly s (s.withTypes table) :=
  ⟨rfl, hconverting, fun _ _ => ⟨rfl, rfl⟩, .single hstep, fun _ _ => .inl⟩

end Orderly

/-- Whether a relation holds between a session and what it becomes when nothing is inferred: the flag may be another
one, and declared types are converted. -/
structure Tolerates (engine : Engine) (R : Session → Session → Prop) : Prop where
  refl : ∀ s, R s s
  trans : ∀ {s s₁ s'}, R s s₁ → R s₁ s' → R s s'
  flag : ∀ (s : Session) (flag : Option CancelFlag), R s { s with flag }
  withTypes : ∀ {s : Session} {table : TypeTable}, table.converting = s.converting →
    engine.Proceeds s.alone (s.withTypes table).alone → R s (s.withTypes table)

theorem tolerates_orderly : engine.Tolerates engine.Orderly :=
  ⟨.refl, .trans, .flag, .withTypes⟩

end Engine

namespace InferM

variable {α β : Type} {context : Context}

/-- Whether every run that returns leaves a session that is related to the one it started from. -/
def Relates (context : Context) (R : Session → Session → Prop) (x : InferM α) : Prop :=
  ∀ w a w', x context w = (.ok a, w') → R w.session w'.session

section Relates

variable {R : Session → Session → Prop} (hR : context.engine.Tolerates R)

include hR

theorem Relates.bind {x : InferM α} {f : α → InferM β} (hx : Relates context R x) (hf : ∀ a, Relates context R (f a)) :
    Relates context R (x >>= f) := by
  intro w b w' hrun
  obtain ⟨a, w₁, hrun₁, hrun₂⟩ := run_bind_inv hrun
  exact hR.trans (hx _ _ _ hrun₁) (hf a _ _ _ hrun₂)

theorem relates_of_unchanged {x : InferM α} (h : ∀ w a w', x context w = (.ok a, w') → w'.session = w.session) :
    Relates context R x :=
  fun w a w' hrun => h w a w' hrun ▸ hR.refl _

theorem relates_pure (a : α) : Relates context R (pure a) :=
  relates_of_unchanged hR fun _ _ _ hrun => by cases hrun; rfl

theorem relates_modifyPass (f : Pass → Pass) : Relates context R (modifyPass f) :=
  relates_of_unchanged hR fun _ _ _ hrun => by cases hrun; rfl

theorem relates_allocate (work : Store → α × Store) : Relates context R (allocate work) :=
  relates_of_unchanged hR fun _ _ _ hrun => by
    rw [run_allocate] at hrun
    cases hrun
    rfl

omit hR in
theorem relates_session {x : SessionM α} (h : ∀ s a s', x context.engine s = (.ok a, s') → R s s') :
    Relates context R (session x) := by
  intro w a w' hrun
  obtain ⟨s, hx, rfl⟩ := run_session_inv hrun
  exact h _ _ _ hx

theorem relates_trip (name : Ref) : Relates context R (session (SessionM.trip name)) :=
  relates_session fun s _ _ hrun => by
    obtain ⟨flag, rfl⟩ := SessionM.run_trip_inv hrun
    exact hR.flag s flag

theorem relates_findValues (name : Ref) : Relates context R (session (SessionM.findValues name)) :=
  relates_session fun s _ _ hrun => by
    obtain ⟨-, flag, rfl⟩ := SessionM.run_findValues_inv hrun
    exact hR.flag s flag

theorem relates_unionType (m : Name) (decl : UnionDecl) :
    Relates context R (session (SessionM.withTypes (TypeTable.unionType context.engine.scope m decl))) :=
  relates_session fun s _ _ hrun => by
    cases hrun
    exact hR.withTypes (converting_unionType m decl _) (.unionType s.alone m decl)

theorem relates_expand (m : Name) (decl : AliasDecl) :
    Relates context R (session (SessionM.withTypes (TypeTable.expand context.engine.scope m decl))) :=
  relates_session fun s _ _ hrun => by
    cases hrun
    exact hR.withTypes (converting_expand m decl _) (.expand s.alone m decl)

omit hR in
theorem relates_engine_bind {f : Engine → InferM α} (h : Relates context R (f context.engine)) :
    Relates context R (engine >>= f) :=
  h

theorem relates_constructorTypes (name : Ref) : Relates context R (constructorTypes name) := by
  refine (relates_findValues hR name).bind hR fun targets => ?_
  split
  · exact relates_engine_bind ((relates_unionType hR _ _).bind hR fun _ => relates_allocate hR _)
  · refine (relates_allocate hR _).bind hR fun t => ?_
    split <;> exact relates_pure hR _
  · exact relates_pure hR _

theorem Contained.relates {records : Prop} {x : InferM α} (h : Contained records True x) : Relates context R x := by
  induction h with
  | pure a => exact relates_pure hR a
  | bind _ _ hx hf => exact hx.bind hR hf
  | throw fault => exact fun _ _ _ hrun => by cases hrun
  | read => exact relates_of_unchanged hR fun _ _ _ hrun => by cases hrun; rfl
  | inspect _ _ _ h => exact Relates.bind hR (relates_of_unchanged hR fun _ _ _ hrun => by cases hrun; rfl) h
  | modify _ _ _ _ => exact relates_modifyPass hR _
  | record _ id t => exact relates_modifyPass hR _
  | store work =>
    refine relates_of_unchanged hR fun w a w' hrun => ?_
    obtain ⟨s, -, rfl⟩ := run_store_inv hrun
    rfl
  | allocate work => exact relates_allocate hR work
  | isCancelled =>
    intro w seen w' hrun
    obtain ⟨-, -, flag, hsession⟩ := run_lookout_inv hrun
    rw [hsession]
    exact hR.flag _ flag
  | trip name => exact relates_trip hR name
  | findValues name => exact relates_findValues hR name
  | convert rigid vars t =>
    intro w a w' hrun
    rw [run_convert] at hrun
    cases hrun
    exact hR.withTypes (converting_convert _ _ _ _) (.convert w.session.alone rigid t w.pass.store vars)
  | constructorTypes name => exact relates_constructorTypes hR name

variable {calls : Nat → ValueDecl → SessionM (Except InferError Inferred) → SessionM (Except InferError Inferred) → Prop}

/-- A relation that is kept up by calls of other declarations is kept up by inference. -/
theorem Composed.relates {x x' : InferM α} (h : Composed context.engine calls x x')
    (hcalls : ∀ index decl x x', context.engine.scope.Offers (.value index decl) → calls index decl x x' →
      ∀ s outcome s', decl.head.label ∉ s.active → x context.engine s = (.ok outcome, s') → R s s') :
    Relates context R x := by
  induction h with
  | contained h => exact h.relates hR
  | diverged _ => exact fun _ _ _ hrun => by cases hrun
  | bind _ _ hx hf => exact hx.bind hR hf
  | engine _ h => exact h
  | find name _ h =>
    intro w b w' hrun
    obtain ⟨targets, w₁, hfind, hrun⟩ := run_bind_inv hrun
    obtain rfl := run_findValues hfind
    exact hR.trans (relates_findValues hR name _ _ _ hfind) (h _ _ _ hrun)
  | getPass => exact relates_of_unchanged hR fun _ _ _ hrun => by cases hrun; rfl
  | modify _ => exact relates_modifyPass hR _
  | unionType _ => exact relates_unionType hR _ _
  | expand _ => exact relates_expand hR _ _
  | @awaited _ _ decl _ _ _ _ nothing hoffers _ hcall _ huse =>
    intro w a w' hrun
    by_cases hactive : decl.head.label ∈ w.session.active
    · rw [run_awaited_of_active hactive] at hrun
      cases hrun
      exact hR.refl _
    · rw [run_awaited_of_free hactive] at hrun
      obtain ⟨outcome, s, hcalled, hout⟩ := run_called_inv hrun
      have hrelated := hcalls _ _ _ _ hoffers hcall _ _ _ hactive hcalled
      obtain ⟨result, notes, -, hused⟩ | ⟨-, -, rfl⟩ | ⟨_, -, -, rfl⟩ := hout
      · exact hR.trans hrelated (huse result _ _ _ hused)
      · exact hrelated
      · exact hrelated

/-- A relation that is kept up by calls that go less deep is kept up by a pass. -/
theorem relates_inferDeclaration {n : Nat} (d : ValueDecl)
    (hcalls : ∀ m < n, ∀ index decl (s : Session) outcome s', context.engine.scope.Offers (.value index decl) →
      decl.head.label ∉ s.active →
      SessionM.inferTopLevel (exprAt m) index decl context.engine s = (.ok outcome, s') → R s s') :
    Relates context R (inferDeclaration (exprAt n) d) := by
  refine (composed_inferDeclaration (composed_exprAt (Nat.le_refl n) (Nat.le_refl n)) d).relates hR ?_
  rintro index decl _ _ hoffers ⟨m, _, hm, -, rfl, -⟩ s₁ outcome s₁' hfree hrun₁
  exact hcalls m hm index decl s₁ outcome s₁' hoffers hfree hrun₁

end Relates

end InferM

namespace SessionM

variable {engine : Engine} {i n : Nat} {d : ValueDecl} {s s' : Session}

/-- The session after a declaration that depends on none in progress is that after a request for the declaration, without
flag and with nothing in progress. -/
theorem infer_alone (hn : n ≤ engine.budget) (hoffers : engine.scope.Offers (.value i d)) (hfree : d.head.label ∉ s.active)
    {result : InferenceResult} (hrun : inferTopLevel (InferM.exprAt n) i d engine s = (.ok (.ok (result, [])), s')) :
    engine.infer (.declared i) s.alone = (.ok (.ok result), s'.aside s.active) := by
  have halone : inferTopLevel (InferM.exprAt engine.budget) i d engine s.alone = _ :=
    s.aside_active ▸ callReplays_inferTopLevel hn i d s _ s' hrun nofun s.active (fun _ => hfree) fun _ _ heq => by
      cases heq
      exact fun _ _ => List.not_mem_nil
  rw [Engine.infer_of_named hoffers.1 hoffers.2 rfl, halone]
  rfl

open InferM in
/-- A call of a declaration that is not in progress leaves the session in order. The induction is on the depth. -/
theorem orderly_inferTopLevel {outcome : Except InferError Inferred} (hn : n ≤ engine.budget)
    (hoffers : engine.scope.Offers (.value i d)) (hfree : d.head.label ∉ s.active)
    (hrun : inferTopLevel (exprAt n) i d engine s = (.ok outcome, s')) : engine.Orderly s s' := by
  induction n using Nat.strong_induction_on generalizing i d s s' outcome with
  | _ n ih =>
  rcases hkept : s.cache.get? (DeclKey.ofDecl engine.file d) with _ | result
  · obtain ⟨flag, ⟨-, rfl⟩ | hcompute⟩ := run_inferTopLevel_new_inv hkept hrun
    · exact .flag s flag
    obtain ⟨out, w, hdecl, hconcluded⟩ := run_compute_pass hcompute
    have hpass : engine.Orderly (entered (DeclKey.ofDecl engine.file d) { s with flag }) w.session :=
      relates_inferDeclaration Engine.tolerates_orderly d (fun m hm _ _ _ _ _ => ih m hm (Nat.le_of_lt (Nat.lt_of_lt_of_le hm hn)))
        _ _ _ hdecl
    have hactive : (left (DeclKey.ofDecl engine.file d) w.session).active = s.active :=
      active_left_entered (s := s) hfree hpass.active
    have hleft : engine.Orderly s (left (DeclKey.ofDecl engine.file d) w.session) :=
      ⟨hactive, hpass.converting, fun key hkey => hpass.untouched key (List.mem_cons_of_mem _ hkey), hpass.reached,
        hpass.earned⟩
    rcases out with e | ⟨result, notes⟩
    · cases hconcluded
      exact hleft
    · obtain ⟨rfl, rfl⟩ := Prod.mk.inj hconcluded
      split
      · next hnone =>
        rw [if_pos hnone, List.isEmpty_iff.mp hnone] at hrun
        have hanswer := infer_alone hn hoffers hfree hrun
        refine ⟨hactive, hleft.converting, fun key hkey => ?_, ?_, fun key found hfound => ?_⟩
        · have hne : (DeclKey.ofDecl engine.file d).name ≠ key.name := fun heq => hfree (heq.symm ▸ hkey :)
          obtain ⟨hentry, hcount⟩ := hleft.untouched key hkey
          exact ⟨(Cache.entry_insert_of_ne hne).trans hentry, (Cache.computationsOf_insert_of_ne hne).trans hcount⟩
        · refine .single (.answer (show engine.infer (.declared i) _ = (.ok (.ok result), _) from hanswer.trans ?_))
          rw [← hactive]
          exact congrArg _ (Session.aside_active _)
        · rcases Cache.eq_or_of_get?_insert hfound with ⟨rfl, rfl⟩ | hbefore
          · exact .inr ⟨i, d, s, _, hoffers.1, rfl, .refl, hanswer⟩
          · exact hleft.earned key found hbefore
      · exact hleft
  · rw [run_inferTopLevel_of_kept hkept] at hrun
    cases hrun
    exact .refl s

open InferM in
/-- A declaration that is called off keeps the entries that it had. -/
theorem untouched_of_cancelled (hn : n ≤ engine.budget)
    (hrun : inferTopLevel (exprAt n) i d engine s = (.ok (.error .cancelled), s')) (key : DeclKey)
    (hkey : key.name = d.head.label) : Assoc.get? s'.cache.entries key = Assoc.get? s.cache.entries key ∧
      s'.cache.computationsOf key.file key.name = s.cache.computationsOf key.file key.name := by
  rcases hkept : s.cache.get? (DeclKey.ofDecl engine.file d) with _ | result
  · obtain ⟨flag, ⟨-, rfl⟩ | hcompute⟩ := run_inferTopLevel_new_inv hkept hrun
    · exact ⟨rfl, rfl⟩
    obtain ⟨out, w, hdecl, hconcluded⟩ := run_compute_pass hcompute
    have hpass : engine.Orderly (entered (DeclKey.ofDecl engine.file d) { s with flag }) w.session :=
      relates_inferDeclaration Engine.tolerates_orderly d
        (fun m hm _ _ _ _ _ => orderly_inferTopLevel (Nat.le_of_lt (Nat.lt_of_lt_of_le hm hn))) _ _ _ hdecl
    obtain ⟨rfl, -⟩ | ⟨result, rfl, -⟩ := run_inferDeclaration_inv hdecl
    · cases hconcluded
      exact hpass.untouched key (hkey ▸ List.mem_cons_self)
    · cases congrArg Prod.fst hconcluded
  · rw [run_inferTopLevel_of_kept hkept] at hrun
    cases hrun

end SessionM

/-! ### Requests that are called off -/

namespace Engine

variable {engine : Engine} {s s' : Session}

/-- Whatever the flag shows whenever it is read: a result is the one without a flag. A request that is called off leaves
the entries of its declaration as they were, and every result that a request leaves behind has been earned without a
flag. Nothing more and nothing less is in progress after a request than before. -/
theorem cancellation_leaks_no_partial_result (engine : Engine) (request : Request) (s s' : Session)
    (answer : Except InferError InferenceResult)
    (hfree : ∀ d, engine.decl? request = some d → d.head.label ∉ s.active)
    (hrun : engine.infer request s = (.ok answer, s')) :
    (∀ result, answer = .ok result → engine.infer request s.unflagged = (.ok (.ok result), s'.unflagged)) ∧
      (answer = .error .cancelled → ∀ d, engine.decl? request = some d → ∀ key : DeclKey, key.name = d.head.label →
        Assoc.get? s'.cache.entries key = Assoc.get? s.cache.entries key ∧
          s'.cache.computationsOf key.file key.name = s.cache.computationsOf key.file key.name) ∧
      (∀ key result, s'.cache.get? key = some result →
        s.cache.get? key = some result ∨ engine.Earned s key result) ∧
      s'.active = s.active ∧ s'.converting = s.converting := by
  obtain ⟨flag, ⟨name, rfl, rfl⟩ | ⟨i, d, outcome, rfl, hoffers, rfl, hinfer⟩⟩ := infer_inv hrun
  · exact ⟨nofun, nofun, fun _ _ => .inl, rfl, rfl⟩
  have hdecl : engine.decl? (.declared i) = some d := hoffers.1
  have horderly : engine.Orderly s s' :=
    (Orderly.flag s flag).trans
      (SessionM.orderly_inferTopLevel (s := { s with flag }) (Nat.le_refl _) hoffers (hfree d hdecl) hinfer)
  refine ⟨fun result hresult => ?_, fun hcancelled d' hd' key hkey => ?_, horderly.earned, horderly.active,
    horderly.converting⟩
  · rcases outcome with e | ⟨found, notes⟩
    · cases hresult
    · obtain rfl : found = result := Except.ok.inj hresult
      have hreplayed := SessionM.callReplays_inferTopLevel (Nat.le_refl _) i d _ _ _ hinfer nofun [] nofun nofun
      rw [Session.aside_nil, Session.aside_nil] at hreplayed
      have hunflagged : SessionM.inferTopLevel (InferM.exprAt engine.budget) i d engine s.unflagged = _ := hreplayed
      rw [infer_of_named hoffers.1 hoffers.2 rfl, hunflagged]
      rfl
  · obtain rfl := Option.some.inj (hdecl.symm.trans hd')
    rcases outcome with e | inferred
    · obtain rfl : e = .cancelled := Except.error.inj hcancelled
      exact SessionM.untouched_of_cancelled (Nat.le_refl _) hinfer key hkey
    · cases hcancelled

/-- In `f x = g x ; g y = [ y, 1 ]`, the flag is raised after `g` has been inferred for `f`. Then `f` is called off, and
what is kept is the result of `g`. -/
theorem cancellation_leaks_no_partial_result_of_call :
    let f : ValueDecl :=
      ⟨2, none, .function ⟨3, "f"⟩ [.mk 0 0 (.var "x")],
        .mk 3 6 (.call (.mk 1 4 (.var (.plain "g"))) [.mk 2 5 (.var (.plain "x"))])⟩
    let g : ValueDecl :=
      ⟨10, none, .function ⟨11, "g"⟩ [.mk 4 7 (.var "y")],
        .mk 7 12 (.list [.mk 5 8 (.var (.plain "y")), .mk 6 9 (.literal .int)])⟩
    let engine : Engine := { file := 0, scope := { module := ⟨"Main", [.value f, .value g]⟩ } }
    let s : Session := { flag := some { upcoming := List.replicate 7 false ++ [true] } }
    let s' := (engine.infer (.declared 0) s).2
    engine.infer (.declared 0) s = (.ok (.error .cancelled), s') ∧ (s'.cache.get? ⟨0, "g", none⟩).isSome = true ∧
      s'.cache.get? ⟨0, "f", none⟩ = none ∧ s'.active = [] ∧
      ∀ key result, s'.cache.get? key = some result → engine.Earned s key result := by
  intro f g engine s s'
  have hcancelled : ((engine.infer (.declared 0) s).1.toOption.bind fun answer =>
      ((answer.map fun _ => false).tryCatch fun e => .ok (e == .cancelled)).toOption) = some true := by decide +kernel
  have hanswer : (engine.infer (.declared 0) s).1 = .ok (.error .cancelled) := by
    rcases hout : (engine.infer (.declared 0) s).1 with fault | (_ | name) | result
    · rw [hout] at hcancelled
      cases hcancelled
    · rfl
    · rw [hout] at hcancelled
      cases hcancelled
    · rw [hout] at hcancelled
      cases hcancelled
  have hrun : engine.infer (.declared 0) s = (.ok (.error .cancelled), (engine.infer (.declared 0) s).2) := by
    rw [← hanswer]
  have hkept : (s'.cache.get? ⟨0, "g", none⟩).isSome = true := by decide +kernel
  have hown : (s'.cache.get? ⟨0, "f", none⟩).isSome = false := by decide +kernel
  obtain ⟨-, -, hearned, hactive, -⟩ :=
    cancellation_leaks_no_partial_result engine (.declared 0) s s' _ (fun _ _ => List.not_mem_nil) hrun
  refine ⟨hrun, hkept, Option.not_isSome_iff_eq_none.mp (Bool.eq_false_iff.mp hown), hactive, fun key result hget => ?_⟩
  exact (hearned key result hget).resolve_left nofun

end Engine

end ElmInference
