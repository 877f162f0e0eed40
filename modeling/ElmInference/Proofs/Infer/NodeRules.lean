import ElmInference.Proofs.Infer.ExprDerivations

/-!
# The types of nodes form a derivation

The end of a pass is an account of the pass. Freezing it into a result keeps what its types say, so the types of the
result obey the rules for the types of nodes: in a module without records, whatever was unified, generalized or inferred
on demand after a type was recorded, at last it fits the types of the nodes right inside.
-/

namespace ElmInference

open Relation Store StoreM

/-! ### From one typing to another -/

namespace Typing

variable {T T' : Typing}

/-- Whether every node with a type in one typing has one that says the same in another. -/
def Refines (T' T : Typing) : Prop :=
  ∀ id z, T'.has id z → ∃ t, T.has id t ∧ T'.read z = T.read t ∧ (T.isNumber t → T'.isNumber z)

theorem Refines.all (h : T'.Refines T) {ids : List NodeId} {zs : List Ty} (hzs : T'.HasAll ids zs) :
    ∃ ts, T.HasAll ids ts ∧ zs.map T'.read = ts.map T.read := by
  induction hzs with
  | nil => exact ⟨[], .nil, rfl⟩
  | cons hfirst _ ih =>
    obtain ⟨t, ht, hread, -⟩ := h _ _ hfirst
    obtain ⟨ts, hts, hreads⟩ := ih
    exact ⟨t :: ts, .cons ht hts, congrArg₂ List.cons hread hreads⟩

theorem forall_read_eq {zs ts : List Ty} (hreads : zs.map T'.read = ts.map T.read) {x : Reading Node}
    (h : ∀ t ∈ ts, T.read t = x) : ∀ z ∈ zs, T'.read z = x := by
  intro z hz
  have hmem : T'.read z ∈ ts.map T.read := hreads ▸ List.mem_map_of_mem hz
  obtain ⟨t, ht, heq⟩ := List.mem_map.mp hmem
  exact heq ▸ h t ht

theorem Refines.obeysKind (h : T'.Refines T) {z t : Ty} (hread : T'.read z = T.read t)
    (hnumber : T.isNumber t → T'.isNumber z) {kind : ExprKind Expr} (hobeys : kind.Obeys T t) : kind.Obeys T' z := by
  cases kind with
  | conditional branches otherwise =>
    intro conditions results last hconditions hresults hlast
    obtain ⟨cs, hcs, hcreads⟩ := h.all hconditions
    obtain ⟨us, hus, hureads⟩ := h.all hresults
    obtain ⟨u, hu, hlread, -⟩ := h _ _ hlast
    obtain ⟨hbools, hsame, heq⟩ := hobeys cs us u hcs hus hu
    rw [hread, hlread]
    exact ⟨forall_read_eq hcreads hbools, forall_read_eq hureads hsame, heq⟩
  | list items =>
    intro zs hzs
    obtain ⟨ts, hts, hreads⟩ := h.all hzs
    obtain ⟨x, hlist, hitems⟩ := hobeys ts hts
    exact ⟨x, hread.trans hlist, forall_read_eq hreads hitems⟩
  | tuple items =>
    intro zs hzs
    obtain ⟨ts, hts, hreads⟩ := h.all hzs
    rw [hread, hreads]
    exact hobeys ts hts
  | lambda params body =>
    intro zs result hzs hresult
    obtain ⟨ts, hts, hreads⟩ := h.all hzs
    obtain ⟨u, hu, huread, -⟩ := h _ _ hresult
    rw [hread, hreads, huread]
    exact hobeys ts u hts hu
  | call target args =>
    intro function zs hfunction hzs
    obtain ⟨u, hu, huread, -⟩ := h _ _ hfunction
    obtain ⟨ts, hts, hreads⟩ := h.all hzs
    rw [hread, hreads, huread]
    exact hobeys u ts hu hts
  | caseOf scrutinee branches =>
    intro value patterns results hvalue hpatterns hresults
    obtain ⟨u, hu, huread, -⟩ := h _ _ hvalue
    obtain ⟨ps, hps, hpreads⟩ := h.all hpatterns
    obtain ⟨us, hus, hureads⟩ := h.all hresults
    obtain ⟨hsame, hsame'⟩ := hobeys u ps us hu hps hus
    rw [hread, huread]
    exact ⟨forall_read_eq hpreads hsame, forall_read_eq hureads hsame'⟩
  | negate operand =>
    intro y hy
    obtain ⟨u, hu, huread, -⟩ := h _ _ hy
    obtain ⟨hsame, hisNumber⟩ := hobeys u hu
    exact ⟨hread.trans (hsame.trans huread.symm), hnumber hisNumber⟩
  | _ => trivial

/-- The rules carry over to a typing whose types say the same. -/
theorem Refines.obeys (h : T'.Refines T) {n : Fragment} (hobeys : n.Obeys T) : n.Obeys T' := by
  cases n with
  | expr e =>
    obtain ⟨id, pos, kind⟩ := e
    intro z hz
    obtain ⟨t, ht, hread, hnumber⟩ := h id z hz
    exact h.obeysKind hread hnumber (hobeys t ht)
  | pattern p =>
    obtain ⟨id, pos, kind⟩ := p
    cases kind with
    | tuple items =>
      intro z zs hz hzs
      obtain ⟨t, ht, hread, -⟩ := h id z hz
      obtain ⟨ts, hts, hreads⟩ := h.all hzs
      rw [hread, hreads]
      exact hobeys t ts ht hts
    | _ => trivial

end Typing

/-! ### The end of a pass -/

namespace InferM

variable {context : Context} {w : World} {σ : Work} {t : Ty} {result : InferenceResult}

/-- A result says what the pass has found at last. -/
theorem Freezes.refines {A : Account} (hfreezes : Freezes context σ t result) (hσ : σ.Kept A w)
    {η : Env Node} (hmodels : w.1.Models η) (hfree : ∀ id, w.1.solution? id = none → η (.var id) = .const (.var id)) :
    result.typing.Refines (Account.typing ⟨A.nodes, σ.pass.nodeTypes, w.1, η⟩) := by
  rintro id z ⟨htype, hhole⟩
  have hw := hσ.fieldless
  obtain ⟨⟨id', u⟩, hmem, rfl, hzonk⟩ := exists_mem_of_forall₂ hfreezes.nodeTypes (Assoc.mem_of_get? htype)
  have hlog := mem_of_mem_latestTypes (mem_sortBy.mp hmem)
  have hu := hσ.log _ hlog
  rw [hσ.store] at hzonk
  have hdisclosed := disclosed_zonk hw.recordless hu.recordless hzonk
  have hknown : w.1.Known u := not_not.mp fun hnot => hhole (hdisclosed.hole hnot)
  refine ⟨u, ⟨hlog, hknown⟩, ?_, fun hguards => ?_⟩
  · exact (spells_zonk hmodels (fun id hsol => (hfree id hsol).symm) (not_hole_talk hknown hknown) (keeps_talk w.1 u u)
      (fun r hr => talk_of_reads (.inl .refl) .refl hr) hzonk).read
  · have hclear : ¬ w.1.Misled u := by
      rintro ⟨v, -, hastray⟩
      exact not_astray_of_solutions (fun id s hsol => hw.recordless.solution id s hsol s .refl) v hastray
    exact (hdisclosed.number (hw.stocked.belongs_of_guards hw.upholds hu.within hguards hclear)).resolve_right hhole

/-- A node that has no type obeys the rules. -/
theorem obeys_of_has {T : Typing} {n : Fragment} (h : ∀ t, T.has n.id t → n.Obeys T) : n.Obeys T := by
  cases n with
  | expr e =>
    obtain ⟨id, pos, kind⟩ := e
    exact fun t ht => h t ht t ht
  | pattern p =>
    obtain ⟨id, pos, kind⟩ := p
    cases kind with
    | tuple items => exact fun t ts ht => h t ht t ts ht
    | _ => trivial

/-- A declaration without records whose inference reports nothing is recorded with types that obey the rules. -/
theorem obeys_of_inferDeclaration {budget : Nat} {engine : Engine} (hscope : engine.scope.Recordfree) {i : Nat}
    {d : ValueDecl} (hd : (Declaration.value d).Recordfree) (hdistinct : (d.nodeIds fun _ => false).Nodup)
    {session : Session} (hsession : session.Recordless) {inferred : Inferred} {σ' : Work}
    (hrun : inferDeclaration (exprAt budget) d ⟨engine, i⟩ ⟨session, {}⟩ = (.ok (.ok inferred), σ'))
    (hsilent : inferred.1.problems = []) : ∀ n ∈ d.fragments, n.Obeys inferred.1.typing := by
  have hderives : ∀ A : Account, A.Proper → A.Includes d.fragments → Derives A ⟨engine, i⟩ True blank
      (inferDeclaration (exprAt budget) d) (fun _ outcome => RecordlessOutcome outcome) Anything :=
    fun A hA hnodes => derives_inferDeclaration hA hscope
      (fun P w e he => (derives_exprAt budget hA hscope P w e he).forget) hd.1 hnodes
  -- The end is looked at with an account that promises nothing, and is an account then.
  obtain ⟨w, -, hend, -⟩ := hderives _ Account.proper_initial hd.2 _ _ _ (hsession.kept _) hrun
  obtain ⟨hcovers, t, hfreezes⟩ := covers_inferDeclaration (turns_exprAt budget) hrun (fun _ : True => hsilent)
    fun site _ => apart_of_quiet site
  obtain ⟨η, hmodels, hfree⟩ := exists_models hend.fieldless.tidy.loopfree fun id => .const (Node.var id)
  have hkeys := nodup_keys_of_covers hcovers hdistinct
  have hA : Account.Proper ⟨{n | n ∈ d.fragments}, σ'.pass.nodeTypes, w.1, η⟩ := by
    refine ⟨hd.2, fun id t u ht hu => ?_, hmodels, hend.fieldless.recordless⟩
    exact Option.some.inj ((Assoc.get?_of_mem hkeys ht).symm.trans (Assoc.get?_of_mem hkeys hu))
  obtain ⟨_, -, -, -, hlast⟩ := hderives _ hA (fun _ hn => hn) _ _ _ (hsession.kept _) hrun
  obtain ⟨_, -, hfinished, -⟩ := (run_inferDeclaration_inv hrun).resolve_left fun h => by cases h.1
  obtain ⟨-, hjustified⟩ := hlast ⟨⟨hfinished, fun _ => hfreezes.silent hsilent⟩, List.Subset.refl _, hend.store ▸ .refl _⟩
  obtain ⟨hjustified, -⟩ := hjustified trivial fun _ h => absurd h List.not_mem_nil
  intro n hn
  refine (hfreezes.refines hend hmodels hfree).obeys (obeys_of_has fun t ht => ?_)
  obtain ⟨m, hm, hid, hobeys⟩ := hjustified _ ht.1
  rw [← Definition.map_id_fragments] at hdistinct
  exact Multiset.inj_on_of_nodup_map hdistinct m hm n hn hid ▸ hobeys

end InferM

theorem ModuleScope.Recordfree.valueAt? {scope : ModuleScope} (h : scope.Recordfree) {i : Nat} {d : ValueDecl}
    (hd : scope.module.valueAt? i = some d) : (Declaration.value d).Recordfree := by
  obtain ⟨declaration, hget, hvalue⟩ := Option.bind_eq_some_iff.mp hd
  cases declaration with
  | value d' =>
    cases hvalue
    exact h.declarations _ (List.mem_of_getElem? hget)
  | _ => cases hvalue

namespace Engine

open InferM in
/-- The types that an answer without problems gives to the nodes of a declaration form a derivation: the type of every
node fits those of the nodes right inside of it, as far as these are known. -/
theorem node_types_form_derivation (engine : Engine) (hscope : engine.scope.Recordfree) (i : Nat) (d : ValueDecl)
    (hd : engine.scope.module.valueAt? i = some d) (hdistinct : (d.nodeIds fun _ => false).Nodup) (s s' : Session)
    (hempty : s.cache = {}) (result : InferenceResult) (hrun : engine.infer (.declared i) s = (.ok (.ok result), s'))
    (hsilent : result.problems = []) : ∀ n ∈ d.fragments, n.Obeys result.typing := by
  obtain ⟨d', s₁, recursive, hd', hcache, htop⟩ := exists_inferTopLevel hrun
  obtain rfl := Option.some.inj (hd.symm.trans hd')
  rw [hempty] at hcache
  have hs₁ : s₁.Recordless := ⟨by simp [hcache], by simp [hcache]⟩
  have hnew : s₁.cache.get? (DeclKey.ofDecl engine.file d) = none := by
    rw [hcache]
    rfl
  obtain ⟨flag, σ, out, hdecl, hresult⟩ := SessionM.exists_inferDeclaration hnew htop
  obtain rfl : out.1 = result := hresult
  have hs₂ : (SessionM.entered (DeclKey.ofDecl engine.file d) { s₁ with flag }).Recordless :=
    ⟨hs₁.results, hs₁.declared⟩
  exact obeys_of_inferDeclaration hscope (hscope.valueAt? hd) hdistinct hs₂ hdecl hsilent

/-- In `f x = if x then [ (\y -> -y) 1 ] else []`, all nodes have known types. -/
theorem node_types_form_derivation_of_call :
    let f : ValueDecl :=
      ⟨0, none, .function ⟨1, "f"⟩ [.mk 0 2 (.var "x")],
        .mk 10 3 (.conditional
          [(.mk 1 4 (.var (.plain "x")),
            .mk 8 5 (.list
              [.mk 7 6 (.call
                (.mk 5 7 (.lambda [.mk 2 8 (.var "y")] (.mk 4 9 (.negate (.mk 3 10 (.var (.plain "y")))))))
                [.mk 6 11 (.literal .int)])]))]
          (.mk 9 12 (.list [])))⟩
    let engine : Engine := { file := 0, scope := { module := ⟨"Main", [.value f]⟩ } }
    ∃ result, (engine.infer (.declared 0) {}).1 = .ok (.ok result) ∧ engine.scope.Recordfree ∧
      (f.nodeIds fun _ => false).Nodup ∧ result.problems = [] ∧
      (∀ n ∈ f.fragments, ∃ t, result.typing.has n.id t) ∧ ∀ n ∈ f.fragments, n.Obeys result.typing := by
  intro f engine
  have hok : ((engine.infer (.declared 0) {}).1.toOption.bind Except.toOption).any (fun result =>
      result.problems.isEmpty && decide (∀ n ∈ f.fragments, (result.typeOf? n.id).any fun t =>
        !(t.mentions false).contains .hole)) = true := by decide +kernel
  obtain ⟨result, hsome, hchecks⟩ := (Option.any_eq_true _ _).mp hok
  obtain ⟨hsilent, hhas⟩ := Bool.and_eq_true_iff.mp hchecks
  have hresult : (engine.infer (.declared 0) {}).1 = .ok (.ok result) := ok_of_answer hsome
  have hrun : engine.infer (.declared 0) {} = (.ok (.ok result), (engine.infer (.declared 0) {}).2) := by
    rw [← hresult]
  have hscope : engine.scope.Recordfree :=
    ⟨List.forall_mem_singleton.mpr ⟨rfl, by decide +kernel⟩, fun _ h => absurd h List.not_mem_nil,
      fun _ h => absurd h List.not_mem_nil⟩
  have hdistinct : (f.nodeIds fun _ => false).Nodup := by decide +kernel
  have hsilent := List.isEmpty_iff.mp hsilent
  refine ⟨result, hresult, hscope, hdistinct, hsilent, fun n hn => ?_,
    node_types_form_derivation engine hscope 0 f rfl hdistinct {} _ rfl result hrun hsilent⟩
  obtain ⟨t, ht, hknown⟩ := (Option.any_eq_true _ _).mp (of_decide_eq_true hhas n hn)
  exact ⟨t, ht, by simpa using hknown⟩

end Engine

end ElmInference
