import ElmInference.Proofs.Infer.NodeTypes

/-!
# Values that need themselves

Two walks decide whether a reference to another value is reported as infinite recursion. Inference comes by the
reference, under no lambda, and a search follows the references between values from there. The search sees names and the
bases of record updates, wherever inference sees them under no lambda. It does not see operators, so a cycle in which a
later value is reached through an operator goes unnoticed.
-/

namespace ElmInference

/-! ### The search -/

namespace Evaluation

variable {scope : ModuleScope} {target : Nat}

/-- Whether evaluating one value evaluates another one directly, as the search sees it. -/
def Next (scope : ModuleScope) (k k' : Nat) : Prop :=
  ∃ d d', scope.module.valueAt? k = some d ∧ (k', d') ∈ successors scope d

def OnStack (scope : ModuleScope) (stack : List (Nat × ValueDecl)) : Prop :=
  ∀ entry ∈ stack, scope.module.valueAt? entry.1 = some entry.2 ∧ entry.2.head.params.isEmpty = true

theorem onStack_successors (scope : ModuleScope) (d : ValueDecl) : OnStack scope (successors scope d) := by
  intro entry hentry
  obtain ⟨name, -, hvalue⟩ := List.mem_filterMap.mp hentry
  unfold valueOf? at hvalue
  split at hvalue
  · next index decl hfind =>
    split at hvalue
    · next hparams =>
      cases hvalue
      have hmem : ValueTarget.value index decl ∈ scope.findValues name := hfind ▸ List.mem_singleton_self _
      exact ⟨(ModuleScope.offers_of_mem_findValues hmem).1, hparams⟩
    · cases hvalue
  · cases hvalue

/-- Whether what a visited value evaluates was visited too, or is still on the stack. -/
def Explored (scope : ModuleScope) (unvisited : List Nat) (stack : List (Nat × ValueDecl)) : Prop :=
  ∀ k k', Next scope k k' → k ∉ unvisited → k' ∉ unvisited ∨ k' ∈ stack.map Prod.fst

/-- Whether the target lies in a rest of values that nothing leads into from what was on the stack. -/
def Cut (scope : ModuleScope) (target : Nat) (unvisited : List Nat) (stack : List (Nat × ValueDecl)) : Prop :=
  ∃ rest ⊆ unvisited, target ∈ rest ∧ (∀ entry ∈ stack, entry.1 ∉ rest) ∧ ∀ k k', Next scope k k' → k ∉ rest → k' ∉ rest

/-- A search that fails has cut the target off, if the search that goes on behind an expansion would. -/
theorem cut_of_searchWith {expand : List Nat → List Ref → List (Nat × ValueDecl) → Bool × List Ref}
    {unvisited : List Nat} {lookups : List Ref} {stack : List (Nat × ValueDecl)} (hnodup : unvisited.Nodup)
    (htarget : target ∈ unvisited) (hexpand : ∀ index ∈ unvisited, ∀ lookups stack,
      (expand (unvisited.erase index) lookups stack).1 = false → target ∈ unvisited.erase index → OnStack scope stack →
        Explored scope (unvisited.erase index) stack → Cut scope target (unvisited.erase index) stack)
    (hfalse : (searchWith scope target expand unvisited lookups stack).1 = false) (hstack : OnStack scope stack)
    (hexplored : Explored scope unvisited stack) : Cut scope target unvisited stack := by
  induction stack with
  | nil =>
    refine ⟨unvisited, List.Subset.refl _, htarget, nofun, fun k k' hnext hk => ?_⟩
    exact (hexplored k k' hnext hk).resolve_right List.not_mem_nil
  | cons entry rest ih =>
    obtain ⟨index, decl⟩ := entry
    obtain ⟨⟨hdecl, hparams⟩, hrest⟩ := List.forall_mem_cons.mp hstack
    rw [searchWith] at hfalse
    by_cases hindex : index = target
    · rw [if_pos hindex] at hfalse
      cases hfalse
    rw [if_neg hindex] at hfalse
    by_cases hmem : index ∈ unvisited
    · -- a value that is expanded is visited from now on, and what it evaluates is on the stack
      rw [if_pos (by simp [show decl.head.params.isEmpty = true from hparams, hmem])] at hfalse
      have hvisited : index ∉ unvisited.erase index := fun hagain => (hnodup.mem_erase_iff.mp hagain).1 rfl
      have hstack' : OnStack scope ((successors scope decl).reverse ++ rest) := by
        refine List.forall_mem_append.mpr ⟨fun entry hentry => ?_, hrest⟩
        exact onStack_successors scope decl entry (List.mem_reverse.mp hentry)
      have hexplored' : Explored scope (unvisited.erase index) ((successors scope decl).reverse ++ rest) := by
        intro k k' hnext hk
        rw [List.map_append, List.mem_append, List.map_reverse, List.mem_reverse]
        by_cases heq : k = index
        · obtain ⟨d, d', hd, hsuccessor⟩ := hnext
          obtain rfl := Option.some.inj ((heq ▸ hd).symm.trans hdecl)
          exact .inr (.inl (List.mem_map_of_mem hsuccessor))
        · obtain hleft | hleft := hexplored k k' hnext fun hmem => hk ((List.mem_erase_of_ne heq).mpr hmem)
          · exact .inl fun hagain => hleft (List.mem_of_mem_erase hagain)
          · rcases List.mem_cons.mp hleft with rfl | hrest
            · exact .inl hvisited
            · exact .inr (.inr hrest)
      obtain ⟨left, hsub, htarget', hentries, hclosed⟩ := hexpand index hmem _ _ hfalse
        ((List.mem_erase_of_ne (Ne.symm hindex)).mpr htarget) hstack' hexplored'
      refine ⟨left, fun k hk => List.mem_of_mem_erase (hsub hk), htarget', ?_, hclosed⟩
      exact List.forall_mem_cons.mpr ⟨fun hagain => hvisited (hsub hagain), (List.forall_mem_append.mp hentries).2⟩
    · rw [if_neg (by simp [hmem])] at hfalse
      have hexplored' : Explored scope unvisited rest := by
        intro k k' hnext hk
        obtain hleft | hleft := hexplored k k' hnext hk
        · exact .inl hleft
        · rcases List.mem_cons.mp hleft with rfl | hrest
          · exact .inl hmem
          · exact .inr hrest
      obtain ⟨left, hsub, htarget', hentries, hclosed⟩ := ih hfalse hrest hexplored'
      exact ⟨left, hsub, htarget', List.forall_mem_cons.mpr ⟨fun hagain => hmem (hsub hagain), hentries⟩, hclosed⟩

theorem cut_of_searchAt {n : Nat} {unvisited : List Nat} {lookups : List Ref} {stack : List (Nat × ValueDecl)}
    (hlength : unvisited.length ≤ n) (hnodup : unvisited.Nodup) (htarget : target ∈ unvisited)
    (hfalse : (searchAt scope target n unvisited lookups stack).1 = false) (hstack : OnStack scope stack)
    (hexplored : Explored scope unvisited stack) : Cut scope target unvisited stack := by
  induction n generalizing unvisited lookups stack with
  | zero =>
    rw [List.length_eq_zero_iff.mp (Nat.le_zero.mp hlength)] at htarget
    cases htarget
  | succ n ih =>
    refine cut_of_searchWith hnodup htarget (fun index hmem lookups stack hfalse htarget => ?_) hfalse hstack hexplored
    refine ih ?_ (hnodup.erase index) htarget hfalse
    rw [List.length_erase_of_mem hmem]
    omega

theorem nodup_places (m : Module) : (m.values.map Prod.fst).Nodup := by
  have hsublist : ∀ entries : List (Declaration × Nat), ((entries.filterMap fun entry =>
      entry.1.value?.map (fun decl => (entry.2, decl))).map Prod.fst).Sublist (entries.map Prod.snd) := by
    intro entries
    induction entries with
    | nil => exact .slnil
    | cons entry rest ih =>
      rcases hvalue : entry.1.value? with _ | decl
      · rw [List.filterMap_cons_none (by rw [hvalue]; rfl)]
        exact ih.cons _
      · rw [List.filterMap_cons_some (by rw [hvalue]; rfl)]
        exact ih.cons_cons _
  refine List.Nodup.sublist (hsublist _) ?_
  rw [List.zipIdx_map_snd]
  exact List.nodup_range'

/-- The search finds every value of the module that references lead to. -/
theorem reaches_of_transGen {k : Nat} {d : ValueDecl} (hd : scope.module.valueAt? k = some d)
    (hparams : d.head.params.isEmpty = true) (htarget : (scope.module.valueAt? target).isSome)
    (hpath : Relation.ReflTransGen (Next scope) k target) : (reaches scope (k, d) target).1 = true := by
  by_contra hfalse
  obtain ⟨dt, hdt⟩ := Option.isSome_iff_exists.mp htarget
  have hall : ∀ {i di}, scope.module.valueAt? i = some di → i ∈ scope.module.values.map Prod.fst :=
    fun h => List.mem_map_of_mem (Module.mem_values h)
  obtain ⟨left, -, hleft, hstart, hclosed⟩ := cut_of_searchAt (Nat.le_refl _) (nodup_places _) (hall hdt)
    (Bool.not_eq_true _ ▸ hfalse) (fun entry hentry => List.mem_singleton.mp hentry ▸ ⟨hd, hparams⟩)
    fun i i' ⟨di, _, hdi, _⟩ hi => absurd (hall hdi) hi
  have hout : ∀ j, Relation.ReflTransGen (Next scope) k j → j ∉ left := by
    intro j hj
    induction hj with
    | refl => exact hstart _ (List.mem_singleton_self _)
    | tail _ hnext ih => exact hclosed _ _ hnext ih
  exact hout target hpath hleft

end Evaluation

/-! ### Two walks that see the same names -/

/-- The name that an expression refers to itself, not by its parts, unless it is a local one; with its position. -/
def Expr.ownNames (locals : List Name) : Expr → List (Nat × Ref)
  | .mk _ pos (.var name) => (Evaluation.unlessLocal locals name).map (fun name => (pos, name))
  | .mk _ _ (.update base _) =>
    (Evaluation.unlessLocal locals (Ref.plain base.name)).map (fun name => (base.pos, name))
  | _ => []

/-- Whether a site lies under at least so many lambdas, and the name it refers to is among some references if it lies
under no more. -/
def Site.Walked (depth : Nat) (refs : List Ref) : Site → Prop
  | .expr locals n e => depth ≤ n ∧ (n = depth → ∀ own ∈ e.ownNames locals, own.2 ∈ refs)
  | .pattern _ => True

namespace Site

variable {site : Site} {depth : Nat} {refs refs' : List Ref}

theorem Walked.mono (h : site.Walked depth refs) (hrefs : refs ⊆ refs') : site.Walked depth refs' := by
  cases site with
  | pattern p => trivial
  | expr locals n e => exact ⟨h.1, fun hn own hown => hrefs (h.2 hn own hown)⟩

theorem Walked.of_deeper (h : site.Walked (depth + 1) refs) : site.Walked depth refs' := by
  cases site with
  | pattern p => trivial
  | expr locals n e => exact ⟨Nat.le_of_succ_le h.1, fun hn => absurd h.1 (by omega)⟩

end Site

theorem Evaluation.eq_of_mem_unlessLocal {locals : List Name} {name found : Ref} (h : found ∈ unlessLocal locals name) :
    found = name ∧ (found.qualifier = none → found.name ∉ locals) := by
  unfold unlessLocal at h
  split at h
  · cases h
  · next hnot =>
    obtain rfl := List.mem_singleton.mp h
    exact ⟨rfl, fun hqualifier hmem => hnot (by simp [hqualifier, hmem])⟩

theorem Evaluation.mem_unlessLocal {locals inner : List Name} (h : locals ⊆ inner) {name name' : Ref}
    (hname : name' ∈ unlessLocal inner name) : name' ∈ unlessLocal locals name := by
  unfold unlessLocal at hname ⊢
  split at hname
  · cases hname
  · next hnot =>
    rw [if_neg fun hlocal => hnot ?_]
    · exact hname
    · rw [Bool.and_eq_true, List.contains_iff_mem] at hlocal ⊢
      exact ⟨hlocal.1, h hlocal.2⟩

namespace Pattern

mutual

theorem exists_of_mem_sites (p : Pattern) {site : Site} (h : site ∈ p.sites) : ∃ q, site = .pattern q := by
  match p with
  | .mk id pos kind =>
    rw [sites, Multiset.mem_cons] at h
    exact h.elim (fun heq => ⟨_, heq⟩) fun hmem => exists_of_mem_kindSites kind hmem

theorem exists_of_mem_kindSites (kind : PatternKind Pattern) {site : Site} (h : site ∈ kindSites kind) :
    ∃ q, site = .pattern q := by
  match kind with
  | .any | .var _ | .unit | .literal _ | .record _ =>
    rw [kindSites] at h
    exact absurd h (Multiset.notMem_zero site)
  | .tuple items | .list items | .cons items | .constructor _ items =>
    rw [kindSites] at h
    exact exists_of_mem_sitesList items h
  | .named pattern _ =>
    rw [kindSites] at h
    exact exists_of_mem_sites pattern h

theorem exists_of_mem_sitesList (ps : List Pattern) {site : Site} (h : site ∈ sitesList ps) : ∃ q, site = .pattern q := by
  match ps with
  | [] => exact absurd h (Multiset.notMem_zero site)
  | p :: ps =>
    rw [sitesList, Multiset.mem_add] at h
    exact h.elim (fun hmem => exists_of_mem_sites p hmem) fun hmem => exists_of_mem_sitesList ps hmem

end

end Pattern

/-- Whether all of some sites are walked. -/
def Walks (depth : Nat) (refs : List Ref) (m : Multiset Site) : Prop :=
  ∀ site ∈ m, site.Walked depth refs

namespace Walks

variable {depth : Nat} {refs refs' : List Ref} {m m' : Multiset Site}

theorem zero : Walks depth refs 0 :=
  fun site h => absurd h (Multiset.notMem_zero site)

theorem mono (h : Walks depth refs m) (hrefs : refs ⊆ refs') : Walks depth refs' m :=
  fun site hsite => (h site hsite).mono hrefs

theorem add (h : Walks depth refs m) (h' : Walks depth refs' m') : Walks depth (refs ++ refs') (m + m') := by
  intro site hsite
  rcases Multiset.mem_add.mp hsite with hsite | hsite
  · exact (h site hsite).mono (List.subset_append_left _ _)
  · exact (h' site hsite).mono (List.subset_append_right _ _)

theorem patterns (ps : List Pattern) : Walks depth refs (Pattern.sitesList ps) := by
  intro site hsite
  obtain ⟨q, rfl⟩ := Pattern.exists_of_mem_sitesList ps hsite
  trivial

theorem pattern (p : Pattern) : Walks depth refs p.sites := by
  intro site hsite
  obtain ⟨q, rfl⟩ := Pattern.exists_of_mem_sites p hsite
  trivial

theorem head (head : Head) : Walks depth refs head.sites := by
  cases head with
  | function name params => exact .patterns params
  | pattern p => exact .pattern p

/-- What lies under more lambdas need not be among the references. -/
theorem deeper (h : Walks (depth + 1) refs m) : Walks depth refs' m :=
  fun site hsite => (h site hsite).of_deeper

end Walks

namespace Expr

open Evaluation

mutual

/-- The search sees every name that inference sees under no further lambda. -/
theorem walks_sites {locals inner : List Name} (h : locals ⊆ inner) (depth : Nat) (e : Expr) :
    Walks depth (references locals e) (e.sites inner depth) := by
  match e with
  | .mk id pos kind =>
    intro site hsite
    rw [sites, Multiset.mem_cons] at hsite
    rcases hsite with rfl | hsite
    · refine ⟨le_refl _, fun _ own hown => ?_⟩
      match kind with
      | .var name =>
        obtain ⟨name', hname', rfl⟩ := List.mem_map.mp hown
        rw [references]
        exact mem_unlessLocal h hname'
      | .update base fields =>
        obtain ⟨name', hname', rfl⟩ := List.mem_map.mp hown
        rw [references]
        exact List.mem_append_left _ (mem_unlessLocal h hname')
      | .unit | .literal _ | .operator _ | .accessor _ | .call _ _ | .binary _ _ | .negate _ | .tuple _ | .list _ | .record _
      | .access _ _ | .conditional _ _ | .caseOf _ _ | .lambda _ _ | .letIn _ _ => cases hown
    · exact walks_kindSites h depth id pos kind site hsite

theorem walks_kindSites {locals inner : List Name} (h : locals ⊆ inner) (depth : Nat) (id : NodeId) (pos : Nat) (kind : ExprKind Expr) :
    Walks depth (references locals (.mk id pos kind)) (kindSites inner depth kind) := by
  match kind with
  | .unit | .literal _ | .var _ | .operator _ | .accessor _ =>
    rw [kindSites]
    exact .zero
  | .call target args =>
    rw [kindSites, references]
    exact (walks_sites h depth target).add (walks_sitesList h depth args)
  | .binary operands _ =>
    rw [kindSites, references]
    exact walks_sitesList h depth operands
  | .negate operand =>
    rw [kindSites, references]
    exact walks_sites h depth operand
  | .tuple items | .list items =>
    rw [kindSites, references]
    exact walks_sitesList h depth items
  | .record fields =>
    rw [kindSites, references]
    exact walks_sitesFields h depth fields
  | .update base fields =>
    rw [kindSites, references]
    exact (walks_sitesFields h depth fields).mono (List.subset_append_right _ _)
  | .access target _ =>
    rw [kindSites, references]
    exact walks_sites h depth target
  | .conditional branches otherwise =>
    rw [kindSites, references]
    exact (walks_sitesBranches h depth branches).add (walks_sites h depth otherwise)
  | .caseOf scrutinee branches =>
    rw [kindSites, references]
    exact (walks_sites h depth scrutinee).add (walks_sitesCases h depth branches)
  | .lambda params body =>
    rw [kindSites]
    have hbody := walks_sites (List.nil_subset ((Pattern.boundNamesList params).map NameAt.name ++ inner)) (depth + 1) body
    exact ((Walks.patterns params).add hbody.deeper).mono (List.append_subset.mpr ⟨List.nil_subset _, List.nil_subset _⟩)
  | .letIn definitions body =>
    rw [kindSites, references]
    have hinner : locals ++ definitions.flatMap (fun d => d.head.boundNames.map NameAt.name) ⊆
        definitions.flatMap (fun d => d.head.boundNames.map NameAt.name) ++ inner :=
      List.append_subset.mpr ⟨fun name hname => List.mem_append_right _ (h hname), List.subset_append_left _ _⟩
    exact (walks_sitesDefinitions hinner depth definitions).add (walks_sites hinner depth body)

theorem walks_sitesList {locals inner : List Name} (h : locals ⊆ inner) (depth : Nat) (es : List Expr) :
    Walks depth (referencesList locals es) (sitesList inner depth es) := by
  match es with
  | [] =>
    rw [sitesList]
    exact .zero
  | e :: es =>
    rw [sitesList, referencesList]
    exact (walks_sites h depth e).add (walks_sitesList h depth es)

theorem walks_sitesFields {locals inner : List Name} (h : locals ⊆ inner) (depth : Nat) (fields : List (NameAt × Expr)) :
    Walks depth (referencesFields locals fields) (sitesFields inner depth fields) := by
  match fields with
  | [] =>
    rw [sitesFields]
    exact .zero
  | (_, e) :: rest =>
    rw [sitesFields, referencesFields]
    exact (walks_sites h depth e).add (walks_sitesFields h depth rest)

theorem walks_sitesBranches {locals inner : List Name} (h : locals ⊆ inner) (depth : Nat) (branches : List (Expr × Expr)) :
    Walks depth (referencesBranches locals branches) (sitesBranches inner depth branches) := by
  match branches with
  | [] =>
    rw [sitesBranches]
    exact .zero
  | (c, e) :: rest =>
    rw [sitesBranches, referencesBranches]
    exact ((walks_sites h depth c).add (walks_sites h depth e)).add (walks_sitesBranches h depth rest)

theorem walks_sitesCases {locals inner : List Name} (h : locals ⊆ inner) (depth : Nat) (branches : List (Pattern × Expr)) :
    Walks depth (referencesCases locals branches) (sitesCases inner depth branches) := by
  match branches with
  | [] =>
    rw [sitesCases]
    exact .zero
  | (p, e) :: rest =>
    rw [sitesCases, referencesCases]
    have hinner : locals ++ p.boundNames.map NameAt.name ⊆ p.boundNames.map NameAt.name ++ inner :=
      List.append_subset.mpr ⟨fun name hname => List.mem_append_right _ (h hname), List.subset_append_left _ _⟩
    exact ((Walks.pattern p : Walks depth [] _).add (walks_sites hinner depth e)).add (walks_sitesCases h depth rest)

theorem walks_sitesDefinitions {locals inner : List Name} (h : locals ⊆ inner) (depth : Nat) (definitions : List (Definition Expr)) :
    Walks depth (referencesDefinitions locals definitions) (sitesDefinitions inner depth definitions) := by
  match definitions with
  | [] =>
    rw [sitesDefinitions]
    exact .zero
  | d :: rest =>
    rw [sitesDefinitions, referencesDefinitions]
    refine Walks.add ?_ (walks_sitesDefinitions h depth rest)
    by_cases hnone : d.head.boundNames.isEmpty = true
    · rw [if_pos hnone]
      exact .zero
    · rw [if_neg hnone]
      have hinner : locals ⊆ d.head.paramNames ++ inner := fun name hname => List.mem_append_right _ (h hname)
      unfold Head.levels
      split
      · exact (Walks.head d.head : Walks depth [] _).add (walks_sites hinner depth d.body)
      · exact (Walks.head d.head : Walks depth [] _).add (walks_sites hinner (depth + 1) d.body).deeper

end

end Expr

/-! ### References -/

/-- Whether an expression refers itself, and not by its parts, to something that is no local name: by a name, by an
operator section, or by an operator of a chain, where each operator before it has one meaning. -/
inductive Expr.Refers (scope : ModuleScope) (locals : List Name) : Expr → Nat → ValueTarget → Prop
  | name {e : Expr} {pos : Nat} {name : Ref} {target : ValueTarget} : (pos, name) ∈ e.ownNames locals →
      scope.findValues name = [target] → Refers scope locals e pos target
  | operator {id : NodeId} {pos : Nat} {name : Name} {target : OperatorTarget} : scope.findOperators name = [target] →
      Refers scope locals (.mk id pos (.operator name)) pos target.function
  | chain {id : NodeId} {pos : Nat} {operands : List Expr} {before after : List NameAt} {operator : NameAt}
      {target : OperatorTarget} : (∀ earlier ∈ before, ∃ t, scope.findOperators earlier.name = [t]) →
      scope.findOperators operator.name = [target] →
      Refers scope locals (.mk id pos (.binary operands (before ++ operator :: after))) operator.pos target.function

theorem Expr.Refers.offers {scope : ModuleScope} {locals : List Name} {e : Expr} {pos : Nat} {target : ValueTarget}
    (h : e.Refers scope locals pos target) : scope.Offers target := by
  cases h with
  | name _ hfind => exact ModuleScope.offers_of_mem_findValues (hfind ▸ List.mem_singleton_self _)
  | operator hfind | chain _ hfind => exact ModuleScope.offers_of_mem_findOperators (hfind ▸ List.mem_singleton_self _)

/-- Whether evaluating a value of the module evaluates another one directly, because of a name or the base of a record
update. -/
def ModuleScope.EvaluatesByName (scope : ModuleScope) (k k' : Nat) : Prop :=
  ∃ d locals e pos name d', scope.module.valueAt? k = some d ∧ .expr locals 0 e ∈ d.declaredSites ∧
    (pos, name) ∈ e.ownNames locals ∧ scope.findValues name = [.value k' d'] ∧ d'.head.params.isEmpty = true

theorem Definition.body_mem_declaredSites (d : ValueDecl) :
    .expr (d.head.paramNames ++ d.head.name?.toList) (0 + d.head.levels) d.body ∈ d.declaredSites := by
  rw [declaredSites, sites, Multiset.mem_add]
  obtain ⟨id, pos, kind⟩ := d.body
  rw [Expr.sites]
  exact .inr (Multiset.mem_cons_self _ _)

theorem Evaluation.next_of_evaluatesByName {scope : ModuleScope} {k k' : Nat} (h : scope.EvaluatesByName k k') :
    Next scope k k' := by
  obtain ⟨d, locals, e, pos, name, d', hd, hsite, hown, hfind, hparams⟩ := h
  have hname : name ∈ referencesOf d := by
    rw [Definition.declaredSites, Definition.sites] at hsite
    rcases Multiset.mem_add.mp hsite with hhead | hbody
    · cases hhd : d.head with
      | function name params =>
        rw [hhd] at hhead
        obtain ⟨q, hq⟩ := Pattern.exists_of_mem_sitesList params hhead
        cases hq
      | pattern p =>
        rw [hhd] at hhead
        obtain ⟨q, hq⟩ := Pattern.exists_of_mem_sites p hhead
        cases hq
    · obtain ⟨hdepth, hwalked⟩ := Expr.walks_sites (List.nil_subset _) _ d.body _ hbody
      exact hwalked (Nat.le_antisymm (Nat.zero_le _) hdepth) _ hown
  refine ⟨d, d', hd, List.mem_filterMap.mpr ⟨name, hname, ?_⟩⟩
  rw [valueOf?, hfind]
  exact if_pos hparams

namespace InferM

variable {α β : Type} {context : Context} {elsewhere : Elsewhere} {locals : List Name} {pos j : Nat} {d : ValueDecl}

/-- Whether every run that starts under no lambda reports infinite recursion at a position. -/
def Reports (context : Context) (pos : Nat) (x : InferM α) : Prop :=
  ∀ w a w', x context w = (.ok a, w') → w.pass.depth = 0 → ⟨pos, .infiniteRecursion⟩ ∈ w'.pass.problems

theorem Reports.bind {x : InferM α} {f : α → InferM β} (hx : Reports context pos x)
    (hf : ∀ a, Inert context (f a)) : Reports context pos (x >>= f) := by
  intro w b w' hrun hdepth
  obtain ⟨a, w₁, hrun₁, hrun₂⟩ := run_bind_inv hrun
  exact (hf a _ _ _ hrun₂).problems.subset (hx _ _ _ hrun₁ hdepth)

/-- Inert work that comes before changes nothing. -/
theorem Reports.after {x : InferM α} {f : α → InferM β} (hx : Inert context x)
    (hf : ∀ w a w', x context w = (.ok a, w') → Reports context pos (f a)) : Reports context pos (x >>= f) := by
  intro w b w' hrun hdepth
  obtain ⟨a, w₁, hrun₁, hrun₂⟩ := run_bind_inv hrun
  exact hf _ _ _ hrun₁ _ _ _ hrun₂ ((hx _ _ _ hrun₁).depth.trans hdepth)

/-- Whether a target is a value without parameters, other than the current one, that leads to the current one. -/
structure LeadsBack (context : Context) (target : ValueTarget) (j : Nat) (d : ValueDecl) : Prop where
  target : target = .value j d
  other : j ≠ context.current
  params : d.head.params.isEmpty = true
  reaches : (Evaluation.reaches context.engine.scope (j, d) context.current).1 = true

section LeadsBack

variable {target : ValueTarget} (h : LeadsBack context target j d)

include h

theorem reports_checkCycle : Reports context pos (checkCycle pos j d) := by
  intro w a w' hrun hdepth
  obtain ⟨_, _, hread, hrun⟩ := run_bind_inv hrun
  cases hread
  rw [if_neg fun heq => h.other (beq_iff_eq.mp heq)] at hrun
  obtain ⟨found, w₁, hcycle, hrun⟩ := run_bind_inv hrun
  have hfound : found = true := by
    obtain ⟨_, _, hpass, hcycle⟩ := run_bind_inv hcycle
    cases hpass
    rw [hdepth, h.params] at hcycle
    obtain ⟨_, _, hengine, hcycle⟩ := run_bind_inv hcycle
    cases hengine
    obtain ⟨_, _, hread, hcycle⟩ := run_bind_inv hcycle
    cases hread
    obtain ⟨_, _, -, hcycle⟩ := run_bind_inv hcycle
    cases hcycle
    exact h.reaches
  rw [hfound] at hrun
  cases hrun
  exact List.mem_append_right _ (List.mem_singleton_self _)

theorem reports_targetType (name : Name) : Reports context pos (targetType elsewhere pos name target) := by
  obtain ⟨rest, heq, hrest⟩ := @exists_inert_declarationType context elsewhere pos name j d
  rw [h.target, targetType, heq]
  exact (reports_checkCycle h).bind hrest

theorem reports_globalReference {name : Ref} (hfind : context.engine.scope.findValues name = [target]) :
    Reports context pos (globalReference elsewhere pos name) := by
  refine Reports.after (inert_session _) fun w targets w' hrun => ?_
  rw [run_findValues hrun, hfind]
  exact reports_targetType h name.name

/-- A name that no local name captures is reported. -/
theorem mem_problems_of_reference {name found : Ref} (hfound : found ∈ Evaluation.unlessLocal locals name)
    (hfind : context.engine.scope.findValues found = [target]) {w w' : Work} {t : Ty} (hdepth : w.pass.depth = 0)
    (hlocals : ∀ name, name ∉ locals → lookupIn name w.pass.scopes = none)
    (hrun : reference elsewhere pos name context w = (.ok t, w')) : ⟨pos, .infiniteRecursion⟩ ∈ w'.pass.problems := by
  obtain ⟨rfl, hnot⟩ := Evaluation.eq_of_mem_unlessLocal hfound
  unfold reference at hrun
  cases hqualifier : found.qualifier with
  | some m =>
    rw [hqualifier] at hrun
    exact reports_globalReference h hfind _ _ _ hrun hdepth
  | none =>
    rw [hqualifier] at hrun
    have hnone := hlocals _ (hnot hqualifier)
    obtain ⟨found, w₁, hlookup, hrun⟩ := run_bind_inv hrun
    obtain ⟨_, _, hbinding, hlookup⟩ := run_bind_inv hlookup
    cases hbinding
    rw [hnone] at hlookup
    cases hlookup
    exact reports_globalReference h hfind _ _ _ hrun hdepth

end LeadsBack

section Operators

variable {operator : OperatorTarget} (h : LeadsBack context operator.function j d)

include h

theorem reports_operatorType {name : Name} (hfind : context.engine.scope.findOperators name = [operator]) :
    Reports context pos (operatorType elsewhere pos name) := by
  refine Reports.after contained_engine.inert fun w engine w' hrun => ?_
  cases hrun
  rw [hfind]
  exact (reports_targetType h name).bind fun _ => inert_pure _

omit h in
theorem isSome_of_operatorType {name : Name} (hfind : context.engine.scope.findOperators name = [operator]) {w w' : Work}
    {found : Option (Precedence × Ty)} (hrun : operatorType elsewhere pos name context w = (.ok found, w')) :
    found.isSome := by
  obtain ⟨_, _, hengine, hrun⟩ := run_bind_inv hrun
  cases hengine
  rw [hfind] at hrun
  obtain ⟨t, w₁, -, hrun⟩ := run_bind_inv hrun
  cases hrun
  rfl

theorem reports_operatorTypes {before after : List NameAt} {name : NameAt}
    (hbefore : ∀ earlier ∈ before, ∃ t, context.engine.scope.findOperators earlier.name = [t])
    (hfind : context.engine.scope.findOperators name.name = [operator]) :
    Reports context name.pos (operatorTypes elsewhere (before ++ name :: after)) := by
  induction before with
  | nil =>
    refine (reports_operatorType h hfind).bind fun found => ?_
    split
    · exact inert_pure _
    · refine (inert_operatorTypes elsewhere after).bind fun more => ?_
      split <;> exact inert_pure _
  | cons earlier rest ih =>
    obtain ⟨⟨t, ht⟩, hrest⟩ := List.forall_mem_cons.mp hbefore
    refine Reports.after (inert_operatorType elsewhere _ _) fun w found w' hrun => ?_
    obtain ⟨⟨precedence, u⟩, rfl⟩ := Option.isSome_iff_exists.mp (isSome_of_operatorType ht hrun)
    refine (ih hrest).bind fun more => ?_
    split <;> exact inert_pure _

end Operators

/-- An expression under no lambda that refers to a value which leads back is reported. -/
theorem mem_problems_of_refers {e : Expr} {target : ValueTarget} (hrefers : e.Refers context.engine.scope locals pos target)
    (h : LeadsBack context target j d) (helsewhere : IsComposed context.engine elsewhere) {w w' : Work} {t : Ty}
    (hdepth : w.pass.depth = 0) (hdepth' : w'.pass.depth = 0)
    (hlocals : ∀ name, name ∉ locals → lookupIn name w.pass.scopes = none)
    (hrun : inferKind elsewhere e.pos e.kind context w = (.ok t, w')) : ⟨pos, .infiniteRecursion⟩ ∈ w'.pass.problems := by
  obtain ⟨calls, hcalls, hbody⟩ := helsewhere
  cases hrefers with
  | @name _ _ name _ hown hfind =>
    obtain ⟨id, epos, kind⟩ := e
    cases kind with
    | var other =>
      obtain ⟨found, hfound, heq⟩ := List.mem_map.mp hown
      cases heq
      exact mem_problems_of_reference h hfound hfind hdepth hlocals hrun
    | update base fields =>
      obtain ⟨found, hfound, heq⟩ := List.mem_map.mp hown
      cases heq
      change inferKind elsewhere epos (.update base fields) context w = _ at hrun
      rw [inferKind] at hrun
      obtain ⟨baseType, w₁, hreference, hrun⟩ := run_bind_inv hrun
      obtain ⟨_, w₂, hupdates, hrun⟩ := run_bind_inv hrun
      cases hrun
      refine ((composed_inferUpdates hcalls hbody _ _ _ _).growing _ _ _ hupdates).problems.subset ?_
      exact mem_problems_of_reference h hfound hfind hdepth hlocals hreference
    | unit | literal _ | operator _ | accessor _ | call _ _ | binary _ _ | negate _ | tuple _ | list _ | record _ | access _ _
    | conditional _ _ | caseOf _ _ | lambda _ _ | letIn _ _ => cases hown
  | @operator id _ name operator hfind =>
    have hsection : Reports context pos (inferKind elsewhere pos (.operator name)) := by
      rw [inferKind]
      refine (reports_operatorType h hfind).bind fun found => ?_
      split <;> exact inert_pure _
    exact hsection _ _ _ hrun hdepth
  | @chain id epos operands before after name operator hbefore hfind =>
    change inferKind elsewhere epos (.binary operands (before ++ name :: after)) context w = _ at hrun
    rw [inferKind] at hrun
    obtain ⟨types, w₁, -, hrun⟩ := run_bind_inv hrun
    have hdepth₁ : w₁.pass.depth = 0 := (inert_inferChain elsewhere _ _ _ _ _ hrun).depth.symm.trans hdepth'
    obtain ⟨rest, heq, hrest⟩ := @exists_inert_inferChain context elsewhere types (before ++ name :: after)
    rw [heq] at hrun
    exact (reports_operatorTypes h hbefore hfind).bind hrest _ _ _ hrun hdepth₁

end InferM

/-! ### Answers -/

section Flag

variable {engine : Engine} {n i : Nat} {d : ValueDecl} {s s' : Session}

/-- Without a flag the inference of a declaration is not called off, if those of other declarations are not. -/
theorem flag_inferDeclaration {w : Work} {out : Except InferError Inferred}
    (hbelow : ∀ m < n, ∀ index decl (s : Session) outcome s',
      SessionM.inferTopLevel (InferM.exprAt m) index decl engine s = (.ok outcome, s') → s.flag = none →
        s'.flag = none ∧ ∀ e, outcome ≠ .error e)
    (hrun : InferM.inferDeclaration (InferM.exprAt n) d ⟨engine, i⟩ ⟨s, {}⟩ = (.ok out, w)) (hflag : s.flag = none) :
    w.session.flag = none ∧ ∀ e, out ≠ .error e := by
  have hcomposed : InferM.Composed engine (InferM.CallsBelow n) (InferM.inferDeclaration (InferM.exprAt n) d) _ :=
    InferM.composed_inferDeclaration (InferM.composed_exprAt (Nat.le_refl n) (Nat.le_refl n)) d
  have hunhindered : InferM.Unhindered ⟨engine, i⟩ (InferM.inferDeclaration (InferM.exprAt n) d) := by
    refine InferM.Composed.unhindered hcomposed ?_
    rintro index decl x x' ⟨m, _, hm, -, rfl, -⟩ s₁ outcome s₁' hrun₁ hflag₁
    exact (hbelow m hm index decl s₁ outcome s₁' hrun₁ hflag₁).imp_right fun h => h _
  obtain ⟨hflag', hcancelled⟩ := hunhindered _ _ _ hrun hflag rfl
  refine ⟨hflag', ?_⟩
  rintro e rfl
  obtain ⟨-, hseen⟩ | ⟨_, heq, -⟩ := InferM.run_inferDeclaration_inv hrun
  · rw [hseen] at hcancelled
    cases hcancelled
  · cases heq

theorem flag_inferTopLevel (n i : Nat) (d : ValueDecl) (s : Session) (outcome : Except InferError Inferred) (s' : Session)
    (hrun : SessionM.inferTopLevel (InferM.exprAt n) i d engine s = (.ok outcome, s')) (hflag : s.flag = none) :
    s'.flag = none ∧ ∀ e, outcome ≠ .error e := by
  induction n using Nat.strong_induction_on generalizing i d s outcome s' with
  | _ n ih =>
    cases hkept : s.cache.get? (DeclKey.ofDecl engine.file d) with
    | some result =>
      rw [SessionM.run_inferTopLevel_of_kept hkept] at hrun
      cases hrun
      exact ⟨hflag, nofun⟩
    | none =>
      rw [SessionM.run_inferTopLevel_of_new hflag hkept] at hrun
      obtain ⟨out, w, hdecl, hsame, hs'⟩ := SessionM.run_compute_inv hrun
      obtain ⟨hflag', hout⟩ := flag_inferDeclaration ih hdecl hflag
      constructor
      · rcases hs' with rfl | ⟨result, -, rfl⟩ <;> exact hflag'
      · rintro e rfl
        cases out with
        | ok inferred => cases hsame
        | error e' => exact hout e' rfl

end Flag

namespace Engine

open InferM in
/-- A declaration without parameters that refers, under no lambda, to another value that leads back to it by names is
told so at that reference, unless its inference faults. -/
theorem value_cycles_are_reported (engine : Engine) (hnames : engine.scope.module.DistinctNames) (i : Nat) (d : ValueDecl)
    (hd : engine.scope.module.valueAt? i = some d) (hlets : d.LetsApart) (locals : List Name) (e : Expr)
    (hsite : .expr locals 0 e ∈ d.declaredSites) (pos j : Nat) (d' : ValueDecl)
    (hrefers : e.Refers engine.scope locals pos (.value j d')) (hother : j ≠ i) (hparams : d'.head.params.isEmpty = true)
    (hback : Relation.ReflTransGen engine.scope.EvaluatesByName j i)
    (requests : List (Nat × ValueDecl)) (k : Nat) (requested : ValueDecl) (hrequest : requests[k]? = some (i, requested))
    (name : Name) (outcome : Except Fault (Except InferError InferenceResult))
    (hanswer : (engine.inferEach requests {}).1[k]? = some (name, outcome)) :
    (∃ fault, outcome = .error fault) ∨
      ∃ result, outcome = .ok (.ok result) ∧ ⟨pos, .infiniteRecursion⟩ ∈ result.problems := by
  obtain ⟨s, hs, hactive, rfl⟩ := exists_session_of_inferEach hnames settled_empty rfl hrequest hanswer
  have hnamed : d.names ≠ [] := by
    rcases hback.cases_tail with heq | ⟨_, -, _, _, _, _, name, d₁, -, -, -, hfind, -⟩
    · exact absurd heq.symm hother
    · have hmem : ValueTarget.value i d₁ ∈ engine.scope.findValues name := hfind ▸ List.mem_singleton_self _
      obtain ⟨hd₁, hnamed⟩ := ModuleScope.offers_of_mem_findValues hmem
      exact Option.some.inj (hd.symm.trans hd₁) ▸ hnamed
  rw [infer_of_named hd hnamed hs.flag]
  obtain ⟨m, s₀, hready, hsame⟩ := exists_compute (n := engine.budget) ⟨hs, hactive ▸ nofun⟩ hd hnamed
  rw [hsame, answerOf_compute]
  rcases hrun : inferDeclaration (exprAt m) d ⟨engine, i⟩ ⟨SessionM.entered (DeclKey.ofDecl engine.file d) s₀, {}⟩
    with ⟨fault | out, w⟩
  · exact .inl ⟨fault, rfl⟩
  obtain ⟨-, hfinished⟩ := flag_inferDeclaration (fun m _ => flag_inferTopLevel m) hrun hready.settled.flag
  obtain e | inferred := out
  · exact absurd rfl (hfinished e)
  refine .inr ⟨inferred.1, rfl, ?_⟩
  have hbody : ∀ σ e, Turns ⟨engine, i⟩ False σ σ (Expr.sites σ.locals σ.depth e) (exprAt m e) := turns_exprAt m
  obtain ⟨hcovers, t, hfreezes⟩ := covers_inferDeclaration hbody hrun False.elim hlets
  refine hfreezes.mem_problems rfl ?_
  obtain ⟨elsewhere, w₁, u, w₂, helsewhere, hdepth, hdepth', hlocals, hkind, hlater⟩ := hcovers.seen _ hsite
  have hpath : Relation.ReflTransGen (Evaluation.Next engine.scope) j i :=
    Relation.ReflTransGen.mono (fun _ _ => Evaluation.next_of_evaluatesByName) _ _ hback
  obtain ⟨hd', -⟩ := hrefers.offers
  have hleads : LeadsBack ⟨engine, i⟩ (.value j d') j d' :=
    ⟨rfl, hother, hparams, Evaluation.reaches_of_transGen hd' hparams (hd ▸ rfl) hpath⟩
  exact hlater.problems.subset (mem_problems_of_refers hrefers hleads helsewhere hdepth hdepth' hlocals hkind)

/-- In `a = (<+>) ; b = a`, with `(<+>)` for `b`, the section is reported for `a`, also when `b` was asked for before. -/
theorem value_cycles_are_reported_at_section :
    let a : ValueDecl := ⟨0, none, .function ⟨1, "a"⟩ [], .mk 0 2 (.operator "<+>")⟩
    let b : ValueDecl := ⟨3, none, .function ⟨4, "b"⟩ [], .mk 1 5 (.var (.plain "a"))⟩
    let engine : Engine :=
      { file := 0, scope := { module := ⟨"Main", [.value a, .value b, .fixity ⟨6, "<+>", .left, 5, .plain "b"⟩]⟩ } }
    ∃ result, (engine.inferEach [(1, b), (0, a)] {}).1[1]?.map Prod.snd = some (.ok (.ok result)) ∧
      ⟨2, .infiniteRecursion⟩ ∈ result.problems := by
  intro a b engine
  have hnames : engine.scope.module.DistinctNames := ⟨List.nodup_nil, by decide, by decide⟩
  have hback : engine.scope.EvaluatesByName 1 0 :=
    ⟨b, ["b"], b.body, 5, .plain "a", a, rfl, b.body_mem_declaredSites, List.mem_singleton_self _, rfl, rfl⟩
  have hfind : engine.scope.findOperators "<+>" = [⟨⟨5, .left⟩, .value 1 b⟩] := rfl
  have hsection : a.body.Refers engine.scope ["a"] 2 (.value 1 b) := .operator hfind
  have hends : ((engine.inferEach [(1, b), (0, a)] {}).1[1]?.map Prod.snd).map Except.isOk = some true := by decide +kernel
  obtain ⟨outcome, houtcome, hok⟩ := Option.map_eq_some_iff.mp hends
  obtain ⟨⟨name, _⟩, hanswer, rfl⟩ := Option.map_eq_some_iff.mp houtcome
  rcases value_cycles_are_reported engine hnames 0 a rfl (by decide +kernel) ["a"] a.body a.body_mem_declaredSites 2 1 b
    hsection (by decide) rfl (.single hback) _ 1 a rfl name _ hanswer
    with ⟨fault, hfault⟩ | ⟨result, hresult, hmem⟩
  · rw [hfault] at hok
    cases hok
  · exact ⟨result, by rw [houtcome, hresult], hmem⟩

/-- In the same module `b` evaluates `a` by its name and `a` evaluates `b` by the operator, but nothing is reported for
`b`: the search does not look at operators. -/
theorem value_cycle_through_operator_goes_unnoticed :
    let a : ValueDecl := ⟨0, none, .function ⟨1, "a"⟩ [], .mk 0 2 (.operator "<+>")⟩
    let b : ValueDecl := ⟨3, none, .function ⟨4, "b"⟩ [], .mk 1 5 (.var (.plain "a"))⟩
    let engine : Engine :=
      { file := 0, scope := { module := ⟨"Main", [.value a, .value b, .fixity ⟨6, "<+>", .left, 5, .plain "b"⟩]⟩ } }
    engine.scope.module.DistinctNames ∧ .expr ["b"] 0 b.body ∈ b.declaredSites ∧
      b.body.Refers engine.scope ["b"] 5 (.value 0 a) ∧ .expr ["a"] 0 a.body ∈ a.declaredSites ∧
      a.body.Refers engine.scope ["a"] 2 (.value 1 b) ∧
      ((engine.infer (.declared 1) {}).1.toOption.bind Except.toOption).map (·.problems.map Problem.pos) = some [] := by
  intro a b engine
  have hvalues : engine.scope.findValues (.plain "a") = [.value 0 a] := rfl
  have hoperators : engine.scope.findOperators "<+>" = [⟨⟨5, .left⟩, .value 1 b⟩] := rfl
  refine ⟨⟨List.nodup_nil, by decide, by decide⟩, b.body_mem_declaredSites, ?_, a.body_mem_declaredSites, ?_, ?_⟩
  · exact .name (List.mem_singleton_self _) hvalues
  · exact .operator hoperators
  · decide +kernel

end Engine

end ElmInference
