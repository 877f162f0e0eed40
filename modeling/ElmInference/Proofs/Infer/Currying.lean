import ElmInference.Infer.Reference
import ElmInference.Proofs.Infer.ClosedTypes
import ElmInference.Proofs.Store.Reading
import ElmInference.Proofs.Types.Building

/-!
# Taking arguments

A function that returns a function can be given the arguments of both. How the parameters are grouped, and which of the
returned functions were written through an alias, makes no difference to that: the parameters of a type are all those of
the functions it returns one after the other, and arguments are taken off them from the front. They may run out inside of
a group or between two groups.

A definition with a signature is checked piece by piece. Its patterns stand for as many parameters of the signature as
there are patterns, its body for what is left of the signature, and put together the pieces say what the signature says.
-/

namespace ElmInference

namespace Ty

variable {params : List Ty} {ret t u : Ty} {w : Option (AliasUse Ty)} {count left : Nat}

/-! ### The two ends of a function -/

/-- What the last of the functions returns that a type returns one after the other. -/
def finalReturn : Ty → Ty
  | .arrow _ ret _ => ret.finalReturn
  | t => t

theorem allParams_function (params : List Ty) (ret : Ty) : (function params ret).allParams = params ++ ret.allParams := by
  obtain ⟨rfl, heq⟩ | ⟨more, last, -, rfl, heq⟩ | ⟨-, -, heq⟩ := function_shapes params ret
  · rw [heq, List.nil_append]
  · rw [heq, allParams, allParams, List.append_assoc]
  · rw [heq, allParams]

theorem finalReturn_function (params : List Ty) (ret : Ty) : (function params ret).finalReturn = ret.finalReturn := by
  obtain ⟨-, heq⟩ | ⟨more, last, -, rfl, heq⟩ | ⟨-, -, heq⟩ := function_shapes params ret
  · rw [heq]
  · rw [heq, finalReturn, finalReturn]
  · rw [heq, finalReturn]

/-- A type says what its parameters and its final return say. -/
theorem read_eq_arrows {κ : Type} (η : Env κ) (t : Ty) :
    t.read η = .arrows (t.allParams.map (read η)) (t.finalReturn.read η) := by
  induction t using inductParts with
  | arrow params ret w _ ih _ =>
    rw [read_arrow, ih, allParams, finalReturn, List.map_append, Reading.arrows_append]
  | _ => rfl

/-! ### Applying a function -/

/-- A built function is the function of its parameters and its result. -/
theorem Built.function_eq (h : (Ty.arrow params ret w).Built) : function params ret = .arrow params ret none := by
  cases h with
  | arrow hne _ _ hfolded _ => exact function_of_not_bare hne hfolded

/-- A function that is given some of its arguments is the function of the others. -/
theorem partiallyApply?_function {more : List Ty} (hret : ret.Built) (hne : params ++ more ≠ []) :
    (function (params ++ more) ret).partiallyApply? params.length = some (function more ret) := by
  obtain ⟨hnil, -⟩ | ⟨others, last, -, rfl, heq⟩ | ⟨-, -, heq⟩ := function_shapes (params ++ more) ret
  · exact absurd hnil hne
  · -- The result has been folded in, and is taken out again where nothing is left of the other parameters.
    rw [heq, partiallyApply?, dropParams_eq_function, List.append_assoc, List.drop_left, ← function_function,
      hret.function_eq]
  · rw [heq, partiallyApply?, dropParams_eq_function, List.drop_left]

/-! ### Applying a type -/

/-- A function keeps the parameters that are not reached, and the rest of the arguments goes to its result. -/
theorem applyParams_arrow (hne : params ≠ []) (hcount : 0 < count) :
    (Ty.arrow params ret w).applyParams count =
      function (params.drop count) (ret.applyParams (count - params.length)) := by
  obtain ⟨k, rfl⟩ := Nat.exists_eq_add_one.mpr hcount
  have hempty : params.isEmpty = false := by simpa using hne
  rw [applyParams, hempty]
  by_cases hlt : k + 1 < params.length
  · rw [Nat.sub_eq_zero_of_le hlt.le, if_neg Bool.false_ne_true, if_pos hlt, applyParams]
  · rw [List.drop_eq_nil_of_le (by omega), if_neg Bool.false_ne_true, if_neg hlt]
    rfl

theorem applyParams_zero (t : Ty) : t.applyParams 0 = t := by
  cases t <;> rfl

theorem allParams_applyParams (ht : t.Built) (count : Nat) : (t.applyParams count).allParams = t.allParams.drop count := by
  induction ht generalizing count with
  | @arrow params ret w hne _ _ _ _ _ ih _ =>
    rcases Nat.eq_zero_or_pos count with rfl | hcount
    · rfl
    · rw [applyParams_arrow hne hcount, allParams_function, ih, allParams, List.drop_append]
  | _ => cases count <;> simp [applyParams, allParams]

theorem finalReturn_applyParams (ht : t.Built) (count : Nat) : (t.applyParams count).finalReturn = t.finalReturn := by
  induction ht generalizing count with
  | @arrow params ret w hne _ _ _ _ _ ih _ =>
    rcases Nat.eq_zero_or_pos count with rfl | hcount
    · rfl
    · rw [applyParams_arrow hne hcount, finalReturn_function, ih, finalReturn]
  | _ => cases count <;> rfl

/-! ### The loop -/

/-- How a type takes arguments, round by round: in a round the outermost function takes as many as it can. The loop ends
with a type and the number of arguments that are left. -/
inductive Takes : Ty → Nat → Ty → Nat → Prop
  | done (t : Ty) : Takes t 0 t 0
  | stuck {t : Ty} {count : Nat} : 0 < count → (∀ params ret w, t = .arrow params ret w → params = []) →
      Takes t count t count
  | round {params : List Ty} {ret u : Ty} {w : Option (AliasUse Ty)} {count left : Nat} : 0 < count → params ≠ [] →
      Takes (dropParams params ret (min params.length count)) (count - min params.length count) u left →
      Takes (.arrow params ret w) count u left

theorem Takes.unique {u' : Ty} {left' : Nat} (h : Takes t count u left) (h' : Takes t count u' left') :
    u = u' ∧ left = left' := by
  induction h with
  | done t =>
    cases h' with
    | done => exact ⟨rfl, rfl⟩
    | stuck hpos _ => exact absurd hpos (Nat.lt_irrefl 0)
    | round hpos _ _ => exact absurd hpos (Nat.lt_irrefl 0)
  | stuck hpos hstuck =>
    cases h' with
    | done => exact ⟨rfl, rfl⟩
    | stuck _ _ => exact ⟨rfl, rfl⟩
    | round _ hne _ => exact absurd (hstuck _ _ _ rfl) hne
  | round hpos hne _ ih =>
    cases h' with
    | done => exact absurd hpos (Nat.lt_irrefl 0)
    | stuck _ hstuck => exact absurd (hstuck _ _ _ rfl) hne
    | round _ _ hrest => exact ih hrest

/-- From every type the loop ends. -/
theorem takes_applyParams (ht : t.Built) (count : Nat) :
    Takes t count (t.applyParams count) (count - t.allParams.length) := by
  induction ht generalizing count with
  | @arrow params ret w hne _ _ _ _ _ ih _ =>
    rcases Nat.eq_zero_or_pos count with rfl | hcount
    · rw [applyParams_zero, Nat.zero_sub]
      exact .done _
    · refine .round hcount hne ?_
      rw [dropParams_eq_function, applyParams_arrow hne hcount, allParams, List.length_append]
      rcases Nat.lt_or_ge count params.length with hlt | hge
      · rw [Nat.min_eq_right hlt.le, Nat.sub_self, Nat.sub_eq_zero_of_le hlt.le, applyParams_zero,
          Nat.sub_eq_zero_of_le (by omega)]
        exact .done _
      · rw [Nat.min_eq_left hge, List.drop_length, List.drop_eq_nil_of_le hge, Nat.sub_add_eq]
        exact ih _
  | _ =>
    rcases Nat.eq_zero_or_pos count with rfl | hcount
    · exact .done _
    · obtain ⟨k, rfl⟩ := Nat.exists_eq_add_one.mpr hcount
      exact .stuck hcount nofun

/-! ### Putting the pieces together -/

/-- A function that is not applied beyond its own parameters is put together again, without its alias. -/
theorem recompose_within (h : (Ty.arrow params ret w).Built) (hpos : 0 < count) (hle : count ≤ params.length) :
    function ((Ty.arrow params ret w).allParams.take count) ((Ty.arrow params ret w).applyParams count) =
      .arrow params ret none := by
  have hne : params ≠ [] := List.length_pos_iff.mp (hpos.trans_le hle)
  rw [applyParams_arrow hne hpos, Nat.sub_eq_zero_of_le hle, applyParams_zero, allParams,
    List.take_append_of_le_length hle, function_function, List.take_append_drop, h.function_eq]

/-- What agrees with the pieces of a type says, put together, what the type says. -/
theorem read_recomposed {κ : Type} {η : Env κ} (ht : t.Built) {found : List Ty} {body : Ty}
    (hfound : found.map (read η) = (t.allParams.take count).map (read η))
    (hbody : body.read η = (t.applyParams count).read η) : (function found body).read η = t.read η := by
  calc (function found body).read η = .arrows (found.map (read η)) (body.read η) := read_function _ _
    _ = .arrows ((t.allParams.take count).map (read η)) ((t.applyParams count).read η) := by rw [hfound, hbody]
    _ = .arrows (t.allParams.map (read η)) (t.finalReturn.read η) := by
      rw [read_eq_arrows η (t.applyParams count), allParams_applyParams ht, finalReturn_applyParams ht,
        ← Reading.arrows_append, ← List.map_append, List.take_append_drop]
    _ = t.read η := (read_eq_arrows η t).symm

end Ty

namespace InferM

def inferUnder (inferBody : Expr → InferM Ty) (name : NameAt) (params : List Pattern) (types : List Ty) (body : Expr) :
    InferM Ty := do
  pushScope []
  let bound ← inferParams params types
  bindAll [name.name] bound
  let bodyType ← deeper (if params.isEmpty then 0 else 1) (inferBody body)
  popScope
  return bodyType

/-- A definition without too many patterns is checked against the pieces of its signature. -/
theorem inferFunction_some (inferBody : Expr → InferM Ty) (name : NameAt) {params : List Pattern} (body : Expr)
    {signature : Ty} (h : params.length ≤ signature.allParams.length) :
    inferFunction inferBody name params body (some signature) = (do
      let bodyType ← inferUnder inferBody name params (signature.allParams.take params.length) body
      let _ ← check body.pos bodyType (signature.applyParams params.length)
      return signature) := by
  have hexpected : expectedParams name params (some signature) = pure (some (signature.allParams.take params.length)) := by
    rw [expectedParams, if_neg (Nat.not_lt.mpr h)]
  rw [inferFunction, hexpected]
  simp only [inferUnder, bind_assoc, pure_bind]

end InferM

namespace Ty

/-- Functions are put together and taken apart alike, however their parameters are grouped and whatever aliases stand
between the groups. Parameters may be given in one step or in two, and a function that is given the first ones is the
function of the others. A type that is given arguments loses as many parameters from the front and keeps its final
return, and the loop that gives them ends. So a definition that is checked against the first parameters of its
signature, and against what the arguments leave of the signature, is checked against the signature: the pieces have its
parameters and its final return, and what agrees with them says what it says. -/
theorem pieces_of_functions_recompose (params more : List Ty) (ret t : Ty) (count : Nat) :
    function params (function more ret) = function (params ++ more) ret ∧
      (ret.Built → params ++ more ≠ [] →
        (function (params ++ more) ret).partiallyApply? params.length = some (function more ret)) ∧
      (t.Built →
        ((t.applyParams count).allParams = t.allParams.drop count ∧
          (t.applyParams count).finalReturn = t.finalReturn ∧
          ∀ u left, Takes t count u left ↔ u = t.applyParams count ∧ left = count - t.allParams.length) ∧
        (function (t.allParams.take count) (t.applyParams count)).allParams = t.allParams ∧
        (function (t.allParams.take count) (t.applyParams count)).finalReturn = t.finalReturn ∧
        (∀ own last w, t = .arrow own last w → 0 < count → count ≤ own.length →
          function (t.allParams.take count) (t.applyParams count) = .arrow own last none) ∧
        ∀ (κ : Type) (η : Env κ) (found : List Ty) (body : Ty),
          found.map (read η) = (t.allParams.take count).map (read η) → body.read η = (t.applyParams count).read η →
          (function found body).read η = t.read η) ∧
      ∀ inferBody name (patterns : List Pattern) body, patterns.length = count → count ≤ t.allParams.length →
        InferM.inferFunction inferBody name patterns body (some t) = (do
          let bodyType ← InferM.inferUnder inferBody name patterns (t.allParams.take count) body
          let _ ← InferM.check body.pos bodyType (t.applyParams count)
          return t) := by
  refine ⟨function_function params more ret, partiallyApply?_function, fun ht => ⟨⟨allParams_applyParams ht count,
    finalReturn_applyParams ht count, fun u left => ⟨fun h => h.unique (takes_applyParams ht count), ?_⟩⟩, ?_, ?_, ?_,
    fun κ η found body hfound hbody => read_recomposed ht hfound hbody⟩, ?_⟩
  · rintro ⟨rfl, rfl⟩
    exact takes_applyParams ht count
  · rw [allParams_function, allParams_applyParams ht, List.take_append_drop]
  · rw [finalReturn_function, finalReturn_applyParams ht]
  · rintro own last w rfl hpos hle
    exact recompose_within ht hpos hle
  · rintro inferBody name patterns body rfl hle
    exact InferM.inferFunction_some inferBody name body hle

/-- Two arguments for `Main.G`, which is `Int -> Main.F`, run out inside of `Main.F`, which is `Int -> String -> Bool`. One
argument for `Int -> Bool -> ()` runs out where the result begins that was folded in. -/
theorem pieces_recompose_of_nested_aliases :
    let f : Ty := .arrow [int, string] bool (some ⟨"Main", "F", []⟩)
    let g : Ty := .arrow [int] f (some ⟨"Main", "G", []⟩)
    let ret : Ty := .arrow [bool] unit none
    let v : TyVar := ⟨0, "a", false⟩
    (ret.Built ∧ [int] ++ [] ≠ [] ∧ g.Built) ∧
      (function [int] ret).partiallyApply? 1 = some ret ∧
      (g.applyParams 2 = .arrow [string] bool none ∧ (g.applyParams 2).allParams = g.allParams.drop 2) ∧
      (∀ u left, Takes g 2 u left ↔ u = .arrow [string] bool none ∧ left = 0) ∧
      function (g.allParams.take 2) (g.applyParams 2) = .arrow [int, int, string] bool none ∧
      ∀ η : Env Nat, η (.var 0) = int.read η → (function [.var v, int] (.arrow [string] bool none)).read η = g.read η := by
  intro f g ret v
  have hint : int.Built := .union (by simp) (by simp [aliasArgs])
  have hbool : bool.Built := .union (by simp) (by simp [aliasArgs])
  have hstring : string.Built := .union (by simp) (by simp [aliasArgs])
  have hf : f.Built := .arrow (by simp) (by simpa using ⟨hint, hstring⟩) hbool rfl (by simp [aliasArgs])
  have hg : g.Built := .arrow (by simp) (by simpa using hint) hf rfl (by simp [aliasArgs])
  have hret : ret.Built := .arrow (by simp) (by simpa using hbool) .unit rfl (by simp [aliasArgs])
  obtain ⟨-, hpartial, hpieces, -⟩ := pieces_of_functions_recompose [int] [] ret g 2
  obtain ⟨⟨hparams, -, htakes⟩, -, -, -, hread⟩ := hpieces hg
  refine ⟨⟨hret, by simp, hg⟩, hpartial hret (by simp), ⟨rfl, hparams⟩, htakes, rfl, fun η hη => ?_⟩
  refine hread Nat η _ _ ?_ rfl
  rw [List.map_cons, read_var, hη]
  rfl

end Ty

end ElmInference
