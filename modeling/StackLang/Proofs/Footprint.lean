import StackLang.Proofs.Appended

/-!
This module contains what validation changes in a program, wherever it stops: words become calls of
the first function that matches, binding slots get kinds, and marks are set at the very end.
-/

namespace StackLang

/--
The function at `entry` is the first one called `name`, in the order of the declarations, whose
arguments the stack matches.
-/
structure FirstMatch (functions : List Function) (name : String) (stack : List Kind)
    (entry : Nat) : Prop where
  found : ∃ f, functions[entry]? = some f ∧ f.name = name ∧ (matchArgs f.args stack).isSome
  first : ∀ (k : Nat) (f : Function), k < entry → functions[k]? = some f → f.name = name →
    matchArgs f.args stack = none

/--
What a check may make of an operation that its walk meets in the state `w?`: a word becomes a call
of the first match.
-/
def Op.Settles (functions : List Function) (w? : Option Walk) (op op' : Op) : Prop :=
  op' = op ∨ ∃ name entry w, op = .word name ∧ op' = .call entry ∧ w? = some w ∧
    FirstMatch functions name w.stack entry

namespace Walk

theorem firstMatch_of_find? {functions : List Function} {name : String} {stack : List Kind}
    {o : Function × Nat}
    (h : (overloads functions name).find? (fun o => (matchArgs o.1.args stack).isSome) = some o) :
    FirstMatch functions name stack o.2 := by
  rw [overloads, List.find?_filter, List.find?_eq_some_iff_getElem] at h
  obtain ⟨hmatch, i, hi, rfl, hbefore⟩ := h
  rw [List.length_zipIdx] at hi
  simp only [List.getElem_zipIdx, Nat.zero_add, decide_eq_true_eq] at hmatch hbefore ⊢
  refine ⟨⟨functions[i], List.getElem?_eq_getElem hi, hmatch⟩, ?_⟩
  intro k f hk hf hname
  have hskipped := hbefore k hk
  rw [List.getElem?_eq_getElem (by omega), Option.some.injEq] at hf
  rw [hf] at hskipped
  simpa [hname] using hskipped

theorem settles_of_resolve {functions : List Function} {w : Walk} {op op' : Op}
    (h : resolve functions w.stack op = .ok op') : op.Settles functions (some w) op' := by
  cases op with
  | word name =>
    obtain ⟨o, ho, rfl⟩ := resolve_word_eq_ok_iff.mp h
    exact Or.inr ⟨name, o.2, w, rfl, rfl, rfl, firstMatch_of_find? ho⟩
  | _ =>
    simp only [resolve, Except.ok.injEq] at h
    exact Or.inl h.symm

theorem settles_of_run {functions : List Function} {w : Walk} {code : List Instruction} {ip : Nat}
    {i j : Instruction} (hi : code[ip]? = some i)
    (hj : (run functions w code).code[ip]? = some j) :
    i.op.Settles functions (before functions w code ip) j.op := by
  induction code generalizing w ip with
  | nil => simp at hi
  | cons first rest ih =>
    have hsame : (first :: rest)[ip]? = some j → i.op.Settles functions
        (before functions w (first :: rest) ip) j.op := by
      intro h
      rw [hi, Option.some.injEq] at h
      rw [h]
      exact Or.inl rfl
    cases hresolve : resolve functions w.stack first.op with
    | error v =>
      rw [run_cons_unresolved rest hresolve] at hj
      exact hsame hj
    | ok op =>
      have hfirst := settles_of_resolve hresolve
      cases hstep : step functions w op with
      | error stop =>
        rw [run_cons_stopped rest hresolve hstep] at hj
        cases ip with
        | zero =>
          simp only [List.getElem?_cons_zero, Option.some.injEq] at hi hj
          rw [← hi, ← hj]
          exact hfirst
        | succ ip => exact hsame hj
      | ok w' =>
        rw [run_cons rest hresolve hstep] at hj
        cases ip with
        | zero =>
          simp only [List.getElem?_cons_zero, Option.some.injEq] at hi hj
          rw [← hi, ← hj]
          exact hfirst
        | succ ip =>
          rw [before_succ hresolve hstep]
          exact ih hi hj

end Walk

namespace Function

/--
The function `g` is `f` as a check may leave it: declared alike, with slots that differ only in
their kinds and code that differs only where a word has been settled.
-/
structure Retained (functions : List Function) (f g : Function) : Prop where
  declaration : g.declaration = f.declaration
  bindings : Walk.untype g.bindings = Walk.untype f.bindings
  locations : g.code.map (·.loc) = f.code.map (·.loc)
  code : ∀ (ip : Nat) (i j : Instruction), f.code[ip]? = some i → g.code[ip]? = some j →
    i.op.Settles functions (f.stateAt functions ip) j.op

theorem Retained.refl (functions : List Function) (f : Function) : Retained functions f f := by
  refine ⟨rfl, rfl, rfl, ?_⟩
  intro ip i j hi hj
  rw [hi, Option.some.injEq] at hj
  rw [hj]
  exact Or.inl rfl

theorem retained_check (functions : List Function) (f : Function) :
    Retained functions f (f.check functions).1 := by
  by_cases hmain : f.name = "main" ∧ (f.args ≠ [] ∨ f.rets ≠ [])
  · rw [check_of_main hmain]
    exact Retained.refl functions f
  · rw [check_eq hmain]
    refine ⟨rfl, Walk.untype_run functions f.start f.code,
      Walk.map_loc_run functions f.start f.code, ?_⟩
    intro ip i j
    exact Walk.settles_of_run

theorem retained_unmark {functions : List Function} {f g : Function} :
    Retained functions f { g with called := false } ↔ Retained functions f g := by
  constructor
  · intro h
    exact ⟨h.declaration, h.bindings, h.locations, h.code⟩
  · intro h
    exact ⟨h.declaration, h.bindings, h.locations, h.code⟩

theorem called_check (functions : List Function) (f : Function) :
    (f.check functions).1.called = f.called := by
  by_cases hmain : f.name = "main" ∧ (f.args ≠ [] ∨ f.rets ≠ [])
  · rw [check_of_main hmain]
  · rw [check_eq hmain]

end Function

section

variable (functions : List Function)

theorem retained_checkFunctions (fs : List Function) :
    List.Forall₂ (Function.Retained functions) fs (checkFunctions functions fs).1 := by
  induction fs with
  | nil => exact .nil
  | cons f fs ih =>
    have hf := Function.retained_check functions f
    simp only [checkFunctions]
    split
    · -- the functions behind the one that breaks a rule have not been looked at
      next g e hg =>
      rw [hg] at hf
      refine .cons hf ?_
      rw [List.forall₂_same]
      intro other _
      exact Function.Retained.refl functions other
    · next g hg =>
      rw [hg] at hf
      exact .cons hf ih

theorem called_checkFunctions (fs : List Function) :
    (checkFunctions functions fs).1.map (·.called) = fs.map (·.called) := by
  induction fs with
  | nil => rfl
  | cons f fs ih =>
    have hf := Function.called_check functions f
    simp only [checkFunctions]
    split
    · next g e hg =>
      rw [hg] at hf
      rw [List.map_cons, List.map_cons, hf]
    · next g hg =>
      rw [hg] at hf
      rw [List.map_cons, List.map_cons, hf, ih]

theorem forall₂_retained_unmark {fs gs : List Function} :
    List.Forall₂ (Function.Retained functions) fs (Reach.unmark gs) ↔
      List.Forall₂ (Function.Retained functions) fs gs := by
  simp only [Reach.unmark, List.forall₂_map_right_iff, Function.retained_unmark]

end

namespace Program

theorem exists_of_validate (p : Program) : ∃ functions, p.validate.1 = { p with functions } ∧
    Reach.unmark functions = Reach.unmark (checkFunctions p.functions p.functions).1 ∧
    ∀ e, p.validate.2 = .error e → functions = (checkFunctions p.functions p.functions).1 := by
  cases hcheck : checkFunctions p.functions p.functions with
  | mk functions e =>
    cases e with
    | some e =>
      rw [validate_of_error hcheck]
      exact ⟨functions, rfl, rfl, fun _ _ => rfl⟩
    | none =>
      cases hmain : functions.find? (·.name = "main") with
      | none =>
        rw [validate_of_missing hcheck hmain]
        exact ⟨functions, rfl, rfl, fun _ _ => rfl⟩
      | some main =>
        rw [validate_of_main hcheck hmain]
        exact ⟨_, rfl, Reach.unmark_eq_of_mark rfl, by simp⟩

theorem ne_word_of_validate {p q : Program} {warnings : List Diagnostic}
    (h : p.validate = (q, .ok warnings)) {g : Function} (hg : g ∈ q.functions) {j : Instruction}
    (hj : j ∈ g.code) (name : String) : j.op ≠ .word name := by
  obtain ⟨functions, main, hcheck, -, hq, -⟩ := validate_eq_ok h
  have hmark : q.functions = Reach.mark (Reach.unmark functions) [main.entry] := by rw [hq]
  have hchecked := Reach.forall₂_checked_mark hmark (checked_of_checkFunctions hcheck)
  obtain ⟨n, hn⟩ := List.getElem?_of_mem hg
  obtain ⟨f, -, hfg⟩ := exists_of_forall₂ hchecked hn
  exact hfg.ne_word hj name

end Program

/--
Validation, whether it succeeds or stops anywhere, changes of a program only words into calls of
the first match and the kinds of binding slots. It touches marks only when it succeeds, and then no
word is left in any function.
-/
theorem validation_keeps_all_else (p : Program) :
    List.Forall₂ (Function.Retained p.functions) p.functions p.validate.1.functions ∧
    p.validate.1.memories = p.memories ∧ p.validate.1.constants = p.constants ∧
    p.validate.1.strings = p.strings ∧
    (∀ q e, p.validate = (q, .error e) →
      q.functions.map (·.called) = p.functions.map (·.called)) ∧
    ∀ q warnings, p.validate = (q, .ok warnings) →
      ∀ g ∈ q.functions, ∀ j ∈ g.code, ∀ name, j.op ≠ .word name := by
  obtain ⟨functions, hvalid, hunmark, herror⟩ := p.exists_of_validate
  rw [hvalid]
  refine ⟨?_, rfl, rfl, rfl, ?_, ?_⟩
  · rw [← forall₂_retained_unmark, hunmark, forall₂_retained_unmark]
    exact retained_checkFunctions p.functions p.functions
  · intro q e h
    rw [h] at hvalid herror
    rw [show q = { p with functions } from hvalid, herror e rfl]
    exact called_checkFunctions p.functions p.functions
  · intro q warnings h g hg j hj name
    exact Program.ne_word_of_validate h hg hj name

def stopping : Program where
  functions := [
    { name := "show", entry := 0, loc := ⟨"a.cin", 1, 5⟩, args := [.any], called := true,
      code := [⟨⟨"a.cin", 1, 16⟩, .prim .drop⟩] },
    { name := "main", entry := 1, loc := ⟨"a.cin", 2, 4⟩,
      code := [⟨⟨"a.cin", 2, 11⟩, .pushInt 1⟩, ⟨⟨"a.cin", 2, 13⟩, .word "show"⟩,
        ⟨⟨"a.cin", 2, 18⟩, .word "show"⟩] }]

theorem validation_keeps_all_else_stopping :
    (∃ q warnings, showing.validate = (q, .ok warnings) ∧
      List.Forall₂ (Function.Retained showing.functions) showing.functions q.functions ∧
      ∀ g ∈ q.functions, ∀ j ∈ g.code, ∀ name, j.op ≠ .word name) ∧
    ∃ q e, stopping.validate = (q, .error e) ∧ q ≠ stopping ∧
      List.Forall₂ (Function.Retained stopping.functions) stopping.functions q.functions ∧
      q.functions.map (·.called) = [true, false] := by
  constructor
  · have hok : showing.validate.2.isOk = true := by decide +kernel
    obtain ⟨hretained, -, -, -, -, hwords⟩ := validation_keeps_all_else showing
    cases hvalid : showing.validate with
    | mk q result =>
      rw [hvalid] at hok hretained
      cases result with
      | error e => simp [Except.isOk, Except.toBool] at hok
      | ok warnings => exact ⟨q, warnings, rfl, hretained, hwords q warnings hvalid⟩
  · have hchanged : stopping.validate.1 ≠ stopping := by decide +kernel
    have hfails : stopping.validate.2.isOk = false := by decide +kernel
    obtain ⟨hretained, -, -, -, hcalled, -⟩ := validation_keeps_all_else stopping
    cases hvalid : stopping.validate with
    | mk q result =>
      rw [hvalid] at hchanged hfails hretained
      cases result with
      | error e => exact ⟨q, e, rfl, hchanged, hretained, hcalled q e hvalid⟩
      | ok warnings => simp [Except.isOk, Except.toBool] at hfails

end StackLang
