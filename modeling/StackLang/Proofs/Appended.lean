import StackLang.Proofs.InternalErrors
import StackLang.Proofs.Revalidation

/-!
This module contains what a function at the end of a program means for the functions before it. A
word stands for the first function that matches, so all the calls stay as they are.
-/

namespace StackLang

namespace Walk

theorem matchCall_eq_ok_iff {f : Function} {stack : List Kind} {s : Substitution} :
    matchCall f stack = .ok s ↔ matchArgs f.args stack = some s := by
  unfold matchCall
  split
  · next hlength =>
    constructor
    · intro h
      simp at h
    · intro h
      have := length_le_of_matchArgs h
      omega
  · cases matchArgs f.args stack with
    | none => simp
    | some t => simp

theorem resolve_word_eq_ok_iff {functions : List Function} {stack : List Kind} {name : String}
    {op : Op} :
    resolve functions stack (.word name) = .ok op ↔
      ∃ o, (overloads functions name).find? (fun o => (matchArgs o.1.args stack).isSome) = some o ∧
        op = .call o.2 := by
  simp only [resolve]
  cases overloads functions name with
  | nil => simp
  | cons first others =>
    cases others with
    | nil =>
      simp only [List.find?_cons, List.find?_nil]
      cases hmatch : matchCall first.1 stack with
      | ok s =>
        rw [matchCall_eq_ok_iff] at hmatch
        simp [hmatch, eq_comm]
      | error v =>
        cases hargs : matchArgs first.1.args stack with
        | none => simp
        | some s =>
          rw [matchCall_eq_ok_iff.mpr hargs] at hmatch
          simp at hmatch
    | cons second others =>
      simp only
      cases (first :: second :: others).find? fun o => (matchArgs o.1.args stack).isSome with
      | none => simp
      | some o => simp [eq_comm]

theorem overloads_append (functions : List Function) (f : Function) (name : String) :
    overloads (functions ++ [f]) name =
      overloads functions name ++ [(f, functions.length)].filter (·.1.name = name) := by
  simp only [overloads, List.zipIdx_append, List.filter_append, List.zipIdx_singleton, Nat.zero_add]

section

variable {functions : List Function} (f : Function)

theorem resolve_append {stack : List Kind} {op op' : Op}
    (h : resolve functions stack op = .ok op') :
    resolve (functions ++ [f]) stack op = .ok op' := by
  cases op with
  | word name =>
    rw [resolve_word_eq_ok_iff] at h ⊢
    obtain ⟨o, ho, hop⟩ := h
    refine ⟨o, ?_, hop⟩
    rw [overloads_append, List.find?_append, ho, Option.some_or]
  | _ => exact h

theorem call_append {entry : Nat} {stack stack' : List Kind}
    (h : call functions entry stack = .ok stack') :
    call (functions ++ [f]) entry stack = .ok stack' := by
  obtain ⟨callee, _, hcallee, -⟩ := call_eq_ok h
  have hlt := (List.getElem?_eq_some_iff.mp hcallee).1
  rw [call, List.getElem?_append_left hlt]
  exact h

theorem step_append {w w' : Walk} {op : Op} (h : step functions w op = .ok w') :
    step (functions ++ [f]) w op = .ok w' := by
  cases op with
  | call entry =>
    obtain ⟨stack, hcall, rfl⟩ := goOn_eq_ok h
    rw [step, call_append f hcall]
    rfl
  | _ => exact h

theorem run_append {w w' : Walk} {code : List Instruction}
    (h : (run functions w code).outcome = .ok w') :
    run (functions ++ [f]) w code = run functions w code := by
  induction code generalizing w with
  | nil => rfl
  | cons i rest ih =>
    obtain ⟨op, u, hresolve, hstep, hrest, -⟩ := run_cons_eq_ok h
    rw [run_cons rest hresolve hstep,
      run_cons rest (resolve_append f hresolve) (step_append f hstep), ih hrest]

end

end Walk

theorem Function.check_append {functions : List Function} (f : Function) {g g' : Function}
    (h : g.check functions = (g', none)) : g.check (functions ++ [f]) = (g', none) := by
  by_cases hmain : g.name = "main" ∧ (g.args ≠ [] ∨ g.rets ≠ [])
  · simp [check_of_main hmain] at h
  · rw [check_eq hmain] at h ⊢
    cases hrun : (Walk.run functions g.start g.code).outcome with
    | error e => simp [verdict, hrun] at h
    | ok w => rw [Walk.run_append f hrun, h]

theorem checkFunctions_append {functions fs gs : List Function} {f g : Function}
    (h : checkFunctions functions fs = (gs, none))
    (hf : f.check (functions ++ [f]) = (g, none)) :
    checkFunctions (functions ++ [f]) (fs ++ [f]) = (gs ++ [g], none) := by
  rw [checkFunctions_eq_ok_iff] at h ⊢
  apply List.rel_append
  · exact h.imp fun _ _ => Function.check_append f
  · exact .cons hf .nil

namespace Reach

theorem mark_cons_of_none {functions : List Function} {entry : Nat}
    (h : functions[entry]? = none) (work : List Nat) :
    mark functions (entry :: work) = mark functions work := by
  rw [mark]
  split
  · rfl
  · next f hf => simp [h] at hf

theorem mark_cons_of_fresh {functions : List Function} {entry : Nat} {f : Function}
    (hf : functions[entry]? = some f) (hfresh : f.called = false) (work : List Nat) :
    mark functions (entry :: work) =
      mark (functions.set entry { f with called := true }) (f.callees ++ work) := by
  rw [mark]
  split
  · next hnone => simp [hf] at hnone
  · next g hg =>
    rw [hf, Option.some.injEq] at hg
    subst hg
    rw [dif_pos hfresh]

theorem mark_cons_of_marked {functions : List Function} {entry : Nat} {f : Function}
    (hf : functions[entry]? = some f) (hmarked : ¬ f.called = false) (work : List Nat) :
    mark functions (entry :: work) = mark functions work := by
  rw [mark]
  split
  · rfl
  · next g hg =>
    rw [hf, Option.some.injEq] at hg
    subst hg
    rw [dif_neg hmarked]

theorem mark_append {functions : List Function} {work : List Nat} (f : Function)
    (hwork : ∀ entry ∈ work, entry < functions.length)
    (hcallees : ∀ g ∈ functions, ∀ entry ∈ g.callees, entry < functions.length) :
    mark (functions ++ [f]) work = mark functions work ++ [f] := by
  fun_induction mark functions work with
  | case1 => rw [mark]
  | case2 functions entry work hnone ih =>
    -- here the longer list could have had a function to mark
    have hlt := hwork entry List.mem_cons_self
    rw [List.getElem?_eq_none_iff] at hnone
    omega
  | case3 functions entry work g hg hfresh _ ih =>
    obtain ⟨hlt, hwork⟩ := List.forall_mem_cons.mp hwork
    have hcallees' := hcallees g (List.mem_of_getElem? hg)
    rw [mark_cons_of_fresh (by rw [List.getElem?_append_left hlt, hg]) hfresh,
      List.set_append_left _ _ hlt]
    apply ih
    · intro k hk
      rw [List.length_set]
      rcases List.mem_append.mp hk with hk | hk
      · exact hcallees' k hk
      · exact hwork k hk
    · intro u hu k hk
      rw [List.length_set]
      rcases List.mem_or_eq_of_mem_set hu with hu | rfl
      · exact hcallees u hu k hk
      · exact hcallees' k hk
  | case4 functions entry work g hg hmarked ih =>
    obtain ⟨hlt, hwork⟩ := List.forall_mem_cons.mp hwork
    rw [mark_cons_of_marked (by rw [List.getElem?_append_left hlt, hg]) hmarked]
    exact ih hwork hcallees

end Reach

section

variable {functions gs : List Function} (h : checkFunctions functions functions = (gs, none))
include h

theorem callee_lt_of_checkFunctions {g : Function} (hg : g ∈ gs) {entry : Nat}
    (hentry : entry ∈ g.callees) : entry < gs.length := by
  have hchecked := checked_of_checkFunctions h
  obtain ⟨n, hn⟩ := List.getElem?_of_mem hg
  obtain ⟨f, -, hfg⟩ := exists_of_forall₂ hchecked hn
  obtain ⟨i, hi, hop⟩ := Function.mem_callees.mp hentry
  obtain ⟨callee, hcallee⟩ := hfg.getElem?_of_call hi hop
  rw [← hchecked.length_eq]
  exact (List.getElem?_eq_some_iff.mp hcallee).1

theorem entry_lt_of_checkFunctions
    (hentry : ∀ (n : Nat) (f : Function), functions[n]? = some f → f.entry = n)
    {g : Function} (hg : g ∈ gs) : g.entry < gs.length := by
  obtain ⟨n, hn⟩ := List.getElem?_of_mem hg
  obtain ⟨f, hf, hfg⟩ := exists_of_forall₂ (checked_of_checkFunctions h) hn
  rw [hfg.entry, hentry n f hf]
  exact (List.getElem?_eq_some_iff.mp hn).1

end

theorem unusedWarnings_append (functions : List Function) {f : Function}
    (h : f.called = false) :
    Program.unusedWarnings { functions := functions ++ [f] } =
      Program.unusedWarnings { functions } ++ if f.internal then [] else [f.unusedWarning] := by
  simp only [Program.unusedWarnings, List.filter_append, List.map_append]
  cases hinternal : f.internal with
  | true => simp [hinternal]
  | false => simp [h, hinternal]

/--
A function added at the end of a program that passes validation, whatever its name, changes no
function before it. No call leads to it, so it gets a warning of its own unless it is internal.
-/
theorem appended_function_changes_no_call {p q : Program} {warnings : List Diagnostic}
    {f g : Function}
    (hentry : ∀ (n : Nat) (other : Function), p.functions[n]? = some other → other.entry = n)
    (hvalid : p.validate = (q, .ok warnings))
    (hcheck : f.check (p.functions ++ [f]) = (g, none)) :
    { p with functions := p.functions ++ [f] }.validate =
      ({ q with functions := q.functions ++ [{ g with called := false }] },
        .ok (warnings ++ if f.internal then [] else [f.unusedWarning])) := by
  obtain ⟨gs, main, hgs, hmain, rfl, rfl⟩ := Program.validate_eq_ok hvalid
  have hmain' : (gs ++ [g]).find? (·.name = "main") = some main := by
    rw [List.find?_append, hmain, Option.some_or]
  have hmark : Reach.mark (Reach.unmark (gs ++ [g])) [main.entry] =
      Reach.mark (Reach.unmark gs) [main.entry] ++ [{ g with called := false }] := by
    rw [Reach.unmark, List.map_append]
    apply Reach.mark_append
    · intro entry hmem
      rw [List.mem_singleton.mp hmem, List.length_map]
      exact entry_lt_of_checkFunctions hgs hentry (List.mem_of_find?_eq_some hmain)
    · intro u hu entry hmem
      obtain ⟨v, hv, rfl⟩ := List.mem_map.mp hu
      rw [List.length_map]
      exact callee_lt_of_checkFunctions (g := v) hgs hv hmem
  have hdeclaration := Function.declaration_check (p.functions ++ [f]) f
  rw [hcheck] at hdeclaration
  have hinternal : g.internal = f.internal := (congrArg Function.internal hdeclaration :)
  have hwarning : g.unusedWarning = f.unusedWarning :=
    (congrArg Function.unusedWarning hdeclaration :)
  rw [Program.validate_of_main (p := { p with functions := p.functions ++ [f] })
    (checkFunctions_append hgs hcheck) hmain', hmark, unusedWarnings_append _ rfl, ← hinternal,
    ← hwarning]
  rfl

def showing : Program where
  functions := [
    { name := "show", entry := 0, loc := ⟨"a.cin", 1, 5⟩, args := [.any], overload := true,
      code := [⟨⟨"a.cin", 1, 16⟩, .prim .drop⟩] },
    { name := "main", entry := 1, loc := ⟨"a.cin", 2, 4⟩,
      code := [⟨⟨"a.cin", 2, 11⟩, .pushInt 1⟩, ⟨⟨"a.cin", 2, 13⟩, .word "show"⟩] }]

/-- Another function called `show`, which the call in the program matches more closely. -/
def showInt : Function :=
  { name := "show", entry := 2, loc := ⟨"a.cin", 3, 5⟩, args := [.int], overload := true,
    code := [⟨⟨"a.cin", 3, 16⟩, .prim .drop⟩] }

theorem appended_function_changes_no_call_showInt : ∃ q warnings,
    (∀ (n : Nat) (other : Function), showing.functions[n]? = some other → other.entry = n) ∧
      showing.validate = (q, .ok warnings) ∧
      showInt.check (showing.functions ++ [showInt]) = (showInt, none) ∧
      { showing with functions := showing.functions ++ [showInt] }.validate =
        ({ q with functions := q.functions ++ [showInt] },
          .ok (warnings ++ [showInt.unusedWarning])) := by
  have hentry : ∀ (n : Nat) (other : Function),
      showing.functions[n]? = some other → other.entry = n := by
    intro n other hn
    match n with
    | 0 | 1 =>
      simp only [showing, List.getElem?_cons_zero, List.getElem?_cons_succ,
        Option.some.injEq] at hn
      rw [← hn]
    | n + 2 => simp [showing] at hn
  have hcheck : showInt.check (showing.functions ++ [showInt]) = (showInt, none) := by decide
  have hok : showing.validate.2.isOk = true := by decide +kernel
  cases hvalid : showing.validate with
  | mk q result =>
    cases result with
    | error e => simp [hvalid, Except.isOk, Except.toBool] at hok
    | ok warnings =>
      exact ⟨q, warnings, hentry, rfl, hcheck,
        appended_function_changes_no_call hentry hvalid hcheck⟩

end StackLang
