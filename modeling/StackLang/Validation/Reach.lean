import StackLang.Program

/-!
This module contains the marking of the functions that calls lead to.
-/

namespace StackLang

def Function.callees (f : Function) : List Nat :=
  f.code.filterMap fun i =>
    match i.op with
    | .call entry => some entry
    | _ => none

namespace Reach

def unmarked (functions : List Function) : Nat := functions.countP (!·.called)

theorem unmarked_set_lt {functions : List Function} {i : Nat} {f : Function}
    (get : functions[i]? = some f) (fresh : f.called = false) :
    unmarked (functions.set i { f with called := true }) < unmarked functions := by
  induction functions generalizing i with
  | nil => simp at get
  | cons g gs ih =>
    cases i with
    | zero =>
      simp only [List.getElem?_cons_zero, Option.some.injEq] at get
      simp [unmarked, List.set_cons_zero, get, fresh]
    | succ i =>
      have := ih (by simpa using get)
      simp only [unmarked, List.set_cons_succ, List.countP_cons] at this ⊢
      omega

def mark (functions : List Function) (work : List Nat) : List Function :=
  match work with
  | [] => functions
  | entry :: work =>
    match get : functions[entry]? with
    | none => mark functions work
    | some f =>
      if fresh : f.called = false then
        have := unmarked_set_lt get fresh
        mark (functions.set entry { f with called := true }) (f.callees ++ work)
      else
        mark functions work
termination_by (unmarked functions, work.length)

end Reach

def Program.markReachable (p : Program) (root : Nat) : Program :=
  { p with functions := Reach.mark (p.functions.map ({ · with called := false })) [root] }

end StackLang
