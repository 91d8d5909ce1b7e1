import Mathlib.Data.List.Forall2
import StackLang.Proofs.Walking
import StackLang.Proofs.WellRead

/-!
This module contains what validation without an error says about a program: every function has been
walked through to the end, and calls lead from a function that is kept only to functions that are
kept.
-/

namespace StackLang

namespace Function

def start (f : Function) : Walk := { stack := f.args, bindings := f.bindings }

/-- The state of the walk over a function before the instruction at `ip`. -/
def stateAt (functions : List Function) (f : Function) (ip : Nat) : Option Walk :=
  Walk.before functions f.start f.code ip

structure Checked (functions : List Function) (f g : Function) : Prop where
  name : g.name = f.name
  entry : g.entry = f.entry
  args : g.args = f.args
  rets : g.rets = f.rets
  main : f.name = "main" → f.args = [] ∧ f.rets = []
  code : g.code = (Walk.run functions f.start f.code).code
  walk : ∃ w, (Walk.run functions f.start f.code).outcome = .ok w ∧ w.bindings = g.bindings ∧
    w.blocks = [] ∧ w.stack.length = f.rets.length
  results : ∀ w, (Walk.run functions f.start f.code).outcome = .ok w → w.endViolation? f = none

theorem endViolation?_eq_none {w : Walk} {f : Function} (h : w.endViolation? f = none) :
    w.blocks = [] ∧ w.stack.length = f.rets.length := by
  unfold Walk.endViolation? at h
  split at h
  · simp at h
  · next hblocks =>
    split at h
    · simp at h
    · split at h
      · simp at h
      · refine ⟨by simpa using hblocks, by omega⟩

theorem checked_of_check {functions : List Function} {f g : Function}
    (h : f.check functions = (g, none)) : Checked functions f g := by
  unfold check at h
  split at h
  · simp at h
  · next hmain =>
    simp only at h
    split at h
    · simp at h
    · next w hw =>
      simp only [Prod.mk.injEq, Option.map_eq_none_iff] at h
      obtain ⟨hg, hend⟩ := h
      subst hg
      refine ⟨rfl, rfl, rfl, rfl, ?_, rfl, ⟨w, hw, rfl, endViolation?_eq_none hend⟩, ?_⟩
      · intro hname
        simpa [hname] using hmain
      · intro u hu
        rw [start, hw, Except.ok.injEq] at hu
        rw [← hu]
        exact hend

end Function

theorem checked_of_checkFunctions {functions fs gs : List Function}
    (h : checkFunctions functions fs = (gs, none)) :
    List.Forall₂ (Function.Checked functions) fs gs := by
  induction fs generalizing gs with
  | nil =>
    simp only [checkFunctions, Prod.mk.injEq, and_true] at h
    subst h
    exact .nil
  | cons f fs ih =>
    simp only [checkFunctions] at h
    split at h
    · simp at h
    · next g hg =>
      simp only [Prod.mk.injEq] at h
      obtain ⟨hgs, hnone⟩ := h
      subst hgs
      apply List.Forall₂.cons (Function.checked_of_check hg)
      apply ih
      rw [← hnone]

theorem Function.mem_callees {f : Function} {entry : Nat} :
    entry ∈ f.callees ↔ ∃ i ∈ f.code, i.op = .call entry := by
  rw [callees, List.mem_filterMap]
  constructor
  · rintro ⟨i, hi, hop⟩
    refine ⟨i, hi, ?_⟩
    split at hop
    · next heq =>
      rw [heq]
      simpa using hop
    · simp at hop
  · rintro ⟨i, hi, hop⟩
    exact ⟨i, hi, by simp only [hop]⟩

namespace Reach

def unmark (functions : List Function) : List Function :=
  functions.map ({ · with called := false })

theorem unmark_set {functions : List Function} {entry : Nat} {f : Function}
    (h : functions[entry]? = some f) (called : Bool) :
    unmark (functions.set entry { f with called }) = unmark functions := by
  unfold unmark
  rw [List.map_set]
  apply List.ext_getElem?
  intro k
  rw [List.getElem?_set]
  split
  · next hk =>
    subst hk
    split
    · rw [List.getElem?_map, h]
      rfl
    · next hlength =>
      rw [List.getElem?_eq_none (by omega)]
  · rfl

theorem unmark_mark (functions : List Function) (work : List Nat) :
    unmark (mark functions work) = unmark functions := by
  fun_induction mark functions work with
  | case1 => rfl
  | case2 functions entry work hnone ih => exact ih
  | case3 functions entry work f hf hfresh _ ih =>
    rw [ih, unmark_set hf]
  | case4 functions entry work f hf hfresh ih => exact ih

def Marked (functions : List Function) (entry : Nat) : Prop :=
  ∃ f, functions[entry]? = some f ∧ f.called = true

theorem marked_set {functions : List Function} {entry k : Nat} {f : Function}
    (hf : functions[entry]? = some f) :
    Marked (functions.set entry { f with called := true }) k ↔ Marked functions k ∨ k = entry := by
  have hlength := (List.getElem?_eq_some_iff.mp hf).1
  by_cases hk : k = entry
  · subst hk
    simp [Marked, List.getElem?_set_self hlength]
  · simp [Marked, List.getElem?_set_ne (Ne.symm hk), hk]

theorem marked_mark {functions : List Function} {work : List Nat} {k : Nat}
    (h : Marked functions k ∨ k ∈ work ∧ k < functions.length) :
    Marked (mark functions work) k := by
  fun_induction mark functions work with
  | case1 => simpa using h
  | case2 functions entry work hnone ih =>
    apply ih
    rcases h with h | ⟨hk, hlt⟩
    · exact Or.inl h
    · rcases List.mem_cons.mp hk with hk | hk
      · subst hk
        rw [List.getElem?_eq_none_iff] at hnone
        omega
      · exact Or.inr ⟨hk, hlt⟩
  | case3 functions entry work f hf hfresh _ ih =>
    apply ih
    rw [marked_set hf, List.length_set]
    rcases h with h | ⟨hk, hlt⟩
    · exact Or.inl (Or.inl h)
    · rcases List.mem_cons.mp hk with hk | hk
      · exact Or.inl (Or.inr hk)
      · exact Or.inr ⟨List.mem_append_right _ hk, hlt⟩
  | case4 functions entry work f hf hfresh ih =>
    apply ih
    rcases h with h | ⟨hk, hlt⟩
    · exact Or.inl h
    · rcases List.mem_cons.mp hk with hk | hk
      · subst hk
        exact Or.inl ⟨f, hf, by simpa using hfresh⟩
      · exact Or.inr ⟨hk, hlt⟩

theorem marked_callee {functions : List Function} {work : List Nat} {k entry : Nat} {f : Function}
    (hk : Marked (mark functions work) k) (hf : functions[k]? = some f) (hfresh : f.called = false)
    (hcallee : entry ∈ f.callees) (hlt : entry < functions.length) :
    Marked (mark functions work) entry := by
  -- a function without a mark has been marked on the way, with its callees added to the work
  fun_induction mark functions work with
  | case1 =>
    obtain ⟨g, hg, hcalled⟩ := hk
    rw [hf, Option.some.injEq] at hg
    simp [← hg, hfresh] at hcalled
  | case2 functions _ work hnone ih => exact ih hk hf hlt
  | case4 functions _ work g hg _ ih => exact ih hk hf hlt
  | case3 functions root work g hg _ _ ih =>
    by_cases hroot : k = root
    · -- the callees of a function that is marked now wait in front of the rest
      subst hroot
      rw [hf, Option.some.injEq] at hg
      subst hg
      apply marked_mark
      rw [List.length_set]
      exact Or.inr ⟨List.mem_append_left _ hcallee, hlt⟩
    · apply ih hk
      · rw [List.getElem?_set_ne (Ne.symm hroot), hf]
      · rw [List.length_set]
        exact hlt

end Reach

theorem Function.checked_unmark {functions : List Function} {f g : Function} :
    Checked functions f { g with called := false } ↔ Checked functions f g := by
  constructor
  · intro h
    exact ⟨h.name, h.entry, h.args, h.rets, h.main, h.code, h.walk, h.results⟩
  · intro h
    exact ⟨h.name, h.entry, h.args, h.rets, h.main, h.code, h.walk, h.results⟩

theorem exists_of_forall₂ {α β : Type} {R : α → β → Prop} {l : List α} {l' : List β}
    (h : List.Forall₂ R l l') {n : Nat} {b : β} (hb : l'[n]? = some b) :
    ∃ a, l[n]? = some a ∧ R a b := by
  obtain ⟨hlength, hrel⟩ := List.forall₂_iff_get.mp h
  obtain ⟨hn, hget⟩ := List.getElem?_eq_some_iff.mp hb
  refine ⟨l[n], List.getElem?_eq_getElem (by omega), ?_⟩
  rw [← hget]
  exact hrel n (by omega) hn

theorem forall₂_checked_unmark {functions fs gs : List Function} :
    List.Forall₂ (Function.Checked functions) fs (Reach.unmark gs) ↔
      List.Forall₂ (Function.Checked functions) fs gs := by
  simp only [Reach.unmark, List.forall₂_map_right_iff, Function.checked_unmark]

namespace Reach

theorem find?_unmark (functions : List Function) (name : String) :
    (unmark functions).find? (·.name = name) =
      (functions.find? (·.name = name)).map ({ · with called := false }) := by
  rw [unmark, List.find?_map]
  rfl

section

variable {functions gs : List Function} {root : Function}

theorem unmark_eq_of_mark {work : List Nat} (h : gs = mark (unmark functions) work) :
    unmark gs = unmark functions := by
  rw [h, unmark_mark]
  simp [unmark]

theorem length_of_mark {work : List Nat} (h : gs = mark (unmark functions) work) :
    (unmark functions).length = gs.length := by
  rw [← unmark_eq_of_mark h, unmark, List.length_map]

theorem forall₂_checked_mark {fs : List Function} {work : List Nat}
    (h : gs = mark (unmark functions) work)
    (hchecked : List.Forall₂ (Function.Checked fs) fs functions) :
    List.Forall₂ (Function.Checked fs) fs gs := by
  rw [← forall₂_checked_unmark, unmark_eq_of_mark h, forall₂_checked_unmark]
  exact hchecked

theorem entry_of_mark {functions gs : List Function} {work : List Nat} {name : String}
    {root main : Function} (h : gs = mark (unmark functions) work)
    (hroot : functions.find? (·.name = name) = some root)
    (hmain : gs.find? (·.name = name) = some main) : main.entry = root.entry := by
  have hfind := find?_unmark gs name
  rw [unmark_eq_of_mark h, find?_unmark, hroot, hmain] at hfind
  simp only [Option.map_some, Option.some.injEq, Function.mk.injEq] at hfind
  exact hfind.2.1.symm

theorem exists_main_of_mark (h : gs = mark (unmark functions) [root.entry])
    (hroot : functions.find? (·.name = "main") = some root)
    (hentry : ∀ (k : Nat) (g : Function), gs[k]? = some g → g.entry = k) :
    ∃ m, gs.find? (·.name = "main") = some m ∧ gs[m.entry]? = some m ∧ m.called = true := by
  have hfind : (unmark gs).find? (·.name = "main") = some { root with called := false } := by
    rw [unmark_eq_of_mark h, find?_unmark, hroot]
    rfl
  rw [find?_unmark, Option.map_eq_some_iff] at hfind
  obtain ⟨m, hm, -⟩ := hfind
  obtain ⟨k, hk⟩ := List.getElem?_of_mem (List.mem_of_find?_eq_some hm)
  have hmk := hentry k m hk
  have hrootk : root.entry = k := by
    rw [← hmk, entry_of_mark h hroot hm]
  have hmarked : Marked gs k := by
    rw [h, hrootk]
    apply marked_mark
    refine Or.inr ⟨List.mem_singleton_self k, ?_⟩
    rw [length_of_mark h]
    exact (List.getElem?_eq_some_iff.mp hk).1
  obtain ⟨m', hm', hcalled⟩ := hmarked
  rw [hk, Option.some.injEq] at hm'
  subst hm'
  exact ⟨m, hm, hmk ▸ hk, hcalled⟩

theorem marked_callee_of_mark {work : List Nat} (h : gs = mark (unmark functions) work)
    {f : Function} (hf : f ∈ gs) (hcalled : f.called = true) {entry : Nat}
    (hmem : entry ∈ f.callees) (hlt : entry < gs.length) : Marked gs entry := by
  obtain ⟨k, hk⟩ := List.getElem?_of_mem hf
  have hmarked : Marked gs k := ⟨f, hk, hcalled⟩
  have hbefore : (unmark functions)[k]? = some { f with called := false } := by
    rw [← unmark_eq_of_mark h, unmark, List.getElem?_map, hk]
    rfl
  rw [← length_of_mark h] at hlt
  rw [h] at hmarked ⊢
  exact marked_callee hmarked hbefore rfl hmem hlt

end

end Reach

namespace Program

structure Validated (p q : Program) : Prop where
  checked : List.Forall₂ (Function.Checked p.functions) p.functions q.functions
  memories : q.memories = p.memories
  strings : q.strings = p.strings
  main : ∃ m, q.main? = some m ∧ q.functions[m.entry]? = some m ∧ m.called = true
  callees : ∀ f ∈ q.functions, f.called = true → ∀ entry ∈ f.callees,
    entry < q.functions.length → Reach.Marked q.functions entry

namespace Validated

theorem length_eq {p q : Program} (h : Validated p q) : q.functions.length = p.functions.length :=
  h.checked.length_eq.symm

theorem exists_checked {p q : Program} (h : Validated p q) {n : Nat} {g : Function}
    (hg : q.functions[n]? = some g) :
    ∃ f, p.functions[n]? = some f ∧ Function.Checked p.functions f g :=
  exists_of_forall₂ h.checked hg

theorem checked_of_getElem? {p q : Program} (h : Validated p q) {n : Nat} {f g : Function}
    (hf : p.functions[n]? = some f) (hg : q.functions[n]? = some g) :
    Function.Checked p.functions f g := by
  obtain ⟨f', hf', hchecked⟩ := h.exists_checked hg
  rw [hf, Option.some.injEq] at hf'
  rw [hf']
  exact hchecked

theorem exists_of_read {p q : Program} (h : Validated p q) {n : Nat} {f : Function}
    (hf : p.functions[n]? = some f) :
    ∃ g, q.functions[n]? = some g ∧ Function.Checked p.functions f g := by
  have hn := (List.getElem?_eq_some_iff.mp hf).1
  rw [← h.length_eq] at hn
  have hg := List.getElem?_eq_getElem hn
  exact ⟨_, hg, h.checked_of_getElem? hf hg⟩

end Validated

theorem validated_of_validate {p q : Program} {warnings : List Diagnostic}
    (h : p.validate = (q, .ok warnings))
    (hentry : ∀ (n : Nat) (f : Function), p.functions[n]? = some f → f.entry = n) :
    Validated p q := by
  unfold validate at h
  split at h
  · simp at h
  · next functions hcheck =>
    simp only at h
    split at h
    · simp at h
    · next root hroot =>
      simp only [Prod.mk.injEq] at h
      obtain ⟨hq, -⟩ := h
      have hmark : q.functions = Reach.mark (Reach.unmark functions) [root.entry] := by
        rw [← hq]
        rfl
      have hchecked := Reach.forall₂_checked_mark hmark (checked_of_checkFunctions hcheck)
      refine ⟨hchecked, by rw [← hq]; rfl, by rw [← hq]; rfl, ?_, ?_⟩
      · apply Reach.exists_main_of_mark hmark hroot
        intro k g hg
        obtain ⟨f, hf, hfg⟩ := exists_of_forall₂ hchecked hg
        rw [hfg.entry, hentry k f hf]
      · intro f hf hcalled entry hmem hlt
        exact Reach.marked_callee_of_mark hmark hf hcalled hmem hlt

end Program

/-- A program as reading leaves it, and as validation leaves it after that. -/
structure Accepted (p q : Program) : Prop where
  read : WellReadFunctions p.functions
  words : p.WordsKnown
  validated : p.Validated q

theorem Accepted.entry {p q : Program} (h : Accepted p q) {n : Nat} {g : Function}
    (hg : q.functions[n]? = some g) : g.entry = n := by
  obtain ⟨f, hf, hchecked⟩ := h.validated.exists_checked hg
  rw [hchecked.entry, (h.read n f hf).entry]

theorem accepted_of_parse {loader : Loader} {entry : String} {options : Options} {p q : Program}
    {warnings : List Diagnostic} (hparse : parse loader entry options = .ok p)
    (hvalid : p.validate = (q, .ok warnings)) : Accepted p q := by
  obtain ⟨hread, hwords⟩ := wellRead_of_parse hparse
  refine ⟨hread, hwords, Program.validated_of_validate hvalid ?_⟩
  intro n f hf
  exact (hread n f hf).entry

theorem exists_of_isOk_check {loader : Loader} {entry : String} {options : Options}
    (h : (check loader entry options).isOk = true) :
    ∃ p q warnings, parse loader entry options = .ok p ∧ p.validate = (q, .ok warnings) := by
  unfold check at h
  split at h
  · simp [Except.isOk, Except.toBool] at h
  · next p hp =>
    split at h
    · simp [Except.isOk, Except.toBool] at h
    · next q warnings hq => exact ⟨p, q, warnings, hp, hq⟩

/-- A program with a loop, two branches, a call and a binding. -/
def collatz : SourceTable :=
  SourceTable.ofList [("main",
    "fn collatz int -> int ( let n in n n 2 % 0 = if ( 2 / else 3 * 1 + ) )
     fn main ( 7 loop dup 1 > ( collatz ) drop )")]

theorem exists_collatz : ∃ p q warnings f g,
    parse collatz.loader "main" { library := false } = .ok p ∧ p.validate = (q, .ok warnings) ∧
      p.functions[0]? = some f ∧ q.functions[0]? = some g := by
  have hcheck : (check collatz.loader "main" { library := false }).isOk = true := by
    decide +kernel
  obtain ⟨p, q, warnings, hparse, hvalid⟩ := exists_of_isOk_check hcheck
  have hlength : (parse collatz.loader "main" { library := false }).toOption.map
      (·.functions.length) = some 2 := by
    decide +kernel
  simp only [hparse, Except.toOption, Option.map_some, Option.some.injEq] at hlength
  have hlength' := (accepted_of_parse hparse hvalid).validated.length_eq
  exact ⟨p, q, warnings, _, _, hparse, hvalid, List.getElem?_eq_getElem (by omega),
    List.getElem?_eq_getElem (by omega)⟩

end StackLang
