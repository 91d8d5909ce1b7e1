import Mathlib.Logic.Relation
import StackLang.Proofs.InternalErrors

/-!
This module contains which functions calls lead to, and that validation marks just these.
-/

namespace StackLang

open Relation (ReflTransGen)

def Calls (functions : List Function) (caller callee : Nat) : Prop :=
  ∃ f i, functions[caller]? = some f ∧ i ∈ f.code ∧ i.op = .call callee

namespace Reach

theorem calls_unmark (functions : List Function) : Calls (unmark functions) = Calls functions := by
  funext caller callee
  rw [eq_iff_iff]
  unfold Calls unmark
  rw [List.getElem?_map]
  constructor
  · rintro ⟨f, i, hf, hi, hop⟩
    obtain ⟨g, hg, rfl⟩ := Option.map_eq_some_iff.mp hf
    exact ⟨g, i, hg, hi, hop⟩
  · rintro ⟨f, i, hf, hi, hop⟩
    rw [hf]
    exact ⟨{ f with called := false }, i, rfl, hi, hop⟩

theorem not_marked_unmark (functions : List Function) (k : Nat) :
    ¬ Marked (unmark functions) k := by
  rintro ⟨f, hf, hcalled⟩
  simp only [unmark, List.getElem?_map, Option.map_eq_some_iff] at hf
  obtain ⟨g, -, rfl⟩ := hf
  simp at hcalled

theorem reached_of_marked {functions : List Function} {work : List Nat} {k : Nat}
    (h : Marked (mark functions work) k) :
    Marked functions k ∨ ∃ r ∈ work, ReflTransGen (Calls functions) r k := by
  fun_induction mark functions work with
  | case1 => exact Or.inl h
  | case2 functions entry work hnone ih =>
    rcases ih h with hk | ⟨r, hr, hreach⟩
    · exact Or.inl hk
    · exact Or.inr ⟨r, List.mem_cons_of_mem _ hr, hreach⟩
  | case3 functions entry work f hf hfresh _ ih =>
    have hcalls : Calls (functions.set entry { f with called := true }) = Calls functions := by
      rw [← calls_unmark, unmark_set hf, calls_unmark]
    rcases ih h with hk | ⟨r, hr, hreach⟩
    · rcases (marked_set hf).mp hk with hk | rfl
      · exact Or.inl hk
      · exact Or.inr ⟨k, List.mem_cons_self, .refl⟩
    · rw [hcalls] at hreach
      rcases List.mem_append.mp hr with hr | hr
      · -- what `entry` calls is one step from it
        obtain ⟨i, hi, hop⟩ := Function.mem_callees.mp hr
        exact Or.inr ⟨entry, List.mem_cons_self, .head ⟨f, i, hf, hi, hop⟩ hreach⟩
      · exact Or.inr ⟨r, List.mem_cons_of_mem _ hr, hreach⟩
  | case4 functions entry work f hf hfresh ih =>
    rcases ih h with hk | ⟨r, hr, hreach⟩
    · exact Or.inl hk
    · exact Or.inr ⟨r, List.mem_cons_of_mem _ hr, hreach⟩

end Reach

theorem Program.reached_of_validate {p q : Program} {warnings : List Diagnostic}
    (h : p.validate = (q, .ok warnings)) {main : Function} (hmain : q.main? = some main) {n : Nat}
    (hn : Reach.Marked q.functions n) :
    ReflTransGen (Calls q.functions) main.entry n := by
  unfold validate at h
  split at h
  · simp at h
  · next functions hcheck =>
    simp only at h
    split at h
    · simp at h
    · next root hroot =>
      simp only [Prod.mk.injEq] at h
      obtain ⟨hq, -⟩ := h
      have hmark : q.functions = Reach.mark (Reach.unmark functions) [root.entry] := by
        rw [← hq]
        rfl
      rw [Reach.entry_of_mark hmark hroot hmain]
      rw [hmark] at hn
      obtain ⟨r, hr, hreach⟩ := (Reach.reached_of_marked hn).resolve_left
        (Reach.not_marked_unmark functions n)
      rw [List.mem_singleton.mp hr] at hreach
      rwa [← Reach.calls_unmark, Reach.unmark_eq_of_mark hmark]

theorem Accepted.marked_of_reached {p q : Program} (h : Accepted p q) {m n : Nat}
    (hm : Reach.Marked q.functions m)
    (hn : ReflTransGen (Calls q.functions) m n) : Reach.Marked q.functions n := by
  induction hn with
  | refl => exact hm
  | tail _ hcall ih =>
    obtain ⟨f, hf, hcalled⟩ := ih
    obtain ⟨f', i, hf', hi, hop⟩ := hcall
    rw [hf, Option.some.injEq] at hf'
    subst hf'
    apply (lowerable_of_accepted h).callees f (List.mem_of_getElem? hf) hcalled
    exact Function.mem_callees.mpr ⟨i, hi, hop⟩

theorem Accepted.marked_main {p q : Program} (h : Accepted p q) {main : Function}
    (hmain : q.main? = some main) : Reach.Marked q.functions main.entry := by
  obtain ⟨m, hm, hget, hcalled⟩ := h.validated.main
  rw [hmain, Option.some.injEq] at hm
  rw [hm]
  exact ⟨m, hget, hcalled⟩

theorem marked_iff_reached {p q : Program} {warnings : List Diagnostic} (h : Accepted p q)
    (hvalid : p.validate = (q, .ok warnings)) {main : Function} (hmain : q.main? = some main)
    {n : Nat} :
    Reach.Marked q.functions n ↔ ReflTransGen (Calls q.functions) main.entry n :=
  ⟨Program.reached_of_validate hvalid hmain, h.marked_of_reached (h.marked_main hmain)⟩

end StackLang
