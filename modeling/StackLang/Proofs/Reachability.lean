import StackLang.Proofs.CallGraph
import StackLang.Proofs.Layout

/-!
This module contains what the marking of functions computes: the functions that calls lead to, from
any function of any program. The warnings of a validation are about the others.
-/

namespace StackLang

open Relation (ReflTransGen)

/-- A call leads from one function to another. A call of a function that is not there does not. -/
def Leads (functions : List Function) (caller callee : Nat) : Prop :=
  Calls functions caller callee ∧ callee < functions.length

namespace Reach

variable {functions : List Function} {root k : Nat}

theorem leads_of_calls (h : ReflTransGen (Calls functions) root k) (hk : k < functions.length) :
    ReflTransGen (Leads functions) root k := by
  induction h with
  | refl => exact .refl
  | tail _ hcall ih =>
    have hcaller := hcall
    obtain ⟨f, -, hf, -⟩ := hcaller
    exact .tail (ih (List.getElem?_eq_some_iff.mp hf).1) ⟨hcall, hk⟩

theorem marked_of_leads (h : ReflTransGen (Leads functions) root k) (hk : k < functions.length) :
    Marked (mark (unmark functions) [root]) k := by
  induction h with
  | refl =>
    apply marked_mark
    refine Or.inr ⟨List.mem_singleton_self root, ?_⟩
    rwa [unmark, List.length_map]
  | tail _ hcall ih =>
    obtain ⟨⟨f, i, hf, hi, hop⟩, -⟩ := hcall
    apply marked_callee (f := { f with called := false })
      (ih (List.getElem?_eq_some_iff.mp hf).1) _ rfl
    · exact Function.mem_callees.mpr ⟨i, hi, hop⟩
    · rwa [unmark, List.length_map]
    · rw [unmark, List.getElem?_map, hf]
      rfl

theorem marked_iff_leads :
    Marked (mark (unmark functions) [root]) k ↔
      k < functions.length ∧ ReflTransGen (Leads functions) root k := by
  constructor
  · intro h
    have hk : k < functions.length := by
      obtain ⟨f, hf, -⟩ := h
      have hlt := (List.getElem?_eq_some_iff.mp hf).1
      rwa [← length_of_mark rfl, unmark, List.length_map] at hlt
    refine ⟨hk, leads_of_calls ?_ hk⟩
    obtain ⟨r, hr, hreach⟩ := (reached_of_marked h).resolve_left (not_marked_unmark functions k)
    rw [List.mem_singleton.mp hr, calls_unmark] at hreach
    exact hreach
  · rintro ⟨hk, h⟩
    exact marked_of_leads h hk

theorem exists_called_of_unmark {gs : List Function} (h : unmark gs = unmark functions) :
    ∃ called : Nat → Bool, (∀ i, called i = true ↔ Marked gs i) ∧
      gs = functions.mapIdx fun i f => { f with called := called i } := by
  refine ⟨fun i => gs[i]?.any (·.called), ?_, ?_⟩
  · intro i
    rw [Option.any_eq_true]
    rfl
  · apply List.ext_getElem?
    intro i
    have hi := congrArg (·[i]?) h
    simp only [unmark, List.getElem?_map] at hi
    rw [List.getElem?_mapIdx]
    cases hf : functions[i]? with
    | none => simpa [hf] using hi
    | some f =>
      rw [hf, Option.map_some, Option.map_eq_some_iff] at hi
      obtain ⟨g, hg, hgf⟩ := hi
      simp only [hg, Option.map_some, Option.any_some, Option.some.injEq]
      cases f
      cases g
      simp_all

theorem leads_of_unmark {gs : List Function} (h : unmark gs = unmark functions) :
    Leads gs = Leads functions := by
  have hlength := congrArg List.length h
  simp only [unmark, List.length_map] at hlength
  unfold Leads
  rw [← calls_unmark gs, h, calls_unmark, hlength]

end Reach

theorem exists_of_declarations {fs gs : List Function}
    (h : fs.map Function.declaration = gs.map Function.declaration) {i : Nat} {g : Function}
    (hg : gs[i]? = some g) : ∃ f, fs[i]? = some f ∧ f.declaration = g.declaration := by
  have hi := congrArg (·[i]?) h
  rw [List.getElem?_map, List.getElem?_map, hg, Option.map_some, Option.map_eq_some_iff] at hi
  exact hi

theorem exists_internal_of_declarations {fs gs : List Function}
    (h : fs.map Function.declaration = gs.map Function.declaration) {i : Nat} :
    (∃ f, fs[i]? = some f ∧ f.internal = false) ↔ ∃ g, gs[i]? = some g ∧ g.internal = false := by
  constructor
  · rintro ⟨f, hf, hinternal⟩
    obtain ⟨g, hg, hgf⟩ := exists_of_declarations h.symm hf
    exact ⟨g, hg, (congrArg Function.internal hgf :).trans hinternal⟩
  · rintro ⟨g, hg, hinternal⟩
    obtain ⟨f, hf, hfg⟩ := exists_of_declarations h hg
    exact ⟨f, hf, (congrArg Function.internal hfg :).trans hinternal⟩

namespace Program

theorem functions_markReachable (p : Program) (root : Nat) :
    (p.markReachable root).functions = Reach.mark (Reach.unmark p.functions) [root] :=
  rfl

theorem markReachable_markReachable (p : Program) (root : Nat) :
    (p.markReachable root).markReachable root = p.markReachable root := by
  have h : Reach.mark (Reach.unmark (p.markReachable root).functions) [root] =
      Reach.mark (Reach.unmark p.functions) [root] := by
    rw [Reach.unmark_eq_of_mark (functions_markReachable p root)]
  exact congrArg (fun functions => { p with functions }) h

theorem mem_unused {p : Program} {i : Nat} :
    i ∈ p.unused ↔
      (∃ f, p.functions[i]? = some f ∧ f.internal = false) ∧ ¬ Reach.Marked p.functions i := by
  simp only [unused, List.mem_map, List.mem_filter, List.mem_zipIdx_iff_getElem?]
  constructor
  · rintro ⟨⟨f, j⟩, ⟨hf, hkept⟩, rfl⟩
    refine ⟨⟨f, hf, ?_⟩, ?_⟩ <;> simp_all [Reach.Marked]
  · rintro ⟨⟨f, hf, hinternal⟩, hmarked⟩
    refine ⟨(f, i), ⟨hf, ?_⟩, rfl⟩
    simp_all [Reach.Marked]

theorem pairwise_unused (p : Program) : p.unused.Pairwise (· < ·) := by
  have hsublist : p.unused.Sublist (p.functions.zipIdx.map (·.2)) :=
    List.filter_sublist.map _
  apply List.Pairwise.sublist hsublist
  rw [List.zipIdx_map_snd]
  exact List.pairwise_lt_range'

theorem WarnsOf.of_declarations {p q : Program} {positions : List Nat} {ws : List Diagnostic}
    (hdeclaration : q.functions.map Function.declaration = p.functions.map Function.declaration)
    (h : q.WarnsOf positions ws) : p.WarnsOf positions ws := by
  apply List.Forall₂.imp _ h
  rintro i w ⟨g, hg, rfl⟩
  obtain ⟨f, hf, hfg⟩ := exists_of_declarations hdeclaration.symm hg
  exact ⟨f, hf, (congrArg Function.unusedWarning hfg.symm :)⟩

theorem exists_main_of_declarations {p : Program} {functions : List Function} {root : Function}
    (hdeclaration : functions.map Function.declaration = p.functions.map Function.declaration)
    (hroot : functions.find? (·.name = "main") = some root) :
    ∃ main, p.main? = some main ∧ main.entry = root.entry := by
  have hfind : ∀ fs : List Function, (fs.map Function.declaration).find? (·.name = "main") =
      (fs.find? (·.name = "main")).map Function.declaration := by
    intro fs
    rw [List.find?_map]
    rfl
  have hmain := hfind p.functions
  rw [← hdeclaration, hfind, hroot, eq_comm, Option.map_some, Option.map_eq_some_iff] at hmain
  obtain ⟨main, hmain, heq⟩ := hmain
  exact ⟨main, hmain, (congrArg Function.entry heq :)⟩

theorem exists_unused_of_validate {p q : Program} {ws : List Diagnostic}
    (hentry : ∀ (i : Nat) (f : Function), p.functions[i]? = some f → f.entry = i)
    (h : p.validate = (q, .ok ws)) :
    ∃ main unused, p.main? = some main ∧ p.functions[main.entry]? = some main ∧
      unused.Pairwise (· < ·) ∧
      (∀ i, i ∈ unused ↔ (∃ f, p.functions[i]? = some f ∧ f.internal = false) ∧
        ¬ ReflTransGen (Leads q.functions) main.entry i) ∧
      p.WarnsOf unused ws := by
  obtain ⟨functions, root, hcheck, hroot, hq, hws⟩ := validate_eq_ok h
  have hmark : q.functions = Reach.mark (Reach.unmark functions) [root.entry] := by
    rw [hq]
  have hunmark := Reach.unmark_eq_of_mark hmark
  have hchecked := map_declaration_checkFunctions p.functions p.functions
  rw [hcheck] at hchecked
  have hdeclaration : q.functions.map Function.declaration =
      p.functions.map Function.declaration := by
    rw [← map_declaration_unmark, hunmark, map_declaration_unmark, hchecked]
  obtain ⟨main, hmain, hmainEntry⟩ := exists_main_of_declarations hchecked hroot
  obtain ⟨k, hk⟩ := List.getElem?_of_mem (List.mem_of_find?_eq_some hmain)
  refine ⟨main, q.unused, hmain, ?_, pairwise_unused q, ?_, ?_⟩
  · rw [hentry k main hk, hk]
  · intro i
    rw [mem_unused, exists_internal_of_declarations hdeclaration]
    apply and_congr_right
    rintro ⟨f, hf, -⟩
    have hlt : i < functions.length := by
      rw [← List.length_map Function.declaration, hchecked, List.length_map]
      exact (List.getElem?_eq_some_iff.mp hf).1
    rw [hmark, Reach.marked_iff_leads, ← hmark, Reach.leads_of_unmark hunmark, hmainEntry]
    exact not_congr (and_iff_right hlt)
  · rw [hws]
    exact WarnsOf.of_declarations hdeclaration (warnsOf_unused q)

end Program

/--
Marking puts a mark on each function that calls from `root` lead to, takes it from every other one
and changes nothing else, whatever the marks were before. So marking again changes nothing, and a
validation warns of the functions that calls from `main` do not lead to, in their order, unless they
are internal.
-/
theorem marks_are_reachability (p : Program) (root : Nat) :
    (∃ called : Nat → Bool,
      (∀ i, called i = true ↔
        i < p.functions.length ∧ ReflTransGen (Leads p.functions) root i) ∧
      p.markReachable root =
        { p with functions := p.functions.mapIdx fun i f => { f with called := called i } }) ∧
    (p.markReachable root).markReachable root = p.markReachable root ∧
    ∀ q ws, (∀ (i : Nat) (f : Function), p.functions[i]? = some f → f.entry = i) →
      p.validate = (q, .ok ws) →
      ∃ main unused, p.main? = some main ∧ p.functions[main.entry]? = some main ∧
        unused.Pairwise (· < ·) ∧
        (∀ i, i ∈ unused ↔ (∃ f, p.functions[i]? = some f ∧ f.internal = false) ∧
          ¬ ReflTransGen (Leads q.functions) main.entry i) ∧
        p.WarnsOf unused ws := by
  refine ⟨?_, p.markReachable_markReachable root, ?_⟩
  · have hmark := p.functions_markReachable root
    obtain ⟨called, hcalled, hfunctions⟩ :=
      Reach.exists_called_of_unmark (Reach.unmark_eq_of_mark hmark)
    refine ⟨called, ?_, congrArg (fun functions => { p with functions }) hfunctions⟩
    intro i
    rw [hcalled, hmark, Reach.marked_iff_leads]
  · intro q ws hentry hvalid
    exact Program.exists_unused_of_validate hentry hvalid

def rings : Program where
  functions := [
    { name := "main", entry := 0, loc := ⟨"a.cin", 1, 4⟩,
      code := [⟨⟨"a.cin", 1, 11⟩, .call 1⟩] },
    { name := "ping", entry := 1, loc := ⟨"a.cin", 2, 4⟩,
      code := [⟨⟨"a.cin", 2, 11⟩, .call 2⟩] },
    { name := "pong", entry := 2, loc := ⟨"a.cin", 3, 4⟩,
      code := [⟨⟨"a.cin", 3, 11⟩, .call 1⟩] },
    { name := "alone", entry := 3, loc := ⟨"a.cin", 4, 4⟩,
      code := [⟨⟨"a.cin", 4, 12⟩, .call 3⟩] }]

theorem lt_of_leads_rings {i : Nat} (h : ReflTransGen (Leads rings.functions) 0 i) : i < 3 := by
  induction h with
  | refl => decide
  | @tail caller callee _ hcall ih =>
    obtain ⟨⟨f, j, hf, hj, hop⟩, -⟩ := hcall
    have hcallee : callee ∈ f.callees := Function.mem_callees.mpr ⟨j, hj, hop⟩
    have hall : ∀ n : Fin 3, ∀ k ∈ (rings.functions[n.val]?.map (·.callees)).getD [], k < 3 := by
      decide
    apply hall ⟨caller, ih⟩ callee
    rwa [hf]

theorem marks_are_reachability_rings : ∃ q ws main unused,
    (∀ (i : Nat) (f : Function), rings.functions[i]? = some f → f.entry = i) ∧
      rings.validate = (q, .ok ws) ∧ rings.main? = some main ∧
      (∀ i, i ∈ unused ↔ (∃ f, rings.functions[i]? = some f ∧ f.internal = false) ∧
        ¬ ReflTransGen (Leads q.functions) main.entry i) ∧
      rings.WarnsOf unused ws ∧ 3 ∈ unused := by
  have hentry : ∀ (i : Nat) (f : Function), rings.functions[i]? = some f → f.entry = i := by
    intro i f hf
    have hlt : i < 4 := (List.getElem?_eq_some_iff.mp hf).1
    have hentries : ∀ j : Fin 4, (rings.functions[j.val]?.map (·.entry)) = some j.val := by decide
    simpa [hf] using hentries ⟨i, hlt⟩
  have hcheck : checkFunctions rings.functions rings.functions = (rings.functions, none) := by
    decide +kernel
  have hmain : rings.functions.find? (·.name = "main") = rings.functions.head? := by
    decide
  have hvalid := Program.validate_of_main hcheck hmain
  obtain ⟨-, -, hwarnings⟩ := marks_are_reachability rings 0
  obtain ⟨main, unused, hfirst, -, -, hunused, hwarns⟩ := hwarnings _ _ hentry hvalid
  refine ⟨_, _, main, unused, hentry, hvalid, hfirst, hunused, hwarns, ?_⟩
  rw [hunused]
  refine ⟨⟨_, rfl, rfl⟩, ?_⟩
  intro hleads
  rw [Program.main?, hmain] at hfirst
  rw [Reach.leads_of_unmark (Reach.unmark_eq_of_mark rfl), ← Option.some.inj hfirst] at hleads
  have := lt_of_leads_rings hleads
  omega

end StackLang
