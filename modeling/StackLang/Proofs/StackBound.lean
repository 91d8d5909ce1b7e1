import StackLang.Proofs.ControlFlow
import StackLang.Proofs.Revalidation

/-!
This module contains the bound on the stack of kinds. Results are put on a stack up to the limit
only, but the arguments of a function are there from the start, however many it declares. So what
goes beyond the limit is what is left of the arguments.
-/

namespace StackLang

namespace Walk

/-- A stack within the limit, or one that holds nothing but the lowest of the arguments. -/
def Bounded (args stack : List Kind) : Prop := stack.length ≤ stackLimit ∨ stack <+: args

section

variable {args stack stack' : List Kind}

theorem Bounded.below (h : Bounded args stack) (count : Nat) :
    Bounded args (belowKinds stack count) := by
  rcases h with hle | hargs
  · left
    rw [length_belowKinds]
    omega
  · right
    exact (List.take_prefix _ _).trans hargs

theorem Bounded.length_le (h : Bounded args stack) (hargs : args.length ≤ stackLimit) :
    stack.length ≤ stackLimit := by
  rcases h with hle | hprefix
  · exact hle
  · exact Nat.le_trans hprefix.length_le hargs

theorem bounded_of_push {results : List Kind} (h : Bounded args stack)
    (hpush : push stack results = .ok stack') : Bounded args stack' := by
  have hstack := eq_append_of_push hpush
  unfold push at hpush
  split at hpush
  · next hroom =>
    rw [Bool.or_eq_true, decide_eq_true_eq, List.isEmpty_iff] at hroom
    rcases hroom with hle | hnil
    · left
      rwa [hstack, List.length_append]
    · rw [hstack, hnil, List.append_nil]
      exact h
  · simp at hpush

theorem bounded_of_apply {op : Op} {taken : List Kind} (h : Bounded args stack)
    (happly : apply op stack = .ok (taken, stack')) : Bounded args stack' := by
  unfold apply at happly
  split at happly
  · simp at happly
  · simp only at happly
    split at happly
    · simp at happly
    · split at happly
      · simp at happly
      · split at happly
        · simp at happly
        · next hpush =>
          rw [← (Prod.mk.inj (Except.ok.inj happly)).2]
          exact bounded_of_push (h.below _) hpush

theorem bounded_of_call {functions : List Function} {entry : Nat} (h : Bounded args stack)
    (hcall : call functions entry stack = .ok stack') : Bounded args stack' := by
  unfold call at hcall
  split at hcall
  · simp at hcall
  · split at hcall
    · simp at hcall
    · exact bounded_of_push (h.below _) hcall

end

structure Within (args : List Kind) (w : Walk) : Prop where
  stack : Bounded args w.stack
  blocks : ∀ c ∈ w.blocks, Bounded args c.stack

theorem Within.step {functions : List Function} {args : List Kind} {w w' : Walk} {op : Op}
    (h : Within args w) (hstep : step functions w op = .ok w') : Within args w' := by
  cases op with
  | pushInt _ | pushBool _ | pushChar _ | pushStr _ | pushPtr _ =>
    obtain ⟨stack, hpush, rfl⟩ := goOn_eq_ok hstep
    exact ⟨bounded_of_push h.stack hpush, h.blocks⟩
  | pushBind slot =>
    obtain ⟨_, stack, -, -, hpush, rfl⟩ := readSlot_eq_ok hstep
    exact ⟨bounded_of_push h.stack hpush, h.blocks⟩
  | bind count =>
    obtain ⟨_, _, -, happly, -, hw'⟩ := fillSlots_eq_ok hstep
    rw [hw']
    exact ⟨bounded_of_apply h.stack happly, h.blocks⟩
  | unbind _ | jump _ =>
    rw [← Except.ok.inj hstep]
    exact ⟨h.stack, h.blocks⟩
  | enter block =>
    rw [← Except.ok.inj hstep]
    refine ⟨h.stack, List.forall_mem_cons.mpr ⟨?_, h.blocks⟩⟩
    cases block with
    | cond => exact Or.inl (Nat.zero_le _)
    | loop => exact h.stack
  | branch _ =>
    obtain ⟨_, _, c, c', outer, happly, hblocks, -, hstack, -, -, rfl⟩ := test_eq_ok hstep
    have hbounded := bounded_of_apply h.stack happly
    refine ⟨hbounded, List.forall_mem_cons.mpr ⟨hstack ▸ hbounded, ?_⟩⟩
    intro d hd
    apply h.blocks
    rw [hblocks]
    exact List.mem_cons_of_mem c hd
  | otherwise _ =>
    obtain ⟨c, outer, hblocks, -, rfl⟩ := orElse_eq_ok hstep
    have hall := h.blocks
    rw [hblocks] at hall
    obtain ⟨hc, houter⟩ := List.forall_mem_cons.mp hall
    exact ⟨h.stack, List.forall_mem_cons.mpr ⟨hc, houter⟩⟩
  | leave _ =>
    obtain ⟨c, outer, hblocks, -, rfl⟩ := leave_eq_ok hstep
    have hall := h.blocks
    rw [hblocks] at hall
    exact ⟨h.stack, (List.forall_mem_cons.mp hall).2⟩
  | word name => simp [Walk.step, fail] at hstep
  | call entry =>
    obtain ⟨stack, hcall, rfl⟩ := goOn_eq_ok hstep
    exact ⟨bounded_of_call h.stack hcall, h.blocks⟩
  | prim _ | cast _ | syscall _ =>
    obtain ⟨stack, hmap, rfl⟩ := goOn_eq_ok hstep
    obtain ⟨r, happly, rfl⟩ := eq_of_map_eq_ok hmap
    exact ⟨bounded_of_apply h.stack happly, h.blocks⟩

theorem Within.run {functions : List Function} {args : List Kind} {w w' : Walk}
    {code : List Instruction} (h : Within args w)
    (hrun : (run functions w code).outcome = .ok w') : Within args w' := by
  induction code generalizing w with
  | nil =>
    rw [← Except.ok.inj hrun]
    exact h
  | cons i code ih =>
    obtain ⟨op, u, -, hstep, hrest, -⟩ := run_cons_eq_ok hrun
    exact ih (h.step hstep) hrest

end Walk

namespace Function

theorem within_start (f : Function) : Walk.Within f.args f.start :=
  ⟨Or.inr List.prefix_rfl, by simp [start]⟩

theorem within_of_stateAt {functions : List Function} {f : Function} {ip : Nat} {w : Walk}
    (h : f.stateAt functions ip = some w) : Walk.Within f.args w := by
  rw [stateAt, Walk.before_eq_some] at h
  exact f.within_start.run h

end Function

/--
In a program that is accepted, a stack of kinds never holds more than the limit allows, except that
a function may declare more arguments than that and give them up one after another. So the stacks of
a function keep to the limit just if its arguments do.
-/
theorem only_arguments_exceed_the_limit {p q : Program} {warnings : List Diagnostic}
    (hvalid : p.validate = (q, .ok warnings)) {f : Function} (hf : f ∈ p.functions) :
    (∀ ip ≤ f.code.length, ∃ w, f.stateAt p.functions ip = some w ∧ Walk.Within f.args w) ∧
      ((∀ ip w, f.stateAt p.functions ip = some w → w.stack.length ≤ stackLimit) ↔
        f.args.length ≤ stackLimit) := by
  obtain ⟨functions, _, hcheck, -, -, -⟩ := Program.validate_eq_ok hvalid
  constructor
  · intro ip hip
    obtain ⟨n, hn⟩ := List.getElem?_of_mem hf
    obtain ⟨g, -, hchecked⟩ := exists_of_forall₂ (checked_of_checkFunctions hcheck).flip hn
    obtain ⟨w, hw⟩ := hchecked.stateAt_of_le (hchecked.length_code ▸ hip)
    exact ⟨w, hw, Function.within_of_stateAt hw⟩
  · constructor
    · intro h
      exact h 0 f.start rfl
    · intro hargs ip w hw
      exact (Function.within_of_stateAt hw).stack.length_le hargs

def giveUp (count : Nat) : Function where
  name := "giveUp"
  entry := 0
  loc := ⟨"a.cin", 1, 4⟩
  args := List.replicate count .any
  code := List.replicate count ⟨⟨"a.cin", 1, 11⟩, .prim .drop⟩

def idle : Function where
  name := "main"
  entry := 1
  loc := ⟨"a.cin", 2, 4⟩

def wide (count : Nat) : Program where
  functions := [giveUp count, idle]

theorem Walk.step_drop (functions : List Function) (count : Nat) :
    Walk.step functions { stack := List.replicate (count + 1) .any, bindings := [] }
      (.prim .drop) = .ok { stack := List.replicate count .any, bindings := [] } := by
  have hmatch : matchArgs [.param "a"] (List.replicate (count + 1) .any) = some [("a", .any)] := by
    rw [matchArgs, if_neg (by simp)]
    simp [topKinds]
    rfl
  have hbelow : belowKinds (List.replicate (count + 1) .any) 1 = List.replicate count .any := by
    simp [belowKinds]
  have hexpand : (Prim.drop.signature.expand (Op.prim .drop).variadicCount) = [.param "a"] := rfl
  have happly : Walk.apply (.prim .drop) (List.replicate (count + 1) .any) =
      .ok (topKinds (List.replicate (count + 1) .any) 1, List.replicate count .any) := by
    simp only [Walk.apply, Op.signature?, hexpand, hmatch]
    simp [hbelow, Walk.push, Prim.signature, Substitution.applyAll]
  simp only [Walk.step, happly, Except.map, Walk.goOn]

theorem Walk.run_giveUp (functions : List Function) (count : Nat) :
    (Walk.run functions (giveUp count).start (giveUp count).code).outcome =
      .ok { stack := [], bindings := [] } := by
  simp only [Function.start, giveUp]
  induction count with
  | zero => rfl
  | succ count ih =>
    rw [List.replicate_succ (a := Instruction.mk _ _),
      Walk.outcome_cons _ _ _ _ rfl (Walk.step_drop functions count), ih]

theorem verdict_giveUp (functions : List Function) (count : Nat) :
    (giveUp count).verdict (Walk.run functions (giveUp count).start (giveUp count).code) =
      none := by
  rw [Function.verdict, Walk.run_giveUp]
  rfl

theorem exists_validate_wide (count : Nat) :
    ∃ q warnings, (wide count).validate = (q, .ok warnings) := by
  have hgiveUp := Function.check_eq (f := giveUp count) (by simp [giveUp]) (wide count).functions
  rw [verdict_giveUp] at hgiveUp
  have hidle : idle.check (wide count).functions = (idle, none) := rfl
  have hcheck := checkFunctions_eq_ok_iff.mpr (.cons hgiveUp (.cons hidle .nil))
  exact ⟨_, _, Program.validate_of_main (p := wide count) hcheck rfl⟩

theorem only_arguments_exceed_the_limit_wide :
    ∃ q warnings, (wide stackLimit).validate = (q, .ok warnings) ∧
      (giveUp stackLimit).args.length = stackLimit ∧
      ∀ ip w, (giveUp stackLimit).stateAt (wide stackLimit).functions ip = some w →
        w.stack.length ≤ stackLimit := by
  obtain ⟨q, warnings, hvalid⟩ := exists_validate_wide stackLimit
  have hlength : (giveUp stackLimit).args.length = stackLimit := List.length_replicate
  refine ⟨q, warnings, hvalid, hlength, ?_⟩
  exact (only_arguments_exceed_the_limit hvalid List.mem_cons_self).2.mpr (Nat.le_of_eq hlength)

/-- Arguments are not counted: a function starts with a stack beyond the limit. -/
theorem arguments_exceed_the_limit :
    ∃ q warnings f w, (wide (stackLimit + 1)).validate = (q, .ok warnings) ∧
      f ∈ (wide (stackLimit + 1)).functions ∧
      f.stateAt (wide (stackLimit + 1)).functions 0 = some w ∧ stackLimit < w.stack.length := by
  obtain ⟨q, warnings, hvalid⟩ := exists_validate_wide (stackLimit + 1)
  refine ⟨q, warnings, giveUp (stackLimit + 1), _, hvalid, List.mem_cons_self, rfl, ?_⟩
  simp [Function.start, giveUp]

end StackLang
