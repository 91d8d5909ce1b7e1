import StackLang.Proofs.ControlFlow
import StackLang.Proofs.Footprint

/-!
This module contains the frame rule of the walk. Instructions look at the top of the stack only, and
blocks compare stacks with each other, so kinds that lie below the arguments of a function take no
part in its walk. That holds of code whose words are resolved. A word is resolved by what it finds
on the stack, and may find more on a deeper one.
-/

namespace StackLang

section

variable (below : List Kind) {stack : List Kind} {count : Nat}

theorem topKinds_deeper (h : count ≤ stack.length) :
    topKinds (below ++ stack) count = topKinds stack count := by
  rw [topKinds, topKinds, List.length_append, Nat.add_sub_assoc h, List.drop_length_add_append]

theorem belowKinds_deeper (h : count ≤ stack.length) :
    belowKinds (below ++ stack) count = below ++ belowKinds stack count := by
  rw [belowKinds, belowKinds, List.length_append, Nat.add_sub_assoc h, List.take_length_add_append]

theorem matchArgs_deeper {args : List Kind} (h : args.length ≤ stack.length) :
    matchArgs args (below ++ stack) = matchArgs args stack := by
  rw [matchArgs, matchArgs, if_neg (by rw [List.length_append]; omega), if_neg (by omega),
    topKinds_deeper below h]

end

namespace Walk

section

variable {below stack stack' : List Kind}

theorem push_deeper {results : List Kind} (h : push stack results = .ok stack')
    (hroom : below.length + stack'.length ≤ stackLimit) :
    push (below ++ stack) results = .ok (below ++ stack') := by
  obtain rfl := eq_append_of_push h
  rw [List.length_append] at hroom
  rw [push, if_pos, List.append_assoc]
  rw [Bool.or_eq_true, decide_eq_true_eq, List.length_append]
  left
  omega

theorem apply_deeper {op : Op} {taken : List Kind} (h : apply op stack = .ok (taken, stack'))
    (hroom : below.length + stack'.length ≤ stackLimit) :
    apply op (below ++ stack) = .ok (taken, below ++ stack') := by
  unfold apply at h ⊢
  cases hsig : op.signature? with
  | none => simp [hsig] at h
  | some sig =>
    simp only [hsig] at h ⊢
    split at h
    · simp at h
    · next hlt =>
      have hle : (sig.expand op.variadicCount).length ≤ stack.length := by omega
      rw [if_neg (by rw [List.length_append]; omega), matchArgs_deeper below hle,
        topKinds_deeper below hle, belowKinds_deeper below hle]
      cases hmatch : matchArgs (sig.expand op.variadicCount) stack with
      | none => simp [hmatch] at h
      | some s =>
        simp only [hmatch] at h ⊢
        split at h
        · simp at h
        · next hpush =>
          obtain ⟨rfl, rfl⟩ := Prod.mk.inj (Except.ok.inj h)
          rw [push_deeper hpush hroom]

theorem call_deeper {functions : List Function} {entry : Nat}
    (h : call functions entry stack = .ok stack')
    (hroom : below.length + stack'.length ≤ stackLimit) :
    call functions entry (below ++ stack) = .ok (below ++ stack') := by
  unfold call matchCall at h ⊢
  cases hf : functions[entry]? with
  | none => simp [hf] at h
  | some f =>
    simp only [hf] at h ⊢
    by_cases hlt : stack.length < f.args.length
    · simp [hlt] at h
    · have hle : f.args.length ≤ stack.length := by omega
      rw [if_neg hlt] at h
      rw [if_neg (by rw [List.length_append]; omega), matchArgs_deeper below hle,
        belowKinds_deeper below hle]
      cases hmatch : matchArgs f.args stack with
      | none => simp [hmatch] at h
      | some s =>
        simp only [hmatch] at h ⊢
        exact push_deeper h hroom

theorem checkBalanced_self (context : String) (stack : List Kind) :
    checkBalanced context stack stack = .ok () := by
  simp [checkBalanced]

end
end Walk

/--
The checkpoint with the kinds `below` under its stack. A conditional has no stack to come back to
until its test is passed.
-/
def Checkpoint.above (below : List Kind) (c : Checkpoint) : Checkpoint :=
  if c.block = .cond ∧ c.tested = false then c else { c with stack := below ++ c.stack }

theorem Checkpoint.above_of_tested (below : List Kind) {c : Checkpoint} (h : c.tested = true) :
    c.above below = { c with stack := below ++ c.stack } := by
  simp [above, h]

namespace Walk

def above (below : List Kind) (w : Walk) : Walk :=
  { w with stack := below ++ w.stack, blocks := w.blocks.map (·.above below) }

@[simp]
theorem stack_above (below : List Kind) (w : Walk) : (w.above below).stack = below ++ w.stack := rfl

section

variable {below : List Kind} {w w' : Walk}

theorem goOn_above {r r' : Except Violation (List Kind)} (h : w.goOn r = .ok w')
    (hr : ∀ stack, r = .ok stack → below.length + stack.length ≤ stackLimit →
      r' = .ok (below ++ stack))
    (hroom : below.length + w'.stack.length ≤ stackLimit) :
    (w.above below).goOn r' = .ok (w'.above below) := by
  obtain ⟨stack, hstack, rfl⟩ := goOn_eq_ok h
  rw [hr stack hstack hroom]
  rfl

theorem readSlot_above {slot : Nat} (h : w.readSlot slot = .ok w')
    (hroom : below.length + w'.stack.length ≤ stackLimit) :
    (w.above below).readSlot slot = .ok (w'.above below) := by
  obtain ⟨b, stack, hb, hkind, hpush, rfl⟩ := readSlot_eq_ok h
  simp only [readSlot, above, hb, if_neg hkind, push_deeper hpush hroom]
  rfl

theorem fillSlots_above {count : Nat} (h : w.fillSlots count = .ok w')
    (hroom : below.length + w'.stack.length ≤ stackLimit) :
    (w.above below).fillSlots count = .ok (w'.above below) := by
  obtain ⟨taken, stack, hblocks, happly, hassign, hw'⟩ := fillSlots_eq_ok h
  rw [hw'] at hroom ⊢
  simp only [fillSlots, above, hblocks, List.map_nil, apply_deeper happly hroom, hassign]

theorem test_above {op : Op} (h : w.test op = .ok w')
    (hroom : below.length + w'.stack.length ≤ stackLimit) :
    (w.above below).test op = .ok (w'.above below) := by
  obtain ⟨taken, stack, c, c', outer, happly, hblocks, -, -, -, -, hw'⟩ := test_eq_ok h
  have happly' : apply op (below ++ w.stack) = .ok (taken, below ++ stack) := by
    apply apply_deeper happly
    rwa [hw'] at hroom
  obtain ⟨block, old, tested, inElse⟩ := c
  simp only [test, happly, hblocks] at h
  simp only [test, above, happly', hblocks, List.map_cons]
  cases block with
  | cond =>
    -- the test records the stack after it, whatever has been recorded before
    rw [← Except.ok.inj h]
    cases tested with
    | false => rfl
    | true => rfl
  | loop =>
    cases hbalanced : checkBalanced "by the loop condition" old stack with
    | error v => simp [hbalanced, fail] at h
    | ok _ =>
      simp only [hbalanced, Except.ok.injEq] at h
      obtain rfl := eq_of_checkBalanced hbalanced
      rw [← h]
      simp [Checkpoint.above, checkBalanced_self]

theorem orElse_above (h : w.orElse = .ok w') : (w.above below).orElse = .ok (w'.above below) := by
  unfold orElse at h
  cases hblocks : w.blocks with
  | nil => simp [hblocks, fail] at h
  | cons c outer =>
    simp only [hblocks] at h
    split at h
    · next hc =>
      have habove := Checkpoint.above_of_tested below hc.2
      cases hbalanced : checkBalanced "in the 'if' branch" c.stack w.stack with
      | error v => simp [hbalanced, fail] at h
      | ok _ =>
        simp only [hbalanced, Except.ok.injEq] at h
        rw [← h]
        simp only [orElse, above, hblocks, List.map_cons, habove, hc, and_self, if_true,
          ← eq_of_checkBalanced hbalanced, checkBalanced_self]
        rfl
    · simp [fail] at h

theorem leave_above {c : Checkpoint} {outer : List Checkpoint} (h : w.leave = .ok w')
    (hblocks : w.blocks = c :: outer) (htested : c.tested = true) :
    (w.above below).leave = .ok (w'.above below) := by
  obtain ⟨d, outer', hblocks', hstack, rfl⟩ := leave_eq_ok h
  rw [hblocks, List.cons.injEq] at hblocks'
  obtain ⟨rfl, rfl⟩ := hblocks'
  simp only [leave, above, hblocks, List.map_cons, Checkpoint.above_of_tested below htested,
    ← hstack, checkBalanced_self]

/-- Instructions do to the stack what they do without the kinds below, if there is room for them. -/
theorem step_above {functions : List Function} {op : Op} (h : step functions w op = .ok w')
    (hroom : below.length + w'.stack.length ≤ stackLimit)
    (hleave : ∀ block, op = .leave block → ∃ c outer, w.blocks = c :: outer ∧ c.tested = true) :
    step functions (w.above below) op = .ok (w'.above below) := by
  cases op with
  | pushInt _ | pushBool _ | pushChar _ | pushStr _ | pushPtr _ =>
    exact goOn_above h (fun _ hpush => push_deeper hpush) hroom
  | pushBind slot => exact readSlot_above h hroom
  | bind count => exact fillSlots_above h hroom
  | unbind _ | jump _ =>
    rw [← Except.ok.inj h]
    rfl
  | enter block =>
    rw [← Except.ok.inj h]
    cases block with
    | cond => rfl
    | loop => rfl
  | branch _ => exact test_above h hroom
  | otherwise _ => exact orElse_above h
  | leave block =>
    obtain ⟨c, outer, hblocks, htested⟩ := hleave block rfl
    exact leave_above h hblocks htested
  | word name => simp [step, fail] at h
  | call entry => exact goOn_above h (fun _ hcall => call_deeper hcall) hroom
  | prim _ | cast _ | syscall _ =>
    apply goOn_above h _ hroom
    intro stack hmap hstack
    obtain ⟨r, happly, rfl⟩ := eq_of_map_eq_ok hmap
    rw [stack_above, apply_deeper happly hstack]
    rfl

end
end Walk

/--
The open blocks after an operation, the innermost first, by whether their tests have been passed. No
block may be left before that.
-/
def Op.testsAfter (passed : List Bool) : Op → Option (List Bool)
  | enter _ => some (false :: passed)
  | branch _ => some (true :: passed.tail)
  | leave _ => if passed.head? = some true then some passed.tail else none
  | _ => some passed

def testsAfter (passed : List Bool) : List Instruction → Option (List Bool)
  | [] => some passed
  | i :: rest => (i.op.testsAfter passed).bind (testsAfter · rest)

theorem testsAfter_append (passed : List Bool) (a b : List Instruction) :
    testsAfter passed (a ++ b) = (testsAfter passed a).bind (testsAfter · b) := by
  induction a generalizing passed with
  | nil => rfl
  | cons i a ih => simp only [List.cons_append, testsAfter, ih, Option.bind_assoc]

theorem Op.testsAfter_of_isPlain {op : Op} (h : op.isPlain = true) (passed : List Bool) :
    op.testsAfter passed = some passed := by
  cases op with
  | enter _ | branch _ | leave _ => simp [isPlain] at h
  | _ => rfl

theorem Nested.testsAfter_eq {start : Nat} {code : List Instruction} (h : Nested start code)
    (passed : List Bool) : testsAfter passed code = some passed := by
  induction h generalizing passed with
  | nil => rfl
  | plain hplain _ ih => rw [testsAfter, Op.testsAfter_of_isPlain hplain, Option.bind_some, ih]
  | cond _ _ _ _ ihpre ihbody ihrest =>
    simp [testsAfter, testsAfter_append, Op.testsAfter, ihpre, ihbody, ihrest]
  | condElse _ _ _ _ _ _ ihpre ihfirst ihsecond ihrest =>
    simp [testsAfter, testsAfter_append, Op.testsAfter, ihpre, ihfirst, ihsecond, ihrest]
  | loop _ _ _ _ ihtest ihbody ihrest =>
    simp [testsAfter, testsAfter_append, Op.testsAfter, ihtest, ihbody, ihrest]

namespace Walk

theorem tested_of_step {functions : List Function} {w w' : Walk} {op : Op} {passed : List Bool}
    (h : step functions w op = .ok w')
    (hop : op.testsAfter (w.blocks.map (·.tested)) = some passed) :
    w'.blocks.map (·.tested) = passed := by
  cases op with
  | enter block =>
    rw [← Except.ok.inj h, ← Option.some.inj hop]
    rfl
  | branch _ =>
    obtain ⟨_, _, c, c', outer, -, hblocks, -, -, -, htested, rfl⟩ := test_eq_ok h
    rw [← Option.some.inj hop, hblocks, List.map_cons, List.map_cons, htested]
    rfl
  | otherwise _ =>
    obtain ⟨c, outer, hblocks, -, rfl⟩ := orElse_eq_ok h
    rw [← Option.some.inj hop, hblocks]
    rfl
  | leave _ =>
    obtain ⟨c, outer, hblocks, -, rfl⟩ := leave_eq_ok h
    rw [hblocks, Op.testsAfter, Option.ite_none_right_eq_some] at hop
    exact Option.some.inj hop.2
  | unbind _ | jump _ =>
    rw [← Except.ok.inj h, ← Option.some.inj hop]
  | _ => rw [(plain_of_step h rfl).1, ← Option.some.inj hop]

theorem testsAfter_of_resolve {functions : List Function} {stack : List Kind} {op op' : Op}
    (h : resolve functions stack op = .ok op') (passed : List Bool) :
    op'.testsAfter passed = op.testsAfter passed := by
  rcases resolve_eq_ok h with ⟨rfl, -⟩ | ⟨_, _, _, rfl, rfl, -⟩
  · rfl
  · rfl

theorem testsAfter_run (functions : List Function) (w : Walk) (code : List Instruction)
    (passed : List Bool) :
    StackLang.testsAfter passed (run functions w code).code =
      StackLang.testsAfter passed code := by
  induction code generalizing w passed with
  | nil => rfl
  | cons i rest ih =>
    cases hresolve : resolve functions w.stack i.op with
    | error v => rw [run_cons_unresolved rest hresolve]
    | ok op =>
      have hop := testsAfter_of_resolve hresolve passed
      cases hstep : step functions w op with
      | error stop =>
        rw [run_cons_stopped rest hresolve hstep, StackLang.testsAfter, hop]
        rfl
      | ok w' =>
        rw [run_cons rest hresolve hstep, StackLang.testsAfter, hop]
        simp only [ih]
        rfl

def Room (functions : List Function) (w : Walk) (code : List Instruction) (below : List Kind) :
    Prop :=
  ∀ ip ≤ code.length, ∀ v ∈ before functions w code ip, below.length + v.stack.length ≤ stackLimit

instance (functions : List Function) (w : Walk) (code : List Instruction) (below : List Kind) :
    Decidable (Room functions w code below) :=
  inferInstanceAs (Decidable (∀ ip ≤ code.length, ∀ v ∈ before functions w code ip, _))

section

variable {functions : List Function} {w w' u : Walk} {code : List Instruction} {below : List Kind}

theorem Room.tail {i : Instruction} (h : Room functions w (i :: code) below) {op : Op}
    (hresolve : resolve functions w.stack i.op = .ok op) (hstep : step functions w op = .ok u) :
    Room functions u code below := by
  intro ip hip v hv
  apply h (ip + 1) (Nat.succ_le_succ hip)
  rwa [before_succ hresolve hstep]

/-- The walk over resolved code ignores what lies below, as long as no block is left untested. -/
theorem before_above {passed : List Bool} (hrun : (run functions w code).outcome = .ok w')
    (hroom : Room functions w code below) (hwords : ∀ i ∈ code, ∀ name, i.op ≠ .word name)
    (htests : StackLang.testsAfter (w.blocks.map (·.tested)) code = some passed) {ip : Nat}
    (hip : ip ≤ code.length) :
    before functions (w.above below) code ip =
      (before functions w code ip).map (·.above below) := by
  induction code generalizing w ip with
  | nil =>
    obtain rfl := Nat.le_zero.mp hip
    rfl
  | cons i code ih =>
    cases ip with
    | zero => rfl
    | succ ip =>
      obtain ⟨op, u, hresolve, hstep, hrest, -⟩ := run_cons_eq_ok hrun
      obtain ⟨hword, hwords⟩ := List.forall_mem_cons.mp hwords
      obtain ⟨now, hnow, hlater⟩ := Option.bind_eq_some_iff.mp htests
      -- the stack plays no part in resolving what is resolved
      have hany : ∀ stack, resolve functions stack i.op = .ok i.op := by
        intro stack
        cases hop : i.op with
        | word name => exact absurd hop (hword name)
        | _ => rfl
      obtain rfl : i.op = op := Except.ok.inj ((hany w.stack).symm.trans hresolve)
      have hfits : below.length + u.stack.length ≤ stackLimit := by
        apply hroom 1 (by simp)
        rw [before_succ hresolve hstep]
        rfl
      have habove : step functions (w.above below) i.op = .ok (u.above below) := by
        apply step_above hstep hfits
        intro block hblock
        rw [hblock, Op.testsAfter, Option.ite_none_right_eq_some] at hnow
        rw [List.head?_map, Option.map_eq_some_iff] at hnow
        obtain ⟨⟨c, hc, htested⟩, -⟩ := hnow
        obtain ⟨outer, hblocks⟩ := List.head?_eq_some_iff.mp hc
        exact ⟨c, outer, hblocks, htested⟩
      rw [before_succ (hany _) habove, before_succ hresolve hstep]
      apply ih hrest (hroom.tail hresolve hstep) hwords _ (Nat.le_of_succ_le_succ hip)
      rwa [tested_of_step hstep hnow]

/--
The walk over code goes through, and it does so with the kinds `below` under its first stack too:
they then lie under every stack, the last one included.
-/
structure Frames (functions : List Function) (w : Walk) (code : List Instruction)
    (below : List Kind) : Prop where
  places : ∀ ip ≤ code.length, ∃ v v', before functions w code ip = some v ∧
    before functions { w with stack := below ++ w.stack } code ip = some v' ∧
    v'.stack = below ++ v.stack
  ends : ∃ v v', (run functions w code).outcome = .ok v ∧
    (run functions { w with stack := below ++ w.stack } code).outcome = .ok v' ∧
    v'.stack = below ++ v.stack

theorem exists_before (hrun : (run functions w code).outcome = .ok w') {ip : Nat}
    (hip : ip ≤ code.length) : ∃ v, before functions w code ip = some v := by
  rcases Nat.lt_or_eq_of_le hip with hlt | rfl
  · obtain ⟨_, v, -, hv, -⟩ := before_step hrun (List.getElem?_eq_getElem hlt)
    exact ⟨v, hv⟩
  · exact ⟨w', before_length hrun⟩

theorem frames_of_resolved {passed : List Bool} (hrun : (run functions w code).outcome = .ok w')
    (hroom : Room functions w code below) (hwords : ∀ i ∈ code, ∀ name, i.op ≠ .word name)
    (hblocks : w.blocks = []) (htests : StackLang.testsAfter [] code = some passed) :
    Frames functions w code below := by
  have hstart : w.above below = { w with stack := below ++ w.stack } := by
    rw [above, hblocks]
    rfl
  have htested : StackLang.testsAfter (w.blocks.map (·.tested)) code = some passed := by
    rwa [hblocks]
  have hbefore : ∀ ip ≤ code.length, before functions { w with stack := below ++ w.stack } code ip =
      (before functions w code ip).map (·.above below) := by
    intro ip hip
    rw [← hstart]
    exact before_above hrun hroom hwords htested hip
  constructor
  · intro ip hip
    obtain ⟨v, hv⟩ := exists_before hrun hip
    exact ⟨v, v.above below, hv, by rw [hbefore ip hip, hv]; rfl, rfl⟩
  · refine ⟨w', w'.above below, hrun, ?_, rfl⟩
    have hend := hbefore code.length (Nat.le_refl _)
    rwa [before_length hrun, Option.map_some, before_eq_some, List.take_length] at hend

end
end Walk

theorem ReadCode.testsAfter_eq {code : List Instruction} {bindings : List Binding}
    (h : ReadCode code bindings) : testsAfter [] code = some [] := by
  obtain ⟨body, ending, hcode, hbody, -, hending⟩ := h.split
  rw [hcode, testsAfter_append, hbody.testsAfter_eq, Option.bind_some]
  rcases hending with ⟨rfl, -⟩ | ⟨_, rfl, -⟩
  · rfl
  · rfl

theorem ReadCode.untype_bindings {code : List Instruction} {bindings : List Binding}
    (h : ReadCode code bindings) : Walk.untype bindings = bindings := by
  apply List.ext_getElem?
  intro k
  rw [Walk.untype, List.getElem?_map]
  cases hb : bindings[k]? with
  | none => rfl
  | some b => rw [Option.map_some, ← (h.fresh k b hb).2]

namespace Accepted

variable {p q : Program} {warnings : List Diagnostic}

theorem testsAfter_eq (h : Accepted p q) {g : Function} (hg : g ∈ q.functions) :
    testsAfter [] g.code = some [] := by
  obtain ⟨n, hn⟩ := List.getElem?_of_mem hg
  obtain ⟨f, hf, hchecked⟩ := h.validated.exists_checked hn
  rw [hchecked.code, Walk.testsAfter_run, (h.read n f hf).code.testsAfter_eq]

theorem exists_walk (h : Accepted p q) (hvalid : p.validate = (q, .ok warnings)) {g : Function}
    (hg : g ∈ q.functions) : ∃ w, (Walk.run q.functions g.start g.code).outcome = .ok w := by
  have huntyped : ∀ f ∈ p.functions, Walk.untype f.bindings = f.bindings := by
    intro f hf
    obtain ⟨n, hn⟩ := List.getElem?_of_mem hf
    exact (h.read n f hn).code.untype_bindings
  have hagain := Program.validate_validate huntyped
  rw [hvalid] at hagain
  obtain ⟨functions, _, hcheck, -⟩ := Program.validate_eq_ok hagain
  obtain ⟨n, hn⟩ := List.getElem?_of_mem hg
  obtain ⟨_, -, hchecked⟩ := exists_of_forall₂ (checked_of_checkFunctions hcheck).flip hn
  obtain ⟨w, hw, -⟩ := hchecked.walk
  exact ⟨w, hw⟩

end Accepted

def greedy : SourceTable :=
  SourceTable.ofList [("main",
    "fn* take int int ( drop drop ) fn* take int ( drop )
     fn once int ( take ) fn main ( 1 once )")]

theorem exists_greedy : ∃ p q warnings f,
    parse greedy.loader "main" { library := false } = .ok p ∧ p.validate = (q, .ok warnings) ∧
      f ∈ p.functions ∧ Walk.Room p.functions f.start f.code [.int] ∧
      ¬ Walk.Frames p.functions f.start f.code [.int] := by
  have hcheck : (check greedy.loader "main" { library := false }).isOk = true := by
    decide +kernel
  obtain ⟨p, q, warnings, hparse, hvalid⟩ := exists_of_isOk_check hcheck
  have hfacts : (parse greedy.loader "main" { library := false }).toOption.bind (fun p =>
      p.functions[2]?.map fun f => (decide (Walk.Room p.functions f.start f.code [.int]),
        (Walk.run p.functions { f.start with stack := [.int] ++ f.start.stack }
          f.code).outcome.toOption.map (·.stack))) = some (true, some []) := by
    decide +kernel
  rw [hparse, Except.toOption, Option.bind_some, Option.map_eq_some_iff] at hfacts
  obtain ⟨f, hf, hfacts⟩ := hfacts
  rw [Prod.mk.injEq, decide_eq_true_eq] at hfacts
  refine ⟨p, q, warnings, f, hparse, hvalid, List.mem_of_getElem? hf, hfacts.1, fun hframes => ?_⟩
  -- both kinds are taken, so none is left below
  obtain ⟨v, v', -, hend, hstack⟩ := hframes.ends
  have hnone := hfacts.2
  rw [hend, Except.toOption, Option.map_some, Option.some.injEq, hstack] at hnone
  simp at hnone

/--
The walk over a function of an accepted program, whose words have become calls, goes the same way on
a deeper stack, if that has room for it. Before its words are resolved it may not.
-/
theorem resolved_code_ignores_what_lies_below :
    (∀ {loader : Loader} {entry : String} {options : Options} {p q : Program}
      {warnings : List Diagnostic}, parse loader entry options = .ok p →
      p.validate = (q, .ok warnings) → ∀ g ∈ q.functions,
        (∀ i ∈ g.code, ∀ name, i.op ≠ .word name) ∧
        ∀ below, Walk.Room q.functions g.start g.code below →
          Walk.Frames q.functions g.start g.code below) ∧
    ∃ (loader : Loader) (entry : String) (options : Options) (p q : Program)
      (warnings : List Diagnostic) (f : Function) (below : List Kind),
      parse loader entry options = .ok p ∧ p.validate = (q, .ok warnings) ∧ f ∈ p.functions ∧
      Walk.Room p.functions f.start f.code below ∧
      ¬ Walk.Frames p.functions f.start f.code below := by
  constructor
  · intro loader entry options p q warnings hparse hvalid g hg
    have haccepted := accepted_of_parse hparse hvalid
    have hwords : ∀ i ∈ g.code, ∀ name, i.op ≠ .word name := by
      intro i hi
      exact Program.ne_word_of_validate hvalid hg hi
    obtain ⟨w, hw⟩ := haccepted.exists_walk hvalid hg
    refine ⟨hwords, fun below hroom => ?_⟩
    exact Walk.frames_of_resolved hw hroom hwords rfl (haccepted.testsAfter_eq hg)
  · obtain ⟨p, q, warnings, f, hgreedy⟩ := exists_greedy
    exact ⟨_, _, _, p, q, warnings, f, _, hgreedy⟩

theorem Walk.run_unmark (functions : List Function) (w : Walk) (code : List Instruction) :
    run (Reach.unmark functions) w code = run functions w code := by
  apply run_map
  exact ⟨fun _ => rfl, fun _ => rfl, fun _ => rfl⟩

theorem Walk.Room.of_unmark {fs gs : List Function} (h : Reach.unmark gs = Reach.unmark fs)
    {w : Walk} {code : List Instruction} {below : List Kind} (hroom : Room fs w code below) :
    Room gs w code below := by
  intro ip hip v hv
  apply hroom ip hip
  rwa [before, ← run_unmark, h, run_unmark] at hv

theorem resolved_code_ignores_what_lies_below_collatz : ∃ p q warnings g,
    parse collatz.loader "main" { library := false } = .ok p ∧ p.validate = (q, .ok warnings) ∧
      q.functions[0]? = some g ∧ Walk.Room q.functions g.start g.code [.ptr, .param "x"] ∧
      Walk.Frames q.functions g.start g.code [.ptr, .param "x"] := by
  obtain ⟨p, q, warnings, f, g, hparse, hvalid, -, hg⟩ := exists_collatz
  obtain ⟨functions, main, hcheck, -, hq, -⟩ := Program.validate_eq_ok hvalid
  have hfacts : (parse collatz.loader "main" { library := false }).toOption.bind (fun p =>
      (checkFunctions p.functions p.functions).1[0]?.map fun g =>
        decide (Walk.Room (checkFunctions p.functions p.functions).1 g.start g.code
          [.ptr, .param "x"])) = some true := by
    decide +kernel
  rw [hparse, Except.toOption, Option.bind_some, hcheck, Option.map_eq_some_iff] at hfacts
  obtain ⟨g₀, hg₀, hroom⟩ := hfacts
  have hunmark := Reach.unmark_eq_of_mark (congrArg Program.functions hq)
  have hsame : { g with called := false } = { g₀ with called := false } := by
    have hfirst := congrArg (·[0]?) hunmark
    simpa only [Reach.unmark, List.getElem?_map, hg, hg₀, Option.map_some,
      Option.some.injEq] using hfirst
  have hstart := congrArg Function.start hsame
  have hcode := congrArg Function.code hsame
  have hroom : Walk.Room q.functions g.start g.code [.ptr, .param "x"] := by
    rw [show g.start = g₀.start from hstart, show g.code = g₀.code from hcode]
    exact Walk.Room.of_unmark hunmark (of_decide_eq_true hroom)
  refine ⟨p, q, warnings, g, hparse, hvalid, hg, hroom, ?_⟩
  have hrule := resolved_code_ignores_what_lies_below.1 hparse hvalid g (List.mem_of_getElem? hg)
  exact hrule.2 _ hroom

end StackLang
