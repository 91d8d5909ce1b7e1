import Mathlib.Data.List.Basic
import StackLang.Validation.Walk

/-!
This module contains what one instruction of a walk does to its state, and how a walk over code is
put together from the walks over its parts.
-/

namespace StackLang

theorem length_le_of_matchArgs {args stack : List Kind} {s : Substitution}
    (h : matchArgs args stack = some s) : args.length ≤ stack.length := by
  unfold matchArgs at h
  split at h
  · simp at h
  · omega

theorem length_topKinds {stack : List Kind} {count : Nat} (h : count ≤ stack.length) :
    (topKinds stack count).length = count := by
  rw [topKinds, List.length_drop]
  omega

theorem length_belowKinds (stack : List Kind) (count : Nat) :
    (belowKinds stack count).length = stack.length - count := by
  rw [belowKinds, List.length_take]
  omega

namespace Substitution

theorem typed_of_matchSlots {s t : Substitution} {args kinds : List Kind}
    (h : s.matchSlots args kinds = some t) (hlength : kinds.length ≤ args.length) :
    ∀ k ∈ kinds, k ≠ .untyped := by
  induction args generalizing s kinds with
  | nil =>
    intro k hk
    rw [List.eq_nil_of_length_eq_zero (Nat.le_zero.mp hlength)] at hk
    simp at hk
  | cons expected args ih =>
    cases kinds with
    | nil => simp
    | cons found kinds =>
      simp only [matchSlots] at h
      obtain ⟨u, hu, ht⟩ := Option.bind_eq_some_iff.mp h
      intro k hk
      rcases List.mem_cons.mp hk with hk | hk
      · subst hk
        intro huntyped
        simp [matchSlot, Kind.accepts, huntyped] at hu
      · simp only [List.length_cons] at hlength
        exact ih ht (by omega) k hk

@[simp]
theorem length_applyAll (s : Substitution) (kinds : List Kind) :
    (s.applyAll kinds).length = kinds.length := by
  simp [applyAll]

end Substitution

namespace Walk

theorem eq_append_of_push {stack results stack' : List Kind} (h : push stack results = .ok stack') :
    stack' = stack ++ results := by
  unfold push at h
  split at h
  · simp only [Except.ok.injEq] at h
    exact h.symm
  · simp at h

theorem apply_eq_ok {op : Op} {stack taken stack' : List Kind}
    (h : apply op stack = .ok (taken, stack')) :
    ∃ sig s rets, op.signature? = some sig ∧
      matchArgs (sig.expand op.variadicCount) stack = some s ∧
      taken = topKinds stack (sig.expand op.variadicCount).length ∧
      rets.length = sig.rets.length ∧
      stack' = belowKinds stack (sig.expand op.variadicCount).length ++ rets := by
  unfold apply at h
  split at h
  · simp at h
  · next sig hsig =>
    simp only at h
    split at h
    · simp at h
    · split at h
      · simp at h
      · next s hs =>
        split at h
        · simp at h
        · next hpush =>
          simp only [Except.ok.injEq, Prod.mk.injEq] at h
          obtain ⟨htaken, hstack⟩ := h
          refine ⟨sig, s, _, hsig, hs, htaken.symm, ?_, hstack ▸ eq_append_of_push hpush⟩
          -- sums and differences leave one cell, whatever its kind
          split
          · simp only [Op.signature?, Prim.signature, Option.some.injEq] at hsig
            simp [← hsig]
          · simp only [Op.signature?, Prim.signature, Option.some.injEq] at hsig
            simp [← hsig]
          · simp

theorem call_eq_ok {functions : List Function} {entry : Nat} {stack stack' : List Kind}
    (h : call functions entry stack = .ok stack') :
    ∃ f s, functions[entry]? = some f ∧ matchArgs f.args stack = some s ∧
      stack' = belowKinds stack f.args.length ++ s.applyAll f.rets := by
  unfold call at h
  split at h
  · simp at h
  · next f hf =>
    split at h
    · simp at h
    · next s hs =>
      unfold matchCall at hs
      split at hs
      · simp at hs
      · split at hs
        · simp at hs
        · next hmatch =>
          simp only [Except.ok.injEq] at hs
          subst hs
          exact ⟨f, _, hf, hmatch, eq_append_of_push h⟩

theorem eq_of_checkBalanced {context : String} {expected found : List Kind}
    (h : checkBalanced context expected found = .ok ()) : expected = found := by
  unfold checkBalanced at h
  split at h
  · simp at h
  · split at h
    · simp at h
    · next heq => simpa using heq

theorem goOn_eq_ok {w w' : Walk} {r : Except Violation (List Kind)} (h : w.goOn r = .ok w') :
    ∃ stack, r = .ok stack ∧ w' = { w with stack } := by
  cases r with
  | error v => simp [goOn, fail] at h
  | ok stack =>
    simp only [goOn, Except.ok.injEq] at h
    exact ⟨stack, rfl, h.symm⟩

theorem length_assign (bindings : List Binding) (slot : Nat) (kinds : List Kind) :
    (assign bindings slot kinds).1.length = bindings.length := by
  induction kinds generalizing bindings slot with
  | nil => rfl
  | cons kind kinds ih =>
    simp only [assign]
    split
    · rw [ih, List.length_modify]
    · rfl

theorem getElem?_assign_of_lt {bindings : List Binding} {slot k : Nat} (kinds : List Kind)
    (h : k < slot) : (assign bindings slot kinds).1[k]? = bindings[k]? := by
  induction kinds generalizing bindings slot with
  | nil => rfl
  | cons kind kinds ih =>
    simp only [assign]
    split
    · rw [ih (by omega), List.getElem?_modify_ne _ _ (by omega)]
    · rfl

theorem getElem?_assign_of_le {bindings : List Binding} {slot k : Nat} {kinds : List Kind}
    (h : slot + kinds.length ≤ k) : (assign bindings slot kinds).1[k]? = bindings[k]? := by
  induction kinds generalizing bindings slot with
  | nil => rfl
  | cons kind kinds ih =>
    simp only [List.length_cons] at h
    simp only [assign]
    split
    · rw [ih (by omega), List.getElem?_modify_ne _ _ (by omega)]
    · rfl

theorem kind_assign {bindings bindings' : List Binding} {slot j : Nat} {kinds : List Kind}
    (h : assign bindings slot kinds = (bindings', none)) (hj : j < kinds.length) :
    bindings'[slot + j]?.map (·.kind) = kinds[j]? := by
  induction kinds generalizing bindings slot j with
  | nil => simp at hj
  | cons kind kinds ih =>
    simp only [assign] at h
    split at h
    · next hslot =>
      cases j with
      | zero =>
        have hfirst : (assign (bindings.modify slot ({ · with kind })) (slot + 1) kinds).1[slot]? =
            (bindings.modify slot ({ · with kind }))[slot]? :=
          getElem?_assign_of_lt kinds (Nat.lt_succ_self slot)
        rw [h] at hfirst
        simp only [Nat.add_zero, hfirst, List.getElem?_modify_eq, List.getElem?_cons_zero]
        rw [List.getElem?_eq_getElem hslot]
        rfl
      | succ j =>
        have hrest := ih h (by simpa using hj)
        rw [List.getElem?_cons_succ, ← hrest]
        congr 2
        omega
    · simp at h

theorem assign_of_le {bindings : List Binding} {slot : Nat} {kinds : List Kind}
    (h : slot + kinds.length ≤ bindings.length) : (assign bindings slot kinds).2 = none := by
  induction kinds generalizing bindings slot with
  | nil => rfl
  | cons kind kinds ih =>
    simp only [List.length_cons] at h
    simp only [assign]
    rw [if_pos (by omega)]
    apply ih
    rw [List.length_modify]
    omega

theorem fillSlots_eq_ok {w w' : Walk} {count : Nat} (h : w.fillSlots count = .ok w') :
    ∃ taken stack, w.blocks = [] ∧ apply (.bind count) w.stack = .ok (taken, stack) ∧
      assign w.bindings w.bound taken = (w'.bindings, none) ∧
      w' = { w with stack, bindings := w'.bindings, bound := w.bound + count } := by
  unfold fillSlots at h
  split at h
  · simp [fail] at h
  · next hblocks =>
    split at h
    · simp [fail] at h
    · next taken stack happly =>
      split at h
      · simp at h
      · next bindings hassign =>
        simp only [Except.ok.injEq] at h
        subst h
        exact ⟨taken, stack, hblocks, happly, hassign, rfl⟩

theorem apply_bind {count : Nat} {stack taken stack' : List Kind}
    (h : apply (.bind count) stack = .ok (taken, stack')) :
    count ≤ stack.length ∧ taken = topKinds stack count ∧ stack' = belowKinds stack count ∧
      ∀ k ∈ taken, k ≠ .untyped := by
  obtain ⟨sig, s, rets, hsig, hmatch, htaken, hrets, hstack⟩ := apply_eq_ok h
  simp only [Op.signature?, Option.some.injEq] at hsig
  subst hsig
  have hexpand : Signature.expand ⟨[.variadic], []⟩ (Op.bind count).variadicCount =
      List.replicate count .any := by
    simp [Signature.expand, Op.variadicCount]
  simp only [hexpand, List.length_replicate, List.length_nil] at hmatch htaken hrets hstack
  have hle := length_le_of_matchArgs hmatch
  rw [List.length_replicate] at hle
  refine ⟨hle, htaken, ?_, ?_⟩
  · rw [hstack, List.eq_nil_of_length_eq_zero hrets, List.append_nil]
  · unfold matchArgs at hmatch
    rw [if_neg (by rw [List.length_replicate]; omega), List.length_replicate, ← htaken] at hmatch
    apply Substitution.typed_of_matchSlots hmatch
    simp [htaken, length_topKinds hle]

theorem readSlot_eq_ok {w w' : Walk} {slot : Nat} (h : w.readSlot slot = .ok w') :
    ∃ b stack, w.bindings[slot]? = some b ∧ b.kind ≠ .untyped ∧
      push w.stack [b.kind] = .ok stack ∧ w' = { w with stack } := by
  unfold readSlot at h
  split at h
  · simp [fail] at h
  · next b hb =>
    split at h
    · simp [fail] at h
    · next hkind =>
      obtain ⟨stack, hpush, hw'⟩ := goOn_eq_ok h
      exact ⟨b, stack, hb, hkind, hpush, hw'⟩

theorem test_eq_ok {w w' : Walk} {op : Op} (h : w.test op = .ok w') :
    ∃ taken stack c c' outer, apply op w.stack = .ok (taken, stack) ∧ w.blocks = c :: outer ∧
      c'.block = c.block ∧ c'.stack = stack ∧ (c.block = .loop → c'.stack = c.stack) ∧
      c'.tested = true ∧ w' = { w with stack, blocks := c' :: outer } := by
  unfold test at h
  split at h
  · simp [fail] at h
  · next taken stack happly =>
    split at h
    · simp [fail] at h
    · next c outer hblocks =>
      split at h
      · next hcond =>
        simp only [Except.ok.injEq] at h
        refine ⟨taken, stack, c, { c with stack, tested := true }, outer, happly, hblocks, rfl, rfl,
          ?_, rfl, h.symm⟩
        intro hloop
        rw [hcond] at hloop
        simp at hloop
      · split at h
        · simp [fail] at h
        · next hbalanced =>
          simp only [Except.ok.injEq] at h
          exact ⟨taken, stack, c, { c with tested := true }, outer, happly, hblocks, rfl,
            eq_of_checkBalanced hbalanced, fun _ => rfl, rfl, h.symm⟩

theorem orElse_eq_ok {w w' : Walk} (h : w.orElse = .ok w') :
    ∃ c outer, w.blocks = c :: outer ∧ c.stack = w.stack ∧
      w' = { w with blocks := { c with inElse := true } :: outer } := by
  unfold orElse at h
  split at h
  · simp [fail] at h
  · next c outer hblocks =>
    split at h
    · split at h
      · simp [fail] at h
      · next hbalanced =>
        simp only [Except.ok.injEq] at h
        have hstack := eq_of_checkBalanced hbalanced
        refine ⟨c, outer, hblocks, hstack, ?_⟩
        rw [← h, hstack]
    · simp [fail] at h

theorem leave_eq_ok {w w' : Walk} (h : w.leave = .ok w') :
    ∃ c outer, w.blocks = c :: outer ∧ c.stack = w.stack ∧ w' = { w with blocks := outer } := by
  unfold leave at h
  split at h
  · simp [fail] at h
  · next c outer hblocks =>
    split at h
    · simp [fail] at h
    · next hbalanced =>
      simp only [Except.ok.injEq] at h
      exact ⟨c, outer, hblocks, eq_of_checkBalanced hbalanced, h.symm⟩

theorem mem_overloads {functions : List Function} {name : String} {f : Function} {entry : Nat}
    (h : (f, entry) ∈ overloads functions name) :
    functions[entry]? = some f ∧ f.name = name := by
  simp only [overloads, List.mem_filter, decide_eq_true_eq] at h
  exact ⟨List.mem_zipIdx_iff_getElem?.mp h.1, h.2⟩

theorem resolve_eq_ok {functions : List Function} {stack : List Kind} {op op' : Op}
    (h : resolve functions stack op = .ok op') :
    (op' = op ∧ ∀ name, op ≠ .word name) ∨
      ∃ name entry f, op = .word name ∧ op' = .call entry ∧ functions[entry]? = some f ∧
        f.name = name := by
  unfold resolve at h
  split at h
  · next name =>
    right
    split at h
    · simp at h
    -- the only function of that name
    · next f entry hone =>
      have hmem : functions[entry]? = some f ∧ f.name = name := by
        apply mem_overloads
        rw [hone]
        exact List.mem_singleton_self _
      split at h
      · simp at h
      · simp only [Except.ok.injEq] at h
        exact ⟨name, entry, f, rfl, h.symm, hmem⟩
    -- the first of several that the stack matches
    · next several hseveral =>
      split at h
      · next f entry hfind =>
        simp only [Except.ok.injEq] at h
        exact ⟨name, entry, f, rfl, h.symm, mem_overloads (List.mem_of_find?_eq_some hfind)⟩
      · simp at h
  · next hword =>
    simp only [Except.ok.injEq] at h
    exact Or.inl ⟨h.symm, hword⟩

theorem eq_of_resolve {functions : List Function} {stack : List Kind} {op op' : Op}
    (h : resolve functions stack op = .ok op') (hcall : ∀ entry, op' ≠ .call entry) :
    op' = op := by
  rcases resolve_eq_ok h with ⟨heq, -⟩ | ⟨_, entry, _, -, heq, -⟩
  · exact heq
  · exact absurd heq (hcall entry)

section

variable {functions : List Function} {w w' : Walk} {i : Instruction} (rest : List Instruction)

theorem run_cons_unresolved {v : Violation} (hresolve : resolve functions w.stack i.op = .error v) :
    run functions w (i :: rest) = ⟨i :: rest, .error (i.loc, ⟨v, w.bindings⟩)⟩ := by
  simp only [run, hresolve]

theorem run_cons_stopped {op : Op} {stop : Stop}
    (hresolve : resolve functions w.stack i.op = .ok op)
    (hstep : step functions w op = .error stop) :
    run functions w (i :: rest) = ⟨⟨i.loc, op⟩ :: rest, .error (i.loc, stop)⟩ := by
  simp only [run, hresolve, hstep]

theorem run_cons {op : Op} (hresolve : resolve functions w.stack i.op = .ok op)
    (hstep : step functions w op = .ok w') :
    run functions w (i :: rest) =
      ⟨⟨i.loc, op⟩ :: (run functions w' rest).code, (run functions w' rest).outcome⟩ := by
  simp only [run, hresolve, hstep]

end

theorem outcome_cons (functions : List Function) (w : Walk) (i : Instruction)
    (rest : List Instruction) {op : Op} {w' : Walk}
    (hresolve : resolve functions w.stack i.op = .ok op) (hstep : step functions w op = .ok w') :
    (run functions w (i :: rest)).outcome = (run functions w' rest).outcome := by
  simp only [run, hresolve, hstep]

theorem run_cons_eq_ok {functions : List Function} {w w'' : Walk} {i : Instruction}
    {rest : List Instruction} (h : (run functions w (i :: rest)).outcome = .ok w'') :
    ∃ op w', resolve functions w.stack i.op = .ok op ∧ step functions w op = .ok w' ∧
      (run functions w' rest).outcome = .ok w'' ∧
      (run functions w (i :: rest)).code = ⟨i.loc, op⟩ :: (run functions w' rest).code := by
  simp only [run] at h ⊢
  split at h
  · simp at h
  · next op hop =>
    split at h
    · simp at h
    · next w' hw' =>
      exact ⟨op, w', hop, hw', h, rfl⟩

theorem outcome_append (functions : List Function) (w : Walk) (a b : List Instruction) :
    (run functions w (a ++ b)).outcome =
      match (run functions w a).outcome with
      | .error e => .error e
      | .ok w' => (run functions w' b).outcome := by
  induction a generalizing w with
  | nil => rfl
  | cons i a ih =>
    simp only [List.cons_append, run]
    split
    · rfl
    · split
      · rfl
      · exact ih _

/-- The state of a walk over code before the instruction at `ip`, if it gets there. -/
def before (functions : List Function) (w : Walk) (code : List Instruction) (ip : Nat) :
    Option Walk :=
  (run functions w (code.take ip)).outcome.toOption

theorem before_eq_some {functions : List Function} {w v : Walk} {code : List Instruction}
    {ip : Nat} :
    before functions w code ip = some v ↔ (run functions w (code.take ip)).outcome = .ok v := by
  unfold before
  cases (run functions w (code.take ip)).outcome with
  | error e => simp [Except.toOption]
  | ok u => simp [Except.toOption]

theorem before_zero (functions : List Function) (w : Walk) (code : List Instruction) :
    before functions w code 0 = some w := rfl

theorem before_length {functions : List Function} {w w' : Walk} {code : List Instruction}
    (h : (run functions w code).outcome = .ok w') :
    before functions w code code.length = some w' := by
  rw [before_eq_some, List.take_length, h]

theorem before_succ {functions : List Function} {w w' : Walk} {i : Instruction}
    {rest : List Instruction} {op : Op}
    (hresolve : resolve functions w.stack i.op = .ok op) (hstep : step functions w op = .ok w')
    (ip : Nat) : before functions w (i :: rest) (ip + 1) = before functions w' rest ip := by
  simp only [before, List.take_succ_cons]
  rw [outcome_cons functions w i _ hresolve hstep]

theorem before_step {functions : List Function} {w w' : Walk} {code : List Instruction}
    (h : (run functions w code).outcome = .ok w') {ip : Nat} {i : Instruction}
    (hi : code[ip]? = some i) :
    ∃ op a b, before functions w code ip = some a ∧ before functions w code (ip + 1) = some b ∧
      resolve functions a.stack i.op = .ok op ∧ step functions a op = .ok b ∧
      (run functions w code).code[ip]? = some ⟨i.loc, op⟩ := by
  induction code generalizing w ip with
  | nil => simp at hi
  | cons j rest ih =>
    obtain ⟨op, u, hresolve, hstep, hrest, hcode⟩ := run_cons_eq_ok h
    cases ip with
    | zero =>
      simp only [List.getElem?_cons_zero, Option.some.injEq] at hi
      subst hi
      refine ⟨op, w, u, rfl, ?_, hresolve, hstep, ?_⟩
      · rw [before_succ hresolve hstep, before_zero]
      · rw [hcode]
        rfl
    | succ ip =>
      simp only [List.getElem?_cons_succ] at hi
      rw [before_succ hresolve hstep, before_succ hresolve hstep, hcode]
      simp only [List.getElem?_cons_succ]
      exact ih hrest hi

theorem length_code_run {functions : List Function} {w w' : Walk} {code : List Instruction}
    (h : (run functions w code).outcome = .ok w') :
    (run functions w code).code.length = code.length := by
  induction code generalizing w with
  | nil => rfl
  | cons i rest ih =>
    obtain ⟨op, u, -, -, hrest, hcode⟩ := run_cons_eq_ok h
    rw [hcode, List.length_cons, List.length_cons, ih hrest]

structure Fills (w w' : Walk) : Prop where
  length : w'.bindings.length = w.bindings.length
  bound : w.bound ≤ w'.bound
  kept : ∀ k, k < w.bound → w'.bindings[k]? = w.bindings[k]?
  later : ∀ k, w'.bound ≤ k → w'.bindings[k]? = w.bindings[k]?
  typed : ∀ k b, w.bound ≤ k → k < w'.bound → w'.bindings[k]? = some b → b.kind ≠ .untyped

namespace Fills

theorem of_eq {w w' : Walk} (hbindings : w'.bindings = w.bindings) (hbound : w'.bound = w.bound) :
    Fills w w' := by
  refine ⟨?_, ?_, ?_, ?_, ?_⟩
  · rw [hbindings]
  · omega
  · intros
    rw [hbindings]
  · intros
    rw [hbindings]
  · intros
    omega

theorem trans {w w' w'' : Walk} (h : Fills w w') (h' : Fills w' w'') : Fills w w'' := by
  have hbound := h.bound
  have hbound' := h'.bound
  refine ⟨h'.length.trans h.length, by omega, ?_, ?_, ?_⟩
  · intro k hk
    rw [h'.kept k (by omega), h.kept k hk]
  · intro k hk
    rw [h'.later k hk, h.later k (by omega)]
  · intro k b hk hk' hb
    by_cases hlt : k < w'.bound
    · rw [h'.kept k hlt] at hb
      exact h.typed k b hk hlt hb
    · exact h'.typed k b (by omega) hk' hb

end Fills

theorem fills_of_fillSlots {w w' : Walk} {count : Nat} (h : w.fillSlots count = .ok w') :
    Fills w w' := by
  obtain ⟨taken, stack, -, happly, hassign, hw'⟩ := fillSlots_eq_ok h
  obtain ⟨hle, htaken, -, htyped⟩ := apply_bind happly
  have hlength : taken.length = count := by rw [htaken, length_topKinds hle]
  have hbound : w'.bound = w.bound + count := by rw [hw']
  have hbindings : w'.bindings = (assign w.bindings w.bound taken).1 := by rw [hassign]
  refine ⟨?_, by omega, ?_, ?_, ?_⟩
  · rw [hbindings, length_assign]
  · intro k hk
    rw [hbindings, getElem?_assign_of_lt taken hk]
  · intro k hk
    rw [hbindings, getElem?_assign_of_le (by omega)]
  · intro k b hk hk' hb
    have hkind := kind_assign (j := k - w.bound) hassign (by omega)
    rw [show w.bound + (k - w.bound) = k by omega, hb, Option.map_some] at hkind
    exact htyped b.kind (List.mem_of_getElem? hkind.symm)

theorem fills_of_step {functions : List Function} {w w' : Walk} {op : Op}
    (h : step functions w op = .ok w') (hunbind : ∀ count, op ≠ .unbind count) : Fills w w' := by
  cases op with
  | unbind count => exact absurd rfl (hunbind count)
  | bind count => exact fills_of_fillSlots h
  | word name => simp [step, fail] at h
  | pushBind slot =>
    obtain ⟨_, _, -, -, -, rfl⟩ := readSlot_eq_ok h
    exact .of_eq rfl rfl
  | enter _ | jump _ =>
    simp only [step, Except.ok.injEq] at h
    subst h
    exact .of_eq rfl rfl
  | branch _ =>
    obtain ⟨_, _, _, _, _, -, -, -, -, -, -, rfl⟩ := test_eq_ok h
    exact .of_eq rfl rfl
  | otherwise _ =>
    obtain ⟨_, _, -, -, rfl⟩ := orElse_eq_ok h
    exact .of_eq rfl rfl
  | leave _ =>
    obtain ⟨_, _, -, -, rfl⟩ := leave_eq_ok h
    exact .of_eq rfl rfl
  | pushInt _ | pushBool _ | pushChar _ | pushStr _ | pushPtr _ | call _ | prim _ | cast _
  | syscall _ =>
    obtain ⟨stack, -, rfl⟩ := goOn_eq_ok h
    exact .of_eq rfl rfl

end Walk
end StackLang
