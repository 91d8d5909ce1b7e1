import StackLang.Proofs.Validated

/-!
This module contains what a second validation does. It meets calls where the first one met words,
and slots that have kinds already, and it comes to the same end.
-/

namespace StackLang

def Op.usesSlots : Op → Bool
  | pushBind _ | bind _ => true
  | _ => false

/-- What the check of another function can see of a function. -/
def Function.declaration (f : Function) : Function :=
  { f with called := false, code := [], bindings := [] }

/-- A change to functions that the check of another function does not see. -/
structure Function.Unseen (g : Function → Function) : Prop where
  name : ∀ f, (g f).name = f.name
  args : ∀ f, (g f).args = f.args
  rets : ∀ f, (g f).rets = f.rets

theorem Function.unseen_declaration : Unseen declaration :=
  ⟨fun _ => rfl, fun _ => rfl, fun _ => rfl⟩

namespace Walk

variable {g : Function → Function} (hg : Function.Unseen g) (functions : List Function)

include hg

theorem overloads_map (name : String) :
    overloads (functions.map g) name = (overloads functions name).map (Prod.map g id) := by
  simp only [overloads, List.zipIdx_map, List.filter_map, Function.comp_def, Prod.map_fst, hg.name]

theorem matchCall_map (f : Function) (stack : List Kind) :
    matchCall (g f) stack = matchCall f stack := by
  simp only [matchCall, hg.name, hg.args]

theorem resolve_map (stack : List Kind) (op : Op) :
    resolve (functions.map g) stack op = resolve functions stack op := by
  cases op with
  | word name =>
    simp only [resolve, overloads_map hg]
    cases overloads functions name with
    | nil => rfl
    | cons first others =>
      cases others with
      | nil => simp only [List.map_cons, List.map_nil, Prod.map, matchCall_map hg, id]
      | cons second others =>
        have hfind : ((first :: second :: others).map (Prod.map g id)).find?
              (fun o => (matchArgs o.1.args stack).isSome) =
            ((first :: second :: others).find? fun o => (matchArgs o.1.args stack).isSome).map
              (Prod.map g id) := by
          simp only [List.find?_map, Function.comp_def, Prod.map_fst, hg.args]
        simp only [List.map_cons] at hfind ⊢
        rw [hfind, List.map_map, List.map_map]
        cases (first :: second :: others).find? fun o => (matchArgs o.1.args stack).isSome with
        | none =>
          simp only [Option.map_none, Function.comp_def, Prod.map_fst, Function.signature, hg.name,
            hg.args, hg.rets]
        | some o => rfl
  | _ => rfl

theorem call_map (entry : Nat) (stack : List Kind) :
    call (functions.map g) entry stack = call functions entry stack := by
  simp only [call, List.getElem?_map]
  cases functions[entry]? with
  | none => rfl
  | some f => simp only [Option.map_some, matchCall_map hg, hg.args, hg.rets]

theorem step_map (w : Walk) (op : Op) :
    step (functions.map g) w op = step functions w op := by
  cases op with
  | call entry => simp only [step, call_map hg]
  | _ => rfl

theorem run_map (w : Walk) (code : List Instruction) :
    run (functions.map g) w code = run functions w code := by
  induction code generalizing w with
  | nil => rfl
  | cons i rest ih => simp only [run, resolve_map hg, step_map hg, ih]

end Walk

section

variable {g : Function → Function} (hg : Function.Unseen g) (functions : List Function)

include hg

theorem Function.check_map (f : Function) : f.check (functions.map g) = f.check functions := by
  simp only [check, Walk.run_map hg]

theorem checkFunctions_map (fs : List Function) :
    checkFunctions (functions.map g) fs = checkFunctions functions fs := by
  induction fs with
  | nil => rfl
  | cons f fs ih => simp only [checkFunctions, Function.check_map hg, ih]

end

namespace Walk

/-- The slots of `bindings`, those without a kind with the kind they have in `final`. -/
def complete : (bindings final : List Binding) → List Binding
  | [], _ => []
  | bs, [] => bs
  | b :: bs, c :: cs =>
    { b with kind := if b.kind = .untyped then c.kind else b.kind } :: complete bs cs

theorem complete_self (bindings : List Binding) : complete bindings bindings = bindings := by
  induction bindings with
  | nil => rfl
  | cons b bs ih => simp only [complete, ite_self, ih]

theorem length_complete (bindings final : List Binding) :
    (complete bindings final).length = bindings.length := by
  fun_induction complete bindings final with
  | case1 => rfl
  | case2 => rfl
  | case3 b bs c cs ih => rw [List.length_cons, List.length_cons, ih]

theorem getElem?_complete {bindings : List Binding} {slot : Nat} {b : Binding}
    (h : bindings[slot]? = some b) (hkind : b.kind ≠ .untyped) (final : List Binding) :
    (complete bindings final)[slot]? = some b := by
  fun_induction complete bindings final generalizing slot with
  | case1 => exact h
  | case2 => exact h
  | case3 c bs d ds ih =>
    cases slot with
    | zero =>
      simp only [List.getElem?_cons_zero, Option.some.injEq] at h ⊢
      subst h
      rw [if_neg hkind]
    | succ slot =>
      simp only [List.getElem?_cons_succ] at h ⊢
      exact ih h

theorem modify_complete (bindings final : List Binding) (slot : Nat) {kind : Kind}
    (hkind : kind ≠ .untyped) :
    (complete bindings final).modify slot ({ · with kind }) =
      complete (bindings.modify slot ({ · with kind })) final := by
  fun_induction complete bindings final generalizing slot with
  | case1 => simp [complete]
  | case2 bs => cases bs.modify slot ({ · with kind }) <;> rfl
  | case3 b bs c cs ih =>
    cases slot with
    | zero => simp only [List.modify_zero_cons, complete, if_neg hkind]
    | succ slot => simp only [List.modify_succ_cons, complete, ih]

theorem assign_complete {kinds : List Kind} (h : ∀ k ∈ kinds, k ≠ .untyped)
    (bindings final : List Binding) (slot : Nat) :
    assign (complete bindings final) slot kinds =
      (complete (assign bindings slot kinds).1 final, (assign bindings slot kinds).2) := by
  induction kinds generalizing bindings slot with
  | nil => rfl
  | cons kind kinds ih =>
    obtain ⟨hkind, hkinds⟩ := List.forall_mem_cons.mp h
    simp only [assign, length_complete]
    split
    · rw [modify_complete bindings final slot hkind]
      exact ih hkinds _ _
    · rfl

def bindingsAfter : Except Stop Walk → List Binding
  | .ok w => w.bindings
  | .error stop => stop.bindings

def rebind (bindings : List Binding) : Except Stop Walk → Except Stop Walk
  | .ok w => .ok { w with bindings }
  | .error stop => .error { stop with bindings }

theorem bindingsAfter_rebind (bindings : List Binding) (r : Except Stop Walk) :
    bindingsAfter (rebind bindings r) = bindings := by
  cases r with
  | ok w => rfl
  | error stop => rfl

theorem goOn_rebind (w : Walk) (bindings : List Binding) (r : Except Violation (List Kind)) :
    ({ w with bindings } : Walk).goOn r = rebind bindings (w.goOn r) := by
  cases r with
  | ok stack => rfl
  | error v => rfl

theorem test_rebind (w : Walk) (bindings : List Binding) (op : Op) :
    ({ w with bindings } : Walk).test op = rebind bindings (w.test op) := by
  unfold test
  cases apply op w.stack with
  | error v => rfl
  | ok result =>
    cases w.blocks with
    | nil => rfl
    | cons c outer =>
      obtain ⟨block, stack, tested, inElse⟩ := c
      cases block with
      | cond => rfl
      | loop =>
        simp only
        cases checkBalanced "by the loop condition" stack result.2 with
        | error v => rfl
        | ok _ => rfl

theorem orElse_rebind (w : Walk) (bindings : List Binding) :
    ({ w with bindings } : Walk).orElse = rebind bindings w.orElse := by
  unfold orElse
  cases w.blocks with
  | nil => rfl
  | cons c outer =>
    simp only
    split
    · cases checkBalanced "in the 'if' branch" c.stack w.stack with
      | error v => rfl
      | ok _ => rfl
    · rfl

theorem leave_rebind (w : Walk) (bindings : List Binding) :
    ({ w with bindings } : Walk).leave = rebind bindings w.leave := by
  unfold leave
  cases w.blocks with
  | nil => rfl
  | cons c outer =>
    simp only
    cases checkBalanced c.context c.stack w.stack with
    | error v => rfl
    | ok _ => rfl

theorem step_rebind (functions : List Function) (w : Walk) (bindings : List Binding) {op : Op}
    (h : op.usesSlots = false) :
    step functions { w with bindings } op = rebind bindings (step functions w op) := by
  cases op with
  | pushBind _ | bind _ => simp [Op.usesSlots] at h
  | unbind _ | enter _ | jump _ | word _ => rfl
  | branch target => exact test_rebind w bindings (.branch target)
  | otherwise _ => exact orElse_rebind w bindings
  | leave _ => exact leave_rebind w bindings
  | pushInt _ | pushBool _ | pushChar _ | pushStr _ | pushPtr _ | call _ | prim _ | cast _
  | syscall _ => apply goOn_rebind

theorem bindingsAfter_step (functions : List Function) (w : Walk) {op : Op}
    (h : op.usesSlots = false) : bindingsAfter (step functions w op) = w.bindings := by
  have hrebind : step functions w op = rebind w.bindings (step functions w op) :=
    step_rebind functions w w.bindings h
  rw [hrebind, bindingsAfter_rebind]

theorem bindingsAfter_readSlot (w : Walk) (slot : Nat) :
    bindingsAfter (w.readSlot slot) = w.bindings := by
  unfold readSlot
  split
  · rfl
  · next b _ =>
    split
    · rfl
    · cases push w.stack [b.kind] with
      | ok stack => rfl
      | error v => rfl

/-- The state of a second walk where the first one, which ends with the slots `final`, is at `w`. -/
def revisit (w : Walk) (final : List Binding) : Walk :=
  { w with bindings := complete w.bindings final }

theorem revisit_self (w : Walk) : w.revisit w.bindings = w := by
  rw [revisit, complete_self]

theorem readSlot_revisit {w w' : Walk} {slot : Nat} (h : w.readSlot slot = .ok w')
    (final : List Binding) : (w.revisit final).readSlot slot = .ok (w'.revisit final) := by
  obtain ⟨b, stack, hb, hkind, hpush, rfl⟩ := readSlot_eq_ok h
  have hb' : (w.revisit final).bindings[slot]? = some b := getElem?_complete hb hkind final
  unfold readSlot
  simp only [hb']
  rw [if_neg hkind, revisit, hpush]
  rfl

theorem fillSlots_revisit {w w' : Walk} {count : Nat} (h : w.fillSlots count = .ok w')
    (final : List Binding) : (w.revisit final).fillSlots count = .ok (w'.revisit final) := by
  obtain ⟨taken, stack, hblocks, happly, hassign, hw'⟩ := fillSlots_eq_ok h
  obtain ⟨-, -, -, htyped⟩ := apply_bind happly
  have hagain := assign_complete htyped w.bindings final w.bound
  rw [hassign] at hagain
  unfold fillSlots
  simp only [revisit, hblocks, happly, hagain]
  rw [hw', hblocks]

theorem fillSlots_revisit_error {w : Walk} {count : Nat} {stop : Stop}
    (h : w.fillSlots count = .error stop) :
    (w.revisit stop.bindings).fillSlots count = .error stop := by
  have hfail : ∀ v, w.fail v = .error stop → w.revisit stop.bindings = w := by
    intro v hv
    simp only [fail, Except.error.injEq] at hv
    rw [← hv, revisit_self]
  have hfill := h
  unfold fillSlots at hfill
  split at hfill
  · rw [hfail _ hfill, h]
  · next hblocks =>
    split at hfill
    · rw [hfail _ hfill, h]
    · next taken stack happly =>
      split at hfill
      · -- the slots in range have their kinds already, and get them again
        next bindings slot hassign =>
        simp only [Except.error.injEq] at hfill
        subst hfill
        obtain ⟨-, -, -, htyped⟩ := apply_bind happly
        have hagain := assign_complete htyped w.bindings bindings w.bound
        rw [hassign, complete_self] at hagain
        unfold fillSlots
        simp only [revisit, hblocks, happly, hagain]
      · simp at hfill

theorem step_revisit {functions : List Function} {w w' : Walk} {op : Op}
    (h : step functions w op = .ok w') (final : List Binding) :
    step functions (w.revisit final) op = .ok (w'.revisit final) := by
  cases hop : op.usesSlots with
  | false =>
    have hbindings := bindingsAfter_step functions w hop
    rw [h, bindingsAfter] at hbindings
    rw [revisit, step_rebind functions w _ hop, h, rebind, revisit, hbindings]
  | true =>
    cases op with
    | pushBind slot => exact readSlot_revisit h final
    | bind count => exact fillSlots_revisit h final
    | _ => simp [Op.usesSlots] at hop

theorem step_revisit_error {functions : List Function} {w : Walk} {op : Op} {stop : Stop}
    (h : step functions w op = .error stop) :
    step functions (w.revisit stop.bindings) op = .error stop := by
  cases hop : op.usesSlots with
  | false =>
    have hbindings := bindingsAfter_step functions w hop
    rw [h, bindingsAfter] at hbindings
    rw [hbindings, revisit_self, h]
  | true =>
    cases op with
    | pushBind slot =>
      have hbindings := bindingsAfter_readSlot w slot
      rw [show w.readSlot slot = .error stop from h, bindingsAfter] at hbindings
      rw [hbindings, revisit_self, h]
    | bind count => exact fillSlots_revisit_error h
    | _ => simp [Op.usesSlots] at hop

theorem resolve_resolve {functions : List Function} {stack : List Kind} {op op' : Op}
    (h : resolve functions stack op = .ok op') : resolve functions stack op' = .ok op' := by
  rcases resolve_eq_ok h with ⟨rfl, -⟩ | ⟨name, entry, f, -, rfl, -⟩
  · exact h
  · rfl

def Trace.bindings (t : Trace) : List Binding :=
  match t.outcome with
  | .error (_, stop) => stop.bindings
  | .ok w => w.bindings

theorem run_revisit (functions : List Function) (w : Walk) (code : List Instruction) :
    run functions (w.revisit (run functions w code).bindings) (run functions w code).code =
      run functions w code := by
  induction code generalizing w with
  | nil =>
    rw [run, Trace.bindings, revisit_self]
    rfl
  | cons i rest ih =>
    cases hresolve : resolve functions w.stack i.op with
    | error v =>
      -- the word stays, and no slot has been filled since
      have hrun := run_cons_unresolved rest hresolve
      rw [hrun, Trace.bindings, revisit_self, hrun]
    | ok op =>
      have hagain := resolve_resolve hresolve
      cases hstep : step functions w op with
      | error stop =>
        have hstep' := step_revisit_error hstep
        rw [run_cons_stopped rest hresolve hstep, Trace.bindings,
          run_cons_stopped rest hagain hstep']
      | ok w' =>
        have hrun := run_cons rest hresolve hstep
        have hbindings : (run functions w (i :: rest)).bindings =
            (run functions w' rest).bindings := by
          rw [hrun]
          rfl
        -- the slots at the end are those of the rest, for which the second walk is known
        have hstep' := step_revisit hstep (run functions w' rest).bindings
        rw [hbindings, hrun, run_cons _ hagain hstep', ih]

theorem map_loc_run (functions : List Function) (w : Walk) (code : List Instruction) :
    (run functions w code).code.map (·.loc) = code.map (·.loc) := by
  induction code generalizing w with
  | nil => rfl
  | cons i rest ih =>
    cases hresolve : resolve functions w.stack i.op with
    | error v => rw [run_cons_unresolved rest hresolve]
    | ok op =>
      cases hstep : step functions w op with
      | error stop => rw [run_cons_stopped rest hresolve hstep, List.map_cons, List.map_cons]
      | ok w' => rw [run_cons rest hresolve hstep, List.map_cons, List.map_cons, ih]

def untype (bindings : List Binding) : List Binding := bindings.map ({ · with kind := .untyped })

theorem complete_untype (final : List Binding) : complete (untype final) final = final := by
  induction final with
  | nil => rfl
  | cons b bs ih =>
    simp only [untype, List.map_cons, complete, if_true]
    exact congrArg (b :: ·) ih

theorem untype_modify (bindings : List Binding) (slot : Nat) (kind : Kind) :
    untype (bindings.modify slot ({ · with kind })) = untype bindings := by
  induction bindings generalizing slot with
  | nil => simp
  | cons b bs ih =>
    cases slot with
    | zero => rfl
    | succ slot =>
      rw [List.modify_succ_cons]
      exact congrArg (_ :: ·) (ih slot)

theorem untype_assign (bindings : List Binding) (slot : Nat) (kinds : List Kind) :
    untype (assign bindings slot kinds).1 = untype bindings := by
  induction kinds generalizing bindings slot with
  | nil => rfl
  | cons kind kinds ih =>
    simp only [assign]
    split
    · rw [ih, untype_modify]
    · rfl

theorem untype_fillSlots (w : Walk) (count : Nat) :
    untype (bindingsAfter (w.fillSlots count)) = untype w.bindings := by
  unfold fillSlots
  split
  · rfl
  · split
    · rfl
    · next taken stack _ =>
      have huntype := untype_assign w.bindings w.bound taken
      split
      · next hassign => rwa [hassign] at huntype
      · next hassign => rwa [hassign] at huntype

theorem untype_step (functions : List Function) (w : Walk) (op : Op) :
    untype (bindingsAfter (step functions w op)) = untype w.bindings := by
  cases hop : op.usesSlots with
  | false => rw [bindingsAfter_step functions w hop]
  | true =>
    cases op with
    | pushBind slot => exact congrArg untype (bindingsAfter_readSlot w slot)
    | bind count => exact untype_fillSlots w count
    | _ => simp [Op.usesSlots] at hop

theorem untype_run (functions : List Function) (w : Walk) (code : List Instruction) :
    untype (run functions w code).bindings = untype w.bindings := by
  induction code generalizing w with
  | nil => rfl
  | cons i rest ih =>
    cases hresolve : resolve functions w.stack i.op with
    | error v =>
      rw [run_cons_unresolved rest hresolve]
      rfl
    | ok op =>
      have hstep := untype_step functions w op
      cases hresult : step functions w op with
      | error stop =>
        rw [run_cons_stopped rest hresolve hresult]
        rwa [hresult] at hstep
      | ok w' =>
        rw [hresult, bindingsAfter] at hstep
        rw [run_cons rest hresolve hresult, ← hstep]
        exact ih w'

end Walk

namespace Function

theorem check_of_main {f : Function} (h : f.name = "main" ∧ (f.args ≠ [] ∨ f.rets ≠ []))
    (functions : List Function) :
    f.check functions = (f, some (.violation f.loc (.mainSignature f.signature))) := by
  rw [check, if_pos h]

def verdict (f : Function) (t : Walk.Trace) : Option ValidationError :=
  match t.outcome with
  | .error (loc, stop) => some (.violation loc stop.violation)
  | .ok w => (w.endViolation? f).map (.violation ((f.code.getLast?.map (·.loc)).getD f.loc))

theorem check_eq {f : Function} (h : ¬ (f.name = "main" ∧ (f.args ≠ [] ∨ f.rets ≠ [])))
    (functions : List Function) :
    f.check functions =
      ({ f with
          code := (Walk.run functions f.start f.code).code
          bindings := (Walk.run functions f.start f.code).bindings },
        f.verdict (Walk.run functions f.start f.code)) := by
  rw [check, if_neg h]
  simp only [verdict, Walk.Trace.bindings, start]
  cases (Walk.run functions { stack := f.args, bindings := f.bindings } f.code).outcome with
  | error e => rfl
  | ok w => rfl

theorem declaration_check (functions : List Function) (f : Function) :
    (f.check functions).1.declaration = f.declaration := by
  by_cases hmain : f.name = "main" ∧ (f.args ≠ [] ∨ f.rets ≠ [])
  · rw [check_of_main hmain]
  · rw [check_eq hmain]
    rfl

theorem verdict_of_walk (functions : List Function) (f : Function) (w : Walk) (t : Walk.Trace)
    (bindings : List Binding) :
    ({ f with code := (Walk.run functions w f.code).code, bindings } : Function).verdict t =
      f.verdict t := by
  have hlast : (Walk.run functions w f.code).code.getLast?.map (·.loc) =
      f.code.getLast?.map (·.loc) := by
    rw [← List.getLast?_map, Walk.map_loc_run, List.getLast?_map]
  simp only [verdict, hlast]
  rfl

theorem check_check {functions : List Function} {f : Function}
    (h : Walk.untype f.bindings = f.bindings) :
    (f.check functions).1.check functions = f.check functions := by
  by_cases hmain : f.name = "main" ∧ (f.args ≠ [] ∨ f.rets ≠ [])
  · simp only [check_of_main hmain]
  · generalize htrace : Walk.run functions f.start f.code = t
    have hcheck := check_eq hmain functions
    rw [htrace] at hcheck
    -- slots without kinds take all of them from the end of the first walk
    have hstart : f.start.revisit t.bindings = { stack := f.args, bindings := t.bindings } := by
      have huntype := Walk.untype_run functions f.start f.code
      rw [htrace, start, h] at huntype
      rw [Walk.revisit, start, ← huntype, Walk.complete_untype]
    have hagain := Walk.run_revisit functions f.start f.code
    rw [htrace, hstart] at hagain
    rw [hcheck, check_eq (f := { f with code := t.code, bindings := t.bindings }) hmain]
    simp only [start, hagain]
    rw [← htrace, verdict_of_walk]

theorem check_called (functions : List Function) (f : Function) (called : Bool) :
    ({ f with called } : Function).check functions =
      ({ (f.check functions).1 with called }, (f.check functions).2) := by
  by_cases hmain : f.name = "main" ∧ (f.args ≠ [] ∨ f.rets ≠ [])
  · rw [check_of_main hmain, check_of_main (f := { f with called }) hmain]
    rfl
  · rw [check_eq hmain, check_eq (f := { f with called }) hmain]
    rfl

end Function

theorem map_declaration_checkFunctions (functions fs : List Function) :
    (checkFunctions functions fs).1.map Function.declaration = fs.map Function.declaration := by
  induction fs with
  | nil => rfl
  | cons f fs ih =>
    have hdeclaration := Function.declaration_check functions f
    simp only [checkFunctions]
    split
    · next g e hg =>
      rw [hg] at hdeclaration
      rw [List.map_cons, List.map_cons, hdeclaration]
    · next g hg =>
      rw [hg] at hdeclaration
      rw [List.map_cons, List.map_cons, hdeclaration, ih]

theorem checkFunctions_congr {functions functions' : List Function}
    (h : functions.map Function.declaration = functions'.map Function.declaration)
    (fs : List Function) : checkFunctions functions fs = checkFunctions functions' fs := by
  rw [← checkFunctions_map Function.unseen_declaration, h,
    checkFunctions_map Function.unseen_declaration]

theorem checkFunctions_checkFunctions {functions fs : List Function}
    (h : ∀ f ∈ fs, Walk.untype f.bindings = f.bindings) :
    checkFunctions functions (checkFunctions functions fs).1 = checkFunctions functions fs := by
  induction fs with
  | nil => rfl
  | cons f fs ih =>
    obtain ⟨hf, hfs⟩ := List.forall_mem_cons.mp h
    have hagain : (f.check functions).1.check functions = f.check functions :=
      Function.check_check hf
    cases hcheck : f.check functions with
    | mk g e =>
      rw [hcheck] at hagain
      cases e with
      | some e => simp only [checkFunctions, hcheck, hagain]
      | none => simp only [checkFunctions, hcheck, hagain, ih hfs]

theorem checkFunctions_eq_ok_iff {functions fs gs : List Function} :
    checkFunctions functions fs = (gs, none) ↔
      List.Forall₂ (fun f g => f.check functions = (g, none)) fs gs := by
  induction fs generalizing gs with
  | nil => simp [checkFunctions, eq_comm]
  | cons f fs ih =>
    rw [List.forall₂_cons_left_iff]
    simp only [← ih, checkFunctions]
    cases f.check functions with
    | mk g e =>
      cases e with
      | some e => simp
      | none => simp [Prod.ext_iff, eq_comm, and_comm]

theorem checkFunctions_of_unmark {functions gs hs : List Function}
    (h : Reach.unmark hs = Reach.unmark gs) (hgs : checkFunctions functions gs = (gs, none)) :
    checkFunctions functions hs = (hs, none) := by
  rw [checkFunctions_eq_ok_iff, List.forall₂_same] at hgs ⊢
  intro f hf
  have hmem : { f with called := false } ∈ Reach.unmark gs := by
    rw [← h]
    exact List.mem_map_of_mem hf
  obtain ⟨g, hg, heq⟩ := List.mem_map.mp hmem
  have hfg : f = { g with called := f.called } := by
    cases f
    cases g
    simp_all
  rw [hfg, Function.check_called, hgs g hg]

theorem Reach.exists_of_mark {functions gs : List Function} {work : List Nat} {name : String}
    {root : Function} (h : gs = mark (unmark functions) work)
    (hroot : functions.find? (·.name = name) = some root) :
    ∃ f, gs.find? (·.name = name) = some f ∧ f.entry = root.entry := by
  have hfind := find?_unmark gs name
  rw [unmark_eq_of_mark h, find?_unmark, hroot, Option.map_some, eq_comm,
    Option.map_eq_some_iff] at hfind
  obtain ⟨f, hf, -⟩ := hfind
  exact ⟨f, hf, entry_of_mark h hroot hf⟩

theorem map_declaration_unmark (functions : List Function) :
    (Reach.unmark functions).map Function.declaration = functions.map Function.declaration := by
  rw [Reach.unmark, List.map_map]
  rfl

namespace Program

theorem validate_of_error {p : Program} {functions : List Function} {e : ValidationError}
    (h : checkFunctions p.functions p.functions = (functions, some e)) :
    p.validate = ({ p with functions }, .error e) := by
  simp only [validate, h]

theorem validate_of_missing {p : Program} {functions : List Function}
    (h : checkFunctions p.functions p.functions = (functions, none))
    (hmain : functions.find? (·.name = "main") = none) :
    p.validate = ({ p with functions }, .error .missingMain) := by
  simp only [validate, h, main?, hmain]

theorem validate_of_main {p : Program} {functions : List Function} {main : Function}
    (h : checkFunctions p.functions p.functions = (functions, none))
    (hmain : functions.find? (·.name = "main") = some main) :
    p.validate =
      ({ p with functions := Reach.mark (Reach.unmark functions) [main.entry] },
        .ok (unusedWarnings
          { functions := Reach.mark (Reach.unmark functions) [main.entry] })) := by
  simp only [validate, h, main?, hmain]
  rfl

theorem validate_eq_ok {p q : Program} {warnings : List Diagnostic}
    (h : p.validate = (q, .ok warnings)) :
    ∃ functions main, checkFunctions p.functions p.functions = (functions, none) ∧
      functions.find? (·.name = "main") = some main ∧
      q = { p with functions := Reach.mark (Reach.unmark functions) [main.entry] } ∧
      warnings = q.unusedWarnings := by
  cases hcheck : checkFunctions p.functions p.functions with
  | mk functions e =>
    cases e with
    | some e => simp [validate_of_error hcheck] at h
    | none =>
      cases hmain : functions.find? (·.name = "main") with
      | none => simp [validate_of_missing hcheck hmain] at h
      | some main =>
        simp only [validate_of_main hcheck hmain, Prod.mk.injEq, Except.ok.injEq] at h
        obtain ⟨rfl, rfl⟩ := h
        exact ⟨functions, main, rfl, hmain, rfl, rfl⟩

theorem validate_validate {p : Program}
    (h : ∀ f ∈ p.functions, Walk.untype f.bindings = f.bindings) :
    p.validate.1.validate = p.validate := by
  have hagain : checkFunctions p.functions (checkFunctions p.functions p.functions).1 =
      checkFunctions p.functions p.functions := checkFunctions_checkFunctions h
  have hdeclaration := map_declaration_checkFunctions p.functions p.functions
  cases hcheck : checkFunctions p.functions p.functions with
  | mk gs e =>
    rw [hcheck] at hagain hdeclaration
    have hsecond : ∀ fs, checkFunctions gs fs = checkFunctions p.functions fs := by
      intro fs
      exact checkFunctions_congr hdeclaration fs
    cases e with
    | some e =>
      rw [validate_of_error hcheck]
      apply validate_of_error
      rw [hsecond, hagain]
    | none =>
      cases hmain : gs.find? (·.name = "main") with
      | none =>
        rw [validate_of_missing hcheck hmain]
        apply validate_of_missing _ hmain
        rw [hsecond, hagain]
      | some main =>
        rw [validate_of_main hcheck hmain]
        generalize hmark : Reach.mark (Reach.unmark gs) [main.entry] = hs
        have hunmark := Reach.unmark_eq_of_mark hmark.symm
        obtain ⟨main', hmain', hentry⟩ := Reach.exists_of_mark hmark.symm hmain
        -- marks are not part of a declaration, so the marked functions are checked against the same
        have hcheck' : checkFunctions hs hs = (hs, none) := by
          apply checkFunctions_of_unmark hunmark
          rw [checkFunctions_congr _ gs, hagain]
          rw [← map_declaration_unmark hs, hunmark, map_declaration_unmark, hdeclaration]
        rw [validate_of_main (p := { p with functions := hs }) hcheck' hmain', hunmark, hentry,
          hmark]

end Program

/--
Validation of a program that has been read changes it once: another run leaves it as it is, with the
same warnings or the same error, also when the first one has stopped half way.
-/
theorem validation_is_repeatable {loader : Loader} {entry : String} {options : Options}
    {p : Program} (h : parse loader entry options = .ok p) :
    p.validate.1.validate = p.validate := by
  apply Program.validate_validate
  intro f hf
  obtain ⟨n, hn⟩ := List.getElem?_of_mem hf
  have hfresh := ((wellRead_of_parse h).1 n f hn).code.fresh
  have hsame : ∀ b ∈ f.bindings, { b with kind := .untyped } = b := by
    intro b hb
    obtain ⟨k, hk⟩ := List.getElem?_of_mem hb
    have hkind := (hfresh k b hk).2
    cases b
    simp_all
  rw [Walk.untype, List.map_congr_left hsame, List.map_id']

def halfway : SourceTable :=
  SourceTable.ofList [("main",
    "fn* show int ( drop ) fn* show ptr ( drop )
     fn main ( 1 let n in n show true show )")]

theorem validation_is_repeatable_halfway : ∃ p e,
    parse halfway.loader "main" { library := false } = .ok p ∧ p.validate.2 = .error e ∧
      p.validate.1 ≠ p ∧ p.validate.1.validate = p.validate := by
  have hfacts : (parse halfway.loader "main" { library := false }).toOption.map
      (fun p => (p.validate.2.isOk, decide (p.validate.1 = p))) = some (false, false) := by
    decide +kernel
  obtain ⟨p, hp, hfacts⟩ := Option.map_eq_some_iff.mp hfacts
  have hparse : parse halfway.loader "main" { library := false } = .ok p := by
    cases h : parse halfway.loader "main" { library := false } with
    | error e => simp [h, Except.toOption] at hp
    | ok q => simpa [h, Except.toOption] using hp
  simp only [Prod.mk.injEq, decide_eq_false_iff_not] at hfacts
  cases he : p.validate.2 with
  | ok warnings => simp [he, Except.isOk, Except.toBool] at hfacts
  | error e => exact ⟨p, e, hparse, he, hfacts.2, validation_is_repeatable hparse⟩

end StackLang
