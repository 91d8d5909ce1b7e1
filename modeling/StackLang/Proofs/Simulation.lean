import Mathlib.Algebra.GroupWithZero.Nat
import StackLang.Proofs.Placement
import StackLang.Proofs.StackSafety
import StackLang.Proofs.Straight

/-!
This module contains the correctness of lowering: the assembly of an accepted program does step by
step what the program does.
-/

namespace StackLang

namespace Machine

def Activation.Suspended (q : Program) (f : Activation) : Prop :=
  ∃ g ip i entry, f.ip = ip + 1 ∧ q.functions[f.entry]? = some g ∧ g.code[ip]? = some i ∧
    i.op = .call entry

/-- All activations are of functions that code is generated for, and all but one wait. -/
structure Live (q : Program) (c : Config) : Prop where
  called : ∀ f ∈ c.frames, Reach.Marked q.functions f.entry
  suspended : ∀ f ∈ c.frames.tail, f.Suspended q

theorem Live.step {q : Program} (env : Env) (hq : q.Lowerable) {c : Config} (h : Live q c) :
    (step q env c).All (Live q) := by
  rcases hc : c.frames with _ | ⟨f, callers⟩
  · unfold Machine.step
    rw [hc]
    trivial
  · have hcalled := h.called
    have hsuspended := h.suspended
    rw [hc] at hcalled hsuspended
    have hf := hcalled f List.mem_cons_self
    apply (advances_of_step q env hc).mono
    rintro c' (⟨f', hc', hsame⟩ | ⟨callee, g, i, hc', hg, hi, hop⟩ | ⟨rfl, -⟩)
    · refine ⟨?_, ?_⟩
      · rw [hc', List.forall_mem_cons, hsame.1]
        exact ⟨hf, fun k hk => hcalled k (List.mem_cons_of_mem _ hk)⟩
      · rw [hc']
        exact hsuspended
    · obtain ⟨g', hg', hgcalled⟩ := hf
      rw [hg, Option.some.injEq] at hg'
      subst hg'
      have hcallee := hq.lowerable (List.mem_of_getElem? hg) hgcalled hi
      rw [hop] at hcallee
      refine ⟨?_, ?_⟩
      · rw [hc', List.forall_mem_cons, List.forall_mem_cons]
        exact ⟨hcallee, ⟨g, hg, hgcalled⟩, fun k hk => hcalled k (List.mem_cons_of_mem _ hk)⟩
      · rw [hc', List.tail_cons, List.forall_mem_cons]
        exact ⟨⟨g, f.ip, i, callee.entry, rfl, hg, hi, hop⟩, hsuspended⟩
    · refine ⟨fun k hk => hcalled k (List.mem_cons_of_mem _ hk), ?_⟩
      intro k hk
      exact hsuspended k (List.mem_of_mem_tail hk)

theorem Live.initial {p q : Program} (haccepted : Accepted p q) {main : Function}
    (hmain : q.main? = some main) (memory : Store) : Live q (.initial main.entry memory) := by
  obtain ⟨m, hm, hentry, hcalled⟩ := haccepted.validated.main
  rw [hmain, Option.some.injEq] at hm
  subst hm
  refine ⟨?_, fun f hf => absurd hf List.not_mem_nil⟩
  intro f hf
  rw [List.mem_singleton.mp hf]
  exact ⟨main, hentry, hcalled⟩

theorem Live.run {q : Program} {env : Env} (hq : q.Lowerable) {ok : Config → Prop} {c d : Config}
    {trace : List (SystemCall × Reply)} (h : Live q c)
    (hrun : Run (Machine.step q env) ok c trace d) : Live q d := by
  apply hrun.invariant h
  intro s hs
  exact (hs.step env hq).mono fun _ hs' _ => hs'

end Machine

namespace Processor

open Assembly Machine

variable {text : List Line} {L : Layout text} {q : Program} {s : State}

theorem reaches_jump {target : Label} {n : Nat} (hi : text[s.pc]? = some (.instr (.jmp target)))
    (htarget : resolve text s.pc target = some n) : Reaches L s { s with pc := n } := by
  apply reaches_of_step
  simp only [step, hi, jump, htarget]

theorem reaches_call {entry : Nat} {g : Function} {start : Nat} {body : List Line}
    {stack cells : List Word} {data : Store} (hplaced : Placed q text entry g start body)
    (hlines : Stands text s.pc ((toReturnStack ++ [Instr.call (.fn entry)]).map Line.instr))
    (h : Holds L s.toCore stack cells data) (hroom : 8 * (cells.length + 1) ≤ returnStackSize) :
    ∃ s', Reaches L s s' ∧ Holds L s'.toCore stack (L.code (s.pc + 3) :: cells) data ∧
      s'.pc = lineOf q text entry 0 := by
  rw [List.map_append] at hlines
  let s₁ : State := { s with
    toCore := (s.set .rax (s.regs .rsp)).set .rsp (s.regs .rbp)
    pc := s.pc + 2 }
  let s₂ : State := { s₁ with toCore := s₁.push (L.code (s.pc + 3)), pc := start }
  have h₁ : Reaches L s s₁ := reaches_straight hlines.left rfl
  have h₂ : Reaches L s₁ s₂ := by
    apply reaches_of_step
    have hi : text[s₁.pc]? = some (.instr (.call (.fn entry))) := hlines.right.head
    simp only [step, hi, jump, hplaced.resolve_fn]
    rfl
  have h₃ : Reaches L s₂ { s₂ with pc := start + 1 } := reaches_label hplaced.lines.head
  -- the callee starts with the switch back to the operands
  have h₄ := reaches_straight (L := L) (s := { s₂ with pc := start + 1 })
    hplaced.lines.tail.left.left rfl
  refine ⟨_, ((h₁.trans h₂).trans h₃).trans h₄, ?_, ?_⟩
  · have hcell : s.regs .rbp - 8 = cellAddr (L.label .returnStackEnd) (cells.length + 1) := by
      rw [h.rbp, cellAddr_succ]
    have himage := h.image.pushReturn hroom (L.code (s.pc + 3))
    rw [← hcell] at himage
    exact ⟨himage, h.rsp, hcell⟩
  · obtain ⟨first, _, hfirst, -, -, hline, -⟩ := hplaced.split (Nat.zero_le _)
    cases hfirst
    rw [hline]
    rfl

theorem reaches_return {stack cells : List Word} {data : Store} {n : Nat} {i : Instr}
    (hlines : Stands text s.pc ((toReturnStack ++ [Instr.ret]).map Line.instr))
    (hi : text[n]? = some (.instr i))
    (h : Holds L s.toCore stack (L.code n :: cells) data) :
    ∃ s', Reaches L s s' ∧ Image L s'.memory stack cells data ∧
      s'.regs .rax = cellAddr L.operandEnd stack.length ∧
      s'.regs .rsp = cellAddr (L.label .returnStackEnd) cells.length ∧ s'.pc = n := by
  rw [List.map_append] at hlines
  let s₁ : State := { s with
    toCore := (s.set .rax (s.regs .rsp)).set .rsp (s.regs .rbp)
    pc := s.pc + 2 }
  have h₁ : Reaches L s s₁ := reaches_straight hlines.left rfl
  have hread : s₁.memory.readWord (s₁.regs .rsp) = L.code n := by
    have : s₁.regs .rsp = s.regs .rbp := rfl
    rw [this, h.rbp]
    exact h.image.returns.1
  have h₂ : Reaches L s₁ { s₁ with toCore := s₁.set .rsp (s₁.regs .rsp + 8), pc := n } := by
    apply reaches_of_step
    have hi' : text[s₁.pc]? = some (.instr .ret) := hlines.right.head
    simp only [step, hi', hread, L.lineAt_code n i hi]
  have himage : Image L s.memory stack ([L.code n] ++ cells) data := h.image
  refine ⟨_, h₁.trans h₂, himage.dropReturns, h.rsp, ?_, rfl⟩
  have hrsp : s.regs .rbp + 8 = cellAddr (L.label .returnStackEnd) cells.length := by
    rw [h.rbp, ← cellAddr_add _ cells.length 1]
    rfl
  exact hrsp

/-- The line that `main` returns to. -/
def exitLine : Nat := 6

/-- The line to return to. An activation that waits goes on after the switch to its operands. -/
def returnLine (q : Program) (text : List Line) : List Activation → Nat
  | [] => exitLine
  | f :: _ => lineOf q text f.entry f.ip - 2

/--
The cells of the return stack. Every activation has its binding slots there, the newest first, and
below them the address to return to.
-/
def returnCells (q : Program) (L : Layout text) : List Activation → List Word
  | [] => []
  | f :: callers =>
    f.slots.reverse ++ L.code (returnLine q text callers) :: returnCells q L callers

/--
The processor is where the program is: it holds the operands, the activations and the data, and is
at the line for the next instruction.
-/
def Represents (q : Program) (L : Layout text) (c : Config) (s : State) : Prop :=
  match c.frames with
  | [] => Image L s.memory c.stack [] c.memory ∧ s.pc = exitLine
  | f :: callers =>
    Holds L s.toCore c.stack (returnCells q L (f :: callers)) c.memory ∧
      s.pc = lineOf q text f.entry f.ip

structure Fits (L : Layout text) (c : Config) : Prop where
  operands : 8 * c.stack.length ≤ L.operandBytes
  returns : 8 * (c.frames.map fun f => f.slots.length + 1).sum ≤ returnStackSize

theorem length_returnCells (q : Program) (L : Layout text) (frames : List Activation) :
    (returnCells q L frames).length = (frames.map fun f => f.slots.length + 1).sum := by
  induction frames with
  | nil => rfl
  | cons f callers ih =>
    simp only [returnCells, List.length_append, List.length_reverse, List.length_cons, ih,
      List.map_cons, List.sum_cons]
    omega

structure Serves (request request' : SystemCall) : Prop where
  number : request'.number = request.number
  args : request.args <+: request'.args

/--
What a processor does for a step of the program: it reaches a state for where the step leads, or
asks the system the same and goes on so with every reply. At the end it asks to exit with status 0.
-/
def Follows (q : Program) (L : Layout text) (s : State) : Outcome Config Machine.Fault → Prop
  | .next c' => Fits L c' → ∃ s', Reaches L s s' ∧ Represents q L c' s'
  | .ask request resume => ∃ s' request' resume', Reaches L s s' ∧
      step L s' = .ask request' resume' ∧ Serves request request' ∧
      ∀ reply, ∃ s'', Reaches L (resume' reply) s'' ∧ Represents q L (resume reply) s''
  | .halt => ∃ s' request resume, Reaches L s s' ∧ step L s' = .ask request resume ∧
      request.number = 60 ∧ request.args.head? = some 0
  | .fault why => why.Unchecked

theorem Follows.of_reaches {s' : State} {o : Outcome Config Machine.Fault} (h : Reaches L s s')
    (h' : Follows q L s' o) : Follows q L s o := by
  cases o with
  | next c' =>
    intro hfits
    obtain ⟨s'', hreach, hrep⟩ := h' hfits
    exact ⟨s'', h.trans hreach, hrep⟩
  | ask request resume =>
    obtain ⟨s'', request', resume', hreach, hrest⟩ := h'
    exact ⟨s'', request', resume', h.trans hreach, hrest⟩
  | halt =>
    obtain ⟨s'', request, resume, hreach, hrest⟩ := h'
    exact ⟨s'', request, resume, h.trans hreach, hrest⟩
  | fault why => exact h'

section

variable {c : Config} {g : Function} {f : Activation} {callers : List Activation}
  {start : Nat} {body : List Line}

structure Arrived (q : Program) (L : Layout text) (c : Config) (f : Activation)
    (callers : List Activation) (instrs : List Instr) (s : State) : Prop where
  holds : Holds L s.toCore c.stack (returnCells q L (f :: callers)) c.memory
  pc : s.pc = lineOf q text f.entry f.ip + 1
  lines : Stands text s.pc (instrs.map Line.instr)
  next : lineOf q text f.entry (f.ip + 1) = s.pc + instrs.length

theorem follows_local {i : Instruction} {instrs : List Instr} (hlocal : i.op.isLocal = true)
    (hlower : lowerOp q f.slots.length i = .ok instrs) (h : Arrived q L c f callers instrs s)
    (hfault : ∀ why, perform q L.env c g f callers i.op = .fault why → why.Unchecked) :
    Follows q L s (perform q L.env c g f callers i.op) := by
  rw [perform_of_isLocal hlocal] at hfault ⊢
  cases hexec : exec L.env ⟨c.stack, f.slots, c.memory⟩ i.op with
  | error why =>
    simp only [hexec] at hfault ⊢
    exact hfault why rfl
  | ok t =>
    intro hfits
    have hreturns := hfits.returns
    simp only [List.map_cons, List.sum_cons] at hreturns
    obtain ⟨core, hcore, hholds⟩ := straight_of_exec (s := ⟨c.stack, f.slots, c.memory⟩) hlocal
      hlower hexec h.holds hfits.operands (by
        rw [List.length_cons, length_returnCells]
        omega)
    refine ⟨_, reaches_straight h.lines hcore, hholds, ?_⟩
    rw [← h.next]

theorem follows_jump {target : Nat} (hplaced : Placed q text f.entry g start body)
    (hip : f.ip < g.code.length) (htarget : target < g.code.length)
    (h : Arrived q L c f callers [.jmp (.ip target)] s) :
    Follows q L s (Machine.jump c g f target callers) := by
  have hpc := h.pc
  have hnext := h.next
  rw [Machine.jump, if_pos htarget]
  intro _
  refine ⟨_, reaches_jump h.lines.head (hplaced.resolve_ip hip ?_ ?_ htarget), h.holds, rfl⟩
  · omega
  · rw [hnext]
    exact Nat.lt_succ_self _

theorem follows_branch {target : Nat} {v : Word} {stack : List Word}
    (hplaced : Placed q text f.entry g start body) (hip : f.ip < g.code.length)
    (htarget : target < g.code.length) (hstack : c.stack = v :: stack)
    (h : Arrived q L c f callers
      [.pop .rax, .binary .test .rax (.reg .rax), .jz (.ip target)] s) :
    Follows q L s (if v = 0 then Machine.jump { c with stack } g f target callers
      else .next ({ c with stack }.goTo f (f.ip + 1) callers)) := by
  have hholds := h.holds
  rw [hstack] at hholds
  have hrax : (s.pop .rax).regs .rax = v := hholds.regs_pop
  let s₁ : State := { s with
    toCore := (s.pop .rax).binary .test .rax ((s.pop .rax).regs .rax)
    pc := s.pc + 2 }
  have hlines : Stands text s.pc
      ([Instr.pop .rax, .binary .test .rax (.reg .rax)].map Line.instr) :=
    Stands.left (b := [.instr (.jz (.ip target))]) h.lines
  have h₁ : Reaches L s s₁ := reaches_straight hlines rfl
  have hi : text[s₁.pc]? = some (.instr (.jz (.ip target))) := h.lines.tail.tail.head
  have hflags : s₁.flags = some (Flags.of v false) := by
    simp [s₁, Core.binary, keepsResult, combine, hrax]
  have hholds₁ : Holds L s₁.toCore stack (returnCells q L (f :: callers)) c.memory :=
    (hholds.pop rfl).binary rfl _ _
  have hpc := h.pc
  have hnext := h.next
  simp only [List.length_cons, List.length_nil] at hnext
  apply Follows.of_reaches h₁
  split
  · next hzero =>
    rw [Machine.jump, if_pos htarget]
    intro _
    have htarget' : resolve text s₁.pc (.ip target) = some (lineOf q text f.entry target) :=
      hplaced.resolve_ip hip (by simp only [s₁]; omega) (by simp only [s₁]; omega) htarget
    refine ⟨{ s₁ with pc := lineOf q text f.entry target }, reaches_of_step ?_, hholds₁, rfl⟩
    simp only [step, hi, hflags, Flags.of, hzero, beq_self_eq_true, if_true, jump, htarget']
  · next hzero =>
    intro _
    refine ⟨{ s₁ with pc := s₁.pc + 1 }, reaches_of_step ?_, hholds₁, ?_⟩
    · have hflag : (v == 0) = false := by simpa using hzero
      simp only [step, hi, hflags, Flags.of, hflag, Bool.false_eq_true, if_false]
    · rw [hnext]

theorem follows_call {entry : Nat} {callee : Function} {rest : List Word}
    (hplaced : Placed q text entry callee start body)
    (h : Arrived q L c f callers (lowerCall entry) s) :
    Follows q L s (.next { c with
      frames := ⟨entry, 0, [], rest⟩ :: { f with ip := f.ip + 1 } :: callers }) := by
  intro hfits
  have hroom := hfits.returns
  have hlines : Stands text s.pc ((toReturnStack ++ [Instr.call (.fn entry)]).map Line.instr) := by
    have := h.lines
    rw [lowerCall, List.map_append] at this
    exact this.left
  obtain ⟨s', hreach, hholds, hpc⟩ := reaches_call hplaced hlines h.holds (by
    rw [length_returnCells]
    simp only [List.map_cons, List.sum_cons, List.length_nil] at hroom ⊢
    omega)
  -- two lines of the call are left when the callee returns
  have hline : returnLine q text ({ f with ip := f.ip + 1 } :: callers) = s.pc + 3 := by
    rw [returnLine, h.next]
    rfl
  rw [← hline] at hholds
  exact ⟨s', hreach, hholds, hpc⟩

theorem follows_syscall {arity : Nat} {number : Word} {stack : List Word}
    (harity : arity ≤ syscallRegs.length) (hstack : c.stack = number :: stack)
    (hlength : arity ≤ stack.length)
    (h : Arrived q L c f callers ([Instr.pop .rax] ++ (syscallRegs.take arity).map Instr.pop ++
      [Instr.syscall, .push (.reg .rax)]) s) :
    Follows q L s (.ask ⟨number, stack.take arity⟩ fun reply =>
      { c.goTo f (f.ip + 1) callers with
        stack := reply.result :: stack.drop arity
        memory := c.memory.replace L.env.data reply.memory }) := by
  have hholds := h.holds
  rw [hstack] at hholds
  have hnumber := hholds.pop (r := .rax) rfl
  rw [← List.take_append_drop arity stack] at hnumber
  have hvalues : (stack.take arity).length = (syscallRegs.take arity).length := by
    rw [List.length_take, List.length_take]
    omega
  obtain ⟨core, hcore, hholds₁, hargs, hsame⟩ := straight_pops
    (List.Sublist.nodup (List.take_sublist arity syscallRegs) (by decide))
    (fun r hr => (by decide : ∀ r ∈ syscallRegs, isPointer r = false) r (List.mem_of_mem_take hr))
    hvalues hnumber
  have hlines := h.lines
  rw [List.map_append] at hlines
  have hsyscall := hlines.right
  rw [List.length_map] at hsyscall
  let s₁ : State := { s with
    toCore := core
    pc := s.pc + ([Instr.pop .rax] ++ (syscallRegs.take arity).map Instr.pop).length }
  have h₁ : Reaches L s s₁ := reaches_straight hlines.left hcore
  have hstep : step L s₁ = .ask s₁.request (s₁.resume L) := by
    have hi : text[s₁.pc]? = some (.instr .syscall) := hsyscall.head
    simp only [step, hi]
  refine ⟨s₁, s₁.request, s₁.resume L, h₁, hstep, ⟨?_, ?_⟩, ?_⟩
  · have hrax : Reg.rax ∉ syscallRegs.take arity := fun hmem =>
      absurd (List.mem_of_mem_take hmem) (by decide)
    exact (hsame .rax hrax rfl).trans hholds.regs_pop
  · have hregs : stack.take arity = (syscallRegs.map core.regs).take arity := by
      rw [← List.map_take, hargs]
    rw [hregs]
    exact List.take_prefix arity _
  · intro reply
    have hresumed : Holds L (s₁.resume L reply).toCore (stack.drop arity)
        (returnCells q L (f :: callers)) (c.memory.replace L.data reply.memory) :=
      ⟨hholds₁.image.replace reply.memory, hholds₁.rsp, hholds₁.rbp⟩
    have hroom : 8 * ((stack.drop arity).length + 1) ≤ L.operandBytes := by
      have := hholds.image.operands_le
      simp only [List.length_cons, List.length_drop] at this ⊢
      omega
    have hpush : Stands text (s₁.resume L reply).pc ([Instr.push (.reg .rax)].map Line.instr) :=
      hsyscall.tail
    refine ⟨_, reaches_straight hpush rfl, hresumed.push hroom rfl, ?_⟩
    have hnext := h.next
    simp only [List.length_append, List.length_cons, List.length_nil] at hnext ⊢
    rw [hnext]
    simp only [State.resume, s₁, List.length_append, List.length_cons, List.length_nil]
    omega

theorem follows_return {i : Instr} (hslots : f.slots = [])
    (hholds : Holds L s.toCore c.stack (returnCells q L (f :: callers)) c.memory)
    (hlines : Stands text s.pc ((toReturnStack ++ [Instr.ret]).map Line.instr))
    (hexit : text[exitLine]? = some (.instr i))
    (hcallers : ∀ f' ∈ callers.head?,
      Stands text (lineOf q text f'.entry f'.ip - 2) (toOperandStack.map Line.instr) ∧
        2 ≤ lineOf q text f'.entry f'.ip) :
    Follows q L s (.next { c with frames := callers }) := by
  intro _
  rw [returnCells, hslots, List.reverse_nil, List.nil_append] at hholds
  cases callers with
  | nil =>
    obtain ⟨s', hreach, himage, -, -, hpc⟩ := reaches_return hlines hexit hholds
    exact ⟨s', hreach, himage, hpc⟩
  | cons f' callers =>
    obtain ⟨hswitch, hle⟩ := hcallers f' rfl
    obtain ⟨s', hreach, himage, hrax, hrsp, hpc⟩ := reaches_return hlines hswitch.head hholds
    rw [← hpc] at hswitch
    refine ⟨_, hreach.trans (reaches_straight hswitch rfl), ⟨himage, hrax, hrsp⟩, ?_⟩
    simp only [toOperandStack, List.length_cons, List.length_nil]
    omega

theorem follows_perform {i : Instruction} {instrs : List Instr}
    (hplaced : Placed q text f.entry g start body) (hip : f.ip < g.code.length)
    (hlower : lowerOp q f.slots.length i = .ok instrs) (h : Arrived q L c f callers instrs s)
    (htargets : ∀ t, i.op.target? = some t → t < g.code.length)
    (hcallees : ∀ entry callee, i.op = .call entry → q.functions[entry]? = some callee →
      ∃ start body, Placed q text entry callee start body)
    (hfault : ∀ why, perform q L.env c g f callers i.op = .fault why → why.Unchecked) :
    Follows q L s (perform q L.env c g f callers i.op) := by
  obtain ⟨loc, op⟩ := i
  cases op with
  | branch target =>
    cases hlower
    cases hstack : c.stack with
    | nil =>
      simp only [perform, hstack] at hfault ⊢
      exact hfault _ rfl
    | cons v stack =>
      simp only [perform, hstack]
      exact follows_branch hplaced hip (htargets target rfl) hstack h
  | otherwise target =>
    cases hlower
    exact follows_jump hplaced hip (htargets target rfl) h
  | jump target =>
    cases hlower
    exact follows_jump hplaced hip (htargets target rfl) h
  | call entry =>
    simp only [lowerOp] at hlower
    simp only [perform] at hfault ⊢
    cases hcallee : q.functions[entry]? with
    | none => simp [hcallee] at hlower
    | some callee =>
      simp only [hcallee] at hlower hfault ⊢
      split at hlower
      · cases hlower
        split
        · next hargs =>
          rw [if_pos hargs] at hfault
          exact hfault _ rfl
        · obtain ⟨_, _, hplaced'⟩ := hcallees entry callee rfl hcallee
          exact follows_call (c := c) hplaced' h
      · simp at hlower
  | syscall arity =>
    simp only [lowerOp] at hlower
    split at hlower
    · next harity =>
      cases hlower
      cases hstack : c.stack with
      | nil =>
        simp only [perform, hstack] at hfault ⊢
        exact hfault _ rfl
      | cons number stack =>
        simp only [perform, hstack] at hfault ⊢
        split
        · next hargs =>
          rw [if_pos hargs] at hfault
          exact hfault _ rfl
        · next hargs =>
          exact follows_syscall harity hstack (Nat.not_lt.mp hargs) h
    · simp at hlower
  | _ => exact follows_local rfl hlower h hfault

end

section

variable {p : Program} {assembly : Assembly} {L : Layout assembly.text} {c : Config}

theorem exists_placed_of_marked (haccepted : Accepted p q) (hlower : q.lower = .ok assembly)
    {entry : Nat} {g : Function} (hmarked : Reach.Marked q.functions entry)
    (hg : q.functions[entry]? = some g) :
    ∃ start body, Placed q assembly.text entry g start body := by
  obtain ⟨g', hg', hcalled⟩ := hmarked
  rw [hg, Option.some.injEq] at hg'
  subst hg'
  exact exists_placed hlower (fun n g' => haccepted.entry) hg hcalled

theorem stands_of_suspended (haccepted : Accepted p q) (hlower : q.lower = .ok assembly)
    {f : Activation} (hmarked : Reach.Marked q.functions f.entry) (hf : f.Suspended q) :
    Stands assembly.text (lineOf q assembly.text f.entry f.ip - 2) (toOperandStack.map Line.instr) ∧
      2 ≤ lineOf q assembly.text f.entry f.ip := by
  obtain ⟨g, ip, i, entry, hip, hg, hi, hop⟩ := hf
  obtain ⟨start, body, hplaced⟩ := exists_placed_of_marked haccepted hlower hmarked hg
  obtain ⟨instrs, hinstrs, hlines, hnext⟩ := hplaced.instruction hi
  have hcall : instrs = (toReturnStack ++ [Instr.call (.fn entry)]) ++ toOperandStack := by
    simp only [lowerOp, hop] at hinstrs
    split at hinstrs
    · simp at hinstrs
    · split at hinstrs
      · cases hinstrs
        rfl
      · simp at hinstrs
  rw [hcall] at hnext
  rw [hcall, List.map_append] at hlines
  have hline : lineOf q assembly.text f.entry f.ip - 2 =
      lineOf q assembly.text f.entry ip + 1 + 3 := by
    rw [hip, hnext]
    rfl
  rw [hline]
  exact ⟨hlines.tail.right, by omega⟩

theorem stands_entryPoint (hlower : q.lower = .ok assembly) :
    ∃ main, q.main? = some main ∧ Stands assembly.text 0 (entryPoint main.entry) := by
  obtain ⟨main, lines, hmain, -, htext⟩ := lower_eq_ok hlower
  refine ⟨main, hmain, ?_⟩
  rw [htext]
  exact List.prefix_append _ _

theorem stands_exit (hlower : q.lower = .ok assembly) : Stands assembly.text exitLine
    ([Instr.mov .rax (.imm 60), .binary .xor .rdi (.reg .rdi), .syscall].map Line.instr) := by
  obtain ⟨main, -, hstart⟩ := stands_entryPoint hlower
  have hsplit : entryPoint main.entry = ([.globalStart, .label .start,
      .instr (.mov .rbp (.label .returnStackEnd)), .instr (.mov .rax (.reg .rsp)),
      .instr (.mov .rsp (.reg .rbp)), .instr (.call (.fn main.entry))] : List Line) ++
      [Instr.mov .rax (.imm 60), .binary .xor .rdi (.reg .rdi), .syscall].map Line.instr := rfl
  rw [hsplit] at hstart
  exact hstart.right

theorem follows_halt (hlower : q.lower = .ok assembly) (hpc : s.pc = exitLine) :
    Follows q L s .halt := by
  have hlines := stands_exit hlower
  rw [← hpc] at hlines
  have hstraight : Stands assembly.text s.pc
      ([Instr.mov .rax (.imm 60), .binary .xor .rdi (.reg .rdi)].map Line.instr) :=
    Stands.left (b := [.instr .syscall]) hlines
  let s₁ : State := { s with
    toCore := (s.set .rax 60).binary .xor .rdi (s.regs .rdi)
    pc := s.pc + 2 }
  have h₁ : Reaches L s s₁ := reaches_straight hstraight rfl
  have hi : assembly.text[s₁.pc]? = some (.instr .syscall) := hlines.tail.tail.head
  refine ⟨s₁, s₁.request, s₁.resume L, h₁, by simp only [step, hi], rfl, ?_⟩
  simp [State.request, s₁, Core.binary, keepsResult, combine, Core.set]

theorem follows_step (haccepted : Accepted p q) (hlower : q.lower = .ok assembly)
    (hsound : Sound p q c) (hlive : Live q c) (h : Represents q L c s) :
    Follows q L s (Machine.step q L.env c) := by
  rcases hc : c.frames with _ | ⟨f, callers⟩
  · unfold Represents at h
    unfold Machine.step
    rw [hc] at h ⊢
    exact follows_halt hlower h.2
  · have hlowerable := lowerable_of_accepted haccepted
    have hcalled := hlive.called
    have hsuspended := hlive.suspended
    rw [hc] at hcalled hsuspended
    unfold Represents at h
    rw [hc] at h
    obtain ⟨hholds, hpc⟩ := h
    obtain ⟨f₀, g, w, own, hread, hg, hstate, hip, hstack, hown, hslots, -⟩ := hsound.exists hc
    have hcheck := haccepted.validated.checked_of_getElem? hread hg
    have hreadable := readable_of_wellRead haccepted.read haccepted.words f₀
      (List.mem_of_getElem? hread)
    obtain ⟨start, body, hplaced⟩ := exists_placed_of_marked haccepted hlower
      (hcalled f List.mem_cons_self) hg
    have hfault : ∀ why, Machine.step q L.env c = .fault why → why.Unchecked := by
      intro why
      apply unchecked_of_step haccepted hc hread hg hstate hip _ hslots
      rw [hstack, List.length_append]
      omega
    unfold Machine.step at hfault ⊢
    simp only [hc, hg] at hfault ⊢
    cases hi : g.code[f.ip]? with
    | some i =>
      simp only [hi] at hfault ⊢
      have hlt := (List.getElem?_eq_some_iff.mp hi).1
      obtain ⟨w', hsite⟩ := haccepted.site hread hg hi hstate
      obtain ⟨instrs, hinstrs, hlines, hnext⟩ := hplaced.instruction hi
      rw [hcheck.slotsAt_eq hip hstate, ← hslots] at hinstrs
      rw [← hpc] at hlines hnext
      have harrived : Arrived q L c f callers instrs { s with pc := s.pc + 1 } :=
        ⟨hholds, congrArg (· + 1) hpc, hlines.tail, hnext⟩
      apply Follows.of_reaches (reaches_label hlines.head)
      apply follows_perform hplaced hlt hinstrs harrived
      · intro t ht
        exact (hsite.target t ht).1
      · intro entry callee hop hcallee
        obtain ⟨g', hg', hgcalled⟩ := hcalled f List.mem_cons_self
        rw [hg, Option.some.injEq] at hg'
        subst hg'
        have hmarked := hlowerable.lowerable (List.mem_of_getElem? hg) hgcalled hi
        rw [hop] at hmarked
        exact exists_placed_of_marked haccepted hlower hmarked hcallee
      · exact hfault
    | none =>
      have hend : f.ip = g.code.length := by
        rw [List.getElem?_eq_none_iff] at hi
        omega
      rw [hend] at hstate hpc
      simp only [hend, if_true]
      -- nothing is left above the address to return to
      have hnil : f.slots = [] := by
        rw [← List.length_eq_zero_iff, hslots, hcheck.bound_of_end hreadable hstate]
      have hlines := hplaced.ending
      rw [← hpc] at hlines
      apply follows_return hnil hholds hlines (stands_exit hlower).head
      intro f' hf'
      have hmem := List.mem_of_mem_head? hf'
      exact stands_of_suspended haccepted hlower (hcalled f' (List.mem_cons_of_mem _ hmem))
        (hsuspended f' hmem)

theorem label_of_represents (haccepted : Accepted p q) (hlower : q.lower = .ok assembly)
    (hlive : Live q c) (h : Represents q L c s) {f : Activation} {callers : List Activation}
    {g : Function} {i : Instruction} (hc : c.frames = f :: callers)
    (hg : q.functions[f.entry]? = some g) (hi : g.code[f.ip]? = some i) :
    assembly.text[s.pc]? = some (.label (.ip f.ip) (some i.op.name)) := by
  have hcalled := hlive.called f (by rw [hc]; exact List.mem_cons_self)
  obtain ⟨_, _, hplaced⟩ := exists_placed_of_marked haccepted hlower hcalled hg
  obtain ⟨_, -, hlines, -⟩ := hplaced.instruction hi
  unfold Represents at h
  rw [hc] at h
  rw [h.2]
  exact hlines.head

/-- The processor is about to start a program. Nothing is on the stacks. -/
structure Starts {text : List Line} (L : Layout text) (memory : Store) (s : State) : Prop where
  pc : resolve text 0 .start = some s.pc
  rsp : s.regs .rsp = L.operandEnd
  data : ∀ x, L.data x = true → s.memory x = memory x

theorem resolve_start (hlower : q.lower = .ok assembly) :
    resolve assembly.text 0 .start = some 1 := by
  obtain ⟨main, -, after, hafter⟩ := stands_entryPoint hlower
  rw [List.drop_zero] at hafter
  rw [← hafter]
  simp [resolve, entryPoint, List.findIdx?_cons, isLabel]

theorem exists_starts (hlower : q.lower = .ok assembly) (L : Layout assembly.text)
    (memory : Store) : ∃ s, Starts L memory s :=
  ⟨{ regs := fun _ => L.operandEnd, flags := none, memory, r11 := 0, pc := 1 },
    resolve_start hlower, rfl, fun _ _ => rfl⟩

theorem represents_start (haccepted : Accepted p q) (hlower : q.lower = .ok assembly)
    {main : Function} (hmain : q.main? = some main) {memory : Store} (h : Starts L memory s) :
    ∃ s', Reaches L s s' ∧ Represents q L (.initial main.entry memory) s' := by
  obtain ⟨core, r11, pc⟩ := s
  have hpc := h.pc
  rw [resolve_start hlower, Option.some.injEq] at hpc
  obtain rfl : 1 = pc := hpc
  obtain ⟨m, hm, hstart⟩ := stands_entryPoint hlower
  rw [hmain, Option.some.injEq] at hm
  subst hm
  obtain ⟨m, hm, hentry, hcalled⟩ := haccepted.validated.main
  rw [hmain, Option.some.injEq] at hm
  subst hm
  obtain ⟨start, body, hplaced⟩ := exists_placed_of_marked haccepted hlower
    ⟨main, hentry, hcalled⟩ hentry
  let s₁ : State := ⟨core.set .rbp (L.label .returnStackEnd), r11, 3⟩
  have hmov : Stands assembly.text 2 ([Instr.mov .rbp (.label .returnStackEnd)].map Line.instr) :=
    Stands.left (b := (startInstrs main.entry).tail.map Line.instr) hstart.tail.tail
  have hcall : Stands assembly.text 3
      ((toReturnStack ++ [Instr.call (.fn main.entry)]).map Line.instr) :=
    Stands.left (b := ((startInstrs main.entry).drop 4).map Line.instr) hstart.tail.tail.tail
  have h₁ : Reaches L ⟨core, r11, 1⟩ ⟨core, r11, 2⟩ := reaches_label hstart.tail.head
  have h₂ : Reaches L ⟨core, r11, 2⟩ s₁ := reaches_straight (s := ⟨core, r11, 2⟩) hmov rfl
  have hholds : Holds L s₁.toCore [] [] memory :=
    ⟨⟨trivial, trivial, h.data, Nat.zero_le _, Nat.zero_le _⟩,
      h.rsp.trans (cellAddr_zero _).symm, (cellAddr_zero _).symm⟩
  obtain ⟨s', h₃, hholds', hpc'⟩ := reaches_call hplaced hcall hholds (by decide)
  exact ⟨s', (h₁.trans h₂).trans h₃, hholds', hpc'⟩

theorem exists_run (haccepted : Accepted p q) (hlower : q.lower = .ok assembly)
    {main : Function} (hmain : q.main? = some main) {memory : Store} (hs : Starts L memory s)
    {trace : List (SystemCall × Reply)}
    (hrun : Run (Machine.step q L.env) (Fits L) (.initial main.entry memory) trace c) :
    ∃ trace' s', Run (step L) (fun _ => True) s trace' s' ∧
      List.Forall₂ (fun a b => Serves a.1 b.1 ∧ b.2 = a.2) trace trace' ∧ Represents q L c s' := by
  have hfollows : ∀ {trace c s}, Run (Machine.step q L.env) (Fits L) (.initial main.entry memory)
      trace c → Represents q L c s → Follows q L s (Machine.step q L.env c) := by
    intro trace c s hrun hrep
    exact follows_step haccepted hlower ((Sound.initial haccepted hmain memory).run haccepted hrun)
      ((Live.initial haccepted hmain memory).run (lowerable_of_accepted haccepted) hrun) hrep
  induction hrun with
  | refl =>
    obtain ⟨s', hreach, hrep⟩ := represents_start haccepted hlower hmain hs
    exact ⟨[], s', hreach, List.Forall₂.nil, hrep⟩
  | next hrun hstep hfits ih =>
    obtain ⟨trace', s₁, hrun₁, htrace, hrep⟩ := ih
    have hfollow := hfollows hrun hrep
    rw [hstep] at hfollow
    obtain ⟨s₂, hreach, hrep'⟩ := hfollow hfits
    refine ⟨trace', s₂, ?_, htrace, hrep'⟩
    have := hrun₁.trans hreach
    rwa [List.append_nil] at this
  | @ask _ _ request resume hrun hstep reply hfits ih =>
    obtain ⟨trace', s₁, hrun₁, htrace, hrep⟩ := ih
    have hfollow := hfollows hrun hrep
    rw [hstep] at hfollow
    obtain ⟨s₂, request', resume', hreach, hask, hserves, hresume⟩ := hfollow
    obtain ⟨s₃, hreach', hrep'⟩ := hresume reply
    refine ⟨trace' ++ [(request', reply)], s₃, ?_, ?_, hrep'⟩
    · have hrun₂ := hrun₁.trans hreach
      rw [List.append_nil] at hrun₂
      have := (Run.ask hrun₂ hask reply trivial).trans hreach'
      rwa [List.append_nil] at this
    · exact List.rel_append htrace (List.Forall₂.cons ⟨hserves, rfl⟩ List.Forall₂.nil)

end

end Processor

open Processor in
/--
The assembly of an accepted program simulates it, wherever the two stacks and the data are in
memory, as long as they are apart. Its lines are taken as they are written, before an assembler
joins those that end in a backslash with the next ones. Whatever state a run of the program is in,
a processor that represents it is at the label of the next instruction, and its lines lead to a
state that represents the next state of the program, if there is room for the stacks. So does a
whole run from the start, with the same system calls, for any replies to them.
-/
theorem assembly_simulates_program {loader : Loader} {entry : String} {options : Options}
    {p q : Program} {warnings : List Diagnostic} (hparse : parse loader entry options = .ok p)
    (hvalid : p.validate = (q, .ok warnings)) :
    ∃ main assembly, q.main? = some main ∧ q.generate .x86Linux = .ok assembly ∧
      ∀ (L : Layout assembly.text) (memory : Store),
        (∀ trace c s,
          Run (Machine.step q L.env) (fun _ => True) (.initial main.entry memory) trace c →
          Represents q L c s →
          (∀ f callers g i, c.frames = f :: callers → q.functions[f.entry]? = some g →
            g.code[f.ip]? = some i →
            assembly.text[s.pc]? = some (.label (.ip f.ip) (some i.op.name))) ∧
          Follows q L s (Machine.step q L.env c)) ∧
        (∃ s, Starts L memory s) ∧
        ∀ trace c s, Starts L memory s →
          Run (Machine.step q L.env) (Fits L) (.initial main.entry memory) trace c →
          ∃ trace' s', Run (step L) (fun _ => True) s trace' s' ∧
            List.Forall₂ (fun a b => Serves a.1 b.1 ∧ b.2 = a.2) trace trace' ∧
            Represents q L c s' := by
  have haccepted := accepted_of_parse hparse hvalid
  have hlowerable := lowerable_of_accepted haccepted
  obtain ⟨main, hmain, -, -⟩ := haccepted.validated.main
  obtain ⟨assembly, hlower⟩ := hlowerable.exists_lower
  refine ⟨main, assembly, hmain, hlower, ?_⟩
  intro L memory
  refine ⟨?_, exists_starts hlower L memory, ?_⟩
  · intro trace c s hrun hrep
    have hsound := (Machine.Sound.initial haccepted hmain memory).run haccepted hrun
    have hlive := (Machine.Live.initial haccepted hmain memory).run hlowerable hrun
    refine ⟨?_, follows_step haccepted hlower hsound hlive hrep⟩
    intro f callers g i hc hg hi
    exact label_of_represents haccepted hlower hlive hrep hc hg hi
  · intro trace c s hs hrun
    exact exists_run haccepted hlower hmain hs hrun

open Processor in
theorem assembly_simulates_program_collatz : ∃ p q warnings main assembly,
    parse collatz.loader "main" { library := false } = .ok p ∧ p.validate = (q, .ok warnings) ∧
      q.main? = some main ∧ q.generate .x86Linux = .ok assembly ∧
      (assembly.text.length ≤ 2 ^ 64 → Nonempty (Layout assembly.text)) ∧
      ∀ (L : Layout assembly.text) (memory : Store), ∃ s s', Starts L memory s ∧ Reaches L s s' ∧
        Represents q L (.initial main.entry memory) s' ∧
        Follows q L s' (Machine.step q L.env (.initial main.entry memory)) := by
  obtain ⟨p, q, warnings, _, _, hparse, hvalid, -⟩ := exists_collatz
  obtain ⟨main, assembly, hmain, hgenerate, hsimulates⟩ :=
    assembly_simulates_program hparse hvalid
  refine ⟨p, q, warnings, main, assembly, hparse, hvalid, hmain, hgenerate, Layout.nonempty, ?_⟩
  intro L memory
  obtain ⟨hstep, ⟨s, hs⟩, hrun⟩ := hsimulates L memory
  obtain ⟨trace, s', hrun', htrace, hrep⟩ := hrun [] _ s hs Run.refl
  rw [List.forall₂_nil_left_iff] at htrace
  subst htrace
  exact ⟨s, s', hs, hrun', hrep, (hstep [] _ s' Run.refl hrep).2⟩

end StackLang
