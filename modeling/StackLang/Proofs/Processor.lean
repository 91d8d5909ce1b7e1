import StackLang.Proofs.Cells

/-!
This module contains the meaning of assembly: the registers, flags and memory of a processor, and
what each instruction does to them. The text of a program is a list of lines; where its lines and
labels are in memory, and where the stacks are, is up to a layout.
-/

namespace StackLang.Processor

open Assembly

structure Flags where
  zero : Bool
  sign : Bool
  overflow : Bool

def Flags.holds (f : Flags) : Condition → Bool
  | .e => f.zero
  | .ne => !f.zero
  | .l => f.sign != f.overflow
  | .ge => f.sign == f.overflow
  | .le => f.zero || f.sign != f.overflow
  | .g => !f.zero && f.sign == f.overflow

def Flags.of (result : Word) (overflow : Bool) : Flags := ⟨result == 0, result.msb, overflow⟩

/-- The result of an instruction with two operands, and the flags if they are defined after it. -/
def combine (op : Binary) (a b : Word) : Word × Option Flags :=
  match op with
  | .add => (a + b, some (.of (a + b) (a.msb == b.msb && (a + b).msb != a.msb)))
  | .sub | .cmp => (a - b, some (.of (a - b) (a.msb != b.msb && (a - b).msb != a.msb)))
  | .imul => (a * b, none)
  | .and | .test => (a &&& b, some (.of (a &&& b) false))
  | .or => (a ||| b, some (.of (a ||| b) false))
  | .xor => (a ^^^ b, some (.of (a ^^^ b) false))

def keepsResult : Binary → Bool
  | .cmp | .test => false
  | _ => true

def divide? (high low divisor : Word) : Option (Word × Word) :=
  let dividend := high.toInt * 2 ^ 64 + low.toNat
  let quotient := dividend.tdiv divisor.toInt
  if divisor = 0 ∨ quotient < -2 ^ 63 ∨ 2 ^ 63 ≤ quotient then none
  else some (BitVec.ofInt 64 quotient, BitVec.ofInt 64 (dividend.tmod divisor.toInt))

inductive Fault
  /-- Flags are read that are not defined. -/
  | flags
  | division
  | label
  | line
deriving DecidableEq

/-- Where a program and its stacks are in memory. The stacks and the program's data are apart. -/
structure Layout (text : List Line) where
  code : Nat → Word
  lineAt : Word → Option Nat
  label : Label → Word
  /-- The addresses that the program may read and write. -/
  data : Word → Bool
  operandEnd : Word
  operandBytes : Nat
  lineAt_code : ∀ n i, text[n]? = some (.instr i) → lineAt (code n) = some n
  operandBytes_lt : operandBytes < 2 ^ 64
  stacks_apart : ∀ x, Below operandEnd operandBytes x →
    ¬ Below (label .returnStackEnd) returnStackSize x
  data_operands : ∀ x, data x = true → ¬ Below operandEnd operandBytes x
  data_returns : ∀ x, data x = true → ¬ Below (label .returnStackEnd) returnStackSize x

theorem Layout.nonempty {text : List Line} (h : text.length ≤ 2 ^ 64) : Nonempty (Layout text) := by
  refine ⟨{
    code := fun n => BitVec.ofNat 64 n
    lineAt := fun a => some a.toNat
    label := fun _ => 0x20000
    data := fun a => 0x100000 ≤ a.toNat
    operandEnd := 0x80000
    operandBytes := 0x10000
    lineAt_code := ?_
    operandBytes_lt := by decide
    stacks_apart := ?_
    data_operands := ?_
    data_returns := ?_ }⟩
  · intro n i hi
    have := (List.getElem?_eq_some_iff.mp hi).1
    rw [BitVec.toNat_ofNat, Nat.mod_eq_of_lt (by omega)]
  · unfold Below returnStackSize
    bv_omega
  · unfold Below
    simp only [decide_eq_true_eq]
    bv_omega
  · unfold Below returnStackSize
    simp only [decide_eq_true_eq]
    bv_omega

structure Core where
  regs : Reg → Word
  flags : Option Flags
  memory : Store

namespace Core

def set (s : Core) (r : Reg) (v : Word) : Core :=
  { s with regs := fun r' => if r' = r then v else s.regs r' }

def address (s : Core) : Address → Word
  | .base r => s.regs r
  | .offset r bytes => s.regs r + bytes.toBitVec
  | .index r i => s.regs r + s.regs i

def push (s : Core) (v : Word) : Core :=
  let sp := s.regs .rsp - 8
  { s.set .rsp sp with memory := s.memory.writeWord sp v }

def pop (s : Core) (r : Reg) : Core :=
  (s.set .rsp (s.regs .rsp + 8)).set r (s.memory.readWord (s.regs .rsp))

def binary (s : Core) (op : Binary) (dst : Reg) (v : Word) : Core :=
  let (result, flags) := combine op (s.regs dst) v
  { (if keepsResult op then s.set dst result else s) with flags }

end Core

variable {text : List Line}

def value (L : Layout text) (s : Core) : Operand → Word
  | .reg r => s.regs r
  | .imm n => BitVec.ofInt 64 n
  | .label l => L.label l

/-- What an instruction does after which the next line follows. Others fail. -/
def plain (L : Layout text) (s : Core) : Instr → Except Fault Core
  | .mov dst src => .ok (s.set dst (value L s src))
  | .load dst src => .ok (s.set dst (s.memory.readWord (s.address src)))
  | .store dst src => .ok { s with memory := s.memory.writeWord (s.address dst) (s.regs src) }
  | .loadByte dst src => .ok (s.set dst ((s.memory (s.address src)).setWidth 64))
  | .storeByte dst src =>
    .ok { s with memory := s.memory.writeByte (s.address dst) ((s.regs src).setWidth 8) }
  | .push src => .ok (s.push (value L s src))
  | .pushFrom src => .ok (s.push (s.memory.readWord (s.address src)))
  | .pop dst => .ok (s.pop dst)
  | .binary op dst src => .ok (s.binary op dst (value L s src))
  | .cqo => .ok (s.set .rdx (if (s.regs .rax).msb then -1 else 0))
  | .idiv divisor => match divide? (s.regs .rdx) (s.regs .rax) (s.regs divisor) with
    | none => .error .division
    | some (quotient, remainder) =>
      .ok { (s.set .rax quotient).set .rdx remainder with flags := none }
  | .cmov condition dst src => match s.flags with
    | none => .error .flags
    | some f => .ok (if f.holds condition then s.set dst (s.regs src) else s)
  | .jz _ | .jmp _ | .call _ | .ret | .syscall => .error .line

def straight (L : Layout text) (s : Core) : List Instr → Except Fault Core
  | [] => .ok s
  | i :: rest => match plain L s i with
    | .error why => .error why
    | .ok s => straight L s rest

theorem straight_append {L : Layout text} {s s' : Core} {a : List Instr}
    (h : straight L s a = .ok s') (b : List Instr) :
    straight L s (a ++ b) = straight L s' b := by
  induction a generalizing s with
  | nil =>
    simp only [straight, Except.ok.injEq] at h
    rw [h]
    rfl
  | cons i a ih =>
    simp only [straight, List.cons_append] at h ⊢
    cases hi : plain L s i with
    | error why => simp [hi] at h
    | ok core =>
      rw [hi] at h
      exact ih h

def startsScope : Line → Bool
  | .label (.ip _) _ => false
  | .label _ _ => true
  | _ => false

def isLabel (l : Label) : Line → Bool
  | .label l' _ => l' = l
  | _ => false

def scope (text : List Line) : Nat → Option Nat
  | 0 => if text[0]?.any startsScope then some 0 else none
  | n + 1 => if text[n + 1]?.any startsScope then some (n + 1) else scope text n

/-- The line of a label that the line `n` mentions. Labels of instructions are local. -/
def resolve (text : List Line) (n : Nat) : Label → Option Nat
  | .ip index => match scope text n with
    | none => none
    | some s =>
      let lines := (text.drop (s + 1)).takeWhile fun line => !startsScope line
      (lines.findIdx? (isLabel (.ip index))).map (s + 1 + ·)
  | l => text.findIdx? (isLabel l)

structure State extends Core where
  r11 : Word
  pc : Nat

def State.request (s : State) : SystemCall :=
  ⟨s.regs .rax, [.rdi, .rsi, .rdx, .r10, .r8, .r9].map s.regs⟩

/-- The state after a system call. It leaves a result, and changes two registers and data. -/
def State.resume (L : Layout text) (s : State) (reply : Reply) : State where
  regs := ((s.set .rax reply.result).set .rcx reply.rcx).regs
  flags := none
  memory := s.memory.replace L.data reply.memory
  r11 := reply.r11
  pc := s.pc + 1

def jump (text : List Line) (s : State) (target : Label) : Outcome State Fault :=
  match resolve text s.pc target with
  | none => .fault .label
  | some pc => .next { s with pc }

def step (L : Layout text) (s : State) : Outcome State Fault :=
  match text[s.pc]? with
  | some (.instr (.jmp target)) => jump text s target
  | some (.instr (.jz target)) => match s.flags with
    | none => .fault .flags
    | some f => if f.zero then jump text s target else .next { s with pc := s.pc + 1 }
  | some (.instr (.call target)) =>
    jump text { s with toCore := s.push (L.code (s.pc + 1)) } target
  | some (.instr .ret) => match L.lineAt (s.memory.readWord (s.regs .rsp)) with
    | none => .fault .line
    | some pc => .next { s with toCore := s.set .rsp (s.regs .rsp + 8), pc }
  | some (.instr .syscall) => .ask s.request (s.resume L)
  | some (.instr i) => match plain L s.toCore i with
    | .error why => .fault why
    | .ok core => .next { s with toCore := core, pc := s.pc + 1 }
  | some _ => .next { s with pc := s.pc + 1 }
  | none => .fault .line

def Stands (text : List Line) (n : Nat) (lines : List Line) : Prop := lines <+: text.drop n

namespace Stands

variable {n : Nat} {a b lines : List Line} {line : Line}

theorem head (h : Stands text n (line :: lines)) : text[n]? = some line := by
  obtain ⟨after, hafter⟩ := h
  have := congrArg (·[0]?) hafter
  simpa using this.symm

theorem left (h : Stands text n (a ++ b)) : Stands text n a :=
  (List.prefix_append a b).trans h

theorem right (h : Stands text n (a ++ b)) : Stands text (n + a.length) b := by
  obtain ⟨after, hafter⟩ := h
  unfold Stands
  rw [← List.drop_drop, ← hafter, List.append_assoc, List.drop_left]
  exact List.prefix_append _ _

theorem tail (h : Stands text n (line :: lines)) : Stands text (n + 1) lines :=
  right (a := [line]) h

end Stands

def Reaches (L : Layout text) (s s' : State) : Prop := Run (step L) (fun _ => True) s [] s'

section

variable {L : Layout text} {s s' s'' : State}

theorem Reaches.refl : Reaches L s s := Run.refl

theorem Reaches.trans (h : Reaches L s s') (h' : Reaches L s' s'') : Reaches L s s'' :=
  Run.trans h h'

theorem reaches_of_step (h : step L s = .next s') : Reaches L s s' :=
  Run.next Run.refl h trivial

theorem reaches_label {l : Label} {remark : Option String}
    (h : text[s.pc]? = some (.label l remark)) : Reaches L s { s with pc := s.pc + 1 } := by
  apply reaches_of_step
  simp only [step, h]

theorem step_of_plain {i : Instr} {core : Core} (hi : text[s.pc]? = some (.instr i))
    (h : plain L s.toCore i = .ok core) :
    step L s = .next { s with toCore := core, pc := s.pc + 1 } := by
  cases i with
  | jz _ | jmp _ | call _ | ret | syscall => simp [plain] at h
  | _ => simp only [step, hi, h]

theorem reaches_straight {instrs : List Instr} {core : Core}
    (hlines : Stands text s.pc (instrs.map .instr)) (h : straight L s.toCore instrs = .ok core) :
    Reaches L s { s with toCore := core, pc := s.pc + instrs.length } := by
  induction instrs generalizing s with
  | nil =>
    simp only [straight, Except.ok.injEq] at h
    subst h
    exact Reaches.refl
  | cons i instrs ih =>
    simp only [straight] at h
    cases hplain : plain L s.toCore i with
    | error why => simp [hplain] at h
    | ok next =>
      rw [hplain] at h
      apply (reaches_of_step (step_of_plain hlines.head hplain)).trans
      have := ih (s := { s with toCore := next, pc := s.pc + 1 }) hlines.tail h
      rw [List.length_cons, Nat.add_comm instrs.length, ← Nat.add_assoc]
      exact this

end

end StackLang.Processor
