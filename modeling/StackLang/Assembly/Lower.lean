import StackLang.Assembly
import StackLang.Program
import StackLang.Text

/-!
This module contains the lowering of programs to assembly. Two stacks are live at all times: `rsp`
is the operand stack, and `rbp` points into the return stack, which holds return addresses and
binding slots. Around a call the two are exchanged, so that the return address goes to the return
stack, while the operand stack pointer travels in `rax`.
-/

namespace StackLang

inductive LoweringError
  | unsupportedPlatform (os arch : String)
  | unresolvedWord (loc : Location) (name : String)
  | noMain
  | mainNotCalled
  | slotNotLive (slot bound : Nat)
  | syscallArity (arity : UInt8)
  | missingFunction (entry : Nat)
  | calleeNotCalled (name : String)
  /-- A fault of the compiler that its reporter has worded. -/
  | internal (message : String)
deriving DecidableEq

namespace LoweringError

/-- Whether neither the program nor the platform can be the cause. -/
def isInternal : LoweringError → Bool
  | unsupportedPlatform _ _ => false
  | _ => true

def message : LoweringError → String
  | unsupportedPlatform os arch => s!"unsupported platform '{os}-{arch}'"
  | unresolvedWord loc name =>
    s!"{loc.render}: cannot lower '{name}': word was never resolved to a function"
  | noMain => "internal error: program has no 'main'"
  | mainNotCalled => "internal error: 'main' is not marked as called"
  | slotNotLive slot bound =>
    s!"internal error: binding {slot} read with only {bound} slot(s) live"
  | syscallArity arity => s!"internal error: syscall{arity.toNat} has too many arguments"
  | missingFunction entry => s!"internal error: call to missing function fn{entry}"
  | calleeNotCalled name =>
    s!"internal error: call to '{name}' which is not marked as called"
  | internal message => s!"internal error: {message}"

def hint? : LoweringError → Option String
  | unsupportedPlatform _ _ => some "code is generated for x86_64 Linux only"
  | _ => none

end LoweringError

inductive Target
  | x86Linux
deriving DecidableEq

def Target.name : Target → String
  | x86Linux => "x86_64-linux"

namespace Assembly

/-- The size of the return stack in bytes. -/
def returnStackSize : Nat := 64 * 1024

def syscallRegs : List Reg := [.rdi, .rsi, .rdx, .r10, .r8, .r9]

def cellBytes (count : Nat) : UInt64 := 8 * count.toUInt64

/-- Pops two cells into `rax` and `rbx`, the upper one into `rbx`. -/
def popTwo : List Instr := [.pop .rbx, .pop .rax]

def compare (condition : Condition) : List Instr :=
  popTwo ++ [.binary .xor .rcx (.reg .rcx), .mov .rdx (.imm 1), .binary .cmp .rax (.reg .rbx),
    .cmov condition .rcx .rdx, .push (.reg .rcx)]

def combine (op : Binary) : List Instr :=
  popTwo ++ [.binary op .rax (.reg .rbx), .push (.reg .rax)]

def divide (result : Reg) : List Instr :=
  popTwo ++ [.cqo, .idiv .rbx, .push (.reg result)]

def lowerPrim : Prim → List Instr
  | .add => combine .add
  | .sub => combine .sub
  | .mul => combine .imul
  | .div => divide .rax
  | .mod => divide .rdx
  | .eq => compare .e
  | .ne => compare .ne
  | .lt => compare .l
  | .gt => compare .g
  | .le => compare .le
  | .ge => compare .ge
  | .and => combine .and
  | .or => combine .or
  | .not => [.pop .rax, .binary .xor .rax (.imm 1), .push (.reg .rax)]
  | .dup => [.pushFrom (.base .rsp)]
  | .drop => [.binary .add .rsp (.imm 8)]
  | .swap => popTwo ++ [.push (.reg .rbx), .push (.reg .rax)]
  | .peek => [.pushFrom (.offset .rsp 8)]
  | .rot => [.pop .rcx] ++ popTwo ++ [.push (.reg .rbx), .push (.reg .rcx), .push (.reg .rax)]
  | .load => [.pop .rax, .load .rax (.base .rax), .push (.reg .rax)]
  | .load8 => [.pop .rcx, .pop .rax, .loadByte .rbx (.index .rax .rcx), .push (.reg .rbx)]
  | .store => [.pop .rax, .pop .rbx, .store (.base .rax) .rbx]
  | .store8 => [.pop .rcx, .pop .rax, .pop .rbx, .storeByte (.index .rax .rcx) .rbx]

/-- Reserves slots on the return stack and fills them. The newest slot takes the top cell. -/
def lowerBind (count : Nat) : List Instr :=
  .binary .sub .rbp (.imm (cellBytes count).toNat) ::
    (List.range count).flatMap fun slot =>
      [.pop .rax, .store (.offset .rbp (cellBytes slot)) .rax]

/-- Gives the operand stack pointer to the callee and makes the return stack current. -/
def toReturnStack : List Instr := [.mov .rax (.reg .rsp), .mov .rsp (.reg .rbp)]

/-- Makes the operand stack current, whose pointer is in `rax`. -/
def toOperandStack : List Instr := [.mov .rbp (.reg .rsp), .mov .rsp (.reg .rax)]

def lowerCall (entry : Nat) : List Instr :=
  toReturnStack ++ [.call (.fn entry)] ++ toOperandStack

/-- The instructions for one operation, with `bound` slots filled before it. -/
def lowerOp (p : Program) (bound : Nat) (i : Instruction) : Except LoweringError (List Instr) :=
  match i.op with
  | .pushInt n => .ok [.mov .rax (.imm n.toInt), .push (.reg .rax)]
  | .pushBool b => .ok [.push (.imm (if b then 1 else 0))]
  | .pushChar b => .ok [.push (.imm b.toNat)]
  | .pushStr index => .ok [.mov .rax (.label (.str index)), .push (.reg .rax)]
  | .pushPtr index => .ok [.mov .rax (.label (.mem index)), .push (.reg .rax)]
  | .pushBind slot =>
    if slot < bound then .ok [.pushFrom (.offset .rbp (cellBytes (bound - slot - 1)))]
    else .error (.slotNotLive slot bound)
  | .prim prim => .ok (lowerPrim prim)
  | .cast _ => .ok []
  | .syscall arity =>
    if arity.toNat ≤ syscallRegs.length then
      .ok ([.pop .rax] ++ (syscallRegs.take arity.toNat).map .pop ++ [.syscall, .push (.reg .rax)])
    else
      .error (.syscallArity arity)
  | .enter _ | .leave _ => .ok []
  | .branch target => .ok [.pop .rax, .binary .test .rax (.reg .rax), .jz (.ip target)]
  | .otherwise target | .jump target => .ok [.jmp (.ip target)]
  | .bind count => .ok (lowerBind count)
  | .unbind count => .ok [.binary .add .rbp (.imm (cellBytes count).toNat)]
  | .call entry =>
    match p.functions[entry]? with
    | none => .error (.missingFunction entry)
    | some callee =>
      if callee.called then .ok (lowerCall entry) else .error (.calleeNotCalled callee.name)
  | .word name => .error (.unresolvedWord i.loc name)

def boundAfter (bound : Nat) : Op → Nat
  | .bind count => bound + count
  | .unbind count => bound - count
  | _ => bound

def lowerCode (p : Program) (bound ip : Nat) : List Instruction → Except LoweringError (List Line)
  | [] => .ok []
  | i :: rest =>
    match lowerOp p bound i with
    | .error e => .error e
    | .ok instrs => match lowerCode p (boundAfter bound i.op) (ip + 1) rest with
      | .error e => .error e
      | .ok lines => .ok (.label (.ip ip) (some i.op.name) :: instrs.map .instr ++ lines)

def lowerFunction (p : Program) (f : Function) : Except LoweringError (List Line) :=
  match lowerCode p 0 0 f.code with
  | .error e => .error e
  | .ok lines =>
    .ok ([.blank, .comment f.signature, .label (.fn f.entry)] ++ toOperandStack.map .instr ++
      lines ++ toReturnStack.map .instr ++ [.instr .ret])

def lowerFunctions (p : Program) : List Function → Except LoweringError (List Line)
  | [] => .ok []
  | f :: rest =>
    if f.called then
      match lowerFunction p f with
      | .error e => .error e
      | .ok lines => match lowerFunctions p rest with
        | .error e => .error e
        | .ok others => .ok (lines ++ others)
    else
      lowerFunctions p rest

def startInstrs (main : Nat) : List Instr :=
  [.mov .rbp (.label .returnStackEnd)] ++ toReturnStack ++
    [.call (.fn main), .mov .rax (.imm 60), .binary .xor .rdi (.reg .rdi), .syscall]

def entryPoint (main : Nat) : List Line :=
  [.globalStart, .label .start] ++ (startInstrs main).map .instr

/-- A string: its length in bytes, then its bytes. -/
def stringLines (s : String) (index : Nat) : List Line :=
  let content := Text.utf8 s
  .quad (.str index) content.length :: if content.isEmpty then [] else [.bytes content]

def memoryLine (m : Memory) (index : Nat) : Line := .reserve (.mem index) m.size (some m.name)

end Assembly

def Program.lower (p : Program) : Except LoweringError Assembly :=
  match p.main? with
  | none => .error .noMain
  | some main =>
    if main.called then
      match Assembly.lowerFunctions p p.functions with
      | .error e => .error e
      | .ok lines =>
        .ok {
          text := Assembly.entryPoint main.entry ++ lines
          data := p.strings.zipIdx.flatMap fun (s, i) => Assembly.stringLines s i
          bss := p.memories.zipIdx.map (fun (m, i) => Assembly.memoryLine m i) ++
            [.reserve .returnStack Assembly.returnStackSize, .label .returnStackEnd] }
    else
      .error .mainNotCalled

def Program.generate (p : Program) : Target → Except LoweringError Assembly
  | .x86Linux => p.lower

end StackLang
