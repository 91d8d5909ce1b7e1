/-!
This module contains assembly for x86-64: the instructions that programs are lowered to, the lines
and sections they form, and their text.
-/

namespace StackLang.Assembly

inductive Reg
  | rax | rbx | rcx | rdx | rsi | rdi | rbp | rsp | r8 | r9 | r10
deriving DecidableEq

def Reg.render : Reg → String
  | rax => "rax" | rbx => "rbx" | rcx => "rcx" | rdx => "rdx" | rsi => "rsi" | rdi => "rdi"
  | rbp => "rbp" | rsp => "rsp" | r8 => "r8" | r9 => "r9" | r10 => "r10"

def Reg.renderByte : Reg → String
  | rax => "al" | rbx => "bl" | rcx => "cl" | rdx => "dl" | rsi => "sil" | rdi => "dil"
  | rbp => "bpl" | rsp => "spl" | r8 => "r8b" | r9 => "r9b" | r10 => "r10b"

inductive Label
  | start
  | fn (entry : Nat)
  /-- The instruction at this index in the function around it. -/
  | ip (index : Nat)
  | str (index : Nat)
  | mem (index : Nat)
  /-- The stack of return addresses and binding slots. -/
  | returnStack
  | returnStackEnd
deriving DecidableEq

def Label.render : Label → String
  | start => "_start"
  | fn entry => s!"fn{entry}"
  | ip index => s!".ip{index}"
  | str index => s!"str_{index}"
  | mem index => s!"mem_{index}"
  | returnStack => "ret_stack"
  | returnStackEnd => "ret_stack_end"

inductive Address
  | base (r : Reg)
  | offset (r : Reg) (bytes : UInt64)
  | index (r i : Reg)
deriving DecidableEq

def Address.render : Address → String
  | base r => s!"[{r.render}]"
  | offset r bytes => s!"[{r.render} + {bytes.toNat}]"
  | index r i => s!"[{r.render} + {i.render}]"

inductive Operand
  | reg (r : Reg)
  /-- A number, of which the machine keeps 64 bits. -/
  | imm (value : Int)
  | label (l : Label)
deriving DecidableEq

def Operand.render : Operand → String
  | reg r => r.render
  | imm value => toString value
  | label l => l.render

inductive Binary
  | add | sub | imul | and | or | xor | cmp | test
deriving DecidableEq

def Binary.render : Binary → String
  | add => "add" | sub => "sub" | imul => "imul" | and => "and" | or => "or" | xor => "xor"
  | cmp => "cmp" | test => "test"

/-- Conditions on the flags, for signed numbers. -/
inductive Condition
  | e | ne | l | g | le | ge
deriving DecidableEq

def Condition.render : Condition → String
  | e => "e" | ne => "ne" | l => "l" | g => "g" | le => "le" | ge => "ge"

inductive Instr
  | mov (dst : Reg) (src : Operand)
  | load (dst : Reg) (src : Address)
  | store (dst : Address) (src : Reg)
  /-- Loads a byte, with zeros above it. -/
  | loadByte (dst : Reg) (src : Address)
  | storeByte (dst : Address) (src : Reg)
  | push (src : Operand)
  | pushFrom (src : Address)
  | pop (dst : Reg)
  | binary (op : Binary) (dst : Reg) (src : Operand)
  /-- Extends the sign of `rax` into `rdx`. -/
  | cqo
  | idiv (divisor : Reg)
  | cmov (condition : Condition) (dst src : Reg)
  | jz (target : Label)
  | jmp (target : Label)
  | call (target : Label)
  | ret
  | syscall
deriving DecidableEq

def Instr.render : Instr → String
  | mov dst src => s!"mov {dst.render}, {src.render}"
  | load dst src => s!"mov {dst.render}, {src.render}"
  | store dst src => s!"mov {dst.render}, {src.render}"
  | loadByte dst src => s!"movzx {dst.render}, byte {src.render}"
  | storeByte dst src => s!"mov {dst.render}, {src.renderByte}"
  | push src => s!"push {src.render}"
  | pushFrom src => s!"push qword {src.render}"
  | pop dst => s!"pop {dst.render}"
  | binary op dst src => s!"{op.render} {dst.render}, {src.render}"
  | cqo => "cqo"
  | idiv divisor => s!"idiv {divisor.render}"
  | cmov condition dst src => s!"cmov{condition.render} {dst.render}, {src.render}"
  | jz target => s!"jz {target.render}"
  | jmp target => s!"jmp {target.render}"
  | call target => s!"call {target.render}"
  | ret => "ret"
  | syscall => "syscall"

inductive Line
  | blank
  | comment (text : String)
  | globalStart
  | label (l : Label) (remark : Option String := none)
  | instr (i : Instr)
  | quad (l : Label) (value : Nat)
  | bytes (bs : List UInt8)
  | reserve (l : Label) (size : Nat) (remark : Option String := none)
deriving DecidableEq

def renderRemark : Option String → String
  | some text => s!" ; {text}"
  | none => ""

def Line.render : Line → String
  | blank => ""
  | comment text => s!"; {text}"
  | globalStart => "global _start"
  | label l remark => s!"{l.render}:{renderRemark remark}"
  | instr i => s!"    {i.render}"
  | quad l value => s!"{l.render}: dq {value}"
  | bytes bs => "    db " ++ ", ".intercalate (bs.map fun b => toString b.toNat)
  | reserve l size remark => s!"{l.render}: resb {size}{renderRemark remark}"

def renderLines (lines : List Line) : String :=
  String.join (lines.map fun line => line.render ++ "\n")

end Assembly

structure Assembly where
  text : List Assembly.Line
  data : List Assembly.Line
  bss : List Assembly.Line
deriving DecidableEq

def Assembly.render (a : Assembly) : String :=
  "; generated by cinder\nbits 64\n\nsection .text\n" ++ renderLines a.text ++
    "\nsection .data\n" ++ renderLines a.data ++ "\nsection .bss\n" ++ renderLines a.bss

end StackLang
