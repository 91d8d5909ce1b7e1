import StackLang.Kind
import StackLang.Location
import StackLang.Prim
import StackLang.Text

/-!
This module contains the instructions of the intermediate representation. Jump targets are indices
of instructions in the same function.
-/

namespace StackLang

inductive Block
  | cond
  | loop
deriving DecidableEq

def Block.word : Block → String
  | cond => "if"
  | loop => "loop"

inductive Op
  | pushInt (value : Int64)
  | pushBool (value : Bool)
  | pushChar (byte : UInt8)
  /-- The address of a string of the program. -/
  | pushStr (index : Nat)
  /-- The address of a memory region of the program. -/
  | pushPtr (index : Nat)
  | pushBind (slot : Nat)
  | prim (p : Prim)
  | cast (kind : Kind)
  /-- A system call with its number on top of `arity` arguments. -/
  | syscall (arity : UInt8)
  | enter (block : Block)
  /-- Pops a cell and jumps if it is zero. -/
  | branch (target : Nat)
  /-- Ends the first branch of a conditional: jumps over the second. -/
  | otherwise (target : Nat)
  /-- Ends a loop body: jumps back to the test. -/
  | jump (target : Nat)
  | leave (block : Block)
  | bind (count : Nat)
  | unbind (count : Nat)
  /-- A call that no function has been chosen for yet. -/
  | word (name : String)
  | call (entry : Nat)
deriving DecidableEq

namespace Op

def target? : Op → Option Nat
  | branch t | otherwise t | jump t => some t
  | _ => none

def name : Op → String
  | pushInt n => toString n.toInt
  | pushBool b => toString b
  | pushChar b => Text.quotedByte b
  | pushStr _ => "string literal"
  | pushPtr _ => "memory"
  | pushBind _ => "binding"
  | prim p => p.spelling
  | cast k => "cast " ++ k.render
  | syscall n => s!"syscall{n.toNat}"
  | enter b => b.word
  | branch _ => "("
  | otherwise _ => "else"
  | jump _ | leave _ => ")"
  | bind _ => "let"
  | unbind _ => "unbind"
  | word w => w
  | call e => s!"call fn{e}"

def retarget (target : Nat) : Op → Op
  | branch _ => branch target
  | otherwise _ => otherwise target
  | op => op

end Op

structure Instruction where
  loc : Location
  op : Op
deriving DecidableEq

/--
Chooses the function that an instruction calls, and returns the word it replaces. Only an
unresolved word changes.
-/
def Instruction.resolve (i : Instruction) (entry : Nat) : Option String × Instruction :=
  match i.op with
  | .word name => (some name, ⟨i.loc, .call entry⟩)
  | _ => (none, i)

end StackLang
