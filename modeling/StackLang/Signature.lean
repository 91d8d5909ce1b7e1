import StackLang.Op

/-!
This module contains stack effects: the signatures of instructions and how the top of a stack is
matched against the arguments of a signature. Stack shuffles are written with type parameters, so
that matching alone carries kinds through them.
-/

namespace StackLang

/-- The kinds taken from the stack and the kinds left in their place, bottom first. -/
structure Signature where
  args : List Kind
  rets : List Kind
deriving DecidableEq

/-- The arguments with a run of varying length spelled out as `count` cells of any kind. -/
def Signature.expand (s : Signature) (count : Nat) : List Kind :=
  s.args.flatMap fun
    | .variadic => List.replicate count .any
    | kind => [kind]

def Prim.signature : Prim → Signature
  | add | sub => ⟨[.any, .int], [.int]⟩
  | mul | div | mod => ⟨[.int, .int], [.int]⟩
  | eq | ne | lt | gt | le | ge => ⟨[.any, .any], [.bool]⟩
  | and | or => ⟨[.bool, .bool], [.bool]⟩
  | not => ⟨[.bool], [.bool]⟩
  | dup => ⟨[.param "a"], [.param "a", .param "a"]⟩
  | drop => ⟨[.param "a"], []⟩
  | swap => ⟨[.param "a", .param "b"], [.param "b", .param "a"]⟩
  | peek => ⟨[.param "a", .param "b"], [.param "a", .param "b", .param "a"]⟩
  | rot => ⟨[.param "a", .param "b", .param "c"], [.param "b", .param "c", .param "a"]⟩
  | load => ⟨[.ptr], [.int]⟩
  | load8 => ⟨[.ptr, .int], [.byte]⟩
  | store => ⟨[.any, .ptr], []⟩
  | store8 => ⟨[.any, .ptr, .int], []⟩

namespace Op

/-- The signature of an instruction, unless its effect depends on where it stands. -/
def signature? : Op → Option Signature
  | prim p => some p.signature
  | cast kind => some ⟨[.any], [kind]⟩
  | syscall _ => some ⟨[.variadic, .int], [.int]⟩
  | branch _ => some ⟨[.bool], []⟩
  | bind _ => some ⟨[.variadic], []⟩
  | _ => none

def variadicCount : Op → Nat
  | syscall n => n.toNat
  | bind n => n
  | _ => 0

end Op

abbrev Substitution := List (String × Kind)

namespace Substitution

def get? (s : Substitution) (name : String) : Option Kind :=
  (s.find? (·.1 = name)).map (·.2)

/-- Replaces a type parameter. One that stands for nothing becomes any kind. -/
def apply (s : Substitution) : Kind → Kind
  | .param name => (s.get? name).getD .any
  | kind => kind

def applyAll (s : Substitution) (kinds : List Kind) : List Kind := kinds.map s.apply

/-- Matches one slot; a parameter has to stand for one kind throughout. -/
def matchSlot (s : Substitution) (expected found : Kind) : Option Substitution :=
  if !expected.accepts found then none
  else match expected with
    | .param name =>
      match s.get? name with
      | some previous => if previous = found then some s else none
      | none => some (s ++ [(name, found)])
    | _ => some s

def matchSlots (s : Substitution) : List Kind → List Kind → Option Substitution
  | expected :: args, found :: kinds => (s.matchSlot expected found).bind (·.matchSlots args kinds)
  | _, _ => some s

end Substitution

/-- The uppermost `count` kinds of a stack, bottom first. -/
def topKinds (stack : List Kind) (count : Nat) : List Kind := stack.drop (stack.length - count)

def belowKinds (stack : List Kind) (count : Nat) : List Kind := stack.take (stack.length - count)

def matchArgs (args stack : List Kind) : Option Substitution :=
  if stack.length < args.length then none
  else Substitution.matchSlots [] args (topKinds stack args.length)

end StackLang
