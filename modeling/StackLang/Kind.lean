/-!
This module contains the kinds of operand cells. Every value is one 64-bit cell when the program
runs; kinds exist only while a program is checked.
-/

namespace StackLang

inductive Kind
  /-- A binding slot that no value has filled yet. -/
  | untyped
  | any
  | bool
  | byte
  | int
  | ptr
  | str
  /-- A type parameter, fixed anew at each call. -/
  | param (name : String)
  /-- A run of cells, in the signatures of instructions that take a varying number. -/
  | variadic
deriving DecidableEq, Inhabited

namespace Kind

/-- Whether a slot declared as `expected` takes a value of kind `actual`. -/
def accepts (expected actual : Kind) : Bool :=
  if actual = untyped then false
  else match expected with
    | untyped => false
    | any | param _ | variadic => true
    | concrete => actual = any || concrete = actual

def isConcrete : Kind → Bool
  | bool | byte | int | ptr | str => true
  | _ => false

def render : Kind → String
  | untyped => "none"
  | any => "any"
  | bool => "bool"
  | byte => "byte"
  | int => "int"
  | ptr => "ptr"
  | str => "str"
  | param name => "$" ++ name
  | variadic => "..."

/-- A sequence of kinds in brackets, bottom of the stack first. -/
def renderAll (kinds : List Kind) : String :=
  "[" ++ " ".intercalate (kinds.map render) ++ "]"

def arithmetic (a b : Kind) : Kind :=
  if a = int ∧ b = int then int
  else if a = byte ∨ b = byte then byte
  else ptr

end Kind
end StackLang
