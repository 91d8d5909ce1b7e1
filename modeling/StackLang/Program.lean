import StackLang.Op

/-!
This module contains programs: the functions of every source, the memory regions, constants and
strings they share.
-/

namespace StackLang

/-- A slot that `let` fills. It has no kind until the function is checked. -/
structure Binding where
  name : String
  index : Nat
  kind : Kind := .untyped
deriving DecidableEq

/-- A region of memory, zero when the program starts. -/
structure Memory where
  name : String
  size : Nat
  loc : Location
deriving DecidableEq

structure Constant where
  name : String
  value : Int64
  loc : Location
deriving DecidableEq

structure Function where
  name : String
  /-- The number that calls use, its position in the program. -/
  entry : Nat
  loc : Location
  args : List Kind := []
  rets : List Kind := []
  /-- Whether other functions may have the same name. -/
  overload : Bool := false
  /-- Whether the function belongs to the library compiled ahead of every program. -/
  internal : Bool := false
  /-- Whether calls lead to the function from `main`. -/
  called : Bool := false
  code : List Instruction := []
  bindings : List Binding := []
deriving DecidableEq

structure Program where
  functions : List Function := []
  memories : List Memory := []
  constants : List Constant := []
  strings : List String := []
deriving DecidableEq

def Function.signature (f : Function) : String :=
  let kinds (ks : List Kind) := String.join (ks.map fun k => " " ++ k.render)
  f.name ++ kinds f.args ++ (if f.rets.isEmpty then "" else " ->" ++ kinds f.rets)

namespace Program

def main? (p : Program) : Option Function := p.functions.find? (·.name = "main")

def candidates (p : Program) (name : String) : List Nat :=
  (p.functions.filter (·.name = name)).map (·.entry)

def constant? (p : Program) (name : String) : Option Constant :=
  p.constants.find? (·.name = name)

def memory? (p : Program) (name : String) : Option Nat :=
  p.memories.findIdx? (·.name = name)

end Program

/-- The position of `s` in a table of strings, and the table with `s` added if it is new. -/
def intern (strings : List String) (s : String) : Nat × List String :=
  match strings.findIdx? (· = s) with
  | some i => (i, strings)
  | none => (strings.length, strings ++ [s])

end StackLang
