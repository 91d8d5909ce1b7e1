/-!
This module contains the primitive words: those that stand for one instruction with a fixed effect
on the operand stack.
-/

namespace StackLang

inductive Prim
  | add | sub | mul | div | mod
  | eq | ne | lt | gt | le | ge
  | and | or | not
  | dup | drop | swap | peek | rot
  | load | load8 | store | store8
deriving DecidableEq

namespace Prim

def all : List Prim :=
  [add, sub, mul, div, mod, eq, ne, lt, gt, le, ge, and, or, not, dup, drop, swap, peek, rot,
    load, load8, store, store8]

def spelling : Prim → String
  | add => "+" | sub => "-" | mul => "*" | div => "/" | mod => "%"
  | eq => "=" | ne => "!=" | lt => "<" | gt => ">" | le => "<=" | ge => ">="
  | and => "and" | or => "or" | not => "not"
  | dup => "dup" | drop => "drop" | swap => "swap" | peek => "over" | rot => "rot"
  | load => "load" | load8 => "load8" | store => "store" | store8 => "store8"

theorem mem_all (p : Prim) : p ∈ all := by
  cases p <;> decide

end Prim
end StackLang
