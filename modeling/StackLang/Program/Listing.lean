import StackLang.Program
import StackLang.Text

/-!
This module contains the listing of a program: its tables, and the code of each function with the
targets of its jumps marked.
-/

namespace StackLang

namespace Listing

def field (name operand : String) : String := Text.padRight 12 name ++ operand

def remark (text : String) : Option String → String
  | some what => s!"{text} ; {what}"
  | none => text

def jump (ip target : Nat) : String :=
  let direction := if target ≤ ip then "↑" else "↓"
  s!"{direction} (→ {Text.zeroPadded 4 target})"

def prim : Prim → String
  | .add => "ADD" | .sub => "SUB" | .mul => "MUL" | .div => "DIV" | .mod => "MOD"
  | .eq => "EQ" | .ne => "NE" | .lt => "LT" | .gt => "GT" | .le => "LE" | .ge => "GE"
  | .and => "AND" | .or => "OR" | .not => "NOT"
  | .dup => "DUP" | .drop => "DROP" | .swap => "SWAP" | .peek => "OVER" | .rot => "ROT"
  | .load => field "LOAD" "; ( ptr -- int )"
  | .load8 => field "LOAD8" "; ( ptr int -- byte )"
  | .store => field "STORE" "; ( any ptr -- )"
  | .store8 => field "STORE8" "; ( any ptr int -- )"

def op (p : Program) (f : Function) (ip : Nat) : Op → String
  | .pushInt n => field "PUSH_INT" (toString n.toInt)
  | .pushBool b => field "PUSH_BOOL" (toString b)
  | .pushChar b => field "PUSH_CHAR" (Text.quotedByte b)
  | .pushStr i => field "PUSH_STR" (remark s!"str_{i}" (p.strings[i]?.map Text.quoted))
  | .pushPtr i => field "PUSH_PTR" (remark s!"mem_{i}" (p.memories[i]?.map (·.name)))
  | .pushBind i =>
    let slot := f.bindings[i]?.map fun b => s!"{b.name} : {b.kind.render}"
    field "PUSH_BIND" (remark (toString i) slot)
  | .prim p => prim p
  | .cast k => field "CAST" k.render
  | .syscall n => field "SYSCALL" (toString n.toNat)
  | .enter .cond => "IF"
  | .enter .loop => "LOOP"
  | .branch t => field "DO" (jump ip t)
  | .otherwise t => field "ELSE" (jump ip t)
  | .jump t => field "JUMP" (jump ip t)
  | .leave .cond => "END_IF"
  | .leave .loop => "END_LOOP"
  | .bind n => field "BIND" (toString n)
  | .unbind n => field "UNBIND" (toString n)
  | .word w => field "WORD" s!"\"{w}\""
  | .call e => field "CALL" (remark s!"fn{e}" (p.functions[e]?.map (·.signature)))

def rule : String := "".pushn '═' 40

def flags (f : Function) : List String :=
  (if f.overload then ["poly"] else []) ++ (if f.internal then ["internal"] else []) ++
  (if f.called then [] else ["dead"])

def function (p : Program) (f : Function) : String :=
  let targets := f.code.filterMap (·.op.target?)
  let flagText := if (flags f).isEmpty then "" else " [" ++ ", ".intercalate (flags f) ++ "]"
  let line (i : Instruction) (ip : Nat) : String :=
    let marker := if ip ∈ targets then "► " else "  "
    s!"{Text.zeroPadded 4 ip} {marker}{op p f ip i.op}\n"
  s!"{rule}\n fn{f.entry} {f.signature}\n {f.code.length} instructions{flagText}\n{rule}\n" ++
    String.join (f.code.zipIdx.map fun (i, ip) => line i ip) ++ "\n"

end Listing

def Program.listing (p : Program) : String :=
  let memory (m : Memory) (i : Nat) : String :=
    s!"mem_{Text.padRight 4 (toString i)} {Text.padRight 16 m.name} {m.size} bytes\n"
  let string (s : String) (i : Nat) : String :=
    s!"str_{Text.padRight 4 (toString i)} {Text.quoted s}\n"
  let gap := if p.memories.isEmpty && p.strings.isEmpty then "" else "\n"
  "=== IR PROGRAM ===\n\n" ++ String.join (p.memories.zipIdx.map fun (m, i) => memory m i) ++
    String.join (p.strings.zipIdx.map fun (s, i) => string s i) ++ gap ++
    String.join (p.functions.map (Listing.function p))

end StackLang
