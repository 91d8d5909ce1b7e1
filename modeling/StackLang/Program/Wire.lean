import StackLang.Program
import StackLang.Wire

/-!
This module contains the byte format of programs. Fields are written in the order of their
declarations, and choices are numbered from zero.
-/

namespace StackLang.Wire.Codec

def location : Codec Location :=
  via (pair text (pair nat nat)) (fun l => (l.file, l.line, l.col)) fun (file, line, col) =>
    ⟨file, line, col⟩

def kind : Codec Kind where
  encode
    | .untyped => choice.encode 0
    | .any => choice.encode 1
    | .bool => choice.encode 2
    | .byte => choice.encode 3
    | .int => choice.encode 4
    | .ptr => choice.encode 5
    | .str => choice.encode 6
    | .param name => choice.encode 7 ++ text.encode name
    | .variadic => choice.encode 8
  decode := Decoder.andThen choice.decode fun
    | 0 => Decoder.value .untyped
    | 1 => Decoder.value .any
    | 2 => Decoder.value .bool
    | 3 => Decoder.value .byte
    | 4 => Decoder.value .int
    | 5 => Decoder.value .ptr
    | 6 => Decoder.value .str
    | 7 => Decoder.map .param text.decode
    | 8 => Decoder.value .variadic
    | _ => Decoder.fail .badChoice

/-- The number of a primitive among the instructions, where primitives follow six literals. -/
def primNumber (p : Prim) : Nat := 6 + Prim.all.idxOf p

def decodeOp (number : Nat) : Decoder Op :=
  match number with
  | 0 => Decoder.map .pushInt int64.decode
  | 1 => Decoder.map .pushBool bool.decode
  | 2 => Decoder.map .pushChar byte.decode
  | 3 => Decoder.map .pushStr nat.decode
  | 4 => Decoder.map .pushPtr nat.decode
  | 5 => Decoder.map .pushBind nat.decode
  | 29 => Decoder.map .cast kind.decode
  | 30 => Decoder.map .syscall byte.decode
  | 31 => Decoder.value (.enter .cond)
  | 32 => Decoder.value (.enter .loop)
  | 33 => Decoder.map .branch nat.decode
  | 34 => Decoder.map .otherwise nat.decode
  | 35 => Decoder.map .jump nat.decode
  | 36 => Decoder.value (.leave .cond)
  | 37 => Decoder.value (.leave .loop)
  | 38 => Decoder.map .bind nat.decode
  | 39 => Decoder.map .unbind nat.decode
  | 40 => Decoder.map .word text.decode
  | 41 => Decoder.map .call nat.decode
  | number => match Prim.all[number - 6]? with
    | some p => Decoder.value (.prim p)
    | none => Decoder.fail .badChoice

def op : Codec Op where
  encode
    | .pushInt n => choice.encode 0 ++ int64.encode n
    | .pushBool b => choice.encode 1 ++ bool.encode b
    | .pushChar b => choice.encode 2 ++ byte.encode b
    | .pushStr i => choice.encode 3 ++ nat.encode i
    | .pushPtr i => choice.encode 4 ++ nat.encode i
    | .pushBind i => choice.encode 5 ++ nat.encode i
    | .prim p => choice.encode (primNumber p)
    | .cast k => choice.encode 29 ++ kind.encode k
    | .syscall n => choice.encode 30 ++ byte.encode n
    | .enter .cond => choice.encode 31
    | .enter .loop => choice.encode 32
    | .branch t => choice.encode 33 ++ nat.encode t
    | .otherwise t => choice.encode 34 ++ nat.encode t
    | .jump t => choice.encode 35 ++ nat.encode t
    | .leave .cond => choice.encode 36
    | .leave .loop => choice.encode 37
    | .bind n => choice.encode 38 ++ nat.encode n
    | .unbind n => choice.encode 39 ++ nat.encode n
    | .word w => choice.encode 40 ++ text.encode w
    | .call e => choice.encode 41 ++ nat.encode e
  decode := Decoder.andThen choice.decode decodeOp

def instruction : Codec Instruction :=
  via (pair location op) (fun i => (i.loc, i.op)) fun (loc, op) => ⟨loc, op⟩

def binding : Codec Binding :=
  via (pair text (pair nat kind)) (fun b => (b.name, b.index, b.kind)) fun (name, index, kind) =>
    ⟨name, index, kind⟩

def memory : Codec Memory :=
  via (pair text (pair nat location)) (fun m => (m.name, m.size, m.loc)) fun (name, size, loc) =>
    ⟨name, size, loc⟩

def constant : Codec Constant :=
  via (pair text (pair int64 location)) (fun c => (c.name, c.value, c.loc))
    fun (name, value, loc) => ⟨name, value, loc⟩

def function : Codec Function :=
  via
    (pair text (pair nat (pair location (pair (list kind) (pair (list kind)
      (pair bool (pair bool (pair bool (pair (list instruction) (list binding))))))))))
    (fun f => (f.name, f.entry, f.loc, f.args, f.rets, f.overload, f.internal, f.called, f.code,
      f.bindings))
    fun (name, entry, loc, args, rets, overload, internal, called, code, bindings) =>
      { name, entry, loc, args, rets, overload, internal, called, code, bindings }

def program : Codec Program :=
  via (pair (list function) (pair (list memory) (pair (list constant) (list text))))
    (fun p => (p.functions, p.memories, p.constants, p.strings))
    fun (functions, memories, constants, strings) => { functions, memories, constants, strings }

end StackLang.Wire.Codec

namespace StackLang.Program

def toBytes (p : Program) : List UInt8 := Wire.Codec.program.encode p

/-- Reads a program. Bytes after it are ignored. -/
def ofBytes (bytes : List UInt8) : Except Wire.DecodeError Program :=
  (Wire.Codec.program.decode bytes).map (·.1)

end StackLang.Program
