import StackLang.Fault
import StackLang.Program

/-!
This module contains the bodies of functions while they are read. Code is emitted in one pass:
a forward jump is emitted without its target, which is filled in when the block it belongs to goes
on or ends. A fault never stops the pass.
-/

namespace StackLang

structure OpenBlock where
  block : Block
  /-- The index of the instruction that marks its start. -/
  start : Nat
  /-- The index of the jump that waits for its target. -/
  pending : Option Nat := none
  hasElse : Bool := false
  loc : Location
deriving DecidableEq

/-- What a body is read in: the function it belongs to and the names declared before it. -/
structure Enclosing where
  name : String
  globals : Program
  /-- The end of the text. -/
  stop : Location

structure Body where
  code : List Instruction := []
  bindings : List Binding := []
  /-- The open blocks, innermost first. -/
  blocks : List OpenBlock := []
  /-- The strings of the program so far. -/
  strings : List String := []
  faults : List SyntaxError := []

/-- The target of a forward jump that is not known yet. -/
def Op.pendingTarget : Nat := 0xffffffffffffffff

namespace Body

def fault (b : Body) (loc : Location) (f : SyntaxFault) : Body :=
  { b with faults := b.faults ++ [⟨loc, f⟩] }

def emit (b : Body) (loc : Location) (op : Op) : Body :=
  { b with code := b.code ++ [⟨loc, op⟩] }

/-- Points the forward jump at index `i` to `target`. -/
def patch (b : Body) (i target : Nat) : Body :=
  { b with code := b.code.modify i fun c => ⟨c.loc, c.op.retarget target⟩ }

def enter (b : Body) (loc : Location) (block : Block) : Body :=
  { b.emit loc (.enter block) with blocks := { block, start := b.code.length, loc } :: b.blocks }

/-- Opens the part of the innermost block that depends on its test. -/
def test (b : Body) (loc : Location) : Body :=
  match b.blocks with
  | s :: outer =>
    if s.pending.isSome then b.fault loc .strayParen
    else
      { b.emit loc (.branch Op.pendingTarget) with
        blocks := { s with pending := some b.code.length } :: outer }
  | [] => b.fault loc .strayParen

def orElse (b : Body) (loc : Location) : Body :=
  match b.blocks with
  | [] => b.fault loc .strayElse
  | s :: outer =>
    match s.block, s.pending, s.hasElse with
    | .cond, some i, false =>
      let after := (b.emit loc (.otherwise Op.pendingTarget)).patch i (b.code.length + 1)
      { after with blocks := { s with pending := some b.code.length, hasElse := true } :: outer }
    | .cond, _, true => b.fault loc .secondElse
    | _, _, _ => b.fault loc .strayElse

def close (b : Body) (loc : Location) (s : OpenBlock) (outer : List OpenBlock) : Body :=
  let b := { b with blocks := outer }
  match s.pending, s.block with
  | none, _ => b.fault s.loc (.missingTest s.block)
  | some i, .cond => (b.emit loc (.leave .cond)).patch i b.code.length
  | some i, .loop =>
    ((b.emit loc (.jump s.start)).emit loc (.leave .loop)).patch i (b.code.length + 1)

def finish (b : Body) (loc : Location) : Body :=
  if b.bindings.isEmpty then b else b.emit loc (.unbind b.bindings.length)

/-- Moves one cell to a new slot for each name. The last name takes the top of the stack. -/
def bind (b : Body) (loc : Location) (names : List String) : Body :=
  if names.isEmpty then b.fault loc .emptyLet
  else
    let slots := names.zipIdx.map fun (name, i) => { name, index := b.bindings.length + i }
    { b.emit loc (.bind names.length) with bindings := b.bindings ++ slots }

/--
What a name stands for: the latest binding, else a constant, else a memory region, else a function
to be chosen later.
-/
def meaning (b : Body) (globals : Program) (name : String) : Op :=
  match b.bindings.reverse.find? (·.name = name) with
  | some binding => .pushBind binding.index
  | none => match globals.constant? name with
    | some constant => .pushInt constant.value
    | none => match globals.memory? name with
      | some index => .pushPtr index
      | none => .word name

def simple (b : Body) (ctx : Enclosing) (t : Lexeme) : Body :=
  match t.token with
  | .int n => b.emit t.loc (.pushInt n)
  | .bool v => b.emit t.loc (.pushBool v)
  | .char c => b.emit t.loc (.pushChar c)
  | .str s =>
    let (index, strings) := intern b.strings s
    { b.emit t.loc (.pushStr index) with strings }
  | .prim p => b.emit t.loc (.prim p)
  | .syscall n => b.emit t.loc (.syscall n.val.toUInt8)
  | .ident name => b.emit t.loc (b.meaning ctx.globals name)
  | found => b.fault t.loc (.unexpectedToken found ctx.name)

def identName? (t : Lexeme) : Option String :=
  match t.token with
  | .ident name => some name
  | _ => none

/-- The first of the remaining tokens, which is the end mark if there is none. -/
def current (stop : Location) : List Lexeme → Lexeme
  | [] => ⟨stop, .eof⟩
  | t :: _ => t

theorem length_dropWhile_le {α : Type} (p : α → Bool) (l : List α) :
    (l.dropWhile p).length ≤ l.length :=
  (List.dropWhile_sublist p).length_le

/--
Reads tokens up to the parenthesis that closes the body, which is taken, or to a declaration, which
is not. Returns what has been read and the tokens after it.
-/
def read (ctx : Enclosing) (b : Body) : List Lexeme → Body × List Lexeme
  | [] => (b.fault ctx.stop (.unclosedBody ctx.name), [])
  | t :: ts =>
    match t.token with
    | .decl d => (b.fault t.loc (.declarationInBody d ctx.name), t :: ts)
    | .rparen =>
      match b.blocks with
      | s :: outer => read ctx (b.close t.loc s outer) ts
      | [] => (b.finish t.loc, ts)
    | .lparen => read ctx (b.test t.loc) ts
    | .kwIf => read ctx (b.enter t.loc .cond) ts
    | .kwLoop => read ctx (b.enter t.loc .loop) ts
    | .kwElse => read ctx (b.orElse t.loc) ts
    | .kwIn => read ctx (b.fault t.loc .strayIn) ts
    | .kwLet =>
      have hle := length_dropWhile_le (fun t => (identName? t).isSome) ts
      let names := (ts.takeWhile fun t => (identName? t).isSome).filterMap identName?
      match h : ts.dropWhile fun t => (identName? t).isSome with
      | ⟨_, .kwIn⟩ :: rest =>
        have : rest.length < ts.length := by rw [h] at hle; exact hle
        read ctx (b.bind t.loc names) rest
      | rest =>
        let found := current ctx.stop rest
        have : rest.length ≤ ts.length := by rw [h] at hle; exact hle
        read ctx (b.fault found.loc (.expectedBinding found.token)) rest
    | .kwCast =>
      match ts with
      | [] => read ctx (b.fault ctx.stop (.expectedType .eof)) []
      | target :: rest =>
        match target.token with
        | .type ty => read ctx (b.emit t.loc (.cast ty.kind)) rest
        | .param _ => read ctx (b.fault target.loc .castToParam) rest
        | .rparen | .decl _ =>
          read ctx (b.fault target.loc (.expectedType target.token)) (target :: rest)
        | found => read ctx (b.fault target.loc (.expectedType found)) rest
    | _ => read ctx (b.simple ctx t) ts
termination_by ts => ts.length
decreasing_by all_goals simp only [List.length_cons]; omega

theorem length_read_le (ctx : Enclosing) (b : Body) (ts : List Lexeme) :
    (read ctx b ts).2.length ≤ ts.length := by
  fun_induction read ctx b ts <;> simp_all <;> omega

def reportOpen (b : Body) : Body :=
  { b with faults := b.faults ++ b.blocks.map fun s => ⟨s.loc, .unclosedBlock s.block⟩ }

end Body
end StackLang
