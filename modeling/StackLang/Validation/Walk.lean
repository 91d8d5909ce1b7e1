import StackLang.Program
import StackLang.Signature
import StackLang.Validation.Violation

/-!
This module contains the walk that checks a function: it runs the code once, in order, on a stack
of kinds. On the way it chooses a function for every word by the kinds on the stack, and gives
every binding a kind.
-/

namespace StackLang

/-- The deepest stack of kinds that instructions may build. -/
def stackLimit : Nat := 1024

/-- The stack that an open block has to come back to. -/
structure Checkpoint where
  block : Block
  stack : List Kind
  tested : Bool := false
  inElse : Bool := false
deriving DecidableEq

def Checkpoint.context (c : Checkpoint) : String :=
  match c.block, c.inElse with
  | .cond, false => "in the 'if' branch"
  | .cond, true => "in the 'else' branch"
  | .loop, _ => "by the loop body"

/-- The state of a walk before an instruction. -/
structure Walk where
  stack : List Kind
  blocks : List Checkpoint := []
  bound : Nat := 0
  bindings : List Binding
deriving DecidableEq

namespace Walk

def push (stack results : List Kind) : Except Violation (List Kind) :=
  if stack.length + results.length ≤ stackLimit || results.isEmpty then .ok (stack ++ results)
  else .error (.overflow stackLimit)

/-- Applies an instruction with a signature. Returns the kinds it takes and the stack it leaves. -/
def apply (op : Op) (stack : List Kind) : Except Violation (List Kind × List Kind) :=
  match op.signature? with
  | none => .error (.noSignature op.name)
  | some sig =>
    let args := sig.expand op.variadicCount
    let top := topKinds stack args.length
    if stack.length < args.length then .error (.underflow op.name args.length stack)
    else match matchArgs args stack with
      | none => .error (.mismatch op.name sig.args top)
      | some s =>
        let rets := match op, top with
          | .prim .add, [a, b] | .prim .sub, [a, b] => [Kind.arithmetic a b]
          | _, _ => s.applyAll sig.rets
        match push (belowKinds stack args.length) rets with
        | .error v => .error v
        | .ok stack => .ok (top, stack)

def matchCall (f : Function) (stack : List Kind) : Except Violation Substitution :=
  if stack.length < f.args.length then .error (.underflow f.name f.args.length stack)
  else match matchArgs f.args stack with
    | none => .error (.argumentMismatch f.name f.args (topKinds stack f.args.length))
    | some s => .ok s

def call (functions : List Function) (entry : Nat) (stack : List Kind) :
    Except Violation (List Kind) :=
  match functions[entry]? with
  | none => .error (.missingFunction entry)
  | some f => match matchCall f stack with
    | .error v => .error v
    | .ok s => push (belowKinds stack f.args.length) (s.applyAll f.rets)

def overloads (functions : List Function) (name : String) : List (Function × Nat) :=
  functions.zipIdx.filter (·.1.name = name)

/--
Chooses a function for a word: the only one of that name, or the first whose arguments match the
top of the stack. Other instructions stay as they are.
-/
def resolve (functions : List Function) (stack : List Kind) : Op → Except Violation Op
  | .word name =>
    match overloads functions name with
    | [] => .error (.unknownWord name)
    | [(f, entry)] => match matchCall f stack with
      | .error v => .error v
      | .ok _ => .ok (.call entry)
    | several =>
      match several.find? fun (f, _) => (matchArgs f.args stack).isSome with
      | some (_, entry) => .ok (.call entry)
      | none =>
        let widest := (several.map (·.1.args.length)).foldl max 0
        .error (.noOverload name (topKinds stack widest) (several.map (·.1.signature)))
  | op => .ok op

/-- Why a walk stops, and the bindings as far as they have kinds by then. -/
structure Stop where
  violation : Violation
  bindings : List Binding
deriving DecidableEq

def fail (w : Walk) (v : Violation) : Except Stop Walk := .error ⟨v, w.bindings⟩

def goOn (w : Walk) : Except Violation (List Kind) → Except Stop Walk
  | .ok stack => .ok { w with stack }
  | .error v => w.fail v

/-- Gives kinds to the slots from `slot` on. Stops at a slot that does not exist. -/
def assign (bindings : List Binding) (slot : Nat) : List Kind → List Binding × Option Nat
  | [] => (bindings, none)
  | kind :: kinds =>
    if slot < bindings.length then
      assign (bindings.modify slot ({ · with kind })) (slot + 1) kinds
    else
      (bindings, some slot)

def readSlot (w : Walk) (slot : Nat) : Except Stop Walk :=
  match w.bindings[slot]? with
  | none => w.fail (.noSlot slot)
  | some b =>
    if b.kind = .untyped then w.fail (.unboundSlot b.name) else w.goOn (push w.stack [b.kind])

/-- Fills slots. A block may run any number of times, so none may be open. -/
def fillSlots (w : Walk) (count : Nat) : Except Stop Walk :=
  match w.blocks with
  | c :: _ => w.fail (.letInBlock c.block)
  | [] => match apply (.bind count) w.stack with
    | .error v => w.fail v
    | .ok (taken, stack) =>
      match assign w.bindings w.bound taken with
      | (bindings, some slot) => .error ⟨.noSlot slot, bindings⟩
      | (bindings, none) => .ok { w with stack, bindings, bound := w.bound + count }

/-- Starts a block. A loop has to come back to the stack it starts with. -/
def enter (w : Walk) (block : Block) : Walk :=
  let stack := match block with
    | .cond => []
    | .loop => w.stack
  { w with blocks := { block, stack } :: w.blocks }

/-- Passes the test of the innermost block. A conditional has to come back to the stack after it. -/
def test (w : Walk) (op : Op) : Except Stop Walk :=
  match apply op w.stack with
  | .error v => w.fail v
  | .ok (_, stack) => match w.blocks with
    | [] => w.fail .strayTest
    | c :: outer => match c.block with
      | .cond => .ok { w with stack, blocks := { c with stack, tested := true } :: outer }
      | .loop => match checkBalanced "by the loop condition" c.stack stack with
        | .error v => w.fail v
        | .ok () => .ok { w with stack, blocks := { c with tested := true } :: outer }

def orElse (w : Walk) : Except Stop Walk :=
  match w.blocks with
  | [] => w.fail .strayElse
  | c :: outer =>
    if c.block = .cond ∧ c.tested then
      match checkBalanced "in the 'if' branch" c.stack w.stack with
      | .error v => w.fail v
      | .ok () => .ok { w with stack := c.stack, blocks := { c with inElse := true } :: outer }
    else
      w.fail .strayElse

def leave (w : Walk) : Except Stop Walk :=
  match w.blocks with
  | [] => w.fail .strayEnd
  | c :: outer => match checkBalanced c.context c.stack w.stack with
    | .error v => w.fail v
    | .ok () => .ok { w with blocks := outer }

def step (functions : List Function) (w : Walk) : Op → Except Stop Walk
  | .pushInt _ => w.goOn (push w.stack [.int])
  | .pushBool _ => w.goOn (push w.stack [.bool])
  | .pushChar _ => w.goOn (push w.stack [.byte])
  | .pushStr _ => w.goOn (push w.stack [.str])
  | .pushPtr _ => w.goOn (push w.stack [.ptr])
  | .pushBind slot => w.readSlot slot
  | .bind count => w.fillSlots count
  | .unbind count => .ok { w with bound := w.bound - count }
  | .enter block => .ok (w.enter block)
  | .branch target => w.test (.branch target)
  | .otherwise _ => w.orElse
  | .jump _ => .ok w
  | .leave _ => w.leave
  | .word name => w.fail (.unknownWord name)
  | .call entry => w.goOn (call functions entry w.stack)
  | op => w.goOn ((apply op w.stack).map (·.2))

/-- The code after a walk, its words resolved as far as the walk went, and how the walk ended. -/
structure Trace where
  code : List Instruction
  outcome : Except (Location × Stop) Walk

def run (functions : List Function) (w : Walk) : List Instruction → Trace
  | [] => ⟨[], .ok w⟩
  | i :: rest =>
    match resolve functions w.stack i.op with
    | .error v => ⟨i :: rest, .error (i.loc, ⟨v, w.bindings⟩)⟩
    | .ok op => match step functions w op with
      | .error stop => ⟨⟨i.loc, op⟩ :: rest, .error (i.loc, stop)⟩
      | .ok w =>
        let after := run functions w rest
        ⟨⟨i.loc, op⟩ :: after.code, after.outcome⟩

def endViolation? (w : Walk) (f : Function) : Option Violation :=
  if !w.blocks.isEmpty then some .openBlocks
  else if w.stack.length < f.rets.length then some (.missingResults f.name f.rets w.stack)
  else if f.rets.length < w.stack.length then some (.extraResults f.name f.rets w.stack)
  else
    let wrong := (f.rets.zip w.stack).find? fun (expected, found) =>
      expected.isConcrete && found.isConcrete && expected ≠ found
    wrong.map fun (expected, found) => .wrongResult f.name found expected f.rets w.stack

end Walk
end StackLang
