import Mathlib.Algebra.Group.Int.Defs
import Mathlib.Algebra.Group.Nat.Defs
import StackLang.Assembly.Lower

/-!
This module contains the machine that the intermediate representation describes: an operand stack
of cells, a memory, and activations of functions with their binding slots. It also contains runs,
which machines of every kind have: sequences of steps that system calls interrupt.
-/

namespace StackLang

abbrev Word := BitVec 64

abbrev Byte := BitVec 8

abbrev Store := Word → Byte

namespace Store

/-- The word at an address, its lowest byte first. -/
def readWord (m : Store) (a : Word) : Word :=
  m (a + 7) ++ m (a + 6) ++ m (a + 5) ++ m (a + 4) ++ m (a + 3) ++ m (a + 2) ++ m (a + 1) ++ m a

def writeWord (m : Store) (a : Word) (v : Word) : Store := fun x =>
  if (x - a).toNat < 8 then v.extractLsb' (8 * (x - a).toNat) 8 else m x

def writeByte (m : Store) (a : Word) (v : Byte) : Store := fun x => if x = a then v else m x

def replace (m : Store) (at? : Word → Bool) (m' : Store) : Store := fun x =>
  if at? x then m' x else m x

end Store

namespace Word

def ofBool (b : Bool) : Word := if b then 1 else 0

/--
The quotient rounded toward zero and the remainder, if there is a quotient and it is a signed
word.
-/
def divide? (a b : Word) : Option (Word × Word) :=
  let quotient := a.toInt.tdiv b.toInt
  if b = 0 ∨ quotient < -2 ^ 63 ∨ 2 ^ 63 ≤ quotient then none
  else some (BitVec.ofInt 64 quotient, BitVec.ofInt 64 (a.toInt.tmod b.toInt))

end Word

structure SystemCall where
  number : Word
  args : List Word

/-- What comes back: a result, another memory, and whatever is left in two registers. -/
structure Reply where
  result : Word
  memory : Store
  rcx : Word
  r11 : Word

inductive Outcome (σ φ : Type)
  | next (state : σ)
  | ask (request : SystemCall) (resume : Reply → σ)
  | halt
  | fault (why : φ)

/--
Runs of a machine with the requests and replies on the way. All states after the first satisfy
`ok`.
-/
inductive Run {σ φ : Type} (step : σ → Outcome σ φ) (ok : σ → Prop) (start : σ) :
    List (SystemCall × Reply) → σ → Prop
  | refl : Run step ok start [] start
  | next {trace s s'} (hrun : Run step ok start trace s) (hstep : step s = .next s')
      (hok : ok s') : Run step ok start trace s'
  | ask {trace s request resume} (hrun : Run step ok start trace s)
      (hstep : step s = .ask request resume) (reply : Reply) (hok : ok (resume reply)) :
      Run step ok start (trace ++ [(request, reply)]) (resume reply)

theorem Run.trans {σ φ : Type} {step : σ → Outcome σ φ} {ok : σ → Prop} {a b c : σ}
    {trace trace' : List (SystemCall × Reply)} (h : Run step ok a trace b)
    (h' : Run step ok b trace' c) : Run step ok a (trace ++ trace') c := by
  induction h' with
  | refl =>
    rw [List.append_nil]
    exact h
  | next _ hstep hok ih => exact Run.next ih hstep hok
  | ask _ hstep reply hok ih =>
    rw [← List.append_assoc]
    exact Run.ask ih hstep reply hok

def Outcome.All {σ φ : Type} (o : Outcome σ φ) (post : σ → Prop) : Prop :=
  match o with
  | .next s => post s
  | .ask _ resume => ∀ reply, post (resume reply)
  | .halt | .fault _ => True

theorem Outcome.All.mono {σ φ : Type} {o : Outcome σ φ} {post post' : σ → Prop} (h : o.All post)
    (himp : ∀ s, post s → post' s) : o.All post' := by
  cases o with
  | next s => exact himp s h
  | ask request resume => exact fun reply => himp _ (h reply)
  | halt => trivial
  | fault why => trivial

theorem Run.invariant {σ φ : Type} {step : σ → Outcome σ φ} {ok inv : σ → Prop} {a b : σ}
    {trace : List (SystemCall × Reply)} (h : Run step ok a trace b) (ha : inv a)
    (hstep : ∀ s, inv s → (step s).All fun s' => ok s' → inv s') : inv b := by
  induction h with
  | refl => exact ha
  | @next _ s _ _ heq hok ih =>
    have := hstep s ih
    rw [heq] at this
    exact this hok
  | @ask _ s _ _ _ heq reply hok ih =>
    have := hstep s ih
    rw [heq] at this
    exact this reply hok

def Op.isLocal : Op → Bool
  | branch _ | otherwise _ | jump _ | call _ | syscall _ => false
  | _ => true

namespace Machine

inductive Fault
  | underflow
  | slot
  /-- A jump leads out of the function. -/
  | target
  | callee
  | word
  | division
  /-- An address is not the program's. -/
  | access
deriving DecidableEq

structure Env where
  str : Nat → Word
  mem : Nat → Word
  data : Word → Bool

def Env.wordAt (env : Env) (a : Word) : Bool :=
  (List.range 8).all fun k => env.data (a + BitVec.ofNat 64 k)

/-- The operands with the top one first, and the memory. -/
abbrev Operands := List Word × Store

def binary (f : Word → Word → Word) (m : Store) : List Word → Except Fault Operands
  | b :: a :: s => .ok (f a b :: s, m)
  | _ => .error .underflow

def compare (f : Word → Word → Bool) : Store → List Word → Except Fault Operands :=
  binary fun a b => Word.ofBool (f a b)

def divide (result : Word × Word → Word) (m : Store) : List Word → Except Fault Operands
  | b :: a :: s => match Word.divide? a b with
    | some r => .ok (result r :: s, m)
    | none => .error .division
  | _ => .error .underflow

def prim (env : Env) (m : Store) : Prim → List Word → Except Fault Operands
  | .add => binary (· + ·) m
  | .sub => binary (· - ·) m
  | .mul => binary (· * ·) m
  | .and => binary (· &&& ·) m
  | .or => binary (· ||| ·) m
  | .eq => compare (fun a b => a = b) m
  | .ne => compare (fun a b => a ≠ b) m
  | .lt => compare BitVec.slt m
  | .gt => compare (fun a b => b.slt a) m
  | .le => compare BitVec.sle m
  | .ge => compare (fun a b => b.sle a) m
  | .div => divide (·.1) m
  | .mod => divide (·.2) m
  | .not => fun
    | a :: s => .ok ((a ^^^ 1) :: s, m)
    | _ => .error .underflow
  | .dup => fun
    | a :: s => .ok (a :: a :: s, m)
    | _ => .error .underflow
  | .drop => fun
    | _ :: s => .ok (s, m)
    | _ => .error .underflow
  | .swap => fun
    | b :: a :: s => .ok (a :: b :: s, m)
    | _ => .error .underflow
  | .peek => fun
    | b :: a :: s => .ok (a :: b :: a :: s, m)
    | _ => .error .underflow
  | .rot => fun
    | c :: b :: a :: s => .ok (a :: c :: b :: s, m)
    | _ => .error .underflow
  | .load => fun
    | a :: s => if env.wordAt a then .ok (m.readWord a :: s, m) else .error .access
    | _ => .error .underflow
  | .load8 => fun
    | i :: a :: s =>
      if env.data (a + i) then .ok ((m (a + i)).setWidth 64 :: s, m) else .error .access
    | _ => .error .underflow
  | .store => fun
    | a :: v :: s => if env.wordAt a then .ok (s, m.writeWord a v) else .error .access
    | _ => .error .underflow
  | .store8 => fun
    | i :: a :: v :: s =>
      if env.data (a + i) then .ok (s, m.writeByte (a + i) (v.setWidth 8)) else .error .access
    | _ => .error .underflow

structure Local where
  /-- The operands, the top one first. -/
  stack : List Word
  /-- The filled binding slots, the oldest first. -/
  slots : List Word
  memory : Store

def Local.push (s : Local) (v : Word) : Local := { s with stack := v :: s.stack }

def exec (env : Env) (s : Local) : Op → Except Fault Local
  | .pushInt n => .ok (s.push n.toBitVec)
  | .pushBool b => .ok (s.push (Word.ofBool b))
  | .pushChar b => .ok (s.push (b.toBitVec.setWidth 64))
  | .pushStr index => .ok (s.push (env.str index))
  | .pushPtr index => .ok (s.push (env.mem index))
  | .pushBind slot => match s.slots[slot]? with
    | none => .error .slot
    | some v => .ok (s.push v)
  | .prim p => match prim env s.memory p s.stack with
    | .error why => .error why
    | .ok (stack, memory) => .ok { s with stack, memory }
  | .cast _ => if s.stack.isEmpty then .error .underflow else .ok s
  | .bind count =>
    if s.stack.length < count then .error .underflow
    else .ok { s with
      stack := s.stack.drop count
      slots := s.slots ++ (s.stack.take count).reverse }
  | .unbind count =>
    if s.slots.length < count then .error .slot
    else .ok { s with slots := s.slots.take (s.slots.length - count) }
  | .word _ => .error .word
  | _ => .ok s

structure Activation where
  entry : Nat
  ip : Nat
  slots : List Word
  /-- What the caller has left on the operand stack below the arguments. -/
  rest : List Word

structure Config where
  stack : List Word
  frames : List Activation
  memory : Store

def Config.goTo (c : Config) (f : Activation) (ip : Nat) (callers : List Activation) : Config :=
  { c with frames := { f with ip } :: callers }

def jump (c : Config) (g : Function) (f : Activation) (target : Nat) (callers : List Activation) :
    Outcome Config Fault :=
  if target < g.code.length then .next (c.goTo f target callers) else .fault .target

def perform (p : Program) (env : Env) (c : Config) (g : Function) (f : Activation)
    (callers : List Activation) : Op → Outcome Config Fault
  | .branch target => match c.stack with
    | [] => .fault .underflow
    | v :: stack =>
      let c := { c with stack }
      if v = 0 then jump c g f target callers else .next (c.goTo f (f.ip + 1) callers)
  | .otherwise target | .jump target => jump c g f target callers
  | .call entry => match p.functions[entry]? with
    | none => .fault .callee
    | some callee =>
      if c.stack.length < callee.args.length then .fault .underflow
      else
        let rest := c.stack.drop callee.args.length
        let c := c.goTo f (f.ip + 1) callers
        .next { c with frames := ⟨entry, 0, [], rest⟩ :: c.frames }
  | .syscall arity => match c.stack with
    | [] => .fault .underflow
    | number :: stack =>
      if stack.length < arity.toNat then .fault .underflow
      else .ask ⟨number, stack.take arity.toNat⟩ fun reply =>
        { c.goTo f (f.ip + 1) callers with
          stack := reply.result :: stack.drop arity.toNat
          memory := c.memory.replace env.data reply.memory }
  | op => match exec env ⟨c.stack, f.slots, c.memory⟩ op with
    | .error why => .fault why
    | .ok s => .next ⟨s.stack, { f with ip := f.ip + 1, slots := s.slots } :: callers, s.memory⟩

theorem perform_of_isLocal {op : Op} (h : op.isLocal = true) (p : Program) (env : Env) (c : Config)
    (g : Function) (f : Activation) (callers : List Activation) :
    perform p env c g f callers op =
      match exec env ⟨c.stack, f.slots, c.memory⟩ op with
      | .error why => .fault why
      | .ok s =>
        .next ⟨s.stack, { f with ip := f.ip + 1, slots := s.slots } :: callers, s.memory⟩ := by
  cases op with
  | branch _ | otherwise _ | jump _ | call _ | syscall _ => simp [Op.isLocal] at h
  | _ => rfl

/-- A function whose code ends returns, and a program without activations ends. -/
def step (p : Program) (env : Env) (c : Config) : Outcome Config Fault :=
  match c.frames with
  | [] => .halt
  | f :: callers => match p.functions[f.entry]? with
    | none => .fault .callee
    | some g => match g.code[f.ip]? with
      | some i => perform p env c g f callers i.op
      | none => if f.ip = g.code.length then .next { c with frames := callers } else .fault .target

def Config.initial (main : Nat) (memory : Store) : Config := ⟨[], [⟨main, 0, [], []⟩], memory⟩

end Machine
end StackLang
