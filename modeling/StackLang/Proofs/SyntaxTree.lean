import Mathlib.Algebra.Group.Int.Defs
import Mathlib.Algebra.Group.Nat.Defs
import StackLang.Declaration

/-!
This module contains syntax trees of programs in one source: how they are printed as tokens, the
rules they have to keep, and the programs they stand for. Code is put together from the code of the
parts, and the targets of jumps are computed from the sizes of the parts.
-/

namespace StackLang

inductive Atom
  | int (value : Int64)
  | bool (value : Bool)
  | char (byte : UInt8)
  | str (text : String)
  | prim (p : Prim)
  | syscall (arity : Fin 7)
  | ident (name : String)

def Atom.token : Atom → Token
  | int n => .int n
  | bool b => .bool b
  | char c => .char c
  | str s => .str s
  | prim p => .prim p
  | syscall n => .syscall n
  | ident name => .ident name

/-- What stands between two parentheses, with the places of its tokens in the text. -/
inductive Phrase
  | nil
  | atom (loc : Location) (a : Atom) (rest : Phrase)
  | cast (loc typeLoc : Location) (type : TypeName) (rest : Phrase)
  | letIn (loc : Location) (first : Location × String) (others : List (Location × String))
      (inLoc : Location) (rest : Phrase)
  | cond (loc : Location) (pre : Phrase) (openLoc : Location) (first : Phrase)
      (closeLoc : Location) (rest : Phrase)
  | condElse (loc : Location) (pre : Phrase) (openLoc : Location) (first : Phrase)
      (elseLoc : Location) (second : Phrase) (closeLoc : Location) (rest : Phrase)
  | loop (loc : Location) (test : Phrase) (openLoc : Location) (body : Phrase)
      (closeLoc : Location) (rest : Phrase)

def printNames (names : List (Location × String)) : List Lexeme :=
  names.map fun (loc, name) => ⟨loc, .ident name⟩

/-- What names stand for at a place in a body, and the strings of the program so far. -/
structure Scope where
  globals : Program
  bound : List String
  texts : List String

def latest (name : String) : List String → Option Nat
  | [] => none
  | n :: names => match latest name names with
    | some i => some (i + 1)
    | none => if n = name then some 0 else none

def addText (texts : List String) (s : String) : List String :=
  if s ∈ texts then texts else texts ++ [s]

namespace Scope

def resolve (s : Scope) (name : String) : Op :=
  match latest name s.bound with
  | some slot => .pushBind slot
  | none => match s.globals.constants.find? (·.name = name) with
    | some constant => .pushInt constant.value
    | none => match s.globals.memories.findIdx? (·.name = name) with
      | some index => .pushPtr index
      | none => .word name

def bind (s : Scope) (names : List String) : Scope := { s with bound := s.bound ++ names }

end Scope

namespace Atom

def op (s : Scope) : Atom → Op
  | int n => .pushInt n
  | bool b => .pushBool b
  | char c => .pushChar c
  | str t => .pushStr ((addText s.texts t).idxOf t)
  | prim p => .prim p
  | syscall n => .syscall n.val.toUInt8
  | ident name => s.resolve name

def scope (s : Scope) : Atom → Scope
  | str t => { s with texts := addText s.texts t }
  | _ => s

end Atom

namespace Phrase

def print : Phrase → List Lexeme
  | nil => []
  | atom loc a rest => ⟨loc, a.token⟩ :: rest.print
  | cast loc typeLoc type rest => ⟨loc, .kwCast⟩ :: ⟨typeLoc, .type type⟩ :: rest.print
  | letIn loc first others inLoc rest =>
    ⟨loc, .kwLet⟩ :: (printNames (first :: others) ++ ⟨inLoc, .kwIn⟩ :: rest.print)
  | cond loc pre openLoc first closeLoc rest =>
    ⟨loc, .kwIf⟩ :: (pre.print ++ ⟨openLoc, .lparen⟩ :: (first.print ++
      ⟨closeLoc, .rparen⟩ :: rest.print))
  | condElse loc pre openLoc first elseLoc second closeLoc rest =>
    ⟨loc, .kwIf⟩ :: (pre.print ++ ⟨openLoc, .lparen⟩ :: (first.print ++
      ⟨elseLoc, .kwElse⟩ :: (second.print ++ ⟨closeLoc, .rparen⟩ :: rest.print)))
  | loop loc test openLoc body closeLoc rest =>
    ⟨loc, .kwLoop⟩ :: (test.print ++ ⟨openLoc, .lparen⟩ :: (body.print ++
      ⟨closeLoc, .rparen⟩ :: rest.print))

def size : Phrase → Nat
  | nil => 0
  | atom _ _ rest | cast _ _ _ rest | letIn _ _ _ _ rest => 1 + rest.size
  | cond _ pre _ first _ rest => 1 + pre.size + 1 + first.size + 1 + rest.size
  | condElse _ pre _ first _ second _ rest =>
    1 + pre.size + 1 + first.size + 1 + second.size + 1 + rest.size
  | loop _ test _ body _ rest => 1 + test.size + 1 + body.size + 2 + rest.size

/-- The scope after a phrase. Names that are bound inside a block stay bound after it. -/
def scope (s : Scope) : Phrase → Scope
  | nil => s
  | atom _ a rest => rest.scope (a.scope s)
  | cast _ _ _ rest => rest.scope s
  | letIn _ first others _ rest => rest.scope (s.bind ((first :: others).map (·.2)))
  | cond _ pre _ first _ rest => rest.scope (first.scope (pre.scope s))
  | condElse _ pre _ first _ second _ rest =>
    rest.scope (second.scope (first.scope (pre.scope s)))
  | loop _ test _ body _ rest => rest.scope (body.scope (test.scope s))

def code (s : Scope) (start : Nat) : Phrase → List Instruction
  | nil => []
  | atom loc a rest => ⟨loc, a.op s⟩ :: rest.code (a.scope s) (start + 1)
  | cast loc _ type rest => ⟨loc, .cast type.kind⟩ :: rest.code s (start + 1)
  | letIn loc first others _ rest =>
    let names := (first :: others).map (·.2)
    ⟨loc, .bind names.length⟩ :: rest.code (s.bind names) (start + 1)
  | cond loc pre openLoc first closeLoc rest =>
    let branch := start + 1 + pre.size
    let leave := branch + 1 + first.size
    ⟨loc, .enter .cond⟩ :: (pre.code s (start + 1) ++
      ⟨openLoc, .branch leave⟩ :: (first.code (pre.scope s) (branch + 1) ++
      ⟨closeLoc, .leave .cond⟩ :: rest.code (first.scope (pre.scope s)) (leave + 1)))
  | condElse loc pre openLoc first elseLoc second closeLoc rest =>
    let branch := start + 1 + pre.size
    let turn := branch + 1 + first.size
    let leave := turn + 1 + second.size
    ⟨loc, .enter .cond⟩ :: (pre.code s (start + 1) ++
      ⟨openLoc, .branch (turn + 1)⟩ :: (first.code (pre.scope s) (branch + 1) ++
      ⟨elseLoc, .otherwise leave⟩ :: (second.code (first.scope (pre.scope s)) (turn + 1) ++
      ⟨closeLoc, .leave .cond⟩ ::
        rest.code (second.scope (first.scope (pre.scope s))) (leave + 1))))
  | loop loc test openLoc body closeLoc rest =>
    let branch := start + 1 + test.size
    let back := branch + 1 + body.size
    ⟨loc, .enter .loop⟩ :: (test.code s (start + 1) ++
      ⟨openLoc, .branch (back + 1)⟩ :: (body.code (test.scope s) (branch + 1) ++
      ⟨closeLoc, .jump start⟩ :: ⟨closeLoc, .leave .loop⟩ ::
        rest.code (body.scope (test.scope s)) (back + 2)))

end Phrase

def slotsOf (names : List String) : List Binding :=
  names.zipIdx.map fun (name, index) => { name, index }

inductive Operand
  | int (value : Int64)
  | const (name : String)

namespace Operand

def print : Location × Operand → Lexeme
  | (loc, int n) => ⟨loc, .int n⟩
  | (loc, const name) => ⟨loc, .ident name⟩

def value? (p : Program) : Operand → Option Int
  | int n => some n.toInt
  | const name => (p.constants.find? (·.name = name)).map (·.value.toInt)

end Operand

inductive ConstExpr
  | operand (a : Location × Operand)
  | sum (a b : Location × Operand) (opLoc : Location)
  | product (a b : Location × Operand) (opLoc : Location)

namespace ConstExpr

def print : ConstExpr → List Lexeme
  | operand a => [Operand.print a]
  | sum a b opLoc => [Operand.print a, Operand.print b, ⟨opLoc, .prim .add⟩]
  | product a b opLoc => [Operand.print a, Operand.print b, ⟨opLoc, .prim .mul⟩]

/-- The exact value, if the constants it names are declared. -/
def value? (p : Program) : ConstExpr → Option Int
  | operand a => a.2.value? p
  | sum a b _ => (a.2.value? p).bind fun x => (b.2.value? p).map (x + ·)
  | product a b _ => (a.2.value? p).bind fun x => (b.2.value? p).map (x * ·)

end ConstExpr

inductive KindName
  | type (t : TypeName)
  | param (name : String)

namespace KindName

def print : Location × KindName → Lexeme
  | (loc, type t) => ⟨loc, .type t⟩
  | (loc, param name) => ⟨loc, .param name⟩

def kind : KindName → Kind
  | type t => t.kind
  | param name => .param name

end KindName

inductive Decl
  | const (loc : Location) (name : Location × String) (value : ConstExpr)
  | var (loc : Location) (name : Location × String) (size : Location × Operand)
  | fn (loc : Location) (overload : Bool) (name : Location × String)
      (args : List (Location × KindName))
      (rets : Option (Location × List (Location × KindName)))
      (openLoc : Location) (body : Phrase) (closeLoc : Location)

namespace Decl

def printRets : Option (Location × List (Location × KindName)) → List Lexeme
  | none => []
  | some (arrowLoc, kinds) => ⟨arrowLoc, .arrow⟩ :: kinds.map KindName.print

def print : Decl → List Lexeme
  | const loc name value => ⟨loc, .decl .const⟩ :: ⟨name.1, .ident name.2⟩ :: value.print
  | var loc name size =>
    [⟨loc, .decl .var⟩, ⟨name.1, .ident name.2⟩, Operand.print size]
  | fn loc overload name args rets openLoc body closeLoc =>
    ⟨loc, .decl (if overload then .fnOverload else .fn)⟩ :: ⟨name.1, .ident name.2⟩ ::
      (args.map KindName.print ++ (printRets rets ++
        ⟨openLoc, .lparen⟩ :: (body.print ++ [⟨closeLoc, .rparen⟩])))

def function (p : Program) (overload : Bool) (name : Location × String)
    (args : List (Location × KindName)) (rets : Option (Location × List (Location × KindName)))
    (body : Phrase) (closeLoc : Location) : Function :=
  let s : Scope := ⟨p, [], p.strings⟩
  let bound := (body.scope s).bound
  { name := name.2
    entry := p.functions.length
    loc := name.1
    args := args.map (·.2.kind)
    rets := (rets.map (·.2.map (·.2.kind))).getD []
    overload
    code := body.code s 0 ++ if bound.isEmpty then [] else [⟨closeLoc, .unbind bound.length⟩]
    bindings := slotsOf bound }

def extend (p : Program) : Decl → Program
  | const _ name value =>
    { p with constants := p.constants ++
        [⟨name.2, Int64.ofInt ((value.value? p).getD 0), name.1⟩] }
  | var _ name size =>
    { p with memories := p.memories ++ [⟨name.2, ((size.2.value? p).getD 0).toNat, name.1⟩] }
  | fn _ overload name args rets _ body closeLoc =>
    { p with
      functions := p.functions ++ [function p overload name args rets body closeLoc]
      strings := (body.scope ⟨p, [], p.strings⟩).texts }

def Unused (p : Program) (name : String) : Prop :=
  (∀ c ∈ p.constants, c.name ≠ name) ∧ ∀ m ∈ p.memories, m.name ≠ name

instance (p : Program) (name : String) : Decidable (Unused p name) :=
  inferInstanceAs (Decidable (_ ∧ _))

def Admissible (p : Program) : Decl → Prop
  | const _ name value =>
    Unused p name.2 ∧ (∀ f ∈ p.functions, f.name ≠ name.2) ∧
      ∃ v ∈ value.value? p, -2 ^ 63 ≤ v ∧ v < 2 ^ 63
  | var _ name size =>
    Unused p name.2 ∧ (∀ f ∈ p.functions, f.name ≠ name.2) ∧
      ∃ n ∈ size.2.value? p, 0 < n
  | fn _ overload name _ _ _ _ _ =>
    Unused p name.2 ∧ ∀ f ∈ p.functions, f.name = name.2 →
      name.2 ≠ "main" ∧ overload = true ∧ f.overload = true

instance (p : Program) : (d : Decl) → Decidable (d.Admissible p)
  | const .. => inferInstanceAs (Decidable (_ ∧ _ ∧ ∃ v ∈ _, _))
  | var .. => inferInstanceAs (Decidable (_ ∧ _ ∧ ∃ n ∈ _, _))
  | fn .. => inferInstanceAs (Decidable (_ ∧ ∀ f ∈ p.functions, _))

def printAll (decls : List Decl) : List Lexeme := decls.flatMap print

def extendAll (p : Program) (decls : List Decl) : Program := decls.foldl extend p

def AllAdmissible : Program → List Decl → Prop
  | _, [] => True
  | p, d :: ds => d.Admissible p ∧ AllAdmissible (d.extend p) ds

instance : (p : Program) → (decls : List Decl) → Decidable (AllAdmissible p decls)
  | _, [] => inferInstanceAs (Decidable True)
  | p, d :: ds =>
    have := instDecidableAllAdmissible (d.extend p) ds
    inferInstanceAs (Decidable (d.Admissible p ∧ AllAdmissible (d.extend p) ds))

end Decl
end StackLang
