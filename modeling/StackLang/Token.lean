import StackLang.Kind
import StackLang.Prim
import StackLang.Text

/-!
This module contains the tokens of the language and the table of its reserved words.
-/

namespace StackLang

inductive Declarator
  | fn
  /-- A function that may share its name with other functions of this sort. -/
  | fnOverload
  | const
  | var
  | usingFile
deriving DecidableEq

inductive TypeName
  | int | bool | byte | ptr | str | any
deriving DecidableEq

namespace Declarator

def all : List Declarator := [fn, fnOverload, const, var, usingFile]

def spelling : Declarator → String
  | fn => "fn"
  | fnOverload => "fn*"
  | const => "const"
  | var => "var"
  | usingFile => "using"

end Declarator

namespace TypeName

def all : List TypeName := [int, bool, byte, ptr, str, any]

def kind : TypeName → Kind
  | int => .int
  | bool => .bool
  | byte => .byte
  | ptr => .ptr
  | str => .str
  | any => .any

def spelling (t : TypeName) : String := t.kind.render

end TypeName

inductive Token
  | int (value : Int64)
  | str (text : String)
  | char (byte : UInt8)
  | bool (value : Bool)
  | param (name : String)
  | ident (name : String)
  | prim (p : Prim)
  /-- A system call with this many arguments below its number. -/
  | syscall (arity : Fin 7)
  | kwCast
  | kwIf
  | kwElse
  | kwLoop
  | kwLet
  | kwIn
  | decl (d : Declarator)
  | type (t : TypeName)
  | lparen
  | rparen
  | arrow
  | eof
deriving DecidableEq

namespace Token

/-- The token as written in a program, with string and character literals quoted for display. -/
def spelling : Token → String
  | int n => toString n.toInt
  | str s => Text.quoted s
  | char b => Text.quotedByte b
  | bool b => toString b
  | param name => "$" ++ name
  | ident name => name
  | prim p => p.spelling
  | syscall n => "syscall" ++ toString n.val
  | kwCast => "cast"
  | kwIf => "if"
  | kwElse => "else"
  | kwLoop => "loop"
  | kwLet => "let"
  | kwIn => "in"
  | decl d => d.spelling
  | type t => t.spelling
  | lparen => "("
  | rparen => ")"
  | arrow => "->"
  | eof => "EOF"

/-- Every token that is a word of its own rather than a literal, a name or a parenthesis. -/
def reserved : List Token :=
  [bool true, bool false] ++ Prim.all.map prim ++ (List.finRange 7).map syscall ++
  [kwCast, kwIf, kwElse, kwLoop, kwLet, kwIn] ++ Declarator.all.map decl ++
  TypeName.all.map type ++ [arrow]

def ofWord? (word : String) : Option Token := reserved.find? (·.spelling = word)

def isDeclarator : Token → Bool
  | decl _ => true
  | _ => false

def kind? : Token → Option Kind
  | type t => some t.kind
  | param name => some (.param name)
  | _ => none

end Token
end StackLang
