import StackLang.Lexeme
import StackLang.Text

/-!
This module contains the printed form of a token stream: one line per token with its position, its
class and its spelling, in colour if wanted.
-/

namespace StackLang

inductive TokenClass
  | declaration | type | param | paren | arrow | arithmetic | comparison
  | int | str | char | bool | ident | keyword | eof
deriving DecidableEq

namespace TokenClass

def label : TokenClass → String
  | declaration => "DECL"
  | type => "TYPE"
  | param => "PARAM"
  | paren => "PAREN"
  | arrow => "ARROW"
  | arithmetic => "OP"
  | comparison => "CMP"
  | int => "INT"
  | str => "STRING"
  | char => "CHAR"
  | bool => "BOOL"
  | ident => "IDENT"
  | keyword => "KEYWORD"
  | eof => "EOF"

def color? : TokenClass → Option Nat
  | declaration => some 34
  | type | param | ident => some 33
  | arithmetic | comparison => some 35
  | int | bool => some 36
  | str | char => some 32
  | eof => some 2
  | paren | arrow | keyword => none

end TokenClass

def Prim.tokenClass : Prim → TokenClass
  | add | sub | mul | div | mod => .arithmetic
  | eq | ne | lt | gt | le | ge => .comparison
  | _ => .keyword

def Prim.tag : Prim → String
  | add => "Plus" | sub => "Minus" | mul => "Star" | div => "Slash" | mod => "Percent"
  | eq => "Eq" | ne => "NotEq" | lt => "Lt" | gt => "Gt" | le => "LtEq" | ge => "GtEq"
  | and => "And" | or => "Or" | not => "Not"
  | dup => "Dup" | drop => "Drop" | swap => "Swap" | peek => "Over" | rot => "Rot"
  | load => "Load" | load8 => "Load8" | store => "Store" | store8 => "Store8"

namespace Token

def tokenClass : Token → TokenClass
  | int _ => .int
  | str _ => .str
  | char _ => .char
  | bool _ => .bool
  | param _ => .param
  | ident _ => .ident
  | prim p => p.tokenClass
  | syscall _ | kwCast | kwIf | kwElse | kwLoop | kwLet | kwIn => .keyword
  | decl _ => .declaration
  | type _ => .type
  | lparen | rparen => .paren
  | arrow => .arrow
  | eof => .eof

def structural : Token → String
  | int n => s!"Int({n.toInt})"
  | str s => s!"Str({Text.quoted s})"
  | char b => s!"Char({b.toNat})"
  | bool b => s!"Bool({b})"
  | param name => s!"Param({Text.quoted name})"
  | ident name => s!"Ident({Text.quoted name})"
  | prim p => p.tag
  | syscall n => s!"Syscall({n.val})"
  | kwCast => "Cast"
  | kwIf => "If"
  | kwElse => "Else"
  | kwLoop => "Loop"
  | kwLet => "Let"
  | kwIn => "In"
  | decl .fn => "Fn"
  | decl .fnOverload => "FnPoly"
  | decl .const => "Const"
  | decl .var => "Var"
  | decl .usingFile => "Using"
  | type .int => "TyInt"
  | type .bool => "TyBool"
  | type .byte => "TyByte"
  | type .ptr => "TyPtr"
  | type .str => "TyStr"
  | type .any => "TyAny"
  | lparen => "LParen"
  | rparen => "RParen"
  | arrow => "Arrow"
  | eof => "Eof"

end Token

structure TokenDump where
  color : Bool := true
  /-- Whether tokens are spelled as in a program rather than in their structural form. -/
  pretty : Bool := false

namespace TokenDump

def spelling (d : TokenDump) (t : Token) : String :=
  if d.pretty then (if t = .eof then "<eof>" else t.spelling) else t.structural

def line (d : TokenDump) (l : Lexeme) : String :=
  let tokenClass := l.token.tokenClass
  let text := Text.padRight 8 tokenClass.label ++ " " ++ d.spelling l.token
  let shown := match d.color, tokenClass.color? with
    | true, some n => s!"\x1b[{n}m{text}\x1b[0m"
    | _, _ => text
  s!"[{Text.zeroPadded 2 l.loc.line}:{Text.zeroPadded 2 l.loc.col}] {shown}\n"

def render (d : TokenDump) (lexemes : List Lexeme) : String :=
  String.join (lexemes.map d.line)

end TokenDump
end StackLang
