import StackLang.Location
import StackLang.Text
import StackLang.Token

/-!
This module contains the lexer. A text is cut into gaps (blanks and comments) and lexemes; each
lexeme is a token or a fault. A faulty lexeme does not stop the scan, so that every fault of a text
is found in one pass.
-/

namespace StackLang

structure Lexeme where
  loc : Location
  token : Token
deriving DecidableEq

inductive LexicalFault
  | newlineInString
  | unclosedString
  | unclosedChar
  | emptyChar
  | wideChar (content : String)
  | namelessParam
  | intRange (digits : String)
deriving DecidableEq

def LexicalFault.message : LexicalFault → String
  | newlineInString => "unterminated string (newline before closing quote)"
  | unclosedString => "unterminated string literal"
  | unclosedChar => "unterminated character literal"
  | emptyChar => "empty character literal"
  | wideChar content => s!"character literal '{content}' must be exactly one byte"
  | namelessParam => "expected a type parameter name after '$'"
  | intRange digits => s!"integer literal {digits} is out of range"

namespace Lexeme

/-- Characters that end a word even without a blank. -/
def isPunctuation (c : Char) : Bool := c = '(' || c = ')' || c = '"' || c = '\''

def isWordChar (c : Char) : Bool := !Text.isBlank c && !isPunctuation c

/--
The gap at the front of a text, and what follows it. A comment runs from two slashes to the end of
the line; `inComment` tells that one is open.
-/
def gap : Bool → List Char → List Char × List Char
  | _, [] => ([], [])
  | true, c :: cs =>
    let (g, rest) := gap (c ≠ '\n') cs
    (c :: g, rest)
  | false, '/' :: '/' :: cs =>
    let (g, rest) := gap true cs
    ('/' :: '/' :: g, rest)
  | false, c :: cs =>
    if Text.isBlank c then
      let (g, rest) := gap false cs
      (c :: g, rest)
    else
      ([], c :: cs)

structure Cut where
  outcome : Except LexicalFault Token
  taken : List Char
  rest : List Char

inductive Ending
  | quote | newline | endOfText

structure Content where
  chars : List Char
  taken : List Char
  rest : List Char
  ending : Ending

/-- The characters that a backslash and `c` stand for. Unknown escapes stand for themselves. -/
def unescape (c : Char) : List Char :=
  if c = 'n' then ['\n']
  else if c = 't' then ['\t']
  else if c = 'e' then ['\x1b']
  else if c = '"' then ['"']
  else if c = '\\' then ['\\']
  else if c = '0' then ['\x00']
  else ['\\', c]

/-- Reads up to the closing `quote`, which is taken, or to the end of the line, which is not. -/
def content (quote : Char) : List Char → Content
  | [] => ⟨[], [], [], .endOfText⟩
  | ['\\'] => ⟨['\\'], ['\\'], [], .endOfText⟩
  | '\\' :: c :: cs =>
    let r := content quote cs
    ⟨unescape c ++ r.chars, '\\' :: c :: r.taken, r.rest, r.ending⟩
  | c :: cs =>
    if c = quote then ⟨[], [c], cs, .quote⟩
    else if c = '\n' then ⟨[], [], c :: cs, .newline⟩
    else
      let r := content quote cs
      ⟨c :: r.chars, c :: r.taken, r.rest, r.ending⟩

def cutString (cs : List Char) : Cut :=
  let r := content '"' cs
  let outcome := match r.ending with
    | .quote => .ok (.str (String.ofList r.chars))
    | .newline => .error .newlineInString
    | .endOfText => .error .unclosedString
  ⟨outcome, '"' :: r.taken, r.rest⟩

def charToken (chars : List Char) : Except LexicalFault Token :=
  match chars with
  | [] => .error .emptyChar
  | [c] => if c.toNat < 128 then .ok (.char c.toNat.toUInt8) else .error (.wideChar c.toString)
  | _ => .error (.wideChar (String.ofList chars))

def cutChar (cs : List Char) : Cut :=
  let r := content '\'' cs
  let outcome := match r.ending with
    | .quote => charToken r.chars
    | .newline | .endOfText => .error .unclosedChar
  ⟨outcome, '\'' :: r.taken, r.rest⟩

/-- A type parameter; `cs` follows the dollar sign. Its name runs to the next blank. -/
def cutParam (cs : List Char) : Cut :=
  let name := cs.takeWhile (!Text.isBlank ·)
  let outcome := if name.isEmpty then .error .namelessParam else .ok (.param (String.ofList name))
  ⟨outcome, '$' :: name, cs.dropWhile (!Text.isBlank ·)⟩

/-- What a word that starts with a digit denotes. Digits alone are a literal. -/
def digitWordToken (word : List Char) : Except LexicalFault Token :=
  if word.all Text.isDigit then
    match Text.readDigits? word with
    | some n => .ok (.int n)
    | none => .error (.intRange (String.ofList word))
  else
    let name := String.ofList word
    .ok ((Token.ofWord? name).getD (.ident name))

/-- What any other word denotes: a reserved word, a negative literal or a name. -/
def wordToken (word : List Char) : Token :=
  let name := String.ofList word
  match Token.ofWord? name with
  | some t => t
  | none => match Text.readNumeral? word with
    | some n => .int n
    | none => .ident name

/-- A word. The first character belongs to it whatever it is. -/
def cutWord (c : Char) (cs : List Char) : Cut :=
  let word := c :: cs.takeWhile isWordChar
  let outcome := if Text.isDigit c then digitWordToken word else .ok (wordToken word)
  ⟨outcome, word, cs.dropWhile isWordChar⟩

def cut (c : Char) (cs : List Char) : Cut :=
  if c = '(' then ⟨.ok .lparen, [c], cs⟩
  else if c = ')' then ⟨.ok .rparen, [c], cs⟩
  else if c = '"' then cutString cs
  else if c = '\'' then cutChar cs
  else if c = '$' then cutParam cs
  else cutWord c cs

theorem gap_append (b : Bool) (cs : List Char) : (gap b cs).1 ++ (gap b cs).2 = cs := by
  fun_induction gap b cs <;> simp_all

theorem content_append (quote : Char) (cs : List Char) :
    (content quote cs).taken ++ (content quote cs).rest = cs := by
  fun_induction content quote cs <;> simp_all +zetaDelta

theorem cut_append (c : Char) (cs : List Char) : (cut c cs).taken ++ (cut c cs).rest = c :: cs := by
  unfold cut
  split
  · simp
  split
  · simp
  split
  · simp_all [cutString, content_append]
  split
  · simp_all [cutChar, content_append]
  split
  · simp_all [cutParam]
  · simp [cutWord]

theorem cut_taken_ne_nil (c : Char) (cs : List Char) : (cut c cs).taken ≠ [] := by
  unfold cut
  split
  · simp
  split
  · simp
  split
  · simp [cutString]
  split
  · simp [cutChar]
  split
  · simp [cutParam]
  · simp [cutWord]

theorem length_cut_rest_lt (c : Char) (cs : List Char) :
    (cut c cs).rest.length < (c :: cs).length := by
  rw [← cut_append c cs, List.length_append]
  have := List.length_pos_iff.mpr (cut_taken_ne_nil c cs)
  omega

theorem length_gap_le (b : Bool) (cs : List Char) : (gap b cs).2.length ≤ cs.length := by
  have := congrArg List.length (gap_append b cs)
  rw [List.length_append] at this
  omega

end Lexeme

structure Scan where
  found : List (Location × Except LexicalFault Token)
  stop : Location

def Scan.run (loc : Location) (cs : List Char) : Scan :=
  match h : Lexeme.gap false cs with
  | (g, []) => ⟨[], loc.advance g⟩
  | (g, c :: rest) =>
    have : (Lexeme.cut c rest).rest.length < cs.length := by
      have hgap := Lexeme.length_gap_le false cs
      rw [h] at hgap
      exact Nat.lt_of_lt_of_le (Lexeme.length_cut_rest_lt c rest) hgap
    let start := loc.advance g
    let lexeme := Lexeme.cut c rest
    let after := Scan.run (start.advance lexeme.taken) lexeme.rest
    ⟨(start, lexeme.outcome) :: after.found, after.stop⟩
termination_by cs.length

structure LexicalError where
  loc : Location
  fault : LexicalFault
deriving DecidableEq

structure TokenStream where
  lexemes : List Lexeme
  stop : Location

namespace Scan

def errors (s : Scan) : List LexicalError :=
  s.found.filterMap fun
    | (loc, .error fault) => some ⟨loc, fault⟩
    | (_, .ok _) => none

def lexemes (s : Scan) : List Lexeme :=
  s.found.filterMap fun
    | (loc, .ok token) => some ⟨loc, token⟩
    | (_, .error _) => none

end Scan

namespace TokenStream

/-- Scans the text of a file. The result is every fault, or the tokens if there is none. -/
def ofText (file text : String) : Except (List LexicalError) TokenStream :=
  let scan := Scan.run (Location.start file) text.toList
  if scan.errors.isEmpty then .ok ⟨scan.lexemes, scan.stop⟩ else .error scan.errors

def toList (s : TokenStream) : List Lexeme := s.lexemes ++ [⟨s.stop, .eof⟩]

end TokenStream
end StackLang
