import StackLang.Lexeme
import StackLang.Op
import StackLang.Source

/-!
This module contains what can be wrong with the text of a program, and how it is worded.
-/

namespace StackLang

inductive SyntaxFault
  | lexical (fault : LexicalFault)
  | source (error : SourceError)
  | expectedDeclaration (found : Token)
  | expectedName (after : Declarator) (found : Token)
  | unknownConstant (name : String)
  | expectedOperand (found : Token)
  | unsupportedOperator (found : Token)
  | constantOverflow (name : String)
  | constantTooComplex (name : String)
  | expectedSize (name : String) (found : Token)
  | sizeNotPositive (name : String)
  | expectedFile (found : Token)
  | definedAsFunction (name : String)
  | definedAsConstant (name : String) (previous : Location)
  | definedAsMemory (name : String) (previous : Location)
  | duplicateMain (first : Location)
  | duplicateFunction (name : String) (conflict : Location)
  | unknownType (found : Token)
  | expectedBody (name : String) (found : Token)
  | unclosedBody (name : String)
  | declarationInBody (found : Declarator) (name : String)
  | unclosedBlock (block : Block)
  | missingTest (block : Block)
  | strayParen
  | strayElse
  | secondElse
  | strayIn
  | castToParam
  | expectedType (found : Token)
  | expectedBinding (found : Token)
  | emptyLet
  | unexpectedToken (found : Token) (name : String)
  | unknownWord (name : String)
  /-- A fault that its reporter has worded. -/
  | stated (message : String) (hint : Option String)
deriving DecidableEq

namespace SyntaxFault

def message : SyntaxFault → String
  | lexical fault => fault.message
  | source error => error.message
  | expectedDeclaration found =>
    s!"expected a declaration ('fn', 'const', 'var' or 'using'), found '{found.spelling}'"
  | expectedName after found =>
    s!"expected a name after '{after.spelling}', found '{found.spelling}'"
  | unknownConstant name => s!"unknown constant '{name}'"
  | expectedOperand found => s!"expected an integer or constant, found '{found.spelling}'"
  | unsupportedOperator found =>
    s!"unsupported operator '{found.spelling}' in constant expression"
  | constantOverflow name => s!"constant '{name}' overflows"
  | constantTooComplex name => s!"constant expression for '{name}' is too complex"
  | expectedSize name found => s!"expected a size for '{name}', found '{found.spelling}'"
  | sizeNotPositive name => s!"size of '{name}' must be positive"
  | expectedFile found => s!"expected a file name after 'using', found '{found.spelling}'"
  | definedAsFunction name => s!"'{name}' is already defined as a function"
  | definedAsConstant name _ => s!"'{name}' is already defined as a constant"
  | definedAsMemory name _ => s!"'{name}' is already defined as a memory"
  | duplicateMain _ => "duplicate definition of 'main'"
  | duplicateFunction name _ => s!"'{name}' is already defined"
  | unknownType found => s!"unknown type name '{found.spelling}'"
  | expectedBody name found =>
    s!"expected '(' to open the body of '{name}', found '{found.spelling}'"
  | unclosedBody name => s!"unexpected end of input, expected ')' to close '{name}'"
  | declarationInBody found name => s!"unexpected '{found.spelling}' inside '{name}'"
  | unclosedBlock block => s!"unclosed '{block.word}'"
  | missingTest block => s!"expected '(' after '{block.word}'"
  | strayParen => "unexpected '(' (only 'if' and 'loop' open a block)"
  | strayElse => "'else' without 'if'"
  | secondElse => "'if' already has an 'else'"
  | strayIn => "'in' without 'let'"
  | castToParam => "cannot cast to a type parameter"
  | expectedType found => s!"expected a type after 'cast', found '{found.spelling}'"
  | expectedBinding found => s!"expected a binding name or 'in', found '{found.spelling}'"
  | emptyLet => "'let' needs at least one name"
  | unexpectedToken found name => s!"unexpected '{found.spelling}' in the body of '{name}'"
  | unknownWord name => s!"unknown word '{name}'"
  | stated message _ => message

def hint? : SyntaxFault → Option String
  | unsupportedOperator _ | constantTooComplex _ =>
    some "constant expressions are 'a b +' or 'a b *'"
  | definedAsConstant _ previous | definedAsMemory _ previous =>
    some s!"previous definition at {previous.render}"
  | duplicateMain first => some s!"'main' is first defined at {first.render}"
  | duplicateFunction _ conflict =>
    some s!"conflicting definition at {conflict.render}; declare every overload with 'fn*'"
  | declarationInBody _ _ => some "a ')' is probably missing above"
  | stated _ hint => hint
  | _ => none

end SyntaxFault

structure SyntaxError where
  loc : Location
  fault : SyntaxFault
deriving DecidableEq

end StackLang
