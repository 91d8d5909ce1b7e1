import StackLang.Op

/-!
This module contains the rules that a program can break, and how a breach is worded.
-/

namespace StackLang

inductive Violation
  /-- A part of a block leaves another number of values than it found. -/
  | sizeChanged (context : String) (expected found : List Kind)
  /-- A part of a block leaves as many values as it found, of other kinds. -/
  | typesChanged (context : String) (expected found : List Kind)
  | mainSignature (signature : String)
  | openBlocks
  | missingResults (name : String) (declared found : List Kind)
  | extraResults (name : String) (declared found : List Kind)
  | wrongResult (name : String) (result expected : Kind) (declared found : List Kind)
  | noSlot (index : Nat)
  | unboundSlot (name : String)
  | letInBlock (block : Block)
  | strayTest
  | strayElse
  | strayEnd
  | overflow (limit : Nat)
  | underflow (what : String) (needed : Nat) (stack : List Kind)
  | mismatch (what : String) (expected found : List Kind)
  | noSignature (what : String)
  | unknownWord (name : String)
  | argumentMismatch (name : String) (expected found : List Kind)
  | noOverload (name : String) (found : List Kind) (candidates : List String)
  | missingFunction (entry : Nat)
  /-- A breach that its reporter has worded. -/
  | stated (message : String) (hint : Option String)
  | internal (message : String)
deriving DecidableEq

namespace Violation

/-- Whether the program itself cannot be the cause. -/
def isInternal : Violation → Bool
  | missingFunction _ | internal _ => true
  | _ => false

def message : Violation → String
  | sizeChanged context _ _ => s!"stack size changed {context}"
  | typesChanged context _ _ => s!"stack types changed {context}"
  | mainSignature _ => "'main' must not take or return values"
  | openBlocks => "unbalanced control flow at end of function"
  | missingResults name declared found =>
    s!"function '{name}' is not explicitly returned: {declared.length} value(s) declared, " ++
    s!"{found.length} left on the stack"
  | extraResults name declared found =>
    s!"too many values left on the stack at the end of '{name}': " ++
    s!"{declared.length} value(s) declared, {found.length} left"
  | wrongResult name result expected _ _ =>
    s!"function '{name}' returns {result.render} where {expected.render} is declared"
  | noSlot index => s!"no binding slot {index}"
  | unboundSlot name => s!"binding '{name}' is used before it is bound"
  | letInBlock block => s!"'let' inside '{block.word}' is not supported"
  | strayTest => "'(' outside 'if' or 'loop'"
  | strayElse => "'else' outside 'if'"
  | strayEnd => "unmatched ')'"
  | overflow limit => s!"stack overflow: more than {limit} values"
  | underflow what needed stack =>
    s!"stack underflow: '{what}' needs {needed} value(s), found {stack.length}"
  | mismatch what expected found =>
    s!"'{what}' expects {Kind.renderAll expected}, found {Kind.renderAll found}"
  | noSignature what => s!"'{what}' has no stack signature"
  | unknownWord name => s!"unknown word '{name}'"
  | argumentMismatch name expected found =>
    s!"argument mismatch calling '{name}': expected {Kind.renderAll expected}, " ++
    s!"found {Kind.renderAll found}"
  | noOverload name found _ => s!"no overload of '{name}' matches the stack {Kind.renderAll found}"
  | missingFunction entry => s!"call to missing function fn{entry}"
  | stated message _ => message
  | internal message => message

def hint? : Violation → Option String
  | sizeChanged _ expected found | typesChanged _ expected found =>
    some s!"expected {Kind.renderAll expected}, found {Kind.renderAll found}"
  | mainSignature signature => some s!"found 'fn {signature}'"
  | missingResults _ declared found | extraResults _ declared found
  | wrongResult _ _ _ declared found =>
    some s!"declared {Kind.renderAll declared}, found {Kind.renderAll found}"
  | letInBlock _ =>
    some "bindings live until the end of the function; move the 'let' before the block"
  | underflow _ _ stack => some s!"stack is {Kind.renderAll stack}"
  | noOverload _ _ candidates => some ("candidates are: " ++ "; ".intercalate candidates)
  | stated _ hint => hint
  | _ => none

end Violation

inductive ValidationError
  | violation (loc : Location) (v : Violation)
  | missingMain
deriving DecidableEq

namespace ValidationError

def isInternal : ValidationError → Bool
  | violation _ v => v.isInternal
  | missingMain => false

def loc? : ValidationError → Option Location
  | violation loc _ => some loc
  | missingMain => none

def message : ValidationError → String
  | violation _ v => v.message
  | missingMain => "no 'main' function"

def hint? : ValidationError → Option String
  | violation _ v => v.hint?
  | missingMain => some "every program needs 'fn main ( ... )' as its entry point"

end ValidationError

def checkBalanced (context : String) (expected found : List Kind) : Except Violation Unit :=
  if expected.length ≠ found.length then .error (.sizeChanged context expected found)
  else if expected ≠ found then .error (.typesChanged context expected found)
  else .ok ()

end StackLang
