import StackLang.Location

/-!
This module contains the messages shown to the user.
-/

namespace StackLang

inductive Severity
  | error
  | warning
  /-- A fault of the compiler rather than of the program. -/
  | internal
deriving DecidableEq

def Severity.render : Severity → String
  | error => "error"
  | warning => "warning"
  | internal => "internal compiler error"

structure Diagnostic where
  severity : Severity
  loc : Option Location
  message : String
  hints : List String := []
deriving DecidableEq

namespace Diagnostic

def origin : Option Location → String
  | some loc => loc.render
  | none => "cinder"

def render (d : Diagnostic) : String :=
  s!"{origin d.loc}: {d.severity.render}: {d.message}" ++
    String.join (d.hints.map fun hint => s!"\n  hint: {hint}")

def isError (d : Diagnostic) : Bool := d.severity ≠ .warning

end Diagnostic
end StackLang
