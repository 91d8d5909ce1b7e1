import StackLang.Diagnostic
import StackLang.Validation.Reach
import StackLang.Validation.Walk

/-!
This module contains the validation of programs. It stops at the first breach of a rule; what has
been resolved by then stays resolved.
-/

namespace StackLang

/-- Checks a function. Returns it with the words and bindings that the check has settled. -/
def Function.check (functions : List Function) (f : Function) :
    Function × Option ValidationError :=
  if f.name = "main" ∧ (f.args ≠ [] ∨ f.rets ≠ []) then
    (f, some (.violation f.loc (.mainSignature f.signature)))
  else
    let trace := Walk.run functions { stack := f.args, bindings := f.bindings } f.code
    match trace.outcome with
    | .error (loc, stop) =>
      ({ f with code := trace.code, bindings := stop.bindings },
        some (.violation loc stop.violation))
    | .ok w =>
      let last := (f.code.getLast?.map (·.loc)).getD f.loc
      ({ f with code := trace.code, bindings := w.bindings },
        (w.endViolation? f).map (.violation last))

def checkFunctions (functions : List Function) :
    List Function → List Function × Option ValidationError
  | [] => ([], none)
  | f :: rest =>
    match f.check functions with
    | (f, some e) => (f :: rest, some e)
    | (f, none) =>
      let (rest, e) := checkFunctions functions rest
      (f :: rest, e)

def Function.unusedWarning (f : Function) : Diagnostic where
  severity := .warning
  loc := some f.loc
  message := s!"function '{f.signature}' is never called"
  hints := ["it is left out of the generated code"]

namespace Program

def unusedWarnings (p : Program) : List Diagnostic :=
  (p.functions.filter fun f => !f.called && !f.internal).map Function.unusedWarning

/-- Validates a program. Returns it as validation leaves it, and the warnings or the first error. -/
def validate (p : Program) : Program × Except ValidationError (List Diagnostic) :=
  match checkFunctions p.functions p.functions with
  | (functions, some e) => ({ p with functions }, .error e)
  | (functions, none) =>
    let p := { p with functions }
    match p.main? with
    | none => (p, .error .missingMain)
    | some main =>
      let p := p.markReachable main.entry
      (p, .ok p.unusedWarnings)

end Program
end StackLang
