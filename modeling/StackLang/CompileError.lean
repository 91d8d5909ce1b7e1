import StackLang.Assembly.Lower
import StackLang.Diagnostic
import StackLang.Fault
import StackLang.Validation.Violation

/-!
This module contains the failures of a compilation: what they say, the diagnostics they give and
the status the command exits with.
-/

namespace StackLang

inductive CompileError
  | parse (errors : List SyntaxError)
  | validation (error : ValidationError)
  | lowering (error : LoweringError)
  | source (error : SourceError)
  | internal (message : String)
deriving DecidableEq

inductive ExitStatus
  | success | usage | parse | validation | lowering | internal
deriving DecidableEq

def ExitStatus.code : ExitStatus → UInt8
  | success => 0
  | usage => 2
  | parse => 3
  | validation => 4
  | lowering => 5
  | internal => 6

namespace CompileError

def message : CompileError → String
  | parse errors => s!"{errors.length} error(s) while parsing"
  | validation (.violation loc v) => s!"{loc.render}: {v.message}"
  | validation .missingMain => ValidationError.missingMain.message
  | lowering error => error.message
  | source error => error.message
  | internal message => s!"internal error: {message}"

def exitStatus : CompileError → ExitStatus
  | parse _ | source _ => .parse
  | validation error => if error.isInternal then .internal else .validation
  | lowering error => if error.isInternal then .internal else .lowering
  | internal _ => .internal

def diagnostics : CompileError → List Diagnostic
  | parse errors => errors.map fun e =>
    ⟨.error, some e.loc, e.fault.message, e.fault.hint?.toList⟩
  | validation error =>
    if error.isInternal then [⟨.internal, error.loc?, error.message, []⟩]
    else [⟨.error, error.loc?, error.message, error.hint?.toList⟩]
  | lowering error =>
    if error.isInternal then [⟨.internal, none, error.message, []⟩]
    else [⟨.error, none, error.message, error.hint?.toList⟩]
  | source error => [⟨.error, none, error.message, []⟩]
  | internal message => [⟨.internal, none, message, []⟩]

end CompileError
end StackLang
