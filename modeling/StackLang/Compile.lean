import StackLang.CompileError
import StackLang.Front
import StackLang.Validation

/-!
This module contains the compiler: reading, validation and lowering in a row. Each stage ends before
the next starts.
-/

namespace StackLang

def version : String := "0.1.0"

structure Options where
  /-- Whether the library is compiled ahead of the program. -/
  library : Bool := true
  /-- The machine to generate code for; the one that compiles if none is given. -/
  target : Option Target := none

namespace Options

/-- The only supported target stands in for the machine that compiles. -/
def resolvedTarget (o : Options) : Target := o.target.getD .x86Linux

end Options

structure Output where
  assembly : Assembly
  program : Program
  warnings : List Diagnostic

def parse (loader : Loader) (entry : String) (options : Options) : Except CompileError Program :=
  (Program.read loader options.library entry).mapError .parse

def check (loader : Loader) (entry : String) (options : Options) :
    Except CompileError (Program × List Diagnostic) :=
  match parse loader entry options with
  | .error e => .error e
  | .ok p => match p.validate with
    | (_, .error e) => .error (.validation e)
    | (p, .ok warnings) => .ok (p, warnings)

def compile (loader : Loader) (entry : String) (options : Options) : Except CompileError Output :=
  match check loader entry options with
  | .error e => .error e
  | .ok (program, warnings) => match program.generate options.resolvedTarget with
    | .error e => .error (.lowering e)
    | .ok assembly => .ok { assembly, program, warnings }

def compileText (text : String) (options : Options) : Except CompileError Output :=
  compile (SourceTable.ofList [("main", text)]).loader "main" options

end StackLang
