import StackLang.Command

/-!
This module contains the command as a program: it reads source files and carries out plans on the
file system.
-/

namespace StackLang.Main

def fileFault : IO.Error → FileFault
  | .noFileOrDirectory .. => .missing
  | .inappropriateType _ 20 _ => .notDirectory
  | .inappropriateType _ 21 _ => .isDirectory
  | .invalidArgument _ 36 _ => .nameTooLong
  | e => .other (toString e)

def readText (path : String) : IO (Except SourceError String) := do
  try
    if ← (← IO.FS.realPath path).isDir then return .error (.unreadable path .isDirectory)
    match String.fromUTF8? (← IO.FS.readBinFile path) with
    | some text => return .ok text
    | none => return .error (.unreadable path .notText)
  catch e => return .error (.unreadable path (fileFault e))

def identify : List String → IO (Option String)
  | [] => return none
  | path :: paths => do
    try return some (← IO.FS.realPath path).toString
    catch _ => identify paths

def fetch (libDir : Option String) (name : String) (from? : Option String) :
    IO (Except SourceError SourceUnit) := do
  match ← identify (FileTree.searchPaths libDir from? name) with
  | none => return .error (.notFound name)
  | some id => return (← readText id).map fun text => { id, text }

def settleAll (libDir : Option String) (id : String) (f : Front) : List Report → IO Front
  | [] => return f
  | .fault e :: reports => settleAll libDir id { f with errors := f.errors ++ [e] } reports
  | .use loc name :: reports => do
    settleAll libDir id (f.accept loc (← fetch libDir name (some id))) reports

partial def readQueue (libDir : Option String) (f : Front) : IO Front := do
  match f.queue with
  | [] => return f
  | u :: us =>
    let (program, reports) := u.read f.program
    readQueue libDir (← settleAll libDir u.id { f with program, queue := us } reports)

def readProgram (r : Command.Request) : IO (Except (List SyntaxError) Program) := do
  match ← fetch r.libDir r.input none with
  | .error e => return .error [Front.startError r.input e]
  | .ok start => return (← readQueue r.libDir (Front.initial (!r.noLibrary) start)).finish

def perform (status : ExitStatus) : List Command.Action → IO ExitStatus
  | [] => return status
  | .out text :: rest => do
    IO.print text
    perform status rest
  | .err text :: rest => do
    IO.eprint text
    perform status rest
  | .write path content :: rest => do
    let fault ← try
        IO.FS.writeBinFile path content
        pure none
      catch e => pure (some (fileFault e))
    match fault with
    | none => perform status rest
    | some fault =>
      let failure := Command.Plan.ofWriteFault path fault
      for action in failure.actions do
        if let .err text := action then IO.eprint text
      return failure.status

def run (r : Command.Request) : IO ExitStatus := do
  let plan ←
    if !r.isSource then pure r.wrongFile
    else if r.tokens then pure (r.tokensPlan (← fetch r.libDir r.input none))
    else pure (r.buildPlan (← readProgram r))
  perform plan.status plan.actions

end StackLang.Main

def main (args : List String) : IO UInt32 := do
  let libEnv ← IO.getEnv "CINDER_LIB"
  let status ← match StackLang.Command.Parsed.ofArgs args libEnv with
    | .usage => do
      IO.eprint StackLang.Command.usage
      pure StackLang.ExitStatus.usage
    | .help => do
      IO.print StackLang.Command.usage
      pure StackLang.ExitStatus.success
    | .version => do
      IO.print StackLang.Command.versionLine
      pure StackLang.ExitStatus.success
    | .run request => StackLang.Main.run request
  return status.code.toUInt32
