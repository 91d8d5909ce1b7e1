import StackLang.Command.Arguments
import StackLang.Compile
import StackLang.Program.Listing
import StackLang.Program.Wire
import StackLang.Source.Tree
import StackLang.Token.Dump

/-!
This module contains the command: from a request and the sources it needs to a plan of what to
print and which files to write, and the effect of a plan on a tree of files.
-/

namespace StackLang.Command

def usage : String := "usage: cinder [OPTIONS] FILE\n"

def versionLine : String := s!"cinder {version}\n"

inductive Action
  | out (text : String)
  | err (text : String)
  | write (path : String) (content : ByteArray)

structure Plan where
  actions : List Action := []
  status : ExitStatus := .success

namespace Plan

def after (actions : List Action) (plan : Plan) : Plan :=
  { plan with actions := actions ++ plan.actions }

def ofError (e : CompileError) : Plan :=
  ⟨e.diagnostics.map fun d => .err (d.render ++ "\n"), e.exitStatus⟩

/-- What happens instead of the rest of a plan when a file cannot be written. -/
def ofWriteFault (path : String) (fault : FileFault) : Plan :=
  ofError (.internal s!"cannot write '{path}': {fault.message}")

end Plan

namespace Request

def wrongFile (r : Request) : Plan :=
  ⟨[.err s!"cinder: error: expected a .{Source.extension} file, got {r.input}\n"], .usage⟩

def isSource (r : Request) : Bool := Path.extension? r.input = some Source.extension

def note (r : Request) (text : String) : List Action :=
  if r.verbose then [.err s!"cinder: {text}\n"] else []

def tokensPlan (r : Request) : Except SourceError SourceUnit → Plan
  | .error e => .ofError (.source e)
  | .ok u => match TokenStream.ofText u.id u.text with
    | .error errors => .ofError (.parse (errors.map fun e => ⟨e.loc, .lexical e.fault⟩))
    | .ok stream =>
      let dump : TokenDump := { color := !r.noColor, pretty := r.pretty }
      ⟨[.out (dump.render stream.toList)], .success⟩

def buildCommands (output : String) : String :=
  let object := Path.withExtension output "o"
  let executable := Path.withExtension output ""
  s!"nasm -f elf64 -o {object} {output}\nld -o {executable} {object}\n"

def assemblyPlan (r : Request) (p : Program) : Plan :=
  if r.check then {}
  else
    let target := Target.x86Linux
    match p.generate target with
    | .error e => .ofError (.lowering e)
    | .ok assembly =>
      let output := r.output.getD (Path.withExtension r.input "asm")
      ⟨[.write output assembly.render.toUTF8] ++ r.note s!"wrote {output} for {target.name}" ++
        [.out (buildCommands output)], .success⟩

def programPlan (r : Request) (p : Program) : Plan :=
  let listing : List Action := if r.dumpIr then [.out p.listing] else []
  let bytes := match r.emitIr with
    | none => []
    | some path => .write path ⟨p.toBytes.toArray⟩ :: r.note s!"wrote IR to {path}"
  (r.assemblyPlan p).after (listing ++ bytes)

def validatePlan (r : Request) (p : Program) : Plan :=
  match p.validate with
  | (_, .error e) => .ofError (.validation e)
  | (p, .ok warnings) =>
    let called := p.functions.countP (·.called)
    (r.programPlan p).after (warnings.map (fun d => .err (d.render ++ "\n")) ++
      r.note s!"validated; {called} of {p.functions.length} function(s) reachable from main")

def buildPlan (r : Request) (parsed : Except (List SyntaxError) Program) : Plan :=
  let plan : Plan := match parsed with
    | .error errors => .ofError (.parse errors)
    | .ok p => (r.validatePlan p).after (r.note (s!"parsed {p.functions.length} function(s), " ++
        s!"{p.memories.length} memory region(s), {p.strings.length} string(s)"))
  plan.after (r.note s!"parsing {r.input}")

def plan (r : Request) (loader : Loader) : Plan :=
  if !r.isSource then r.wrongFile
  else if r.tokens then r.tokensPlan (loader.fetch r.input none)
  else r.buildPlan (Program.read loader (!r.noLibrary) r.input)

end Request

structure Outcome where
  status : ExitStatus
  out : String := ""
  err : String := ""
  tree : FileTree

def perform (o : Outcome) : List Action → Outcome
  | [] => o
  | .out text :: rest => perform { o with out := o.out ++ text } rest
  | .err text :: rest => perform { o with err := o.err ++ text } rest
  | .write path content :: rest =>
    match o.tree.write path content with
    | .ok tree => perform { o with tree } rest
    | .error fault =>
      let failure := Plan.ofWriteFault path fault
      { o with status := failure.status, err := failure.actions.foldl errText o.err }
where
  errText (text : String) : Action → String
    | .err more => text ++ more
    | _ => text

def run (tree : FileTree) (args : List String) (libEnv : Option String) : Outcome :=
  match Parsed.ofArgs args libEnv with
  | .usage => { status := .usage, err := usage, tree }
  | .help => { status := .success, out := usage, tree }
  | .version => { status := .success, out := versionLine, tree }
  | .run request =>
    let plan := request.plan (tree.loader request.libDir)
    perform { status := plan.status, tree } plan.actions

end StackLang.Command
