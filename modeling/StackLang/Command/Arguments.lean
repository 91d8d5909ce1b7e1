/-!
This module contains the arguments of the command. Long options are spelled in full, with a value
after an equals sign or as the next argument; short ones may be grouped, the last with its value
right after it. Nothing may be given twice.
-/

namespace StackLang.Command

structure Request where
  input : String
  output : Option String := none
  check : Bool := false
  tokens : Bool := false
  pretty : Bool := false
  noColor : Bool := false
  dumpIr : Bool := false
  emitIr : Option String := none
  noLibrary : Bool := false
  libDir : Option String := none
  verbose : Bool := false

/-- Options without a value. -/
inductive Flag
  | check | tokens | pretty | noColor | dumpIr | noLibrary | verbose | version | help
deriving DecidableEq

/-- Options with a value. -/
inductive Setting
  | output | emitIr | libDir
deriving DecidableEq

inductive Switch
  | flag (f : Flag)
  | setting (s : Setting)
deriving DecidableEq

def longNames : List (String × Switch) :=
  [("check", .flag .check), ("tokens", .flag .tokens), ("pretty", .flag .pretty),
    ("no-color", .flag .noColor), ("dump-ir", .flag .dumpIr), ("no-prelude", .flag .noLibrary),
    ("verbose", .flag .verbose), ("version", .flag .version), ("help", .flag .help),
    ("output", .setting .output), ("emit-ir", .setting .emitIr), ("lib-dir", .setting .libDir)]

def shortNames : List (Char × Switch) :=
  [('v', .flag .verbose), ('V', .flag .version), ('h', .flag .help), ('o', .setting .output)]

inductive Parsed
  | run (request : Request)
  | version
  | help
  | usage

structure Seen where
  input : Option String := none
  flags : List Flag := []
  settings : List (Setting × String) := []

namespace Seen

def addFlag (s : Seen) (f : Flag) : Except Parsed Seen :=
  match f with
  | .version => .error .version
  | .help => .error .help
  | f => if f ∈ s.flags then .error .usage else .ok { s with flags := f :: s.flags }

def addSetting (s : Seen) (name : Setting) (value : String) : Except Parsed Seen :=
  if value = "" ∨ name ∈ s.settings.map (·.1) then .error .usage
  else .ok { s with settings := (name, value) :: s.settings }

def addInput (s : Seen) (value : String) : Except Parsed Seen :=
  if value = "" ∨ s.input.isSome then .error .usage else .ok { s with input := some value }

def setting? (s : Seen) (name : Setting) : Option String :=
  (s.settings.find? (·.1 = name)).map (·.2)

/-- The request, once all arguments are read. `libEnv` stands in for a library directory. -/
def finish (s : Seen) (libEnv : Option String) : Parsed :=
  let libDir := match s.setting? .libDir with
    | some dir => some dir
    | none => libEnv
  match s.input with
  | none => .usage
  | some input =>
    if libDir = some "" then .usage
    else .run {
      input, libDir
      output := s.setting? .output
      check := .check ∈ s.flags
      tokens := .tokens ∈ s.flags
      pretty := .pretty ∈ s.flags
      noColor := .noColor ∈ s.flags
      dumpIr := .dumpIr ∈ s.flags
      emitIr := s.setting? .emitIr
      noLibrary := .noLibrary ∈ s.flags
      verbose := .verbose ∈ s.flags }

end Seen

def isValue (arg : List Char) : Bool :=
  match arg with
  | '-' :: _ :: _ => false
  | _ => true

/-- Reads the letters of a group; returns an option that waits for its value. -/
def readGroup (s : Seen) : List Char → Except Parsed (Seen × Option Setting)
  | [] => .ok (s, none)
  | c :: cs =>
    match shortNames.lookup c with
    | none => .error .usage
    | some (.flag f) => match s.addFlag f with
      | .error e => .error e
      | .ok s => readGroup s cs
    | some (.setting name) =>
      if cs.isEmpty then .ok (s, some name)
      else
        let value := if cs.head? = some '=' then cs.tail else cs
        match s.addSetting name (String.ofList value) with
        | .error e => .error e
        | .ok s => .ok (s, none)

def readLong (s : Seen) (text : List Char) : Except Parsed (Seen × Option Setting) :=
  let name := String.ofList (text.takeWhile (· ≠ '='))
  let value := match text.dropWhile (· ≠ '=') with
    | [] => none
    | _ :: cs => some (String.ofList cs)
  match longNames.lookup name, value with
  | none, _ => .error .usage
  | some (.flag _), some _ => .error .usage
  | some (.flag f), none => (s.addFlag f).map (·, none)
  | some (.setting name), some value => (s.addSetting name value).map (·, none)
  | some (.setting name), none => .ok (s, some name)

def readInputs (s : Seen) : List String → Except Parsed Seen
  | [] => .ok s
  | arg :: args => match s.addInput arg with
    | .error e => .error e
    | .ok s => readInputs s args

/-- Reads arguments; `waiting` is an option whose value comes next. -/
def readArgs (s : Seen) (waiting : Option Setting) : List String → Except Parsed Seen
  | [] => if waiting.isSome then .error .usage else .ok s
  | arg :: args =>
    match waiting with
    | some name =>
      if isValue arg.toList then
        match s.addSetting name arg with
        | .error e => .error e
        | .ok s => readArgs s none args
      else .error .usage
    | none =>
      let next (r : Except Parsed (Seen × Option Setting)) : Except Parsed Seen :=
        match r with
        | .error e => .error e
        | .ok (s, waiting) => readArgs s waiting args
      match arg.toList with
      | ['-', '-'] => readInputs s args
      | '-' :: '-' :: text => next (readLong s text)
      | '-' :: c :: cs => next (readGroup s (c :: cs))
      | _ => next ((s.addInput arg).map (·, none))

def Parsed.ofArgs (args : List String) (libEnv : Option String) : Parsed :=
  match readArgs {} none args with
  | .error parsed => parsed
  | .ok s => s.finish libEnv

end StackLang.Command
