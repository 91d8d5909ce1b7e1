/-!
This module contains file paths as text: names separated by slashes. Empty names and single dots
count for nothing, except that a leading slash makes a path absolute.
-/

namespace StackLang.Path

/-- The most bytes that the name of a file or directory may take. -/
def nameLimit : Nat := 255

/-- The most bytes that the path of a file to be opened may take. -/
def limit : Nat := 4095

def segments (path : String) : List String := go [] path.toList
where
  /-- `name` holds the characters of the current name in reverse. -/
  go (name : List Char) : List Char → List String
    | [] => [String.ofList name.reverse]
    | c :: cs =>
      if c = '/' then String.ofList name.reverse :: go [] cs else go (c :: name) cs

def ofSegments (names : List String) : String := "/".intercalate names

def isAbsolute (path : String) : Bool := path.toList.head? = some '/'

/-- Names that stay where they are. -/
def isIdle (name : String) : Bool := name = "" || name = "."

/-- The names of a path up to the last one that counts. -/
def trimmed (path : String) : List String :=
  ((segments path).reverse.dropWhile isIdle).reverse

def fileName? (path : String) : Option String :=
  match (trimmed path).getLast? with
  | some ".." | none => none
  | some name => some name

/-- Splits a file name at its last dot. A dot in front does not count. -/
def splitName (name : String) : String × Option String :=
  let tail := name.toList.reverse.takeWhile (· ≠ '.')
  match name.toList.reverse.dropWhile (· ≠ '.') with
  | [] | ['.'] => (name, none)
  | _ :: stem => (String.ofList stem.reverse, some (String.ofList tail.reverse))

def extension? (path : String) : Option String :=
  (fileName? path).bind fun name => (splitName name).2

/--
Puts an extension on the last name of a path in place of its own, or none if `extension` is empty.
A path without a file name stays as it is.
-/
def setExtension (path extension : String) : String :=
  match fileName? path with
  | none => path
  | some name =>
    let stem := (splitName name).1
    let last := if extension = "" then stem else stem ++ "." ++ extension
    ofSegments ((trimmed path).dropLast ++ [last])

/--
A path with another extension. Its own is taken off the end of the text first, up to the dot: what
that leaves of `..s` is no file name any more, so nothing is put on it.
-/
def withExtension (path extension : String) : String :=
  match extension? path with
  | none => setExtension path extension
  | some own =>
    setExtension (String.ofList (path.toList.take (path.length - own.length))) extension

def parent? (path : String) : Option String :=
  match trimmed path with
  | [] => if path = "" || isAbsolute path then none else some ""
  | names => if names.dropLast = [""] then some "/" else some (ofSegments names.dropLast)

def join (dir file : String) : String :=
  if isAbsolute file || dir = "" then file
  else if dir.toList.getLast? = some '/' then dir ++ file
  else dir ++ "/" ++ file

end StackLang.Path
