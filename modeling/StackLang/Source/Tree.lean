import StackLang.Source

/-!
This module contains trees of files and the loader that searches them: next to the file that names
a source first, then in a library directory.
-/

namespace StackLang

inductive FileNode
  | dir
  | file (content : ByteArray)

/-- Files and directories by their absolute paths, and the directory that relative paths start at. -/
structure FileTree where
  cwd : List String
  nodes : List (List String × FileNode)

namespace FileTree

def node? (t : FileTree) (path : List String) : Option FileNode :=
  (t.nodes.find? (·.1 = path)).map (·.2)

def create (t : FileTree) (path : List String) (node : FileNode) : FileTree :=
  if (t.node? path).isSome then t else { t with nodes := t.nodes ++ [(path, node)] }

def createDir (t : FileTree) (path : List String) : FileTree :=
  (List.range (path.length + 1)).foldl (fun t n => t.create (path.take n) .dir) t

def empty (cwd : List String) : FileTree := createDir ⟨cwd, []⟩ cwd

def insert (t : FileTree) (path : String) (node : FileNode) : FileTree :=
  let names := t.cwd ++ Path.segments path
  (t.createDir names.dropLast).create names node

def follow (t : FileTree) (dir : List String) : List String → Except FileFault (List String)
  | [] => .ok dir
  | name :: names =>
    match t.node? dir with
    | none => .error .missing
    | some (.file _) => .error .notDirectory
    | some .dir =>
      if Path.isIdle name then t.follow dir names
      else if name = ".." then t.follow dir.dropLast names
      else if Path.nameLimit < name.utf8ByteSize then .error .nameTooLong
      else if (t.node? (dir ++ [name])).isSome then t.follow (dir ++ [name]) names
      else .error .missing

def origin (t : FileTree) (path : String) : List String :=
  if Path.isAbsolute path then [] else t.cwd

/-- The absolute path, without detours, of what a path leads to. -/
def locate (t : FileTree) (path : String) : Except FileFault (List String) :=
  if path = "" then .error .missing else t.follow (t.origin path) (Path.segments path)

def render (path : List String) : String := "/" ++ Path.ofSegments path

def identify? (t : FileTree) (path : String) : Option String :=
  match t.locate path with
  | .error _ => none
  | .ok found => (t.nodes.find? (·.1 = found)).map (render ·.1)

def read (t : FileTree) (path : String) : Except FileFault String :=
  match t.locate path with
  | .error fault => .error fault
  | .ok found => match t.node? found with
    | none => .error .missing
    | some .dir => .error .isDirectory
    | some (.file content) => match String.fromUTF8? content with
      | some text => .ok text
      | none => .error .notText

/-- Writes a file in place of one at its path. The directory it is in has to exist. -/
def write (t : FileTree) (path : String) (content : ByteArray) : Except FileFault FileTree :=
  if path = "" then .error .missing
  else if Path.limit < path.utf8ByteSize then .error .nameTooLong
  else
    let names := ((Path.segments path).reverse.dropWhile (· = "")).reverse
    match t.follow (t.origin path) (names.dropLast ++ [""]), names.getLast? with
    | .error fault, _ => .error fault
    | .ok _, none => .error .isDirectory
    | .ok dir, some name =>
      if Path.isIdle name || name = ".." || (Path.segments path).getLast? = some "" then
        .error .isDirectory
      else if Path.nameLimit < name.utf8ByteSize then .error .nameTooLong
      else
        let found := dir ++ [name]
        match t.node? found with
        | some .dir => .error .isDirectory
        | some (.file _) =>
          .ok { t with nodes := t.nodes.map fun n => if n.1 = found then (found, .file content) else n }
        | none => .ok (t.create found (.file content))

/-- The paths at which a name written in the unit `from?` is looked for, in order. -/
def searchPaths (libDir from? : Option String) (name : String) : List String :=
  let file := Source.withExtension name
  let beside := match from?.bind Path.parent? with
    | some dir => Path.join dir file
    | none => file
  beside :: (libDir.map (Path.join · file)).toList

def resolve (t : FileTree) (libDir : Option String) (name : String) (from? : Option String) :
    Except SourceError String :=
  match (searchPaths libDir from? name).findSome? t.identify? with
  | some id => .ok id
  | none => .error (.notFound name)

def load (t : FileTree) (id : String) : Except SourceError String :=
  (t.read id).mapError (.unreadable id)

theorem identify?_mem {t : FileTree} {path id : String} (h : t.identify? path = some id) :
    id ∈ t.nodes.map (render ·.1) := by
  unfold identify? at h
  split at h
  · simp at h
  · obtain ⟨node, hfind, rfl⟩ := Option.map_eq_some_iff.mp h
    exact List.mem_map.mpr ⟨node, List.mem_of_find?_eq_some hfind, rfl⟩

def loader (t : FileTree) (libDir : Option String) : Loader where
  ids := t.nodes.map (render ·.1)
  resolve := t.resolve libDir
  load := t.load
  mem_ids := by
    intro name from? id h
    unfold resolve at h
    split at h
    · next hfind =>
      obtain ⟨_, _, hid⟩ := List.exists_of_findSome?_eq_some hfind
      simp only [Except.ok.injEq] at h
      exact h ▸ identify?_mem hid
    · simp at h

end FileTree
end StackLang
