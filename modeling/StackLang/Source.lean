import StackLang.Source.Path

/-!
This module contains source units and the loaders that find them. A loader turns a name as written
in a program into an identity, so that two spellings of one file are the same unit.
-/

namespace StackLang

inductive FileFault
  | missing
  | notDirectory
  | isDirectory
  | nameTooLong
  | notText
  | other (text : String)
deriving DecidableEq

def FileFault.message : FileFault → String
  | missing => "No such file or directory (os error 2)"
  | notDirectory => "Not a directory (os error 20)"
  | isDirectory => "Is a directory (os error 21)"
  | nameTooLong => "File name too long (os error 36)"
  | notText => "stream did not contain valid UTF-8"
  | other text => text

inductive SourceError
  | notFound (name : String)
  | unreadable (path : String) (fault : FileFault)
deriving DecidableEq

def SourceError.message : SourceError → String
  | notFound name => s!"cannot find source '{name}'"
  | unreadable path fault => s!"cannot read '{path}': {fault.message}"

/-- One text to compile. Its identity also names it in locations. -/
structure SourceUnit where
  id : String
  text : String
  internal : Bool := false
deriving DecidableEq

namespace Source

def extension : String := "cin"

def withExtension (name : String) : String :=
  if (Path.extension? name).isSome then name else name ++ "." ++ extension

end Source

/-- Finds sources. Only finitely many identities can be found. -/
structure Loader where
  ids : List String
  /-- The identity of a name written in the unit `from?`. -/
  resolve : (name : String) → (from? : Option String) → Except SourceError String
  load : (id : String) → Except SourceError String
  mem_ids : ∀ {name from? id}, resolve name from? = .ok id → id ∈ ids

namespace Loader

def fetch (loader : Loader) (name : String) (from? : Option String) :
    Except SourceError SourceUnit :=
  match loader.resolve name from? with
  | .error e => .error e
  | .ok id => match loader.load id with
    | .error e => .error e
    | .ok text => .ok { id, text }

theorem fetch_id_mem {loader : Loader} {name : String} {from? : Option String} {u : SourceUnit}
    (h : loader.fetch name from? = .ok u) : u.id ∈ loader.ids := by
  unfold fetch at h
  split at h
  · simp at h
  · split at h
    · simp at h
    · next hres _ _ _ =>
      simp only [Except.ok.injEq] at h
      subst h
      exact loader.mem_ids hres

end Loader

structure SourceTable where
  files : List (String × String) := []

namespace SourceTable

def insert (t : SourceTable) (name text : String) : SourceTable :=
  let key := Source.withExtension name
  ⟨(key, text) :: t.files.filter (·.1 ≠ key)⟩

def ofList (files : List (String × String)) : SourceTable :=
  files.foldl (fun t file => t.insert file.1 file.2) {}

def find? (t : SourceTable) (id : String) : Option String :=
  (t.files.find? (·.1 = id)).map (·.2)

def resolve (t : SourceTable) (name : String) : Except SourceError String :=
  let key := Source.withExtension name
  if key ∈ t.files.map (·.1) then .ok key else .error (.notFound name)

def load (t : SourceTable) (id : String) : Except SourceError String :=
  match t.find? id with
  | some text => .ok text
  | none => .error (.notFound id)

def loader (t : SourceTable) : Loader where
  ids := t.files.map (·.1)
  resolve name _ := t.resolve name
  load := t.load
  mem_ids := by
    intro name _ id h
    simp only [resolve] at h
    split at h
    · next hmem =>
      simp only [Except.ok.injEq] at h
      exact h ▸ hmem
    · simp at h

end SourceTable
end StackLang
