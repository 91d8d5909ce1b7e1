/-!
This module contains positions in source files.
-/

namespace StackLang

/-- A position in a named file. Lines and columns count from 1, columns in code points. -/
structure Location where
  file : String
  line : Nat
  col : Nat
deriving DecidableEq, Inhabited

namespace Location

def start (file : String) : Location := ⟨file, 1, 1⟩

/-- The position right after the character `c` at `l`. Only a line feed ends a line. -/
def next (l : Location) (c : Char) : Location :=
  if c = '\n' then ⟨l.file, l.line + 1, 1⟩ else ⟨l.file, l.line, l.col + 1⟩

def advance (l : Location) (cs : List Char) : Location := cs.foldl next l

def render (l : Location) : String := s!"{l.file}:{l.line}:{l.col}"

@[simp]
theorem advance_nil (l : Location) : l.advance [] = l := rfl

@[simp]
theorem advance_cons (l : Location) (c : Char) (cs : List Char) :
    l.advance (c :: cs) = (l.next c).advance cs := rfl

theorem advance_append (l : Location) (as bs : List Char) :
    l.advance (as ++ bs) = (l.advance as).advance bs := by
  simp [advance]

end Location
end StackLang
