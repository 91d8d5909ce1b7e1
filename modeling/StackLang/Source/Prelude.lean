import StackLang.Source

/-!
This module contains the library that is compiled ahead of every program.
-/

namespace StackLang.Source

def libraryText : String :=
  "// Cinder library, compiled ahead of every program.\n" ++
  "//\n" ++
  "// Strings are the address of an 8-byte length followed by their bytes.\n" ++
  "// Stack effects are written ( before -- after ), top of stack last.\n\n" ++
  "const STDOUT 1\n" ++
  "const SYS_WRITE 1\n" ++
  "const SYS_EXIT 60\n\n" ++
  "var print-buf 32\n\n" ++
  "// ( len ptr -- )\n" ++
  "fn write-out int ptr (\n" ++
  "  STDOUT SYS_WRITE syscall3 drop\n" ++
  ")\n\n" ++
  "// ( n -- )\n" ++
  "fn* print int (\n" ++
  "  dup 0 < if ( \"-\" print 0 swap - )\n" ++
  "  print-buf 32 + swap\n" ++
  "  // ( cursor n ): emit digits right to left, at least one\n" ++
  "  loop over print-buf 32 + = over 0 > or (\n" ++
  "    swap 1 - swap\n" ++
  "    dup 10 % 48 + rot dup rot swap 0 store8 swap\n" ++
  "    10 /\n" ++
  "  )\n" ++
  "  drop\n" ++
  "  print-buf 32 + cast int over cast int -\n" ++
  "  swap write-out\n" ++
  ")\n\n" ++
  "// ( s -- )\n" ++
  "fn* print str (\n" ++
  "  let s in\n" ++
  "  s cast ptr load\n" ++
  "  s cast ptr 8 +\n" ++
  "  write-out\n" ++
  ")\n\n" ++
  "// ( b -- )\n" ++
  "fn* print bool (\n" ++
  "  if ( \"true\" print else \"false\" print )\n" ++
  ")\n\n" ++
  "// ( c -- )\n" ++
  "fn* print byte (\n" ++
  "  print-buf 0 store8\n" ++
  "  1 print-buf write-out\n" ++
  ")\n\n" ++
  "fn newline (\n" ++
  "  '\\n' print\n" ++
  ")\n\n" ++
  "// ( code -- )\n" ++
  "fn exit int (\n" ++
  "  SYS_EXIT syscall1 drop\n" ++
  ")\n\n" ++
  "fn 2dup $a $b -> $a $b $a $b (\n" ++
  "  over over\n" ++
  ")\n\n" ++
  "fn 2drop any any (\n" ++
  "  drop drop\n" ++
  ")\n"

/-- The library as a unit. Its identity is no path. -/
def library : SourceUnit := ⟨"<prelude>", libraryText, true⟩

end StackLang.Source
