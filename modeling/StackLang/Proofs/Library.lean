import StackLang.Proofs.Appended
import StackLang.Proofs.Console
import StackLang.Proofs.Recovery

/-!
This module contains what every program that is compiled with the library has of it. The library is
read first, and no later function is chosen for a call in it, so its functions stand at the same
places and call each other in every program.
-/

namespace StackLang

def Program.resolved? (p : Program) (entry : Nat) : Option (String × List Kind × List Op) :=
  match p.functions[entry]? with
  | none => none
  | some f => match f.check p.functions with
    | (g, none) => some (g.name, g.args, g.code.map (·.op))
    | (_, some _) => none

namespace Library

/-- Writes out bytes. On top is their address, below it their number. -/
def writeOut : List Op := [.pushInt 1, .pushInt 1, .syscall 3, .prim .drop]

def printInt : List Op :=
  -- the sign
  [.prim .dup, .pushInt 0, .prim .lt, .enter .cond, .branch 10,
    .pushStr 0, .call 2, .pushInt 0, .prim .swap, .prim .sub, .leave .cond,
  -- the end of the buffer as a cursor below what is left of the number
    .pushPtr 0, .pushInt 32, .prim .add, .prim .swap,
  -- whether the cursor has not moved or something is left
    .enter .loop, .prim .peek, .pushPtr 0, .pushInt 32, .prim .add, .prim .eq,
    .prim .peek, .pushInt 0, .prim .gt, .prim .or, .branch 45,
  -- one digit in front of those that are there
    .prim .swap, .pushInt 1, .prim .sub, .prim .swap,
    .prim .dup, .pushInt 10, .prim .mod, .pushInt 48, .prim .add,
    .prim .rot, .prim .dup, .prim .rot, .prim .swap, .pushInt 0, .prim .store8, .prim .swap,
    .pushInt 10, .prim .div, .jump 15, .leave .loop,
  -- what lies between the cursor and the end
    .prim .drop, .pushPtr 0, .pushInt 32, .prim .add, .cast .int, .prim .peek, .cast .int,
    .prim .sub, .prim .swap, .call 0]

def printStr : List Op :=
  [.bind 1, .pushBind 0, .cast .ptr, .prim .load, .pushBind 0, .cast .ptr, .pushInt 8, .prim .add,
    .call 0, .unbind 1]

end Library

structure Program.HasLibrary (p : Program) : Prop where
  writeOut : p.Defines 0 "write-out" [.int, .ptr] Library.writeOut
  printInt : p.Defines 1 "print" [.int] Library.printInt
  printStr : p.Defines 2 "print" [.str] Library.printStr
  minus : p.strings[0]? = some "-"
  buffer : (p.memories[0]?).map (fun m => (m.name, m.size)) = some ("print-buf", 32)

def SourceUnit.programOf (file : String) (internal : Bool) (cs : List Char) : Program :=
  let scan := Scan.run (Location.start file) cs
  (Declaration.readAll internal scan.stop {} scan.lexemes).1

theorem SourceUnit.program_of_reports {u : SourceUnit} (h : (u.read {}).2 = []) :
    (u.read {}).1 = programOf u.id u.internal u.text.toList := by
  simp only [read, TokenStream.ofText, programOf] at h ⊢
  generalize Scan.run (Location.start u.id) u.text.toList = scan at h ⊢
  by_cases hempty : scan.errors.isEmpty
  · simp only [hempty, if_true]
  · simp only [hempty, if_false, Bool.false_eq_true, List.map_eq_nil_iff] at h
    simp [h] at hempty

namespace Library

def Conforms (p : Program) : Prop :=
  p.resolved? 0 = some ("write-out", [.int, .ptr], writeOut) ∧
    p.resolved? 1 = some ("print", [.int], printInt) ∧
    p.resolved? 2 = some ("print", [.str], printStr) ∧ p.strings[0]? = some "-" ∧
    (p.memories[0]?).map (fun m => (m.name, m.size)) = some ("print-buf", 32)

instance (p : Program) : Decidable (Conforms p) := inferInstanceAs (Decidable (_ ∧ _))

theorem conforms_library : Conforms (Source.library.read {}).1 := by
  rw [SourceUnit.program_of_reports (Source.reports_ahead true)]
  show Conforms (SourceUnit.programOf "<prelude>" true Source.libraryText.toList)
  unfold Source.libraryText
  simp only [String.toList_append]
  decide +kernel

end Library

namespace Function

theorem check_append_all {functions : List Function} {f g : Function}
    (h : f.check functions = (g, none)) (more : List Function) :
    f.check (functions ++ more) = (g, none) := by
  induction more generalizing functions with
  | nil =>
    rw [List.append_nil]
    exact h
  | cons other more ih =>
    rw [List.append_cons]
    exact ih (check_append other h)

end Function

theorem getElem?_of_prefix {α : Type} {l l' : List α} (h : l <+: l') {n : Nat} {a : α}
    (ha : l[n]? = some a) : l'[n]? = some a := by
  obtain ⟨hn, rfl⟩ := List.getElem?_eq_some_iff.mp ha
  exact List.prefix_iff_getElem?.mp h n hn

namespace Program

theorem exists_of_resolved? {p : Program} {entry : Nat} {name : String} {args : List Kind}
    {ops : List Op} (h : p.resolved? entry = some (name, args, ops)) :
    ∃ f g, p.functions[entry]? = some f ∧ f.check p.functions = (g, none) ∧ g.name = name ∧
      g.args = args ∧ g.code.map (·.op) = ops := by
  unfold resolved? at h
  split at h
  · simp at h
  · next f hf =>
    split at h
    · next g hg =>
      simp only [Option.some.injEq, Prod.mk.injEq] at h
      exact ⟨f, g, hf, hg, h.1, h.2.1, h.2.2⟩
    · simp at h

theorem Extends.defines {l p q : Program} {warnings : List Diagnostic} (h : l.Extends p)
    (hvalid : p.validate = (q, .ok warnings)) {entry : Nat} {name : String} {args : List Kind}
    {ops : List Op} (hl : l.resolved? entry = some (name, args, ops)) :
    q.Defines entry name args ops := by
  obtain ⟨f, g, hf, hcheck, rfl, rfl, rfl⟩ := exists_of_resolved? hl
  obtain ⟨functions, main, hfunctions, -, rfl, -⟩ := validate_eq_ok hvalid
  obtain ⟨more, hmore⟩ := h.functions
  have hp : p.functions[entry]? = some f := getElem?_of_prefix h.functions hf
  have hg : functions[entry]? = some g := by
    have hall := checkFunctions_eq_ok_iff.mp hfunctions
    obtain ⟨g', hg', hcheck'⟩ := exists_of_forall₂ hall.flip hp
    have hmore' := Function.check_append_all hcheck more
    rw [hmore, show f.check p.functions = (g', none) from hcheck', Prod.mk.injEq] at hmore'
    rw [hg', hmore'.1]
  have hmark : Reach.unmark (Reach.mark (Reach.unmark functions) [main.entry]) =
      Reach.unmark functions := Reach.unmark_eq_of_mark rfl
  have hentry := congrArg (·[entry]?) hmark
  simp only [Reach.unmark, List.getElem?_map, hg, Option.map_some] at hentry
  obtain ⟨g', hg', heq⟩ := Option.map_eq_some_iff.mp hentry
  injection heq with hname _ _ hargs _ _ _ _ hcode _
  exact ⟨g', hg', hname, hargs, by rw [hcode]⟩

end Program

theorem SourceUnit.extends_read (u : SourceUnit) (p : Program) : p.Extends (u.read p).1 := by
  unfold SourceUnit.read
  split
  · exact .refl p
  · apply Declaration.extends_readAll

namespace Front

theorem Reads.extends {loader : Loader} {f g : Front} {units : List SourceUnit}
    (h : Reads loader f units g) : f.program.Extends g.program := by
  induction h with
  | done hqueue => exact .refl _
  | @read f g u us units hqueue hrest ih =>
    refine Program.Extends.trans ?_ ih
    simp only [step, program_foldl_settle]
    exact u.extends_read f.program

theorem Reads.extends_first {loader : Loader} {f g : Front} {units us : List SourceUnit}
    {u : SourceUnit} (h : Reads loader f units g) (hqueue : f.queue = u :: us) :
    (u.read f.program).1.Extends g.program := by
  cases h with
  | done hnil => simp [hnil] at hqueue
  | @read _ _ v vs units' hcons hrest =>
    obtain ⟨rfl, rfl⟩ := List.cons.inj (hcons.symm.trans hqueue)
    have hextends := hrest.extends
    simp only [step, program_foldl_settle] at hextends
    exact hextends

theorem extends_of_parse {loader : Loader} {entry : String} {options : Options} {p : Program}
    (h : parse loader entry options = .ok p) (hlibrary : options.library = true) :
    (Source.library.read {}).1.Extends p := by
  obtain ⟨start, units, g, -, hreads, -, rfl⟩ := exists_reads_of_parse h
  have hqueue : (initial options.library start).queue = Source.library :: [start] := by
    rw [queue_initial, hlibrary]
    rfl
  have hextends := hreads.extends_first hqueue
  rw [program_initial] at hextends
  exact hextends

end Front

theorem parse_of_read {loader : Loader} {entry : String} {options : Options} {u : SourceUnit}
    {p : Program} (hfetch : loader.fetch entry none = .ok u)
    (hread : u.read (Source.ahead options.library).1 = (p, []))
    (hwords : Front.unknownWords p = []) : parse loader entry options = .ok p := by
  obtain ⟨hprogram, herrors⟩ := Front.run_initial loader hread
  simp only [parse, Program.read, hfetch, Front.finish, hprogram, herrors, hwords]
  rfl

theorem hasLibrary_of_parse {loader : Loader} {entry : String} {options : Options} {p q : Program}
    {warnings : List Diagnostic} (hparse : parse loader entry options = .ok p)
    (hvalid : p.validate = (q, .ok warnings)) (hlibrary : options.library = true) :
    q.HasLibrary := by
  have hextends := Front.extends_of_parse hparse hlibrary
  obtain ⟨hwriteOut, hprintInt, hprintStr, hminus, hbuffer⟩ := Library.conforms_library
  generalize (Source.library.read {}).1 = l at hextends hwriteOut hprintInt hprintStr hminus hbuffer
  obtain ⟨functions, main, -, -, hq, -⟩ := Program.validate_eq_ok hvalid
  have hstrings : q.strings = p.strings := by rw [hq]
  have hmemories : q.memories = p.memories := by rw [hq]
  refine ⟨hextends.defines hvalid hwriteOut, hextends.defines hvalid hprintInt,
    hextends.defines hvalid hprintStr, ?_, ?_⟩
  · rw [hstrings]
    exact getElem?_of_prefix hextends.strings hminus
  · obtain ⟨m, hm, hnamed⟩ := Option.map_eq_some_iff.mp hbuffer
    rw [hmemories, getElem?_of_prefix hextends.memories hm, Option.map_some, hnamed]

end StackLang
