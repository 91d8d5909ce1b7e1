import Mathlib.Data.List.Basic
import StackLang.Compile

/-!
This module contains the reading of tokens that stand elsewhere. A function `m` moves locations;
reading moved tokens gives the moved result, so that nothing but locations depends on locations.
-/

namespace StackLang

variable (m : Location → Location)

def Lexeme.relocate (t : Lexeme) : Lexeme := { t with loc := m t.loc }

def Instruction.relocate (i : Instruction) : Instruction := { i with loc := m i.loc }

def Memory.relocate (memory : Memory) : Memory := { memory with loc := m memory.loc }

def Constant.relocate (constant : Constant) : Constant := { constant with loc := m constant.loc }

def Function.relocate (f : Function) : Function :=
  { f with loc := m f.loc, code := f.code.map (Instruction.relocate m) }

def Program.relocate (p : Program) : Program :=
  { p with
    functions := p.functions.map (Function.relocate m)
    memories := p.memories.map (Memory.relocate m)
    constants := p.constants.map (Constant.relocate m) }

/-- Some faults tell of another place in the text. -/
def SyntaxFault.relocate : SyntaxFault → SyntaxFault
  | definedAsConstant name previous => definedAsConstant name (m previous)
  | definedAsMemory name previous => definedAsMemory name (m previous)
  | duplicateMain first => duplicateMain (m first)
  | duplicateFunction name conflict => duplicateFunction name (m conflict)
  | fault => fault

def SyntaxError.relocate (e : SyntaxError) : SyntaxError := ⟨m e.loc, e.fault.relocate m⟩

def OpenBlock.relocate (s : OpenBlock) : OpenBlock := { s with loc := m s.loc }

def Enclosing.relocate (ctx : Enclosing) : Enclosing :=
  { ctx with globals := ctx.globals.relocate m, stop := m ctx.stop }

def Body.relocate (b : Body) : Body :=
  { b with
    code := b.code.map (Instruction.relocate m)
    blocks := b.blocks.map (OpenBlock.relocate m)
    faults := b.faults.map (SyntaxError.relocate m) }

def Report.relocate : Report → Report
  | fault e => fault (e.relocate m)
  | use loc name => use (m loc) name

def Declaration.Outcome.relocate (o : Outcome) : Outcome :=
  ⟨o.program.relocate m, o.reports.map (Report.relocate m), o.rest.map (Lexeme.relocate m)⟩

namespace Program

theorem constant?_relocate (p : Program) (name : String) :
    (p.relocate m).constant? name = (p.constant? name).map (Constant.relocate m) := by
  simp only [constant?, relocate, List.find?_map]
  rfl

theorem memory?_relocate (p : Program) (name : String) :
    (p.relocate m).memory? name = p.memory? name := by
  simp only [memory?, relocate, List.findIdx?_map]
  rfl

end Program

namespace Body

theorem blocks_of_relocate {b : Body} {blocks : List OpenBlock} (h : b.blocks = blocks) :
    (b.relocate m).blocks = blocks.map (OpenBlock.relocate m) := by
  rw [relocate, h]

theorem length_code_relocate (b : Body) : (b.relocate m).code.length = b.code.length := by
  simp [relocate]

theorem fault_relocate (b : Body) (loc : Location) (f : SyntaxFault) :
    (b.relocate m).fault (m loc) (f.relocate m) = (b.fault loc f).relocate m := by
  simp [fault, relocate, SyntaxError.relocate]

theorem emit_relocate (b : Body) (loc : Location) (op : Op) :
    (b.relocate m).emit (m loc) op = (b.emit loc op).relocate m := by
  simp [emit, relocate, Instruction.relocate]

theorem patch_relocate (b : Body) (i target : Nat) :
    (b.relocate m).patch i target = (b.patch i target).relocate m := by
  have hmodify : ∀ (code : List Instruction) (i : Nat),
      (code.map (Instruction.relocate m)).modify i (fun c => ⟨c.loc, c.op.retarget target⟩) =
        (code.modify i fun c => ⟨c.loc, c.op.retarget target⟩).map (Instruction.relocate m) := by
    intro code
    induction code with
    | nil => simp
    | cons c code ih =>
      intro i
      cases i with
      | zero => simp [Instruction.relocate]
      | succ i => simp [ih]
  simp only [patch, relocate, hmodify]

theorem enter_relocate (b : Body) (loc : Location) (block : Block) :
    (b.relocate m).enter (m loc) block = (b.enter loc block).relocate m := by
  simp [enter, emit, relocate, Instruction.relocate, OpenBlock.relocate]

theorem test_relocate (b : Body) (loc : Location) :
    (b.relocate m).test (m loc) = (b.test loc).relocate m := by
  cases hblocks : b.blocks with
  | nil =>
    simp only [test, hblocks, blocks_of_relocate m hblocks, List.map_nil]
    exact fault_relocate m b loc .strayParen
  | cons s outer =>
    simp only [test, hblocks, blocks_of_relocate m hblocks, List.map_cons, OpenBlock.relocate]
    split
    · exact fault_relocate m b loc .strayParen
    · simp [emit, relocate, Instruction.relocate, OpenBlock.relocate]

theorem orElse_relocate (b : Body) (loc : Location) :
    (b.relocate m).orElse (m loc) = (b.orElse loc).relocate m := by
  cases hblocks : b.blocks with
  | nil =>
    simp only [orElse, hblocks, blocks_of_relocate m hblocks, List.map_nil]
    exact fault_relocate m b loc .strayElse
  | cons s outer =>
    rcases s with ⟨block, start, pending, hasElse, l⟩
    simp only [orElse, hblocks, blocks_of_relocate m hblocks, List.map_cons, OpenBlock.relocate,
      emit_relocate, patch_relocate, length_code_relocate]
    split
    · simp [relocate, OpenBlock.relocate]
    · exact fault_relocate m b loc .secondElse
    · exact fault_relocate m b loc .strayElse

theorem close_relocate (b : Body) (loc : Location) (s : OpenBlock) (outer : List OpenBlock) :
    (b.relocate m).close (m loc) (s.relocate m) (outer.map (OpenBlock.relocate m)) =
      (b.close loc s outer).relocate m := by
  rcases s with ⟨block, start, pending, hasElse, l⟩
  have hopen : { b.relocate m with blocks := outer.map (OpenBlock.relocate m) } =
      ({ b with blocks := outer } : Body).relocate m := rfl
  simp only [close, OpenBlock.relocate, hopen]
  split
  · exact fault_relocate m _ l (.missingTest block)
  · simp only [emit_relocate, patch_relocate, length_code_relocate]
  · simp only [emit_relocate, patch_relocate, length_code_relocate]

theorem finish_relocate (b : Body) (loc : Location) :
    (b.relocate m).finish (m loc) = (b.finish loc).relocate m := by
  have hbindings : (b.relocate m).bindings = b.bindings := rfl
  simp only [finish, hbindings]
  split
  · rfl
  · apply emit_relocate

theorem bind_relocate (b : Body) (loc : Location) (names : List String) :
    (b.relocate m).bind (m loc) names = (b.bind loc names).relocate m := by
  unfold bind
  split
  · exact fault_relocate m b loc .emptyLet
  · simp [emit, relocate, Instruction.relocate]

theorem meaning_relocate (b : Body) (globals : Program) (name : String) :
    (b.relocate m).meaning (globals.relocate m) name = b.meaning globals name := by
  have hbindings : (b.relocate m).bindings = b.bindings := rfl
  simp only [meaning, hbindings, Program.constant?_relocate, Program.memory?_relocate]
  cases b.bindings.reverse.find? (·.name = name) with
  | some binding => rfl
  | none => cases globals.constant? name <;> rfl

theorem simple_relocate (b : Body) (ctx : Enclosing) (t : Lexeme) :
    (b.relocate m).simple (ctx.relocate m) (t.relocate m) = (b.simple ctx t).relocate m := by
  rcases t with ⟨loc, token⟩
  have hglobals : (ctx.relocate m).globals = ctx.globals.relocate m := rfl
  have hname : (ctx.relocate m).name = ctx.name := rfl
  have hstrings : (b.relocate m).strings = b.strings := rfl
  simp only [simple, Lexeme.relocate, hglobals, hname, hstrings, emit_relocate, meaning_relocate]
  split
  case h_4 => rfl
  case h_8 => exact fault_relocate m b loc (.unexpectedToken _ ctx.name)
  all_goals rfl

theorem current_relocate (stop : Location) (ts : List Lexeme) :
    current (m stop) (ts.map (Lexeme.relocate m)) = (current stop ts).relocate m := by
  cases ts <;> rfl

theorem dropWhile_identName?_relocate (ts : List Lexeme) :
    ((ts.map (Lexeme.relocate m)).dropWhile fun t => (identName? t).isSome) =
      (ts.dropWhile fun t => (identName? t).isSome).map (Lexeme.relocate m) := by
  rw [List.dropWhile_map]
  rfl

theorem names_relocate (ts : List Lexeme) :
    ((ts.map (Lexeme.relocate m)).takeWhile fun t => (identName? t).isSome).filterMap identName? =
      (ts.takeWhile fun t => (identName? t).isSome).filterMap identName? := by
  rw [List.takeWhile_map, List.filterMap_map]
  rfl

theorem read_relocate (ctx : Enclosing) (b : Body) (ts : List Lexeme) :
    read (ctx.relocate m) (b.relocate m) (ts.map (Lexeme.relocate m)) =
      ((read ctx b ts).1.relocate m, (read ctx b ts).2.map (Lexeme.relocate m)) := by
  -- tokens and the shape of the open blocks choose the branch, and both are the same elsewhere
  fun_induction read ctx b ts with
  | case1 b =>
    rw [List.map_nil, read]
    exact congrArg (·, []) (fault_relocate m b ctx.stop (.unclosedBody ctx.name))
  | case2 b t ts d hd =>
    rw [List.map_cons, read.eq_def]
    simp only [Lexeme.relocate, hd]
    exact congrArg (·, _) (fault_relocate m b t.loc (.declarationInBody d ctx.name))
  | case3 b t ts hrparen s outer hblocks ih =>
    rw [← ih, ← close_relocate, List.map_cons, read.eq_def]
    simp only [Lexeme.relocate, hrparen, blocks_of_relocate m hblocks, List.map_cons]
  | case4 b t ts hrparen hblocks =>
    rw [List.map_cons, read.eq_def]
    simp only [Lexeme.relocate, hrparen, blocks_of_relocate m hblocks, List.map_nil,
      finish_relocate]
  | case5 b t ts hlparen ih =>
    rw [← ih, ← test_relocate, List.map_cons, read.eq_def]
    simp only [Lexeme.relocate, hlparen]
  | case6 b t ts hif ih =>
    rw [← ih, ← enter_relocate, List.map_cons, read.eq_def]
    simp only [Lexeme.relocate, hif]
  | case7 b t ts hloop ih =>
    rw [← ih, ← enter_relocate, List.map_cons, read.eq_def]
    simp only [Lexeme.relocate, hloop]
  | case8 b t ts helse ih =>
    rw [← ih, ← orElse_relocate, List.map_cons, read.eq_def]
    simp only [Lexeme.relocate, helse]
  | case9 b t ts hin ih =>
    rw [← ih, ← fault_relocate, List.map_cons, read.eq_def]
    simp only [Lexeme.relocate, hin]
    rfl
  | case10 b t ts hlet hle names l rest hrest hlt ih =>
    rw [← ih, ← bind_relocate, List.map_cons, read.eq_def]
    simp only [Lexeme.relocate, hlet]
    split
    · next l' rest' hrest' =>
      rw [dropWhile_identName?_relocate, hrest, List.map_cons, List.cons.injEq] at hrest'
      rw [← hrest'.2, names_relocate]
    · next hne =>
      rw [dropWhile_identName?_relocate, hrest] at hne
      exact absurd rfl (hne (m l) (rest.map (Lexeme.relocate m)))
  | case11 b t ts hlet hle hne found hlt ih =>
    rw [← ih, ← fault_relocate, List.map_cons, read.eq_def]
    simp only [Lexeme.relocate, hlet]
    split
    · next l' rest' hrest' =>
      rw [dropWhile_identName?_relocate] at hrest'
      obtain ⟨t', us, hus, ht', -⟩ := List.map_eq_cons_iff.mp hrest'
      rcases t' with ⟨l, token⟩
      obtain rfl : token = .kwIn := congrArg Lexeme.token ht'
      exact absurd hus (hne l us)
    · have hstop : (ctx.relocate m).stop = m ctx.stop := rfl
      rw [dropWhile_identName?_relocate, hstop, current_relocate]
      rfl
  | case12 b t hcast ih =>
    rw [← ih, ← fault_relocate, List.map_cons, read.eq_def]
    simp only [Lexeme.relocate, hcast, List.map_nil]
    rfl
  | case13 b t hcast target rest ty htype ih =>
    rw [← ih, ← emit_relocate, List.map_cons, List.map_cons, read.eq_def]
    simp only [Lexeme.relocate, hcast, htype]
  | case14 b t hcast target rest name hparam ih =>
    rw [← ih, ← fault_relocate, List.map_cons, List.map_cons, read.eq_def]
    simp only [Lexeme.relocate, hcast, hparam]
    rfl
  | case15 b t hcast target rest hrparen ih =>
    rw [← ih, ← fault_relocate, List.map_cons, List.map_cons, read.eq_def]
    simp only [Lexeme.relocate, hcast, hrparen]
    rfl
  | case16 b t hcast target rest d hdecl ih =>
    rw [← ih, ← fault_relocate, List.map_cons, List.map_cons, read.eq_def]
    simp only [Lexeme.relocate, hcast, hdecl]
    rfl
  | case17 b t hcast target rest h₁ h₂ h₃ h₄ ih =>
    rw [← ih, ← fault_relocate, List.map_cons, List.map_cons, read.eq_def]
    simp only [Lexeme.relocate, hcast]
    rfl
  | case18 b t ts h₁ h₂ h₃ h₄ h₅ h₆ h₇ h₈ h₉ ih =>
    rw [← ih, ← simple_relocate, List.map_cons, read.eq_def]
    simp only [Lexeme.relocate]

theorem reportOpen_relocate (b : Body) : (b.relocate m).reportOpen = b.reportOpen.relocate m := by
  simp only [reportOpen, relocate, List.map_append, List.map_map]
  rfl

end Body

namespace Declaration

open Body (current current_relocate)

theorem skip_relocate (ts : List Lexeme) :
    skip (ts.map (Lexeme.relocate m)) = (skip ts).map (Lexeme.relocate m) := by
  simp only [skip, List.dropWhile_map]
  rfl

theorem atEnd_relocate (ts : List Lexeme) : atEnd (ts.map (Lexeme.relocate m)) = atEnd ts := by
  cases ts <;> rfl

theorem failed_relocate (p : Program) (e : SyntaxError) (ts : List Lexeme) :
    failed (p.relocate m) (e.relocate m) (ts.map (Lexeme.relocate m)) =
      (failed p e ts).relocate m := by
  simp only [failed, skip_relocate, Outcome.relocate]
  rfl

theorem takenName?_relocate (p : Program) (name : String) :
    takenName? (p.relocate m) name = (takenName? p name).map (SyntaxFault.relocate m) := by
  have hconstants : (p.relocate m).constants.find? (·.name = name) =
      (p.constants.find? (·.name = name)).map (Constant.relocate m) :=
    Program.constant?_relocate m p name
  have hmemories : (p.relocate m).memories.find? (·.name = name) =
      (p.memories.find? (·.name = name)).map (Memory.relocate m) := by
    simp only [Program.relocate, List.find?_map]
    rfl
  simp only [takenName?, hconstants, hmemories]
  cases p.constants.find? (·.name = name) with
  | some constant => rfl
  | none => cases p.memories.find? (·.name = name) <;> rfl

theorem globalNameFault?_relocate (p : Program) (name : String) :
    globalNameFault? (p.relocate m) name =
      (globalNameFault? p name).map (SyntaxFault.relocate m) := by
  have hany : (p.relocate m).functions.any (·.name = name) =
      p.functions.any (·.name = name) := by
    simp only [Program.relocate, List.any_map]
    rfl
  simp only [globalNameFault?, hany, takenName?_relocate]
  split <;> rfl

theorem functionNameFault?_relocate (p : Program) (name : String) (overload : Bool) :
    functionNameFault? (p.relocate m) name overload =
      (functionNameFault? p name overload).map (SyntaxFault.relocate m) := by
  have hfilter : (p.relocate m).functions.filter (·.name = name) =
      (p.functions.filter (·.name = name)).map (Function.relocate m) := by
    simp only [Program.relocate, List.filter_map]
    rfl
  simp only [functionNameFault?, hfilter, takenName?_relocate]
  cases takenName? p name with
  | some fault => rfl
  | none =>
    cases p.functions.filter (·.name = name) with
    | nil => rfl
    | cons first others =>
      have hall : ((first :: others).map (Function.relocate m)).all (·.overload) =
          (first :: others).all (·.overload) := by
        rw [List.all_map]
        rfl
      have hfind : ((first :: others).map (Function.relocate m)).find? (!·.overload) =
          ((first :: others).find? (!·.overload)).map (Function.relocate m) := by
        rw [List.find?_map]
        rfl
      simp only [Option.map_none, List.map_cons] at hall hfind ⊢
      rw [hall, hfind]
      split
      · rfl
      · split
        · rfl
        · cases (first :: others).find? (!·.overload) <;> rfl

theorem expectName_relocate (d : Declarator) (stop : Location) (ts : List Lexeme) :
    expectName d (m stop) (ts.map (Lexeme.relocate m)) =
      ((expectName d stop ts).mapError (SyntaxError.relocate m)).map fun n => (n.1, m n.2) := by
  simp only [expectName, current_relocate, Lexeme.relocate]
  split <;> rfl

theorem operand_relocate (p : Program) (stop : Location) (ts : List Lexeme) :
    operand (p.relocate m) (m stop) (ts.map (Lexeme.relocate m)) =
      ((operand p stop ts).1.mapError (SyntaxError.relocate m),
        (operand p stop ts).2.map (Lexeme.relocate m)) := by
  have hrest : (if atEnd ts then ts.map (Lexeme.relocate m) else ts.tail.map (Lexeme.relocate m)) =
      (if atEnd ts then ts else ts.tail).map (Lexeme.relocate m) := by
    split <;> rfl
  simp only [operand, current_relocate, Lexeme.relocate, atEnd_relocate, ← List.map_tail, hrest,
    Program.constant?_relocate]
  split
  · rfl
  · next name _ => cases p.constant? name <;> rfl
  · rfl

theorem apply_relocate (name : String) (a b : Int64) (t : Lexeme) :
    apply name a b (t.relocate m) = (apply name a b t).mapError (SyntaxError.relocate m) := by
  simp only [apply, Lexeme.relocate]
  split
  · split <;> rfl
  · split <;> rfl
  · rfl

theorem constValue_relocate (p : Program) (name : String) (stop : Location) (ts : List Lexeme) :
    constValue (p.relocate m) name (m stop) (ts.map (Lexeme.relocate m)) =
      ((constValue p name stop ts).1.mapError (SyntaxError.relocate m),
        (constValue p name stop ts).2.map (Lexeme.relocate m)) := by
  simp only [constValue, operand_relocate]
  rcases operand p stop ts with ⟨first, us⟩
  cases first with
  | error e => rfl
  | ok a =>
    simp only [Except.mapError, atEnd_relocate, operand_relocate]
    split
    · rfl
    · rcases operand p stop us with ⟨second, vs⟩
      cases second with
      | error e => rfl
      | ok b =>
        simp only [current_relocate, apply_relocate, ← List.map_tail, atEnd_relocate]
        cases apply name a b (current stop vs) with
        | error e => rfl
        | ok n =>
          simp only [Except.mapError]
          split <;> rfl

theorem const_relocate (p : Program) (stop : Location) (ts : List Lexeme) :
    const (p.relocate m) (m stop) (ts.map (Lexeme.relocate m)) = (const p stop ts).relocate m := by
  simp only [const, expectName_relocate]
  cases expectName .const stop ts with
  | error e => exact failed_relocate m p e ts
  | ok n =>
    rcases n with ⟨name, loc⟩
    simp only [Except.mapError, Except.map, ← List.map_tail, constValue_relocate,
      globalNameFault?_relocate]
    rcases constValue p name stop ts.tail with ⟨result, rest⟩
    cases result with
    | error e => exact failed_relocate m p e rest
    | ok value =>
      cases globalNameFault? p name with
      | some fault => rfl
      | none => simp [Outcome.relocate, Program.relocate, Constant.relocate]

theorem size_relocate (p : Program) (name : String) (t : Lexeme) :
    size (p.relocate m) name (t.relocate m) =
      (size p name t).mapError (SyntaxError.relocate m) := by
  simp only [size, Lexeme.relocate, Program.constant?_relocate]
  split
  · rfl
  · next c _ => cases p.constant? c <;> rfl
  · rfl

theorem var_relocate (p : Program) (stop : Location) (ts : List Lexeme) :
    var (p.relocate m) (m stop) (ts.map (Lexeme.relocate m)) = (var p stop ts).relocate m := by
  simp only [var, expectName_relocate]
  cases expectName .var stop ts with
  | error e => exact failed_relocate m p e ts
  | ok n =>
    rcases n with ⟨name, loc⟩
    simp only [Except.mapError, Except.map, ← List.map_tail, current_relocate, size_relocate,
      globalNameFault?_relocate]
    cases size p name (current stop ts.tail) with
    | error e => exact failed_relocate m p e ts.tail.tail
    | ok n =>
      simp only
      split
      · rfl
      · cases globalNameFault? p name with
        | some fault => rfl
        | none => simp [Outcome.relocate, Program.relocate, Memory.relocate]

theorem usingFile_relocate (p : Program) (stop : Location) (ts : List Lexeme) :
    usingFile (p.relocate m) (m stop) (ts.map (Lexeme.relocate m)) =
      (usingFile p stop ts).relocate m := by
  simp only [usingFile, current_relocate, Lexeme.relocate, ← List.map_tail]
  split
  · rfl
  · rfl
  · exact failed_relocate m p ⟨_, .expectedFile _⟩ ts.tail

theorem kinds_relocate (ts : List Lexeme) : kinds (ts.map (Lexeme.relocate m)) = kinds ts := by
  simp only [kinds, List.filterMap_map]
  rfl

theorem kindFaults_relocate (ts : List Lexeme) :
    kindFaults (ts.map (Lexeme.relocate m)) = (kindFaults ts).map (SyntaxError.relocate m) := by
  simp only [kindFaults, List.filter_map, List.map_map]
  rfl

theorem map_fault_relocate (faults : List SyntaxError) :
    (faults.map (SyntaxError.relocate m)).map Report.fault =
      (faults.map Report.fault).map (Report.relocate m) := by
  simp only [List.map_map]
  rfl

theorem withBody_of_lparen (p : Program) (f : Function) (faults : List SyntaxError)
    (stop loc : Location) (ts : List Lexeme) :
    withBody p f faults stop (⟨loc, .lparen⟩ :: ts) =
      let read := Body.read ⟨f.name, p, stop⟩ { strings := p.strings } ts
      ⟨{ p with
          functions := p.functions ++ [{ f with code := read.1.code, bindings := read.1.bindings }]
          strings := read.1.strings },
        (faults ++ read.1.reportOpen.faults).map .fault, read.2⟩ := rfl

theorem withBody_of_ne_lparen (p : Program) (f : Function) (faults : List SyntaxError)
    (stop : Location) {ts : List Lexeme} (h : (current stop ts).token ≠ .lparen) :
    withBody p f faults stop ts =
      ⟨{ p with functions := p.functions ++ [f] },
        (faults ++ [SyntaxError.mk (current stop ts).loc
          (.expectedBody f.name (current stop ts).token)]).map .fault, skip ts⟩ := by
  unfold withBody
  split
  · exact absurd rfl h
  · rfl

theorem withBody_relocate (p : Program) (f : Function) (faults : List SyntaxError)
    (stop : Location) (ts : List Lexeme) :
    withBody (p.relocate m) (f.relocate m) (faults.map (SyntaxError.relocate m)) (m stop)
      (ts.map (Lexeme.relocate m)) = (withBody p f faults stop ts).relocate m := by
  by_cases hopen : (current stop ts).token = .lparen
  · cases ts with
    | nil => simp [current] at hopen
    | cons t ts =>
      rcases t with ⟨loc, token⟩
      obtain rfl : token = .lparen := hopen
      have hread : Body.read ⟨f.name, p.relocate m, m stop⟩ { strings := p.strings }
          (ts.map (Lexeme.relocate m)) = _ :=
        Body.read_relocate m ⟨f.name, p, stop⟩ { strings := p.strings } ts
      have hts : (Lexeme.mk loc .lparen :: ts).map (Lexeme.relocate m) =
          ⟨m loc, .lparen⟩ :: ts.map (Lexeme.relocate m) := rfl
      have hname : (f.relocate m).name = f.name := rfl
      have hstrings : (p.relocate m).strings = p.strings := rfl
      rw [hts, withBody_of_lparen, withBody_of_lparen, hname, hstrings, hread]
      simp only [Body.reportOpen_relocate, Outcome.relocate, ← map_fault_relocate]
      simp [Body.relocate, Program.relocate, Function.relocate]
  · have hopen' : (current (m stop) (ts.map (Lexeme.relocate m))).token ≠ .lparen := by
      rw [current_relocate]
      exact hopen
    rw [withBody_of_ne_lparen _ _ _ _ hopen, withBody_of_ne_lparen _ _ _ _ hopen',
      current_relocate, skip_relocate, Outcome.relocate, ← map_fault_relocate]
    simp [Program.relocate, SyntaxError.relocate, SyntaxFault.relocate, Lexeme.relocate,
      Function.relocate]

theorem takeWhile_endsKinds_relocate (ts : List Lexeme) :
    (ts.map (Lexeme.relocate m)).takeWhile (!endsKinds ·) =
      (ts.takeWhile (!endsKinds ·)).map (Lexeme.relocate m) := by
  rw [List.takeWhile_map]
  rfl

theorem dropWhile_endsKinds_relocate (ts : List Lexeme) :
    (ts.map (Lexeme.relocate m)).dropWhile (!endsKinds ·) =
      (ts.dropWhile (!endsKinds ·)).map (Lexeme.relocate m) := by
  rw [List.dropWhile_map]
  rfl

theorem function_relocate (p : Program) (internal overload : Bool) (stop : Location)
    (ts : List Lexeme) :
    function (p.relocate m) internal overload (m stop) (ts.map (Lexeme.relocate m)) =
      (function p internal overload stop ts).relocate m := by
  simp only [function, expectName_relocate]
  cases expectName (if overload then .fnOverload else .fn) stop ts with
  | error e => exact failed_relocate m p e ts
  | ok n =>
    rcases n with ⟨name, loc⟩
    have hbody : ∀ argTokens retTokens rest,
        withBody (p.relocate m)
          { name, entry := (p.relocate m).functions.length, loc := m loc,
            args := kinds (argTokens.map (Lexeme.relocate m)),
            rets := kinds (retTokens.map (Lexeme.relocate m)), overload, internal }
          (((functionNameFault? (p.relocate m) name overload).map
            (SyntaxError.mk (m loc))).toList ++ kindFaults (argTokens.map (Lexeme.relocate m)) ++
            kindFaults (retTokens.map (Lexeme.relocate m))) (m stop)
          (rest.map (Lexeme.relocate m)) =
        (withBody p
          { name, entry := p.functions.length, loc, args := kinds argTokens,
            rets := kinds retTokens, overload, internal }
          (((functionNameFault? p name overload).map (SyntaxError.mk loc)).toList ++
            kindFaults argTokens ++ kindFaults retTokens) stop rest).relocate m := by
      intro argTokens retTokens rest
      rw [← withBody_relocate, functionNameFault?_relocate]
      simp only [kinds_relocate, kindFaults_relocate, List.map_append, Program.relocate,
        List.length_map]
      cases functionNameFault? p name overload <;> rfl
    simp only [Except.mapError, Except.map, ← List.map_tail, takeWhile_endsKinds_relocate,
      dropWhile_endsKinds_relocate]
    -- results are declared behind an arrow, or not at all
    generalize ts.tail.dropWhile (!endsKinds ·) = after
    by_cases harrow : ∃ l us, after = ⟨l, .arrow⟩ :: us
    · obtain ⟨l, us, rfl⟩ := harrow
      have hus : (Lexeme.mk l .arrow :: us).map (Lexeme.relocate m) =
          ⟨m l, .arrow⟩ :: us.map (Lexeme.relocate m) := rfl
      simp only [hus, takeWhile_endsKinds_relocate, dropWhile_endsKinds_relocate]
      apply hbody
    · split
      · next l us hus =>
        obtain ⟨⟨l', token⟩, vs, hvs, hl', -⟩ := List.map_eq_cons_iff.mp hus
        obtain rfl : token = .arrow := congrArg Lexeme.token hl'
        exact absurd ⟨l', vs, hvs⟩ harrow
      · split
        · exact absurd ⟨_, _, rfl⟩ harrow
        · exact hbody _ [] after

theorem read_relocate (p : Program) (internal : Bool) (stop : Location) (t : Lexeme)
    (ts : List Lexeme) :
    read (p.relocate m) internal (m stop) (t.relocate m) (ts.map (Lexeme.relocate m)) =
      (read p internal stop t ts).relocate m := by
  rcases t with ⟨loc, token⟩
  simp only [read, Lexeme.relocate]
  split
  · apply function_relocate
  · apply function_relocate
  · apply const_relocate
  · apply var_relocate
  · apply usingFile_relocate
  · exact failed_relocate m p ⟨loc, .expectedDeclaration _⟩ ts

theorem readAll_relocate (internal : Bool) (stop : Location) (p : Program) (ts : List Lexeme) :
    readAll internal (m stop) (p.relocate m) (ts.map (Lexeme.relocate m)) =
      ((readAll internal stop p ts).1.relocate m,
        (readAll internal stop p ts).2.map (Report.relocate m)) := by
  fun_induction readAll internal stop p ts with
  | case1 p => simp [readAll]
  | case2 p t ts one q reports hrest ih =>
    rw [hrest] at ih
    simp only [one] at ih
    rw [List.map_cons, readAll, read_relocate]
    simp only [Outcome.relocate, ih, List.map_append]
    rfl

end Declaration

end StackLang
