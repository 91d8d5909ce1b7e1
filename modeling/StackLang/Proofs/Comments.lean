import StackLang.Proofs.Closure
import StackLang.Proofs.Layout
import StackLang.Proofs.Provenance

/-!
This module contains what an assembler makes of the names that stand in comments. A line that ends
in a backslash is joined with the next one, so a comment that a name ends takes up the next line too
if the name ends in a backslash. Apart from that, names leave no trace in what is assembled.
-/

namespace StackLang
namespace Assembly

/-! ## Lines as an assembler reads them -/

def endsInBackslash (s : String) : Bool := s.toList.getLast? = some '\\'

/-- Puts a line in front of others. A line that ends in a backslash goes on in the next one. -/
def joinLine (line : List Char) : List (List Char) → List (List Char)
  | [] => [line]
  | next :: rest =>
    if line.getLast? = some '\\' then (line.dropLast ++ next) :: rest else line :: next :: rest

def logicalLines (text : String) : List (List Char) :=
  (text.toList.splitOn '\n').foldr joinLine []

def uncommented (line : List Char) : List Char := line.takeWhile (· ≠ ';')

def codeOf (lines : List (List Char)) : List (List Char) :=
  (lines.map uncommented).filter (·.any (· ≠ ' '))

/-- What an assembler reads: labels, instructions and reservations. -/
def statements (text : String) : List (List Char) := codeOf (logicalLines text)

def written (lines : List Line) : List (List Char) := codeOf (lines.map (·.render.toList))

def Line.continues (line : Line) : Bool := endsInBackslash line.render

/--
The lines that do not follow a line that goes on. The line in front of all goes on if `joined`.
-/
def visible : Bool → List Line → List Line
  | _, [] => []
  | joined, line :: rest => (if joined then [] else [line]) ++ visible line.continues rest

def swallowed : Bool → List Line → List Line
  | _, [] => []
  | joined, line :: rest => (if joined then [line] else []) ++ swallowed line.continues rest

theorem codeOf_append (a b : List (List Char)) : codeOf (a ++ b) = codeOf a ++ codeOf b := by
  simp [codeOf]

theorem codeOf_cons (line : List Char) (lines : List (List Char)) :
    codeOf (line :: lines) = codeOf [line] ++ codeOf lines :=
  codeOf_append [line] lines

theorem written_append (a b : List Line) : written (a ++ b) = written a ++ written b := by
  simp [written, codeOf_append]

theorem endsInBackslash_eq_false {s : String} (h : '\\' ∉ s.toList) :
    endsInBackslash s = false := by
  rw [endsInBackslash, decide_eq_false_iff_not]
  exact fun hlast => h (List.mem_of_getLast? hlast)

/-! ## Remarks -/

def Line.unremarked : Line → Line
  | comment _ => comment ""
  | label l remark => label l (remark.map fun _ => "")
  | reserve l size remark => reserve l size (remark.map fun _ => "")
  | line => line

theorem toList_renderRemark (remark : Option String) :
    (renderRemark remark).toList =
      (renderRemark (remark.map fun _ => "")).toList ++ (remark.getD "").toList := by
  cases remark <;> simp [renderRemark, toString]

theorem Line.toList_render (line : Line) :
    line.render.toList = line.unremarked.render.toList ++ (line.remark?.getD "").toList := by
  cases line with
  | label l remark | reserve l size remark =>
    simp [render, unremarked, remark?, toString, toList_renderRemark remark]
  | _ => simp [render, unremarked, remark?, toString]

theorem Line.comment_mem_unremarked {line : Line} {text : String} (h : line.remark? = some text) :
    ';' ∈ line.unremarked.render.toList := by
  cases line <;> simp_all [remark?, unremarked, render, renderRemark, toString]

theorem uncommented_append {a : List Char} (h : ';' ∈ a) (b : List Char) :
    uncommented (a ++ b) = uncommented a := by
  obtain ⟨before, after, rfl⟩ := List.append_of_mem h
  simp [uncommented, List.takeWhile_append]

theorem Line.uncommented_unremarked (line : Line) :
    uncommented line.unremarked.render.toList = uncommented line.render.toList := by
  rw [line.toList_render]
  cases h : line.remark? with
  | none => simp
  | some text => rw [uncommented_append (comment_mem_unremarked h)]

theorem written_unremarked {lines lines' : List Line}
    (h : lines.map Line.unremarked = lines'.map Line.unremarked) :
    written lines = written lines' := by
  have hself (lines : List Line) : written lines =
      ((lines.map Line.unremarked).map fun line => uncommented line.render.toList).filter
        (·.any (· ≠ ' ')) := by
    simp [written, codeOf, Line.uncommented_unremarked, Function.comp_def]
  rw [hself lines, hself lines', h]

/-! ## Code without backslashes -/

theorem backslash_not_mem_toDigits (n : Nat) : '\\' ∉ Nat.toDigits 10 n := by
  intro hmem
  exact absurd (Nat.isDigit_of_mem_toDigits (by decide) (by decide) hmem) (by decide)

theorem backslash_not_mem_int (i : Int) : '\\' ∉ i.repr.toList := by
  cases i with
  | ofNat n => simpa [Int.repr] using backslash_not_mem_toDigits n
  | negSucc n => simpa [Int.repr] using backslash_not_mem_toDigits (n + 1)

theorem Reg.backslash_not_mem (r : Reg) : '\\' ∉ r.render.toList := by
  cases r <;> decide

theorem Reg.backslash_not_mem_byte (r : Reg) : '\\' ∉ r.renderByte.toList := by
  cases r <;> decide

theorem Label.backslash_not_mem (l : Label) : '\\' ∉ l.render.toList := by
  cases l <;> simp [render, toString, backslash_not_mem_toDigits]

theorem Operand.backslash_not_mem (o : Operand) : '\\' ∉ o.render.toList := by
  cases o <;>
    simp [render, toString, Reg.backslash_not_mem, Label.backslash_not_mem, backslash_not_mem_int]

theorem Address.backslash_not_mem (a : Address) : '\\' ∉ a.render.toList := by
  cases a <;> simp [render, toString, Reg.backslash_not_mem, backslash_not_mem_toDigits]

theorem Instr.backslash_not_mem (i : Instr) : '\\' ∉ i.render.toList := by
  have hbinary (op : Binary) : '\\' ∉ op.render.toList := by cases op <;> decide
  have hcondition (c : Condition) : '\\' ∉ c.render.toList := by cases c <;> decide
  cases i <;> simp [render, toString, Reg.backslash_not_mem, Reg.backslash_not_mem_byte,
    Operand.backslash_not_mem, Address.backslash_not_mem, Label.backslash_not_mem, hbinary,
    hcondition]

theorem backslash_not_mem_intercalate {texts : List String} (h : ∀ s ∈ texts, '\\' ∉ s.toList) :
    '\\' ∉ (", ".intercalate texts).toList := by
  match texts with
  | [] => simp
  | [s] => simpa using h
  | s :: t :: texts =>
    rw [List.forall_mem_cons] at h
    have hrest := backslash_not_mem_intercalate h.2
    rw [String.intercalate_cons_cons, String.toList_append, String.toList_append]
    simp [-String.toList_intercalate, h.1, hrest]

theorem Line.backslash_not_mem (line : Line) : '\\' ∉ line.unremarked.render.toList := by
  have hremark (remark : Option String) :
      '\\' ∉ (renderRemark (remark.map fun _ => "")).toList := by
    cases remark <;> simp [renderRemark, toString]
  cases line with
  | bytes bs =>
    have hbytes : '\\' ∉ (", ".intercalate (bs.map fun b => toString b.toNat)).toList :=
      backslash_not_mem_intercalate (by simp [backslash_not_mem_toDigits])
    simpa [unremarked, render, toString] using hbytes
  | _ => simp [unremarked, render, toString, Label.backslash_not_mem, Instr.backslash_not_mem,
      backslash_not_mem_toDigits, hremark]

theorem Line.continues_eq (line : Line) :
    line.continues = endsInBackslash (line.remark?.getD "") := by
  unfold continues endsInBackslash
  rw [line.toList_render, List.getLast?_append]
  cases h : (line.remark?.getD "").toList.getLast? with
  | none => exact endsInBackslash_eq_false line.backslash_not_mem
  | some c => rfl

theorem Line.uncommented_dropLast {line : Line} (h : line.continues = true) (next : List Char) :
    uncommented (line.render.toList.dropLast ++ next) = uncommented line.render.toList := by
  rw [line.continues_eq] at h
  cases hremark : line.remark? with
  | none => simp [hremark, endsInBackslash] at h
  | some text =>
    have hcomment := line.comment_mem_unremarked hremark
    rw [hremark, Option.getD_some, endsInBackslash, decide_eq_true_eq] at h
    have hne : text.toList ≠ [] := by
      intro hnil
      simp [hnil] at h
    rw [line.toList_render, hremark, Option.getD_some, List.dropLast_append_of_ne_nil hne,
      List.append_assoc, uncommented_append hcomment, uncommented_append hcomment]

/-! ## Joined lines -/

theorem exists_joinLine (lines : List Line) :
    ∃ first others,
      (lines.map (fun line : Line => line.render.toList) ++ [[]]).foldr joinLine [] =
        first :: others ∧
      codeOf (first :: others) = written (visible false lines) ∧
      codeOf others = written (visible true lines) := by
  -- if the line before goes on, all is read but the first line
  induction lines with
  | nil => exact ⟨[], [], rfl, rfl, rfl⟩
  | cons line lines ih =>
    obtain ⟨first, others, hjoined, hall, hothers⟩ := ih
    have hwritten (lines : List Line) :
        written (line :: lines) = codeOf [line.render.toList] ++ written lines :=
      written_append [line] lines
    rw [List.map_cons, List.cons_append, List.foldr_cons, hjoined]
    cases hline : line.continues with
    | true =>
      have hjoin : joinLine line.render.toList (first :: others) =
          (line.render.toList.dropLast ++ first) :: others :=
        if_pos (of_decide_eq_true hline)
      have hfirst : codeOf [line.render.toList.dropLast ++ first] =
          codeOf [line.render.toList] := by
        simp [codeOf, Line.uncommented_dropLast hline]
      refine ⟨_, _, hjoin, ?_, ?_⟩
      · rw [codeOf_cons, hfirst, hothers, visible, hline, ← hwritten]
        rfl
      · rw [hothers, visible, hline]
        rfl
    | false =>
      have hjoin : joinLine line.render.toList (first :: others) =
          line.render.toList :: first :: others :=
        if_neg (of_decide_eq_false hline)
      refine ⟨_, _, hjoin, ?_, ?_⟩
      · rw [codeOf_cons, hall, visible, hline, ← hwritten]
        rfl
      · rw [hall, visible, hline]
        rfl

theorem statements_renderLines {lines : List Line}
    (h : ∀ line ∈ lines, ∀ text ∈ line.remark?, Text.OneLine text) :
    statements (renderLines lines) = written (visible false lines) := by
  obtain ⟨first, others, hjoined, hall, -⟩ := exists_joinLine lines
  rw [statements, logicalLines,
    splitOn_renderLines fun line hline => Line.oneLine_render (h line hline), hjoined, hall]

theorem visible_of_swallowed {joined : Bool} {lines : List Line}
    (h : swallowed joined lines = []) : visible joined lines = lines := by
  induction lines generalizing joined with
  | nil => rfl
  | cons line lines ih =>
    rw [swallowed, List.append_eq_nil_iff] at h
    rw [visible, ih h.2]
    cases joined with
    | true => simp at h
    | false => rfl

theorem length_written (joined : Bool) (lines : List Line) :
    (written lines).length =
      (written (visible joined lines)).length + (written (swallowed joined lines)).length := by
  induction lines generalizing joined with
  | nil => rfl
  | cons line lines ih =>
    have hcons := written_append [line] lines
    rw [List.singleton_append] at hcons
    rw [hcons, visible, swallowed, written_append, written_append, List.length_append,
      List.length_append, List.length_append, ih line.continues]
    cases joined with
    | true => simp [written, codeOf]; omega
    | false => simp [written, codeOf]; omega

theorem Line.written_ne_nil {line : Line} {l : Label} (h : line.defined? = some l) :
    written [line] ≠ [] := by
  obtain ⟨rest, hrest⟩ : ∃ rest, line.render.toList = l.render.toList ++ rest := by
    cases line with
    | label l' remark | quad l' value | reserve l' size remark =>
      simp only [defined?, Option.some.injEq] at h
      subst h
      simp [render, toString]
    | _ => simp [defined?] at h
  obtain ⟨hne, hword⟩ := l.isWord
  obtain ⟨c, cs, hc⟩ := List.exists_cons_of_ne_nil (mt String.toList_eq_nil_iff.mp hne)
  rw [hc, List.any_cons, Bool.or_eq_false_iff] at hword
  have hcomment : c ≠ ';' := by
    rintro rfl
    exact absurd hword.1 (by decide)
  have hblank : c ≠ ' ' := by
    rintro rfl
    exact absurd hword.1 (by decide)
  simp [written, codeOf, uncommented, hrest, hc, hcomment, hblank]

/--
An assembler reads the lines as they were written, without those that define the labels `lost`.
-/
structure Loses (lines : List Line) (lost : List Label) : Prop where
  reads : statements (renderLines lines) = written (visible false lines)
  loses : (swallowed false lines).map Line.defined? = lost.map some
  whole : statements (renderLines lines) = written lines ↔ lost = []

theorem loses_of_swallowed {lines : List Line} {lost : List Label}
    (hremarks : ∀ line ∈ lines, ∀ text ∈ line.remark?, Text.OneLine text)
    (hlost : (swallowed false lines).map Line.defined? = lost.map some) : Loses lines lost := by
  have hread := statements_renderLines hremarks
  refine ⟨hread, hlost, ?_⟩
  rw [hread]
  constructor
  · intro hsame
    have hlength := length_written false lines
    rw [hsame, Nat.left_eq_add, List.length_eq_zero_iff] at hlength
    cases lost with
    | nil => rfl
    | cons l lost =>
      obtain ⟨line, others, hlines, hl, -⟩ := List.map_eq_cons_iff.mp hlost
      rw [hlines, ← List.singleton_append, written_append, List.append_eq_nil_iff] at hlength
      exact absurd hlength.1 (line.written_ne_nil hl)
  · rintro rfl
    rw [visible_of_swallowed (List.map_eq_nil_iff.mp hlost)]

/-! ## The lines of a program -/

theorem Line.continues_of_remark {line : Line}
    (h : ∀ text ∈ line.remark?, endsInBackslash text = false) : line.continues = false := by
  rw [line.continues_eq]
  cases hremark : line.remark? with
  | none => rfl
  | some text => exact h text hremark

theorem swallowed_append {front : List Line} (h : ∀ line ∈ front, line.continues = false)
    (lines : List Line) : swallowed false (front ++ lines) = swallowed false lines := by
  induction front with
  | nil => rfl
  | cons line front ih =>
    rw [List.forall_mem_cons] at h
    rw [List.cons_append, swallowed, h.1, ih h.2]
    rfl

end Assembly

theorem Op.endsInBackslash_name {op : Op} (hword : ∀ name, op ≠ .word name)
    (hcast : ∀ k, op = .cast k → k.isConcrete = true ∨ k = .any) :
    Assembly.endsInBackslash op.name = false := by
  cases op with
  | word name => exact absurd rfl (hword name)
  | cast k =>
    rcases hcast k rfl with hk | rfl
    · cases k <;> simp [Kind.isConcrete] at hk <;> decide
    · decide
  | pushInt n => exact Assembly.endsInBackslash_eq_false (Assembly.backslash_not_mem_int _)
  | pushBool b => cases b <;> decide
  | pushChar b =>
    have hname : (pushChar b).name = "'" ++ Text.escaped '\'' (Char.ofNat b.toNat) ++ "'" := rfl
    rw [hname, Assembly.endsInBackslash, String.toList_append, List.getLast?_append]
    rfl
  | prim p => cases p <;> decide
  | enter b => cases b <;> decide
  | syscall n | call n =>
    apply Assembly.endsInBackslash_eq_false
    simp [name, toString, Assembly.backslash_not_mem_toDigits]
  | _ => simp [name, Assembly.endsInBackslash]

namespace Assembly

/-- The label of a reservation, of which the one for the return stack is the last. -/
def reservation (memories index : Nat) : Label :=
  if index < memories then .mem index else .returnStack

theorem swallowed_blockLines {q : Program} {f : Function}
    (hcode : lowerCode q 0 0 f.code = .ok (codeLines q f))
    (hnames : ∀ i ∈ f.code, endsInBackslash i.op.name = false) (lines : List Line) :
    swallowed false (blockLines q f ++ lines) =
      (if endsInBackslash f.signature then [.label (.fn f.entry)] else []) ++
        swallowed false lines := by
  have hinstr (i : Instr) : (Line.instr i).continues = false :=
    Line.continues_of_remark (by simp [Line.remark?])
  have hinside : ∀ line ∈ (functionLines f.entry (codeLines q f)).tail, line.continues = false := by
    simp only [functionLines, List.tail_cons, List.mem_append, List.mem_map]
    rintro line ((⟨i, -, rfl⟩ | hline) | ⟨i, -, rfl⟩)
    · exact hinstr i
    · apply Line.continues_of_remark
      intro text htext
      obtain ⟨i, hi, rfl⟩ := remark_of_mem_lowerCode hcode hline htext
      exact hnames i hi
    · exact hinstr i
  have hblank : Line.blank.continues = false := rfl
  have hcomment : (Line.comment f.signature).continues = endsInBackslash f.signature :=
    Line.continues_eq _
  have hlabel : (Line.label (.fn f.entry)).continues = false :=
    Line.continues_of_remark (by simp [Line.remark?])
  have hblock : blockLines q f ++ lines = .blank :: .comment f.signature ::
      .label (.fn f.entry) :: ((functionLines f.entry (codeLines q f)).tail ++ lines) := rfl
  rw [hblock, swallowed, swallowed, swallowed, hblank, hcomment, hlabel, swallowed_append hinside]
  rfl

theorem swallowed_reservations (joined : Bool) (memories : List Memory) (k : Nat) :
    (swallowed joined ((memories.zipIdx k).map (fun r : Memory × Nat => memoryLine r.1 r.2) ++
      [.reserve .returnStack returnStackSize, .label .returnStackEnd])).map Line.defined? =
      ((if joined then [k] else []) ++
        ((memories.zipIdx k).filter fun r : Memory × Nat => endsInBackslash r.1.name).map
          fun r : Memory × Nat => r.2 + 1).map
        fun index => some (reservation (k + memories.length) index) := by
  -- each region decides by its name what becomes of the next line, the last one of the return stack
  induction memories generalizing joined k with
  | nil =>
    have hreserve : (Line.reserve .returnStack returnStackSize).continues = false :=
      Line.continues_of_remark (by simp [Line.remark?])
    cases joined <;> simp [swallowed, hreserve, Line.defined?, reservation]
  | cons m memories ih =>
    have hown : (memoryLine m k).continues = endsInBackslash m.name := Line.continues_eq _
    have hdefined : (memoryLine m k).defined? = some (.mem k) := rfl
    have hlength : k + (memories.length + 1) = k + 1 + memories.length := by omega
    have hindex : reservation (k + 1 + memories.length) k = .mem k := if_pos (by omega)
    rw [List.zipIdx_cons, List.map_cons, List.cons_append, swallowed, List.map_append, hown, ih]
    cases joined <;> cases hm : endsInBackslash m.name <;> simp [hm, hdefined, hlength, hindex]

namespace Sections

variable {q : Program} {main : Nat} {a : Assembly}

theorem swallowed_text (h : Sections q main a)
    (hnames : ∀ f ∈ lowered q, ∀ i ∈ f.code, endsInBackslash i.op.name = false) :
    swallowed false a.text =
      ((lowered q).filter (endsInBackslash ·.signature)).map fun f => .label (.fn f.entry) := by
  have hentry : ∀ line ∈ entryPoint main, line.continues = false := by
    intro line hline
    apply Line.continues_of_remark
    simp [remark?_of_mem_entryPoint hline]
  have hcode := h.code
  rw [h.text, swallowed_append hentry]
  generalize lowered q = fs at hcode hnames
  induction fs with
  | nil => rfl
  | cons f fs ih =>
    rw [List.forall_mem_cons] at hcode hnames
    rw [List.flatMap_cons, swallowed_blockLines hcode.1 hnames.1, ih hcode.2 hnames.2]
    cases hf : endsInBackslash f.signature <;> simp [hf]

theorem loses_text (h : Sections q main a)
    (hremarks : ∀ line ∈ a.text, ∀ text ∈ line.remark?, Text.OneLine text)
    (hnames : ∀ f ∈ lowered q, ∀ i ∈ f.code, endsInBackslash i.op.name = false) :
    Loses a.text (((lowered q).filter (endsInBackslash ·.signature)).map (.fn ·.entry)) := by
  apply loses_of_swallowed hremarks
  rw [h.swallowed_text hnames, List.map_map, List.map_map]
  rfl

theorem loses_bss (h : Sections q main a)
    (hremarks : ∀ line ∈ a.bss, ∀ text ∈ line.remark?, Text.OneLine text) :
    Loses a.bss ((q.memories.zipIdx.filter fun r => endsInBackslash r.1.name).map fun r =>
      reservation q.memories.length (r.2 + 1)) := by
  apply loses_of_swallowed hremarks
  have hswallowed := swallowed_reservations false q.memories 0
  rw [Nat.zero_add] at hswallowed
  rw [h.bss]
  refine hswallowed.trans ?_
  rw [if_neg (by simp), List.nil_append, List.map_map, List.map_map]
  rfl

end Sections

end Assembly

/-! ## Programs without names -/

/-- A function without its name, its signature and the places it comes from. -/
structure Routine where
  entry : Nat
  called : Bool
  ops : List Op
deriving DecidableEq

def Function.routine (f : Function) : Routine := ⟨f.entry, f.called, f.code.map (·.op)⟩

structure Outline where
  main : Option Routine
  routines : List Routine
  sizes : List Nat
  strings : List String
deriving DecidableEq

def Program.outline (p : Program) : Outline where
  main := p.main?.map Function.routine
  routines := p.functions.map Function.routine
  sizes := p.memories.map (·.size)
  strings := p.strings

namespace Assembly

section

variable {p q : Program} (hpq : q.functions.map Function.routine = p.functions.map Function.routine)
include hpq

theorem lowerOp_of_routines {bound : Nat} {i j : Instruction} (hop : j.op = i.op)
    {instrs : List Instr} (h : lowerOp p bound i = .ok instrs) :
    lowerOp q bound j = .ok instrs := by
  unfold lowerOp at h ⊢
  rw [hop]
  cases hi : i.op with
  | call entry =>
    have hcallee := congrArg (fun routines : List Routine => routines[entry]?) hpq
    simp only [List.getElem?_map] at hcallee
    simp only [hi] at h ⊢
    cases hf : p.functions[entry]? with
    | none => simp [hf] at h
    | some f =>
      rw [hf, Option.map_some, Option.map_eq_some_iff] at hcallee
      obtain ⟨g, hg, hroutine⟩ := hcallee
      have hcalled : g.called = f.called := congrArg Routine.called hroutine
      simp only [hf] at h
      simp only [hg, hcalled]
      split at h
      · next htrue => rw [if_pos htrue, h]
      · simp at h
  | word name => simp [hi] at h
  | _ => simpa only [hi] using h

theorem lowerCode_of_routines {code code' : List Instruction}
    (hcode : code'.map (·.op) = code.map (·.op)) {bound ip : Nat}
    {lines : List Line} (h : lowerCode p bound ip code = .ok lines) :
    lowerCode q bound ip code' = .ok lines := by
  induction code generalizing code' bound ip lines with
  | nil =>
    rw [List.map_nil, List.map_eq_nil_iff] at hcode
    rw [hcode]
    exact h
  | cons i code ih =>
    obtain ⟨j, others', rfl, hop, hrest⟩ := List.map_eq_cons_iff.mp hcode
    obtain ⟨instrs, others, hinstrs, hothers, rfl⟩ := lowerCode_cons_eq_ok h
    simp only [lowerCode, hop, lowerOp_of_routines hpq hop hinstrs, ih hrest hothers]

theorem lowerFunctions_of_routines {fs gs : List Function}
    (hfs : gs.map Function.routine = fs.map Function.routine)
    {lines : List Line} (h : lowerFunctions p fs = .ok lines) :
    ∃ lines', lowerFunctions q gs = .ok lines' ∧
      lines'.map Line.unremarked = lines.map Line.unremarked := by
  induction fs generalizing gs lines with
  | nil =>
    rw [List.map_nil, List.map_eq_nil_iff] at hfs
    rw [hfs]
    exact ⟨lines, h, rfl⟩
  | cons f fs ih =>
    obtain ⟨g, gs, rfl, hg, hrest⟩ := List.map_eq_cons_iff.mp hfs
    obtain ⟨own, others, hothers, rfl, hown⟩ := lowerFunctions_cons_eq_ok h
    obtain ⟨others', hothers', hsame⟩ := ih hrest hothers
    simp only [Function.routine, Routine.mk.injEq] at hg
    obtain ⟨hentry, hcalled, hcode⟩ := hg
    cases hf : f.called with
    | true =>
      rw [hf, if_pos rfl] at hown
      obtain ⟨body, hbody, rfl⟩ := lowerFunction_eq_ok hown
      have hbody' := lowerCode_of_routines hpq hcode hbody
      refine ⟨[.blank, .comment g.signature] ++ functionLines f.entry body ++ others', ?_, ?_⟩
      · rw [hf] at hcalled
        simp [lowerFunctions, hcalled, lowerFunction, hbody', hothers', hentry, functionLines]
      · simp [hsame, Line.unremarked]
    | false =>
      rw [hf, if_neg (by simp)] at hown
      refine ⟨others', ?_, by rw [hown, hsame, List.nil_append]⟩
      rw [hf] at hcalled
      simp [lowerFunctions, hcalled, hothers']

end

theorem map_unremarked_memoryLine {memories memories' : List Memory}
    (h : memories'.map (·.size) = memories.map (·.size)) (k : Nat) :
    (memories'.zipIdx k).map (Line.unremarked ∘ fun r : Memory × Nat => memoryLine r.1 r.2) =
      (memories.zipIdx k).map (Line.unremarked ∘ fun r : Memory × Nat => memoryLine r.1 r.2) := by
  induction memories generalizing memories' k with
  | nil =>
    rw [List.map_nil, List.map_eq_nil_iff] at h
    rw [h]
  | cons m memories ih =>
    obtain ⟨m', memories', rfl, hsize, hrest⟩ := List.map_eq_cons_iff.mp h
    rw [List.zipIdx_cons, List.zipIdx_cons, List.map_cons, List.map_cons, ih hrest]
    simp [memoryLine, Line.unremarked, hsize]

end Assembly

open Assembly

theorem exists_lower_of_outline {p q : Program} (hpq : q.outline = p.outline) {a : Assembly}
    (h : p.lower = .ok a) :
    ∃ b, q.lower = .ok b ∧ written b.text = written a.text ∧ b.data = a.data ∧
      written b.bss = written a.bss := by
  simp only [Program.outline, Outline.mk.injEq] at hpq
  obtain ⟨hmain, hroutines, hsizes, hstrings⟩ := hpq
  unfold Program.lower at h ⊢
  cases hp : p.main? with
  | none => simp [hp] at h
  | some f =>
    rw [hp, Option.map_some, Option.map_eq_some_iff] at hmain
    obtain ⟨g, hg, hroutine⟩ := hmain
    simp only [Function.routine, Routine.mk.injEq] at hroutine
    obtain ⟨hentry, hcalled, -⟩ := hroutine
    simp only [hp] at h
    simp only [hg, hcalled, hentry]
    split at h
    · next hf =>
      rw [if_pos hf]
      split at h
      · simp at h
      · next lines hlines =>
        obtain ⟨lines', hlines', hsame⟩ := lowerFunctions_of_routines hroutines hroutines hlines
        rw [hlines', ← Except.ok.inj h]
        refine ⟨_, rfl, written_unremarked ?_, ?_, written_unremarked ?_⟩
        · simp [hsame]
        · simp only [hstrings]
        · simpa using map_unremarked_memoryLine hsizes 0
    · simp at h

theorem Accepted.endsInBackslash_name {p q : Program} (h : Accepted p q) {g : Function}
    (hg : g ∈ q.functions) {i : Instruction} (hi : i ∈ g.code) :
    endsInBackslash i.op.name = false := by
  obtain ⟨n, hn⟩ := List.getElem?_of_mem hg
  obtain ⟨f, hf, -⟩ := h.validated.exists_checked hn
  obtain ⟨ip, hip⟩ := List.getElem?_of_mem hi
  exact Op.endsInBackslash_name ((lowerable_of_accepted h).words g hg i hi) (h.cast_kind hf hn hip)

/--
An assembler reads what was written, apart from the label that follows a comment whose last name
ends in a backslash: that of the function with the signature, and that of the reservation after the
region with the name. What was written is the same for all programs that differ in names only.
-/
theorem labels_after_backslash_are_lost {loader : Loader} {entry : String} {options : Options}
    {output : Output} (h : compile loader entry options = .ok output) :
    Loses output.assembly.text
        (((lowered output.program).filter (endsInBackslash ·.signature)).map (.fn ·.entry)) ∧
      Loses output.assembly.bss
        ((output.program.memories.zipIdx.filter fun r => endsInBackslash r.1.name).map fun r =>
          reservation output.program.memories.length (r.2 + 1)) ∧
      ∀ q : Program, q.outline = output.program.outline →
        ∃ a, q.lower = .ok a ∧ written a.text = written output.assembly.text ∧
          a.data = output.assembly.data ∧ written a.bss = written output.assembly.bss := by
  obtain ⟨p, hparse, hvalid, hlower⟩ := compile_eq_ok h
  have hq := accepted_of_parse hparse hvalid
  have hlinked := hq.validated.linked (linked_of_parse hparse)
  obtain ⟨main, -, ha⟩ := sections_of_lower hlower
  refine ⟨?_, ?_, ?_⟩
  · apply ha.loses_text
    · intro line hline text htext
      exact ha.oneLine_text hlinked (lowerable_of_accepted hq).words hline htext
    · intro f hf i hi
      exact hq.endsInBackslash_name (List.mem_filter.mp hf).1 hi
  · apply ha.loses_bss
    intro line hline text htext
    exact ha.oneLine_bss hlinked hline htext
  · intro q hoq
    exact exists_lower_of_outline hoq hlower

theorem exists_compile_of_memories {loader : Loader} {entry : String} {options : Options}
    {memories : List Memory}
    (h : (check loader entry options).toOption.map (·.1.memories) = some memories) :
    ∃ output, compile loader entry options = .ok output ∧ output.program.memories = memories := by
  cases hcheck : check loader entry options with
  | error e => simp [hcheck, Except.toOption] at h
  | ok checked =>
    obtain ⟨output, hcompile⟩ := exists_compile_of_check (by rw [hcheck]; rfl)
    have hprogram : output.program = checked.1 := by
      simp only [compile, hcheck] at hcompile
      split at hcompile
      · simp at hcompile
      · rw [← Except.ok.inj hcompile]
    rw [hcheck] at h
    exact ⟨output, hcompile, by rw [hprogram, ← Option.some.inj h]⟩

def leaky : SourceTable :=
  SourceTable.ofList [("main",
    "var x\\ 8 var y 8 fn same $a\\ -> $a\\ ( ) fn main ( y same drop )")]

theorem labels_after_backslash_are_lost_leaky : ∃ output,
    compile leaky.loader "main" { library := false } = .ok output ∧
      Loses output.assembly.text
        (((lowered output.program).filter (endsInBackslash ·.signature)).map (.fn ·.entry)) ∧
      Loses output.assembly.bss [.mem 1] ∧
      ∀ q : Program, q.outline = output.program.outline →
        ∃ a, q.lower = .ok a ∧ written a.text = written output.assembly.text ∧
          a.data = output.assembly.data ∧ written a.bss = written output.assembly.bss := by
  have hcheck : (check leaky.loader "main" { library := false }).toOption.map (·.1.memories) =
      some [⟨"x\\", 8, ⟨"main.cin", 1, 5⟩⟩, ⟨"y", 8, ⟨"main.cin", 1, 14⟩⟩] := by
    decide +kernel
  obtain ⟨output, hcompile, hmemories⟩ := exists_compile_of_memories hcheck
  obtain ⟨htext, hbss, hnames⟩ := labels_after_backslash_are_lost hcompile
  rw [hmemories] at hbss
  exact ⟨output, hcompile, htext, hbss, hnames⟩

def oneRegion (name : String) : SourceTable :=
  SourceTable.ofList [("main", "var " ++ name ++ " 8 fn main ( )")]

/-- With another name for the region, the return stack has no room. -/
theorem name_swallows_return_stack : ∃ output output',
    compile (oneRegion "x").loader "main" { library := false } = .ok output ∧
      compile (oneRegion "x\\").loader "main" { library := false } = .ok output' ∧
      statements (renderLines output.assembly.bss) =
        ["mem_0: resb 8 ".toList, "ret_stack: resb 65536".toList, "ret_stack_end:".toList] ∧
      statements (renderLines output'.assembly.bss) =
        ["mem_0: resb 8 ".toList, "ret_stack_end:".toList] := by
  have hcheck : (check (oneRegion "x").loader "main" { library := false }).toOption.map
      (·.1.memories) = some [⟨"x", 8, ⟨"main.cin", 1, 5⟩⟩] := by
    decide +kernel
  have hcheck' : (check (oneRegion "x\\").loader "main" { library := false }).toOption.map
      (·.1.memories) = some [⟨"x\\", 8, ⟨"main.cin", 1, 5⟩⟩] := by
    decide +kernel
  obtain ⟨output, hcompile, hmemories⟩ := exists_compile_of_memories hcheck
  obtain ⟨output', hcompile', hmemories'⟩ := exists_compile_of_memories hcheck'
  obtain ⟨_, _, _, hlower⟩ := compile_eq_ok hcompile
  obtain ⟨_, _, _, hlower'⟩ := compile_eq_ok hcompile'
  obtain ⟨_, _, ha⟩ := sections_of_lower hlower
  obtain ⟨_, _, ha'⟩ := sections_of_lower hlower'
  refine ⟨output, output', hcompile, hcompile', ?_, ?_⟩
  · rw [ha.bss, hmemories]
    decide +kernel
  · rw [ha'.bss, hmemories']
    decide +kernel

end StackLang
