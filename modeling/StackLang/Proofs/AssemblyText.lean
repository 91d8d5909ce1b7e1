import Mathlib.Data.List.TakeWhile
import StackLang.Proofs.Linked

/-!
This module contains assembly files as an assembler reads them: lines that are cut off at a comment
and split into words. Every line that is generated reads as the words that it was written with.
-/

namespace StackLang
namespace Assembly

def isBreak (c : Char) : Bool := [' ', ',', '[', ']', '+'].contains c

/-- The words of a line: what stands before a comment, split at blanks and punctuation. -/
def words (line : List Char) : List String :=
  (((line.takeWhile (· ≠ ';')).splitOnP isBreak).filter (· ≠ [])).map String.ofList

def readLines (text : String) : List (List String) :=
  ((text.toList.splitOn '\n').map words).filter (· ≠ [])

def defines (label : String) (line : List String) : Bool := line.head? = some (label ++ ":")

def startsFunction (line : List String) : Bool :=
  line.head?.any fun w => ['f', 'n'].isPrefixOf w.toList && w.toList.getLast? = some ':'

/-- The lines between the label of a function and the label of the next function. -/
def within (label : String) (text : List (List String)) : List (List String) :=
  ((text.dropWhile (!defines label ·)).drop 1).takeWhile (!startsFunction ·)

/-! ## Words -/

def endsWord (c : Char) : Bool := isBreak c || c = ';' || c = '\n'

def IsWord (s : String) : Prop := s ≠ "" ∧ s.toList.any endsWord = false

instance (s : String) : Decidable (IsWord s) := inferInstanceAs (Decidable (_ ∧ _))

theorem IsWord.append {a b : String} (ha : IsWord a) (hb : b.toList.any endsWord = false) :
    IsWord (a ++ b) := by
  refine ⟨?_, ?_⟩
  · intro hempty
    exact ha.1 (String.append_eq_empty_iff.mp hempty).1
  · rw [String.toList_append, List.any_append, ha.2, hb]
    rfl

theorem IsWord.oneLine {s : String} (h : IsWord s) : Text.OneLine s := by
  intro hmem
  exact absurd (List.any_eq_false.mp h.2 _ hmem) (by decide)

theorem isDigit_of_mem_toString {n : Nat} {c : Char} (h : c ∈ (toString n).toList) :
    c.isDigit = true := by
  rw [Nat.toString_eq_ofList_toDigits, String.toList_ofList] at h
  exact Nat.isDigit_of_mem_toDigits (by decide) (by decide) h

theorem endsWord_of_isDigit {c : Char} (h : c.isDigit = true) : endsWord c = false := by
  by_contra hends
  simp only [endsWord, isBreak, List.contains_cons, List.contains_nil, Bool.or_false,
    Bool.or_eq_true, beq_iff_eq, decide_eq_true_eq, Bool.not_eq_false] at hends
  rcases hends with ((rfl | rfl | rfl | rfl | rfl) | rfl) | rfl <;> simp at h

theorem isWord_nat (n : Nat) : IsWord (toString n) := by
  refine ⟨?_, ?_⟩
  · rw [Nat.toString_eq_ofList_toDigits, ne_eq, String.ofList_eq_empty_iff]
    exact Nat.toDigits_ne_nil
  · rw [List.any_eq_false]
    intro c hc
    rw [endsWord_of_isDigit (isDigit_of_mem_toString hc)]
    decide

theorem isWord_int (i : Int) : IsWord (toString i) := by
  cases i with
  | ofNat n => exact isWord_nat n
  | negSucc n => exact IsWord.append (a := "-") (by decide) (isWord_nat (n + 1)).2

/-- A text on one line and without a comment that has these words. -/
structure Reads (text : String) (ws : List String) : Prop where
  oneLine : Text.OneLine text
  noComment : ';' ∉ text.toList
  words : words text.toList = ws

instance (text : String) (ws : List String) : Decidable (Reads text ws) :=
  decidable_of_iff (Text.OneLine text ∧ ';' ∉ text.toList ∧ Assembly.words text.toList = ws)
    ⟨fun h => ⟨h.1, h.2.1, h.2.2⟩, fun h => ⟨h.1, h.2, h.3⟩⟩

/-- A text that reads as these words and that another word may follow. -/
structure Opens (text : String) (ws : List String) : Prop extends Reads text ws where
  ends : text.toList.getLast?.any isBreak = true

instance (text : String) (ws : List String) : Decidable (Opens text ws) :=
  decidable_of_iff (Reads text ws ∧ text.toList.getLast?.any isBreak = true)
    ⟨fun h => ⟨h.1, h.2⟩, fun h => ⟨h.1, h.2⟩⟩

/-- A text that reads as these words and that may stand between other words. -/
structure Separates (text : String) (ws : List String) : Prop extends Opens text ws where
  starts : text.toList.head?.any isBreak = true

instance (text : String) (ws : List String) : Decidable (Separates text ws) :=
  decidable_of_iff (Opens text ws ∧ text.toList.head?.any isBreak = true)
    ⟨fun h => ⟨h.1, h.2⟩, fun h => ⟨h.1, h.2⟩⟩

theorem words_of_not_mem {a b : List Char} (ha : ';' ∉ a) :
    words (a ++ b) = (((a ++ b.takeWhile (· ≠ ';')).splitOnP isBreak).filter (· ≠ [])).map
      String.ofList := by
  unfold words
  rw [List.takeWhile_append_of_pos]
  intro c hc
  rw [decide_eq_true_eq]
  rintro rfl
  exact ha hc

theorem words_append {a b : List Char} {c : Char} (ha : ';' ∉ a) (hc : isBreak c = true) :
    words (a ++ c :: b) = words a ++ words b := by
  have hne : c ≠ ';' := by
    rintro rfl
    exact absurd hc (by decide)
  have hself := @words_of_not_mem a [] ha
  rw [List.append_nil] at hself
  rw [words_of_not_mem ha, hself, List.takeWhile_cons, if_pos (by simpa),
    List.splitOnP_append_cons _ _ hc, words]
  simp

theorem words_comment {a b : List Char} (ha : ';' ∉ a) : words (a ++ ';' :: b) = words a := by
  have hself := @words_of_not_mem a [] ha
  rw [List.append_nil] at hself
  rw [words_of_not_mem ha, hself]
  simp

theorem IsWord.reads {s : String} (h : IsWord s) : Reads s [s] := by
  have hword := List.any_eq_false.mp h.2
  have hcomment : ';' ∉ s.toList := by
    intro hmem
    exact absurd (hword _ hmem) (by decide)
  have hbreak : ∀ c ∈ s.toList, isBreak c = false := by
    intro c hc
    have := hword c hc
    simp only [endsWord, Bool.or_eq_true, not_or, Bool.not_eq_true] at this
    exact this.1.1
  refine ⟨h.oneLine, hcomment, ?_⟩
  have hself := @words_of_not_mem s.toList [] hcomment
  rw [List.append_nil, List.takeWhile_nil, List.append_nil,
    List.splitOnP_eq_singleton hbreak] at hself
  rw [hself]
  simp [h.1]

theorem Opens.append {a b : String} {ws vs : List String} (h : Opens a ws) (h' : Reads b vs) :
    Reads (a ++ b) (ws ++ vs) := by
  obtain ⟨c, hlast, hc⟩ := (Option.any_eq_true _ _).mp h.ends
  obtain ⟨front, hfront⟩ := List.getLast?_eq_some_iff.mp hlast
  have hcomment := h.noComment
  rw [hfront, List.mem_append, not_or] at hcomment
  have hws := h.words
  rw [hfront, words_append hcomment.1 hc] at hws
  refine ⟨h.oneLine.append h'.oneLine, ?_, ?_⟩
  · rw [String.toList_append, List.mem_append, not_or]
    exact ⟨h.noComment, h'.noComment⟩
  · rw [String.toList_append, hfront, List.append_assoc, List.singleton_append,
      words_append hcomment.1 hc, h'.words, ← hws]
    simp [words]

theorem Reads.append {a b : String} {ws vs : List String} (h : Reads a ws) (h' : Separates b vs) :
    Opens (a ++ b) (ws ++ vs) := by
  obtain ⟨c, hhead, hc⟩ := (Option.any_eq_true _ _).mp h'.starts
  obtain ⟨rest, hrest⟩ := List.head?_eq_some_iff.mp hhead
  have hvs := h'.words
  have hnil : Assembly.words [] = [] := by simp [Assembly.words]
  rw [hrest, ← List.nil_append (c :: rest), words_append (by simp) hc, hnil, List.nil_append] at hvs
  refine ⟨⟨h.oneLine.append h'.oneLine, ?_, ?_⟩, ?_⟩
  · rw [String.toList_append, List.mem_append, not_or]
    exact ⟨h.noComment, h'.noComment⟩
  · rw [String.toList_append, hrest, words_append h.noComment hc, h.words, hvs]
  · rw [String.toList_append, List.getLast?_append_of_ne_nil _ (by simp [hrest])]
    exact h'.ends

theorem Reads.separator {a b : String} {ws : List String} (h : Reads a ws) (hb : Separates b []) :
    Opens (a ++ b) ws := by
  have := h.append hb
  rwa [List.append_nil] at this

/-! ## Instructions -/

theorem Reg.isWord (r : Reg) : IsWord r.render := by
  cases r <;> decide

theorem Reg.isWord_byte (r : Reg) : IsWord r.renderByte := by
  cases r <;> decide

theorem Label.isWord (l : Label) : IsWord l.render := by
  cases l with
  | start | returnStack | returnStackEnd => decide
  | fn n | ip n | str n | mem n => exact IsWord.append (by decide) (isWord_nat n).2

theorem Operand.isWord (o : Operand) : IsWord o.render := by
  cases o with
  | reg r => exact r.isWord
  | imm i => exact isWord_int i
  | label l => exact l.isWord

def Address.words : Address → List String
  | base r => [r.render]
  | offset r bytes => [r.render, toString bytes.toNat]
  | index r i => [r.render, i.render]

theorem Address.reads (a : Address) : Reads a.render a.words := by
  have hopen : Opens "[" [] := by decide
  have hplus : Separates " + " [] := by decide
  have hclose : Separates "]" [] := by decide
  cases a with
  | base r => exact ((hopen.append r.isWord.reads).separator hclose).toReads
  | offset r bytes =>
    have hbase := (hopen.append r.isWord.reads).separator hplus
    exact ((hbase.append (isWord_nat _).reads).separator hclose).toReads
  | index r i =>
    have hbase := (hopen.append r.isWord.reads).separator hplus
    exact ((hbase.append i.isWord.reads).separator hclose).toReads

def Instr.words : Instr → List String
  | mov dst src => ["mov", dst.render, src.render]
  | load dst src => "mov" :: dst.render :: src.words
  | store dst src => "mov" :: dst.words ++ [src.render]
  | loadByte dst src => "movzx" :: dst.render :: "byte" :: src.words
  | storeByte dst src => "mov" :: dst.words ++ [src.renderByte]
  | push src => ["push", src.render]
  | pushFrom src => "push" :: "qword" :: src.words
  | pop dst => ["pop", dst.render]
  | binary op dst src => [op.render, dst.render, src.render]
  | cqo => ["cqo"]
  | idiv divisor => ["idiv", divisor.render]
  | cmov condition dst src => ["cmov" ++ condition.render, dst.render, src.render]
  | jz target => ["jz", target.render]
  | jmp target => ["jmp", target.render]
  | call target => ["call", target.render]
  | ret => ["ret"]
  | syscall => ["syscall"]

theorem Instr.reads (i : Instr) : Reads i.render i.words := by
  have hmov : Opens "mov " ["mov"] := by decide
  have hspace : Separates " " [] := by decide
  have hcomma : Separates ", " [] := by decide
  cases i with
  | mov dst src =>
    exact ((hmov.append dst.isWord.reads).separator hcomma).append src.isWord.reads
  | load dst src => exact ((hmov.append dst.isWord.reads).separator hcomma).append src.reads
  | store dst src => exact ((hmov.append dst.reads).separator hcomma).append src.isWord.reads
  | loadByte dst src =>
    have hmovzx : Opens "movzx " ["movzx"] := by decide
    have hbyte : Separates ", byte " ["byte"] := by decide
    exact ((hmovzx.append dst.isWord.reads).append hbyte).append src.reads
  | storeByte dst src =>
    exact ((hmov.append dst.reads).separator hcomma).append src.isWord_byte.reads
  | push src =>
    have hpush : Opens "push " ["push"] := by decide
    exact hpush.append src.isWord.reads
  | pushFrom src =>
    have hpush : Opens "push qword " ["push", "qword"] := by decide
    exact hpush.append src.reads
  | pop dst =>
    have hpop : Opens "pop " ["pop"] := by decide
    exact hpop.append dst.isWord.reads
  | binary op dst src =>
    have hop : IsWord op.render := by cases op <;> decide
    have hdst := (hop.reads.separator hspace).append dst.isWord.reads
    exact (hdst.separator hcomma).append src.isWord.reads
  | cqo | ret | syscall => decide
  | idiv divisor =>
    have hidiv : Opens "idiv " ["idiv"] := by decide
    exact hidiv.append divisor.isWord.reads
  | cmov condition dst src =>
    have hop : IsWord ("cmov" ++ condition.render) := by cases condition <;> decide
    have hdst := (hop.reads.separator hspace).append dst.isWord.reads
    exact (hdst.separator hcomma).append src.isWord.reads
  | jz target =>
    have hjz : Opens "jz " ["jz"] := by decide
    exact hjz.append target.isWord.reads
  | jmp target =>
    have hjmp : Opens "jmp " ["jmp"] := by decide
    exact hjmp.append target.isWord.reads
  | call target =>
    have hcall : Opens "call " ["call"] := by decide
    exact hcall.append target.isWord.reads

/-! ## Lines -/

def Line.words : Line → List String
  | blank | comment _ => []
  | globalStart => ["global", "_start"]
  | label l _ => [l.render ++ ":"]
  | instr i => i.words
  | quad l value => [l.render ++ ":", "dq", toString value]
  | bytes bs => "db" :: bs.map fun b => toString b.toNat
  | reserve l size _ => [l.render ++ ":", "resb", toString size]

theorem reads_intercalate {texts : List String} (h : ∀ s ∈ texts, IsWord s) :
    Reads (", ".intercalate texts) texts := by
  have hcomma : Separates ", " [] := by decide
  match texts with
  | [] =>
    rw [String.intercalate_nil]
    decide
  | [s] =>
    rw [String.intercalate_singleton]
    exact (h s (by simp)).reads
  | s :: t :: texts =>
    rw [List.forall_mem_cons] at h
    rw [String.intercalate_cons_cons]
    exact (h.1.reads.separator hcomma).append (reads_intercalate h.2)

def Line.remark? : Line → Option String
  | comment text => some text
  | label _ remark | reserve _ _ remark => remark
  | _ => none

def remarkChars : Option String → List Char
  | some text => ';' :: ' ' :: text.toList
  | none => []

theorem Reads.remark {a : String} {ws : List String} (h : Reads a ws) (remark : Option String) :
    ∃ content, Reads content ws ∧
      (a ++ renderRemark remark).toList = content.toList ++ remarkChars remark := by
  cases remark with
  | none => exact ⟨a, h, by simp [renderRemark, remarkChars]⟩
  | some text =>
    refine ⟨a ++ " ", (h.separator (by decide)).toReads, ?_⟩
    simp [renderRemark, remarkChars, toString]

theorem Label.isWord_definition (l : Label) : IsWord (l.render ++ ":") :=
  l.isWord.append (by decide)

theorem Line.reads (line : Line) :
    ∃ content, Reads content line.words ∧
      line.render.toList = content.toList ++ remarkChars line.remark? := by
  cases line with
  | blank => exact ⟨"", by decide, rfl⟩
  | comment text =>
    have hempty : Reads "" [] := by decide
    exact ⟨"", hempty, by simp [render, remark?, remarkChars, toString]⟩
  | globalStart => exact ⟨"global _start", by decide, rfl⟩
  | label l remark => exact l.isWord_definition.reads.remark remark
  | instr i =>
    have hindent : Opens "    " [] := by decide
    exact ⟨_, hindent.append i.reads, by simp [render, remark?, remarkChars, toString]⟩
  | quad l value =>
    have hdq : Separates " dq " ["dq"] := by decide
    refine ⟨_, (l.isWord_definition.reads.append hdq).append (isWord_nat value).reads, ?_⟩
    simp [render, remark?, remarkChars, toString]
  | bytes bs =>
    have hdb : Opens "    db " ["db"] := by decide
    have hbytes : ∀ s ∈ bs.map fun b => toString b.toNat, IsWord s := by
      intro s hs
      obtain ⟨b, -, rfl⟩ := List.mem_map.mp hs
      exact isWord_nat _
    exact ⟨_, hdb.append (reads_intercalate hbytes), by simp [render, remark?, remarkChars]⟩
  | reserve l size remark =>
    have hresb : Separates " resb " ["resb"] := by decide
    have hreads := (l.isWord_definition.reads.append hresb).append (isWord_nat size).reads
    obtain ⟨content, hcontent, hrender⟩ := hreads.remark remark
    refine ⟨content, hcontent, ?_⟩
    rw [remark?, ← hrender]
    simp [render, toString]

theorem Line.words_render (line : Line) : Assembly.words line.render.toList = line.words := by
  obtain ⟨content, hcontent, hrender⟩ := line.reads
  rw [hrender]
  cases line.remark? with
  | none => rw [remarkChars, List.append_nil, hcontent.words]
  | some text => rw [remarkChars, words_comment hcontent.noComment, hcontent.words]

theorem Line.oneLine_render {line : Line} (h : ∀ text ∈ line.remark?, Text.OneLine text) :
    Text.OneLine line.render := by
  obtain ⟨content, hcontent, hrender⟩ := line.reads
  unfold Text.OneLine
  rw [hrender, List.mem_append, not_or]
  refine ⟨hcontent.oneLine, ?_⟩
  cases hremark : line.remark? with
  | none => simp [remarkChars]
  | some text =>
    have htext : '\n' ∉ text.toList := h text hremark
    simp [remarkChars, htext]

theorem splitOn_renderLines {lines : List Line} (h : ∀ line ∈ lines, Text.OneLine line.render) :
    (renderLines lines).toList.splitOn '\n' = lines.map (·.render.toList) ++ [[]] := by
  unfold renderLines
  induction lines with
  | nil => simp
  | cons line lines ih =>
    rw [List.forall_mem_cons] at h
    have hown : line.render.toList.splitOnP (· == '\n') = [line.render.toList] := by
      apply List.splitOnP_eq_singleton
      intro c hc
      rw [beq_eq_false_iff_ne]
      rintro rfl
      exact h.1 hc
    have ih := ih h.2
    simp only [List.splitOn, List.map_cons, String.join_cons, String.toList_append] at ih ⊢
    have hfeed : "\n".toList = ['\n'] := rfl
    rw [hfeed, List.append_assoc, List.singleton_append,
      List.splitOnP_append_cons _ _ (by simp), hown, ih]
    simp

def lineWords (lines : List Line) : List (List String) := (lines.map Line.words).filter (· ≠ [])

theorem readLines_renderLines {lines : List Line}
    (h : ∀ line ∈ lines, ∀ text ∈ line.remark?, Text.OneLine text) :
    readLines (renderLines lines) = lineWords lines := by
  have hlines := splitOn_renderLines fun line hline => Line.oneLine_render (h line hline)
  have hnil : words [] = [] := by simp [words]
  have hwords : words ∘ (·.render.toList) = Line.words := funext Line.words_render
  unfold readLines lineWords
  rw [hlines, List.map_append, List.map_map, hwords, List.filter_append]
  simp [hnil]

/-! ## Labels -/

def isName (w : String) : Bool :=
  !w.toList.contains ':' && (w.toList.any ['_', '.'].contains || ['f', 'n'].isPrefixOf w.toList)

theorem Label.isName (l : Label) : isName l.render = true := by
  have hcolon (n : Nat) : ':' ∉ (toString n).toList := by
    intro hmem
    exact absurd (isDigit_of_mem_toString hmem) (by decide)
  cases l with
  | start | returnStack | returnStackEnd => decide
  | fn n | ip n | str n | mem n => simpa [Assembly.isName, render, toString] using hcolon n

theorem isName_definition (s : String) : isName (s ++ ":") = false := by
  simp [isName]

theorem isName_eq_false {w : String} (h : ∀ c ∈ w.toList, c ∉ ['_', '.', 'f']) :
    isName w = false := by
  have hany : w.toList.any ['_', '.'].contains = false := by
    rw [List.any_eq_false]
    intro c hc
    have := h c hc
    simp only [List.mem_cons, List.not_mem_nil, or_false, not_or] at this
    simp [this.1, this.2.1]
  have hfirst : ['f', 'n'].isPrefixOf w.toList = false := by
    by_contra hpre
    rw [Bool.not_eq_false, List.isPrefixOf_iff_prefix] at hpre
    exact h 'f' (hpre.subset (by simp)) (by simp)
  rw [isName, hany, hfirst]
  simp

theorem not_mem_of_mem_toString {n : Nat} {c : Char} (h : c ∈ (toString n).toList) :
    c ∉ ['_', '.', 'f'] := by
  have hdigit := isDigit_of_mem_toString h
  intro hmem
  simp only [List.mem_cons, List.not_mem_nil, or_false] at hmem
  rcases hmem with rfl | rfl | rfl <;> exact absurd hdigit (by decide)

theorem isName_nat (n : Nat) : isName n.repr = false :=
  isName_eq_false fun _ hc => not_mem_of_mem_toString hc

theorem isName_int (i : Int) : isName i.repr = false := by
  cases i with
  | ofNat n => exact isName_nat n
  | negSucc n =>
    apply isName_eq_false
    intro c hc
    have hrepr : (Int.negSucc n).repr = "-" ++ toString (n + 1) := rfl
    rw [hrepr, String.toList_append, List.mem_append] at hc
    rcases hc with hc | hc
    · rw [List.mem_singleton.mp hc]
      decide
    · exact not_mem_of_mem_toString hc

theorem Reg.isName (r : Reg) : Assembly.isName r.render = false := by
  cases r <;> decide

theorem Reg.isName_byte (r : Reg) : Assembly.isName r.renderByte = false := by
  cases r <;> decide

theorem toDigits_injective {m n : Nat} (h : Nat.toDigits 10 m = Nat.toDigits 10 n) : m = n := by
  rw [← @Nat.ofDigitChars_ten_toDigits m, h, Nat.ofDigitChars_ten_toDigits]

theorem Label.render_injective {a b : Label} (h : a.render = b.render) : a = b := by
  have hlist := congrArg String.toList h
  cases a <;> cases b <;> simp [render, toString] at hlist ⊢ <;> exact toDigits_injective hlist

def Operand.label? : Operand → Option Label
  | label l => some l
  | _ => none

def Instr.label? : Instr → Option Label
  | mov _ src | push src | binary _ _ src => src.label?
  | jz target | jmp target | call target => some target
  | _ => none

def Line.labels : Line → List Label
  | globalStart => [.start]
  | instr i => i.label?.toList
  | _ => []

def Line.defined? : Line → Option Label
  | label l _ | quad l _ | reserve l _ _ => some l
  | _ => none

theorem Operand.filter_isName (o : Operand) :
    [o.render].filter Assembly.isName = o.label?.toList.map Label.render := by
  cases o with
  | reg r => simp [render, label?, r.isName]
  | imm i => simp [render, label?, isName_int]
  | label l => simp [render, label?, l.isName]

theorem Address.filter_isName (a : Address) : a.words.filter Assembly.isName = [] := by
  cases a with
  | base r => simp [words, r.isName]
  | offset r bytes => simp [words, r.isName, isName_nat]
  | index r i => simp [words, r.isName, i.isName]

theorem Instr.filter_isName (i : Instr) :
    i.words.filter Assembly.isName = i.label?.toList.map Label.render := by
  -- mnemonics, registers and numbers are not spelled like labels
  cases i with
  | mov dst src =>
    rw [label?, ← src.filter_isName]
    simp +decide [words, List.filter_cons, dst.isName]
  | load dst src => simp +decide [words, label?, dst.isName, src.filter_isName]
  | store dst src => simp +decide [words, label?, src.isName, dst.filter_isName]
  | loadByte dst src => simp +decide [words, label?, dst.isName, src.filter_isName]
  | storeByte dst src => simp +decide [words, label?, src.isName_byte, dst.filter_isName]
  | push src =>
    rw [label?, ← src.filter_isName]
    simp +decide [words, List.filter_cons]
  | pushFrom src => simp +decide [words, label?, src.filter_isName]
  | pop dst => simp +decide [words, label?, dst.isName]
  | binary op dst src =>
    have hop : Assembly.isName op.render = false := by cases op <;> decide
    rw [label?, ← src.filter_isName]
    simp [words, List.filter_cons, hop, dst.isName]
  | cqo | ret | syscall => decide
  | idiv divisor => simp +decide [words, label?, divisor.isName]
  | cmov condition dst src =>
    have hop : Assembly.isName ("cmov" ++ condition.render) = false := by cases condition <;> decide
    simp [words, label?, hop, dst.isName, src.isName]
  | jz target | jmp target | call target => simp +decide [words, label?, target.isName]

theorem Line.filter_isName (line : Line) :
    line.words.filter Assembly.isName = line.labels.map Label.render := by
  cases line with
  | blank | comment _ | globalStart => rfl
  | label l remark => simp [words, labels, isName_definition]
  | instr i => exact i.filter_isName
  | quad l value => simp +decide [words, labels, isName_definition, isName_nat]
  | bytes bs => simp +decide [words, labels, isName_nat]
  | reserve l size remark => simp +decide [words, labels, isName_definition, isName_nat]

theorem Line.render_mem_words {line : Line} {l : Label} :
    l.render ∈ line.words ↔ l ∈ line.labels := by
  -- the label is spelled like one, so it is enough to look at the words that are
  have hfilter : l.render ∈ line.words.filter Assembly.isName ↔ l.render ∈ line.words := by
    simp [l.isName]
  rw [← hfilter, line.filter_isName, List.mem_map]
  constructor
  · rintro ⟨l', hl', hrender⟩
    rwa [← Label.render_injective hrender]
  · intro hl
    exact ⟨l, hl, rfl⟩

theorem ne_definition {w : String} (h : ':' ∉ w.toList) (s : String) : w ≠ s ++ ":" := by
  rintro rfl
  simp at h

theorem Instr.head?_words (i : Instr) : ∃ w, i.words.head? = some w ∧ ':' ∉ w.toList := by
  cases i with
  | binary op dst src => exact ⟨_, rfl, by cases op <;> decide⟩
  | cmov condition dst src => exact ⟨_, rfl, by cases condition <;> decide⟩
  | _ => exact ⟨_, rfl, by decide⟩

theorem Line.words_ne_nil (line : Line) {l : Label} (h : line.defined? = some l) :
    line.words ≠ [] := by
  cases line <;> simp [defined?, words] at h ⊢

theorem Line.defines_words (line : Line) (l : Label) :
    defines l.render line.words = decide (line.defined? = some l) := by
  have hinj (l' : Label) : l'.render = l.render ↔ l' = l :=
    ⟨Label.render_injective, congrArg Label.render⟩
  cases line with
  | blank | comment _ => rfl
  | globalStart | bytes bs => simp [defines, words, defined?, ne_definition]
  | instr i =>
    obtain ⟨w, hw, hcolon⟩ := i.head?_words
    simp [defines, words, defined?, hw, ne_definition hcolon]
  | label l' remark | quad l' value | reserve l' size remark =>
    simp [defines, words, defined?, hinj]

theorem Label.startsFunction (l : Label) (rest : List String) :
    startsFunction ((l.render ++ ":") :: rest) = true ↔ ∃ n, l = .fn n := by
  cases l <;> simp [Assembly.startsFunction, render, toString, List.getLast?_cons]

theorem Line.startsFunction_words (line : Line) :
    startsFunction line.words = true ↔ ∃ n, line.defined? = some (.fn n) := by
  cases line with
  | blank | comment _ | globalStart | bytes bs => simp [startsFunction, words, defined?]
  | instr i =>
    obtain ⟨w, hw, hcolon⟩ := i.head?_words
    have hlast : w.toList.getLast? ≠ some ':' := fun h => hcolon (List.mem_of_getLast? h)
    simp [startsFunction, words, defined?, hw, hlast]
  | label l remark | quad l value | reserve l size remark =>
    simp [words, defined?, l.startsFunction]

theorem lineWords_append (a b : List Line) : lineWords (a ++ b) = lineWords a ++ lineWords b := by
  simp [lineWords]

theorem mem_lineWords {ws : List String} {lines : List Line} :
    ws ∈ lineWords lines ↔ ∃ line ∈ lines, line.words = ws ∧ ws ≠ [] := by
  simp only [lineWords, List.mem_filter, List.mem_map, decide_eq_true_eq]
  constructor
  · rintro ⟨⟨line, hline, hws⟩, hne⟩
    exact ⟨line, hline, hws, hne⟩
  · rintro ⟨line, hline, hws, hne⟩
    exact ⟨⟨line, hline, hws⟩, hne⟩

def definitions (lines : List Line) : List Label := lines.filterMap Line.defined?

def references (lines : List Line) : List Label := lines.flatMap Line.labels

theorem countP_defines (lines : List Line) (l : Label) :
    (lineWords lines).countP (defines l.render) = (definitions lines).count l := by
  unfold lineWords definitions
  rw [List.countP_filter, List.countP_map, List.count, List.countP_filterMap]
  apply List.countP_congr
  intro line _
  rw [Function.comp_apply, line.defines_words]
  cases hdefined : line.defined? with
  | none => simp
  | some l' => simp [line.words_ne_nil hdefined]

theorem mem_definitions {lines : List Line} {l : Label} :
    (∃ ws ∈ lineWords lines, defines l.render ws = true) ↔ l ∈ definitions lines := by
  rw [← List.count_pos_iff, ← countP_defines, List.countP_pos_iff]

theorem mem_references {lines : List Line} {l : Label} :
    (∃ ws ∈ lineWords lines, l.render ∈ ws) ↔ l ∈ references lines := by
  rw [references, List.mem_flatMap]
  constructor
  · rintro ⟨ws, hws, hl⟩
    obtain ⟨line, hline, rfl, -⟩ := mem_lineWords.mp hws
    exact ⟨line, hline, Line.render_mem_words.mp hl⟩
  · rintro ⟨line, hline, hl⟩
    have hwords := Line.render_mem_words.mpr hl
    exact ⟨line.words, mem_lineWords.mpr ⟨line, hline, rfl, List.ne_nil_of_mem hwords⟩, hwords⟩

theorem within_eq_nil {label : String} {text : List (List String)}
    (h : ∀ ws ∈ text, defines label ws = false) : within label text = [] := by
  unfold within
  rw [List.dropWhile_eq_nil_iff.mpr (by simpa using h)]
  rfl

theorem within_append {l : Label} {before inside after : List Line}
    (hbefore : l ∉ definitions before) (hinside : ∀ n, .fn n ∉ definitions inside)
    (hafter : ∀ ws ∈ (lineWords after).head?, startsFunction ws = true) :
    within l.render (lineWords (before ++ ([.label l] ++ (inside ++ after)))) =
      lineWords inside := by
  have hbefore' : ∀ ws ∈ lineWords before, defines l.render ws = false := by
    intro ws hws
    by_contra hdefines
    rw [Bool.not_eq_false] at hdefines
    exact hbefore (mem_definitions.mp ⟨ws, hws, hdefines⟩)
  have hlabel : lineWords [.label l] = [(Line.label l).words] := rfl
  have hdefines : defines l.render (Line.label l).words = true := by
    simp [Line.defines_words, Line.defined?]
  have hinside' : ∀ ws ∈ lineWords inside, startsFunction ws = false := by
    intro ws hws
    by_contra hstarts
    rw [Bool.not_eq_false] at hstarts
    obtain ⟨line, hline, rfl, -⟩ := mem_lineWords.mp hws
    obtain ⟨n, hn⟩ := line.startsFunction_words.mp hstarts
    exact hinside n (List.mem_filterMap.mpr ⟨line, hline, hn⟩)
  unfold within
  rw [lineWords_append, lineWords_append, lineWords_append, hlabel, List.singleton_append,
    List.dropWhile_append_of_pos (by simpa using hbefore'),
    List.dropWhile_cons_of_neg (by simp [hdefines]), List.drop_one, List.tail_cons,
    List.takeWhile_append_of_pos (by simpa using hinside')]
  cases hwords : lineWords after with
  | nil => simp
  | cons ws rest => simp [hafter ws (by simp [hwords])]

end Assembly

/-! ## Names of operations -/

theorem Text.oneLine_codePoint (c : Char) : OneLine (codePoint c) := by
  have hdigits (n : Nat) : '\n' ∉ Nat.toDigits 16 n := by
    induction n using Nat.strongRecOn with
    | ind n ih =>
      rw [Nat.toDigits_eq_if (by decide)]
      split
      · simp
      · simpa using ih (n / 16) (by omega)
  refine ((?_ : OneLine _).append ?_).append (by decide)
  · decide
  · simpa [OneLine] using hdigits c.toNat

theorem Text.oneLine_quotedByte (b : UInt8) : OneLine (quotedByte b) := by
  refine ((?_ : OneLine _).append ?_).append (by decide)
  · decide
  · generalize Char.ofNat b.toNat = c
    unfold escaped
    split
    · next hc => rcases hc with rfl | rfl <;> decide
    split
    · decide
    split
    · decide
    split
    · decide
    · next hfeed =>
      split
      · decide
      split
      · simpa [OneLine] using Ne.symm hfeed
      · exact oneLine_codePoint c

theorem Op.oneLine_name {op : Op} {strings memories : Nat} (h : op.Linked strings memories)
    (hword : ∀ name, op ≠ .word name) : Text.OneLine op.name := by
  cases op with
  | pushInt n => exact (Assembly.isWord_int _).oneLine
  | pushBool b => cases b <;> decide
  | pushChar b => exact Text.oneLine_quotedByte b
  | prim p => cases p <;> decide
  | cast k => exact Text.OneLine.append (by decide) h
  | syscall n => exact Text.OneLine.append (by decide) (Assembly.isWord_nat _).oneLine
  | enter b => cases b <;> decide
  | word name => exact absurd rfl (hword name)
  | call e => exact Text.OneLine.append (by decide) (Assembly.isWord_nat _).oneLine
  | _ => simp [Text.OneLine, name]

end StackLang
