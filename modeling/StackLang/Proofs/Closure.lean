import Mathlib.Data.List.Nodup
import StackLang.Proofs.AssemblyText
import StackLang.Proofs.CallGraph
import StackLang.Proofs.Placement

/-!
This module contains why generated assembly is closed: every label that it refers to is defined
once, and the functions that it contains are those that calls lead to.
-/

namespace StackLang

def Op.label? : Op → Option Assembly.Label
  | pushStr index => some (.str index)
  | pushPtr index => some (.mem index)
  | branch target | otherwise target | jump target => some (.ip target)
  | call entry => some (.fn entry)
  | _ => none

namespace Assembly

theorem references_cons (line : Line) (lines : List Line) :
    references (line :: lines) = line.labels ++ references lines := by
  simp [references]

theorem definitions_cons (line : Line) (lines : List Line) :
    definitions (line :: lines) = line.defined?.toList ++ definitions lines := by
  cases hline : line.defined? <;> simp [definitions, hline]

theorem references_append (a b : List Line) :
    references (a ++ b) = references a ++ references b := by
  simp [references]

theorem definitions_append (a b : List Line) :
    definitions (a ++ b) = definitions a ++ definitions b := by
  simp [definitions]

theorem references_instrs (instrs : List Instr) :
    references (instrs.map .instr) = instrs.filterMap Instr.label? := by
  simp [references, List.flatMap_map, Line.labels, List.filterMap_eq_flatMap_toList]

theorem definitions_instrs (instrs : List Instr) : definitions (instrs.map .instr) = [] := by
  simp [definitions, List.filterMap_map, Line.defined?, Function.comp_def]

variable {p : Program}

theorem label?_of_mem_lowerBind {count : Nat} {instr : Instr} (h : instr ∈ lowerBind count) :
    instr.label? = none := by
  rw [lowerBind, List.mem_cons, List.mem_flatMap] at h
  rcases h with rfl | ⟨slot, -, h⟩
  · rfl
  · simp only [List.mem_cons, List.not_mem_nil, or_false] at h
    rcases h with rfl | rfl <;> rfl

theorem filterMap_lowerOp {bound : Nat} {i : Instruction} {instrs : List Instr}
    (h : lowerOp p bound i = .ok instrs) : instrs.filterMap Instr.label? = i.op.label?.toList := by
  unfold lowerOp at h
  cases hop : i.op with
  | prim prim =>
    simp only [hop, Except.ok.injEq] at h
    rw [← h]
    cases prim <;> rfl
  | bind count =>
    simp only [hop, Except.ok.injEq] at h
    rw [← h]
    exact List.filterMap_eq_nil_iff.mpr fun instr => label?_of_mem_lowerBind
  | pushBind slot =>
    simp only [hop] at h
    split at h
    · rw [← Except.ok.inj h]
      rfl
    · simp at h
  | syscall arity =>
    simp only [hop] at h
    split at h
    · rw [← Except.ok.inj h]
      have hpops : ((syscallRegs.take arity.toNat).map Instr.pop).filterMap Instr.label? = [] := by
        rw [List.filterMap_map]
        exact List.filterMap_eq_nil_iff.mpr fun r _ => rfl
      rw [List.filterMap_append, List.filterMap_append, hpops]
      rfl
    · simp at h
  | call entry =>
    simp only [hop] at h
    split at h
    · simp at h
    · split at h
      · rw [← Except.ok.inj h]
        rfl
      · simp at h
  | word name => simp [hop] at h
  | _ =>
    simp only [hop, Except.ok.injEq] at h
    rw [← h]
    rfl

theorem references_lowerCode {bound ip : Nat} {code : List Instruction} {lines : List Line}
    (h : lowerCode p bound ip code = .ok lines) :
    references lines = code.flatMap (·.op.label?.toList) := by
  induction code generalizing bound ip lines with
  | nil =>
    rw [← Except.ok.inj h]
    rfl
  | cons i rest ih =>
    obtain ⟨instrs, others, hop, hrest, rfl⟩ := lowerCode_cons_eq_ok h
    rw [references_append, references_cons, references_instrs, filterMap_lowerOp hop, ih hrest]
    rfl

theorem definitions_lowerCode {bound ip : Nat} {code : List Instruction} {lines : List Line}
    (h : lowerCode p bound ip code = .ok lines) :
    definitions lines = (List.range' ip code.length).map .ip := by
  induction code generalizing bound ip lines with
  | nil =>
    rw [← Except.ok.inj h]
    rfl
  | cons i rest ih =>
    obtain ⟨instrs, others, -, hrest, rfl⟩ := lowerCode_cons_eq_ok h
    rw [definitions_append, definitions_cons, definitions_instrs, ih hrest]
    rfl

theorem remark_of_mem_lowerCode {bound ip : Nat} {code : List Instruction} {lines : List Line}
    (h : lowerCode p bound ip code = .ok lines) {line : Line} (hline : line ∈ lines)
    {text : String} (htext : line.remark? = some text) : ∃ i ∈ code, i.op.name = text := by
  induction code generalizing bound ip lines with
  | nil =>
    rw [← Except.ok.inj h] at hline
    simp at hline
  | cons i rest ih =>
    obtain ⟨instrs, others, -, hrest, rfl⟩ := lowerCode_cons_eq_ok h
    rw [List.cons_append, List.mem_cons, List.mem_append, List.mem_map] at hline
    rcases hline with rfl | ⟨instr, -, rfl⟩ | hline
    · exact ⟨i, List.mem_cons_self, Option.some.inj htext⟩
    · simp [Line.remark?] at htext
    · obtain ⟨j, hj, hname⟩ := ih hrest hline
      exact ⟨j, List.mem_cons_of_mem _ hj, hname⟩

theorem references_functionLines (entry : Nat) (body : List Line) :
    references (functionLines entry body) = references body := by
  rw [functionLines, references_cons, references_append, references_append, references_instrs,
    references_instrs]
  exact List.append_nil _

theorem definitions_functionLines (entry : Nat) (body : List Line) :
    definitions (functionLines entry body) = .fn entry :: definitions body := by
  rw [functionLines, definitions_cons, definitions_append, definitions_append, definitions_instrs,
    definitions_instrs, List.append_nil]
  rfl

def codeLines (p : Program) (f : Function) : List Line :=
  (lowerCode p 0 0 f.code).toOption.getD []

def blockLines (p : Program) (f : Function) : List Line :=
  [.blank, .comment f.signature] ++ functionLines f.entry (codeLines p f)

theorem lowerFunctions_eq_ok {fs : List Function} {lines : List Line}
    (h : lowerFunctions p fs = .ok lines) :
    lines = (fs.filter (·.called)).flatMap (blockLines p) ∧
      ∀ f ∈ fs.filter (·.called), lowerCode p 0 0 f.code = .ok (codeLines p f) := by
  induction fs generalizing lines with
  | nil =>
    rw [← Except.ok.inj h]
    exact ⟨rfl, by simp⟩
  | cons f fs ih =>
    obtain ⟨own, others, hothers, rfl, hown⟩ := lowerFunctions_cons_eq_ok h
    obtain ⟨hlines, hcode⟩ := ih hothers
    split at hown
    · next hcalled =>
      obtain ⟨body, hbody, rfl⟩ := lowerFunction_eq_ok hown
      have hbody' : codeLines p f = body := by
        rw [codeLines, hbody]
        rfl
      rw [List.filter_cons_of_pos hcalled]
      refine ⟨?_, ?_⟩
      · rw [List.flatMap_cons, blockLines, hbody', hlines]
      · rw [List.forall_mem_cons, hbody']
        exact ⟨hbody, hcode⟩
    · next hcalled =>
      rw [hown, List.nil_append, List.filter_cons_of_neg hcalled]
      exact ⟨hlines, hcode⟩

theorem references_blockLines {f : Function} (h : lowerCode p 0 0 f.code = .ok (codeLines p f)) :
    references (blockLines p f) = f.code.flatMap (·.op.label?.toList) := by
  rw [← references_lowerCode h]
  exact references_functionLines f.entry (codeLines p f)

theorem remark_of_mem_blockLines {f : Function} (h : lowerCode p 0 0 f.code = .ok (codeLines p f))
    {line : Line} (hline : line ∈ blockLines p f) {text : String}
    (htext : line.remark? = some text) : f.signature = text ∨ ∃ i ∈ f.code, i.op.name = text := by
  simp only [blockLines, functionLines, List.mem_append, List.mem_cons, List.not_mem_nil, or_false,
    List.mem_map] at hline
  rcases hline with (rfl | rfl) | rfl | (⟨instr, -, rfl⟩ | hline) | ⟨instr, -, rfl⟩
  · simp [Line.remark?] at htext
  · exact Or.inl (Option.some.inj htext)
  · simp [Line.remark?] at htext
  · simp [Line.remark?] at htext
  · exact Or.inr (remark_of_mem_lowerCode h hline htext)
  · simp [Line.remark?] at htext

theorem definitions_blockLines {f : Function} (h : lowerCode p 0 0 f.code = .ok (codeLines p f)) :
    definitions (blockLines p f) = .fn f.entry :: (List.range f.code.length).map .ip := by
  rw [List.range_eq_range', ← definitions_lowerCode h, ← definitions_functionLines]
  rfl

def lowered (p : Program) : List Function := p.functions.filter (·.called)

/-- The sections of a lowered program, in which each function stands at its own label. -/
structure Sections (q : Program) (main : Nat) (a : Assembly) : Prop where
  text : a.text = entryPoint main ++ (lowered q).flatMap (blockLines q)
  code : ∀ f ∈ lowered q, lowerCode q 0 0 f.code = .ok (codeLines q f)
  data : a.data = q.strings.zipIdx.flatMap fun (s, i) => stringLines s i
  bss : a.bss = q.memories.zipIdx.map (fun (m, i) => memoryLine m i) ++
    [.reserve .returnStack returnStackSize, .label .returnStackEnd]

theorem sections_of_lower {q : Program} {a : Assembly} (h : q.lower = .ok a) :
    ∃ main, q.main? = some main ∧ Sections q main.entry a := by
  unfold Program.lower at h
  split at h
  · simp at h
  · next main hmain =>
    split at h
    · split at h
      · simp at h
      · next lines hlines =>
        obtain ⟨rfl, hcode⟩ := lowerFunctions_eq_ok hlines
        rw [← Except.ok.inj h]
        exact ⟨main, hmain, rfl, hcode, rfl, rfl⟩
    · simp at h

theorem definitions_flatMap {α : Type} (xs : List α) (lines : α → List Line) :
    definitions (xs.flatMap lines) = xs.flatMap fun x => definitions (lines x) := by
  simp [definitions, List.filterMap_flatMap]

theorem references_flatMap {α : Type} (xs : List α) (lines : α → List Line) :
    references (xs.flatMap lines) = xs.flatMap fun x => references (lines x) := by
  simp [references, List.flatMap_assoc]

namespace Sections

variable {q : Program} {main : Nat} {a : Assembly}

theorem definitions_data (h : Sections q main a) :
    definitions a.data = (List.range q.strings.length).map .str := by
  have hstring (s : String) (i : Nat) : definitions (stringLines s i) = [.str i] := by
    unfold stringLines
    simp only
    split <;> rfl
  rw [h.data, definitions_flatMap]
  simp only [hstring]
  rw [← List.map_eq_flatMap, List.range_eq_range', ← List.zipIdx_map_snd, List.map_map]
  rfl

theorem definitions_bss (h : Sections q main a) :
    definitions a.bss =
      (List.range q.memories.length).map .mem ++ [.returnStack, .returnStackEnd] := by
  rw [h.bss, definitions_append, definitions, List.filterMap_map, List.range_eq_range',
    ← List.zipIdx_map_snd, List.map_map, ← List.filterMap_eq_map]
  rfl

theorem definitions_text (h : Sections q main a) :
    definitions a.text = .start :: (lowered q).flatMap fun f =>
      .fn f.entry :: (List.range f.code.length).map .ip := by
  rw [h.text, definitions_append, definitions_flatMap,
    List.flatMap_congr fun f hf => definitions_blockLines (h.code f hf)]
  rfl

theorem references_text (h : Sections q main a) :
    references a.text = [.start, .returnStackEnd, .fn main] ++
      (lowered q).flatMap fun f => f.code.flatMap (·.op.label?.toList) := by
  rw [h.text, references_append, references_flatMap,
    List.flatMap_congr fun f hf => references_blockLines (h.code f hf)]
  rfl

theorem count_fn (h : Sections q main a) (n : Nat) :
    (definitions a.text).count (.fn n) = ((lowered q).map (·.entry)).count n := by
  rw [h.definitions_text, List.count_cons_of_ne (by simp)]
  induction lowered q with
  | nil => rfl
  | cons f fs ih =>
    have hips : ((List.range f.code.length).map Label.ip).count (.fn n) = 0 := by
      rw [List.count_eq_zero]
      simp
    rw [List.flatMap_cons, List.cons_append, List.count_cons, List.count_append, hips, ih,
      List.map_cons, List.count_cons]
    simp

theorem definitions_inside (h : Sections q main a) {f : Function} (hf : f ∈ lowered q) :
    definitions (functionLines f.entry (codeLines q f)).tail =
      (List.range f.code.length).map .ip := by
  have hlines := definitions_functionLines f.entry (codeLines q f)
  rw [definitions_lowerCode (h.code f hf), ← List.range_eq_range'] at hlines
  exact List.tail_eq_of_cons_eq hlines

theorem references_inside (h : Sections q main a) {f : Function} (hf : f ∈ lowered q) :
    references (functionLines f.entry (codeLines q f)).tail =
      f.code.flatMap (·.op.label?.toList) := by
  rw [← references_lowerCode (h.code f hf)]
  exact references_functionLines f.entry (codeLines q f)

theorem startsFunction_after (fs : List Function) :
    ∀ ws ∈ (lineWords (fs.flatMap (blockLines q))).head?, startsFunction ws = true := by
  cases fs with
  | nil => simp [lineWords]
  | cons f fs =>
    intro ws hws
    have hhead : ws = (Line.label (.fn f.entry)).words := (Option.some.inj hws).symm
    rw [hhead, Line.startsFunction_words]
    exact ⟨f.entry, rfl⟩

theorem within_fn (h : Sections q main a) (hentries : ((lowered q).map (·.entry)).Nodup)
    {f : Function} (hf : f ∈ lowered q) :
    within (Label.fn f.entry).render (lineWords a.text) =
      lineWords (functionLines f.entry (codeLines q f)).tail := by
  obtain ⟨before, after, hsplit⟩ := List.append_of_mem hf
  obtain ⟨front, htext⟩ : ∃ front, a.text = front ++ ([.label (.fn f.entry)] ++
      ((functionLines f.entry (codeLines q f)).tail ++ after.flatMap (blockLines q))) := by
    refine ⟨entryPoint main ++ before.flatMap (blockLines q) ++ [.blank, .comment f.signature], ?_⟩
    rw [h.text, hsplit]
    simp [blockLines, functionLines]
  -- the one place that defines the label is not in front of it
  have hfront : Label.fn f.entry ∉ definitions front := by
    have hcount := h.count_fn f.entry
    rw [List.count_eq_one_of_mem hentries (List.mem_map_of_mem hf), htext, definitions_append,
      definitions_append, List.count_append, List.count_append] at hcount
    have hown : (definitions [.label (.fn f.entry)]).count (.fn f.entry) = 1 := by
      simp [definitions, Line.defined?]
    rw [← List.count_eq_zero]
    omega
  rw [htext]
  apply within_append hfront
  · intro n hn
    rw [h.definitions_inside hf] at hn
    simp at hn
  · exact startsFunction_after after

theorem within_start (h : Sections q main a) :
    within Label.start.render (lineWords a.text) =
      lineWords ((startInstrs main).map Line.instr) := by
  have htext : a.text = [.globalStart] ++ ([.label .start] ++
      ((startInstrs main).map Line.instr ++ (lowered q).flatMap (blockLines q))) := by
    rw [h.text, entryPoint]
    simp
  rw [htext]
  apply within_append
  · simp [definitions, Line.defined?]
  · simp [definitions_instrs]
  · exact startsFunction_after (lowered q)

theorem remark?_of_mem_entryPoint {line : Line} (h : line ∈ entryPoint main) :
    line.remark? = none := by
  have hall : ∀ line ∈ entryPoint main, line.remark? = none := by
    simp [entryPoint, startInstrs, toReturnStack, Line.remark?]
  exact hall line h

theorem oneLine_text (h : Sections q main a) (hq : q.Linked)
    (hwords : ∀ f ∈ q.functions, ∀ i ∈ f.code, ∀ name, i.op ≠ .word name) {line : Line}
    (hline : line ∈ a.text) {text : String} (htext : line.remark? = some text) :
    Text.OneLine text := by
  rw [h.text, List.mem_append, List.mem_flatMap] at hline
  rcases hline with hline | ⟨f, hf, hline⟩
  · simp [remark?_of_mem_entryPoint hline] at htext
  · have hmem : f ∈ q.functions := (List.mem_filter.mp hf).1
    rcases remark_of_mem_blockLines (h.code f hf) hline htext with rfl | ⟨i, hi, rfl⟩
    · exact hq.signatures f hmem
    · exact Op.oneLine_name (hq.code f hmem i hi) (hwords f hmem i hi)

theorem oneLine_bss (h : Sections q main a) (hq : q.Linked) {line : Line} (hline : line ∈ a.bss)
    {text : String} (htext : line.remark? = some text) : Text.OneLine text := by
  rw [h.bss, List.mem_append, List.mem_map] at hline
  rcases hline with ⟨⟨m, i⟩, hm, rfl⟩ | hline
  · rw [← Option.some.inj htext]
    exact hq.memories m (List.fst_mem_of_mem_zipIdx hm)
  · simp only [List.mem_cons, List.not_mem_nil, or_false] at hline
    rcases hline with rfl | rfl <;> simp [Line.remark?] at htext

/-- All lines are read as they were written, as no comment takes up more than one line. -/
theorem readLines_text (h : Sections q main a) (hq : q.Linked)
    (hwords : ∀ f ∈ q.functions, ∀ i ∈ f.code, ∀ name, i.op ≠ .word name) :
    readLines (renderLines a.text) = lineWords a.text :=
  readLines_renderLines fun _ hline _ htext => h.oneLine_text hq hwords hline htext

theorem readLines_data (h : Sections q main a) :
    readLines (renderLines a.data) = lineWords a.data := by
  apply readLines_renderLines
  intro line hline text htext
  rw [h.data, List.mem_flatMap] at hline
  obtain ⟨⟨s, i⟩, -, hline⟩ := hline
  have hstring : ∀ line ∈ stringLines s i, line.remark? = none := by
    unfold stringLines
    simp only
    split <;> simp [Line.remark?]
  simp [hstring line hline] at htext

theorem readLines_bss (h : Sections q main a) (hq : q.Linked) :
    readLines (renderLines a.bss) = lineWords a.bss :=
  readLines_renderLines fun _ hline _ htext => h.oneLine_bss hq hline htext

end Sections

end Assembly

open Assembly

namespace Accepted

variable {p q : Program}

theorem nodup_entries (h : Accepted p q) : ((lowered q).map (·.entry)).Nodup := by
  have hentries : q.functions.map (·.entry) = List.range q.functions.length := by
    apply List.ext_getElem (by simp)
    intro n hn _
    rw [List.length_map] at hn
    rw [List.getElem_map, List.getElem_range, h.entry (List.getElem?_eq_getElem hn)]
  have hsublist : ((lowered q).map (·.entry)).Sublist (q.functions.map (·.entry)) :=
    List.filter_sublist.map _
  rw [hentries] at hsublist
  exact List.nodup_range.sublist hsublist

theorem mem_entries (h : Accepted p q) {n : Nat} :
    n ∈ (lowered q).map (·.entry) ↔ Reach.Marked q.functions n := by
  rw [List.mem_map]
  constructor
  · rintro ⟨f, hf, rfl⟩
    obtain ⟨hf, hcalled⟩ := List.mem_filter.mp hf
    obtain ⟨k, hk⟩ := List.getElem?_of_mem hf
    rw [h.entry hk]
    exact ⟨f, hk, hcalled⟩
  · rintro ⟨f, hf, hcalled⟩
    exact ⟨f, List.mem_filter.mpr ⟨List.mem_of_getElem? hf, hcalled⟩, h.entry hf⟩

theorem target_lt (h : Accepted p q) {g : Function} (hg : g ∈ q.functions) {i : Instruction}
    (hi : i ∈ g.code) {t : Nat} (ht : i.op.target? = some t) : t < g.code.length := by
  obtain ⟨n, hn⟩ := List.getElem?_of_mem hg
  obtain ⟨f, hf, hchecked⟩ := h.validated.exists_checked hn
  obtain ⟨ip, hip⟩ := List.getElem?_of_mem hi
  exact (hchecked.target (h.read n f hf).code hip ht).1

end Accepted

theorem Op.target?_of_label? {op : Op} {t : Nat} (h : op.label? = some (.ip t)) :
    op.target? = some t := by
  cases op <;> simp_all [label?, target?]

theorem Op.Linked.label? {op : Op} {strings memories : Nat} (h : op.Linked strings memories) :
    (∀ n, op.label? = some (.str n) → n < strings) ∧
      ∀ n, op.label? = some (.mem n) → n < memories := by
  cases op <;> simp_all [Linked, Op.label?]

namespace Assembly

/--
The lines of the three sections refer to each other as they should, for a program that starts with
the function at `main`.
-/
structure Closed (functions : List Function) (main : Nat) (text data bss : List (List String)) :
    Prop where
  start : ["call", s!"fn{main}"] ∈ within "_start" text
  /-- Every function that is called has one label. -/
  calls : ∀ n : Nat, ∀ line ∈ text, s!"fn{n}" ∈ line → text.countP (defines s!"fn{n}") = 1
  /-- Every jump stands in a function. -/
  inside : ∀ n : Nat, ∀ line ∈ text, s!".ip{n}" ∈ line → ∃ k : Nat, line ∈ within s!"fn{k}" text
  /-- Every jump leads to the one label of its name in the same function. -/
  jumps : ∀ n k : Nat, ∀ line ∈ within s!"fn{k}" text, s!".ip{n}" ∈ line →
    (within s!"fn{k}" text).countP (defines s!".ip{n}") = 1
  strings : ∀ n : Nat, ∀ line ∈ text, s!"str_{n}" ∈ line → data.countP (defines s!"str_{n}") = 1
  memories : ∀ n : Nat, ∀ line ∈ text, s!"mem_{n}" ∈ line → bss.countP (defines s!"mem_{n}") = 1
  /-- The functions that are there are those that calls from `main` lead to. -/
  functions : ∀ n : Nat, (∃ line ∈ text, defines s!"fn{n}" line = true) ↔
    Relation.ReflTransGen (Calls functions) main n

namespace Sections

variable {p q : Program} {main : Nat} {a : Assembly}

theorem exists_op (h : Sections q main a) {l : Label} (hl : l ∈ references a.text)
    (hne : l ∉ [.start, .returnStackEnd, .fn main]) :
    ∃ f ∈ q.functions, f.called = true ∧ ∃ i ∈ f.code, i.op.label? = some l := by
  rw [h.references_text, List.mem_append, List.mem_flatMap] at hl
  obtain ⟨f, hf, hl⟩ := hl.resolve_left hne
  obtain ⟨i, hi, hl⟩ := List.mem_flatMap.mp hl
  obtain ⟨hmem, hcalled⟩ := List.mem_filter.mp hf
  exact ⟨f, hmem, hcalled, i, hi, by simpa using hl⟩

theorem marked_of_mem_references (h : Sections q main a) (hq : Accepted p q)
    (hmain : Reach.Marked q.functions main) {n : Nat} (hn : .fn n ∈ references a.text) :
    Reach.Marked q.functions n := by
  by_cases heq : n = main
  · rwa [heq]
  · obtain ⟨f, hf, hcalled, i, hi, hop⟩ := h.exists_op hn (by simpa using heq)
    apply (lowerable_of_accepted hq).callees f hf hcalled
    refine Function.mem_callees.mpr ⟨i, hi, ?_⟩
    cases hi : i.op <;> simp_all [Op.label?]

theorem countP_fn (h : Sections q main a) (hq : Accepted p q) {n : Nat}
    (hn : Reach.Marked q.functions n) :
    (lineWords a.text).countP (defines (Label.fn n).render) = 1 := by
  rw [countP_defines, h.count_fn]
  exact List.count_eq_one_of_mem hq.nodup_entries (hq.mem_entries.mpr hn)

theorem mem_within (h : Sections q main a) (hq : Accepted p q) {n : Nat} {ws : List String}
    (hws : ws ∈ lineWords a.text) (hn : (Label.ip n).render ∈ ws) :
    ∃ f ∈ lowered q, ws ∈ within (Label.fn f.entry).render (lineWords a.text) := by
  obtain ⟨line, hline, rfl, hne⟩ := mem_lineWords.mp hws
  have hlabel := Line.render_mem_words.mp hn
  rw [h.text, List.mem_append, List.mem_flatMap] at hline
  rcases hline with hline | ⟨f, hf, hline⟩
  · have hmem : Label.ip n ∈ references (entryPoint main) :=
      List.mem_flatMap.mpr ⟨line, hline, hlabel⟩
    have hstart : references (entryPoint main) = [.start, .returnStackEnd, .fn main] := rfl
    simp [hstart] at hmem
  · refine ⟨f, hf, ?_⟩
    rw [h.within_fn hq.nodup_entries hf]
    refine mem_lineWords.mpr ⟨line, ?_, rfl, hne⟩
    have hblock : blockLines q f = [.blank, .comment f.signature, .label (.fn f.entry)] ++
        (functionLines f.entry (codeLines q f)).tail := rfl
    rw [hblock, List.mem_append] at hline
    refine hline.resolve_left ?_
    intro hfirst
    simp only [List.mem_cons, List.not_mem_nil, or_false] at hfirst
    rcases hfirst with rfl | rfl | rfl <;> simp [Line.labels] at hlabel

theorem countP_ip (h : Sections q main a) (hq : Accepted p q) {n k : Nat} {ws : List String}
    (hws : ws ∈ within (Label.fn k).render (lineWords a.text)) (hn : (Label.ip n).render ∈ ws) :
    (within (Label.fn k).render (lineWords a.text)).countP (defines (Label.ip n).render) = 1 := by
  -- without the label of the function there is no line to start with
  by_cases hk : Label.fn k ∈ definitions a.text
  · rw [← List.count_pos_iff, h.count_fn, List.count_pos_iff, List.mem_map] at hk
    obtain ⟨f, hf, rfl⟩ := hk
    rw [h.within_fn hq.nodup_entries hf] at hws ⊢
    have hmem := mem_references.mp ⟨ws, hws, hn⟩
    rw [h.references_inside hf] at hmem
    obtain ⟨i, hi, hop⟩ := List.mem_flatMap.mp hmem
    have htarget := Op.target?_of_label? (by simpa using hop)
    have hlt := hq.target_lt (List.mem_filter.mp hf).1 hi htarget
    rw [countP_defines, h.definitions_inside hf]
    apply List.count_eq_one_of_mem
    · exact List.nodup_range.map fun _ _ => Label.ip.inj
    · simpa using hlt
  · rw [within_eq_nil] at hws
    · simp at hws
    · intro ws' hws'
      by_contra hdefines
      rw [Bool.not_eq_false] at hdefines
      exact hk (mem_definitions.mp ⟨ws', hws', hdefines⟩)

theorem countP_str (h : Sections q main a) (hq : q.Linked) {n : Nat}
    (hn : .str n ∈ references a.text) :
    (lineWords a.data).countP (defines (Label.str n).render) = 1 := by
  obtain ⟨f, hf, -, i, hi, hop⟩ := h.exists_op hn (by simp)
  have hlt := (hq.code f hf i hi).label?.1 n hop
  rw [countP_defines, h.definitions_data]
  apply List.count_eq_one_of_mem
  · exact List.nodup_range.map fun _ _ => Label.str.inj
  · simpa using hlt

theorem countP_mem (h : Sections q main a) (hq : q.Linked) {n : Nat}
    (hn : .mem n ∈ references a.text) :
    (lineWords a.bss).countP (defines (Label.mem n).render) = 1 := by
  obtain ⟨f, hf, -, i, hi, hop⟩ := h.exists_op hn (by simp)
  have hlt := (hq.code f hf i hi).label?.2 n hop
  have hlast : [Label.returnStack, .returnStackEnd].count (.mem n) = 0 := rfl
  rw [countP_defines, h.definitions_bss, List.count_append, hlast]
  apply List.count_eq_one_of_mem
  · exact List.nodup_range.map fun _ _ => Label.mem.inj
  · simpa using hlt

end Sections

end Assembly

theorem compile_eq_ok {loader : Loader} {entry : String} {options : Options} {output : Output}
    (h : compile loader entry options = .ok output) :
    ∃ p, parse loader entry options = .ok p ∧
      p.validate = (output.program, .ok output.warnings) ∧
      output.program.lower = .ok output.assembly := by
  unfold compile at h
  split at h
  · simp at h
  · next q warnings hcheck =>
    unfold check at hcheck
    split at hcheck
    · simp at hcheck
    · next p hparse =>
      split at hcheck
      · simp at hcheck
      · next hvalid =>
        cases hcheck
        split at h
        · simp at h
        · next a hgenerate =>
          cases h
          refine ⟨p, hparse, hvalid, ?_⟩
          cases htarget : options.resolvedTarget
          rwa [htarget] at hgenerate

/--
Generated assembly is closed. In its text, read as lines of words without comments, every function
that is called has one label, every jump leads to the one label of its name in the same function,
and every string and memory region has one definition in the data. A function is there if and only
if calls from `main` lead to it.
-/
theorem assembly_is_closed {loader : Loader} {entry : String} {options : Options} {output : Output}
    (h : compile loader entry options = .ok output) :
    ∃ main, output.program.main? = some main ∧
      Closed output.program.functions main.entry (readLines (renderLines output.assembly.text))
        (readLines (renderLines output.assembly.data))
        (readLines (renderLines output.assembly.bss)) := by
  obtain ⟨p, hparse, hvalid, hlower⟩ := compile_eq_ok h
  have hq := accepted_of_parse hparse hvalid
  have hlinked := hq.validated.linked (linked_of_parse hparse)
  have hlowerable := lowerable_of_accepted hq
  obtain ⟨main, hmain, ha⟩ := sections_of_lower hlower
  refine ⟨main, hmain, ?_⟩
  rw [ha.readLines_text hlinked hlowerable.words, ha.readLines_data, ha.readLines_bss hlinked]
  refine ⟨?_, ?_, ?_, ?_, ?_, ?_, ?_⟩
  · change _ ∈ within Label.start.render _
    rw [ha.within_start]
    exact mem_lineWords.mpr ⟨.instr (.call (.fn main.entry)), by simp [startInstrs], rfl, by simp⟩
  · intro n line hline hn
    apply ha.countP_fn hq
    apply ha.marked_of_mem_references hq (hq.marked_main hmain)
    exact mem_references.mp ⟨line, hline, hn⟩
  · intro n line hline hn
    obtain ⟨f, -, hwithin⟩ := ha.mem_within hq hline hn
    exact ⟨f.entry, hwithin⟩
  · intro n k line hline hn
    exact ha.countP_ip hq hline hn
  · intro n line hline hn
    exact ha.countP_str hlinked (mem_references.mp ⟨line, hline, hn⟩)
  · intro n line hline hn
    exact ha.countP_mem hlinked (mem_references.mp ⟨line, hline, hn⟩)
  · intro n
    change (∃ line ∈ lineWords output.assembly.text, defines (Label.fn n).render line = true) ↔ _
    rw [mem_definitions, ← List.count_pos_iff, ha.count_fn, List.count_pos_iff, hq.mem_entries]
    exact marked_iff_reached hq hvalid hmain

theorem assembly_is_closed_collatz : ∃ output main,
    compile collatz.loader "main" { library := false } = .ok output ∧
      output.program.main? = some main ∧
      Closed output.program.functions main.entry (readLines (renderLines output.assembly.text))
        (readLines (renderLines output.assembly.data))
        (readLines (renderLines output.assembly.bss)) := by
  obtain ⟨p, q, warnings, _, _, hparse, hvalid, -⟩ := exists_collatz
  obtain ⟨a, ha⟩ := (lowerable_of_accepted (accepted_of_parse hparse hvalid)).exists_lower
  have hcompile : compile collatz.loader "main" { library := false } = .ok ⟨a, q, warnings⟩ := by
    simp only [compile, check, hparse, hvalid, Program.generate, ha]
  obtain ⟨main, hmain, hclosed⟩ := assembly_is_closed hcompile
  exact ⟨_, main, hcompile, hmain, hclosed⟩

end StackLang
