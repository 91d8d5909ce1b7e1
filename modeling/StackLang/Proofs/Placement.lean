import StackLang.Proofs.InternalErrors
import StackLang.Proofs.Processor

/-!
This module contains where lowering puts code: the line of every instruction of every function that
is called, and the lines that labels are resolved to.
-/

namespace StackLang

theorem findIdx?_append_cons {α : Type} {p : α → Bool} {before after : List α} {x : α}
    (hbefore : ∀ y ∈ before, p y = false) (hx : p x = true) :
    (before ++ x :: after).findIdx? p = some before.length := by
  rw [List.findIdx?_append, List.findIdx?_eq_none_iff.mpr hbefore, List.findIdx?_cons, hx]
  simp

namespace Assembly

variable {p : Program}

theorem lowerCode_cons_eq_ok {bound ip : Nat} {i : Instruction} {rest : List Instruction}
    {lines : List Line} (h : lowerCode p bound ip (i :: rest) = .ok lines) :
    ∃ instrs others, lowerOp p bound i = .ok instrs ∧
      lowerCode p (boundAfter bound i.op) (ip + 1) rest = .ok others ∧
      lines = .label (.ip ip) (some i.op.name) :: instrs.map Line.instr ++ others := by
  unfold lowerCode at h
  cases hop : lowerOp p bound i with
  | error e => simp [hop] at h
  | ok instrs =>
    cases hrest : lowerCode p (boundAfter bound i.op) (ip + 1) rest with
    | error e => simp [hop, hrest] at h
    | ok others =>
      simp only [hop, hrest, Except.ok.injEq] at h
      exact ⟨instrs, others, rfl, rfl, h.symm⟩

theorem lowerCode_append_eq_ok {bound ip : Nat} {a b : List Instruction} {lines : List Line}
    (h : lowerCode p bound ip (a ++ b) = .ok lines) :
    ∃ first second, lowerCode p bound ip a = .ok first ∧
      lowerCode p (a.foldl (fun bound i => boundAfter bound i.op) bound) (ip + a.length) b =
        .ok second ∧ lines = first ++ second := by
  induction a generalizing bound ip lines with
  | nil => exact ⟨[], lines, rfl, h, rfl⟩
  | cons i a ih =>
    obtain ⟨instrs, others, hop, hrest, rfl⟩ := lowerCode_cons_eq_ok h
    obtain ⟨first, second, hfirst, hsecond, rfl⟩ := ih hrest
    refine ⟨.label (.ip ip) (some i.op.name) :: instrs.map Line.instr ++ first, second, ?_, ?_, ?_⟩
    · simp only [lowerCode, hop, hfirst]
    · rw [← hsecond, List.length_cons, List.foldl_cons]
      congr 1
      omega
    · simp

theorem label_of_mem_lowerCode {bound ip : Nat} {code : List Instruction} {lines : List Line}
    (h : lowerCode p bound ip code = .ok lines) {l : Label} {remark : Option String}
    (hl : .label l remark ∈ lines) : ∃ k, l = .ip (ip + k) ∧ k < code.length := by
  induction code generalizing bound ip lines with
  | nil =>
    simp only [lowerCode, Except.ok.injEq] at h
    subst h
    simp at hl
  | cons i rest ih =>
    obtain ⟨instrs, others, -, hrest, rfl⟩ := lowerCode_cons_eq_ok h
    simp only [List.cons_append, List.mem_cons, Line.label.injEq, List.mem_append, List.mem_map,
      reduceCtorEq, and_false, exists_false, false_or] at hl
    rcases hl with ⟨rfl, -⟩ | hl
    · exact ⟨0, rfl, by simp⟩
    · obtain ⟨k, rfl, hk⟩ := ih hrest hl
      refine ⟨k + 1, ?_, by simpa using hk⟩
      congr 1
      omega

theorem lowerFunctions_cons_eq_ok {f : Function} {rest : List Function} {lines : List Line}
    (h : lowerFunctions p (f :: rest) = .ok lines) :
    ∃ own others, lowerFunctions p rest = .ok others ∧ lines = own ++ others ∧
      (if f.called then lowerFunction p f = .ok own else own = []) := by
  unfold lowerFunctions at h
  split at h
  · next hcalled =>
    cases hown : lowerFunction p f with
    | error e => simp [hown] at h
    | ok own =>
      cases hrest : lowerFunctions p rest with
      | error e => simp [hown, hrest] at h
      | ok others =>
        simp only [hown, hrest, Except.ok.injEq] at h
        exact ⟨own, others, rfl, h.symm, by rw [if_pos hcalled]⟩
  · next hcalled => exact ⟨[], lines, h, rfl, by rw [if_neg hcalled]⟩

def functionLines (entry : Nat) (body : List Line) : List Line :=
  .label (.fn entry) ::
    (toOperandStack.map Line.instr ++ body ++ (toReturnStack ++ [Instr.ret]).map Line.instr)

theorem lowerFunction_eq_ok {f : Function} {lines : List Line}
    (h : lowerFunction p f = .ok lines) :
    ∃ body, lowerCode p 0 0 f.code = .ok body ∧
      lines = [Line.blank, .comment f.signature] ++ functionLines f.entry body := by
  unfold lowerFunction at h
  cases hbody : lowerCode p 0 0 f.code with
  | error e => simp [hbody] at h
  | ok body =>
    simp only [hbody, Except.ok.injEq] at h
    refine ⟨body, rfl, ?_⟩
    rw [← h]
    simp [functionLines]

theorem fn_of_mem_lowerFunction {f : Function} {lines : List Line} {entry : Nat}
    {remark : Option String} (h : lowerFunction p f = .ok lines)
    (hl : .label (.fn entry) remark ∈ lines) : f.entry = entry := by
  obtain ⟨body, hbody, rfl⟩ := lowerFunction_eq_ok h
  simp only [functionLines, List.mem_append, List.mem_cons, Line.label.injEq, Label.fn.injEq,
    List.mem_map, reduceCtorEq, and_false, exists_false, false_or, or_false, List.not_mem_nil] at hl
  rcases hl with ⟨rfl, -⟩ | hl
  · rfl
  · obtain ⟨k, hk, -⟩ := label_of_mem_lowerCode hbody hl
    simp at hk

theorem lowerFunctions_getElem? {fs : List Function} {lines : List Line} {n : Nat} {f : Function}
    (h : lowerFunctions p fs = .ok lines) (hf : fs[n]? = some f) (hcalled : f.called = true) :
    ∃ before body after, lowerCode p 0 0 f.code = .ok body ∧
      lines = before ++ functionLines f.entry body ++ after ∧
      ∀ entry remark, .label (.fn entry) remark ∈ before →
        ∃ k f', k < n ∧ fs[k]? = some f' ∧ f'.entry = entry := by
  induction fs generalizing n lines with
  | nil => simp at hf
  | cons first fs ih =>
    obtain ⟨own, others, hothers, rfl, hown⟩ := lowerFunctions_cons_eq_ok h
    cases n with
    | zero =>
      simp only [List.getElem?_cons_zero, Option.some.injEq] at hf
      subst hf
      rw [if_pos hcalled] at hown
      obtain ⟨body, hbody, rfl⟩ := lowerFunction_eq_ok hown
      exact ⟨_, body, others, hbody, rfl, by simp⟩
    | succ n =>
      obtain ⟨before, body, after, hbody, rfl, hbefore⟩ := ih hothers hf
      refine ⟨own ++ before, body, after, hbody, by simp, ?_⟩
      intro entry remark hl
      rcases List.mem_append.mp hl with hl | hl
      · split at hown
        · exact ⟨0, first, by omega, rfl, fn_of_mem_lowerFunction hown hl⟩
        · simp [hown] at hl
      · obtain ⟨k, f', hk, hf', hentry⟩ := hbefore entry remark hl
        exact ⟨k + 1, f', by omega, hf', hentry⟩

end Assembly

namespace Processor

open Assembly

structure Placed (q : Program) (text : List Line) (entry : Nat) (g : Function) (start : Nat)
    (body : List Line) : Prop where
  function : q.functions[entry]? = some g
  code : lowerCode q 0 0 g.code = .ok body
  lines : Stands text start (functionLines entry body)
  first : text.findIdx? (isLabel (.fn entry)) = some start

theorem lower_eq_ok {q : Program} {assembly : Assembly} (h : q.lower = .ok assembly) :
    ∃ main lines, q.main? = some main ∧ lowerFunctions q q.functions = .ok lines ∧
      assembly.text = entryPoint main.entry ++ lines := by
  unfold Program.lower at h
  split at h
  · simp at h
  · next main hmain =>
    split at h
    · split at h
      · simp at h
      · next lines hlines =>
        simp only [Except.ok.injEq] at h
        exact ⟨main, lines, hmain, hlines, by rw [← h]⟩
    · simp at h

theorem exists_placed {q : Program} {assembly : Assembly} (h : q.lower = .ok assembly)
    (hentries : ∀ (n : Nat) (g : Function), q.functions[n]? = some g → g.entry = n) {entry : Nat}
    {g : Function} (hg : q.functions[entry]? = some g) (hcalled : g.called = true) :
    ∃ start body, Placed q assembly.text entry g start body := by
  obtain ⟨main, lines, -, hlines, htext⟩ := lower_eq_ok h
  obtain ⟨before, body, after, hbody, rfl, hbefore⟩ := lowerFunctions_getElem? hlines hg hcalled
  rw [hentries entry g hg, List.append_assoc, ← List.append_assoc] at htext
  refine ⟨(entryPoint main.entry ++ before).length, body, hg, hbody, ?_, ?_⟩
  · unfold Stands
    rw [htext, List.drop_left]
    exact List.prefix_append _ _
  · rw [htext]
    apply findIdx?_append_cons
    · intro line hline
      cases line with
      | label l remark =>
        simp only [isLabel, decide_eq_false_iff_not]
        rintro rfl
        simp only [entryPoint, List.mem_append, List.mem_cons, List.mem_map, Line.label.injEq,
          reduceCtorEq, and_false, exists_false, false_or, or_false, false_and,
          List.not_mem_nil] at hline
        -- functions that stand before this one have other entries
        obtain ⟨k, g', hk, hg', hentry⟩ := hbefore entry remark hline
        have := hentries k g' hg'
        omega
      | _ => rfl
    · simp [isLabel]

def lineCount (q : Program) (code : List Instruction) : Nat :=
  match lowerCode q 0 0 code with
  | .error _ => 0
  | .ok lines => lines.length

/--
The line to go on with at the index `ip` of the function with this entry: after the function's
label, two lines that every function starts with, and the lines for the code up to there.
-/
def lineOf (q : Program) (text : List Line) (entry ip : Nat) : Nat :=
  text.findIdx (isLabel (.fn entry)) + 3 + match q.functions[entry]? with
    | none => 0
    | some g => lineCount q (g.code.take ip)

theorem scope_eq {text : List Line} {start n : Nat} (hle : start ≤ n)
    (hstart : text[start]?.any startsScope = true)
    (hrest : ∀ k, start < k → k ≤ n → text[k]?.any startsScope = false) :
    scope text n = some start := by
  induction n with
  | zero =>
    obtain rfl : start = 0 := by omega
    rw [scope, if_pos hstart]
  | succ n ih =>
    rw [scope]
    rcases Nat.lt_or_eq_of_le hle with hlt | rfl
    · rw [if_neg (by rw [hrest (n + 1) hlt (Nat.le_refl _)]; simp)]
      apply ih (by omega)
      intro k hk hk'
      exact hrest k hk (by omega)
    · rw [if_pos hstart]

namespace Placed

variable {q : Program} {text : List Line} {entry : Nat} {g : Function} {start : Nat}
  {body : List Line}

theorem findIdx_eq (h : Placed q text entry g start body) :
    text.findIdx (isLabel (.fn entry)) = start := by
  rw [List.findIdx_eq_getD_findIdx?, h.first]
  rfl

theorem resolve_fn (h : Placed q text entry g start body) (n : Nat) :
    resolve text n (.fn entry) = some start :=
  h.first

theorem split (h : Placed q text entry g start body) {ip : Nat} (hip : ip ≤ g.code.length) :
    ∃ first second, lowerCode q 0 0 (g.code.take ip) = .ok first ∧
      lowerCode q (slotsAt 0 g.code ip) ip (g.code.drop ip) = .ok second ∧
      body = first ++ second ∧ lineOf q text entry ip = start + 3 + first.length ∧
      Stands text (lineOf q text entry ip)
        (second ++ (toReturnStack ++ [Instr.ret]).map Line.instr) := by
  have hcode := h.code
  rw [← List.take_append_drop ip g.code] at hcode
  obtain ⟨first, second, hfirst, hsecond, rfl⟩ := lowerCode_append_eq_ok hcode
  rw [List.length_take, Nat.min_eq_left hip, Nat.zero_add] at hsecond
  have hline : lineOf q text entry ip = start + 3 + first.length := by
    simp only [lineOf, h.findIdx_eq, h.function, lineCount, hfirst]
  refine ⟨first, second, hfirst, hsecond, rfl, hline, ?_⟩
  have hlines : functionLines entry (first ++ second) =
      (.label (.fn entry) :: toOperandStack.map Line.instr ++ first) ++
        (second ++ (toReturnStack ++ [Instr.ret]).map Line.instr) := by
    simp [functionLines]
  have hright := (hlines ▸ h.lines).right
  have hlength : (Line.label (.fn entry) :: toOperandStack.map Line.instr ++ first).length =
      3 + first.length := by
    simp only [toOperandStack, List.map_cons, List.map_nil, List.cons_append, List.nil_append,
      List.length_cons]
    omega
  rw [hlength, ← Nat.add_assoc, ← hline] at hright
  exact hright

theorem instruction (h : Placed q text entry g start body) {ip : Nat} {i : Instruction}
    (hi : g.code[ip]? = some i) :
    ∃ instrs, lowerOp q (slotsAt 0 g.code ip) i = .ok instrs ∧
      Stands text (lineOf q text entry ip)
        (.label (.ip ip) (some i.op.name) :: instrs.map Line.instr) ∧
      lineOf q text entry (ip + 1) = lineOf q text entry ip + 1 + instrs.length := by
  obtain ⟨hip, hget⟩ := List.getElem?_eq_some_iff.mp hi
  obtain ⟨first, second, hfirst, hsecond, hbody, hline, hlines⟩ := h.split (Nat.le_of_lt hip)
  obtain ⟨first', second', -, hsecond', hbody', hline', -⟩ :=
    h.split (show ip + 1 ≤ g.code.length from hip)
  rw [List.drop_eq_getElem_cons hip, hget] at hsecond
  obtain ⟨instrs, others, hop, hothers, rfl⟩ := lowerCode_cons_eq_ok hsecond
  refine ⟨instrs, hop, hlines.left.left, ?_⟩
  rw [slotsAt_succ hi, hothers, Except.ok.injEq] at hsecond'
  subst hsecond'
  have hlength := congrArg List.length (hbody.symm.trans hbody')
  simp only [List.length_append, List.length_cons, List.length_map] at hlength
  omega

theorem ending (h : Placed q text entry g start body) :
    Stands text (lineOf q text entry g.code.length)
      ((toReturnStack ++ [Instr.ret]).map Line.instr) := by
  obtain ⟨first, second, -, hsecond, -, -, hlines⟩ := h.split (Nat.le_refl _)
  rw [List.drop_length] at hsecond
  simp only [lowerCode, Except.ok.injEq] at hsecond
  subst hsecond
  exact hlines

theorem getElem?_add (h : Placed q text entry g start body) {k : Nat}
    (hk : k < (functionLines entry body).length) :
    text[start + k]? = (functionLines entry body)[k]? := by
  obtain ⟨after, hafter⟩ := h.lines
  rw [← List.getElem?_drop, ← hafter, List.getElem?_append_left hk]

theorem startsScope_eq_false (h : Placed q text entry g start body) {line : Line}
    (hline : line ∈ (functionLines entry body).tail) : startsScope line = false := by
  simp only [functionLines, List.tail_cons, List.mem_append, List.mem_map] at hline
  rcases hline with (⟨i, -, rfl⟩ | hline) | ⟨i, -, rfl⟩
  · rfl
  · cases line with
    | label l remark =>
      obtain ⟨k, rfl, -⟩ := label_of_mem_lowerCode h.code hline
      rfl
    | _ => rfl
  · rfl

theorem scope_eq_start (h : Placed q text entry g start body) {n : Nat} (hle : start ≤ n)
    (hlt : n < start + (functionLines entry body).length) : scope text n = some start := by
  apply scope_eq hle
  · have := h.getElem?_add (k := 0) (by simp [functionLines])
    rw [Nat.add_zero] at this
    rw [this]
    rfl
  · intro k hk hk'
    obtain ⟨j, rfl⟩ := Nat.exists_eq_add_of_lt hk
    rw [Nat.add_assoc, h.getElem?_add (by omega)]
    have hj : j < (functionLines entry body).tail.length := by
      rw [List.length_tail]
      omega
    rw [← List.getElem?_tail, List.getElem?_eq_getElem hj]
    exact h.startsScope_eq_false (List.getElem_mem hj)

theorem lines_within (h : Placed q text entry g start body) {ip n : Nat} (hip : ip < g.code.length)
    (hle : lineOf q text entry ip ≤ n) (hlt : n < lineOf q text entry (ip + 1)) :
    start ≤ n ∧ n < start + (functionLines entry body).length := by
  obtain ⟨_, _, -, -, -, hline, -⟩ := h.split (Nat.le_of_lt hip)
  obtain ⟨first, second, -, -, rfl, hline', -⟩ := h.split (show ip + 1 ≤ g.code.length from hip)
  simp only [functionLines, toOperandStack, List.length_cons, List.length_append, List.length_map]
  omega

theorem resolve_ip (h : Placed q text entry g start body) {ip n target : Nat}
    (hip : ip < g.code.length) (hle : lineOf q text entry ip ≤ n)
    (hlt : n < lineOf q text entry (ip + 1)) (ht : target < g.code.length) :
    resolve text n (.ip target) = some (lineOf q text entry target) := by
  have hwithin := h.lines_within hip hle hlt
  obtain ⟨first, second, hfirst, hsecond, hbody, hline, -⟩ := h.split (Nat.le_of_lt ht)
  rw [List.drop_eq_getElem_cons ht] at hsecond
  obtain ⟨instrs, others, -, -, rfl⟩ := lowerCode_cons_eq_ok hsecond
  obtain ⟨after, hafter⟩ := h.lines
  have hdrop : text.drop (start + 1) = (functionLines entry body).tail ++ after := by
    rw [← List.drop_drop, ← hafter]
    rfl
  have htail : (functionLines entry body).tail = (toOperandStack.map Line.instr ++ first) ++
      .label (.ip target) (some g.code[target].op.name) :: (instrs.map Line.instr ++ others ++
        (toReturnStack ++ [Instr.ret]).map Line.instr) := by
    simp [functionLines, hbody]
  simp only [resolve, h.scope_eq_start hwithin.1 hwithin.2, hdrop]
  rw [List.takeWhile_append_of_pos, htail, List.append_assoc, List.cons_append,
    findIdx?_append_cons]
  · simp only [Option.map_some, Option.some.injEq, List.length_append, List.length_map,
      toOperandStack, List.length_cons, List.length_nil]
    omega
  · intro line hline
    rcases List.mem_append.mp hline with hline | hline
    · obtain ⟨i, -, rfl⟩ := List.mem_map.mp hline
      rfl
    · cases line with
      | label l remark =>
        -- the labels before this one are those of earlier instructions
        obtain ⟨k, rfl, hk⟩ := label_of_mem_lowerCode hfirst hline
        rw [List.length_take] at hk
        simp only [isLabel, Label.ip.injEq, decide_eq_false_iff_not]
        omega
      | _ => rfl
  · simp [isLabel]
  · intro line hline
    rw [h.startsScope_eq_false hline]
    rfl

end Placed
end Processor
end StackLang
