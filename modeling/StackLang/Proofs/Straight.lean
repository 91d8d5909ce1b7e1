import StackLang.Proofs.Image

/-!
This module contains the execution of what an operation is lowered to, if it neither jumps nor
calls. A processor that holds operands, binding slots and data holds them afterward as the
operation leaves them.
-/

namespace StackLang.Processor

open Assembly

variable {text : List Line} {L : Layout text}

def test (condition : Condition) (a b : Word) : Bool :=
  match condition with
  | .e => a = b
  | .ne => a ≠ b
  | .l => a.slt b
  | .g => b.slt a
  | .le => a.sle b
  | .ge => b.sle a

theorem sign_sub (a b : Word) :
    ((a - b).msb != (a.msb != b.msb && (a - b).msb != a.msb)) = a.slt b := by
  have hmsb : ∀ x : Word, x.msb = true ↔ 2 ^ 63 ≤ x.toNat := by
    intro x
    rw [BitVec.msb_eq_decide, decide_eq_true_eq]
  have ha := hmsb a
  have hb := hmsb b
  have hsub := hmsb (a - b)
  have hslt : a.slt b = true ↔ a.toInt < b.toInt := BitVec.slt_iff_toInt_lt
  have hlta := a.isLt
  have hltb := b.isLt
  rw [BitVec.toNat_sub] at hsub
  rw [BitVec.toInt_eq_msb_cond, BitVec.toInt_eq_msb_cond] at hslt
  rw [Bool.eq_iff_iff, hslt]
  -- what is left is linear for each of the signs
  generalize a.msb = sa at *
  generalize b.msb = sb at *
  generalize (a - b).msb = ssub at *
  cases sa <;> cases sb <;> cases ssub <;>
    simp only [Bool.false_eq_true, false_iff, true_iff] at ha hb hsub <;> simp <;> omega

theorem zero_sub (a b : Word) : (a - b == 0) = decide (a = b) := by
  rw [Bool.eq_iff_iff, beq_iff_eq, decide_eq_true_eq]
  bv_omega

theorem holds_cmp (condition : Condition) (a b : Word) :
    (Flags.of (a - b) (a.msb != b.msb && (a - b).msb != a.msb)).holds condition =
      test condition a b := by
  have hsign := sign_sub a b
  have hzero := zero_sub a b
  have hsame : ∀ x y : Bool, (x == y) = !(x != y) := by decide
  have hle : a.sle b = (decide (a = b) || a.slt b) := by
    rw [Bool.eq_iff_iff]
    simp only [BitVec.sle, BitVec.slt, Bool.or_eq_true, decide_eq_true_eq, ← BitVec.toInt_inj]
    omega
  have hnot : ∀ a b : Word, b.slt a = !a.sle b := by
    intro a b
    rw [Bool.eq_iff_iff]
    simp only [BitVec.sle, BitVec.slt, Bool.not_eq_true', decide_eq_true_eq,
      decide_eq_false_iff_not]
    omega
  cases condition with
  | e => exact hzero
  | ne => simp only [Flags.holds, Flags.of, test, hzero, ne_eq, decide_not]
  | l => exact hsign
  | le =>
    rw [test, hle, ← hsign, ← hzero]
    rfl
  | g =>
    rw [test, hnot, hle, ← hsign, ← hzero, Bool.not_or, ← hsame]
    rfl
  | ge =>
    rw [test, ← Bool.not_not (b.sle a), ← hnot, ← hsign, ← hsame]
    rfl

theorem divide?_extended (a b : Word) :
    divide? (if a.msb then -1 else 0) a b = Word.divide? a b := by
  have hdividend : (if a.msb then (-1 : Word) else 0).toInt * 2 ^ 64 + a.toNat = a.toInt := by
    rw [BitVec.toInt_eq_msb_cond a]
    split
    · have : (-1 : Word).toInt = -1 := by decide
      omega
    · simp
  unfold divide? Word.divide?
  rw [hdividend]

/-- What code does to the operands and the data, if there is room for the operands. -/
def Performs (L : Layout text) (instrs : List Instr) (stack stack' : List Word)
    (data data' : Store) : Prop :=
  ∀ s cells, Holds L s stack cells data → 8 * stack'.length ≤ L.operandBytes →
    ∃ s', straight L s instrs = .ok s' ∧ Holds L s' stack' cells data'

section

variable {data data' : Store} {stack stack' : List Word}

theorem straight_popTwo {s : Core} {cells : List Word} {a b : Word}
    (h : Holds L s (b :: a :: stack) cells data) :
    ∃ s', straight L s popTwo = .ok s' ∧ Holds L s' stack cells data ∧ s'.regs .rax = a ∧
      s'.regs .rbx = b ∧ s'.regs .rcx = s.regs .rcx := by
  have h₁ := h.pop (r := .rbx) rfl
  refine ⟨(s.pop .rbx).pop .rax, rfl, h₁.pop rfl, h₁.regs_pop, ?_, ?_⟩
  · rw [Core.regs_pop_of_ne (by simp) rfl, h.regs_pop]
  · rw [Core.regs_pop_of_ne (by simp) rfl, Core.regs_pop_of_ne (by simp) rfl]

theorem performs_combine {op : Binary} (hop : keepsResult op = true) (a b : Word) :
    Performs L (Assembly.combine op) (b :: a :: stack) ((combine op a b).1 :: stack) data data := by
  intro s cells h hroom
  obtain ⟨s', hs', h', hrax, hrbx, -⟩ := straight_popTwo h
  have hresult : (s'.binary op .rax (s'.regs .rbx)).regs .rax = (combine op a b).1 := by
    simp only [Core.binary, hop, hrax, hrbx, Core.set, if_true]
  rw [Assembly.combine, straight_append hs']
  exact ⟨_, rfl, (h'.binary rfl op _).push hroom hresult⟩

theorem performs_compare (condition : Condition) (a b : Word) :
    Performs L (Assembly.compare condition) (b :: a :: stack)
      (Word.ofBool (test condition a b) :: stack) data data := by
  intro s cells h hroom
  obtain ⟨s₁, hs₁, h₁, hrax, hrbx, -⟩ := straight_popTwo h
  obtain ⟨s₂, hs₂, h₂, hflags, hrcx, hrdx⟩ : ∃ s₂, straight L s₁
      [.binary .xor .rcx (.reg .rcx), .mov .rdx (.imm 1), .binary .cmp .rax (.reg .rbx)] = .ok s₂ ∧
      Holds L s₂ stack cells data ∧ s₂.flags = (combine .cmp a b).2 ∧ s₂.regs .rcx = 0 ∧
      s₂.regs .rdx = 1 := by
    refine ⟨_, rfl, ?_, ?_, ?_, ?_⟩
    · exact ((h₁.binary rfl _ _).set rfl _).binary rfl _ _
    · simp [Core.binary, Core.set, keepsResult, value, hrax, hrbx]
    · simp [Core.binary, Core.set, keepsResult, value, combine]
    · simp [Core.binary, Core.set, keepsResult, value]
  -- the result stays zero unless the condition holds
  let s₃ := if test condition a b then s₂.set .rcx (s₂.regs .rdx) else s₂
  have hs₃ : straight L s₂ [.cmov condition .rcx .rdx, .push (.reg .rcx)] =
      .ok (s₃.push (s₃.regs .rcx)) := by
    simp only [straight, plain, hflags, combine, holds_cmp]
    rfl
  have h₃ : Holds L s₃ stack cells data := by
    unfold s₃
    split
    · exact h₂.set rfl _
    · exact h₂
  have hresult : s₃.regs .rcx = Word.ofBool (test condition a b) := by
    unfold s₃ Word.ofBool
    split
    · simp [Core.set, hrdx]
    · exact hrcx
  exact ⟨_, (straight_append hs₁ _).trans ((straight_append hs₂ _).trans hs₃),
    h₃.push hroom hresult⟩

theorem performs_divide {a b : Word} {r : Word × Word} (hr : Word.divide? a b = some r) :
    Performs L (Assembly.divide .rax) (b :: a :: stack) (r.1 :: stack) data data ∧
      Performs L (Assembly.divide .rdx) (b :: a :: stack) (r.2 :: stack) data data := by
  have hdivided : ∀ s cells, Holds L s (b :: a :: stack) cells data →
      ∃ s', straight L s (popTwo ++ [Instr.cqo, .idiv .rbx]) = .ok s' ∧
        Holds L s' stack cells data ∧ s'.regs .rax = r.1 ∧ s'.regs .rdx = r.2 := by
    intro s cells h
    obtain ⟨s₁, hs₁, h₁, hrax, hrbx, -⟩ := straight_popTwo h
    let s₂ := s₁.set .rdx (if a.msb then -1 else 0)
    have h₂ : Holds L s₂ stack cells data := h₁.set rfl _
    have hdivide : divide? (s₂.regs .rdx) (s₂.regs .rax) (s₂.regs .rbx) = some r := by
      simp only [s₂, Core.set, reduceCtorEq, if_true, if_false, hrax, hrbx]
      rw [divide?_extended, hr]
    refine ⟨{ (s₂.set .rax r.1).set .rdx r.2 with flags := none }, ?_, ?_, ?_, ?_⟩
    · rw [straight_append hs₁]
      simp only [straight, plain, hrax]
      simp only [s₂] at hdivide
      simp only [hdivide]
      rfl
    · exact ((h₂.set rfl _).set rfl _).setFlags none
    · simp [Core.set]
    · simp [Core.set]
  constructor
  · intro s cells h hroom
    obtain ⟨s', hs', h', hrax, -⟩ := hdivided s cells h
    exact ⟨_, straight_append hs' [.push (.reg .rax)], h'.push hroom hrax⟩
  · intro s cells h hroom
    obtain ⟨s', hs', h', -, hrdx⟩ := hdivided s cells h
    exact ⟨_, straight_append hs' [.push (.reg .rdx)], h'.push hroom hrdx⟩

theorem performs_binary {op : Binary} {f : Word → Word → Word} (hop : keepsResult op = true)
    (hf : ∀ a b, (combine op a b).1 = f a b)
    (h : Machine.binary f data stack = .ok (stack', data')) :
    Performs L (Assembly.combine op) stack stack' data data' := by
  unfold Machine.binary at h
  split at h
  · simp only [Except.ok.injEq, Prod.mk.injEq] at h
    obtain ⟨rfl, rfl⟩ := h
    rw [← hf]
    exact performs_combine hop _ _
  · simp at h

theorem performs_test (condition : Condition)
    (h : Machine.compare (test condition) data stack = .ok (stack', data')) :
    Performs L (Assembly.compare condition) stack stack' data data' := by
  unfold Machine.compare Machine.binary at h
  split at h
  · simp only [Except.ok.injEq, Prod.mk.injEq] at h
    obtain ⟨rfl, rfl⟩ := h
    exact performs_compare condition _ _
  · simp at h

theorem performs_not (a : Word) :
    Performs L (lowerPrim .not) (a :: stack) ((a ^^^ 1) :: stack) data data := by
  intro s cells h hroom
  have h₁ := h.pop (r := .rax) rfl
  have hresult : ((s.pop .rax).binary .xor .rax 1).regs .rax = a ^^^ 1 := by
    simp [Core.binary, keepsResult, Core.set, combine, h.regs_pop]
  exact ⟨_, rfl, (h₁.binary rfl .xor 1).push hroom hresult⟩

theorem performs_dup (a : Word) :
    Performs L (lowerPrim .dup) (a :: stack) (a :: a :: stack) data data := by
  intro s cells h hroom
  exact ⟨_, rfl, h.push hroom h.readWord_rsp⟩

theorem performs_drop (a : Word) :
    Performs L (lowerPrim .drop) (a :: stack) stack data data := by
  intro s cells h _
  have himage : Image L s.memory ([a] ++ stack) cells data := h.image
  exact ⟨_, rfl, himage.drop, h.rsp_drop, h.rbp⟩

theorem performs_peek (a b : Word) :
    Performs L (lowerPrim .peek) (b :: a :: stack) (a :: b :: a :: stack) data data := by
  intro s cells h hroom
  have hread : s.memory.readWord (s.address (.offset .rsp 8)) = a := by
    have hbytes : (8 : UInt64).toBitVec = 8 := rfl
    rw [Core.address, hbytes, h.rsp_drop]
    exact h.image.operands.2.1
  exact ⟨_, rfl, h.push hroom hread⟩

theorem performs_swap (a b : Word) :
    Performs L (lowerPrim .swap) (b :: a :: stack) (a :: b :: stack) data data := by
  intro s cells h hroom
  obtain ⟨s', hs', h', hrax, hrbx, -⟩ := straight_popTwo h
  simp only [List.length_cons] at hroom
  have h₁ := h'.push (by omega) hrbx
  exact ⟨_, straight_append hs' _, h₁.push hroom hrax⟩

theorem performs_rot (a b c : Word) :
    Performs L (lowerPrim .rot) (c :: b :: a :: stack) (a :: c :: b :: stack) data data := by
  intro s cells h hroom
  have h₀ := h.pop (r := .rcx) rfl
  obtain ⟨s', hs', h', hrax, hrbx, hrcx⟩ := straight_popTwo h₀
  rw [h.regs_pop] at hrcx
  have hpop : straight L s [.pop .rcx] = .ok (s.pop .rcx) := rfl
  have hpops := (straight_append hpop popTwo).trans hs'
  simp only [List.length_cons] at hroom
  have h₁ := h'.push (by omega) hrbx
  have h₂ := h₁.push (by simp only [List.length_cons]; omega) hrcx
  exact ⟨_, straight_append hpops _, h₂.push hroom hrax⟩

theorem performs_load {a : Word} (ha : L.env.wordAt a = true) :
    Performs L (lowerPrim .load) (a :: stack) (data.readWord a :: stack) data data := by
  intro s cells h hroom
  have h₁ := h.pop (r := .rax) rfl
  have hread : (s.pop .rax).memory.readWord ((s.pop .rax).regs .rax) = data.readWord a := by
    rw [h.regs_pop, h₁.image.readWord_eq ha]
  exact ⟨_, rfl, (h₁.set rfl _).push hroom hread⟩

theorem performs_load8 {a i : Word} (ha : L.env.data (a + i) = true) :
    Performs L (lowerPrim .load8) (i :: a :: stack) ((data (a + i)).setWidth 64 :: stack)
      data data := by
  intro s cells h hroom
  have h₁ := h.pop (r := .rcx) rfl
  have h₂ := h₁.pop (r := .rax) rfl
  have haddress : ((s.pop .rcx).pop .rax).address (.index .rax .rcx) = a + i := by
    rw [Core.address, h₁.regs_pop, Core.regs_pop_of_ne (by simp) rfl, h.regs_pop]
  have hread : (((s.pop .rcx).pop .rax).memory
      (((s.pop .rcx).pop .rax).address (.index .rax .rcx))).setWidth 64 =
        (data (a + i)).setWidth 64 := by
    rw [haddress, h₂.image.data _ ha]
  exact ⟨_, rfl, (h₂.set rfl _).push hroom hread⟩

theorem performs_store {a v : Word} (ha : L.env.wordAt a = true) :
    Performs L (lowerPrim .store) (a :: v :: stack) stack data (data.writeWord a v) := by
  intro s cells h _
  have h₁ := h.pop (r := .rax) rfl
  have h₂ := h₁.pop (r := .rbx) rfl
  have haddress : ((s.pop .rax).pop .rbx).address (.base .rax) = a := by
    rw [Core.address, Core.regs_pop_of_ne (by simp) rfl, h.regs_pop]
  refine ⟨_, rfl, ?_, h₂.rsp, h₂.rbp⟩
  simp only [haddress, h₁.regs_pop]
  exact h₂.image.writeData ha v

theorem performs_store8 {a i v : Word} (ha : L.env.data (a + i) = true) :
    Performs L (lowerPrim .store8) (i :: a :: v :: stack) stack data
      (data.writeByte (a + i) (v.setWidth 8)) := by
  intro s cells h _
  have h₁ := h.pop (r := .rcx) rfl
  have h₂ := h₁.pop (r := .rax) rfl
  have h₃ := h₂.pop (r := .rbx) rfl
  have haddress : (((s.pop .rcx).pop .rax).pop .rbx).address (.index .rax .rcx) = a + i := by
    rw [Core.address, Core.regs_pop_of_ne (by simp) rfl, h₁.regs_pop,
      Core.regs_pop_of_ne (by simp) rfl, Core.regs_pop_of_ne (by simp) rfl, h.regs_pop]
  refine ⟨_, rfl, ?_, h₃.rsp, h₃.rbp⟩
  simp only [haddress, h₂.regs_pop]
  exact h₃.image.writeByte ha _

theorem performs_prim {prim : Prim}
    (h : Machine.prim L.env data prim stack = .ok (stack', data')) :
    Performs L (lowerPrim prim) stack stack' data data' := by
  cases prim with
  | add => exact performs_binary rfl (fun _ _ => rfl) h
  | sub => exact performs_binary rfl (fun _ _ => rfl) h
  | mul => exact performs_binary rfl (fun _ _ => rfl) h
  | and => exact performs_binary rfl (fun _ _ => rfl) h
  | or => exact performs_binary rfl (fun _ _ => rfl) h
  | eq => exact performs_test .e h
  | ne => exact performs_test .ne h
  | lt => exact performs_test .l h
  | gt => exact performs_test .g h
  | le => exact performs_test .le h
  | ge => exact performs_test .ge h
  | div =>
    match stack, h with
    | b :: a :: _, h =>
      simp only [Machine.prim, Machine.divide] at h
      split at h
      · next hr =>
        cases h
        exact (performs_divide hr).1
      · simp at h
  | mod =>
    match stack, h with
    | b :: a :: _, h =>
      simp only [Machine.prim, Machine.divide] at h
      split at h
      · next hr =>
        cases h
        exact (performs_divide hr).2
      · simp at h
  | not =>
    match stack, h with
    | a :: _, rfl => exact performs_not a
  | dup =>
    match stack, h with
    | a :: _, rfl => exact performs_dup a
  | drop =>
    match stack, h with
    | a :: _, rfl => exact performs_drop a
  | swap =>
    match stack, h with
    | b :: a :: _, rfl => exact performs_swap a b
  | peek =>
    match stack, h with
    | b :: a :: _, rfl => exact performs_peek a b
  | rot =>
    match stack, h with
    | c :: b :: a :: _, rfl => exact performs_rot a b c
  | load =>
    match stack, h with
    | a :: _, h =>
      simp only [Machine.prim] at h
      split at h
      · next ha =>
        cases h
        exact performs_load ha
      · simp at h
  | load8 =>
    match stack, h with
    | i :: a :: _, h =>
      simp only [Machine.prim] at h
      split at h
      · next ha =>
        cases h
        exact performs_load8 ha
      · simp at h
  | store =>
    match stack, h with
    | a :: v :: _, h =>
      simp only [Machine.prim] at h
      split at h
      · next ha =>
        cases h
        exact performs_store ha
      · simp at h
  | store8 =>
    match stack, h with
    | i :: a :: v :: _, h =>
      simp only [Machine.prim] at h
      split at h
      · next ha =>
        cases h
        exact performs_store8 ha
      · simp at h

end

theorem straight_fill {s : Core} {data : Store} {stack values done junk cells : List Word}
    (h : Holds L s (values ++ stack) (done ++ (junk ++ cells)) data)
    (hlength : junk.length = values.length) :
    ∃ s', straight L s ((List.range' done.length values.length).flatMap fun slot =>
        [.pop .rax, .store (.offset .rbp (cellBytes slot)) .rax]) = .ok s' ∧
      Holds L s' stack (done ++ (values ++ cells)) data := by
  induction values generalizing s done junk with
  | nil =>
    rw [List.eq_nil_of_length_eq_zero hlength] at h
    exact ⟨s, rfl, h⟩
  | cons v values ih =>
    cases junk with
    | nil => simp at hlength
    | cons old junk =>
      simp only [List.cons_append] at h
      have h₁ := h.pop (r := .rax) rfl
      have h₂ := h₁.writeWord_slot ((s.pop .rax).regs .rax)
      rw [h.regs_pop, List.append_cons] at h₂
      obtain ⟨s', hs', h'⟩ := ih h₂ (by simpa using hlength)
      refine ⟨s', ?_, ?_⟩
      · rw [List.length_append, List.length_singleton] at hs'
        rw [List.length_cons, List.range'_succ, List.flatMap_cons, ← hs']
        simp only [List.cons_append, List.nil_append, straight, plain, h.regs_pop]
      · rw [List.append_assoc] at h'
        exact h'

section

variable {core : Core} {data : Store} {stack slots cells : List Word}

theorem reverse_append_of_getElem? {slot : Nat} {v : Word} (hv : slots[slot]? = some v) :
    slots.reverse ++ cells =
      (slots.drop (slot + 1)).reverse ++ v :: ((slots.take slot).reverse ++ cells) := by
  obtain ⟨hlt, hget⟩ := List.getElem?_eq_some_iff.mp hv
  have hsplit : slots = slots.take slot ++ v :: slots.drop (slot + 1) := by
    rw [← hget, ← List.drop_eq_getElem_cons hlt, List.take_append_drop]
  conv => lhs; rw [hsplit]
  simp

theorem straight_pushBind {slot : Nat} {v : Word} (hv : slots[slot]? = some v)
    (h : Holds L core stack (slots.reverse ++ cells) data)
    (hroom : 8 * (stack.length + 1) ≤ L.operandBytes) :
    ∃ core', straight L core
        [.pushFrom (.offset .rbp (cellBytes (slots.length - slot - 1)))] = .ok core' ∧
      Holds L core' (v :: stack) (slots.reverse ++ cells) data := by
  have hlt := (List.getElem?_eq_some_iff.mp hv).1
  have hlength : slots.length - slot - 1 = (slots.drop (slot + 1)).reverse.length := by
    rw [List.length_reverse, List.length_drop]
    omega
  have hread : core.memory.readWord
      (core.address (.offset .rbp (cellBytes (slots.length - slot - 1)))) = v := by
    rw [hlength]
    rw [reverse_append_of_getElem? hv] at h
    exact h.readWord_slot
  exact ⟨_, rfl, h.push hroom hread⟩

theorem straight_bind {count : Nat} (hcount : count ≤ stack.length)
    (h : Holds L core stack (slots.reverse ++ cells) data)
    (hroom : 8 * (slots.length + count + cells.length) ≤ returnStackSize) :
    ∃ core', straight L core (lowerBind count) = .ok core' ∧
      Holds L core' (stack.drop count)
        ((slots ++ (stack.take count).reverse).reverse ++ cells) data := by
  obtain ⟨junk, hlength, h₁⟩ := h.reserve (n := count) (by
    rw [List.length_append, List.length_reverse]
    omega)
  have htake : (stack.take count).length = count := by
    rw [List.length_take]
    omega
  rw [← List.take_append_drop count stack,
    ← List.nil_append (junk ++ (slots.reverse ++ cells))] at h₁
  obtain ⟨core', hcore', h₂⟩ := straight_fill h₁ (hlength.trans htake.symm)
  refine ⟨core', ?_, ?_⟩
  · rw [← hcore', htake, List.length_nil, ← List.range_eq_range', lowerBind]
    simp only [straight, plain, value, ofInt_cellBytes]
  · rw [List.reverse_append, List.reverse_reverse, List.append_assoc]
    exact h₂

theorem straight_unbind {count : Nat} (hcount : count ≤ slots.length)
    (h : Holds L core stack (slots.reverse ++ cells) data) :
    ∃ core', straight L core [.binary .add .rbp (.imm (cellBytes count).toNat)] = .ok core' ∧
      Holds L core' stack ((slots.take (slots.length - count)).reverse ++ cells) data := by
  have hlength : (slots.drop (slots.length - count)).reverse.length = count := by
    rw [List.length_reverse, List.length_drop]
    omega
  rw [← List.take_append_drop (slots.length - count) slots, List.reverse_append,
    List.append_assoc] at h
  refine ⟨_, rfl, ?_⟩
  have h' := h.release
  rw [hlength] at h'
  rw [value, ofInt_cellBytes]
  exact h'

end

theorem straight_of_exec {q : Program} {i : Instruction} {instrs : List Instr}
    {s s' : Machine.Local} {core : Core} {cells : List Word} (hlocal : i.op.isLocal = true)
    (hlower : lowerOp q s.slots.length i = .ok instrs)
    (hexec : Machine.exec L.env s i.op = .ok s')
    (h : Holds L core s.stack (s.slots.reverse ++ cells) s.memory)
    (hroom : 8 * s'.stack.length ≤ L.operandBytes)
    (hroom' : 8 * (s'.slots.length + cells.length) ≤ returnStackSize) :
    ∃ core', straight L core instrs = .ok core' ∧
      Holds L core' s'.stack (s'.slots.reverse ++ cells) s'.memory := by
  obtain ⟨loc, op⟩ := i
  cases op with
  | pushInt n =>
    cases hlower
    cases hexec
    exact ⟨_, rfl, (h.set rfl _).push hroom BitVec.ofInt_toInt⟩
  | pushBool b =>
    cases hlower
    cases hexec
    refine ⟨_, rfl, h.push hroom ?_⟩
    cases b <;> rfl
  | pushChar b =>
    cases hlower
    cases hexec
    refine ⟨_, rfl, h.push hroom ?_⟩
    rw [value, BitVec.ofInt_natCast, ← UInt8.toNat_toBitVec, BitVec.ofNat_toNat]
  | pushStr index =>
    cases hlower
    cases hexec
    exact ⟨_, rfl, (h.set rfl _).push hroom rfl⟩
  | pushPtr index =>
    cases hlower
    cases hexec
    exact ⟨_, rfl, (h.set rfl _).push hroom rfl⟩
  | pushBind slot =>
    simp only [Machine.exec] at hexec
    split at hexec
    · simp at hexec
    · next v hv =>
      have hlt := (List.getElem?_eq_some_iff.mp hv).1
      simp only [lowerOp, hlt, if_true] at hlower
      cases hlower
      cases hexec
      exact straight_pushBind hv h hroom
  | prim prim =>
    cases hlower
    simp only [Machine.exec] at hexec
    split at hexec
    · simp at hexec
    · next hprim =>
      cases hexec
      exact performs_prim hprim core _ h hroom
  | cast kind =>
    cases hlower
    simp only [Machine.exec] at hexec
    split at hexec
    · simp at hexec
    · cases hexec
      exact ⟨core, rfl, h⟩
  | enter block =>
    cases hlower
    cases hexec
    exact ⟨core, rfl, h⟩
  | leave block =>
    cases hlower
    cases hexec
    exact ⟨core, rfl, h⟩
  | bind count =>
    cases hlower
    simp only [Machine.exec] at hexec
    split at hexec
    · simp at hexec
    · next hcount =>
      cases hexec
      simp only [List.length_append, List.length_reverse, List.length_take] at hroom'
      exact straight_bind (Nat.not_lt.mp hcount) h (by omega)
  | unbind count =>
    cases hlower
    simp only [Machine.exec] at hexec
    split at hexec
    · simp at hexec
    · next hcount =>
      cases hexec
      exact straight_unbind (Nat.not_lt.mp hcount) h
  | word name =>
    simp [Machine.exec] at hexec
  | branch _ | otherwise _ | jump _ | call _ | syscall _ => simp [Op.isLocal] at hlocal

theorem straight_pops {core : Core} {data : Store} {regs : List Reg}
    {values stack cells : List Word} (hregs : regs.Nodup)
    (hplain : ∀ r ∈ regs, isPointer r = false) (hlength : values.length = regs.length)
    (h : Holds L core (values ++ stack) cells data) :
    ∃ core', straight L core (regs.map .pop) = .ok core' ∧ Holds L core' stack cells data ∧
      regs.map core'.regs = values ∧
      ∀ r, r ∉ regs → isPointer r = false → core'.regs r = core.regs r := by
  induction regs generalizing core values with
  | nil =>
    rw [List.eq_nil_of_length_eq_zero hlength] at h ⊢
    exact ⟨core, rfl, h, rfl, fun _ _ _ => rfl⟩
  | cons r regs ih =>
    cases values with
    | nil => simp at hlength
    | cons v values =>
      rw [List.nodup_cons] at hregs
      have hr := hplain r List.mem_cons_self
      obtain ⟨core', hcore', h', hvalues, hsame⟩ := ih hregs.2
        (fun r' hr' => hplain r' (List.mem_cons_of_mem _ hr')) (by simpa using hlength)
        (h.pop hr)
      refine ⟨core', hcore', h', ?_, ?_⟩
      · rw [List.map_cons, hvalues, hsame r hregs.1 hr, h.regs_pop]
      · intro r' hr' hplain'
        rw [List.mem_cons, not_or] at hr'
        rw [hsame r' hr'.2 hplain', Core.regs_pop_of_ne hr'.1 hplain']

end StackLang.Processor
