import StackLang.Proofs.Processor

/-!
This module contains what a processor holds for a program: the operands and the cells of the return
stack, each below the end of its stack, and the data.
-/

namespace StackLang.Processor

open Assembly

variable {text : List Line} {L : Layout text}

def Layout.env (L : Layout text) : Machine.Env where
  str index := L.label (.str index)
  mem index := L.label (.mem index)
  data := L.data

structure Image (L : Layout text) (memory : Store) (stack cells : List Word) (data : Store) :
    Prop where
  operands : Stacked memory L.operandEnd stack
  returns : Stacked memory (L.label .returnStackEnd) cells
  data : ∀ x, L.data x = true → memory x = data x
  operands_le : 8 * stack.length ≤ L.operandBytes
  returns_le : 8 * cells.length ≤ returnStackSize

theorem writeWord_cell {m : Store} {top x : Word} {n bytes : Nat} (hn : 8 * (n + 1) ≤ bytes)
    (hbytes : bytes < 2 ^ 64) (hx : ¬ Below top bytes x) (v : Word) :
    m.writeWord (cellAddr top (n + 1)) v x = m x := by
  apply Store.writeWord_apply
  rw [mem_cell (by omega)]
  intro hcell
  exact hx ⟨by omega, by omega⟩

theorem data_of_wordAt {env : Machine.Env} {a x : Word} (h : env.wordAt a = true)
    (hx : (x - a).toNat < 8) : env.data x = true := by
  unfold Machine.Env.wordAt at h
  rw [List.all_eq_true] at h
  have := h (x - a).toNat (List.mem_range.mpr hx)
  rw [BitVec.ofNat_toNat, BitVec.setWidth_eq, BitVec.add_comm, BitVec.sub_add_cancel] at this
  exact this

namespace Image

variable {m m' data data' : Store} {stack stack' cells cells' : List Word}

theorem change_operands (h : Image L m stack cells data)
    (hsame : ∀ x, ¬ Below L.operandEnd L.operandBytes x → m' x = m x)
    (hstack : Stacked m' L.operandEnd stack') (hle : 8 * stack'.length ≤ L.operandBytes) :
    Image L m' stack' cells data where
  operands := hstack
  returns := by
    apply h.returns.congr (Nat.lt_of_le_of_lt h.returns_le (by decide))
    intro x hx
    apply hsame
    intro hx'
    exact L.stacks_apart x hx' ⟨hx.1, Nat.le_trans hx.2 h.returns_le⟩
  data x hx := (hsame x (L.data_operands x hx)).trans (h.data x hx)
  operands_le := hle
  returns_le := h.returns_le

theorem change_returns (h : Image L m stack cells data)
    (hsame : ∀ x, ¬ Below (L.label .returnStackEnd) returnStackSize x → m' x = m x)
    (hcells : Stacked m' (L.label .returnStackEnd) cells')
    (hle : 8 * cells'.length ≤ returnStackSize) : Image L m' stack cells' data where
  operands := by
    apply h.operands.congr (Nat.lt_of_le_of_lt h.operands_le L.operandBytes_lt)
    intro x hx
    apply hsame
    exact L.stacks_apart x ⟨hx.1, Nat.le_trans hx.2 h.operands_le⟩
  returns := hcells
  data x hx := (hsame x (L.data_returns x hx)).trans (h.data x hx)
  operands_le := h.operands_le
  returns_le := hle

theorem change_data (h : Image L m stack cells data)
    (hsame : ∀ x, L.data x = false → m' x = m x)
    (hdata : ∀ x, L.data x = true → m' x = data' x) : Image L m' stack cells data' where
  operands := by
    apply h.operands.congr (Nat.lt_of_le_of_lt h.operands_le L.operandBytes_lt)
    intro x hx
    apply hsame
    rw [← Bool.not_eq_true]
    intro hx'
    exact L.data_operands x hx' ⟨hx.1, Nat.le_trans hx.2 h.operands_le⟩
  returns := by
    apply h.returns.congr (Nat.lt_of_le_of_lt h.returns_le (by decide))
    intro x hx
    apply hsame
    rw [← Bool.not_eq_true]
    intro hx'
    exact L.data_returns x hx' ⟨hx.1, Nat.le_trans hx.2 h.returns_le⟩
  data := hdata
  operands_le := h.operands_le
  returns_le := h.returns_le

theorem push (h : Image L m stack cells data) (hroom : 8 * (stack.length + 1) ≤ L.operandBytes)
    (v : Word) :
    Image L (m.writeWord (cellAddr L.operandEnd (stack.length + 1)) v) (v :: stack) cells data := by
  have hbytes := L.operandBytes_lt
  apply h.change_operands _ (h.operands.push (by omega) v) hroom
  intro x hx
  exact writeWord_cell hroom hbytes hx v

theorem drop {above : List Word} (h : Image L m (above ++ stack) cells data) :
    Image L m stack cells data := by
  apply h.change_operands (fun _ _ => rfl) h.operands.of_append
  have := h.operands_le
  rw [List.length_append] at this
  omega

theorem pushReturn (h : Image L m stack cells data)
    (hroom : 8 * (cells.length + 1) ≤ returnStackSize) (v : Word) :
    Image L (m.writeWord (cellAddr (L.label .returnStackEnd) (cells.length + 1)) v) stack
      (v :: cells) data := by
  have hbytes : returnStackSize < 2 ^ 64 := by decide
  apply h.change_returns _ (h.returns.push (by omega) v) hroom
  intro x hx
  exact writeWord_cell hroom hbytes hx v

theorem setReturn {above : List Word} {old : Word}
    (h : Image L m stack (above ++ old :: cells) data) (v : Word) :
    Image L (m.writeWord (cellAddr (L.label .returnStackEnd) (cells.length + 1)) v) stack
      (above ++ v :: cells) data := by
  have hbytes : returnStackSize < 2 ^ 64 := by decide
  have hle := h.returns_le
  apply h.change_returns _ (h.returns.set (by omega) v)
  · simpa using hle
  · intro x hx
    simp only [List.length_append, List.length_cons] at hle
    exact writeWord_cell (by omega) hbytes hx v

theorem dropReturns {above : List Word} (h : Image L m stack (above ++ cells) data) :
    Image L m stack cells data := by
  apply h.change_returns (fun _ _ => rfl) h.returns.of_append
  have := h.returns_le
  rw [List.length_append] at this
  omega

/-- Whatever memory holds above the return stack can be taken for cells of it. -/
theorem exists_reserved (h : Image L m stack cells data) {n : Nat}
    (hroom : 8 * (n + cells.length) ≤ returnStackSize) :
    ∃ above, above.length = n ∧ Image L m stack (above ++ cells) data := by
  obtain ⟨above, hlength, habove⟩ := h.returns.exists_above n
  refine ⟨above, hlength, h.change_returns (fun _ _ => rfl) habove ?_⟩
  rw [List.length_append, hlength]
  exact hroom

theorem readWord_eq (h : Image L m stack cells data) {a : Word} (ha : L.env.wordAt a = true) :
    m.readWord a = data.readWord a := by
  apply Store.readWord_congr
  intro x hx
  exact h.data x (data_of_wordAt ha hx)

theorem writeData (h : Image L m stack cells data) {a : Word} (ha : L.env.wordAt a = true)
    (v : Word) : Image L (m.writeWord a v) stack cells (data.writeWord a v) := by
  apply h.change_data
  · intro x hx
    apply Store.writeWord_apply
    intro hx'
    have : L.data x = true := data_of_wordAt ha hx'
    simp [hx] at this
  · intro x hx
    simp only [Store.writeWord, h.data x hx]

theorem writeByte (h : Image L m stack cells data) {a : Word} (ha : L.data a = true) (v : Byte) :
    Image L (m.writeByte a v) stack cells (data.writeByte a v) := by
  apply h.change_data
  · intro x hx
    have hne : x ≠ a := by
      rintro rfl
      simp [hx] at ha
    rw [Store.writeByte, if_neg hne]
  · intro x hx
    simp only [Store.writeByte, h.data x hx]

theorem replace (h : Image L m stack cells data) (other : Store) :
    Image L (m.replace L.data other) stack cells (data.replace L.data other) := by
  apply h.change_data
  · intro x hx
    simp [Store.replace, hx]
  · intro x hx
    simp [Store.replace, hx]

end Image

theorem toBitVec_cellBytes (n : Nat) : (cellBytes n).toBitVec = BitVec.ofNat 64 (8 * n) := by
  unfold cellBytes
  rw [UInt64.toBitVec_mul, BitVec.ofNat_mul]
  rfl

theorem ofInt_cellBytes (n : Nat) :
    BitVec.ofInt 64 ((cellBytes n).toNat : Int) = BitVec.ofNat 64 (8 * n) := by
  rw [← toBitVec_cellBytes, BitVec.ofInt_natCast, ← UInt64.toNat_toBitVec, BitVec.ofNat_toNat,
    BitVec.setWidth_eq]

/--
The state of the processor between operations: the stack pointer is at the operands, and the base
pointer at the cells of the return stack.
-/
structure Holds (L : Layout text) (s : Core) (stack cells : List Word) (data : Store) : Prop where
  image : Image L s.memory stack cells data
  rsp : s.regs .rsp = cellAddr L.operandEnd stack.length
  rbp : s.regs .rbp = cellAddr (L.label .returnStackEnd) cells.length

theorem Core.regs_set (s : Core) (r r' : Reg) (v : Word) :
    (s.set r v).regs r' = if r' = r then v else s.regs r' := rfl

def isPointer : Reg → Bool
  | .rsp | .rbp => true
  | _ => false

theorem ne_of_isPointer {r : Reg} (h : isPointer r = false) : Reg.rsp ≠ r ∧ Reg.rbp ≠ r := by
  constructor
  · rintro rfl
    simp [isPointer] at h
  · rintro rfl
    simp [isPointer] at h

theorem Core.regs_pop_of_ne {s : Core} {r r' : Reg} (hr : r' ≠ r) (hr' : isPointer r' = false) :
    (s.pop r).regs r' = s.regs r' := by
  rw [pop, regs_set, if_neg hr, regs_set, if_neg (ne_of_isPointer hr').1.symm]

namespace Holds

variable {s : Core} {data : Store} {stack above cells : List Word} {r : Reg} {v : Word}

theorem set (h : Holds L s stack cells data) (hr : isPointer r = false) (v : Word) :
    Holds L (s.set r v) stack cells data where
  image := h.image
  rsp := by rw [Core.regs_set, if_neg (ne_of_isPointer hr).1, h.rsp]
  rbp := by rw [Core.regs_set, if_neg (ne_of_isPointer hr).2, h.rbp]

theorem setFlags (h : Holds L s stack cells data) (flags : Option Flags) :
    Holds L { s with flags } stack cells data :=
  ⟨h.image, h.rsp, h.rbp⟩

theorem binary (h : Holds L s stack cells data) (hr : isPointer r = false) (op : Binary)
    (v : Word) : Holds L (s.binary op r v) stack cells data := by
  unfold Core.binary
  apply setFlags
  split
  · exact h.set hr _
  · exact h

theorem readWord_rsp (h : Holds L s (v :: stack) cells data) :
    s.memory.readWord (s.regs .rsp) = v := by
  rw [h.rsp]
  exact h.image.operands.1

theorem rsp_drop (h : Holds L s (v :: stack) cells data) :
    s.regs .rsp + 8 = cellAddr L.operandEnd stack.length := by
  rw [h.rsp, ← cellAddr_add _ stack.length 1]
  rfl

theorem pop (h : Holds L s (v :: stack) cells data) (hr : isPointer r = false) :
    Holds L (s.pop r) stack cells data where
  image := Image.drop (show Image L s.memory ([v] ++ stack) cells data from h.image)
  rsp := by
    rw [Core.pop, Core.regs_set, if_neg (ne_of_isPointer hr).1, Core.regs_set, if_pos rfl,
      h.rsp_drop]
  rbp := by
    rw [Core.pop, Core.regs_set, if_neg (ne_of_isPointer hr).2, Core.regs_set, if_neg (by simp),
      h.rbp]

theorem regs_pop (h : Holds L s (v :: stack) cells data) : (s.pop r).regs r = v := by
  rw [Core.pop, Core.regs_set, if_pos rfl, h.readWord_rsp]

theorem push (h : Holds L s stack cells data) (hroom : 8 * (stack.length + 1) ≤ L.operandBytes)
    {v w : Word} (hw : w = v) : Holds L (s.push w) (v :: stack) cells data where
  image := by
    simp only [Core.push, h.rsp, ← cellAddr_succ, hw]
    exact h.image.push hroom v
  rsp := by
    simp only [Core.push, Core.regs_set, if_true, h.rsp, ← cellAddr_succ, List.length_cons]
  rbp := by
    simp only [Core.push, Core.regs_set, reduceCtorEq, if_false, h.rbp]

theorem address_slot (h : Holds L s stack (above ++ v :: cells) data) :
    s.address (.offset .rbp (cellBytes above.length)) =
      cellAddr (L.label .returnStackEnd) (cells.length + 1) := by
  rw [Core.address, h.rbp, toBitVec_cellBytes, List.length_append, List.length_cons,
    Nat.add_comm above.length, cellAddr_add]

theorem readWord_slot (h : Holds L s stack (above ++ v :: cells) data) :
    s.memory.readWord (s.address (.offset .rbp (cellBytes above.length))) = v := by
  rw [h.address_slot]
  exact h.image.returns.readWord_eq

theorem writeWord_slot (h : Holds L s stack (above ++ v :: cells) data) (w : Word) :
    Holds L { s with
      memory := s.memory.writeWord (s.address (.offset .rbp (cellBytes above.length))) w }
      stack (above ++ w :: cells) data where
  image := by
    rw [h.address_slot]
    exact h.image.setReturn w
  rsp := h.rsp
  rbp := by
    rw [h.rbp, List.length_append, List.length_append]
    rfl

theorem reserve (h : Holds L s stack cells data) {n : Nat}
    (hroom : 8 * (n + cells.length) ≤ returnStackSize) :
    ∃ above, above.length = n ∧
      Holds L (s.binary .sub .rbp (BitVec.ofNat 64 (8 * n))) stack (above ++ cells) data := by
  obtain ⟨above, hlength, himage⟩ := h.image.exists_reserved hroom
  refine ⟨above, hlength, himage, h.rsp, ?_⟩
  have hrbp : (s.binary .sub .rbp (BitVec.ofNat 64 (8 * n))).regs .rbp =
      s.regs .rbp - BitVec.ofNat 64 (8 * n) := rfl
  rw [hrbp, h.rbp, List.length_append, hlength, ← cellAddr_add _ cells.length n,
    BitVec.add_sub_cancel, Nat.add_comm]

theorem release (h : Holds L s stack (above ++ cells) data) :
    Holds L (s.binary .add .rbp (BitVec.ofNat 64 (8 * above.length))) stack cells data where
  image := h.image.dropReturns
  rsp := h.rsp
  rbp := by
    have hrbp : (s.binary .add .rbp (BitVec.ofNat 64 (8 * above.length))).regs .rbp =
        s.regs .rbp + BitVec.ofNat 64 (8 * above.length) := rfl
    rw [hrbp, h.rbp, List.length_append, Nat.add_comm, cellAddr_add]

end Holds

end StackLang.Processor
