import StackLang.Proofs.Simulation

/-!
This module contains where binding slots are in memory. The base pointer moves whenever slots are
filled or freed, but from any point of a function the slot of a binding is found at one address.
-/

namespace StackLang

open Assembly

namespace Processor

variable {text : List Line} {L : Layout text} {q : Program}

/-- The address of the slot of the binding `k`, if `rbp` is `base` where no slot is filled. -/
def home (base : Word) (k : Nat) : Word := cellAddr base (k + 1)

theorem home_ne_base {base : Word} {k : Nat} (hk : 8 * (k + 1) < 2 ^ 64) : home base k ≠ base := by
  unfold home cellAddr
  bv_omega

theorem home_ne_home {base : Word} {k k' : Nat} (hlt : k < k') (hk : 8 * (k' + 1) < 2 ^ 64) :
    home base k ≠ home base k' := by
  unfold home cellAddr
  bv_omega

/--
What instructions do to the registers and to memory one after another, calls and returns apart. A
jump does nothing to them, and a system call may have any reply.
-/
inductive Carries (L : Layout text) : Core → List Instr → Core → Prop
  | nil {s} : Carries L s [] s
  | plain {s s' s'' i rest} (hplain : plain L s i = .ok s') (hrest : Carries L s' rest s'') :
    Carries L s (i :: rest) s''
  | jmp {s s' target rest} (hrest : Carries L s rest s') : Carries L s (.jmp target :: rest) s'
  | jz {s s' target rest} (hrest : Carries L s rest s') : Carries L s (.jz target :: rest) s'
  | syscall {s' rest} (s : State) (reply : Reply)
    (hrest : Carries L (s.resume L reply).toCore rest s') : Carries L s.toCore (.syscall :: rest) s'

/--
The ways through a function: from the registers and memory `s₀` after its first lines, control can
get to the instruction at `ip` with `s`. A branch may go either way, and a call is a way through the
function called, up to its end.
-/
inductive Passage (q : Program) (L : Layout text) : Function → Core → Nat → Core → Prop
  | start {g s} : Passage q L g s 0 s
  | edge {g s₀ s s' ip ip' i instrs} (hway : Passage q L g s₀ ip s) (hi : g.code[ip]? = some i)
    (hlocal : ∀ entry, i.op ≠ .call entry) (hlower : lowerOp q (slotsAt 0 g.code ip) i = .ok instrs)
    (hcarries : Carries L s instrs s') (hedge : Edge g.code ip ip') : Passage q L g s₀ ip' s'
  | call {g callee s₀ s s₁ s₂ s₃ s₄ s₅ ip i entry} {address : Word}
    (hway : Passage q L g s₀ ip s) (hi : g.code[ip]? = some i) (hop : i.op = .call entry)
    (hcallee : q.functions[entry]? = some callee)
    (hleave : straight L s toReturnStack = .ok s₁)
    (henter : straight L (s₁.push address) toOperandStack = .ok s₂)
    (hthrough : Passage q L callee s₂ callee.code.length s₃)
    (hreturn : straight L s₃ toReturnStack = .ok s₄)
    (hback : straight L (s₄.set .rsp (s₄.regs .rsp + 8)) toOperandStack = .ok s₅) :
    Passage q L g s₀ (ip + 1) s₅

theorem carries_of_straight {s s' : Core} {instrs : List Instr}
    (h : straight L s instrs = .ok s') : Carries L s instrs s' := by
  induction instrs generalizing s with
  | nil =>
    simp only [straight, Except.ok.injEq] at h
    rw [h]
    exact .nil
  | cons i instrs ih =>
    simp only [straight] at h
    split at h
    · simp at h
    · next hplain => exact .plain hplain (ih h)

def keepsBase : Instr → Bool
  | .mov dst _ | .load dst _ | .loadByte dst _ | .pop dst | .cmov _ dst _ => dst ≠ .rbp
  | .binary _ dst _ => dst ≠ .rbp
  | _ => true

theorem rbp_set {s : Core} {r : Reg} (hr : r ≠ .rbp) (v : Word) :
    (s.set r v).regs .rbp = s.regs .rbp := by
  rw [Core.regs_set, if_neg hr.symm]

theorem rbp_of_plain {s s' : Core} {i : Instr} (hi : keepsBase i = true)
    (h : plain L s i = .ok s') : s'.regs .rbp = s.regs .rbp := by
  cases i with
  | mov dst src | load dst src | loadByte dst src =>
    simp only [plain, Except.ok.injEq] at h
    rw [← h]
    exact rbp_set (by simpa [keepsBase] using hi) _
  | store dst src | storeByte dst src =>
    simp only [plain, Except.ok.injEq] at h
    rw [← h]
  | push src | pushFrom src =>
    simp only [plain, Except.ok.injEq] at h
    rw [← h]
    rfl
  | pop dst =>
    simp only [plain, Except.ok.injEq] at h
    rw [← h, Core.pop, rbp_set (by simpa [keepsBase] using hi), rbp_set (by decide)]
  | binary op dst src =>
    simp only [plain, Core.binary, Except.ok.injEq] at h
    rw [← h]
    simp only
    split
    · exact rbp_set (by simpa [keepsBase] using hi) _
    · rfl
  | cqo =>
    simp only [plain, Except.ok.injEq] at h
    rw [← h]
    exact rbp_set (by decide) _
  | idiv divisor =>
    simp only [plain] at h
    split at h
    · simp at h
    · rw [← Except.ok.inj h]
      simp only
      rw [rbp_set (by decide), rbp_set (by decide)]
  | cmov condition dst src =>
    simp only [plain] at h
    split at h
    · simp at h
    · rw [← Except.ok.inj h]
      split
      · exact rbp_set (by simpa [keepsBase] using hi) _
      · rfl
  | jz _ | jmp _ | call _ | ret | syscall => simp [plain] at h

theorem rbp_of_carries {s s' : Core} {instrs : List Instr} (h : Carries L s instrs s')
    (hkeeps : ∀ i ∈ instrs, keepsBase i = true) : s'.regs .rbp = s.regs .rbp := by
  induction h with
  | nil => rfl
  | plain hplain _ ih =>
    rw [List.forall_mem_cons] at hkeeps
    rw [ih hkeeps.2, rbp_of_plain hkeeps.1 hplain]
  | jmp _ ih | jz _ ih =>
    rw [List.forall_mem_cons] at hkeeps
    exact ih hkeeps.2
  | syscall s reply _ ih =>
    rw [List.forall_mem_cons] at hkeeps
    rw [ih hkeeps.2]
    rfl

theorem keepsBase_lowerPrim (prim : Prim) : ∀ i ∈ lowerPrim prim, keepsBase i = true := by
  cases prim <;> decide

theorem keepsBase_syscall (arity : Nat) :
    ∀ i ∈ [Instr.pop .rax] ++ (syscallRegs.take arity).map Instr.pop ++
      [Instr.syscall, Instr.push (.reg .rax)], keepsBase i = true := by
  have hpops : ∀ i ∈ syscallRegs.map Instr.pop, keepsBase i = true := by decide
  intro i hi
  simp only [List.mem_append, List.mem_cons, List.not_mem_nil, or_false] at hi
  rcases hi with (rfl | hi) | rfl | rfl
  · rfl
  · exact hpops i (List.map_subset _ (List.take_subset _ _) hi)
  · rfl
  · rfl

def fillSlot (slot : Nat) : List Instr := [.pop .rax, .store (.offset .rbp (cellBytes slot)) .rax]

theorem keepsBase_fill (slots : List Nat) : ∀ i ∈ slots.flatMap fillSlot, keepsBase i = true := by
  intro i hi
  obtain ⟨slot, -, hi⟩ := List.mem_flatMap.mp hi
  simp only [fillSlot, List.mem_cons, List.not_mem_nil, or_false] at hi
  rcases hi with rfl | rfl <;> rfl

theorem rbp_reserve {s : Core} {base : Word} {bound : Nat} (hs : s.regs .rbp = cellAddr base bound)
    (count : Nat) :
    (s.binary .sub .rbp (BitVec.ofNat 64 (8 * count))).regs .rbp =
      cellAddr base (bound + count) := by
  have hsub : (s.binary .sub .rbp (BitVec.ofNat 64 (8 * count))).regs .rbp =
      s.regs .rbp - BitVec.ofNat 64 (8 * count) := rfl
  rw [hsub, hs, ← cellAddr_add base bound count, BitVec.add_sub_cancel]

theorem rbp_release {s : Core} {base : Word} {bound count : Nat}
    (hs : s.regs .rbp = cellAddr base bound) (hcount : count ≤ bound) :
    (s.binary .add .rbp (BitVec.ofNat 64 (8 * count))).regs .rbp =
      cellAddr base (bound - count) := by
  have hadd : (s.binary .add .rbp (BitVec.ofNat 64 (8 * count))).regs .rbp =
      s.regs .rbp + BitVec.ofNat 64 (8 * count) := rfl
  rw [hadd, hs, ← cellAddr_add base (bound - count) count, Nat.sub_add_cancel hcount]

theorem rbp_of_lowerOp {i : Instruction} {instrs : List Instr} {bound : Nat} {s s' : Core}
    {base : Word} (hlower : lowerOp q bound i = .ok instrs)
    (hlocal : ∀ entry, i.op ≠ .call entry)
    (hunbind : ∀ count, i.op = .unbind count → count ≤ bound)
    (hcarries : Carries L s instrs s') (hs : s.regs .rbp = cellAddr base bound) :
    s'.regs .rbp = cellAddr base (boundAfter bound i.op) := by
  have hkept : (∀ j ∈ instrs, keepsBase j = true) → s'.regs .rbp = cellAddr base bound := by
    intro hkeeps
    rw [rbp_of_carries hcarries hkeeps, hs]
  unfold lowerOp at hlower
  cases hop : i.op with
  | bind count =>
    simp only [hop, Except.ok.injEq] at hlower
    subst hlower
    cases hcarries with
    | plain hplain hrest =>
      simp only [plain, value, Except.ok.injEq] at hplain
      rw [rbp_of_carries hrest (keepsBase_fill _), ← hplain, ofInt_cellBytes]
      exact rbp_reserve hs count
  | unbind count =>
    simp only [hop, Except.ok.injEq] at hlower
    subst hlower
    cases hcarries with
    | plain hplain hrest =>
      cases hrest
      simp only [plain, value, Except.ok.injEq] at hplain
      rw [← hplain, ofInt_cellBytes]
      exact rbp_release hs (hunbind count hop)
  | call entry => exact absurd hop (hlocal entry)
  | word name => simp [hop] at hlower
  | prim p =>
    simp only [hop, Except.ok.injEq] at hlower
    subst hlower
    exact hkept (keepsBase_lowerPrim p)
  | syscall arity =>
    simp only [hop] at hlower
    split at hlower
    · rw [← Except.ok.inj hlower] at hkept
      exact hkept (keepsBase_syscall arity.toNat)
    · simp at hlower
  | pushBind slot =>
    simp only [hop] at hlower
    split at hlower
    · rw [← Except.ok.inj hlower] at hkept
      exact hkept (by simp [keepsBase])
    · simp at hlower
  | _ =>
    simp only [hop, Except.ok.injEq] at hlower
    subst hlower
    exact hkept (by simp [keepsBase])

end Processor

theorem Function.Checked.exists_of_read {functions : List Function} {f g : Function}
    (h : Checked functions f g) {ip : Nat} {i : Instruction} (hi : f.code[ip]? = some i)
    (hword : ∀ name, i.op ≠ .word name) : ∃ j, g.code[ip]? = some j ∧ j.op = i.op := by
  have hlt : ip < g.code.length := by
    rw [h.length_code]
    exact (List.getElem?_eq_some_iff.mp hi).1
  obtain ⟨i', _, _, hi', -, -, hresolve, -⟩ := h.instruction (List.getElem?_eq_getElem hlt)
  rw [hi, Option.some.injEq] at hi'
  subst hi'
  refine ⟨_, List.getElem?_eq_getElem hlt, ?_⟩
  rcases Walk.resolve_eq_ok hresolve with ⟨heq, -⟩ | ⟨name, _, _, heq, -⟩
  · exact heq
  · exact absurd heq (hword name)

namespace Accepted

variable {p q : Program} {n ip : Nat} {g : Function}

theorem slotsAt_of_edge (h : Accepted p q) (hg : q.functions[n]? = some g) {ip' : Nat}
    {i : Instruction} (hi : g.code[ip]? = some i) (hedge : Edge g.code ip ip') :
    slotsAt 0 g.code ip' = boundAfter (slotsAt 0 g.code ip) i.op := by
  obtain ⟨f, hf, hchecked⟩ := h.validated.exists_checked hg
  have hread := (h.read n f hf).code
  have hle : ip' ≤ g.code.length := by
    cases hedge with
    | next hj => exact (List.getElem?_eq_some_iff.mp hj).1
    | target hj ht => exact Nat.le_of_lt (hchecked.target hread hj ht).1
  obtain ⟨j, w, w', hj, hw, hw', heffect⟩ := hchecked.effect_of_edge hread hedge
  have hlt := (List.getElem?_eq_some_iff.mp hi).1
  rw [hi, Option.some.injEq] at hj
  subst hj
  rw [hchecked.slotsAt_eq hle hw', hchecked.slotsAt_eq (Nat.le_of_lt hlt) hw]
  exact Op.bound_of_effect heffect

theorem slotsAt_end (h : Accepted p q) (hg : q.functions[n]? = some g) :
    slotsAt 0 g.code g.code.length = 0 := by
  obtain ⟨f, hf, hchecked⟩ := h.validated.exists_checked hg
  have hreadable := readable_of_wellRead h.read h.words f (List.mem_of_getElem? hf)
  obtain ⟨w, hw⟩ := hchecked.stateAt_of_le (Nat.le_refl _)
  rw [hchecked.slotsAt_eq (Nat.le_refl _) hw]
  exact hchecked.bound_of_end hreadable hw

theorem unbind_le_slotsAt (h : Accepted p q) (hg : q.functions[n]? = some g) {i : Instruction}
    (hi : g.code[ip]? = some i) {count : Nat} (hop : i.op = .unbind count) :
    count ≤ slotsAt 0 g.code ip := by
  obtain ⟨f, hf, hchecked⟩ := h.validated.exists_checked hg
  have hle := Nat.le_of_lt (List.getElem?_eq_some_iff.mp hi).1
  obtain ⟨w, hw⟩ := hchecked.stateAt_of_le hle
  obtain ⟨w', hsite⟩ := h.site hf hg hi hw
  rw [hchecked.slotsAt_eq hle hw]
  exact hsite.unbind count hop

end Accepted

namespace Processor

variable {text : List Line} {L : Layout text} {p q : Program}

theorem Passage.rbp (haccepted : Accepted p q) {n : Nat} {g : Function}
    (hg : q.functions[n]? = some g) {s₀ s : Core} {ip : Nat} (h : Passage q L g s₀ ip s) :
    s.regs .rbp = cellAddr (s₀.regs .rbp) (slotsAt 0 g.code ip) := by
  induction h generalizing n with
  | start => exact (cellAddr_zero _).symm
  | edge hway hi hlocal hlower hcarries hedge ih =>
    rw [haccepted.slotsAt_of_edge hg hi hedge]
    apply rbp_of_lowerOp hlower hlocal _ hcarries (ih hg)
    intro count hop
    exact haccepted.unbind_le_slotsAt hg hi hop
  | @call g callee s₀ s s₁ s₂ s₃ s₄ s₅ ip i entry address hway hi hop hcallee hleave henter
      hthrough hreturn hback ih ihcallee =>
    have hbody := ihcallee hcallee
    rw [haccepted.slotsAt_end hcallee, cellAddr_zero] at hbody
    have h₁ : s₁.regs .rsp = s.regs .rbp := by
      rw [← Except.ok.inj hleave]
      rfl
    have h₂ : s₂.regs .rbp = s₁.regs .rsp - 8 := by
      rw [← Except.ok.inj henter]
      rfl
    have h₄ : s₄.regs .rsp = s₃.regs .rbp := by
      rw [← Except.ok.inj hreturn]
      rfl
    have h₅ : s₅.regs .rbp = s₄.regs .rsp + 8 := by
      rw [← Except.ok.inj hback]
      rfl
    have hstay : slotsAt 0 g.code (ip + 1) = slotsAt 0 g.code ip := by
      rw [slotsAt_succ hi, hop]
      rfl
    rw [hstay, ← ih hg, h₅, h₄, hbody, h₂, h₁, BitVec.sub_add_cancel]

theorem address_pushBind {s : Core} {base : Word} {bound k : Nat} (hk : k < bound)
    (hs : s.regs .rbp = cellAddr base bound) :
    s.address (.offset .rbp (cellBytes (bound - k - 1))) = home base k := by
  have hsplit : bound = k + 1 + (bound - k - 1) := by omega
  rw [Core.address, toBitVec_cellBytes, hs]
  nth_rewrite 1 [hsplit]
  exact cellAddr_add base (k + 1) (bound - k - 1)

theorem straight_fillSlots (L : Layout text) (s : Core) (slots : List Nat) :
    ∃ s', straight L s (slots.flatMap fillSlot) = .ok s' ∧ s'.regs .rbp = s.regs .rbp ∧
      s'.regs .rsp = s.regs .rsp + BitVec.ofNat 64 (8 * slots.length) := by
  induction slots generalizing s with
  | nil => exact ⟨s, rfl, rfl, (BitVec.add_zero _).symm⟩
  | cons slot slots ih =>
    obtain ⟨s', hs', hrbp, hrsp⟩ := ih { s.pop .rax with
      memory := s.memory.writeWord ((s.pop .rax).address (.offset .rbp (cellBytes slot)))
        ((s.pop .rax).regs .rax) }
    refine ⟨s', hs', hrbp, ?_⟩
    have hpop : (s.pop .rax).regs .rsp = s.regs .rsp + 8 := rfl
    simp only [hrsp, hpop, List.length_cons]
    bv_omega

theorem Passage.bind {g : Function} {s₀ s : Core} {ip count : Nat} {i : Instruction}
    (h : Passage q L g s₀ ip s) (hi : g.code[ip]? = some i) (hop : i.op = .bind count) :
    ∃ s', Passage q L g s₀ (ip + 1) s' := by
  obtain ⟨s', hs', -⟩ := straight_fillSlots L
    (s.binary .sub .rbp (BitVec.ofInt 64 (cellBytes count).toNat)) (List.range count)
  have hlower : lowerOp q (slotsAt 0 g.code ip) i = .ok (lowerBind count) := by
    simp only [lowerOp, hop]
  refine ⟨s', h.edge hi (by simp [hop]) hlower ?_ ?_⟩
  · exact .plain rfl (carries_of_straight hs')
  · exact .next hi (by simp [hop]) (by simp [hop])

theorem exists_store_bind (L : Layout text) {s : Core} {base : Word} {bound count k : Nat}
    (hbound : bound ≤ k) (hk : k < bound + count) (hs : s.regs .rbp = cellAddr base bound) :
    ∃ before a after s', lowerBind count = before ++ Instr.store a .rax :: after ∧
      straight L s before = .ok s' ∧ s'.address a = home base k ∧
      s'.regs .rax =
        s'.memory.readWord (s.regs .rsp + BitVec.ofNat 64 (8 * (bound + count - 1 - k))) := by
  obtain ⟨j, hj⟩ : ∃ j, bound + count = k + 1 + j := ⟨bound + count - (k + 1), by omega⟩
  obtain ⟨m, hm⟩ : ∃ m, count = j + (m + 1) := ⟨count - j - 1, by omega⟩
  have hrange : List.range count = List.range j ++ j :: List.range' (j + 1) m := by
    rw [hm, List.range_eq_range', List.range_eq_range', ← List.range'_append_1, Nat.zero_add,
      List.range'_succ]
  let s₁ := s.binary .sub .rbp (BitVec.ofNat 64 (8 * count))
  obtain ⟨s₂, hs₂, hrbp, hrsp⟩ := straight_fillSlots L s₁ (List.range j)
  have hrbp₁ : s₁.regs .rbp = cellAddr base (k + 1 + j) := by
    rw [← hj]
    exact rbp_reserve hs count
  refine ⟨.binary .sub .rbp (.imm (cellBytes count).toNat) ::
      ((List.range j).flatMap fillSlot ++ [.pop .rax]), .offset .rbp (cellBytes j),
    (List.range' (j + 1) m).flatMap fillSlot, s₂.pop .rax, ?_, ?_, ?_, ?_⟩
  · have hbind : lowerBind count = .binary .sub .rbp (.imm (cellBytes count).toNat) ::
        (List.range count).flatMap fillSlot := rfl
    rw [hbind, hrange, List.flatMap_append, List.flatMap_cons]
    simp [fillSlot]
  · have hfirst : plain L s (.binary .sub .rbp (.imm (cellBytes count).toNat)) = .ok s₁ := by
      simp only [plain, value, ofInt_cellBytes, s₁]
    rw [straight, hfirst]
    simp only
    rw [straight_append hs₂]
    rfl
  · have hpop : (s₂.pop .rax).regs .rbp = s₂.regs .rbp := rfl
    rw [Core.address, toBitVec_cellBytes, hpop, hrbp, hrbp₁, cellAddr_add]
    rfl
  · have hpop : (s₂.pop .rax).regs .rax = s₂.memory.readWord (s₂.regs .rsp) := rfl
    have hsame : s₁.regs .rsp = s.regs .rsp := rfl
    have hdepth : bound + count - 1 - k = j := by omega
    rw [hpop, hrsp, hsame, hdepth, List.length_range]
    rfl

structure Framed (q : Program) (L : Layout text) (g : Function) (base : Word) (ip : Nat)
    (s : Core) : Prop where
  rbp : s.regs .rbp = cellAddr base (slotsAt 0 g.code ip)
  restored : ip = g.code.length → s.regs .rbp = base
  reads : ∀ i k, g.code[ip]? = some i → i.op = .pushBind k →
    ∃ a, lowerOp q (slotsAt 0 g.code ip) i = .ok [.pushFrom a] ∧ s.address a = home base k
  /-- The last of the new bindings takes the top operand. -/
  fills : ∀ i count k, g.code[ip]? = some i → i.op = .bind count → slotsAt 0 g.code ip ≤ k →
    k < slotsAt 0 g.code ip + count →
    ∃ before a after s',
      lowerOp q (slotsAt 0 g.code ip) i = .ok (before ++ Instr.store a .rax :: after) ∧
      straight L s before = .ok s' ∧ s'.address a = home base k ∧
      s'.regs .rax = s'.memory.readWord
        (s.regs .rsp + BitVec.ofNat 64 (8 * (slotsAt 0 g.code ip + count - 1 - k)))

theorem framed_of_rbp (haccepted : Accepted p q) {n : Nat} {g : Function}
    (hg : q.functions[n]? = some g) {base : Word} {ip : Nat} {s : Core}
    (hs : s.regs .rbp = cellAddr base (slotsAt 0 g.code ip)) : Framed q L g base ip s where
  rbp := hs
  restored hip := by rw [hs, hip, haccepted.slotsAt_end hg, cellAddr_zero]
  reads i k hi hop := by
    have hk := (lowerable_of_accepted haccepted).slots g (List.mem_of_getElem? hg) ip i k hi hop
    refine ⟨_, ?_, address_pushBind hk hs⟩
    simp only [lowerOp, hop, if_pos hk]
  fills i count k hi hop hbound hk := by
    obtain ⟨before, a, after, s', hbind, hstore⟩ := exists_store_bind L hbound hk hs
    refine ⟨before, a, after, s', ?_, hstore⟩
    simp only [lowerOp, hop, hbind]

open Machine

def frameBase (q : Program) (L : Layout text) (callers : List Activation) : Word :=
  cellAddr (L.label .returnStackEnd) ((returnCells q L callers).length + 1)

section

variable {c : Config} {s : State} {a : Activation} {callers : List Activation}
  (hrep : Represents q L c s) (hc : c.frames = a :: callers)
include hrep hc

theorem Represents.holds : Holds L s.toCore c.stack (returnCells q L (a :: callers)) c.memory := by
  unfold Represents at hrep
  rw [hc] at hrep
  exact hrep.1

theorem Represents.rbp : s.regs .rbp = cellAddr (frameBase q L callers) a.slots.length := by
  rw [(hrep.holds hc).rbp, frameBase, cellAddr_cellAddr]
  congr 1
  simp only [returnCells, List.length_append, List.length_reverse, List.length_cons]
  omega

theorem Represents.readWord_base :
    s.memory.readWord (frameBase q L callers) = L.code (returnLine q text callers) :=
  (hrep.holds hc).image.returns.readWord_eq

theorem Represents.readWord_home {k : Nat} {v : Word} (hv : a.slots[k]? = some v) :
    s.memory.readWord (home (frameBase q L callers) k) = v := by
  have hreturns := (hrep.holds hc).image.returns
  rw [returnCells, reverse_append_of_getElem? hv] at hreturns
  have hread := hreturns.readWord_eq
  have hk : k ≤ a.slots.length := Nat.le_of_lt (List.getElem?_eq_some_iff.mp hv).1
  rw [home, frameBase, cellAddr_cellAddr, ← hread]
  congr 2
  simp only [List.length_append, List.length_reverse, List.length_cons, List.length_take]
  omega

end

end Processor

open Processor in
/--
The slot of a binding is at one address throughout an activation, and the base pointer is back where
it was at the end. On every way through a function, whichever branches it takes and whatever it
calls, the base pointer is below its base by the slots that the walk has filled there. So it is in
every state of a processor that runs the program, where memory holds the return address at the base
and each slot at its home.
-/
theorem binding_slots_have_fixed_homes {loader : Loader} {entry : String} {options : Options}
    {p q : Program} {warnings : List Diagnostic} (hparse : parse loader entry options = .ok p)
    (hvalid : p.validate = (q, .ok warnings)) :
    (∀ base k k', k < k' → 8 * (k' + 1) < 2 ^ 64 →
      home base k ≠ home base k' ∧ home base k ≠ base ∧ home base k' ≠ base) ∧
    ∃ main assembly, q.main? = some main ∧ q.generate .x86Linux = .ok assembly ∧
      ∀ L : Layout assembly.text,
        (∀ n f g, p.functions[n]? = some f → q.functions[n]? = some g →
          (∀ ip, ip ≤ g.code.length →
            ∃ w, f.stateAt p.functions ip = some w ∧ slotsAt 0 g.code ip = w.bound) ∧
          (∀ ip i, g.called = true → g.code[ip]? = some i →
            ∃ instrs, lowerOp q (slotsAt 0 g.code ip) i = .ok instrs ∧
              Stands assembly.text (lineOf q assembly.text n ip)
                (.label (.ip ip) (some i.op.name) :: instrs.map Line.instr)) ∧
          ∀ s₀ ip s, Passage q L g s₀ ip s → Framed q L g (s₀.regs .rbp) ip s) ∧
        ∀ memory trace c s a callers,
          Run (Machine.step q L.env) (fun _ => True) (.initial main.entry memory) trace c →
          Represents q L c s → c.frames = a :: callers →
          ∃ g, q.functions[a.entry]? = some g ∧
            Framed q L g (frameBase q L callers) a.ip s.toCore ∧
            a.slots.length = slotsAt 0 g.code a.ip ∧
            s.memory.readWord (frameBase q L callers) =
              L.code (returnLine q assembly.text callers) ∧
            ∀ k v, a.slots[k]? = some v →
              s.memory.readWord (home (frameBase q L callers) k) = v := by
  have haccepted := accepted_of_parse hparse hvalid
  obtain ⟨main, hmain, -, -⟩ := haccepted.validated.main
  obtain ⟨assembly, hlower⟩ := (lowerable_of_accepted haccepted).exists_lower
  refine ⟨?_, main, assembly, hmain, hlower, ?_⟩
  · intro base k k' hlt hk'
    exact ⟨home_ne_home hlt hk', home_ne_base (by omega), home_ne_base hk'⟩
  intro L
  constructor
  · intro n f g hf hg
    have hchecked := haccepted.validated.checked_of_getElem? hf hg
    refine ⟨?_, ?_, ?_⟩
    · intro ip hip
      obtain ⟨w, hw⟩ := hchecked.stateAt_of_le hip
      exact ⟨w, hw, hchecked.slotsAt_eq hip hw⟩
    · intro ip i hcalled hi
      obtain ⟨start, body, hplaced⟩ :=
        exists_placed_of_marked haccepted hlower ⟨g, hg, hcalled⟩ hg
      obtain ⟨instrs, hinstrs, hlines, -⟩ := hplaced.instruction hi
      exact ⟨instrs, hinstrs, hlines⟩
    · intro s₀ ip s hway
      exact framed_of_rbp haccepted hg (hway.rbp haccepted hg)
  · intro memory trace c s a callers hrun hrep hc
    have hsound := (Machine.Sound.initial haccepted hmain memory).run haccepted hrun
    obtain ⟨f, g, w, -, hf, hg, hw, hip, -, -, hslots, -⟩ := hsound.exists hc
    have hchecked := haccepted.validated.checked_of_getElem? hf hg
    rw [← hchecked.slotsAt_eq hip hw] at hslots
    refine ⟨g, hg, ?_, hslots, hrep.readWord_base hc, fun k v hv => hrep.readWord_home hc hv⟩
    apply framed_of_rbp haccepted hg
    rw [← hslots]
    exact hrep.rbp hc

open Processor in
theorem binding_slots_have_fixed_homes_collatz : ∃ p q warnings main assembly g,
    parse collatz.loader "main" { library := false } = .ok p ∧ p.validate = (q, .ok warnings) ∧
      q.main? = some main ∧ q.generate .x86Linux = .ok assembly ∧ q.functions[0]? = some g ∧
      ∀ L : Layout assembly.text,
        (∀ s₀, ∃ s, Passage q L g s₀ 1 s ∧ Framed q L g (s₀.regs .rbp) 1 s ∧
          s.regs .rbp = cellAddr (s₀.regs .rbp) 1) ∧
        ∀ memory, ∃ s, Represents q L (.initial main.entry memory) s ∧
          s.regs .rbp = frameBase q L [] ∧
          s.memory.readWord (frameBase q L []) = L.code (returnLine q assembly.text []) := by
  obtain ⟨p, q, warnings, f, g, hparse, hvalid, hf, hg⟩ := exists_collatz
  obtain ⟨-, main, assembly, hmain, hgenerate, hhomes⟩ :=
    binding_slots_have_fixed_homes hparse hvalid
  refine ⟨p, q, warnings, main, assembly, g, hparse, hvalid, hmain, hgenerate, hg, ?_⟩
  have haccepted := accepted_of_parse hparse hvalid
  intro L
  obtain ⟨hways, hruns⟩ := hhomes L
  obtain ⟨-, -, hframed⟩ := hways 0 f g hf hg
  constructor
  · intro s₀
    have hcode : (parse collatz.loader "main" { library := false }).toOption.bind (fun p =>
        p.functions[0]?.bind fun f => f.code[0]?.map (·.op)) = some (.bind 1) := by
      decide +kernel
    simp only [hparse, Except.toOption, Option.bind_some, hf, Option.map_eq_some_iff] at hcode
    obtain ⟨i, hi, hbind⟩ := hcode
    have hchecked := haccepted.validated.checked_of_getElem? hf hg
    obtain ⟨j, hj, hop⟩ := hchecked.exists_of_read hi (by simp [hbind])
    rw [hbind] at hop
    obtain ⟨s, hway⟩ := Passage.start.bind (q := q) (L := L) (s := s₀) hj hop
    refine ⟨s, hway, hframed s₀ 1 s hway, ?_⟩
    rw [(hframed s₀ 1 s hway).rbp, slotsAt_succ hj, hop]
    rfl
  · intro memory
    obtain ⟨s₁, hs₁⟩ := exists_starts hgenerate L memory
    obtain ⟨s, -, hrep⟩ := represents_start haccepted hgenerate hmain hs₁
    obtain ⟨g', -, hframed', hslots, hbase, -⟩ := hruns memory [] _ s _ [] Run.refl hrep rfl
    refine ⟨s, hrep, ?_, hbase⟩
    rw [hframed'.rbp, ← hslots]
    exact cellAddr_zero _

end StackLang
