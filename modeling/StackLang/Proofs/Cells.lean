import StackLang.Proofs.Machine

/-!
This module contains stacks of words in memory. They grow downward from an end that stays where it
is, so the address of a cell depends on nothing but the number of cells below it.
-/

namespace StackLang

theorem Word.add_sub_self (a k : Word) : a + k - a = k := by
  bv_omega

namespace Store

theorem writeWord_apply {m : Store} {a x : Word} {v : Word} (h : ¬ (x - a).toNat < 8) :
    m.writeWord a v x = m x := by
  rw [writeWord, if_neg h]

theorem readWord_congr {m m' : Store} {a : Word} (h : ∀ x, (x - a).toNat < 8 → m' x = m x) :
    m'.readWord a = m.readWord a := by
  have hbyte : ∀ k : Word, k.toNat < 8 → m' (a + k) = m (a + k) := by
    intro k hk
    apply h
    rw [Word.add_sub_self]
    exact hk
  unfold readWord
  rw [hbyte 7 (by decide), hbyte 6 (by decide), hbyte 5 (by decide), hbyte 4 (by decide),
    hbyte 3 (by decide), hbyte 2 (by decide), hbyte 1 (by decide), h a (by simp)]

theorem writeWord_add (m : Store) (a v : Word) {k : Word} (hk : k.toNat < 8) :
    m.writeWord a v (a + k) = v.extractLsb' (8 * k.toNat) 8 := by
  have hsub : (a + k - a).toNat = k.toNat := by rw [Word.add_sub_self]
  rw [writeWord, hsub, if_pos hk]

@[simp]
theorem readWord_writeWord (m : Store) (a v : Word) : (m.writeWord a v).readWord a = v := by
  have hzero : m.writeWord a v a = v.extractLsb' 0 8 := by
    have := writeWord_add m a v (k := 0#64) (by decide)
    rwa [BitVec.add_zero] at this
  unfold readWord
  rw [writeWord_add m a v (k := 7) (by decide), writeWord_add m a v (k := 6) (by decide),
    writeWord_add m a v (k := 5) (by decide), writeWord_add m a v (k := 4) (by decide),
    writeWord_add m a v (k := 3) (by decide), writeWord_add m a v (k := 2) (by decide),
    writeWord_add m a v (k := 1) (by decide), hzero]
  apply BitVec.eq_of_getLsbD_eq
  intro i hi
  simp only [BitVec.getLsbD_append, BitVec.getLsbD_extractLsb']
  grind

end Store

/-- The address of the `n`-th cell below the end of a stack. -/
def cellAddr (top : Word) (n : Nat) : Word := top - BitVec.ofNat 64 (8 * n)

def Below (top : Word) (bytes : Nat) (x : Word) : Prop :=
  0 < (top - x).toNat ∧ (top - x).toNat ≤ bytes

theorem cellAddr_zero (top : Word) : cellAddr top 0 = top := by
  simp [cellAddr]

theorem cellAddr_succ (top : Word) (n : Nat) : cellAddr top (n + 1) = cellAddr top n - 8 := by
  unfold cellAddr
  bv_omega

theorem cellAddr_add (top : Word) (n k : Nat) :
    cellAddr top (n + k) + BitVec.ofNat 64 (8 * k) = cellAddr top n := by
  unfold cellAddr
  bv_omega

theorem cellAddr_cellAddr (top : Word) (n k : Nat) :
    cellAddr (cellAddr top n) k = cellAddr top (n + k) := by
  unfold cellAddr
  bv_omega

theorem mem_cell {top x : Word} {n : Nat} (h : 8 * (n + 1) < 2 ^ 64) :
    (x - cellAddr top (n + 1)).toNat < 8 ↔
      8 * n < (top - x).toNat ∧ (top - x).toNat ≤ 8 * (n + 1) := by
  unfold cellAddr
  bv_omega

/-- The words on a stack in memory, the top one first. -/
def Stacked (m : Store) (top : Word) : List Word → Prop
  | [] => True
  | v :: below => m.readWord (cellAddr top (below.length + 1)) = v ∧ Stacked m top below

namespace Stacked

variable {m m' : Store} {top : Word} {cells : List Word}

theorem congr (h : Stacked m top cells) (hsize : 8 * cells.length < 2 ^ 64)
    (hm : ∀ x, Below top (8 * cells.length) x → m' x = m x) : Stacked m' top cells := by
  induction cells with
  | nil => trivial
  | cons v below ih =>
    obtain ⟨hv, hbelow⟩ := h
    rw [List.length_cons] at hsize hm
    refine ⟨?_, ih hbelow (by omega) ?_⟩
    · rw [← hv]
      apply Store.readWord_congr
      intro x hx
      rw [mem_cell hsize] at hx
      exact hm x ⟨by omega, hx.2⟩
    · intro x hx
      exact hm x ⟨hx.1, by have := hx.2; omega⟩

theorem write_above (h : Stacked m top cells) {n : Nat} (hn : cells.length ≤ n)
    (hsize : 8 * (n + 1) < 2 ^ 64) (v : Word) :
    Stacked (m.writeWord (cellAddr top (n + 1)) v) top cells := by
  apply h.congr (by omega)
  intro x hx
  apply Store.writeWord_apply
  rw [mem_cell hsize]
  have := hx.2
  omega

theorem push (h : Stacked m top cells) (hsize : 8 * (cells.length + 1) < 2 ^ 64) (v : Word) :
    Stacked (m.writeWord (cellAddr top (cells.length + 1)) v) top (v :: cells) :=
  ⟨Store.readWord_writeWord _ _ _, h.write_above (Nat.le_refl _) hsize v⟩

theorem of_append {above : List Word} (h : Stacked m top (above ++ cells)) :
    Stacked m top cells := by
  induction above with
  | nil => exact h
  | cons v above ih => exact ih h.2

theorem readWord_eq {above : List Word} {v : Word} (h : Stacked m top (above ++ v :: cells)) :
    m.readWord (cellAddr top (cells.length + 1)) = v :=
  h.of_append.1

theorem set {above : List Word} {old : Word} (h : Stacked m top (above ++ old :: cells))
    (hsize : 8 * (above ++ old :: cells).length < 2 ^ 64) (v : Word) :
    Stacked (m.writeWord (cellAddr top (cells.length + 1)) v) top (above ++ v :: cells) := by
  induction above with
  | nil =>
    simp only [List.nil_append, List.length_cons] at hsize
    exact h.2.push hsize v
  | cons u above ih =>
    simp only [List.cons_append, List.length_cons, List.length_append] at hsize
    rw [List.cons_append] at h ⊢
    refine ⟨?_, ih h.2 (by simp only [List.length_append, List.length_cons]; omega)⟩
    -- the cells above the one that is written keep their distance from the end
    have hlength : (above ++ v :: cells).length = (above ++ old :: cells).length := by
      simp
    rw [hlength, ← h.1]
    apply Store.readWord_congr
    intro x hx
    apply Store.writeWord_apply
    rw [mem_cell (by simp only [List.length_append, List.length_cons]; omega)] at hx
    rw [mem_cell (by omega)]
    simp only [List.length_append, List.length_cons] at hx
    omega

/-- Whatever memory holds above a stack can be taken for cells of it. -/
theorem exists_above (h : Stacked m top cells) (n : Nat) :
    ∃ above, above.length = n ∧ Stacked m top (above ++ cells) := by
  induction n with
  | zero => exact ⟨[], rfl, h⟩
  | succ n ih =>
    obtain ⟨above, hlength, habove⟩ := ih
    refine ⟨m.readWord (cellAddr top ((above ++ cells).length + 1)) :: above, ?_, rfl, habove⟩
    rw [List.length_cons, hlength]

end Stacked
end StackLang
