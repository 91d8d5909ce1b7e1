import StackLang.Proofs.Matching
import StackLang.Proofs.StackSafety

/-!
This module contains tags: a kind for every value of a running program. Each operation gives the
values that it makes a tag, and the values that it moves keep theirs. On one operation tags change
as the stack of the walk does.
-/

namespace StackLang

def Prim.retag : Prim → List Kind → List Kind
  | add | sub => fun
    | b :: a :: s => .arithmetic a b :: s
    | s => s
  | mul | div | mod => fun s => .int :: s.drop 2
  | eq | ne | lt | gt | le | ge | and | or => fun s => .bool :: s.drop 2
  | not => fun s => .bool :: s.drop 1
  | dup => fun
    | a :: s => a :: a :: s
    | s => s
  | drop => fun s => s.drop 1
  | swap => fun
    | b :: a :: s => a :: b :: s
    | s => s
  | peek => fun
    | b :: a :: s => a :: b :: a :: s
    | s => s
  | rot => fun
    | c :: b :: a :: s => a :: c :: b :: s
    | s => s
  | load => fun s => .int :: s.drop 1
  | load8 => fun s => .byte :: s.drop 2
  | store => fun s => s.drop 2
  | store8 => fun s => s.drop 3

/-- The tags of the operands, the top one first, and of the slots after an operation. -/
def Op.retag (stack slots : List Kind) : Op → List Kind × List Kind
  | pushInt _ => (.int :: stack, slots)
  | pushBool _ => (.bool :: stack, slots)
  | pushChar _ => (.byte :: stack, slots)
  | pushStr _ => (.str :: stack, slots)
  | pushPtr _ => (.ptr :: stack, slots)
  | pushBind slot => (slots.getD slot .untyped :: stack, slots)
  | prim p => (p.retag stack, slots)
  | cast kind => (kind :: stack.drop 1, slots)
  | syscall arity => (.int :: stack.drop (arity.toNat + 1), slots)
  | branch _ => (stack.drop 1, slots)
  | bind count => (stack.drop count, slots ++ (stack.take count).reverse)
  | unbind count => (stack, slots.take (slots.length - count))
  | enter _ | otherwise _ | jump _ | leave _ | word _ | call _ => (stack, slots)

theorem Kind.isConcrete_arithmetic (a b : Kind) : (arithmetic a b).isConcrete = true := by
  unfold arithmetic
  split
  · rfl
  · split <;> rfl

theorem Kind.ne_param_of_isConcrete {k : Kind} (h : k.isConcrete = true) (name : String) :
    k ≠ .param name := by
  rintro rfl
  simp [isConcrete] at h

theorem Prim.mem_retag {p : Prim} {stack : List Kind} {k : Kind} (h : k ∈ p.retag stack) :
    k.isConcrete = true ∨ k ∈ stack := by
  have hmade : ∀ {made : Kind} {n : Nat}, made.isConcrete = true → k ∈ made :: stack.drop n →
      k.isConcrete = true ∨ k ∈ stack := by
    intro made n hconcrete hk
    rcases List.mem_cons.mp hk with rfl | hk
    · exact Or.inl hconcrete
    · exact Or.inr (List.mem_of_mem_drop hk)
  cases p with
  | add | sub =>
    simp only [retag] at h
    split at h
    · next b a s => exact hmade (n := 2) (Kind.isConcrete_arithmetic a b) h
    · exact Or.inr h
  | mul | div | mod | eq | ne | lt | gt | le | ge | and | or | not | load | load8 =>
    exact hmade rfl h
  | drop | store | store8 => exact Or.inr (List.mem_of_mem_drop h)
  | dup | swap | peek | rot =>
    right
    simp only [retag] at h
    split at h
    · simp only [List.mem_cons] at h ⊢
      tauto
    · exact h

theorem Op.mem_retag {op : Op} {stack slots : List Kind} {k : Kind}
    (hslot : ∀ slot, op = .pushBind slot → slot < slots.length) :
    (k ∈ (op.retag stack slots).1 →
      k.isConcrete = true ∨ op = .cast k ∨ k ∈ stack ∨ k ∈ slots) ∧
    (k ∈ (op.retag stack slots).2 → k ∈ stack ∨ k ∈ slots) := by
  have hmade : ∀ {made : Kind}, made.isConcrete = true → k ∈ made :: stack →
      k.isConcrete = true ∨ k ∈ stack := by
    intro made hconcrete hk
    rcases List.mem_cons.mp hk with rfl | hk
    · exact Or.inl hconcrete
    · exact Or.inr hk
  cases op with
  | pushInt _ | pushBool _ | pushChar _ | pushStr _ | pushPtr _ =>
    refine ⟨fun hk => ?_, Or.inr⟩
    have := hmade rfl hk
    tauto
  | pushBind slot =>
    refine ⟨fun hk => ?_, Or.inr⟩
    rcases List.mem_cons.mp hk with rfl | hk
    · have hlt := hslot slot rfl
      rw [List.getD_eq_getElem?_getD, List.getElem?_eq_getElem hlt]
      exact Or.inr (Or.inr (Or.inr (List.getElem_mem hlt)))
    · exact Or.inr (Or.inr (Or.inl hk))
  | prim p =>
    refine ⟨fun hk => ?_, Or.inr⟩
    have := Prim.mem_retag hk
    tauto
  | cast kind =>
    refine ⟨fun hk => ?_, Or.inr⟩
    rcases List.mem_cons.mp hk with rfl | hk
    · exact Or.inr (Or.inl rfl)
    · exact Or.inr (Or.inr (Or.inl (List.mem_of_mem_drop hk)))
  | syscall arity =>
    refine ⟨fun hk => ?_, Or.inr⟩
    rcases List.mem_cons.mp hk with rfl | hk
    · exact Or.inl rfl
    · exact Or.inr (Or.inr (Or.inl (List.mem_of_mem_drop hk)))
  | branch _ => exact ⟨fun hk => Or.inr (Or.inr (Or.inl (List.mem_of_mem_drop hk))), Or.inr⟩
  | bind count =>
    refine ⟨fun hk => Or.inr (Or.inr (Or.inl (List.mem_of_mem_drop hk))), fun hk => ?_⟩
    rcases List.mem_append.mp hk with hk | hk
    · exact Or.inr hk
    · exact Or.inl (List.mem_of_mem_take (List.mem_reverse.mp hk))
  | unbind count =>
    exact ⟨fun hk => Or.inr (Or.inr (Or.inl hk)), fun hk => Or.inr (List.mem_of_mem_take hk)⟩
  | enter _ | otherwise _ | jump _ | leave _ | word _ | call _ =>
    exact ⟨fun hk => Or.inr (Or.inr (Or.inl hk)), Or.inr⟩

namespace Substitution

theorem applyAll_of_isConcrete (s : Substitution) {kinds : List Kind}
    (h : ∀ k ∈ kinds, k.isConcrete = true) : s.applyAll kinds = kinds := by
  unfold applyAll
  rw [List.map_congr_left fun k hk => apply_of_ne_param s (Kind.ne_param_of_isConcrete (h k hk)),
    List.map_id']

end Substitution

namespace Walk

def filled (w : Walk) : List Kind := (w.bindings.take w.bound).map (·.kind)

theorem length_filled {w : Walk} (h : w.bound ≤ w.bindings.length) : w.filled.length = w.bound := by
  rw [filled, List.length_map, List.length_take]
  exact Nat.min_eq_left h

def results (op : Op) (sig : Signature) (s : Substitution) (taken : List Kind) : List Kind :=
  match op, taken with
  | .prim .add, [a, b] | .prim .sub, [a, b] => [Kind.arithmetic a b]
  | _, _ => s.applyAll sig.rets

theorem apply_split {op : Op} {stack taken stack' : List Kind}
    (h : apply op stack = .ok (taken, stack')) :
    ∃ sig s below, op.signature? = some sig ∧ stack = below ++ taken ∧
      taken.length = (sig.expand op.variadicCount).length ∧
      Substitution.matchSlots [] (sig.expand op.variadicCount) taken = some s ∧
      stack' = below ++ results op sig s taken := by
  unfold apply at h
  split at h
  · simp at h
  · next sig hsig =>
    simp only at h
    split at h
    · simp at h
    · next hlength =>
      split at h
      · simp at h
      · next s hs =>
        split at h
        · simp at h
        · next hpush =>
          simp only [Except.ok.injEq, Prod.mk.injEq] at h
          obtain ⟨rfl, rfl⟩ := h
          refine ⟨sig, s, belowKinds stack _, hsig, (List.take_append_drop _ _).symm, ?_, ?_, ?_⟩
          · exact length_topKinds (by omega)
          · unfold matchArgs at hs
            rwa [if_neg hlength] at hs
          · exact eq_append_of_push hpush

theorem retag_of_apply_prim {p : Prim} {stack taken stack' : List Kind}
    (h : apply (.prim p) stack = .ok (taken, stack')) (rest : List Kind) :
    p.retag (stack.reverse ++ rest) = stack'.reverse ++ rest := by
  obtain ⟨sig, s, below, hsig, rfl, hlength, hmatch, rfl⟩ := apply_split h
  simp only [Op.signature?, Option.some.injEq] at hsig
  subst hsig
  have hparam : ∀ name k, (Kind.param name, k) ∈ (p.signature.expand 0).zip taken →
      s.get? name = some k := fun name k => Substitution.get?_of_matchSlots hmatch
  cases p with
  | add | sub =>
    obtain ⟨a, b, rfl⟩ := List.length_eq_two.mp hlength
    simp [Prim.retag, results]
  | mul | div | mod | eq | ne | lt | gt | le | ge | and | or | load8 | store =>
    obtain ⟨a, b, rfl⟩ := List.length_eq_two.mp hlength
    simp [Prim.retag, results, Prim.signature, Substitution.applyAll, Substitution.apply]
  | not | load =>
    obtain ⟨a, rfl⟩ := List.length_eq_one_iff.mp hlength
    simp [Prim.retag, results, Prim.signature, Substitution.applyAll, Substitution.apply]
  | store8 =>
    obtain ⟨a, b, c, rfl⟩ := List.length_eq_three.mp hlength
    simp [Prim.retag, results, Prim.signature, Substitution.applyAll]
  | dup | drop =>
    obtain ⟨a, rfl⟩ := List.length_eq_one_iff.mp hlength
    have ha := hparam "a" a (by simp [Prim.signature, Signature.expand])
    simp [Prim.retag, results, Prim.signature, Substitution.applyAll, Substitution.apply, ha]
  | swap | peek =>
    obtain ⟨a, b, rfl⟩ := List.length_eq_two.mp hlength
    have ha := hparam "a" a (by simp [Prim.signature, Signature.expand])
    have hb := hparam "b" b (by simp [Prim.signature, Signature.expand])
    simp [Prim.retag, results, Prim.signature, Substitution.applyAll, Substitution.apply, ha, hb]
  | rot =>
    obtain ⟨a, b, c, rfl⟩ := List.length_eq_three.mp hlength
    have ha := hparam "a" a (by simp [Prim.signature, Signature.expand])
    have hb := hparam "b" b (by simp [Prim.signature, Signature.expand])
    have hc := hparam "c" c (by simp [Prim.signature, Signature.expand])
    simp [Prim.retag, results, Prim.signature, Substitution.applyAll, Substitution.apply, ha, hb,
      hc]

theorem reverse_of_apply {op : Op} {sig : Signature} {stack taken stack' : List Kind}
    (h : apply op stack = .ok (taken, stack')) (hsig : op.signature? = some sig)
    (hresults : ∀ s, results op sig s taken = sig.rets) (rest : List Kind) :
    stack'.reverse ++ rest =
      sig.rets.reverse ++ (stack.reverse ++ rest).drop (sig.expand op.variadicCount).length := by
  obtain ⟨sig', s, below, hsig', rfl, hlength, -, rfl⟩ := apply_split h
  rw [hsig, Option.some.injEq] at hsig'
  subst hsig'
  rw [hresults s, List.reverse_append, List.reverse_append, List.append_assoc, List.append_assoc,
    List.drop_left' (by rw [List.length_reverse, hlength])]

theorem filled_of_assign {w : Walk} {bindings : List Binding} {taken : List Kind}
    (h : assign w.bindings w.bound taken = (bindings, none))
    (hbound : w.bound ≤ w.bindings.length) :
    (bindings.take (w.bound + taken.length)).map (·.kind) = w.filled ++ taken := by
  have hlength := length_filled hbound
  apply List.ext_getElem?
  intro k
  rw [List.getElem?_map, List.getElem?_take]
  split
  · next hk =>
    by_cases hlt : k < w.bound
    · have hkept : (assign w.bindings w.bound taken).1[k]? = w.bindings[k]? :=
        getElem?_assign_of_lt taken hlt
      rw [h] at hkept
      rw [List.getElem?_append_left (by omega), filled, List.getElem?_map, List.getElem?_take,
        if_pos hlt, hkept]
    · have hkind := kind_assign (j := k - w.bound) h (by omega)
      rw [show w.bound + (k - w.bound) = k by omega] at hkind
      rw [List.getElem?_append_right (by omega), hlength, hkind]
  · next hk =>
    rw [List.getElem?_eq_none (by rw [List.length_append]; omega)]
    rfl

/-- Tags change as the stack of the walk does. What lies below makes no difference. -/
theorem retag_of_step {functions : List Function} {w w' : Walk} {op : Op}
    (h : step functions w op = .ok w') (hcall : ∀ entry, op ≠ .call entry)
    (hcast : ∀ name, op ≠ .cast (.param name))
    (hslot : ∀ slot, op = .pushBind slot → slot < w.bound) (hbound : w.bound ≤ w.bindings.length)
    (rest : List Kind) :
    op.retag (w.stack.reverse ++ rest) w.filled = (w'.stack.reverse ++ rest, w'.filled) := by
  have hlength := length_filled hbound
  cases op with
  | pushInt _ | pushBool _ | pushChar _ | pushStr _ | pushPtr _ =>
    obtain ⟨stack, hpush, rfl⟩ := goOn_eq_ok h
    simp [eq_append_of_push hpush, Op.retag, filled]
  | pushBind slot =>
    obtain ⟨b, stack, hb, -, hpush, rfl⟩ := readSlot_eq_ok h
    have hkind : w.filled[slot]? = some b.kind := by
      rw [filled, List.getElem?_map, List.getElem?_take, if_pos (hslot slot rfl), hb]
      rfl
    simp [eq_append_of_push hpush, Op.retag, List.getD, hkind]
    rfl
  | prim p =>
    obtain ⟨stack, hmap, rfl⟩ := goOn_eq_ok h
    obtain ⟨r, happly, rfl⟩ := eq_of_map_eq_ok hmap
    simp [Op.retag, retag_of_apply_prim happly]
    rfl
  | cast kind =>
    obtain ⟨stack, hmap, rfl⟩ := goOn_eq_ok h
    obtain ⟨r, happly, rfl⟩ := eq_of_map_eq_ok hmap
    rw [reverse_of_apply happly rfl _ rest]
    · rfl
    · intro s
      have hkind : ∀ name, kind ≠ .param name := by
        rintro name rfl
        exact hcast name rfl
      simp [results, Substitution.applyAll, Substitution.apply_of_ne_param s hkind]
  | syscall arity =>
    obtain ⟨stack, hmap, rfl⟩ := goOn_eq_ok h
    obtain ⟨r, happly, rfl⟩ := eq_of_map_eq_ok hmap
    rw [reverse_of_apply happly rfl (fun _ => rfl) rest]
    simp [Op.retag, Signature.expand, Op.variadicCount]
    rfl
  | branch _ =>
    obtain ⟨taken, stack, c, c', outer, happly, -, -, -, -, -, rfl⟩ := test_eq_ok h
    rw [reverse_of_apply happly rfl (fun _ => rfl) rest]
    rfl
  | bind count =>
    obtain ⟨taken, stack, -, happly, hassign, hw'⟩ := fillSlots_eq_ok h
    obtain ⟨hle, htaken, rfl, -⟩ := apply_bind happly
    have hsplit : w.stack = belowKinds w.stack count ++ taken := by
      rw [htaken]
      exact (List.take_append_drop _ _).symm
    have hcount : taken.length = count := by
      rw [htaken, length_topKinds hle]
    have hfilled := filled_of_assign hassign hbound
    rw [hcount] at hfilled
    have hreverse : w.stack.reverse ++ rest =
        taken.reverse ++ ((belowKinds w.stack count).reverse ++ rest) := by
      rw [← List.append_assoc, ← List.reverse_append, ← hsplit]
    rw [hw', hreverse]
    simp only [Op.retag, Prod.mk.injEq]
    rw [List.drop_left' (by simp [hcount]), List.take_left' (by simp [hcount]),
      List.reverse_reverse]
    exact ⟨rfl, hfilled.symm⟩
  | unbind count =>
    simp only [step, Except.ok.injEq] at h
    subst h
    simp only [Op.retag, hlength, Prod.mk.injEq, true_and]
    simp only [filled]
    rw [← List.map_take, List.take_take, Nat.min_eq_left (by omega)]
  | enter _ | jump _ =>
    simp only [step, Except.ok.injEq] at h
    rw [← h]
    rfl
  | otherwise _ =>
    obtain ⟨c, outer, -, -, rfl⟩ := orElse_eq_ok h
    rfl
  | leave _ =>
    obtain ⟨c, outer, -, -, rfl⟩ := leave_eq_ok h
    rfl
  | word name => simp [step, fail] at h
  | call entry => exact absurd rfl (hcall entry)

end Walk
end StackLang
