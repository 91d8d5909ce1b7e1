import StackLang.Proofs.Validated

/-!
This module contains the control flow of code, and the agreement of the walk with it. The walk
passes each instruction once, in order; along every edge of the control flow, jumps back included,
an instruction leaves exactly the kinds and slots that the walk has where the edge leads.
-/

namespace StackLang

/-- The kinds and the number of filled slots after an operation, wherever control goes next. -/
def Op.effect (functions : List Function) (bindings : List Binding) (stack : List Kind)
    (bound : Nat) : Op → Except Violation (List Kind × Nat)
  | pushInt _ => (Walk.push stack [.int]).map (·, bound)
  | pushBool _ => (Walk.push stack [.bool]).map (·, bound)
  | pushChar _ => (Walk.push stack [.byte]).map (·, bound)
  | pushStr _ => (Walk.push stack [.str]).map (·, bound)
  | pushPtr _ => (Walk.push stack [.ptr]).map (·, bound)
  | pushBind slot =>
    match bindings[slot]? with
    | none => .error (.noSlot slot)
    | some b => (Walk.push stack [b.kind]).map (·, bound)
  | enter _ | leave _ | otherwise _ | jump _ => .ok (stack, bound)
  | bind count => (Walk.apply (.bind count) stack).map fun r => (r.2, bound + count)
  | unbind count => .ok (stack, bound - count)
  | word name => .error (.unknownWord name)
  | call entry => (Walk.call functions entry stack).map (·, bound)
  | op => (Walk.apply op stack).map fun r => (r.2, bound)

inductive Edge (code : List Instruction) : Nat → Nat → Prop
  | next {ip i} (hi : code[ip]? = some i) (helse : ∀ t, i.op ≠ .otherwise t)
      (hjump : ∀ t, i.op ≠ .jump t) : Edge code ip (ip + 1)
  | target {ip i t} (hi : code[ip]? = some i) (ht : i.op.target? = some t) : Edge code ip t

inductive Path (code : List Instruction) : Nat → List Op → Prop
  | start : Path code 0 []
  | edge {ip ip' i ops} (hpath : Path code ip ops) (hi : code[ip]? = some i)
      (hedge : Edge code ip ip') : Path code ip' (ops ++ [i.op])

def Op.effects (functions : List Function) (bindings : List Binding) (ops : List Op)
    (stack : List Kind) (bound : Nat) : Except Violation (List Kind × Nat) :=
  ops.foldlM (fun s op => op.effect functions bindings s.1 s.2) (stack, bound)

theorem Op.effect_congr {fs gs : List Function}
    (h : ∀ n : Nat, (gs[n]?).map (fun g => (g.name, g.args, g.rets)) =
      (fs[n]?).map (fun f => (f.name, f.args, f.rets)))
    (bindings : List Binding) (stack : List Kind) (bound : Nat) (op : Op) :
    op.effect gs bindings stack bound = op.effect fs bindings stack bound := by
  cases op with
  | call entry =>
    have hentry := h entry
    simp only [Op.effect, Walk.call, Walk.matchCall]
    cases hf : fs[entry]? with
    | none =>
      rw [hf, Option.map_none, Option.map_eq_none_iff] at hentry
      rw [hentry]
    | some f =>
      rw [hf, Option.map_some, Option.map_eq_some_iff] at hentry
      obtain ⟨g, hg, heq⟩ := hentry
      simp only [Prod.mk.injEq] at heq
      obtain ⟨hname, hargs, hrets⟩ := heq
      simp only [hg, hname, hargs, hrets]
  | _ => rfl

theorem eq_of_map_eq_ok {α β : Type} {r : Except Violation α} {f : α → β} {b : β}
    (h : r.map f = .ok b) : ∃ a, r = .ok a ∧ f a = b := by
  cases r with
  | error v => simp [Except.map] at h
  | ok a =>
    simp only [Except.map, Except.ok.injEq] at h
    exact ⟨a, rfl, h⟩

theorem Op.bound_of_effect {functions : List Function} {bindings : List Binding}
    {stack stack' : List Kind} {bound bound' : Nat} {op : Op}
    (h : op.effect functions bindings stack bound = .ok (stack', bound')) :
    bound' = Assembly.boundAfter bound op := by
  cases op with
  | pushBind slot =>
    simp only [Op.effect] at h
    split at h
    · simp at h
    · obtain ⟨_, -, heq⟩ := eq_of_map_eq_ok h
      exact (congrArg Prod.snd heq).symm
  | word name => simp [Op.effect] at h
  | enter _ | leave _ | otherwise _ | jump _ | unbind _ =>
    simp only [Op.effect, Except.ok.injEq] at h
    exact (congrArg Prod.snd h).symm
  | _ =>
    obtain ⟨_, -, heq⟩ := eq_of_map_eq_ok h
    exact (congrArg Prod.snd heq).symm

namespace Walk

theorem effect_of_step {functions : List Function} {bindings : List Binding} {w w' : Walk} {op : Op}
    (h : step functions w op = .ok w')
    (hslot : ∀ slot, op = .pushBind slot → bindings[slot]? = w.bindings[slot]?) :
    op.effect functions bindings w.stack w.bound = .ok (w'.stack, w'.bound) := by
  cases op with
  | pushBind slot =>
    obtain ⟨b, stack, hb, -, hpush, rfl⟩ := readSlot_eq_ok h
    simp only [Op.effect, hslot slot rfl, hb, hpush, Except.map]
  | bind count =>
    obtain ⟨taken, stack, -, happly, -, hw'⟩ := fillSlots_eq_ok h
    rw [hw']
    simp only [Op.effect, happly, Except.map]
  | unbind _ | enter _ | jump _ =>
    simp only [step, Except.ok.injEq] at h
    subst h
    rfl
  | branch target =>
    obtain ⟨_, stack, _, _, _, happly, -, -, -, -, -, rfl⟩ := test_eq_ok h
    simp only [Op.effect, happly, Except.map]
  | otherwise target =>
    obtain ⟨_, _, -, -, rfl⟩ := orElse_eq_ok h
    rfl
  | leave block =>
    obtain ⟨_, _, -, -, rfl⟩ := leave_eq_ok h
    rfl
  | word name => simp [step, fail] at h
  | call entry =>
    obtain ⟨stack, hcall, rfl⟩ := goOn_eq_ok h
    simp only [Op.effect, hcall, Except.map]
  | pushInt _ | pushBool _ | pushChar _ | pushStr _ | pushPtr _ =>
    obtain ⟨stack, hpush, rfl⟩ := goOn_eq_ok h
    simp only [Op.effect, hpush, Except.map]
  | prim _ | cast _ | syscall _ =>
    obtain ⟨stack, happly, rfl⟩ := goOn_eq_ok h
    simp only [Op.effect]
    revert happly
    cases apply _ w.stack with
    | error v => simp [Except.map]
    | ok r =>
      simp only [Except.map, Except.ok.injEq]
      intro happly
      rw [happly]

theorem bound_of_step {functions : List Function} {w w' : Walk} {op : Op}
    (h : step functions w op = .ok w') : w'.bound = Assembly.boundAfter w.bound op :=
  Op.bound_of_effect (effect_of_step h fun _ _ => rfl)

theorem isPlain_of_resolve {functions : List Function} {stack : List Kind} {op op' : Op}
    (h : resolve functions stack op = .ok op') (hplain : op.isPlain = true) :
    op'.isPlain = true := by
  rcases resolve_eq_ok h with ⟨heq, -⟩ | ⟨_, _, _, _, heq, -⟩
  · rw [heq]
    exact hplain
  · rw [heq]
    rfl

theorem plain_of_step {functions : List Function} {w w' : Walk} {op : Op}
    (h : step functions w op = .ok w') (hplain : op.isPlain = true) :
    w'.blocks = w.blocks ∧ (w.blocks ≠ [] → w'.bound = w.bound) := by
  cases op with
  | pushBind slot =>
    obtain ⟨_, _, -, -, -, rfl⟩ := readSlot_eq_ok h
    exact ⟨rfl, fun _ => rfl⟩
  | bind count =>
    obtain ⟨taken, stack, hblocks, -, -, hw'⟩ := fillSlots_eq_ok h
    rw [hw']
    exact ⟨rfl, fun hne => absurd hblocks hne⟩
  | word name => simp [step, fail] at h
  | pushInt _ | pushBool _ | pushChar _ | pushStr _ | pushPtr _ | call _ | prim _ | cast _
  | syscall _ =>
    obtain ⟨stack, -, rfl⟩ := goOn_eq_ok h
    exact ⟨rfl, fun _ => rfl⟩
  | enter _ | branch _ | otherwise _ | jump _ | leave _ | unbind _ => simp [Op.isPlain] at hplain

/-- The states of a walk that goes through: `σ ip` is the one before the instruction at `ip`. -/
def Passes (functions : List Function) (code : List Instruction) (σ : Nat → Walk) : Prop :=
  ∀ ip i, code[ip]? = some i → ∃ op, resolve functions (σ ip).stack i.op = .ok op ∧
    step functions (σ ip) op = .ok (σ (ip + 1))

def Same (w w' : Walk) : Prop := w.stack = w'.stack ∧ w.bound = w'.bound

namespace Passes

variable {functions : List Function} {code : List Instruction} {σ : Nat → Walk}

theorem step_eq (h : Passes functions code σ) {ip : Nat} {l : Location} {op : Op}
    (hi : code[ip]? = some ⟨l, op⟩) (hword : ∀ name, op ≠ .word name) :
    step functions (σ ip) op = .ok (σ (ip + 1)) := by
  obtain ⟨op', hresolve, hstep⟩ := h ip _ hi
  rcases resolve_eq_ok hresolve with ⟨heq, -⟩ | ⟨name, -, -, heq, -⟩
  · rw [heq] at hstep
    exact hstep
  · exact absurd heq (hword name)

theorem plain (h : Passes functions code σ) {ip : Nat} {i : Instruction}
    (hi : code[ip]? = some i) (hplain : i.op.isPlain = true) :
    (σ (ip + 1)).blocks = (σ ip).blocks ∧
      ((σ ip).blocks ≠ [] → (σ (ip + 1)).bound = (σ ip).bound) := by
  obtain ⟨op, hresolve, hstep⟩ := h ip i hi
  exact plain_of_step hstep (isPlain_of_resolve hresolve hplain)

theorem enter (h : Passes functions code σ) {ip : Nat} {l : Location} {block : Block}
    (hi : code[ip]? = some ⟨l, .enter block⟩) : σ (ip + 1) = (σ ip).enter block := by
  have hstep := h.step_eq hi (by simp)
  simp only [step, Except.ok.injEq] at hstep
  exact hstep.symm

theorem branch (h : Passes functions code σ) {ip target : Nat} {l : Location} {c : Checkpoint}
    {outer : List Checkpoint} (hi : code[ip]? = some ⟨l, .branch target⟩)
    (hblocks : (σ ip).blocks = c :: outer) :
    ∃ c', (σ (ip + 1)).blocks = c' :: outer ∧ c'.stack = (σ (ip + 1)).stack ∧
      (c.block = .loop → c'.stack = c.stack) ∧ (σ (ip + 1)).bound = (σ ip).bound := by
  obtain ⟨_, _, d, c', outer', -, hblocks', -, hstack, hloop, -, hnext⟩ :=
    test_eq_ok (h.step_eq hi (by simp))
  rw [hblocks, List.cons.injEq] at hblocks'
  obtain ⟨rfl, rfl⟩ := hblocks'
  rw [hnext]
  exact ⟨c', rfl, hstack, hloop, rfl⟩

theorem otherwise (h : Passes functions code σ) {ip target : Nat} {l : Location} {c : Checkpoint}
    {outer : List Checkpoint} (hi : code[ip]? = some ⟨l, .otherwise target⟩)
    (hblocks : (σ ip).blocks = c :: outer) :
    ∃ c', (σ (ip + 1)).blocks = c' :: outer ∧ c'.stack = c.stack ∧
      (σ (ip + 1)).stack = c.stack ∧ (σ (ip + 1)).bound = (σ ip).bound := by
  obtain ⟨d, outer', hblocks', hstack, hnext⟩ := orElse_eq_ok (h.step_eq hi (by simp))
  rw [hblocks, List.cons.injEq] at hblocks'
  obtain ⟨rfl, rfl⟩ := hblocks'
  rw [hnext]
  exact ⟨_, rfl, rfl, hstack.symm, rfl⟩

theorem jump (h : Passes functions code σ) {ip target : Nat} {l : Location}
    (hi : code[ip]? = some ⟨l, .jump target⟩) : σ (ip + 1) = σ ip := by
  have hstep := h.step_eq hi (by simp)
  simp only [step, Except.ok.injEq] at hstep
  exact hstep.symm

theorem leave (h : Passes functions code σ) {ip : Nat} {l : Location} {block : Block}
    {c : Checkpoint} {outer : List Checkpoint} (hi : code[ip]? = some ⟨l, .leave block⟩)
    (hblocks : (σ ip).blocks = c :: outer) :
    (σ (ip + 1)).blocks = outer ∧ (σ ip).stack = c.stack ∧
      (σ (ip + 1)).bound = (σ ip).bound := by
  obtain ⟨d, outer', hblocks', hstack, hnext⟩ := leave_eq_ok (h.step_eq hi (by simp))
  rw [hblocks, List.cons.injEq] at hblocks'
  obtain ⟨rfl, rfl⟩ := hblocks'
  rw [hnext]
  exact ⟨rfl, hstack.symm, rfl⟩

end Passes

/-- All jumps in code from `ip` on lead where the walk has what it has just after them. -/
def Agrees (σ : Nat → Walk) (size : Nat) : Nat → List Instruction → Prop
  | _, [] => True
  | ip, i :: rest =>
    (∀ t, i.op.target? = some t → t < size ∧ Same (σ t) (σ (ip + 1))) ∧
      Agrees σ size (ip + 1) rest

theorem agrees_append {σ : Nat → Walk} {size ip : Nat} {a b : List Instruction} :
    Agrees σ size ip (a ++ b) ↔ Agrees σ size ip a ∧ Agrees σ size (ip + a.length) b := by
  induction a generalizing ip with
  | nil => simp [Agrees]
  | cons i a ih =>
    simp only [List.cons_append, Agrees, ih, List.length_cons, and_assoc]
    rw [show ip + 1 + a.length = ip + (a.length + 1) by omega]

theorem Agrees.target {σ : Nat → Walk} {size start k t : Nat} {code : List Instruction}
    {i : Instruction} (h : Agrees σ size start code) (hi : code[k]? = some i)
    (ht : i.op.target? = some t) : t < size ∧ Same (σ t) (σ (start + k + 1)) := by
  induction code generalizing start k with
  | nil => simp at hi
  | cons j rest ih =>
    cases k with
    | zero =>
      simp only [List.getElem?_cons_zero, Option.some.injEq] at hi
      subst hi
      exact h.1 t ht
    | succ k =>
      rw [List.getElem?_cons_succ] at hi
      have := ih h.2 hi
      rwa [show start + 1 + k + 1 = start + (k + 1) + 1 by omega] at this

/-- What a walk does over code from `start` on whose blocks are all closed. -/
structure Closed (σ : Nat → Walk) (size start : Nat) (code : List Instruction) : Prop where
  blocks : (σ (start + code.length)).blocks = (σ start).blocks
  /-- Inside a block no slot is filled. -/
  bound : (σ start).blocks ≠ [] → (σ (start + code.length)).bound = (σ start).bound
  targets : Agrees σ size start code

theorem Closed.append {σ : Nat → Walk} {size start next : Nat} {a b : List Instruction}
    (ha : Closed σ size start a) (hnext : start + a.length = next) (hb : Closed σ size next b) :
    Closed σ size start (a ++ b) := by
  subst hnext
  constructor
  · rw [List.length_append, ← Nat.add_assoc, hb.blocks, ha.blocks]
  · intro hne
    rw [List.length_append, ← Nat.add_assoc, hb.bound (by rwa [ha.blocks]), ha.bound hne]
  · exact agrees_append.mpr ⟨ha.targets, hb.targets⟩

namespace Passes

variable {functions : List Function} {code : List Instruction} {σ : Nat → Walk}

theorem closed_cond (h : Passes functions code σ) {start target : Nat} {l₁ l₂ l₃ : Location}
    {pre body post : List Instruction} (htarget : target = start + 1 + pre.length + 1 + body.length)
    (hcode : code.drop start = ⟨l₁, .enter .cond⟩ :: (pre ++ ⟨l₂, .branch target⟩ ::
      (body ++ ⟨l₃, .leave .cond⟩ :: post)))
    (hpre : Closed σ code.length (start + 1) pre)
    (hbody : Closed σ code.length (start + 1 + pre.length + 1) body) :
    Closed σ code.length start (⟨l₁, .enter .cond⟩ :: (pre ++ ⟨l₂, .branch target⟩ ::
      (body ++ [⟨l₃, .leave .cond⟩]))) := by
  obtain ⟨henter, hcode⟩ := getElem?_of_drop hcode
  obtain ⟨hbranch, hcode⟩ := getElem?_of_drop (drop_of_append hcode)
  obtain ⟨hleave, -⟩ := getElem?_of_drop (drop_of_append hcode)
  rw [← htarget] at hleave
  have htest := hpre.blocks
  have hin := hpre.bound
  rw [h.enter henter] at htest hin
  -- the test records the stack that the body has to leave
  obtain ⟨c, hblocks, hstack, -, hbound⟩ := h.branch hbranch htest
  have hend := hbody.blocks
  rw [hblocks, ← htarget] at hend
  obtain ⟨hout, hback, hleft⟩ := h.leave hleave hend
  have hlast := hbody.bound (by simp [hblocks])
  rw [hbound, hin (by simp [Walk.enter]), ← htarget] at hlast
  have hlength : start + (⟨l₁, .enter .cond⟩ :: (pre ++ ⟨l₂, .branch target⟩ ::
      (body ++ [⟨l₃, .leave .cond⟩]))).length = target + 1 := by
    simp only [List.length_cons, List.length_append, List.length_nil]
    omega
  constructor
  · rw [hlength, hout]
  · intro _
    rw [hlength, hleft, hlast]
    rfl
  · have hsize : target < code.length := (List.getElem?_eq_some_iff.mp hleave).1
    have hsame : Same (σ target) (σ (start + 1 + pre.length + 1)) := by
      constructor
      · rw [hback, hstack]
      · rw [hlast, hbound, hin (by simp [Walk.enter])]
    simp [Agrees, agrees_append, Op.target?, hpre.targets, hbody.targets, hsize, hsame]

theorem closed_condElse (h : Passes functions code σ) {start middle target : Nat}
    {l₁ l₂ l₃ l₄ : Location} {pre first second post : List Instruction}
    (hmiddle : middle = start + 1 + pre.length + 1 + first.length + 1)
    (htarget : target = middle + second.length)
    (hcode : code.drop start = ⟨l₁, .enter .cond⟩ :: (pre ++ ⟨l₂, .branch middle⟩ ::
      (first ++ ⟨l₃, .otherwise target⟩ :: (second ++ ⟨l₄, .leave .cond⟩ :: post))))
    (hpre : Closed σ code.length (start + 1) pre)
    (hfirst : Closed σ code.length (start + 1 + pre.length + 1) first)
    (hsecond : Closed σ code.length middle second) :
    Closed σ code.length start (⟨l₁, .enter .cond⟩ :: (pre ++ ⟨l₂, .branch middle⟩ ::
      (first ++ ⟨l₃, .otherwise target⟩ :: (second ++ [⟨l₄, .leave .cond⟩])))) := by
  obtain ⟨henter, hcode⟩ := getElem?_of_drop hcode
  obtain ⟨hbranch, hcode⟩ := getElem?_of_drop (drop_of_append hcode)
  obtain ⟨helse, hcode⟩ := getElem?_of_drop (drop_of_append hcode)
  rw [← hmiddle] at hcode
  obtain ⟨hleave, -⟩ := getElem?_of_drop (drop_of_append hcode)
  rw [← htarget] at hleave
  have htest := hpre.blocks
  have hin := hpre.bound
  rw [h.enter henter] at htest hin
  obtain ⟨c, hblocks, hstack, -, hbound⟩ := h.branch hbranch htest
  have hturn := hfirst.blocks
  rw [hblocks] at hturn
  -- the second branch starts and ends with the stack that the test has recorded
  obtain ⟨c', hblocks', hkept, hstack', hbound'⟩ := h.otherwise helse hturn
  rw [hfirst.bound (by simp [hblocks]), hbound, hin (by simp [Walk.enter])] at hbound'
  rw [← hmiddle] at hblocks' hstack' hbound'
  have hend := hsecond.blocks
  rw [hblocks', ← htarget] at hend
  obtain ⟨hout, hback, hleft⟩ := h.leave hleave hend
  have hlast := hsecond.bound (by simp [hblocks'])
  rw [hbound', ← htarget] at hlast
  have hlength : start + (⟨l₁, .enter .cond⟩ :: (pre ++ ⟨l₂, .branch middle⟩ ::
      (first ++ ⟨l₃, .otherwise target⟩ :: (second ++ [⟨l₄, .leave .cond⟩])))).length =
      target + 1 := by
    simp only [List.length_cons, List.length_append, List.length_nil]
    omega
  constructor
  · rw [hlength, hout]
  · intro _
    rw [hlength, hleft, hlast]
    rfl
  · have hsize : target < code.length := (List.getElem?_eq_some_iff.mp hleave).1
    have hskip : Same (σ middle) (σ (start + 1 + pre.length + 1)) := by
      constructor
      · rw [hstack', hstack]
      · rw [hbound', hbound, hin (by simp [Walk.enter])]
    have hjoin : Same (σ target) (σ middle) := by
      constructor
      · rw [hback, hkept, hstack']
      · rw [hlast, hbound']
    simp [Agrees, agrees_append, Op.target?, hpre.targets, hfirst.targets, ← hmiddle,
      hsecond.targets, hsize, hskip, hjoin, show middle < code.length by omega]

theorem closed_loop (h : Passes functions code σ) {start target : Nat}
    {l₁ l₂ l₃ l₄ : Location} {test body post : List Instruction}
    (htarget : target = start + 1 + test.length + 1 + body.length + 1)
    (hcode : code.drop start = ⟨l₁, .enter .loop⟩ :: (test ++ ⟨l₂, .branch target⟩ ::
      (body ++ ⟨l₃, .jump start⟩ :: ⟨l₄, .leave .loop⟩ :: post)))
    (htest : Closed σ code.length (start + 1) test)
    (hbody : Closed σ code.length (start + 1 + test.length + 1) body) :
    Closed σ code.length start (⟨l₁, .enter .loop⟩ :: (test ++ ⟨l₂, .branch target⟩ ::
      (body ++ ⟨l₃, .jump start⟩ :: [⟨l₄, .leave .loop⟩]))) := by
  obtain ⟨henter, hcode⟩ := getElem?_of_drop hcode
  obtain ⟨hbranch, hcode⟩ := getElem?_of_drop (drop_of_append hcode)
  obtain ⟨hjump, hcode⟩ := getElem?_of_drop (drop_of_append hcode)
  obtain ⟨hleave, -⟩ := getElem?_of_drop hcode
  rw [← htarget] at hleave
  have hopen := htest.blocks
  have hin := htest.bound
  rw [h.enter henter] at hopen hin
  obtain ⟨c, hblocks, hstack, hloop, hbound⟩ := h.branch hbranch hopen
  have hend := hbody.blocks
  have hlast := hbody.bound (by simp [hblocks])
  rw [← h.jump hjump, ← htarget] at hend hlast
  rw [hblocks] at hend
  rw [hbound, hin (by simp [Walk.enter])] at hlast
  obtain ⟨hout, hback, hleft⟩ := h.leave hleave hend
  have hlength : start + (⟨l₁, .enter .loop⟩ :: (test ++ ⟨l₂, .branch target⟩ ::
      (body ++ ⟨l₃, .jump start⟩ :: [⟨l₄, .leave .loop⟩]))).length = target + 1 := by
    simp only [List.length_cons, List.length_append, List.length_nil]
    omega
  constructor
  · rw [hlength, hout]
  · intro _
    rw [hlength, hleft, hlast]
    rfl
  · have hsize : target < code.length := (List.getElem?_eq_some_iff.mp hleave).1
    have hexit : Same (σ target) (σ (start + 1 + test.length + 1)) := by
      constructor
      · rw [hback, hstack]
      · rw [hlast, hbound, hin (by simp [Walk.enter])]
    -- the stack that the test records is the one that the loop was entered with
    have hagain : Same (σ start) (σ target) := by
      constructor
      · rw [hback, hloop rfl]
      · rw [hlast]
        rfl
    simp [Agrees, agrees_append, Op.target?, htest.targets, hbody.targets, ← htarget, hsize,
      hexit, hagain, show start < code.length by omega]

/-- The walk closes every block that nested code opens, and agrees with every jump in it. -/
theorem closed (h : Passes functions code σ) {start : Nat} {part post : List Instruction}
    (hpart : Nested start part) (hcode : code.drop start = part ++ post) :
    Closed σ code.length start part := by
  induction hpart generalizing post with
  | nil => exact ⟨rfl, fun _ => rfl, trivial⟩
  | @plain start i rest hplain _ ih =>
    obtain ⟨hi, hrest⟩ := getElem?_of_drop hcode
    obtain ⟨hblocks, hbound⟩ := h.plain hi hplain
    have hone : Closed σ code.length start [i] := by
      refine ⟨hblocks, hbound, ?_, trivial⟩
      intro t ht
      revert hplain ht
      cases i.op <;> simp [Op.isPlain, Op.target?]
    exact hone.append rfl (ih hrest)
  | @cond start target l₁ l₂ l₃ pre body rest _ _ htarget _ ihpre ihbody ih =>
    simp only [List.cons_append, List.append_assoc] at hcode
    have hpre := getElem?_of_drop hcode |>.2
    have hbody := getElem?_of_drop (drop_of_append hpre) |>.2
    have hrest := getElem?_of_drop (drop_of_append hbody) |>.2
    rw [← htarget] at hrest
    have hblock := h.closed_cond htarget hcode (ihpre hpre) (ihbody hbody)
    have hboth := hblock.append (by
      simp only [List.length_cons, List.length_append, List.length_nil]
      omega) (ih hrest)
    simpa using hboth
  | @condElse start middle target l₁ l₂ l₃ l₄ pre first second rest _ _ hmiddle _ htarget _
      ihpre ihfirst ihsecond ih =>
    simp only [List.cons_append, List.append_assoc] at hcode
    have hpre := getElem?_of_drop hcode |>.2
    have hfirst := getElem?_of_drop (drop_of_append hpre) |>.2
    have hsecond := getElem?_of_drop (drop_of_append hfirst) |>.2
    rw [← hmiddle] at hsecond
    have hrest := getElem?_of_drop (drop_of_append hsecond) |>.2
    rw [← htarget] at hrest
    have hblock := h.closed_condElse hmiddle htarget hcode (ihpre hpre) (ihfirst hfirst)
      (ihsecond hsecond)
    have hboth := hblock.append (by
      simp only [List.length_cons, List.length_append, List.length_nil]
      omega) (ih hrest)
    simpa using hboth
  | @loop start target l₁ l₂ l₃ l₄ test body rest _ _ htarget _ ihtest ihbody ih =>
    simp only [List.cons_append, List.append_assoc] at hcode
    have htest := getElem?_of_drop hcode |>.2
    have hbody := getElem?_of_drop (drop_of_append htest) |>.2
    have hend := getElem?_of_drop (drop_of_append hbody) |>.2
    have hrest := getElem?_of_drop hend |>.2
    rw [← htarget] at hrest
    have hblock := h.closed_loop htarget hcode (ihtest htest) (ihbody hbody)
    have hboth := hblock.append (by
      simp only [List.length_cons, List.length_append, List.length_nil]
      omega) (ih hrest)
    simpa using hboth

end Passes
end Walk

namespace Function

variable {functions : List Function} {f g : Function}

theorem Checked.instruction (h : Checked functions f g) {ip : Nat} {j : Instruction}
    (hj : g.code[ip]? = some j) :
    ∃ i w w', f.code[ip]? = some i ∧ f.stateAt functions ip = some w ∧
      f.stateAt functions (ip + 1) = some w' ∧ Walk.resolve functions w.stack i.op = .ok j.op ∧
      Walk.step functions w j.op = .ok w' := by
  obtain ⟨_, hw, -⟩ := h.walk
  rw [h.code] at hj
  have hip : ip < f.code.length := by
    rw [← Walk.length_code_run hw]
    exact (List.getElem?_eq_some_iff.mp hj).1
  have hi := List.getElem?_eq_getElem hip
  obtain ⟨op, w, w', hbefore, hafter, hresolve, hstep, hcode⟩ := Walk.before_step hw hi
  rw [hj, Option.some.injEq] at hcode
  subst hcode
  exact ⟨_, w, w', hi, hbefore, hafter, hresolve, hstep⟩

theorem Checked.length_code (h : Checked functions f g) : g.code.length = f.code.length := by
  obtain ⟨_, hw, -⟩ := h.walk
  rw [h.code, Walk.length_code_run hw]

theorem Checked.stateAt_of_le (h : Checked functions f g) {ip : Nat} (hip : ip ≤ g.code.length) :
    ∃ w, f.stateAt functions ip = some w := by
  cases ip with
  | zero => exact ⟨f.start, rfl⟩
  | succ ip =>
    obtain ⟨_, _, w', -, -, hw', -⟩ := h.instruction (List.getElem?_eq_getElem hip)
    exact ⟨w', hw'⟩

def states (functions : List Function) (f : Function) (ip : Nat) : Walk :=
  (f.stateAt functions ip).getD f.start

theorem states_of_stateAt {ip : Nat} {w : Walk} (h : f.stateAt functions ip = some w) :
    f.states functions ip = w := by
  rw [states, h, Option.getD_some]

theorem Checked.passes (h : Checked functions f g) :
    Walk.Passes functions f.code (f.states functions) := by
  intro ip i hi
  obtain ⟨_, hw, -⟩ := h.walk
  obtain ⟨op, w, w', hbefore, hafter, hresolve, hstep, -⟩ := Walk.before_step hw hi
  rw [states_of_stateAt hbefore, states_of_stateAt hafter]
  exact ⟨op, hresolve, hstep⟩

theorem Checked.target (h : Checked functions f g) (hread : ReadCode f.code f.bindings) {ip t : Nat}
    {j : Instruction} (hj : g.code[ip]? = some j) (ht : j.op.target? = some t) :
    t < g.code.length ∧ Walk.Same (f.states functions t) (f.states functions (ip + 1)) := by
  obtain ⟨i, _, _, hi, -, -, hresolve, -⟩ := h.instruction hj
  have htarget : i.op.target? = some t := by
    rw [← Walk.eq_of_resolve hresolve]
    · exact ht
    · intro entry heq
      simp [heq, Op.target?] at ht
  obtain ⟨body, ending, hcode, hbody, -, hending⟩ := hread.split
  have hclosed : Walk.Closed (f.states functions) f.code.length 0 body :=
    h.passes.closed hbody (by rw [List.drop_zero, hcode])
  have hagrees : Walk.Agrees (f.states functions) f.code.length 0 (body ++ ending) := by
    rw [Walk.agrees_append]
    refine ⟨hclosed.targets, ?_⟩
    rcases hending with ⟨rfl, -⟩ | ⟨_, rfl, -⟩
    · trivial
    · simp [Walk.Agrees, Op.target?]
  rw [hcode] at hi
  have := hagrees.target hi htarget
  rwa [Nat.zero_add, ← h.length_code] at this

theorem Checked.fills (h : Checked functions f g) {body ending : List Instruction}
    (hcode : f.code = body ++ ending) (hemitted : ∀ i ∈ body, i.op.Emitted) {ip ip' : Nat}
    (hle : ip ≤ ip') (hbody : ip' ≤ body.length) :
    Walk.Fills (f.states functions ip) (f.states functions ip') := by
  induction hle with
  | refl => exact .of_eq rfl rfl
  | @step k _ ih =>
    apply (ih (by omega)).trans
    have hk : f.code[k]? = some body[k] := by
      rw [hcode, List.getElem?_append_left hbody, List.getElem?_eq_getElem hbody]
    obtain ⟨op, hresolve, hstep⟩ := h.passes k _ hk
    apply Walk.fills_of_step hstep
    intro count hcount
    have hop := hemitted body[k] (List.getElem_mem hbody)
    rw [← Walk.eq_of_resolve hresolve (by simp [hcount]), hcount] at hop
    exact hop

theorem Checked.bindings_body (h : Checked functions f g) {body ending : List Instruction}
    (hcode : f.code = body ++ ending)
    (hending : ending = [] ∨ ∃ loc count, ending = [⟨loc, .unbind count⟩]) :
    (f.states functions body.length).bindings = g.bindings := by
  obtain ⟨w, hw, hbindings, -⟩ := h.walk
  have hlast : f.states functions f.code.length = w :=
    states_of_stateAt (Walk.before_length hw)
  rw [← hbindings, ← hlast]
  rcases hending with rfl | ⟨loc, count, rfl⟩
  · rw [hcode, List.append_nil]
  · have hi : f.code[body.length]? = some ⟨loc, .unbind count⟩ := by
      rw [hcode, List.getElem?_concat_length]
    have hstep := h.passes.step_eq hi (by simp)
    simp only [Walk.step, Except.ok.injEq] at hstep
    rw [hcode, List.length_append, List.length_singleton, ← hstep]

theorem Checked.slot (h : Checked functions f g) (hread : ReadCode f.code f.bindings)
    {ip slot : Nat} {j : Instruction} {w : Walk} (hj : g.code[ip]? = some j)
    (hop : j.op = .pushBind slot) (hw : f.stateAt functions ip = some w) :
    slot < w.bound ∧ g.bindings[slot]? = w.bindings[slot]? := by
  obtain ⟨i, u, u', hi, hu, -, hresolve, hstep⟩ := h.instruction hj
  rw [hw, Option.some.injEq] at hu
  subst hu
  rw [hop] at hstep hresolve
  obtain ⟨b, _, hb, hkind, -⟩ := Walk.readSlot_eq_ok hstep
  obtain ⟨body, ending, hcode, -, htidy, hending⟩ := hread.split
  have hip : ip < body.length := by
    rcases Nat.lt_or_ge ip body.length with hlt | hge
    · exact hlt
    · rw [hcode, List.getElem?_append_right hge] at hi
      have hmem := List.mem_of_getElem? hi
      rcases hending with ⟨rfl, -⟩ | ⟨loc, rfl, -⟩
      · simp at hmem
      · rw [List.mem_singleton] at hmem
        rw [hmem] at hresolve
        simp [Walk.resolve] at hresolve
  have hstate := states_of_stateAt hw
  -- up to here only filled slots have kinds, and from here on they keep them
  have hfrom := h.fills hcode htidy.emitted (Nat.zero_le ip) (Nat.le_of_lt hip)
  have hto := h.fills hcode htidy.emitted (Nat.le_of_lt hip) (Nat.le_refl _)
  rw [hstate] at hfrom hto
  have hbound : slot < w.bound := by
    by_contra hge
    rw [hfrom.later slot (by omega)] at hb
    exact hkind (hread.fresh slot b hb).2
  refine ⟨hbound, ?_⟩
  rw [← hto.kept slot hbound, h.bindings_body hcode]
  rcases hending with ⟨hnil, -⟩ | ⟨loc, hone, -⟩
  · exact Or.inl hnil
  · exact Or.inr ⟨loc, _, hone⟩

theorem Checked.effect_of_edge (h : Checked functions f g) (hread : ReadCode f.code f.bindings)
    {ip ip' : Nat} (hedge : Edge g.code ip ip') :
    ∃ j w w', g.code[ip]? = some j ∧ f.stateAt functions ip = some w ∧
      f.stateAt functions ip' = some w' ∧
      j.op.effect functions g.bindings w.stack w.bound = .ok (w'.stack, w'.bound) := by
  have heffect : ∀ {j : Instruction}, g.code[ip]? = some j →
      ∃ w w', f.stateAt functions ip = some w ∧ f.stateAt functions (ip + 1) = some w' ∧
        j.op.effect functions g.bindings w.stack w.bound = .ok (w'.stack, w'.bound) := by
    intro j hj
    obtain ⟨i, w, w', -, hw, hw', -, hstep⟩ := h.instruction hj
    refine ⟨w, w', hw, hw', Walk.effect_of_step hstep ?_⟩
    intro slot hslot
    exact (h.slot hread hj hslot hw).2
  cases hedge with
  | @next j hj _ _ =>
    obtain ⟨w, w', hw, hw', heq⟩ := heffect hj
    exact ⟨j, w, w', hj, hw, hw', heq⟩
  | @target j _ hj ht =>
    obtain ⟨w, w', hw, hw', heq⟩ := heffect hj
    obtain ⟨hlt, hsame⟩ := h.target hread hj ht
    obtain ⟨u, hu⟩ := h.stateAt_of_le (Nat.le_of_lt hlt)
    rw [states_of_stateAt hu, states_of_stateAt hw'] at hsame
    refine ⟨j, w, u, hj, hw, hu, ?_⟩
    rw [heq, hsame.1, hsame.2]

theorem Checked.effects_of_path (h : Checked functions f g) (hread : ReadCode f.code f.bindings)
    {ip : Nat} {ops : List Op} (hpath : Path g.code ip ops) :
    ∃ w, f.stateAt functions ip = some w ∧
      Op.effects functions g.bindings ops g.args 0 = .ok (w.stack, w.bound) := by
  induction hpath with
  | start =>
    refine ⟨f.start, rfl, ?_⟩
    rw [h.args]
    rfl
  | edge _ hi hedge ih =>
    obtain ⟨w, hw, heffects⟩ := ih
    obtain ⟨j, u, u', hj, hu, hu', heffect⟩ := h.effect_of_edge hread hedge
    rw [hi, Option.some.injEq] at hj
    rw [hw, Option.some.injEq] at hu
    subst hj hu
    refine ⟨u', hu', ?_⟩
    unfold Op.effects at heffects ⊢
    rw [List.foldlM_append, heffects]
    simp only [bind, Except.bind, List.foldlM_cons, heffect, List.foldlM_nil]
    rfl

end Function

theorem Program.Validated.signature_eq {p q : Program} (h : p.Validated q) (n : Nat) :
    (q.functions[n]?).map (fun g => (g.name, g.args, g.rets)) =
      (p.functions[n]?).map (fun f => (f.name, f.args, f.rets)) := by
  cases hg : q.functions[n]? with
  | none =>
    rw [List.getElem?_eq_none_iff, h.length_eq, ← List.getElem?_eq_none_iff] at hg
    rw [hg]
  | some g =>
    obtain ⟨f, hf, hchecked⟩ := h.exists_checked hg
    simp only [hf, Option.map_some, hchecked.name, hchecked.args, hchecked.rets]

/--
The walk over a function of an accepted program has a state at every index. An instruction leaves
along every edge the kinds and the slots of the state where the edge leads, so all paths to an
index compute the same.
-/
theorem walk_agrees_with_control_flow {loader : Loader} {entry : String} {options : Options}
    {p q : Program} {warnings : List Diagnostic} (hparse : parse loader entry options = .ok p)
    (hvalid : p.validate = (q, .ok warnings)) {n : Nat} {f g : Function}
    (hf : p.functions[n]? = some f) (hg : q.functions[n]? = some g) :
    (∀ ip ≤ g.code.length, ∃ w, f.stateAt p.functions ip = some w) ∧
    (∀ ip ip', Edge g.code ip ip' → ∃ i w w', g.code[ip]? = some i ∧
      f.stateAt p.functions ip = some w ∧ f.stateAt p.functions ip' = some w' ∧
      i.op.effect q.functions g.bindings w.stack w.bound = .ok (w'.stack, w'.bound)) ∧
    (∀ ip ops, Path g.code ip ops → ∃ w, f.stateAt p.functions ip = some w ∧
      Op.effects q.functions g.bindings ops g.args 0 = .ok (w.stack, w.bound)) := by
  have haccepted := accepted_of_parse hparse hvalid
  have hchecked := haccepted.validated.checked_of_getElem? hf hg
  have hread := (haccepted.read n f hf).code
  have hcongr := Op.effect_congr haccepted.validated.signature_eq
  refine ⟨fun ip hip => hchecked.stateAt_of_le hip, ?_, ?_⟩
  · intro ip ip' hedge
    obtain ⟨i, w, w', hi, hw, hw', heffect⟩ := hchecked.effect_of_edge hread hedge
    refine ⟨i, w, w', hi, hw, hw', ?_⟩
    rw [hcongr, heffect]
  · intro ip ops hpath
    obtain ⟨w, hw, heffects⟩ := hchecked.effects_of_path hread hpath
    refine ⟨w, hw, ?_⟩
    rw [← heffects]
    unfold Op.effects
    congr 1
    funext s op
    apply hcongr

theorem walk_agrees_with_control_flow_collatz : ∃ p q warnings f g,
    parse collatz.loader "main" { library := false } = .ok p ∧ p.validate = (q, .ok warnings) ∧
      p.functions[0]? = some f ∧ q.functions[0]? = some g ∧
      ∀ ip ops, Path g.code ip ops → ∃ w, f.stateAt p.functions ip = some w ∧
        Op.effects q.functions g.bindings ops g.args 0 = .ok (w.stack, w.bound) := by
  obtain ⟨p, q, warnings, f, g, hparse, hvalid, hf, hg⟩ := exists_collatz
  exact ⟨p, q, warnings, f, g, hparse, hvalid, hf, hg,
    (walk_agrees_with_control_flow hparse hvalid hf hg).2.2⟩

end StackLang
