import StackLang.Proofs.InternalErrors
import StackLang.Proofs.Machine

/-!
This module contains the safety of the operand stack: when an accepted program runs, every
activation finds on the stack as many operands of its own as the walk over its function has kinds,
and no step misses an operand, a slot, a jump target or a function.
-/

namespace StackLang

def Op.takes : Op → Nat
  | prim p => p.signature.args.length
  | cast _ | branch _ => 1
  | bind count => count
  | syscall arity => arity.toNat + 1
  | _ => 0

def Op.leaves : Op → Nat
  | pushInt _ | pushBool _ | pushChar _ | pushStr _ | pushPtr _ | pushBind _ | cast _
  | syscall _ => 1
  | prim p => p.signature.rets.length
  | _ => 0

namespace Walk

theorem length_of_push {stack results stack' : List Kind} (h : push stack results = .ok stack') :
    stack'.length = stack.length + results.length := by
  rw [eq_append_of_push h, List.length_append]

theorem length_expand_prim (p : Prim) :
    (p.signature.expand 0).length = p.signature.args.length := by
  cases p <;> rfl

theorem length_of_apply {op : Op} {stack taken stack' : List Kind}
    (h : apply op stack = .ok (taken, stack')) :
    op.takes ≤ stack.length ∧ stack'.length + op.takes = stack.length + op.leaves := by
  obtain ⟨sig, s, rets, hsig, hmatch, -, hrets, hstack⟩ := apply_eq_ok h
  have hargs : (sig.expand op.variadicCount).length = op.takes := by
    cases op with
    | prim p =>
      simp only [Op.signature?, Option.some.injEq] at hsig
      subst hsig
      exact length_expand_prim p
    | cast _ | branch _ | bind _ | syscall _ =>
      simp only [Op.signature?, Option.some.injEq] at hsig
      subst hsig
      simp [Signature.expand, Op.variadicCount, Op.takes]
    | _ => simp [Op.signature?] at hsig
  have hleaves : sig.rets.length = op.leaves := by
    cases op with
    | prim _ | cast _ | branch _ | bind _ | syscall _ =>
      simp only [Op.signature?, Option.some.injEq] at hsig
      subst hsig
      rfl
    | _ => simp [Op.signature?] at hsig
  have hle := length_le_of_matchArgs hmatch
  rw [hargs] at hle hstack
  refine ⟨hle, ?_⟩
  rw [hstack, List.length_append, length_belowKinds, hrets, hleaves]
  omega

theorem length_of_step {functions : List Function} {w w' : Walk} {op : Op}
    (h : step functions w op = .ok w') (hcall : ∀ entry, op ≠ .call entry) :
    op.takes ≤ w.stack.length ∧ w'.stack.length + op.takes = w.stack.length + op.leaves := by
  -- what a step leaves is an effect, so the cases are those of effects
  have heffect : op.effect functions w.bindings w.stack w.bound = .ok (w'.stack, w'.bound) :=
    effect_of_step h fun _ _ => rfl
  cases op with
  | pushInt _ | pushBool _ | pushChar _ | pushStr _ | pushPtr _ =>
    obtain ⟨stack, hpush, heq⟩ := eq_of_map_eq_ok heffect
    simp only [Prod.mk.injEq] at heq
    rw [← heq.1, length_of_push hpush]
    exact ⟨Nat.zero_le _, rfl⟩
  | pushBind slot =>
    simp only [Op.effect] at heffect
    split at heffect
    · simp at heffect
    · obtain ⟨stack, hpush, heq⟩ := eq_of_map_eq_ok heffect
      simp only [Prod.mk.injEq] at heq
      rw [← heq.1, length_of_push hpush]
      exact ⟨Nat.zero_le _, rfl⟩
  | enter _ | leave _ | otherwise _ | jump _ | unbind _ =>
    simp only [Op.effect, Except.ok.injEq, Prod.mk.injEq] at heffect
    rw [← heffect.1]
    exact ⟨Nat.zero_le _, rfl⟩
  | word name => simp [Op.effect] at heffect
  | call entry => exact absurd rfl (hcall entry)
  | prim _ | cast _ | syscall _ | branch _ | bind _ =>
    obtain ⟨r, happly, heq⟩ := eq_of_map_eq_ok heffect
    simp only [Prod.mk.injEq] at heq
    rw [← heq.1]
    exact length_of_apply happly

theorem length_of_step_call {functions : List Function} {w w' : Walk} {entry : Nat}
    (h : step functions w (.call entry) = .ok w') :
    ∃ f, functions[entry]? = some f ∧ f.args.length ≤ w.stack.length ∧
      w'.stack.length + f.args.length = w.stack.length + f.rets.length := by
  obtain ⟨stack, hcall, rfl⟩ := goOn_eq_ok h
  obtain ⟨f, s, hf, hmatch, rfl⟩ := call_eq_ok hcall
  have hle := length_le_of_matchArgs hmatch
  refine ⟨f, hf, hle, ?_⟩
  rw [List.length_append, length_belowKinds, Substitution.length_applyAll]
  omega

end Walk

namespace Machine

/-- Faults that depend on the values of operands, which nothing checks. -/
def Fault.Unchecked (why : Fault) : Prop := why = .division ∨ why = .access

theorem prim_append {env : Env} {m : Store} {p : Prim} {own : List Word} (rest : List Word)
    (h : p.signature.args.length ≤ own.length) :
    prim env m p (own ++ rest) = (prim env m p own).map fun r => (r.1 ++ rest, r.2) := by
  cases p <;> rcases own with _ | ⟨a, _ | ⟨b, _ | ⟨c, own⟩⟩⟩ <;>
    simp [Prim.signature] at h <;>
    simp only [prim, compare, binary, divide, List.cons_append] <;> (try split) <;> rfl

theorem length_of_prim {env : Env} {m m' : Store} {p : Prim} {stack stack' : List Word}
    (h : prim env m p stack = .ok (stack', m')) :
    stack'.length + p.signature.args.length = stack.length + p.signature.rets.length := by
  cases p <;> rcases stack with _ | ⟨a, _ | ⟨b, _ | ⟨c, stack⟩⟩⟩ <;>
    simp only [prim, compare, binary, divide] at h <;> (try split at h) <;>
    simp only [Except.ok.injEq, Prod.mk.injEq, reduceCtorEq] at h <;>
    (obtain ⟨rfl, -⟩ := h) <;> rfl

theorem unchecked_of_prim {env : Env} {m : Store} {p : Prim} {stack : List Word} {why : Fault}
    (h : prim env m p stack = .error why) (hle : p.signature.args.length ≤ stack.length) :
    why.Unchecked := by
  cases p <;> rcases stack with _ | ⟨a, _ | ⟨b, _ | ⟨c, stack⟩⟩⟩ <;>
    simp [Prim.signature] at hle <;>
    simp only [prim, compare, binary, divide] at h <;> (try split at h) <;>
    simp only [Except.error.injEq, reduceCtorEq] at h <;>
    (subst h) <;> simp [Fault.Unchecked]

theorem exec_append {env : Env} {own slots : List Word} {m : Store} {op : Op} (rest : List Word)
    (h : op.takes ≤ own.length) :
    exec env ⟨own ++ rest, slots, m⟩ op =
      (exec env ⟨own, slots, m⟩ op).map fun s => { s with stack := s.stack ++ rest } := by
  cases op with
  | prim p =>
    simp only [exec]
    rw [prim_append rest h]
    cases prim env m p own with
    | error why => rfl
    | ok r => rfl
  | cast kind =>
    cases own with
    | nil => simp [Op.takes] at h
    | cons a own => rfl
  | bind count =>
    simp only [Op.takes] at h
    simp only [exec]
    rw [if_neg (by rw [List.length_append]; omega), if_neg (by omega),
      List.take_append_of_le_length h, List.drop_append_of_le_length h]
    rfl
  | unbind count =>
    simp only [exec]
    split
    · rfl
    · rfl
  | pushBind slot =>
    simp only [exec]
    split
    · rfl
    · rfl
  | _ => rfl

theorem length_of_exec {env : Env} {s s' : Local} {op : Op} (h : exec env s op = .ok s')
    (hlocal : op.isLocal = true) :
    s'.stack.length + op.takes = s.stack.length + op.leaves ∧
      s'.slots.length = Assembly.boundAfter s.slots.length op := by
  cases op with
  | prim p =>
    simp only [exec] at h
    split at h
    · simp at h
    · next hprim =>
      simp only [Except.ok.injEq] at h
      subst h
      exact ⟨length_of_prim hprim, rfl⟩
  | cast kind =>
    simp only [exec] at h
    split at h
    · simp at h
    · simp only [Except.ok.injEq] at h
      subst h
      exact ⟨rfl, rfl⟩
  | bind count =>
    simp only [exec] at h
    split at h
    · simp at h
    · simp only [Except.ok.injEq] at h
      subst h
      simp only [Op.takes, Op.leaves, Assembly.boundAfter, List.length_drop, List.length_append,
        List.length_reverse, List.length_take]
      omega
  | unbind count =>
    simp only [exec] at h
    split at h
    · simp at h
    · simp only [Except.ok.injEq] at h
      subst h
      refine ⟨rfl, ?_⟩
      simp only [Assembly.boundAfter, List.length_take]
      exact Nat.min_eq_left (Nat.sub_le _ _)
  | pushBind slot =>
    simp only [exec] at h
    split at h
    · simp at h
    · simp only [Except.ok.injEq] at h
      subst h
      exact ⟨rfl, rfl⟩
  | word name => simp [exec] at h
  | branch _ | otherwise _ | jump _ | call _ | syscall _ => simp [Op.isLocal] at hlocal
  | pushInt _ | pushBool _ | pushChar _ | pushStr _ | pushPtr _ | enter _ | leave _ =>
    simp only [exec, Except.ok.injEq] at h
    subst h
    exact ⟨rfl, rfl⟩

theorem unchecked_of_exec {env : Env} {s : Local} {op : Op} {why : Fault}
    (h : exec env s op = .error why) (htakes : op.takes ≤ s.stack.length)
    (hslot : ∀ slot, op = .pushBind slot → slot < s.slots.length)
    (hunbind : ∀ count, op = .unbind count → count ≤ s.slots.length)
    (hword : ∀ name, op ≠ .word name) : why.Unchecked := by
  cases op with
  | prim p =>
    simp only [exec] at h
    split at h
    · next hprim =>
      simp only [Except.error.injEq] at h
      subst h
      exact unchecked_of_prim hprim htakes
    · simp at h
  | cast kind =>
    simp only [exec] at h
    split at h
    · next hempty =>
      rw [List.isEmpty_iff] at hempty
      simp [hempty, Op.takes] at htakes
    · simp at h
  | bind count =>
    simp only [Op.takes] at htakes
    simp only [exec, if_neg (Nat.not_lt.mpr htakes)] at h
    simp at h
  | unbind count =>
    simp only [exec, if_neg (Nat.not_lt.mpr (hunbind count rfl))] at h
    simp at h
  | pushBind slot =>
    simp only [exec, List.getElem?_eq_getElem (hslot slot rfl)] at h
    simp at h
  | word name => exact absurd rfl (hword name)
  | _ => simp [exec] at h

end Machine

namespace Function

structure Site (functions : List Function) (f g : Function) (ip : Nat) (op : Op) (w w' : Walk) :
    Prop where
  after : f.stateAt functions (ip + 1) = some w'
  step : Walk.step functions w op = .ok w'
  target : ∀ t, op.target? = some t →
    t < g.code.length ∧ ∃ u, f.stateAt functions t = some u ∧ Walk.Same u w'
  slot : ∀ slot, op = .pushBind slot → slot < w.bound
  unbind : ∀ count, op = .unbind count → count ≤ w.bound
  word : ∀ name, op ≠ .word name

variable {functions : List Function} {f g : Function}

theorem Readable.bound_of_body (hf : f.Readable functions) {body ending : List Instruction}
    {w : Walk} (hcode : f.code = body ++ ending) (hbody : Nested 0 body)
    (htidy : Tidy f.bindings.length body) (hw : f.stateAt functions body.length = some w) :
    w.bound = f.bindings.length := by
  have hproper := hf.proper_body hcode hbody htidy
  rw [stateAt, Walk.before_eq_some, hcode, List.take_left] at hw
  rw [Walk.Proper, hw] at hproper
  exact hproper.2.bound

theorem Checked.unbind_le (h : Checked functions f g) (hf : f.Readable functions) {ip count : Nat}
    {j : Instruction} {w : Walk} (hj : g.code[ip]? = some j) (hop : j.op = .unbind count)
    (hw : f.stateAt functions ip = some w) : count ≤ w.bound := by
  obtain ⟨i, _, _, hi, -, -, hresolve, -⟩ := h.instruction hj
  have hunbind : i.op = .unbind count := by
    rw [← Walk.eq_of_resolve hresolve (by simp [hop]), hop]
  obtain ⟨body, ending, hcode, hbody, htidy, hending⟩ := hf.read.split
  rw [hcode, List.getElem?_append] at hi
  split at hi
  · -- reading emits the operation nowhere else
    have hemitted := htidy.emitted i (List.mem_of_getElem? hi)
    rw [hunbind] at hemitted
    exact absurd hemitted id
  · next hge =>
    rcases hending with ⟨rfl, -⟩ | ⟨loc, rfl, -⟩
    · simp at hi
    · have hip : ip = body.length := by
        have := (List.getElem?_eq_some_iff.mp hi).1
        simp only [List.length_singleton] at this
        omega
      subst hip
      rw [Nat.sub_self, List.getElem?_cons_zero, Option.some.injEq] at hi
      have hcount : f.bindings.length = count := by
        rw [← hi] at hunbind
        simpa using hunbind
      rw [hf.bound_of_body hcode hbody htidy hw]
      omega

theorem Checked.bound_of_end (h : Checked functions f g) (hf : f.Readable functions) {w : Walk}
    (hw : f.stateAt functions g.code.length = some w) : w.bound = 0 := by
  obtain ⟨body, ending, hcode, hbody, htidy, hending⟩ := hf.read.split
  have hlength := h.length_code
  rw [hcode, List.length_append] at hlength
  rcases hending with ⟨rfl, hnil⟩ | ⟨loc, rfl, -⟩
  · rw [hlength] at hw
    rw [hf.bound_of_body hcode hbody htidy hw, hnil]
    rfl
  · have hlast : body.length < g.code.length := by
      rw [hlength]
      exact Nat.lt_succ_self _
    obtain ⟨i, u, u', hi, hu, hu', hresolve, hstep⟩ :=
      h.instruction (List.getElem?_eq_getElem hlast)
    rw [hlength, List.length_singleton, hu', Option.some.injEq] at hw
    rw [hcode, List.getElem?_concat_length, Option.some.injEq] at hi
    subst hi hw
    have hbound := Walk.bound_of_step hstep
    rcases Walk.resolve_eq_ok hresolve with ⟨hop, -⟩ | ⟨_, _, _, hword, -⟩
    · rw [hop, hf.bound_of_body hcode hbody htidy hu] at hbound
      rw [hbound]
      exact Nat.sub_self _
    · simp at hword

theorem Checked.site (h : Checked functions f g) (hf : f.Readable functions) {ip : Nat}
    {j : Instruction} {w : Walk} (hj : g.code[ip]? = some j)
    (hw : f.stateAt functions ip = some w) : ∃ w', Site functions f g ip j.op w w' := by
  obtain ⟨_, u, w', -, hu, hw', -, hstep⟩ := h.instruction hj
  rw [hw, Option.some.injEq] at hu
  subst hu
  refine ⟨w', hw', hstep, ?_, ?_, ?_, ?_⟩
  · intro t ht
    obtain ⟨hlt, hsame⟩ := h.target hf.read hj ht
    obtain ⟨u, hu⟩ := h.stateAt_of_le (Nat.le_of_lt hlt)
    rw [states_of_stateAt hu, states_of_stateAt hw'] at hsame
    exact ⟨hlt, u, hu, hsame⟩
  · intro slot hslot
    exact (h.slot hf.read hj hslot hw).1
  · intro count hcount
    exact h.unbind_le hf hj hcount hw
  · intro name
    exact h.ne_word (List.mem_of_getElem? hj) name

theorem Checked.length_stack_of_end (h : Checked functions f g) {w : Walk}
    (hw : f.stateAt functions g.code.length = some w) : w.stack.length = g.rets.length := by
  obtain ⟨u, hu, -, -, hlength⟩ := h.walk
  rw [h.length_code, stateAt, Walk.before_length hu, Option.some.injEq] at hw
  rw [← hw, hlength, h.rets]

end Function

theorem Accepted.site {p q : Program} (h : Accepted p q) {n ip : Nat} {f g : Function}
    {j : Instruction} {w : Walk} (hf : p.functions[n]? = some f) (hg : q.functions[n]? = some g)
    (hj : g.code[ip]? = some j) (hw : f.stateAt p.functions ip = some w) :
    ∃ w', Function.Site p.functions f g ip j.op w w' := by
  have hreadable := readable_of_wellRead h.read h.words f (List.mem_of_getElem? hf)
  exact (h.validated.checked_of_getElem? hf hg).site hreadable hj hw

theorem Accepted.of_stateAt {p q : Program} (h : Accepted p q) {n : Nat} {f g : Function}
    (hf : p.functions[n]? = some f) (hg : q.functions[n]? = some g) {inv : Walk → Prop}
    (hstart : inv f.start)
    (hstep : ∀ (ip : Nat) (j : Instruction) (w w' : Walk), g.code[ip]? = some j →
      Function.Site p.functions f g ip j.op w w' → inv w → inv w')
    {ip : Nat} (hip : ip ≤ g.code.length) {w : Walk} (hw : f.stateAt p.functions ip = some w) :
    inv w := by
  induction ip generalizing w with
  | zero =>
    rw [Function.stateAt, Walk.before_zero, Option.some.injEq] at hw
    rw [← hw]
    exact hstart
  | succ ip ih =>
    have hj := List.getElem?_eq_getElem (show ip < g.code.length from hip)
    obtain ⟨u, hu⟩ := (h.validated.checked_of_getElem? hf hg).stateAt_of_le (Nat.le_of_lt hip)
    obtain ⟨w', hsite⟩ := h.site hf hg hj hu
    have hafter := hsite.after
    rw [hw, Option.some.injEq] at hafter
    subst hafter
    exact hstep ip _ u w hj hsite (ih (Nat.le_of_lt hip) hu)

namespace Machine

/--
Activations that wait for `n` more operands on top of those on the stack. Each has the rest of what
the walk has at its instruction, above what its caller has left.
-/
inductive Waiting (p q : Program) : List Activation → Nat → List Word → Prop
  | nil : Waiting p q [] 0 []
  | cons {f callers n own f₀ g w} (hread : p.functions[f.entry]? = some f₀)
      (hchecked : q.functions[f.entry]? = some g) (hstate : f₀.stateAt p.functions f.ip = some w)
      (hip : f.ip ≤ g.code.length) (hown : own.length + n = w.stack.length)
      (hslots : f.slots.length = w.bound) (hcallers : Waiting p q callers g.rets.length f.rest) :
      Waiting p q (f :: callers) n (own ++ f.rest)

def Sound (p q : Program) (c : Config) : Prop := Waiting p q c.frames 0 c.stack

section

variable {p q : Program} {env : Env} {f₀ g : Function} {f : Activation} {callers : List Activation}
  {op : Op} {w w' : Walk}

theorem unchecked_of_perform (hvalid : p.Validated q)
    (hsite : Function.Site p.functions f₀ g f.ip op w w') {c : Config}
    (hstack : w.stack.length ≤ c.stack.length) (hslots : f.slots.length = w.bound) {why : Fault}
    (h : perform q env c g f callers op = .fault why) : why.Unchecked := by
  have hjump : ∀ t c, op.target? = some t → jump c g f t callers ≠ .fault why := by
    intro t c ht
    rw [jump, if_pos (hsite.target t ht).1]
    simp
  cases op with
  | branch t =>
    have htakes := (Walk.length_of_step hsite.step (by simp)).1
    cases hc : c.stack with
    | nil =>
      rw [hc] at hstack
      simp only [Op.takes, List.length_nil] at htakes hstack
      omega
    | cons v stack =>
      simp only [perform, hc] at h
      split at h
      · exact absurd h (hjump t _ rfl)
      · simp at h
  | otherwise t | jump t => exact absurd h (hjump t c rfl)
  | call entry =>
    obtain ⟨callee₀, hcallee₀, hargs, -⟩ := Walk.length_of_step_call hsite.step
    obtain ⟨callee, hcallee, hchecked⟩ := hvalid.exists_of_read hcallee₀
    rw [← hchecked.args] at hargs
    simp only [perform, hcallee, if_neg (Nat.not_lt.mpr (Nat.le_trans hargs hstack))] at h
    simp at h
  | syscall arity =>
    have htakes := (Walk.length_of_step hsite.step (by simp)).1
    simp only [Op.takes] at htakes
    cases hc : c.stack with
    | nil =>
      rw [hc, List.length_nil] at hstack
      omega
    | cons number stack =>
      rw [hc, List.length_cons] at hstack
      simp only [perform, hc, if_neg (show ¬ stack.length < arity.toNat by omega)] at h
      simp at h
  | _ =>
    rw [perform_of_isLocal rfl] at h
    split at h
    · next hexec =>
      simp only [Outcome.fault.injEq] at h
      subst h
      have htakes := (Walk.length_of_step hsite.step (by simp)).1
      apply unchecked_of_exec hexec (Nat.le_trans htakes hstack)
      · intro slot hslot
        have := hsite.slot slot hslot
        simp only
        omega
      · intro count hcount
        have := hsite.unbind count hcount
        simp only
        omega
      · exact hsite.word
    · simp at h

theorem Waiting.goOn (hread : p.functions[f.entry]? = some f₀)
    (hchecked : q.functions[f.entry]? = some g) {ip : Nat} {u : Walk}
    (hstate : f₀.stateAt p.functions ip = some u) (hip : ip ≤ g.code.length) {own : List Word}
    (hown : own.length = u.stack.length) {slots : List Word} (hslots : slots.length = u.bound)
    (hcallers : Waiting p q callers g.rets.length f.rest) :
    Waiting p q ({ f with ip, slots } :: callers) 0 (own ++ f.rest) :=
  Waiting.cons (f := { f with ip, slots }) hread hchecked hstate hip hown hslots hcallers

theorem sound_of_call (hvalid : p.Validated q) (hread : p.functions[f.entry]? = some f₀)
    (hchecked : q.functions[f.entry]? = some g) (hip : f.ip < g.code.length) {entry : Nat}
    (hsite : Function.Site p.functions f₀ g f.ip (.call entry) w w') {own : List Word} {m : Store}
    (hown : own.length = w.stack.length) (hslots : f.slots.length = w.bound)
    (hcallers : Waiting p q callers g.rets.length f.rest) :
    (perform q env ⟨own ++ f.rest, f :: callers, m⟩ g f callers (.call entry)).All
      (Sound p q) := by
  have hbound := Walk.bound_of_step hsite.step
  obtain ⟨callee₀, hcallee₀, hargs, hlength⟩ := Walk.length_of_step_call hsite.step
  obtain ⟨callee, hcallee, hcheck⟩ := hvalid.exists_of_read hcallee₀
  rw [← hcheck.args] at hargs hlength
  rw [← hcheck.rets] at hlength
  simp only [perform, hcallee]
  rw [if_neg (by rw [List.length_append]; omega)]
  have hdrop : (own ++ f.rest).drop callee.args.length =
      own.drop callee.args.length ++ f.rest :=
    List.drop_append_of_le_length (by omega)
  -- the caller waits for the results on top of what it keeps
  have hcaller : Waiting p q ({ f with ip := f.ip + 1 } :: callers) callee.rets.length
      ((own ++ f.rest).drop callee.args.length) := by
    rw [hdrop]
    apply Waiting.cons (f := { f with ip := f.ip + 1 }) hread hchecked hsite.after hip _ _
      hcallers
    · rw [List.length_drop]
      omega
    · rw [hbound]
      exact hslots
  have hstack : own ++ f.rest = own.take callee.args.length ++
      (own ++ f.rest).drop callee.args.length := by
    rw [hdrop, ← List.append_assoc, List.take_append_drop]
  unfold Outcome.All Sound Config.goTo
  simp only
  nth_rewrite 2 [hstack]
  apply Waiting.cons (f := ⟨entry, 0, [], (own ++ f.rest).drop callee.args.length⟩) hcallee₀
    hcallee rfl (Nat.zero_le _) _ rfl hcaller
  simp only [List.length_take, hcheck.args, Function.start]
  rw [hcheck.args] at hargs
  omega

theorem sound_of_perform (hvalid : p.Validated q) (hread : p.functions[f.entry]? = some f₀)
    (hchecked : q.functions[f.entry]? = some g) (hip : f.ip < g.code.length)
    (hsite : Function.Site p.functions f₀ g f.ip op w w') {own : List Word} {m : Store}
    (hown : own.length = w.stack.length) (hslots : f.slots.length = w.bound)
    (hcallers : Waiting p q callers g.rets.length f.rest) :
    (perform q env ⟨own ++ f.rest, f :: callers, m⟩ g f callers op).All (Sound p q) := by
  have hbound := Walk.bound_of_step hsite.step
  have hjump : ∀ t own', op.target? = some t → own'.length = w'.stack.length →
      w'.bound = w.bound →
      (jump ⟨own' ++ f.rest, f :: callers, m⟩ g f t callers).All (Sound p q) := by
    intro t own' ht hown' hsame
    obtain ⟨hlt, u, hu, hstack, hbound'⟩ := hsite.target t ht
    rw [jump, if_pos hlt]
    apply Waiting.goOn hread hchecked hu (Nat.le_of_lt hlt) _ _ hcallers
    · rw [hown', hstack]
    · rw [hslots, hbound', hsame]
  cases op with
  | branch t =>
    obtain ⟨htakes, hlength⟩ := Walk.length_of_step hsite.step (by simp)
    simp only [Op.takes, Op.leaves] at htakes hlength
    cases own with
    | nil =>
      simp only [List.length_nil] at hown
      omega
    | cons v own =>
      simp only [List.length_cons] at hown
      simp only [perform, List.cons_append]
      split
      · exact hjump t own rfl (by omega) hbound
      · apply Waiting.goOn hread hchecked hsite.after hip _ _ hcallers
        · omega
        · rw [hslots, hbound]
          rfl
  | otherwise t | jump t =>
    obtain ⟨-, hlength⟩ := Walk.length_of_step hsite.step (by simp)
    simp only [Op.takes, Op.leaves] at hlength
    exact hjump t own rfl (by omega) hbound
  | call entry => exact sound_of_call hvalid hread hchecked hip hsite hown hslots hcallers
  | syscall arity =>
    obtain ⟨htakes, hlength⟩ := Walk.length_of_step hsite.step (by simp)
    simp only [Op.takes, Op.leaves] at htakes hlength
    cases own with
    | nil =>
      simp only [List.length_nil] at hown
      omega
    | cons number own =>
      simp only [List.length_cons] at hown
      simp only [perform, List.cons_append]
      rw [if_neg (by rw [List.length_append]; omega)]
      intro reply
      unfold Sound Config.goTo
      simp only
      rw [List.drop_append_of_le_length (by omega), ← List.cons_append]
      apply Waiting.goOn hread hchecked hsite.after hip _ _ hcallers
      · rw [List.length_cons, List.length_drop]
        omega
      · rw [hslots, hbound]
        rfl
  | _ =>
    obtain ⟨htakes, hlength⟩ := Walk.length_of_step hsite.step (by simp)
    rw [perform_of_isLocal rfl]
    simp only
    -- what lies below the operands it takes makes no difference to an operation
    rw [exec_append f.rest (by omega)]
    cases hexec : exec env ⟨own, f.slots, m⟩ _ with
    | error why => trivial
    | ok s =>
      obtain ⟨hstack', hslots'⟩ := length_of_exec hexec rfl
      simp only at hstack' hslots'
      apply Waiting.goOn hread hchecked hsite.after hip _ _ hcallers
      · omega
      · rw [hslots', hslots, hbound]

end

theorem Waiting.arrive {p q : Program} {frames : List Activation} {n : Nat}
    {results stack : List Word} (h : Waiting p q frames n stack) (hn : results.length = n) :
    Waiting p q frames 0 (results ++ stack) := by
  cases h with
  | nil =>
    rw [List.eq_nil_of_length_eq_zero hn]
    exact Waiting.nil
  | cons hread hchecked hstate hip hown hslots hcallers =>
    rw [← List.append_assoc]
    apply Waiting.cons hread hchecked hstate hip _ hslots hcallers
    rw [List.length_append]
    omega

theorem Sound.exists {p q : Program} {c : Config} (h : Sound p q c) {f : Activation}
    {callers : List Activation} (hc : c.frames = f :: callers) :
    ∃ f₀ g w own, p.functions[f.entry]? = some f₀ ∧ q.functions[f.entry]? = some g ∧
      f₀.stateAt p.functions f.ip = some w ∧ f.ip ≤ g.code.length ∧ c.stack = own ++ f.rest ∧
      own.length = w.stack.length ∧ f.slots.length = w.bound ∧
      Waiting p q callers g.rets.length f.rest := by
  unfold Sound at h
  rw [hc] at h
  generalize hstack : c.stack = stack at h
  cases h with
  | cons hread hchecked hstate hip hown hslots hcallers =>
    exact ⟨_, _, _, _, hread, hchecked, hstate, hip, rfl, hown, hslots, hcallers⟩

section

variable {p q : Program} {env : Env}

theorem unchecked_of_step (haccepted : Accepted p q) {c : Config} {f : Activation}
    {callers : List Activation} (hc : c.frames = f :: callers) {f₀ g : Function} {w : Walk}
    (hread : p.functions[f.entry]? = some f₀) (hchecked : q.functions[f.entry]? = some g)
    (hstate : f₀.stateAt p.functions f.ip = some w) (hip : f.ip ≤ g.code.length)
    (hstack : w.stack.length ≤ c.stack.length) (hslots : f.slots.length = w.bound) {why : Fault}
    (h : step q env c = .fault why) : why.Unchecked := by
  unfold step at h
  simp only [hc, hchecked] at h
  split at h
  · next i hi =>
    obtain ⟨w', hsite⟩ := haccepted.site hread hchecked hi hstate
    exact unchecked_of_perform haccepted.validated hsite hstack hslots h
  · next hi =>
    rw [List.getElem?_eq_none_iff] at hi
    rw [if_pos (by omega)] at h
    simp at h

theorem Sound.step (env : Env) (haccepted : Accepted p q) {c : Config} (h : Sound p q c) :
    (step q env c).All (Sound p q) := by
  unfold Machine.step
  rcases hc : c.frames with _ | ⟨f, callers⟩
  · trivial
  · obtain ⟨f₀, g, w, own, hread, hchecked, hstate, hip, hstack, hown, hslots, hcallers⟩ :=
      h.exists hc
    simp only [hchecked]
    cases hi : g.code[f.ip]? with
    | some i =>
      obtain ⟨w', hsite⟩ := haccepted.site hread hchecked hi hstate
      have hlt := (List.getElem?_eq_some_iff.mp hi).1
      have hconfig : c = ⟨own ++ f.rest, f :: callers, c.memory⟩ := by
        rw [← hstack, ← hc]
      rw [hconfig]
      exact sound_of_perform haccepted.validated hread hchecked hlt hsite hown hslots hcallers
    | none =>
      have hend : f.ip = g.code.length := by
        rw [List.getElem?_eq_none_iff] at hi
        omega
      rw [hend] at hstate
      simp only [hend, if_true]
      unfold Outcome.All Sound
      simp only
      rw [hstack]
      -- the operands that are left are the results its caller waits for
      apply hcallers.arrive
      have hcheck := haccepted.validated.checked_of_getElem? hread hchecked
      rw [hown, hcheck.length_stack_of_end hstate]

theorem Sound.initial (haccepted : Accepted p q) {main : Function} (hmain : q.main? = some main)
    (memory : Store) : Sound p q (.initial main.entry memory) := by
  obtain ⟨m, hm, hchecked, -⟩ := haccepted.validated.main
  rw [hmain, Option.some.injEq] at hm
  subst hm
  obtain ⟨f₀, hread, hcheck⟩ := haccepted.validated.exists_checked hchecked
  have hname : f₀.name = "main" := by
    rw [← hcheck.name]
    simpa using List.find?_some hmain
  obtain ⟨hargs, hrets⟩ := hcheck.main hname
  have hcallers : Waiting p q [] main.rets.length [] := by
    rw [hcheck.rets, hrets]
    exact Waiting.nil
  have hown : ([] : List Word).length + 0 = f₀.start.stack.length := by
    rw [Function.start, hargs]
    rfl
  exact Waiting.cons (f := ⟨main.entry, 0, [], []⟩) hread hchecked rfl (Nat.zero_le _) hown rfl
    hcallers

theorem Sound.run (haccepted : Accepted p q) {ok : Config → Prop} {c d : Config}
    {trace : List (SystemCall × Reply)} (h : Sound p q c)
    (hrun : Run (Machine.step q env) ok c trace d) : Sound p q d := by
  apply hrun.invariant h
  intro s hs
  exact (hs.step env haccepted).mono fun _ hs' _ => hs'

end

def Activation.SameCall (f f' : Activation) : Prop := f'.entry = f.entry ∧ f'.rest = f.rest

/--
What a step can make of the activations: it goes on in the innermost one, calls from it, or returns
from it.
-/
def Advances (q : Program) (c : Config) (f : Activation) (callers : List Activation)
    (c' : Config) : Prop :=
  (∃ f', c'.frames = f' :: callers ∧ f.SameCall f') ∨
  (∃ callee g i, c'.frames = callee :: { f with ip := f.ip + 1 } :: callers ∧
    q.functions[f.entry]? = some g ∧ g.code[f.ip]? = some i ∧ i.op = .call callee.entry) ∨
  (c' = { c with frames := callers } ∧
    ∃ g, q.functions[f.entry]? = some g ∧ f.ip = g.code.length)

theorem advances_of_step (q : Program) (env : Env) {c : Config} {f : Activation}
    {callers : List Activation} (hc : c.frames = f :: callers) :
    (step q env c).All (Advances q c f callers) := by
  unfold step
  rw [hc]
  simp only
  split
  · trivial
  · next g hg =>
    have hjump : ∀ (d : Config) (t : Nat),
        (jump d g f t callers).All (Advances q c f callers) := by
      intro d t
      unfold jump
      split
      · exact Or.inl ⟨_, rfl, rfl, rfl⟩
      · trivial
    split
    · next i hi =>
      cases hop : i.op with
      | branch t =>
        simp only [perform]
        split
        · trivial
        · split
          · exact hjump _ t
          · exact Or.inl ⟨_, rfl, rfl, rfl⟩
      | otherwise t | jump t => exact hjump c t
      | call e =>
        simp only [perform]
        split
        · trivial
        · split
          · trivial
          · exact Or.inr (Or.inl ⟨_, g, i, rfl, hg, hi, hop⟩)
      | syscall arity =>
        simp only [perform]
        split
        · trivial
        · split
          · trivial
          · exact fun _ => Or.inl ⟨_, rfl, rfl, rfl⟩
      | _ =>
        rw [perform_of_isLocal rfl]
        split
        · trivial
        · exact Or.inl ⟨_, rfl, rfl, rfl⟩
    · split
      · next hend => exact Or.inr (Or.inr ⟨rfl, g, hg, hend⟩)
      · trivial

/-- The call `f` goes on below the innermost activations, above its callers. -/
def Running (f : Activation) (callers : List Activation) (c : Config) : Prop :=
  ∃ inner f', c.frames = inner ++ f' :: callers ∧ f.SameCall f'

theorem running_of_step (q : Program) (env : Env) {f : Activation} {callers : List Activation}
    {c : Config} (h : Running f callers c) :
    (step q env c).All fun c' => callers.length < c'.frames.length → Running f callers c' := by
  obtain ⟨inner, f', hc, hsame⟩ := h
  cases inner with
  | nil =>
    apply (advances_of_step q env hc).mono
    rintro c' (⟨f'', hc', hsame'⟩ | ⟨callee, _, _, hc', -⟩ | ⟨hc', -⟩) hlength
    · exact ⟨[], f'', hc', hsame'.1.trans hsame.1, hsame'.2.trans hsame.2⟩
    · exact ⟨[callee], _, hc', hsame⟩
    · rw [hc'] at hlength
      exact absurd hlength (Nat.lt_irrefl _)
  | cons k inner =>
    apply (advances_of_step q env hc).mono
    rintro c' (⟨k', hc', -⟩ | ⟨callee, _, _, hc', -⟩ | ⟨hc', -⟩) _
    · exact ⟨k' :: inner, f', hc', hsame⟩
    · exact ⟨callee :: { k with ip := k.ip + 1 } :: inner, f', hc', hsame⟩
    · rw [hc']
      exact ⟨inner, f', rfl, hsame⟩

theorem running_of_run {q : Program} {env : Env} {f : Activation} {callers : List Activation}
    {c d : Config} {trace : List (SystemCall × Reply)} (h : Running f callers c)
    (hrun : Run (step q env) (fun d => callers.length < d.frames.length) c trace d) :
    Running f callers d := by
  apply hrun.invariant h
  intro s hs
  exact running_of_step q env hs

theorem returned_of_step {q : Program} {env : Env} {f : Activation} {callers : List Activation}
    {c c' : Config} (h : Running f callers c) (hstep : step q env c = .next c')
    (hback : c'.frames.length = callers.length) :
    c' = { c with frames := callers } ∧ ∃ f' g, c.frames = f' :: callers ∧ f.SameCall f' ∧
      q.functions[f.entry]? = some g ∧ f'.ip = g.code.length := by
  obtain ⟨inner, f', hc, hsame⟩ := h
  cases inner with
  | nil =>
    have hframes := advances_of_step q env hc
    rw [hstep] at hframes
    rcases hframes with ⟨f'', hc', -⟩ | ⟨callee, _, _, hc', -⟩ | ⟨hc', g, hg, hend⟩
    · rw [hc', List.length_cons] at hback
      omega
    · rw [hc', List.length_cons, List.length_cons] at hback
      omega
    · rw [hsame.1] at hg
      exact ⟨hc', f', g, hc, hsame, hg, hend⟩
  | cons k inner =>
    -- more than one activation stands above the callers
    have hframes := advances_of_step q env hc
    rw [hstep] at hframes
    rcases hframes with ⟨f'', hc', -⟩ | ⟨callee, _, _, hc', -⟩ | ⟨hc', -⟩
    all_goals
      simp only [hc', List.length_cons, List.append_eq, List.length_append] at hback
      omega

theorem replaced_of_return {p q : Program} {env : Env} (haccepted : Accepted p q)
    {c c₁ c₂ c₃ : Config} (hc : Sound p q c) {f : Activation} {callers : List Activation}
    (hframes : c.frames = f :: callers) {g callee : Function} {i : Instruction} {entry : Nat}
    (hg : q.functions[f.entry]? = some g) (hi : g.code[f.ip]? = some i) (hop : i.op = .call entry)
    (hcallee : q.functions[entry]? = some callee) (hcall : step q env c = .next c₁)
    {trace : List (SystemCall × Reply)}
    (hrun : Run (step q env) (fun d => callers.length + 1 < d.frames.length) c₁ trace c₂)
    (hreturn : step q env c₂ = .next c₃) (hback : c₃.frames.length = callers.length + 1) :
    ∃ results, results.length = callee.rets.length ∧
      c₃.stack = results ++ c.stack.drop callee.args.length ∧
      c₃.frames = { f with ip := f.ip + 1 } :: callers := by
  have hc₁ : Sound p q c₁ := by
    have := hc.step env haccepted
    rw [hcall] at this
    exact this
  have hc₂ := hc₁.run haccepted hrun
  -- until the callee returns, its activation is the one that the call has made
  have hrunning : Running ⟨entry, 0, [], c.stack.drop callee.args.length⟩
      ({ f with ip := f.ip + 1 } :: callers) c₁ := by
    simp only [step, hframes, hg, hi, hop, perform, hcallee] at hcall
    split at hcall
    · simp at hcall
    · simp only [Outcome.next.injEq] at hcall
      rw [← hcall]
      exact ⟨[], _, rfl, rfl, rfl⟩
  obtain ⟨hc₃, f', g', hframes', hsame, hg', hend⟩ :=
    returned_of_step (running_of_run hrunning hrun) hreturn hback
  obtain ⟨f₀, g'', w, own, hread, hchecked, hstate, -, hstack, hown, -, -⟩ := hc₂.exists hframes'
  rw [hsame.1] at hread hchecked
  simp only at hg' hread hchecked
  rw [hcallee, Option.some.injEq] at hg' hchecked
  subst hg' hchecked
  have hcheck := haccepted.validated.checked_of_getElem? hread hcallee
  rw [hend] at hstate
  refine ⟨own, ?_, ?_, ?_⟩
  · rw [hown, hcheck.length_stack_of_end hstate]
  · rw [hc₃, hstack, hsame.2]
  · rw [hc₃]

end Machine

open Machine in
/--
Every run of an accepted program, of any length, with any memory and any replies of the system:
above what its caller has left, the innermost activation has one operand for each kind of the walk,
and needs no other. Its jumps lead to instructions of its function, it reads slots that it has
filled, and a call that returns has replaced the arguments by the results.
-/
theorem runs_keep_to_their_operands {loader : Loader} {entry : String} {options : Options}
    {p q : Program} {warnings : List Diagnostic} (hparse : parse loader entry options = .ok p)
    (hvalid : p.validate = (q, .ok warnings)) :
    ∃ main, q.main? = some main ∧ ∀ env memory trace c,
      Run (step q env) (fun _ => True) (.initial main.entry memory) trace c →
      (c.frames = [] → c.stack = []) ∧
      ∀ f callers, c.frames = f :: callers → ∃ f₀ g w own,
        p.functions[f.entry]? = some f₀ ∧ q.functions[f.entry]? = some g ∧
        f₀.stateAt p.functions f.ip = some w ∧
        c.stack = own ++ f.rest ∧ own.length = w.stack.length ∧
        (∀ why, step q env { c with stack := own } = .fault why → why.Unchecked) ∧
        ∀ i, g.code[f.ip]? = some i →
          (∀ t, i.op.target? = some t → t < g.code.length) ∧
          (∀ slot, i.op = .pushBind slot → slot < f.slots.length) ∧
          ∀ e callee c₁ trace c₂ c₃, i.op = .call e → q.functions[e]? = some callee →
            step q env c = .next c₁ →
            Run (step q env) (fun d => callers.length + 1 < d.frames.length) c₁ trace c₂ →
            step q env c₂ = .next c₃ → c₃.frames.length = callers.length + 1 →
            callee.args.length ≤ own.length ∧ ∃ results,
              results.length = callee.rets.length ∧
              c₃.stack = results ++ c.stack.drop callee.args.length ∧
              c₃.frames = { f with ip := f.ip + 1 } :: callers := by
  have haccepted := accepted_of_parse hparse hvalid
  obtain ⟨main, hmain, -, -⟩ := haccepted.validated.main
  refine ⟨main, hmain, ?_⟩
  intro env memory trace c hrun
  have hsound := (Sound.initial haccepted hmain memory).run haccepted hrun
  constructor
  · intro hframes
    unfold Sound at hsound
    rw [hframes] at hsound
    generalize c.stack = stack at hsound
    cases hsound
    rfl
  · intro f callers hframes
    obtain ⟨f₀, g, w, own, hread, hchecked, hstate, hip, hstack, hown, hslots, -⟩ :=
      hsound.exists hframes
    refine ⟨f₀, g, w, own, hread, hchecked, hstate, hstack, hown, ?_, ?_⟩
    · intro why hwhy
      exact unchecked_of_step (c := { c with stack := own }) haccepted hframes hread hchecked hstate
        hip (Nat.le_of_eq hown.symm) hslots hwhy
    · intro i hi
      obtain ⟨w', hsite⟩ := haccepted.site hread hchecked hi hstate
      refine ⟨fun t ht => (hsite.target t ht).1, ?_, ?_⟩
      · intro slot hslot
        rw [hslots]
        exact hsite.slot slot hslot
      · intro e callee c₁ trace c₂ c₃ hop hcallee hcall hrun' hreturn hback
        refine ⟨?_, replaced_of_return haccepted hsound hframes hchecked hi hop hcallee hcall hrun'
          hreturn hback⟩
        have hstep := hsite.step
        rw [hop] at hstep
        obtain ⟨callee₀, hcallee₀, hargs, -⟩ := Walk.length_of_step_call hstep
        have hcheck' := haccepted.validated.checked_of_getElem? hcallee₀ hcallee
        rw [hcheck'.args, hown]
        exact hargs

theorem runs_keep_to_their_operands_collatz : ∃ p q warnings main,
    parse collatz.loader "main" { library := false } = .ok p ∧ p.validate = (q, .ok warnings) ∧
      q.main? = some main ∧ ∀ env memory trace c,
        Run (Machine.step q env) (fun _ => True) (.initial main.entry memory) trace c →
        (c.frames = [] → c.stack = []) ∧
        ∀ f callers, c.frames = f :: callers → f.entry = 0 →
          (f.ip = 0 → ∃ n, c.stack = n :: f.rest) ∧ (f.ip = 1 → c.stack = f.rest) := by
  obtain ⟨p, q, warnings, collatz, _, hparse, hvalid, hcollatz, -⟩ := exists_collatz
  obtain ⟨main, hmain, hruns⟩ := runs_keep_to_their_operands hparse hvalid
  refine ⟨p, q, warnings, main, hparse, hvalid, hmain, ?_⟩
  -- the argument, which the first instruction moves to a slot
  have hkinds : (parse StackLang.collatz.loader "main" { library := false }).toOption.bind (fun p =>
      p.functions[0]?.map fun f => ((f.stateAt p.functions 0).map (·.stack.length),
        (f.stateAt p.functions 1).map (·.stack.length))) = some (some 1, some 0) := by
    decide +kernel
  simp only [hparse, Except.toOption, Option.bind_some, hcollatz, Option.map_some,
    Option.some.injEq, Prod.mk.injEq] at hkinds
  intro env memory trace c hrun
  obtain ⟨hended, hactive⟩ := hruns env memory trace c hrun
  refine ⟨hended, ?_⟩
  intro f callers hframes hentry
  obtain ⟨f₀, g, w, own, hf₀, -, hstate, hstack, hlength, -⟩ := hactive f callers hframes
  rw [hentry, hcollatz, Option.some.injEq] at hf₀
  subst hf₀
  constructor
  · intro hip
    rw [hip] at hstate
    rw [hstate] at hkinds
    obtain ⟨n, rfl⟩ := List.length_eq_one_iff.mp (hlength.trans (Option.some.inj hkinds.1))
    exact ⟨n, hstack⟩
  · intro hip
    rw [hip] at hstate
    rw [hstate] at hkinds
    rw [List.eq_nil_of_length_eq_zero (hlength.trans (Option.some.inj hkinds.2))] at hstack
    exact hstack

end StackLang
