import StackLang.Proofs.CallGraph
import StackLang.Proofs.ExactKinds
import StackLang.Proofs.Tables

/-!
This module contains what a caller can rely on in the results of a call. The end of a function is
compared with its declaration only where both are concrete, so a result that is declared with a type
parameter comes from an argument only if the functions involved leave the parameter there.
-/

namespace StackLang

open Relation (ReflTransGen)

/-- The kinds that a function with these arguments works on: no type parameters but its own. -/
def Kind.Scoped (args : List Kind) (k : Kind) : Prop :=
  k.isConcrete = true ∨ k = .any ∨ (∃ name, k = .param name) ∧ k ∈ args

theorem Kind.scoped_of_isDeclared {args : List Kind} {k : Kind} (h : k.isDeclared = true)
    (hk : ∀ name, k = .param name → k ∈ args) : k.Scoped args := by
  cases k with
  | untyped | variadic => simp [isDeclared] at h
  | any => exact Or.inr (Or.inl rfl)
  | param name => exact Or.inr (Or.inr ⟨⟨name, rfl⟩, hk name rfl⟩)
  | _ => exact Or.inl rfl

theorem Substitution.scoped_apply {s : Substitution} {args args' kinds : List Kind} {k : Kind}
    (h : Substitution.matchSlots [] args' kinds = some s) (hkinds : ∀ k ∈ kinds, k.Scoped args)
    (hk : k.isDeclared = true) : (s.apply k).Scoped args := by
  cases k with
  | param name =>
    simp only [apply]
    cases hname : s.get? name with
    | none => exact Or.inr (Or.inl rfl)
    | some k =>
      rcases mem_zip_of_get? h hname with hnil | hmem
      · simp [get?] at hnil
      · exact hkinds k (List.of_mem_zip hmem).2
  | _ => exact Kind.scoped_of_isDeclared hk (by simp [apply])

namespace Walk

structure Scoped (args : List Kind) (w : Walk) : Prop where
  stack : ∀ k ∈ w.stack, k.Scoped args
  filled : ∀ k ∈ w.filled, k.Scoped args
  bound : w.bound ≤ w.bindings.length

theorem Scoped.step {functions : List Function} {args : List Kind} {w w' : Walk} {op : Op}
    (hw : w.Scoped args) (h : step functions w op = .ok w')
    (hcast : ∀ k, op = .cast k → k.isConcrete = true ∨ k = .any)
    (hslot : ∀ slot, op = .pushBind slot → slot < w.bound)
    (hsig : ∀ f ∈ functions, ∀ k ∈ f.rets, k.isDeclared = true) : w'.Scoped args := by
  have hbound := bound_le_of_step h hw.bound
  by_cases hcall : ∃ entry, op = .call entry
  · obtain ⟨entry, rfl⟩ := hcall
    obtain ⟨stack, hcall, rfl⟩ := goOn_eq_ok h
    obtain ⟨f, s, hf, hmatch, rfl⟩ := call_eq_ok hcall
    refine ⟨?_, hw.filled, hbound⟩
    intro k hk
    rcases List.mem_append.mp hk with hk | hk
    · exact hw.stack k (List.mem_of_mem_take hk)
    · obtain ⟨r, hr, rfl⟩ := List.mem_map.mp hk
      apply Substitution.scoped_apply (matchArgs_eq_some.mp hmatch).2 _
        (hsig f (List.mem_of_getElem? hf) r hr)
      intro k hk
      exact hw.stack k (List.mem_of_mem_drop hk)
  · have hparam : ∀ name, op ≠ .cast (.param name) := by
      intro name heq
      simpa [Kind.isConcrete] using hcast _ heq
    have hretag := retag_of_step h (fun entry heq => hcall ⟨entry, heq⟩) hparam hslot hw.bound []
    have hslot' : ∀ slot, op = .pushBind slot → slot < w.filled.length := by
      rw [length_filled hw.bound]
      exact hslot
    rw [List.append_nil, List.append_nil] at hretag
    have hstack : (op.retag w.stack.reverse w.filled).1 = w'.stack.reverse := by rw [hretag]
    have hfilled : (op.retag w.stack.reverse w.filled).2 = w'.filled := by rw [hretag]
    refine ⟨?_, ?_, hbound⟩
    · intro k hk
      rw [← List.mem_reverse, ← hstack] at hk
      rcases (Op.mem_retag hslot').1 hk with hk | hk | hk | hk
      · exact Or.inl hk
      · exact (hcast k hk).imp_right Or.inl
      · exact hw.stack k (List.mem_reverse.mp hk)
      · exact hw.filled k hk
    · intro k hk
      rw [← hfilled] at hk
      rcases (Op.mem_retag hslot').2 hk with hk | hk
      · exact hw.stack k (List.mem_reverse.mp hk)
      · exact hw.filled k hk

end Walk

namespace Accepted

variable {p q : Program} (h : Accepted p q) {n : Nat} {f g : Function}
  (hf : p.functions[n]? = some f) (hg : q.functions[n]? = some g)
include h hf hg

theorem cast_kind {ip : Nat} {j : Instruction} (hj : g.code[ip]? = some j) (k : Kind)
    (hop : j.op = .cast k) : k.isConcrete = true ∨ k = .any := by
  have hchecked := h.validated.checked_of_getElem? hf hg
  obtain ⟨i, _, _, hi, -, -, hresolve, -⟩ := hchecked.instruction hj
  have hemitted := (h.read n f hf).code.emitted (List.mem_of_getElem? hi)
  rw [← Walk.eq_of_resolve hresolve (by simp [hop]), hop] at hemitted
  obtain ⟨t, rfl⟩ := hemitted.resolve_right (by simp)
  cases t <;> simp [TypeName.kind, Kind.isConcrete]

theorem scoped_of_stateAt {ip : Nat} (hip : ip ≤ g.code.length) {w : Walk}
    (hw : f.stateAt p.functions ip = some w) : w.Scoped f.args := by
  apply h.of_stateAt hf hg _ _ hip hw
  · refine ⟨?_, ?_, Nat.zero_le _⟩
    · intro k hk
      exact Kind.scoped_of_isDeclared ((h.read n f hf).args k hk) fun _ _ => hk
    · simp [Walk.filled, Function.start]
  · intro ip j u u' hj hsite hu
    apply hu.step hsite.step (h.cast_kind hf hg hj) hsite.slot
    intro f' hf' k hk
    obtain ⟨m, hm⟩ := List.getElem?_of_mem hf'
    exact (h.read m f' hm).rets k hk

theorem exists_call {ip entry : Nat} {i : Instruction} {w : Walk} (hi : g.code[ip]? = some i)
    (hop : i.op = .call entry) (hw : f.stateAt p.functions ip = some w) :
    ∃ callee₀ callee s, p.functions[entry]? = some callee₀ ∧ q.functions[entry]? = some callee ∧
      callee₀.Checked p.functions callee ∧ matchArgs callee.args w.stack = some s ∧
      f.stateAt p.functions (ip + 1) = some { w with
        stack := belowKinds w.stack callee.args.length ++ s.applyAll callee.rets } := by
  obtain ⟨w', hsite⟩ := h.site hf hg hi hw
  have hafter := hsite.after
  have hstep := hsite.step
  rw [hop] at hstep
  obtain ⟨stack, hcall, rfl⟩ := Walk.goOn_eq_ok hstep
  obtain ⟨callee₀, s, hcallee₀, hmatch, rfl⟩ := Walk.call_eq_ok hcall
  obtain ⟨callee, hcallee, hcheck⟩ := h.validated.exists_of_read hcallee₀
  refine ⟨callee₀, callee, s, hcallee₀, hcallee, hcheck, ?_, ?_⟩
  · rw [hcheck.args]
    exact hmatch
  · rw [hcheck.args, hcheck.rets]
    exact hafter

end Accepted

/-- The function leaves a type parameter wherever it declares it as a result. -/
def Function.KeepsParameters (functions : List Function) (f : Function) : Prop :=
  ∀ w, f.stateAt functions f.code.length = some w → ∀ (j : Nat) (name : String),
    f.rets[j]? = some (.param name) → w.stack[j]? = some (.param name)

/--
The value `v` can have the kind `k` if the type parameters stand for the values in `V`. Of other
kinds this says nothing.
-/
def Kind.Admits (V : String → Word → Prop) (k : Kind) (v : Word) : Prop :=
  ∀ name, k = .param name → V name v

theorem Kind.admits_of_isConcrete {V : String → Word → Prop} {k : Kind} (h : k.isConcrete = true)
    (v : Word) : k.Admits V v := by
  intro name heq
  exact absurd heq (ne_param_of_isConcrete h name)

theorem Kind.forall₂_admits_of_kept {V : String → Word → Prop} {kinds rets : List Kind}
    {values : List Word} (h : List.Forall₂ (Admits V) kinds values)
    (hlength : kinds.length = rets.length)
    (hkept : ∀ (j : Nat) (name : String),
      rets[j]? = some (.param name) → kinds[j]? = some (.param name)) :
    List.Forall₂ (Admits V) rets values := by
  induction h generalizing rets with
  | nil =>
    rw [List.eq_nil_of_length_eq_zero hlength.symm]
    exact .nil
  | @cons k v kinds values hk _ ih =>
    cases rets with
    | nil => simp at hlength
    | cons declared rets =>
      apply List.Forall₂.cons
      · rintro name rfl
        have hhead := hkept 0 name rfl
        rw [List.getElem?_cons_zero, Option.some.injEq] at hhead
        exact hk name hhead
      · apply ih (by simpa using hlength)
        intro j name hj
        simpa using hkept (j + 1) name (by simpa using hj)

namespace Substitution

def Values (s : Substitution) (V : String → Word → Prop) (name : String) (v : Word) : Prop :=
  (s.apply (.param name)).Admits V v

theorem forall₂_admits_args {s : Substitution} {V : String → Word → Prop} {args kinds : List Kind}
    {values : List Word} (h : List.Forall₂ (Kind.Admits V) kinds values)
    (hlength : kinds.length = args.length)
    (hparam : ∀ name k, (Kind.param name, k) ∈ args.zip kinds → s.get? name = some k) :
    List.Forall₂ (Kind.Admits (s.Values V)) args values := by
  induction h generalizing args with
  | nil =>
    rw [List.eq_nil_of_length_eq_zero hlength.symm]
    exact .nil
  | @cons k v kinds values hk _ ih =>
    cases args with
    | nil => simp at hlength
    | cons expected args =>
      apply List.Forall₂.cons
      · rintro name rfl
        unfold Values
        rw [apply, hparam name k List.mem_cons_self]
        exact hk
      · apply ih (by simpa using hlength)
        intro name k hmem
        exact hparam name k (List.mem_cons_of_mem _ hmem)

theorem admits_apply {s : Substitution} {V : String → Word → Prop} {k : Kind} {v : Word}
    (h : k.Admits (s.Values V) v) : (s.apply k).Admits V v := by
  by_cases hparam : ∃ name, k = .param name
  · obtain ⟨name, rfl⟩ := hparam
    exact h name rfl
  · have hne : ∀ name, k ≠ .param name := fun name heq => hparam ⟨name, heq⟩
    rw [apply_of_ne_param s hne]
    intro name heq
    exact absurd heq (hne name)

end Substitution

namespace Machine

section

variable {R : Kind → Word → Prop} (hmade : ∀ k v, k.isConcrete = true → R k v)
include hmade

theorem forall₂_of_prim {env : Env} {m m' : Store} {p : Prim} {stack stack' : List Word}
    (h : prim env m p stack = .ok (stack', m')) {tags : List Kind}
    (htags : List.Forall₂ R tags stack) : List.Forall₂ R (p.retag tags) stack' := by
  cases p with
  | add | sub =>
    rcases htags with _ | ⟨hb, _ | ⟨ha, hs⟩⟩ <;> cases h
    exact .cons (hmade _ _ (Kind.isConcrete_arithmetic _ _)) hs
  | mul | eq | ne | lt | gt | le | ge | and | or =>
    rcases htags with _ | ⟨hb, _ | ⟨ha, hs⟩⟩ <;> cases h
    exact .cons (hmade _ _ rfl) hs
  | not =>
    rcases htags with _ | ⟨ha, hs⟩ <;> cases h
    exact .cons (hmade _ _ rfl) hs
  | dup =>
    rcases htags with _ | ⟨ha, hs⟩ <;> cases h
    exact .cons ha (.cons ha hs)
  | drop =>
    rcases htags with _ | ⟨ha, hs⟩ <;> cases h
    exact hs
  | swap =>
    rcases htags with _ | ⟨hb, _ | ⟨ha, hs⟩⟩ <;> cases h
    exact .cons ha (.cons hb hs)
  | peek =>
    rcases htags with _ | ⟨hb, _ | ⟨ha, hs⟩⟩ <;> cases h
    exact .cons ha (.cons hb (.cons ha hs))
  | rot =>
    rcases htags with _ | ⟨hc, _ | ⟨hb, _ | ⟨ha, hs⟩⟩⟩ <;> cases h
    exact .cons ha (.cons hc (.cons hb hs))
  | div | mod =>
    rcases htags with _ | ⟨hb, _ | ⟨ha, hs⟩⟩ <;> simp only [prim, divide, reduceCtorEq] at h
    split at h <;> cases h
    exact .cons (hmade _ _ rfl) hs
  | load =>
    rcases htags with _ | ⟨ha, hs⟩ <;> simp only [prim, reduceCtorEq] at h
    split at h <;> cases h
    exact .cons (hmade _ _ rfl) hs
  | load8 =>
    rcases htags with _ | ⟨hb, _ | ⟨ha, hs⟩⟩ <;> simp only [prim, reduceCtorEq] at h
    split at h <;> cases h
    exact .cons (hmade _ _ rfl) hs
  | store =>
    rcases htags with _ | ⟨hb, _ | ⟨ha, hs⟩⟩ <;> simp only [prim, reduceCtorEq] at h
    split at h <;> cases h
    exact hs
  | store8 =>
    rcases htags with _ | ⟨hc, _ | ⟨hb, _ | ⟨ha, hs⟩⟩⟩ <;> simp only [prim, reduceCtorEq] at h
    split at h <;> cases h
    exact hs

variable {env : Env} {op : Op} (hcast : ∀ k v, op = .cast k → R k v)
include hcast

theorem forall₂_of_exec {s s' : Local} (h : exec env s op = .ok s') (hlocal : op.isLocal = true)
    {tags slots : List Kind} (htags : List.Forall₂ R tags s.stack)
    (hslots : List.Forall₂ R slots s.slots) :
    List.Forall₂ R (op.retag tags slots).1 s'.stack ∧
      List.Forall₂ R (op.retag tags slots).2 s'.slots := by
  cases op with
  | pushInt _ | pushBool _ | pushChar _ | pushStr _ | pushPtr _ =>
    cases h
    exact ⟨.cons (hmade _ _ rfl) htags, hslots⟩
  | pushBind slot =>
    simp only [exec] at h
    split at h <;> cases h
    next v hv =>
    obtain ⟨k, hk, hkv⟩ := exists_of_forall₂ hslots hv
    refine ⟨.cons ?_ htags, hslots⟩
    rw [List.getD_eq_getElem?_getD, hk]
    exact hkv
  | prim p =>
    simp only [exec] at h
    split at h <;> cases h
    next hprim => exact ⟨forall₂_of_prim hmade hprim htags, hslots⟩
  | cast k =>
    simp only [exec] at h
    split at h <;> cases h
    next hsome =>
    rcases s with ⟨_ | ⟨v, stack⟩, filled, memory⟩
    · simp at hsome
    · rcases htags with _ | ⟨-, hs⟩
      exact ⟨.cons (hcast k v rfl) hs, hslots⟩
  | bind count =>
    simp only [exec] at h
    split at h <;> cases h
    refine ⟨List.forall₂_drop count htags, List.rel_append hslots ?_⟩
    exact List.forall₂_reverse_iff.mpr (List.forall₂_take count htags)
  | unbind count =>
    simp only [exec] at h
    split at h <;> cases h
    refine ⟨htags, ?_⟩
    simp only [Op.retag]
    rw [hslots.length_eq]
    exact List.forall₂_take _ hslots
  | enter _ | leave _ =>
    cases h
    exact ⟨htags, hslots⟩
  | word _ => cases h
  | branch _ | otherwise _ | jump _ | call _ | syscall _ => simp [Op.isLocal] at hlocal

theorem forall₂_of_perform {q : Program} {c : Config} {g : Function} {f : Activation}
    {frames : List Activation} {own : List Word} (hstack : c.stack = own ++ f.rest)
    (htakes : op.takes ≤ own.length) (hcall : ∀ entry, op ≠ .call entry) {tags slots : List Kind}
    (htags : List.Forall₂ R tags own) (hslots : List.Forall₂ R slots f.slots) :
    (perform q env c g f frames op).All fun c' => ∃ ip own' slots',
      c'.frames = { f with ip, slots := slots' } :: frames ∧ c'.stack = own' ++ f.rest ∧
      (ip = f.ip + 1 ∨ op.target? = some ip) ∧
      List.Forall₂ R (op.retag tags slots).1 own' ∧
      List.Forall₂ R (op.retag tags slots).2 slots' := by
  cases op with
  | branch t =>
    rcases htags with _ | ⟨-, hs⟩
    · simp [Op.takes] at htakes
    · simp only [perform, hstack, List.cons_append]
      split
      · unfold jump
        split
        · exact ⟨t, _, _, rfl, rfl, Or.inr rfl, hs, hslots⟩
        · trivial
      · exact ⟨_, _, _, rfl, rfl, Or.inl rfl, hs, hslots⟩
  | otherwise t | jump t =>
    simp only [perform, Machine.jump]
    split
    · exact ⟨t, own, _, rfl, hstack, Or.inr rfl, htags, hslots⟩
    · trivial
  | call entry => exact absurd rfl (hcall entry)
  | syscall arity =>
    rcases htags with _ | @⟨_, number, _, own, -, hs⟩
    · simp [Op.takes] at htakes
    · simp only [Op.takes, List.length_cons] at htakes
      simp only [perform, hstack, List.cons_append]
      rw [if_neg (by rw [List.length_append]; omega)]
      intro reply
      refine ⟨_, reply.result :: own.drop arity.toNat, _, rfl, ?_, Or.inl rfl, ?_, hslots⟩
      · rw [List.drop_append_of_le_length (by omega)]
        rfl
      · exact .cons (hmade _ _ rfl) (List.forall₂_drop arity.toNat hs)
  | _ =>
    rw [perform_of_isLocal rfl, hstack, exec_append f.rest htakes]
    cases hexec : exec env ⟨own, f.slots, c.memory⟩ _ with
    | error why => trivial
    | ok s =>
      obtain ⟨hown, hslots'⟩ := forall₂_of_exec hmade hcast hexec rfl htags hslots
      exact ⟨_, s.stack, s.slots, rfl, rfl, Or.inl rfl, hown, hslots'⟩

end

/-- The functions that calls from the one at `entry` lead to, itself included, keep parameters. -/
def Keeping (p q : Program) (entry : Nat) : Prop :=
  ∀ (n : Nat) (f : Function), ReflTransGen (Calls q.functions) entry n →
    p.functions[n]? = some f → f.KeepsParameters p.functions

/--
Activations inside a call, which wait for results that satisfy `await` on top of the operands. In
each, type parameters stand for some values, and every operand of such a kind is one of them. The
call itself is to leave results that satisfy `post` above the operands `bottom`.
-/
inductive Sourced (p q : Program) (post : List Word → Prop) (bottom : List Word) :
    List Activation → (List Word → Prop) → List Word → Prop
  | base : Sourced p q post bottom [] post bottom
  | cons {f callers await own f₀ g w} (V : String → Word → Prop)
      (hread : p.functions[f.entry]? = some f₀) (hchecked : q.functions[f.entry]? = some g)
      (hstate : f₀.stateAt p.functions f.ip = some w) (hip : f.ip ≤ g.code.length)
      (hkeeps : Keeping p q f.entry)
      (hown : ∀ results, await results →
        List.Forall₂ (Kind.Admits V) w.stack.reverse (results ++ own))
      (hslots : List.Forall₂ (Kind.Admits V) w.filled f.slots)
      (hcallers : Sourced p q post bottom callers (List.Forall₂ (Kind.Admits V) g.rets.reverse)
        f.rest) :
      Sourced p q post bottom (f :: callers) await (own ++ f.rest)

section

variable {p q : Program} {post : List Word → Prop} {bottom : List Word} {env : Env}
  {V : String → Word → Prop} {f : Activation} {callers : List Activation} {f₀ g : Function}
  {w : Walk}

theorem Sourced.of_state (hread : p.functions[f.entry]? = some f₀)
    (hchecked : q.functions[f.entry]? = some g) (hstate : f₀.stateAt p.functions f.ip = some w)
    (hip : f.ip ≤ g.code.length) (hkeeps : Keeping p q f.entry) {own : List Word}
    (hown : List.Forall₂ (Kind.Admits V) w.stack.reverse own)
    (hslots : List.Forall₂ (Kind.Admits V) w.filled f.slots)
    (hcallers : Sourced p q post bottom callers (List.Forall₂ (Kind.Admits V) g.rets.reverse)
      f.rest) :
    Sourced p q post bottom (f :: callers) (· = []) (own ++ f.rest) := by
  apply Sourced.cons V hread hchecked hstate hip hkeeps _ hslots hcallers
  rintro _ rfl
  exact hown

theorem Sourced.exists {stack : List Word}
    (h : Sourced p q post bottom (f :: callers) (· = []) stack) :
    ∃ V f₀ g w own, p.functions[f.entry]? = some f₀ ∧ q.functions[f.entry]? = some g ∧
      f₀.stateAt p.functions f.ip = some w ∧ f.ip ≤ g.code.length ∧ Keeping p q f.entry ∧
      stack = own ++ f.rest ∧ List.Forall₂ (Kind.Admits V) w.stack.reverse own ∧
      List.Forall₂ (Kind.Admits V) w.filled f.slots ∧
      Sourced p q post bottom callers (List.Forall₂ (Kind.Admits V) g.rets.reverse) f.rest := by
  cases h with
  | cons V hread hchecked hstate hip hkeeps hown hslots hcallers =>
    exact ⟨V, _, _, _, _, hread, hchecked, hstate, hip, hkeeps, rfl, hown [] rfl, hslots, hcallers⟩

theorem Sourced.arrive {await : List Word → Prop} {results stack : List Word}
    (h : Sourced p q post bottom callers await stack) (hresults : await results) :
    callers = [] ∧ post results ∧ stack = bottom ∨
      callers ≠ [] ∧ Sourced p q post bottom callers (· = []) (results ++ stack) := by
  cases h with
  | base => exact Or.inl ⟨rfl, hresults, rfl⟩
  | cons V hread hchecked hstate hip hkeeps hown hslots hcallers =>
    right
    refine ⟨by simp, ?_⟩
    rw [← List.append_assoc]
    exact Sourced.of_state hread hchecked hstate hip hkeeps (hown results hresults) hslots hcallers

variable (haccepted : Accepted p q)
include haccepted

theorem sourced_of_perform {c : Config} {frames : List Activation} {own : List Word}
    {i : Instruction} (hread : p.functions[f.entry]? = some f₀)
    (hchecked : q.functions[f.entry]? = some g) (hstate : f₀.stateAt p.functions f.ip = some w)
    (hi : g.code[f.ip]? = some i) (hkeeps : Keeping p q f.entry) (hstack : c.stack = own ++ f.rest)
    (hown : List.Forall₂ (Kind.Admits V) w.stack.reverse own)
    (hslots : List.Forall₂ (Kind.Admits V) w.filled f.slots)
    (hcallers : Sourced p q post bottom callers (List.Forall₂ (Kind.Admits V) g.rets.reverse)
      f.rest) (hcall : ∀ entry, i.op ≠ .call entry) :
    (perform q env c g f frames i.op).All fun c' => ∃ f', c'.frames = f' :: frames ∧
      Sourced p q post bottom (f' :: callers) (· = []) c'.stack := by
  have hlt := (List.getElem?_eq_some_iff.mp hi).1
  obtain ⟨w', hsite⟩ := haccepted.site hread hchecked hi hstate
  have hscoped := haccepted.scoped_of_stateAt hread hchecked (Nat.le_of_lt hlt) hstate
  have hcast := haccepted.cast_kind hread hchecked hi
  have hparam : ∀ name, i.op ≠ .cast (.param name) := by
    intro name heq
    simpa [Kind.isConcrete] using hcast _ heq
  have hcast' : ∀ k v, i.op = .cast k → k.Admits V v := by
    rintro _ v heq name rfl
    exact absurd heq (hparam name)
  have htakes : i.op.takes ≤ own.length := by
    rw [← hown.length_eq, List.length_reverse]
    exact (Walk.length_of_step hsite.step hcall).1
  have hretag := Walk.retag_of_step hsite.step hcall hparam hsite.slot hscoped.bound []
  rw [List.append_nil, List.append_nil] at hretag
  apply (forall₂_of_perform (fun k v hk => Kind.admits_of_isConcrete hk v) hcast' hstack htakes
    hcall hown hslots).mono
  rintro c' ⟨ip, own', slots', hframes, hstack', hip, hown', hslots'⟩
  rw [hretag] at hown' hslots'
  obtain ⟨u, hu, hle, hsame, hfilled⟩ := haccepted.exists_stateAt hread hchecked hlt hsite hip
  refine ⟨_, hframes, ?_⟩
  simp only [← hsame, ← hfilled] at hown' hslots'
  rw [hstack']
  exact Sourced.of_state (f := { f with ip, slots := slots' }) hread hchecked hu hle hkeeps hown'
    hslots' hcallers

theorem sourced_of_call {c : Config} {frames : List Activation} {own : List Word}
    {i : Instruction} {entry : Nat} (hread : p.functions[f.entry]? = some f₀)
    (hchecked : q.functions[f.entry]? = some g) (hstate : f₀.stateAt p.functions f.ip = some w)
    (hi : g.code[f.ip]? = some i) (hkeeps : Keeping p q f.entry) (hstack : c.stack = own ++ f.rest)
    (hown : List.Forall₂ (Kind.Admits V) w.stack.reverse own)
    (hslots : List.Forall₂ (Kind.Admits V) w.filled f.slots)
    (hcallers : Sourced p q post bottom callers (List.Forall₂ (Kind.Admits V) g.rets.reverse)
      f.rest) (hop : i.op = .call entry) :
    (perform q env c g f frames (.call entry)).All fun c' => ∃ f',
      c'.frames = f' :: { f with ip := f.ip + 1 } :: frames ∧
      Sourced p q post bottom (f' :: { f with ip := f.ip + 1 } :: callers) (· = []) c'.stack := by
  have hlt := (List.getElem?_eq_some_iff.mp hi).1
  obtain ⟨callee₀, callee, s, hcallee₀, hcallee, hcheck, hmatch, hafter⟩ :=
    haccepted.exists_call hread hchecked hi hop hstate
  obtain ⟨hle, hslotted⟩ := matchArgs_eq_some.mp hmatch
  have hlength : own.length = w.stack.length := by
    rw [← hown.length_eq, List.length_reverse]
  have htop : List.Forall₂ (Kind.Admits V) (topKinds w.stack callee.args.length).reverse
      (own.take callee.args.length) := by
    rw [topKinds, ← List.take_reverse]
    exact List.forall₂_take _ hown
  have hbelow : List.Forall₂ (Kind.Admits V) (belowKinds w.stack callee.args.length).reverse
      (own.drop callee.args.length) := by
    rw [belowKinds, ← List.drop_reverse]
    exact List.forall₂_drop _ hown
  simp only [perform, hcallee]
  split
  · trivial
  · rw [hstack, List.drop_append_of_le_length (by omega)]
    -- the caller waits for results that its own kinds admit
    have hcaller : Sourced p q post bottom ({ f with ip := f.ip + 1 } :: callers)
        (List.Forall₂ (Kind.Admits (s.Values V)) callee.rets.reverse)
        (own.drop callee.args.length ++ f.rest) := by
      apply Sourced.cons (f := { f with ip := f.ip + 1 }) V hread hchecked hafter hlt hkeeps _
        hslots hcallers
      intro results hresults
      rw [List.reverse_append]
      apply List.rel_append _ hbelow
      rw [Substitution.applyAll, ← List.map_reverse, List.forall₂_map_left_iff]
      exact hresults.imp fun _ _ => Substitution.admits_apply
    have hargs : List.Forall₂ (Kind.Admits (s.Values V)) callee₀.args.reverse
        (own.take callee.args.length) := by
      rw [← List.forall₂_reverse_iff, List.reverse_reverse] at htop ⊢
      rw [← hcheck.args]
      apply Substitution.forall₂_admits_args htop (length_topKinds hle)
      intro name k
      exact Substitution.get?_of_matchSlots hslotted
    have hkeeps' : Keeping p q entry := by
      intro n h hreach
      apply hkeeps n h (.head _ hreach)
      exact ⟨g, i, hchecked, List.mem_of_getElem? hi, hop⟩
    have hcalled := Sourced.of_state (f := ⟨entry, 0, [], own.drop callee.args.length ++ f.rest⟩)
      hcallee₀ hcallee rfl (Nat.zero_le _) hkeeps' hargs .nil hcaller
    rw [← List.append_assoc, List.take_append_drop, ← hstack] at hcalled
    exact ⟨_, rfl, hcalled⟩

def Inside (p q : Program) (post : List Word → Prop) (bottom : List Word)
    (outer : List Activation) (c : Config) : Prop :=
  ∃ f inner, c.frames = f :: inner ++ outer ∧
    Sourced p q post bottom (f :: inner) (· = []) c.stack

theorem Inside.step (env : Env) {c : Config} {outer : List Activation}
    (h : Inside p q post bottom outer c) :
    (step q env c).All fun c' => Inside p q post bottom outer c' ∨
      c'.frames = outer ∧ ∃ results, post results ∧ c'.stack = results ++ bottom := by
  obtain ⟨f, inner, hc, hsourced⟩ := h
  obtain ⟨V, f₀, g, w, own, hread, hchecked, hstate, hip, hkeeps, hstack, hown, hslots, hcallers⟩ :=
    hsourced.exists
  unfold Machine.step
  simp only [hc, List.cons_append, hchecked]
  cases hi : g.code[f.ip]? with
  | some i =>
    simp only
    by_cases hcall : ∃ entry, i.op = .call entry
    · obtain ⟨entry, hop⟩ := hcall
      rw [hop]
      apply (sourced_of_call haccepted hread hchecked hstate hi hkeeps hstack hown hslots hcallers
        hop).mono
      rintro c' ⟨f', hc', hsourced'⟩
      exact Or.inl ⟨f', { f with ip := f.ip + 1 } :: inner, hc', hsourced'⟩
    · apply (sourced_of_perform haccepted hread hchecked hstate hi hkeeps hstack hown hslots
        hcallers fun entry hop => hcall ⟨entry, hop⟩).mono
      rintro c' ⟨f', hc', hsourced'⟩
      exact Or.inl ⟨f', _, hc', hsourced'⟩
  | none =>
    have hend : f.ip = g.code.length := by
      rw [List.getElem?_eq_none_iff] at hi
      omega
    have hcheck := haccepted.validated.checked_of_getElem? hread hchecked
    rw [hend] at hstate
    -- the operands that are left are the results its caller waits for
    have hresults : List.Forall₂ (Kind.Admits V) g.rets.reverse own := by
      rw [← List.forall₂_reverse_iff, List.reverse_reverse] at hown ⊢
      apply Kind.forall₂_admits_of_kept hown
      · rw [hcheck.length_stack_of_end hstate]
      · rw [hcheck.rets]
        apply hkeeps f.entry f₀ .refl hread w
        rw [← hcheck.length_code]
        exact hstate
    simp only [hend, if_true]
    rcases hcallers.arrive hresults with ⟨rfl, hpost, hbottom⟩ | ⟨hne, hsourced'⟩
    · refine Or.inr ⟨rfl, own, hpost, ?_⟩
      rw [← hbottom]
      exact hstack
    · obtain ⟨f', callers, rfl⟩ := List.exists_cons_of_ne_nil hne
      rw [← hstack] at hsourced'
      exact Or.inl ⟨f', callers, rfl, hsourced'⟩

theorem Inside.results {c c₂ c₃ : Config} {outer : List Activation}
    {trace : List (SystemCall × Reply)} (h : Inside p q post bottom outer c)
    (hrun : Run (Machine.step q env) (fun d => outer.length < d.frames.length) c trace c₂)
    (hreturn : Machine.step q env c₂ = .next c₃) (hback : c₃.frames.length = outer.length) :
    ∃ results, post results ∧ c₃.stack = results ++ bottom := by
  have hinside : Inside p q post bottom outer c₂ := by
    apply hrun.invariant h
    intro s hs
    apply (hs.step haccepted env).mono
    rintro s' (hs' | ⟨hframes, -⟩) hlength
    · exact hs'
    · rw [hframes] at hlength
      exact absurd hlength (Nat.lt_irrefl _)
  have hlast := hinside.step haccepted env
  rw [hreturn] at hlast
  rcases hlast with ⟨f, inner, hframes, -⟩ | ⟨-, hresults⟩
  · rw [hframes, List.length_append, List.length_cons] at hback
    omega
  · exact hresults

end

end Machine

end StackLang
