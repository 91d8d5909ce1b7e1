import StackLang.Proofs.Machine

/-!
This module contains what programs print. A machine runs next to a system that writes out all it is
asked to write and does nothing else, so what it prints is decided by the state it starts from. Runs
are put together from runs of straight code, jumps, calls and writes.
-/

namespace StackLang

namespace Store

def bytes (m : Store) (a : Word) : (count : Nat) → List Byte
  | 0 => []
  | count + 1 => m a :: bytes m (a + 1) count

theorem replace_self (m : Store) (at? : Word → Bool) : m.replace at? m = m := by
  funext x
  simp [replace]

end Store

def SystemCall.written? (r : SystemCall) : Option (Word × Nat) :=
  match r.args with
  | [descriptor, a, count] => if r.number = 1 ∧ descriptor = 1 then some (a, count.toNat) else none
  | _ => none

def Program.Defines (p : Program) (entry : Nat) (name : String) (args : List Kind)
    (ops : List Op) : Prop :=
  ∃ g, p.functions[entry]? = some g ∧ g.name = name ∧ g.args = args ∧ g.code.map (·.op) = ops

namespace Machine

/-- A step, and what is written in it. The system writes all bytes and leaves the memory alone. -/
def tick (p : Program) (env : Env) (c : Config) : Option (List Byte × Config) :=
  match step p env c with
  | .next c' => some ([], c')
  | .ask request resume => request.written?.map fun (a, count) =>
      (c.memory.bytes a count, resume ⟨BitVec.ofNat 64 count, c.memory, 0, 0⟩)
  | .halt | .fault _ => none

/-- Runs with all that is written in them. Every state that is left satisfies `ok`. -/
inductive Prints (p : Program) (env : Env) (ok : Config → Prop) :
    Config → List Byte → Config → Prop
  | done {c : Config} : Prints p env ok c [] c
  | tick {c c' d : Config} {now later : List Byte} (hok : ok c)
      (htick : tick p env c = some (now, c')) (hrest : Prints p env ok c' later d) :
      Prints p env ok c (now ++ later) d

def Config.next? (p : Program) (c : Config) : Option Op :=
  match c.frames with
  | [] => none
  | f :: _ => (p.functions[f.entry]?).bind fun g => (g.code[f.ip]?).map (·.op)

/-- If a byte is stored next, then at one of the `size` addresses from `base` on. -/
def StoresWithin (p : Program) (base : Word) (size : Nat) (c : Config) : Prop :=
  ∀ offset a rest, c.next? p = some (.prim .store8) → c.stack = offset :: a :: rest →
    ∃ k < size, a + offset = base + BitVec.ofNat 64 k

def execAll (env : Env) (s : Local) : List Op → Except Fault Local
  | [] => .ok s
  | op :: ops => match exec env s op with
    | .error why => .error why
    | .ok s => execAll env s ops

def Config.at (entry : Nat) (rest : List Word) (callers : List Activation) (ip : Nat) (s : Local) :
    Config :=
  ⟨s.stack, ⟨entry, ip, s.slots, rest⟩ :: callers, s.memory⟩

theorem Prints.trans {p : Program} {env : Env} {ok : Config → Prop} {a b c : Config}
    {out out' : List Byte} (h : Prints p env ok a out b) (h' : Prints p env ok b out' c) :
    Prints p env ok a (out ++ out') c := by
  induction h with
  | done => exact h'
  | tick hok htick _ ih =>
    rw [List.append_assoc]
    exact .tick hok htick (ih h')

section

variable (p : Program) (env : Env) (base : Word) (size entry : Nat)

/-- The function `entry` gets from the instruction `ip` to `ip'`, whatever has called it. -/
def Stretch (ip : Nat) (s : Local) (out : List Byte) (ip' : Nat) (s' : Local) : Prop :=
  ∀ rest callers, Prints p env (StoresWithin p base size) (Config.at entry rest callers ip s) out
    (Config.at entry rest callers ip' s')

def Returns (ip : Nat) (s : Local) (out : List Byte) (stack : List Word) (memory : Store) : Prop :=
  ∀ rest callers, Prints p env (StoresWithin p base size) (Config.at entry rest callers ip s) out
    ⟨stack, callers, memory⟩

end

variable {p : Program} {env : Env} {base : Word} {size entry ip : Nat} {name : String}
  {args : List Kind} {ops : List Op}

theorem next?_at (hops : p.Defines entry name args ops) (rest : List Word)
    (callers : List Activation) (s : Local) :
    (Config.at entry rest callers ip s).next? p = ops[ip]? := by
  obtain ⟨g, hg, -, -, rfl⟩ := hops
  simp [Config.at, Config.next?, hg]

theorem storesWithin_of_ne {op : Op} (hops : p.Defines entry name args ops)
    (hop : ops[ip]? = some op) (hne : op ≠ .prim .store8) (rest : List Word)
    (callers : List Activation) (s : Local) :
    StoresWithin p base size (Config.at entry rest callers ip s) := by
  intro offset a below hnext
  rw [next?_at hops, hop, Option.some.injEq] at hnext
  exact absurd hnext hne

theorem exists_step (env : Env) (hops : p.Defines entry name args ops) {op : Op}
    (hop : ops[ip]? = some op) (rest : List Word) (callers : List Activation) (s : Local) :
    ∃ g, g.code.length = ops.length ∧
      step p env (Config.at entry rest callers ip s) =
        perform p env (Config.at entry rest callers ip s) g ⟨entry, ip, s.slots, rest⟩ callers
          op := by
  obtain ⟨g, hg, -, -, rfl⟩ := hops
  refine ⟨g, by simp, ?_⟩
  rw [List.getElem?_map, Option.map_eq_some_iff] at hop
  obtain ⟨i, hi, rfl⟩ := hop
  simp only [step, Config.at, hg, hi]

theorem Prints.of_next {c c' : Config} (hok : StoresWithin p base size c)
    (hstep : step p env c = .next c') : Prints p env (StoresWithin p base size) c [] c' := by
  have htick : Machine.tick p env c = some ([], c') := by rw [Machine.tick, hstep]
  exact .tick hok htick .done

namespace Stretch

theorem trans {ip' ip'' : Nat} {s s' s'' : Local} {out out' : List Byte}
    (h : Stretch p env base size entry ip s out ip' s')
    (h' : Stretch p env base size entry ip' s' out' ip'' s'') :
    Stretch p env base size entry ip s (out ++ out') ip'' s'' :=
  fun rest callers => (h rest callers).trans (h' rest callers)

theorem exec {op : Op} {s s' : Local} (hops : p.Defines entry name args ops)
    (hop : ops[ip]? = some op) (hlocal : op.isLocal = true)
    (hok : ∀ rest callers, StoresWithin p base size (Config.at entry rest callers ip s))
    (hexec : Machine.exec env s op = .ok s') :
    Stretch p env base size entry ip s [] (ip + 1) s' := by
  intro rest callers
  apply Prints.of_next (hok rest callers)
  obtain ⟨g, -, hstep⟩ := exists_step env hops hop rest callers s
  rw [hstep, perform_of_isLocal hlocal]
  simp only [Config.at, hexec]

theorem store8 {offset a v x : Word} {stack slots : List Word} {memory : Store}
    (hops : p.Defines entry name args ops) (hop : ops[ip]? = some (.prim .store8))
    (hx : a + offset = x) (hdata : env.data x = true) {k : Nat} (hk : k < size)
    (haddress : x = base + BitVec.ofNat 64 k) :
    Stretch p env base size entry ip ⟨offset :: a :: v :: stack, slots, memory⟩ [] (ip + 1)
      ⟨stack, slots, memory.writeByte x (v.setWidth 8)⟩ := by
  apply Stretch.exec hops hop rfl
  · intro rest callers offset' a' below _ hstack
    simp only [Config.at, List.cons.injEq] at hstack
    obtain ⟨rfl, rfl, -⟩ := hstack
    exact ⟨k, hk, hx.trans haddress⟩
  · simp [Machine.exec, prim, hx, hdata]

theorem straight (more : List Op) {s s' : Local} (hops : p.Defines entry name args ops)
    (hmore : more <+: ops.drop ip)
    (hplain : more.all (fun op => op.isLocal && op ≠ .prim .store8) = true)
    (hexec : execAll env s more = .ok s') :
    Stretch p env base size entry ip s [] (ip + more.length) s' := by
  induction more generalizing ip s with
  | nil =>
    obtain rfl : s = s' := by simpa [execAll] using hexec
    intro rest callers
    exact .done
  | cons op more ih =>
    obtain ⟨later, hlater⟩ := hmore
    have hop : ops[ip]? = some op := by
      rw [← List.head?_drop, ← hlater]
      rfl
    have htail : more <+: ops.drop (ip + 1) := by
      rw [← List.tail_drop, ← hlater]
      exact List.prefix_append more later
    simp only [List.all_cons, Bool.and_eq_true, decide_eq_true_eq] at hplain
    simp only [execAll] at hexec
    split at hexec
    · simp at hexec
    · next s₁ hone =>
      have hfirst : Stretch p env base size entry ip s [] (ip + 1) s₁ :=
        Stretch.exec hops hop hplain.1.1
          (fun rest callers => storesWithin_of_ne hops hop hplain.1.2 rest callers s) hone
      rw [List.length_cons, Nat.add_comm more.length, ← Nat.add_assoc]
      exact hfirst.trans (ih htail hplain.2 hexec)

theorem jump {target : Nat} (hops : p.Defines entry name args ops)
    (hop : ops[ip]? = some (.jump target)) (htarget : target < ops.length) (s : Local) :
    Stretch p env base size entry ip s [] target s := by
  intro rest callers
  apply Prints.of_next (storesWithin_of_ne hops hop (by simp) rest callers s)
  obtain ⟨g, hlength, hstep⟩ := exists_step env hops hop rest callers s
  rw [hstep, perform, Machine.jump, if_pos (by omega)]
  rfl

theorem branch {target : Nat} (hops : p.Defines entry name args ops)
    (hop : ops[ip]? = some (.branch target)) (htarget : target < ops.length) (v : Word)
    (s : Local) :
    Stretch p env base size entry ip (s.push v) [] (if v = 0 then target else ip + 1) s := by
  intro rest callers
  apply Prints.of_next (storesWithin_of_ne hops hop (by simp) rest callers (s.push v))
  obtain ⟨g, hlength, hstep⟩ := exists_step env hops hop rest callers (s.push v)
  rw [hstep]
  simp only [perform, Config.at, Local.push]
  split
  · rw [Machine.jump, if_pos (by omega)]
    rfl
  · rfl

theorem call {callee : Nat} {calleeName : String} {params : List Kind} {body : List Op}
    {out : List Byte} {stack stack' slots : List Word} {memory memory' : Store}
    (hops : p.Defines entry name args ops) (hop : ops[ip]? = some (.call callee))
    (hcallee : p.Defines callee calleeName params body) (hparams : params.length ≤ stack.length)
    (hreturns : Returns p env base size callee 0 ⟨stack, [], memory⟩ out stack' memory') :
    Stretch p env base size entry ip ⟨stack, slots, memory⟩ out (ip + 1)
      ⟨stack', slots, memory'⟩ := by
  intro rest callers
  have hok : StoresWithin p base size (Config.at entry rest callers ip ⟨stack, slots, memory⟩) :=
    storesWithin_of_ne hops hop (by simp) rest callers _
  obtain ⟨g, -, hstep⟩ := exists_step env hops hop rest callers ⟨stack, slots, memory⟩
  obtain ⟨h, hh, -, rfl, -⟩ := hcallee
  have hlt : ¬ stack.length < h.args.length := by omega
  simp only [perform, hh, Config.at, hlt, if_false] at hstep
  exact (Prints.of_next hok hstep).trans (hreturns _ _)

theorem write {a count : Word} {stack slots : List Word} {memory : Store}
    (hops : p.Defines entry name args ops) (hop : ops[ip]? = some (.syscall 3)) :
    Stretch p env base size entry ip ⟨1 :: 1 :: a :: count :: stack, slots, memory⟩
      (memory.bytes a count.toNat) (ip + 1) ⟨count :: stack, slots, memory⟩ := by
  intro rest callers
  obtain ⟨g, -, hstep⟩ :=
    exists_step env hops hop rest callers ⟨1 :: 1 :: a :: count :: stack, slots, memory⟩
  rw [← List.append_nil (memory.bytes a count.toNat)]
  refine .tick (storesWithin_of_ne hops hop (by simp) rest callers _) ?_ .done
  have hlt : ¬ stack.length + 1 + 1 + 1 < 3 := by omega
  rw [Machine.tick, hstep]
  simp [perform, Config.at, SystemCall.written?, Config.goTo, Store.replace_self, hlt]

theorem andReturns {s s' : Local} {out out' : List Byte} {ip' : Nat} {stack : List Word}
    {memory : Store} (h : Stretch p env base size entry ip s out ip' s')
    (h' : Returns p env base size entry ip' s' out' stack memory) :
    Returns p env base size entry ip s (out ++ out') stack memory :=
  fun rest callers => (h rest callers).trans (h' rest callers)

theorem returns {s s' : Local} {out : List Byte} {ip' : Nat}
    (h : Stretch p env base size entry ip s out ip' s') (hops : p.Defines entry name args ops)
    (hip : ip' = ops.length) :
    Returns p env base size entry ip s out s'.stack s'.memory := by
  have hend : Returns p env base size entry ip' s' [] s'.stack s'.memory := by
    intro rest callers
    apply Prints.of_next
    · intro offset a below hnext
      simp [next?_at hops, hip] at hnext
    · obtain ⟨g, hg, -, -, rfl⟩ := hops
      simp [step, Config.at, hg, hip]
  rw [← List.append_nil out]
  exact h.andReturns hend

end Stretch
end Machine
end StackLang
