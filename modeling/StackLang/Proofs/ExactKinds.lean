import StackLang.Proofs.Tagging

/-!
This module contains the exactness of kinds: in a program without polymorphism, the tags of the
values that an activation works on are at every point of every run the kinds that the walk over its
function has there.
-/

namespace StackLang

def Concrete (kinds : List Kind) : Prop := ∀ k ∈ kinds, k.isConcrete = true

instance (kinds : List Kind) : Decidable (Concrete kinds) :=
  inferInstanceAs (Decidable (∀ k ∈ kinds, _))

namespace Concrete

variable {a b : List Kind}

theorem append (ha : Concrete a) (hb : Concrete b) : Concrete (a ++ b) := by
  intro k hk
  rcases List.mem_append.mp hk with hk | hk
  · exact ha k hk
  · exact hb k hk

theorem of_subset (hb : Concrete b) (hsub : a ⊆ b) : Concrete a := fun k hk => hb k (hsub hk)

theorem drop (ha : Concrete a) (n : Nat) : Concrete (a.drop n) :=
  ha.of_subset (List.drop_subset n a)

theorem reverse_iff : Concrete a.reverse ↔ Concrete a := by
  simp [Concrete]

end Concrete

theorem Op.concrete_retag {op : Op} {stack slots : List Kind} (hstack : Concrete stack)
    (hslots : Concrete slots) (hcast : ∀ kind, op = .cast kind → kind.isConcrete = true)
    (hslot : ∀ slot, op = .pushBind slot → slot < slots.length) :
    Concrete (op.retag stack slots).1 ∧ Concrete (op.retag stack slots).2 := by
  constructor
  · intro k hk
    rcases (Op.mem_retag hslot).1 hk with hk | hk | hk | hk
    · exact hk
    · exact hcast k hk
    · exact hstack k hk
    · exact hslots k hk
  · intro k hk
    rcases (Op.mem_retag hslot).2 hk with hk | hk
    · exact hstack k hk
    · exact hslots k hk

theorem Kind.eq_of_accepts {expected found : Kind} (h : expected.accepts found = true)
    (hexpected : expected.isConcrete = true) (hfound : found.isConcrete = true) :
    found = expected := by
  cases expected <;> cases found <;> simp_all [accepts, isConcrete]

theorem Substitution.eq_of_matchSlots {s t : Substitution} {args kinds : List Kind}
    (h : s.matchSlots args kinds = some t) (hlength : kinds.length = args.length)
    (hargs : Concrete args) (hkinds : Concrete kinds) : kinds = args := by
  induction args generalizing s kinds with
  | nil => exact List.eq_nil_of_length_eq_zero hlength
  | cons expected args ih =>
    cases kinds with
    | nil => simp at hlength
    | cons found kinds =>
      obtain ⟨u, hu, ht⟩ := Option.bind_eq_some_iff.mp h
      have haccepts := (matchSlot_eq_some.mp hu).1
      rw [Kind.eq_of_accepts haccepts (hargs _ List.mem_cons_self) (hkinds _ List.mem_cons_self),
        ih ht (by simpa using hlength) (hargs.of_subset (List.subset_cons_self _ _))
          (hkinds.of_subset (List.subset_cons_self _ _))]

def Op.castKind? : Op → Option Kind
  | cast kind => some kind
  | _ => none

/-- No signature and no cast of the program mentions a kind that is not concrete. -/
def Program.Monomorphic (p : Program) : Prop :=
  ∀ f ∈ p.functions, Concrete (f.args ++ f.rets) ∧
    ∀ i ∈ f.code, ∀ kind ∈ i.op.castKind?, kind.isConcrete = true

instance (p : Program) : Decidable p.Monomorphic :=
  inferInstanceAs (Decidable (∀ f ∈ p.functions, _))

namespace Walk

structure AllConcrete (w : Walk) : Prop where
  stack : Concrete w.stack
  filled : Concrete w.filled
  bound : w.bound ≤ w.bindings.length

theorem call_of_concrete {functions : List Function} {w w' : Walk} {entry : Nat}
    (h : step functions w (.call entry) = .ok w') (hw : Concrete w.stack)
    (hsig : ∀ f, functions[entry]? = some f → Concrete (f.args ++ f.rets)) :
    ∃ f below, functions[entry]? = some f ∧ w.stack = below ++ f.args ∧
      w' = { w with stack := below ++ f.rets } := by
  obtain ⟨stack, hcall, rfl⟩ := goOn_eq_ok h
  obtain ⟨f, s, hf, hmatch, rfl⟩ := call_eq_ok hcall
  have hargs : Concrete f.args := (hsig f hf).of_subset (List.subset_append_left _ _)
  have hrets : Concrete f.rets := (hsig f hf).of_subset (List.subset_append_right _ _)
  have hle := length_le_of_matchArgs hmatch
  have htop : topKinds w.stack f.args.length = f.args := by
    unfold matchArgs at hmatch
    rw [if_neg (by omega)] at hmatch
    exact Substitution.eq_of_matchSlots hmatch (length_topKinds hle) hargs (hw.drop _)
  refine ⟨f, belowKinds w.stack f.args.length, hf, ?_, ?_⟩
  · calc w.stack = belowKinds w.stack f.args.length ++ topKinds w.stack f.args.length :=
          (List.take_append_drop _ _).symm
      _ = belowKinds w.stack f.args.length ++ f.args := by rw [htop]
  · rw [Substitution.applyAll_of_isConcrete s hrets]

theorem length_le_of_assign {bindings bindings' : List Binding} {slot : Nat} {kinds : List Kind}
    (h : assign bindings slot kinds = (bindings', none)) (hslot : slot ≤ bindings.length) :
    slot + kinds.length ≤ bindings.length := by
  induction kinds generalizing bindings slot with
  | nil => exact hslot
  | cons kind kinds ih =>
    simp only [assign] at h
    split at h
    · next hlt =>
      have := ih h (by rw [List.length_modify]; exact hlt)
      rw [List.length_modify] at this
      rw [List.length_cons]
      omega
    · simp at h

theorem bound_le_of_step {functions : List Function} {w w' : Walk} {op : Op}
    (h : step functions w op = .ok w') (hw : w.bound ≤ w.bindings.length) :
    w'.bound ≤ w'.bindings.length := by
  cases op with
  | bind count =>
    obtain ⟨taken, stack, -, happly, hassign, hw'⟩ := fillSlots_eq_ok h
    obtain ⟨hle, htaken, -⟩ := apply_bind happly
    have hlength := length_assign w.bindings w.bound taken
    have hbound := length_le_of_assign hassign hw
    rw [hassign] at hlength
    rw [htaken, length_topKinds hle] at hbound
    rw [hw', hlength]
    exact hbound
  | unbind count =>
    simp only [step, Except.ok.injEq] at h
    rw [← h]
    exact Nat.le_trans (Nat.sub_le _ _) hw
  | _ =>
    rw [bound_of_step h, (fills_of_step h (by simp)).length]
    exact hw

theorem AllConcrete.step {functions : List Function} {w w' : Walk} {op : Op} (hw : w.AllConcrete)
    (h : step functions w op = .ok w')
    (hcast : ∀ kind, op = .cast kind → kind.isConcrete = true)
    (hslot : ∀ slot, op = .pushBind slot → slot < w.bound)
    (hsig : ∀ f ∈ functions, Concrete (f.args ++ f.rets)) : w'.AllConcrete := by
  have hbound := bound_le_of_step h hw.bound
  by_cases hcall : ∃ entry, op = .call entry
  · obtain ⟨entry, rfl⟩ := hcall
    obtain ⟨f, below, hf, hstack, hw'⟩ :=
      call_of_concrete h hw.stack fun f hf => hsig f (List.mem_of_getElem? hf)
    have hbelow : Concrete below := by
      apply hw.stack.of_subset
      rw [hstack]
      exact List.subset_append_left _ _
    have hrets : Concrete f.rets :=
      (hsig f (List.mem_of_getElem? hf)).of_subset (List.subset_append_right _ _)
    subst hw'
    exact ⟨hbelow.append hrets, hw.filled, hbound⟩
  · -- the new kinds are tags, which stay concrete
    have hretag := retag_of_step h (fun entry heq => hcall ⟨entry, heq⟩)
      (fun name heq => Kind.ne_param_of_isConcrete (hcast _ heq) name rfl) hslot hw.bound []
    have hconcrete := Op.concrete_retag (Concrete.reverse_iff.mpr hw.stack) hw.filled hcast
      (fun slot hop => by rw [length_filled hw.bound]; exact hslot slot hop)
    simp only [List.append_nil] at hretag
    rw [hretag] at hconcrete
    exact ⟨Concrete.reverse_iff.mp hconcrete.1, hconcrete.2, hbound⟩

theorem eq_of_endViolation? {w : Walk} {f : Function} (h : w.endViolation? f = none) {j : Nat}
    {declared found : Kind} (hdeclared : f.rets[j]? = some declared)
    (hfound : w.stack[j]? = some found) (hconcrete : declared.isConcrete = true)
    (hconcrete' : found.isConcrete = true) : found = declared := by
  have hlength := (Function.endViolation?_eq_none h).2
  unfold endViolation? at h
  rw [if_neg (by simp [(Function.endViolation?_eq_none h).1]), if_neg (by omega),
    if_neg (by omega), Option.map_eq_none_iff, List.find?_eq_none] at h
  have hpair : (f.rets.zip w.stack)[j]? = some (declared, found) := by
    rw [List.getElem?_zip_eq_some]
    exact ⟨hdeclared, hfound⟩
  have hsame := h _ (List.mem_of_getElem? hpair)
  simp only [hconcrete, hconcrete', Bool.and_self, Bool.true_and, decide_eq_true_eq, not_not]
    at hsame
  exact hsame.symm

theorem stack_of_endViolation? {w : Walk} {f : Function} (h : w.endViolation? f = none)
    (hstack : Concrete w.stack) (hrets : Concrete f.rets) : w.stack = f.rets := by
  apply List.ext_getElem (Function.endViolation?_eq_none h).2
  intro k hk hk'
  exact eq_of_endViolation? h (List.getElem?_eq_getElem hk') (List.getElem?_eq_getElem hk)
    (hrets _ (List.getElem_mem hk')) (hstack _ (List.getElem_mem hk))

end Walk

theorem Function.Checked.endViolation?_of_stateAt {functions : List Function} {f g : Function}
    (h : Checked functions f g) {w : Walk} (hw : f.stateAt functions g.code.length = some w) :
    w.endViolation? f = none := by
  obtain ⟨u, hu, -⟩ := h.walk
  rw [h.length_code, stateAt, Walk.before_length hu, Option.some.injEq] at hw
  rw [← hw]
  exact h.results u hu

namespace Accepted

variable {p q : Program} (h : Accepted p q) (hmono : p.Monomorphic)
include h hmono

theorem cast_of_monomorphic {n : Nat} {f g : Function} (hf : p.functions[n]? = some f)
    (hg : q.functions[n]? = some g) {ip : Nat} {j : Instruction} (hj : g.code[ip]? = some j)
    (kind : Kind) (hop : j.op = .cast kind) : kind.isConcrete = true := by
  have hchecked := h.validated.checked_of_getElem? hf hg
  obtain ⟨i, _, _, hi, -, -, hresolve, -⟩ := hchecked.instruction hj
  apply (hmono f (List.mem_of_getElem? hf)).2 i (List.mem_of_getElem? hi)
  rw [← Walk.eq_of_resolve hresolve (by simp [hop]), hop]
  rfl

theorem allConcrete_of_stateAt {n : Nat} {f g : Function} (hf : p.functions[n]? = some f)
    (hg : q.functions[n]? = some g) {ip : Nat} (hip : ip ≤ g.code.length) {w : Walk}
    (hw : f.stateAt p.functions ip = some w) : w.AllConcrete := by
  have hsig := fun f hf => (hmono f hf).1
  apply h.of_stateAt hf hg _ _ hip hw
  · refine ⟨?_, ?_, Nat.zero_le _⟩
    · exact (hsig f (List.mem_of_getElem? hf)).of_subset (List.subset_append_left _ _)
    · simp [Walk.filled, Function.start, Concrete]
  · intro ip j u u' hj hsite hu
    apply hu.step hsite.step _ hsite.slot hsig
    exact h.cast_of_monomorphic hmono hf hg hj

theorem stack_of_end {n : Nat} {f g : Function} (hf : p.functions[n]? = some f)
    (hg : q.functions[n]? = some g) {w : Walk}
    (hw : f.stateAt p.functions g.code.length = some w) : w.stack = g.rets := by
  have hchecked := h.validated.checked_of_getElem? hf hg
  have hconcrete := (h.allConcrete_of_stateAt hmono hf hg (Nat.le_refl _) hw).stack
  have hrets : Concrete f.rets :=
    (hmono f (List.mem_of_getElem? hf)).1.of_subset (List.subset_append_right _ _)
  rw [hchecked.rets]
  exact Walk.stack_of_endViolation? (hchecked.endViolation?_of_stateAt hw) hconcrete hrets

end Accepted

theorem Function.Checked.kept {functions : List Function} {f g : Function}
    (h : Checked functions f g) (hf : f.Readable functions) {ip : Nat} (hip : ip ≤ g.code.length)
    {w : Walk} (hw : f.stateAt functions ip = some w) {k : Nat} (hk : k < w.bound) :
    g.bindings[k]? = w.bindings[k]? := by
  obtain ⟨body, ending, hcode, hbody, htidy, hending⟩ := hf.read.split
  have hone : ending = [] ∨ ∃ loc count, ending = [⟨loc, .unbind count⟩] := by
    rcases hending with ⟨hnil, -⟩ | ⟨loc, hone, -⟩
    · exact Or.inl hnil
    · exact Or.inr ⟨loc, _, hone⟩
  rcases Nat.lt_or_ge body.length ip with hlt | hle
  · -- past the body there is only the end, where no slot is filled
    have hend : ip = g.code.length := by
      have hlength := h.length_code
      rw [hcode, List.length_append] at hlength
      rcases hone with rfl | ⟨loc, count, rfl⟩
      · simp only [List.length_nil] at hlength
        omega
      · simp only [List.length_singleton] at hlength
        omega
    rw [hend] at hw
    rw [h.bound_of_end hf hw] at hk
    exact absurd hk (Nat.not_lt_zero k)
  · have hto := h.fills hcode htidy.emitted hle (Nat.le_refl _)
    rw [Function.states_of_stateAt hw] at hto
    rw [← hto.kept k hk, h.bindings_body hcode hone]

namespace Accepted

theorem filled_of_stateAt {p q : Program} (h : Accepted p q) {n : Nat} {f g : Function}
    (hf : p.functions[n]? = some f) (hg : q.functions[n]? = some g) {ip : Nat}
    (hip : ip ≤ g.code.length) {w : Walk} (hw : f.stateAt p.functions ip = some w) :
    w.filled = (g.bindings.take w.bound).map (·.kind) := by
  have hreadable := readable_of_wellRead h.read h.words f (List.mem_of_getElem? hf)
  have hchecked := h.validated.checked_of_getElem? hf hg
  unfold Walk.filled
  congr 1
  apply List.ext_getElem?
  intro k
  rw [List.getElem?_take, List.getElem?_take]
  split
  · next hk => rw [hchecked.kept hreadable hip hw hk]
  · rfl

theorem exists_stateAt {p q : Program} (h : Accepted p q) {n : Nat} {f g : Function}
    (hf : p.functions[n]? = some f) (hg : q.functions[n]? = some g) {ip next : Nat} {op : Op}
    {w w' : Walk} (hlt : ip < g.code.length) (hsite : Function.Site p.functions f g ip op w w')
    (hnext : next = ip + 1 ∨ op.target? = some next) :
    ∃ u, f.stateAt p.functions next = some u ∧ next ≤ g.code.length ∧ u.stack = w'.stack ∧
      u.filled = w'.filled := by
  rcases hnext with rfl | htarget
  · exact ⟨w', hsite.after, hlt, rfl, rfl⟩
  · obtain ⟨hlt', u, hu, hstack, hbound⟩ := hsite.target next htarget
    refine ⟨u, hu, Nat.le_of_lt hlt', hstack, ?_⟩
    rw [h.filled_of_stateAt hf hg hlt hsite.after,
      h.filled_of_stateAt hf hg (Nat.le_of_lt hlt') hu, hbound]

end Accepted

def Outcome.map {σ τ φ : Type} (f : σ → τ) : Outcome σ φ → Outcome τ φ
  | .next s => .next (f s)
  | .ask request resume => .ask request fun reply => f (resume reply)
  | .halt => .halt
  | .fault why => .fault why

theorem Outcome.all_map {σ τ φ : Type} {f : σ → τ} {o : Outcome σ φ} {post : τ → Prop} :
    (o.map f).All post ↔ o.All fun s => post (f s) := by
  cases o <;> rfl

theorem Outcome.All.and {σ φ : Type} {o : Outcome σ φ} {post post' : σ → Prop} (h : o.All post)
    (h' : o.All post') : o.All fun s => post s ∧ post' s := by
  cases o with
  | next s => exact ⟨h, h'⟩
  | ask request resume => exact fun reply => ⟨h reply, h' reply⟩
  | halt => trivial
  | fault why => trivial

namespace Machine

/-- A tag for every operand, the top one first, and for every filled slot of every activation. -/
structure Tags where
  stack : List Kind
  /-- The tags of the slots, those of the innermost activation first. -/
  slots : List (List Kind)

def retag (q : Program) (c : Config) (t : Tags) : Tags :=
  match c.frames with
  | [] => t
  | f :: _ => match q.functions[f.entry]?.bind (·.code[f.ip]?) with
    | none => { t with slots := t.slots.tail }
    | some i => match i.op with
      | .call _ => { t with slots := [] :: t.slots }
      | op =>
        let (stack, slots) := op.retag t.stack (t.slots.headD [])
        ⟨stack, slots :: t.slots.tail⟩

/-- The machine with tags beside its values. -/
def tagStep (q : Program) (env : Env) (s : Config × Tags) : Outcome (Config × Tags) Fault :=
  (step q env s.1).map fun c => (c, retag q s.1 s.2)

theorem exists_tags_of_run {q : Program} {env : Env} {c d : Config}
    {trace : List (SystemCall × Reply)} (h : Run (step q env) (fun _ => True) c trace d)
    (t : Tags) :
    ∃ t', Run (tagStep q env) (fun _ => True) (c, t) trace (d, t') := by
  induction h with
  | refl => exact ⟨t, .refl⟩
  | @next trace s s' _ hstep _ ih =>
    obtain ⟨u, hu⟩ := ih
    refine ⟨retag q s u, .next hu ?_ trivial⟩
    simp [tagStep, hstep, Outcome.map]
  | @ask trace s request resume _ hstep reply _ ih =>
    obtain ⟨u, hu⟩ := ih
    have hask : tagStep q env (s, u) = .ask request fun reply => (resume reply, retag q s u) := by
      simp [tagStep, hstep, Outcome.map]
    exact ⟨retag q s u, .ask hu hask reply trivial⟩

/--
The tags of activations that wait for `awaited` on top of their operands: what the walk has at each
instruction, operands and filled slots.
-/
inductive Tracks (p q : Program) : List Activation → (awaited stack : List Kind) →
    (slots : List (List Kind)) → Prop
  | nil : Tracks p q [] [] [] []
  | cons {f callers awaited own rest outer f₀ g w} (hread : p.functions[f.entry]? = some f₀)
      (hchecked : q.functions[f.entry]? = some g) (hstate : f₀.stateAt p.functions f.ip = some w)
      (hip : f.ip ≤ g.code.length) (hown : own.reverse ++ awaited = w.stack)
      (hcallers : Tracks p q callers g.rets rest outer) :
      Tracks p q (f :: callers) awaited (own ++ rest) (w.filled :: outer)

section

variable {p q : Program}

theorem Tracks.arrive {frames : List Activation} {awaited stack : List Kind}
    {slots : List (List Kind)} (h : Tracks p q frames awaited stack slots) :
    Tracks p q frames [] (awaited.reverse ++ stack) slots := by
  cases h with
  | nil => exact Tracks.nil
  | cons hread hchecked hstate hip hown hcallers =>
    rw [← List.append_assoc]
    apply Tracks.cons hread hchecked hstate hip _ hcallers
    rw [List.reverse_append, List.reverse_reverse, List.append_nil, hown]

theorem Tracks.exists {f : Activation} {callers : List Activation} {stack : List Kind}
    {slots : List (List Kind)} (h : Tracks p q (f :: callers) [] stack slots) :
    ∃ f₀ g w rest outer, p.functions[f.entry]? = some f₀ ∧ q.functions[f.entry]? = some g ∧
      f₀.stateAt p.functions f.ip = some w ∧ f.ip ≤ g.code.length ∧
      stack = w.stack.reverse ++ rest ∧ slots = w.filled :: outer ∧
      Tracks p q callers g.rets rest outer := by
  cases h with
  | cons hread hchecked hstate hip hown hcallers =>
    rw [List.append_nil] at hown
    refine ⟨_, _, _, _, _, hread, hchecked, hstate, hip, ?_, rfl, hcallers⟩
    rw [← hown, List.reverse_reverse]

theorem Tracks.of_state {f : Activation} {callers : List Activation} {f₀ g : Function} {w : Walk}
    {rest : List Kind} {outer : List (List Kind)} (hread : p.functions[f.entry]? = some f₀)
    (hchecked : q.functions[f.entry]? = some g) (hstate : f₀.stateAt p.functions f.ip = some w)
    (hip : f.ip ≤ g.code.length) (hcallers : Tracks p q callers g.rets rest outer) :
    Tracks p q (f :: callers) [] (w.stack.reverse ++ rest) (w.filled :: outer) := by
  apply Tracks.cons hread hchecked hstate hip _ hcallers
  rw [List.reverse_reverse, List.append_nil]

theorem frames_of_perform (env : Env) (c : Config) (g : Function) (f : Activation)
    (callers : List Activation) {op : Op} (hcall : ∀ entry, op ≠ .call entry) :
    (perform q env c g f callers op).All fun c' => ∃ ip slots,
      c'.frames = { f with ip, slots } :: callers ∧ (ip = f.ip + 1 ∨ op.target? = some ip) := by
  have hjump : ∀ (d : Config) (t : Nat), op.target? = some t →
      (jump d g f t callers).All fun c' => ∃ ip slots,
        c'.frames = { f with ip, slots } :: callers ∧ (ip = f.ip + 1 ∨ op.target? = some ip) := by
    intro d t ht
    unfold jump
    split
    · exact ⟨t, f.slots, rfl, Or.inr ht⟩
    · trivial
  cases op with
  | branch t =>
    simp only [perform]
    split
    · trivial
    · split
      · exact hjump _ t rfl
      · exact ⟨_, f.slots, rfl, Or.inl rfl⟩
  | otherwise t | jump t => exact hjump c t rfl
  | call entry => exact absurd rfl (hcall entry)
  | syscall arity =>
    simp only [perform]
    split
    · trivial
    · split
      · trivial
      · exact fun _ => ⟨_, f.slots, rfl, Or.inl rfl⟩
  | _ =>
    rw [perform_of_isLocal rfl]
    split
    · trivial
    · exact ⟨_, _, rfl, Or.inl rfl⟩

variable (haccepted : Accepted p q) (hmono : p.Monomorphic)
include haccepted hmono

theorem tracks_of_perform (env : Env) (c : Config) {f : Activation} {callers : List Activation}
    {f₀ g : Function} {w : Walk} {i : Instruction} {rest : List Kind} {outer : List (List Kind)}
    (hread : p.functions[f.entry]? = some f₀) (hchecked : q.functions[f.entry]? = some g)
    (hstate : f₀.stateAt p.functions f.ip = some w) (hi : g.code[f.ip]? = some i)
    (hcallers : Tracks p q callers g.rets rest outer) (hcall : ∀ entry, i.op ≠ .call entry) :
    let r := i.op.retag (w.stack.reverse ++ rest) w.filled
    (perform q env c g f callers i.op).All fun c' =>
      Tracks p q c'.frames [] r.1 (r.2 :: outer) := by
  have hlt := (List.getElem?_eq_some_iff.mp hi).1
  obtain ⟨w', hsite⟩ := haccepted.site hread hchecked hi hstate
  have hconcrete :=
    haccepted.allConcrete_of_stateAt hmono hread hchecked (Nat.le_of_lt hlt) hstate
  have hcast := haccepted.cast_of_monomorphic hmono hread hchecked hi
  rw [Walk.retag_of_step hsite.step hcall
    (fun name heq => Kind.ne_param_of_isConcrete (hcast _ heq) name rfl) hsite.slot hconcrete.bound
    rest]
  apply (frames_of_perform env c g f callers hcall).mono
  rintro c' ⟨ip, slots, hframes, hip⟩
  rw [hframes]
  obtain ⟨u, hu, hle, hstack, hfilled⟩ :=
    haccepted.exists_stateAt hread hchecked hlt hsite hip
  simp only
  rw [← hstack, ← hfilled]
  exact Tracks.of_state (f := { f with ip, slots }) hread hchecked hu hle hcallers

theorem tracks_of_call (env : Env) (c : Config) {f : Activation} {callers : List Activation}
    {f₀ g : Function} {w : Walk} {i : Instruction} {entry : Nat} {rest : List Kind}
    {outer : List (List Kind)} (hread : p.functions[f.entry]? = some f₀)
    (hchecked : q.functions[f.entry]? = some g)
    (hstate : f₀.stateAt p.functions f.ip = some w) (hi : g.code[f.ip]? = some i)
    (hcallers : Tracks p q callers g.rets rest outer) (hop : i.op = .call entry) :
    (perform q env c g f callers (.call entry)).All fun c' =>
      Tracks p q c'.frames [] (w.stack.reverse ++ rest) ([] :: w.filled :: outer) := by
  have hlt := (List.getElem?_eq_some_iff.mp hi).1
  obtain ⟨w', hsite⟩ := haccepted.site hread hchecked hi hstate
  have hconcrete :=
    haccepted.allConcrete_of_stateAt hmono hread hchecked (Nat.le_of_lt hlt) hstate
  have hstep := hsite.step
  rw [hop] at hstep
  obtain ⟨callee₀, below, hcallee₀, hstack, hw'⟩ := Walk.call_of_concrete hstep hconcrete.stack
    fun callee hcallee => (hmono callee (List.mem_of_getElem? hcallee)).1
  obtain ⟨callee, hcallee, hcheck⟩ := haccepted.validated.exists_of_read hcallee₀
  simp only [perform, hcallee]
  split
  · trivial
  · -- the caller keeps what lies below the arguments and waits for the results
    have hcaller : Tracks p q ({ f with ip := f.ip + 1 } :: callers) callee.rets
        (below.reverse ++ rest) (w'.filled :: outer) := by
      apply Tracks.cons (f := { f with ip := f.ip + 1 }) hread hchecked hsite.after hlt _ hcallers
      rw [List.reverse_reverse, hw', hcheck.rets]
    have hfilled : w'.filled = w.filled := by
      rw [hw']
      rfl
    rw [hfilled] at hcaller
    have hown : w.stack.reverse ++ rest =
        callee₀.start.stack.reverse ++ (below.reverse ++ rest) := by
      rw [hstack, List.reverse_append, List.append_assoc]
      rfl
    rw [hown]
    exact Tracks.of_state (f := ⟨entry, 0, [], _⟩) hcallee₀ hcallee rfl (Nat.zero_le _) hcaller

theorem Tracks.step (env : Env) {c : Config} {t : Tags}
    (h : Tracks p q c.frames [] t.stack t.slots) :
    (step q env c).All fun c' =>
      Tracks p q c'.frames [] (retag q c t).stack (retag q c t).slots := by
  unfold Machine.step
  rcases hc : c.frames with _ | ⟨f, callers⟩
  · trivial
  · rw [hc] at h
    obtain ⟨f₀, g, w, rest, outer, hread, hchecked, hstate, hip, hstack, hslots, hcallers⟩ :=
      h.exists
    simp only [hchecked]
    cases hi : g.code[f.ip]? with
    | some i =>
      by_cases hcall : ∃ entry, i.op = .call entry
      · obtain ⟨entry, hop⟩ := hcall
        have hretag : retag q c t = ⟨w.stack.reverse ++ rest, [] :: w.filled :: outer⟩ := by
          simp only [retag, hc, hchecked, Option.bind_some, hi, hop, hstack, hslots]
        rw [hretag]
        simp only [hop]
        exact tracks_of_call haccepted hmono env c hread hchecked hstate hi hcallers hop
      · have hretag : retag q c t = ⟨(i.op.retag (w.stack.reverse ++ rest) w.filled).1,
            (i.op.retag (w.stack.reverse ++ rest) w.filled).2 :: outer⟩ := by
          simp only [retag, hc, hchecked, Option.bind_some, hi, hstack, hslots, List.headD_cons,
            List.tail_cons]
          split
          · next entry hop => exact absurd ⟨entry, hop⟩ hcall
          · rfl
        rw [hretag]
        exact tracks_of_perform haccepted hmono env c hread hchecked hstate hi hcallers
          fun entry hop => hcall ⟨entry, hop⟩
    | none =>
      have hend : f.ip = g.code.length := by
        rw [List.getElem?_eq_none_iff] at hi
        omega
      have hretag : retag q c t = ⟨w.stack.reverse ++ rest, outer⟩ := by
        simp only [retag, hc, hchecked, Option.bind_some, hi, hstack, hslots, List.tail_cons]
      rw [hend] at hstate
      rw [hretag, haccepted.stack_of_end hmono hread hchecked hstate]
      simp only [hend, if_true]
      -- the operands that are left are the results its caller waits for
      exact hcallers.arrive

end

theorem Tracks.initial {p q : Program} (haccepted : Accepted p q) {main : Function}
    (hmain : q.main? = some main) (memory : Store) :
    Tracks p q (Config.initial main.entry memory).frames [] [] [[]] := by
  obtain ⟨m, hm, hchecked, -⟩ := haccepted.validated.main
  rw [hmain, Option.some.injEq] at hm
  subst hm
  obtain ⟨f₀, hread, hcheck⟩ := haccepted.validated.exists_checked hchecked
  have hname : f₀.name = "main" := by
    rw [← hcheck.name]
    simpa using List.find?_some hmain
  obtain ⟨hargs, hrets⟩ := hcheck.main hname
  have hcallers : Tracks p q [] main.rets [] [] := by
    rw [hcheck.rets, hrets]
    exact Tracks.nil
  have hstart := Tracks.of_state (f := ⟨main.entry, 0, [], []⟩) hread hchecked rfl (Nat.zero_le _)
    hcallers
  rw [Function.start, hargs] at hstart
  exact hstart

def SlotTags (q : Program) (f : Activation) (tags : List Kind) : Prop :=
  ∃ g, q.functions[f.entry]? = some g ∧ tags = (g.bindings.take f.slots.length).map (·.kind)

theorem Waiting.tags {p q : Program} (haccepted : Accepted p q) {frames : List Activation} {n : Nat}
    {stack : List Word} {awaited tags : List Kind} {slots : List (List Kind)}
    (h : Waiting p q frames n stack) (htracks : Tracks p q frames awaited tags slots)
    (hn : awaited.length = n) :
    tags.length = stack.length ∧ List.Forall₂ (SlotTags q) frames slots := by
  induction h generalizing awaited tags slots with
  | nil =>
    cases htracks
    exact ⟨rfl, .nil⟩
  | cons hread hchecked hstate hip hown hslots _ ih =>
    cases htracks with
    | cons hread' hchecked' hstate' hip' hown' hcallers' =>
      rw [hread, Option.some.injEq] at hread'
      rw [hchecked, Option.some.injEq] at hchecked'
      subst hread' hchecked'
      rw [hstate, Option.some.injEq] at hstate'
      subst hstate'
      obtain ⟨hrest, houter⟩ := ih hcallers' rfl
      have hlength := congrArg List.length hown'
      simp only [List.length_append, List.length_reverse] at hlength ⊢
      refine ⟨by omega, List.Forall₂.cons ⟨_, hchecked, ?_⟩ houter⟩
      rw [haccepted.filled_of_stateAt hread hchecked hip hstate, hslots]

def Tagged (p q : Program) (s : Config × Tags) : Prop :=
  Sound p q s.1 ∧ Tracks p q s.1.frames [] s.2.stack s.2.slots

theorem Tagged.step {p q : Program} (haccepted : Accepted p q) (hmono : p.Monomorphic) (env : Env)
    {s : Config × Tags} (h : Tagged p q s) : (tagStep q env s).All (Tagged p q) := by
  rw [tagStep, Outcome.all_map]
  apply Outcome.All.and
  · exact h.1.step env haccepted
  · exact h.2.step haccepted hmono env

end Machine

open Machine in
/--
Every run of an accepted program without polymorphism, with a tag for every value: the tags of the
operands of the innermost activation, bottom first, are the kinds of the walk at its instruction,
and the tags of filled slots are the kinds that the check has recorded.
-/
theorem tags_are_the_checked_kinds {loader : Loader} {entry : String} {options : Options}
    {p q : Program} {warnings : List Diagnostic} (hparse : parse loader entry options = .ok p)
    (hvalid : p.validate = (q, .ok warnings)) (hmono : p.Monomorphic) :
    ∃ main, q.main? = some main ∧ ∀ env memory trace,
      (∀ c, Run (step q env) (fun _ => True) (.initial main.entry memory) trace c →
        ∃ t, Run (tagStep q env) (fun _ => True) (.initial main.entry memory, ⟨[], [[]]⟩) trace
          (c, t)) ∧
      ∀ c t, Run (tagStep q env) (fun _ => True) (.initial main.entry memory, ⟨[], [[]]⟩) trace
          (c, t) →
        t.stack.length = c.stack.length ∧ List.Forall₂ (SlotTags q) c.frames t.slots ∧
        ∀ f callers, c.frames = f :: callers → ∃ f₀ w own,
          p.functions[f.entry]? = some f₀ ∧ f₀.stateAt p.functions f.ip = some w ∧
          c.stack = own ++ f.rest ∧ (t.stack.take own.length).reverse = w.stack := by
  have haccepted := accepted_of_parse hparse hvalid
  obtain ⟨main, hmain, -, -⟩ := haccepted.validated.main
  refine ⟨main, hmain, ?_⟩
  intro env memory trace
  refine ⟨fun c hrun => exists_tags_of_run hrun _, ?_⟩
  intro c t hrun
  have hstart : Tagged p q (.initial main.entry memory, ⟨[], [[]]⟩) :=
    ⟨Sound.initial haccepted hmain memory, Tracks.initial haccepted hmain memory⟩
  obtain ⟨hsound, htracks⟩ : Tagged p q (c, t) := by
    apply hrun.invariant hstart
    intro s hs
    exact (hs.step haccepted hmono env).mono fun _ hs' _ => hs'
  obtain ⟨hlength, hslots⟩ := Waiting.tags haccepted hsound htracks rfl
  refine ⟨hlength, hslots, ?_⟩
  intro f callers hframes
  obtain ⟨f₀, g, w, own, hread, hchecked, hstate, -, hstack, hown, -⟩ := hsound.exists hframes
  simp only [hframes] at htracks
  obtain ⟨f₀', g', w', rest, outer, hread', -, hstate', -, htags, -⟩ := htracks.exists
  rw [hread, Option.some.injEq] at hread'
  subst hread'
  rw [hstate, Option.some.injEq] at hstate'
  subst hstate'
  refine ⟨f₀, w, own, hread, hstate, hstack, ?_⟩
  rw [htags, List.take_left' (by rw [List.length_reverse, hown]), List.reverse_reverse]

open Machine in
theorem tags_are_the_checked_kinds_collatz : ∃ p q warnings main,
    parse collatz.loader "main" { library := false } = .ok p ∧ p.validate = (q, .ok warnings) ∧
      p.Monomorphic ∧ q.main? = some main ∧ ∀ env memory trace c t,
        Run (tagStep q env) (fun _ => True) (.initial main.entry memory, ⟨[], [[]]⟩) trace (c, t) →
        t.stack.length = c.stack.length ∧ List.Forall₂ (SlotTags q) c.frames t.slots := by
  obtain ⟨p, q, warnings, _, _, hparse, hvalid, -⟩ := exists_collatz
  have hmono : (parse collatz.loader "main" { library := false }).toOption.map
      (fun p => decide p.Monomorphic) = some true := by
    decide +kernel
  simp only [hparse, Except.toOption, Option.map_some, Option.some.injEq, decide_eq_true_eq]
    at hmono
  obtain ⟨main, hmain, hruns⟩ := tags_are_the_checked_kinds hparse hvalid hmono
  refine ⟨p, q, warnings, main, hparse, hvalid, hmono, hmain, ?_⟩
  intro env memory trace c t hrun
  obtain ⟨hlength, hslots, -⟩ := (hruns env memory trace).2 c t hrun
  exact ⟨hlength, hslots⟩

end StackLang
