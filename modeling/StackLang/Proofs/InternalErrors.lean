import StackLang.Proofs.ControlFlow

/-!
This module contains the absence of internal errors: a program that has been read is refused only
for reasons its author can understand, and one that has been validated can be lowered.
-/

namespace StackLang

/-- Breaches that only code which no source text produces can cause. -/
def Violation.isMalformed : Violation → Bool
  | noSlot _ | unboundSlot _ | strayTest | strayElse | strayEnd | openBlocks | noSignature _
  | unknownWord _ | stated _ _ => true
  | _ => false

def ValidationError.isMalformed : ValidationError → Bool
  | violation _ v => v.isMalformed
  | missingMain => false

def Violation.Reportable (v : Violation) : Prop := v.isInternal = false ∧ v.isMalformed = false

namespace Walk

theorem reportable_of_push {stack results : List Kind} {v : Violation}
    (h : push stack results = .error v) : v.Reportable := by
  unfold push at h
  split at h
  · simp at h
  · simp only [Except.error.injEq] at h
    subst h
    exact ⟨rfl, rfl⟩

theorem reportable_of_apply {op : Op} {stack : List Kind} {v : Violation}
    (h : apply op stack = .error v) (hsig : op.signature? ≠ none) : v.Reportable := by
  unfold apply at h
  split at h
  · next hnone => exact absurd hnone hsig
  · simp only at h
    split at h
    · simp only [Except.error.injEq] at h
      subst h
      exact ⟨rfl, rfl⟩
    · split at h
      · simp only [Except.error.injEq] at h
        subst h
        exact ⟨rfl, rfl⟩
      · split at h
        · next hpush =>
          simp only [Except.error.injEq] at h
          subst h
          exact reportable_of_push hpush
        · simp at h

theorem reportable_of_map_apply {op : Op} {stack : List Kind} {v : Violation}
    (h : (apply op stack).map (·.2) = .error v) (hsig : op.signature? ≠ none) : v.Reportable := by
  cases happly : apply op stack with
  | ok r => simp [happly, Except.map] at h
  | error v' =>
    simp only [happly, Except.map, Except.error.injEq] at h
    subst h
    exact reportable_of_apply happly hsig

theorem reportable_of_matchCall {f : Function} {stack : List Kind} {v : Violation}
    (h : matchCall f stack = .error v) : v.Reportable := by
  unfold matchCall at h
  split at h
  · simp only [Except.error.injEq] at h
    subst h
    exact ⟨rfl, rfl⟩
  · split at h
    · simp only [Except.error.injEq] at h
      subst h
      exact ⟨rfl, rfl⟩
    · simp at h

theorem reportable_of_call {functions : List Function} {entry : Nat} {stack : List Kind}
    {v : Violation} (h : call functions entry stack = .error v)
    (hentry : functions[entry]? ≠ none) : v.Reportable := by
  unfold call at h
  split at h
  · next hnone => exact absurd hnone hentry
  · split at h
    · next hmatch =>
      simp only [Except.error.injEq] at h
      subst h
      exact reportable_of_matchCall hmatch
    · exact reportable_of_push h

theorem reportable_of_resolve {functions : List Function} {stack : List Kind} {op : Op}
    {v : Violation} (h : resolve functions stack op = .error v)
    (hknown : ∀ name, op = .word name → overloads functions name ≠ []) : v.Reportable := by
  unfold resolve at h
  split at h
  · next name =>
    split at h
    · next hnone => exact absurd hnone (hknown name rfl)
    · split at h
      · next hmatch =>
        simp only [Except.error.injEq] at h
        subst h
        exact reportable_of_matchCall hmatch
      · simp at h
    · split at h
      · simp at h
      · simp only [Except.error.injEq] at h
        subst h
        exact ⟨rfl, rfl⟩
  · simp at h

theorem reportable_of_checkBalanced {context : String} {expected found : List Kind} {v : Violation}
    (h : checkBalanced context expected found = .error v) : v.Reportable := by
  unfold checkBalanced at h
  split at h
  · simp only [Except.error.injEq] at h
    subst h
    exact ⟨rfl, rfl⟩
  · split at h
    · simp only [Except.error.injEq] at h
      subst h
      exact ⟨rfl, rfl⟩
    · simp at h

theorem reportable_of_goOn {w : Walk} {r : Except Violation (List Kind)} {stop : Stop}
    (h : w.goOn r = .error stop) (hr : ∀ v, r = .error v → v.Reportable) :
    stop.violation.Reportable := by
  cases r with
  | ok stack => simp [goOn] at h
  | error v =>
    simp only [goOn, fail, Except.error.injEq] at h
    subst h
    exact hr v rfl

def Typed (w : Walk) : Prop := ∀ k < w.bound, ∃ b, w.bindings[k]? = some b ∧ b.kind ≠ .untyped

theorem Fills.typed_of_le {w w' : Walk} (h : Fills w w') (hw : w.Typed)
    (hle : w'.bound ≤ w'.bindings.length) : w'.Typed := by
  intro k hk
  by_cases hlt : k < w.bound
  · rw [h.kept k hlt]
    exact hw k hlt
  · have hb := List.getElem?_eq_getElem (show k < w'.bindings.length by omega)
    exact ⟨_, hb, h.typed k _ (by omega) hk hb⟩

/-- What an operation needs of the state so that it can only fail for a reportable reason. -/
def Fit (functions : List Function) (w : Walk) : Op → Prop
  | .pushBind slot => slot < w.bound
  | .bind count => w.bound + count ≤ w.bindings.length
  | .call entry => functions[entry]? ≠ none
  | .branch _ | .leave _ => w.blocks ≠ []
  | .otherwise _ => ∃ c outer, w.blocks = c :: outer ∧ c.block = .cond ∧ c.tested = true
  | .word _ => False
  | _ => True

theorem reportable_of_fillSlots {w : Walk} {count : Nat} {stop : Stop}
    (h : w.fillSlots count = .error stop) (hle : w.bound + count ≤ w.bindings.length) :
    stop.violation.Reportable := by
  unfold fillSlots at h
  split at h
  · simp only [fail, Except.error.injEq] at h
    subst h
    exact ⟨rfl, rfl⟩
  · split at h
    · next happly =>
      simp only [fail, Except.error.injEq] at h
      subst h
      exact reportable_of_apply happly (by simp [Op.signature?])
    · next taken stack happly =>
      obtain ⟨hcount, htaken, -⟩ := apply_bind happly
      have hassign : (assign w.bindings w.bound taken).2 = none := by
        apply assign_of_le
        rw [htaken, length_topKinds hcount]
        exact hle
      split at h
      · next hsome => simp [hsome] at hassign
      · simp at h

theorem reportable_of_step {functions : List Function} {w : Walk} {op : Op} {stop : Stop}
    (h : step functions w op = .error stop) (htyped : w.Typed) (hfit : w.Fit functions op) :
    stop.violation.Reportable := by
  cases op with
  | pushBind slot =>
    obtain ⟨b, hb, hkind⟩ := htyped slot hfit
    simp only [step, readSlot, hb, if_neg hkind] at h
    apply reportable_of_goOn h
    intro v hv
    exact reportable_of_push hv
  | bind count => exact reportable_of_fillSlots h hfit
  | branch target =>
    simp only [step, test] at h
    split at h
    · next happly =>
      simp only [fail, Except.error.injEq] at h
      subst h
      exact reportable_of_apply happly (by simp [Op.signature?])
    · split at h
      · next hnone => exact absurd hnone hfit
      · split at h
        · simp at h
        · split at h
          · next hbalanced =>
            simp only [fail, Except.error.injEq] at h
            subst h
            exact reportable_of_checkBalanced hbalanced
          · simp at h
  | otherwise target =>
    obtain ⟨c, outer, hblocks, hcond, htested⟩ := hfit
    simp only [step, orElse, hblocks, hcond, htested, and_self, if_true] at h
    split at h
    · next hbalanced =>
      simp only [fail, Except.error.injEq] at h
      subst h
      exact reportable_of_checkBalanced hbalanced
    · simp at h
  | leave block =>
    simp only [step, leave] at h
    split at h
    · next hnone => exact absurd hnone hfit
    · split at h
      · next hbalanced =>
        simp only [fail, Except.error.injEq] at h
        subst h
        exact reportable_of_checkBalanced hbalanced
      · simp at h
  | unbind _ | enter _ | jump _ => simp [step] at h
  | word name => exact absurd hfit id
  | call entry =>
    apply reportable_of_goOn h
    intro v hv
    exact reportable_of_call hv hfit
  | pushInt _ | pushBool _ | pushChar _ | pushStr _ | pushPtr _ =>
    apply reportable_of_goOn h
    intro v hv
    exact reportable_of_push hv
  | prim _ | cast _ | syscall _ =>
    apply reportable_of_goOn h
    intro v hv
    exact reportable_of_map_apply hv (by simp [Op.signature?])

/-- A walk over code that ends in a state with `post`, or for a reportable reason. -/
def Proper (functions : List Function) (w : Walk) (code : List Instruction) (post : Walk → Prop) :
    Prop :=
  match (run functions w code).outcome with
  | .error e => e.2.violation.Reportable
  | .ok w' => post w'

namespace Proper

variable {functions : List Function} {w : Walk} {post : Walk → Prop}

theorem nil (h : post w) : Proper functions w [] post := h

theorem append {a b : List Instruction}
    (h : Proper functions w a fun w' => Proper functions w' b post) :
    Proper functions w (a ++ b) post := by
  unfold Proper at h ⊢
  rw [outcome_append]
  cases hrun : (run functions w a).outcome with
  | error e =>
    rw [hrun] at h
    exact h
  | ok w' =>
    rw [hrun] at h
    exact h

theorem mono {code : List Instruction} {post' : Walk → Prop} (h : Proper functions w code post)
    (hpost : ∀ w', post w' → post' w') : Proper functions w code post' := by
  unfold Proper at h ⊢
  cases hrun : (run functions w code).outcome with
  | error e =>
    rw [hrun] at h
    exact h
  | ok w' =>
    rw [hrun] at h
    exact hpost w' h

theorem cons {i : Instruction} {rest : List Instruction}
    (hresolve : ∀ v, resolve functions w.stack i.op = .error v → v.Reportable)
    (hstep : ∀ op stop, resolve functions w.stack i.op = .ok op →
      step functions w op = .error stop → stop.violation.Reportable)
    (hrest : ∀ op w', resolve functions w.stack i.op = .ok op → step functions w op = .ok w' →
      Proper functions w' rest post) : Proper functions w (i :: rest) post := by
  unfold Proper
  simp only [run]
  split
  · next e he =>
    split at he
    · next v hv =>
      simp only [Except.error.injEq] at he
      subst he
      exact hresolve v hv
    · next op hop =>
      split at he
      · next stop hstop =>
        simp only [Except.error.injEq] at he
        subst he
        exact hstep op stop hop hstop
      · next w' hw' =>
        have := hrest op w' hop hw'
        unfold Proper at this
        simp only at he
        rwa [he] at this
  · next u hu =>
    split at hu
    · simp at hu
    · next op hop =>
      split at hu
      · simp at hu
      · next w' hw' =>
        have := hrest op w' hop hw'
        unfold Proper at this
        simp only at hu
        rwa [hu] at this

theorem enter {loc : Location} {block : Block} {rest : List Instruction}
    (h : Proper functions (w.enter block) rest post) :
    Proper functions w (⟨loc, .enter block⟩ :: rest) post := h

theorem jump {loc : Location} {target : Nat} {rest : List Instruction}
    (h : Proper functions w rest post) : Proper functions w (⟨loc, .jump target⟩ :: rest) post := h

theorem cons_of_fit {loc : Location} {op : Op} {rest : List Instruction} (htyped : w.Typed)
    (hfit : w.Fit functions op)
    (hrest : ∀ w', step functions w op = .ok w' → Proper functions w' rest post) :
    Proper functions w (⟨loc, op⟩ :: rest) post := by
  have hresolve : resolve functions w.stack op = .ok op := by
    cases op with
    | word name => exact absurd hfit id
    | _ => rfl
  apply cons
  · intro v hv
    simp [hresolve] at hv
  · intro op' stop hop hstop
    rw [hresolve, Except.ok.injEq] at hop
    subst hop
    exact reportable_of_step hstop htyped hfit
  · intro op' w' hop hw'
    rw [hresolve, Except.ok.injEq] at hop
    subst hop
    exact hrest w' hw'

end Proper

theorem le_slotsAfter {bound total : Nat} {code : List Instruction}
    (h : slotsAfter bound code = some total) : bound ≤ total := by
  induction code generalizing bound with
  | nil =>
    simp only [slotsAfter, Option.some.injEq] at h
    omega
  | cons i rest ih =>
    simp only [slotsAfter] at h
    split at h
    · have := ih h
      omega
    · split at h
      · exact ih h
      · simp at h
    · simp at h
    · exact ih h

theorem slotsAfter_cons {bound total : Nat} {i : Instruction} {rest : List Instruction}
    (h : slotsAfter bound (i :: rest) = some total) :
    (∀ slot, i.op = .pushBind slot → slot < bound) ∧
      slotsAfter (Assembly.boundAfter bound i.op) rest = some total := by
  simp only [slotsAfter] at h
  split at h
  · next hop => simp [hop, Assembly.boundAfter, h]
  · next hop =>
    split at h
    · next hlt => simp [hop, Assembly.boundAfter, h, hlt]
    · simp at h
  · simp at h
  · next hbind hpush hunbind =>
    refine ⟨fun slot hslot => absurd hslot (hpush slot), ?_⟩
    rw [← h]
    congr 1
    unfold Assembly.boundAfter
    split
    · next hop => exact absurd hop (hbind _)
    · next hop => exact absurd hop (hunbind _)
    · rfl

def Known (functions : List Function) (i : Instruction) : Prop :=
  i.op.Emitted ∧ ∀ name, i.op = .word name → overloads functions name ≠ []

structure Binds (size bound : Nat) (w : Walk) : Prop where
  bound : w.bound = bound
  length : w.bindings.length = size
  typed : w.Typed

theorem Binds.of_eq {size bound : Nat} {w w' : Walk} (h : Binds size bound w)
    (hbound : w'.bound = w.bound) (hbindings : w'.bindings = w.bindings) :
    Binds size bound w' where
  bound := hbound.trans h.bound
  length := by rw [hbindings, h.length]
  typed := by
    intro k hk
    rw [hbindings]
    exact h.typed k (by omega)

theorem Binds.enter {size bound : Nat} {w : Walk} (h : Binds size bound w) (block : Block) :
    Binds size bound (w.enter block) := h.of_eq rfl rfl

section

variable {functions : List Function} {w : Walk} {size bound : Nat} {loc : Location}
  {rest : List Instruction} {post : Walk → Prop} {c : Checkpoint} {outer : List Checkpoint}

theorem Proper.plain {i : Instruction} (h : Binds size bound w) (hknown : Known functions i)
    (hplain : i.op.isPlain = true) (hslot : ∀ slot, i.op = .pushBind slot → slot < bound)
    (hbound : Assembly.boundAfter bound i.op ≤ size)
    (hrest : ∀ w', w'.blocks = w.blocks → Binds size (Assembly.boundAfter bound i.op) w' →
      Proper functions w' rest post) : Proper functions w (i :: rest) post := by
  obtain ⟨rfl, rfl, htyped⟩ := h
  obtain ⟨hemitted, hword⟩ := hknown
  apply Proper.cons
  · intro v hv
    exact reportable_of_resolve hv hword
  · intro op stop hresolve hstop
    apply reportable_of_step hstop htyped
    rcases resolve_eq_ok hresolve with ⟨rfl, hne⟩ | ⟨_, entry, f, -, rfl, hf, -⟩
    · cases hop : i.op with
      | pushBind slot => exact hslot slot hop
      | bind count =>
        rw [hop] at hbound
        exact hbound
      | word name => exact absurd hop (hne name)
      | call entry =>
        rw [hop] at hemitted
        exact absurd hemitted id
      | enter _ | branch _ | otherwise _ | jump _ | leave _ => simp [hop, Op.isPlain] at hplain
      | _ => trivial
    · simp [Fit, hf]
  · intro op w' hresolve hstep
    have hafter : Assembly.boundAfter w.bound op = Assembly.boundAfter w.bound i.op := by
      rcases resolve_eq_ok hresolve with ⟨rfl, -⟩ | ⟨_, _, _, hop, rfl, -⟩
      · rfl
      · rw [hop]
        rfl
    have hop := isPlain_of_resolve hresolve hplain
    have hfills : Fills w w' := by
      apply fills_of_step hstep
      intro count heq
      simp [heq, Op.isPlain] at hop
    have hbound' := bound_of_step hstep
    rw [hafter] at hbound'
    apply hrest w' (plain_of_step hstep hop).1
    refine ⟨hbound', hfills.length, hfills.typed_of_le htyped ?_⟩
    rw [hbound', hfills.length]
    exact hbound

theorem Proper.branch {target : Nat} (h : Binds size bound w) (hblocks : w.blocks = c :: outer)
    (hrest : ∀ w' c', w'.blocks = c' :: outer → c'.block = c.block → c'.tested = true →
      Binds size bound w' → Proper functions w' rest post) :
    Proper functions w (⟨loc, .branch target⟩ :: rest) post := by
  apply Proper.cons_of_fit h.typed
  · simp [Fit, hblocks]
  · intro w' hstep
    obtain ⟨_, _, d, c', outer', -, hblocks', hblock, -, -, htested, rfl⟩ := test_eq_ok hstep
    rw [hblocks, List.cons.injEq] at hblocks'
    obtain ⟨rfl, rfl⟩ := hblocks'
    exact hrest _ c' rfl hblock htested (h.of_eq rfl rfl)

theorem Proper.otherwise {target : Nat} (h : Binds size bound w) (hblocks : w.blocks = c :: outer)
    (hcond : c.block = .cond) (htested : c.tested = true)
    (hrest : ∀ w' c', w'.blocks = c' :: outer → Binds size bound w' →
      Proper functions w' rest post) :
    Proper functions w (⟨loc, .otherwise target⟩ :: rest) post := by
  apply Proper.cons_of_fit h.typed
  · exact ⟨c, outer, hblocks, hcond, htested⟩
  · intro w' hstep
    obtain ⟨d, outer', hblocks', -, rfl⟩ := orElse_eq_ok hstep
    rw [hblocks, List.cons.injEq] at hblocks'
    obtain ⟨rfl, rfl⟩ := hblocks'
    exact hrest _ _ rfl (h.of_eq rfl rfl)

theorem Proper.leave {block : Block} (h : Binds size bound w) (hblocks : w.blocks = c :: outer)
    (hrest : ∀ w', w'.blocks = outer → Binds size bound w' → Proper functions w' rest post) :
    Proper functions w (⟨loc, .leave block⟩ :: rest) post := by
  apply Proper.cons_of_fit h.typed
  · simp [Fit, hblocks]
  · intro w' hstep
    obtain ⟨d, outer', hblocks', -, rfl⟩ := leave_eq_ok hstep
    rw [hblocks, List.cons.injEq] at hblocks'
    obtain ⟨rfl, rfl⟩ := hblocks'
    exact hrest _ rfl (h.of_eq rfl rfl)

end

/--
A walk over code as reading emits it fails for reportable reasons only. At the end its blocks are
closed.
-/
theorem Proper.nested {functions : List Function} {w : Walk} {start size bound total : Nat}
    {code : List Instruction} (hcode : Nested start code) (h : Binds size bound w)
    (hknown : ∀ i ∈ code, Known functions i) (hslots : slotsAfter bound code = some total)
    (hle : total ≤ size) :
    Proper functions w code fun w' => w'.blocks = w.blocks ∧ Binds size total w' := by
  -- marks of blocks leave the slots, so the parts of a block follow each other as if flat
  induction hcode generalizing w bound total with
  | nil =>
    simp only [slotsAfter, Option.some.injEq] at hslots
    subst hslots
    exact Proper.nil ⟨rfl, h⟩
  | @plain start i rest hplain _ ih =>
    obtain ⟨hslot, hafter⟩ := slotsAfter_cons hslots
    have hbound := le_slotsAfter hafter
    rw [List.forall_mem_cons] at hknown
    apply Proper.plain h hknown.1 hplain hslot (by omega)
    intro w₁ hblocks₁ h₁
    apply (ih h₁ hknown.2 hafter hle).mono
    rintro w₂ ⟨hblocks₂, h₂⟩
    exact ⟨hblocks₂.trans hblocks₁, h₂⟩
  | cond _ _ _ _ ihpre ihbody ihrest =>
    simp only [slotsAfter, slotsAfter_append, Option.bind_eq_some_iff] at hslots
    obtain ⟨inner, hpre, last, hbody, hrest⟩ := hslots
    have hle₁ := le_slotsAfter hrest
    have hle₂ := le_slotsAfter hbody
    simp only [List.forall_mem_cons, List.forall_mem_append] at hknown
    obtain ⟨-, hknownPre, -, hknownBody, -, hknownRest⟩ := hknown
    apply Proper.enter
    apply Proper.append
    apply (ihpre (h.enter .cond) hknownPre hpre (by omega)).mono
    rintro w₁ ⟨hblocks₁, h₁⟩
    apply Proper.branch h₁ hblocks₁
    intro w₂ c₂ hblocks₂ _ _ h₂
    apply Proper.append
    apply (ihbody h₂ hknownBody hbody (by omega)).mono
    rintro w₃ ⟨hblocks₃, h₃⟩
    apply Proper.leave h₃ (hblocks₃.trans hblocks₂)
    intro w₄ hblocks₄ h₄
    apply (ihrest h₄ hknownRest hrest hle).mono
    rintro w₅ ⟨hblocks₅, h₅⟩
    exact ⟨hblocks₅.trans hblocks₄, h₅⟩
  | condElse _ _ _ _ _ _ ihpre ihfirst ihsecond ihrest =>
    simp only [slotsAfter, slotsAfter_append, Option.bind_eq_some_iff] at hslots
    obtain ⟨inner, hpre, turn, hfirst, last, hsecond, hrest⟩ := hslots
    have hle₁ := le_slotsAfter hrest
    have hle₂ := le_slotsAfter hsecond
    have hle₃ := le_slotsAfter hfirst
    simp only [List.forall_mem_cons, List.forall_mem_append] at hknown
    obtain ⟨-, hknownPre, -, hknownFirst, -, hknownSecond, -, hknownRest⟩ := hknown
    apply Proper.enter
    apply Proper.append
    apply (ihpre (h.enter .cond) hknownPre hpre (by omega)).mono
    rintro w₁ ⟨hblocks₁, h₁⟩
    apply Proper.branch h₁ hblocks₁
    intro w₂ c₂ hblocks₂ hblock₂ htested₂ h₂
    apply Proper.append
    apply (ihfirst h₂ hknownFirst hfirst (by omega)).mono
    rintro w₃ ⟨hblocks₃, h₃⟩
    apply Proper.otherwise h₃ (hblocks₃.trans hblocks₂) hblock₂ htested₂
    intro w₄ c₄ hblocks₄ h₄
    apply Proper.append
    apply (ihsecond h₄ hknownSecond hsecond (by omega)).mono
    rintro w₅ ⟨hblocks₅, h₅⟩
    apply Proper.leave h₅ (hblocks₅.trans hblocks₄)
    intro w₆ hblocks₆ h₆
    apply (ihrest h₆ hknownRest hrest hle).mono
    rintro w₇ ⟨hblocks₇, h₇⟩
    exact ⟨hblocks₇.trans hblocks₆, h₇⟩
  | loop _ _ _ _ ihtest ihbody ihrest =>
    simp only [slotsAfter, slotsAfter_append, Option.bind_eq_some_iff] at hslots
    obtain ⟨inner, htest, last, hbody, hrest⟩ := hslots
    have hle₁ := le_slotsAfter hrest
    have hle₂ := le_slotsAfter hbody
    simp only [List.forall_mem_cons, List.forall_mem_append] at hknown
    obtain ⟨-, hknownTest, -, hknownBody, -, -, hknownRest⟩ := hknown
    apply Proper.enter
    apply Proper.append
    apply (ihtest (h.enter .loop) hknownTest htest (by omega)).mono
    rintro w₁ ⟨hblocks₁, h₁⟩
    apply Proper.branch h₁ hblocks₁
    intro w₂ c₂ hblocks₂ _ _ h₂
    apply Proper.append
    apply (ihbody h₂ hknownBody hbody (by omega)).mono
    rintro w₃ ⟨hblocks₃, h₃⟩
    apply Proper.jump
    apply Proper.leave h₃ (hblocks₃.trans hblocks₂)
    intro w₄ hblocks₄ h₄
    apply (ihrest h₄ hknownRest hrest hle).mono
    rintro w₅ ⟨hblocks₅, h₅⟩
    exact ⟨hblocks₅.trans hblocks₄, h₅⟩

end Walk

def ValidationError.Reportable (e : ValidationError) : Prop :=
  e.isInternal = false ∧ e.isMalformed = false

structure Function.Readable (functions : List Function) (f : Function) : Prop where
  read : ReadCode f.code f.bindings
  words : ∀ i ∈ f.code, ∀ name, i.op = .word name → Walk.overloads functions name ≠ []

namespace Function

theorem Readable.proper_body {functions : List Function} {f : Function} (h : f.Readable functions)
    {body ending : List Instruction} (hcode : f.code = body ++ ending) (hbody : Nested 0 body)
    (htidy : Tidy f.bindings.length body) :
    Walk.Proper functions f.start body fun w =>
      w.blocks = [] ∧ Walk.Binds f.bindings.length f.bindings.length w := by
  have hwords := h.words
  rw [hcode] at hwords
  have hstart : Walk.Binds f.bindings.length 0 f.start :=
    ⟨rfl, rfl, fun k hk => absurd hk (Nat.not_lt_zero k)⟩
  apply Walk.Proper.nested hbody hstart
  · intro i hi
    exact ⟨htidy.emitted i hi, hwords i (List.mem_append_left _ hi)⟩
  · exact htidy.slots
  · exact Nat.le_refl _

theorem Readable.proper {functions : List Function} {f : Function} (h : f.Readable functions) :
    Walk.Proper functions f.start f.code fun w => w.blocks = [] := by
  obtain ⟨body, ending, hcode, hbody, htidy, hending⟩ := h.read.split
  have hproper := h.proper_body hcode hbody htidy
  rw [hcode]
  apply Walk.Proper.append
  apply hproper.mono
  intro w hw
  rcases hending with ⟨rfl, -⟩ | ⟨_, rfl, -⟩
  · exact hw.1
  · exact hw.1

theorem reportable_of_endViolation? {w : Walk} {f : Function} {v : Violation}
    (h : w.endViolation? f = some v) (hblocks : w.blocks = []) : v.Reportable := by
  unfold Walk.endViolation? at h
  split at h
  · next hopen => simp [hblocks] at hopen
  · split at h
    · simp only [Option.some.injEq] at h
      subst h
      exact ⟨rfl, rfl⟩
    · split at h
      · simp only [Option.some.injEq] at h
        subst h
        exact ⟨rfl, rfl⟩
      · obtain ⟨_, -, rfl⟩ := Option.map_eq_some_iff.mp h
        exact ⟨rfl, rfl⟩

theorem reportable_of_check {functions : List Function} {f g : Function} {e : ValidationError}
    (h : f.check functions = (g, some e)) (hf : f.Readable functions) : e.Reportable := by
  have hproper := hf.proper
  unfold Walk.Proper start at hproper
  unfold check at h
  split at h
  · simp only [Prod.mk.injEq, Option.some.injEq] at h
    rw [← h.2]
    exact ⟨rfl, rfl⟩
  · simp only at h
    split at h
    · next hstop =>
      simp only [Prod.mk.injEq, Option.some.injEq] at h
      rw [hstop] at hproper
      rw [← h.2]
      exact hproper
    · next hok =>
      simp only [Prod.mk.injEq] at h
      rw [hok] at hproper
      obtain ⟨v, hv, rfl⟩ := Option.map_eq_some_iff.mp h.2
      exact reportable_of_endViolation? hv hproper

end Function

theorem reportable_of_checkFunctions {functions fs gs : List Function} {e : ValidationError}
    (h : checkFunctions functions fs = (gs, some e)) (hfs : ∀ f ∈ fs, f.Readable functions) :
    e.Reportable := by
  induction fs generalizing gs with
  | nil => simp [checkFunctions] at h
  | cons f fs ih =>
    simp only [checkFunctions] at h
    split at h
    · next hcheck =>
      simp only [Prod.mk.injEq, Option.some.injEq] at h
      rw [← h.2]
      exact Function.reportable_of_check hcheck (hfs f List.mem_cons_self)
    · simp only [Prod.mk.injEq] at h
      have hrest : checkFunctions functions fs = ((checkFunctions functions fs).1, some e) := by
        rw [← h.2]
      apply ih hrest
      intro f' hf'
      exact hfs f' (List.mem_cons_of_mem _ hf')

theorem overloads_ne_nil {p : Program} {name : String} (h : p.candidates name ≠ []) :
    Walk.overloads p.functions name ≠ [] := by
  unfold Program.candidates at h
  rw [ne_eq, List.map_eq_nil_iff] at h
  obtain ⟨f, hf⟩ := List.exists_mem_of_ne_nil _ h
  rw [List.mem_filter] at hf
  obtain ⟨n, hn⟩ := List.getElem?_of_mem hf.1
  apply List.ne_nil_of_mem (a := (f, n))
  rw [Walk.overloads, List.mem_filter]
  exact ⟨List.mem_zipIdx_iff_getElem?.mpr hn, hf.2⟩

theorem readable_of_wellRead {p : Program} (hread : WellReadFunctions p.functions)
    (hwords : p.WordsKnown) : ∀ f ∈ p.functions, f.Readable p.functions := by
  intro f hf
  obtain ⟨n, hn⟩ := List.getElem?_of_mem hf
  refine ⟨(hread n f hn).code, ?_⟩
  intro i hi name hname
  exact overloads_ne_nil (hwords f hf i hi name hname)

theorem reportable_of_validate {p q : Program} {e : ValidationError}
    (hread : WellReadFunctions p.functions) (hwords : p.WordsKnown)
    (h : p.validate = (q, .error e)) : e.Reportable := by
  unfold Program.validate at h
  split at h
  · next hcheck =>
    simp only [Prod.mk.injEq, Except.error.injEq] at h
    rw [← h.2]
    exact reportable_of_checkFunctions hcheck (readable_of_wellRead hread hwords)
  · simp only at h
    split at h
    · simp only [Prod.mk.injEq, Except.error.injEq] at h
      rw [← h.2]
      exact ⟨rfl, rfl⟩
    · simp at h

namespace Assembly

def slotsAt (bound : Nat) (code : List Instruction) (ip : Nat) : Nat :=
  (code.take ip).foldl (fun bound i => boundAfter bound i.op) bound

theorem slotsAt_succ {bound : Nat} {code : List Instruction} {ip : Nat} {i : Instruction}
    (hi : code[ip]? = some i) :
    slotsAt bound code (ip + 1) = boundAfter (slotsAt bound code ip) i.op := by
  unfold slotsAt
  rw [List.take_add_one, hi, List.foldl_append]
  rfl

def Lowerable (p : Program) (bound : Nat) : Op → Prop
  | .word _ => False
  | .call entry => Reach.Marked p.functions entry
  | .pushBind slot => slot < bound
  | .syscall arity => arity.toNat ≤ 6
  | _ => True

theorem exists_lowerOp {p : Program} {bound : Nat} {i : Instruction} (h : Lowerable p bound i.op) :
    ∃ instrs, lowerOp p bound i = .ok instrs := by
  unfold lowerOp
  cases hop : i.op with
  | word name =>
    rw [hop] at h
    exact absurd h id
  | pushBind slot =>
    rw [hop] at h
    exact ⟨_, if_pos h⟩
  | syscall arity =>
    rw [hop] at h
    exact ⟨_, if_pos h⟩
  | call entry =>
    rw [hop] at h
    obtain ⟨f, hf, hcalled⟩ := h
    refine ⟨lowerCall entry, ?_⟩
    simp only [hf, hcalled, if_true]
  | _ => exact ⟨_, rfl⟩

theorem exists_lowerCode {p : Program} {bound : Nat} (ip : Nat) {code : List Instruction}
    (h : ∀ k i, code[k]? = some i → Lowerable p (slotsAt bound code k) i.op) :
    ∃ lines, lowerCode p bound ip code = .ok lines := by
  induction code generalizing bound ip with
  | nil => exact ⟨[], rfl⟩
  | cons i rest ih =>
    have hfirst : Lowerable p bound i.op := h 0 i rfl
    have hrest : ∀ k j, rest[k]? = some j →
        Lowerable p (slotsAt (boundAfter bound i.op) rest k) j.op :=
      fun k j hj => h (k + 1) j hj
    obtain ⟨instrs, hinstrs⟩ := exists_lowerOp hfirst
    obtain ⟨lines, hlines⟩ := ih (ip + 1) hrest
    simp only [lowerCode, hinstrs, hlines]
    exact ⟨_, rfl⟩

end Assembly

structure Program.Lowerable (p : Program) : Prop where
  main : ∃ m, p.main? = some m ∧ m.called = true
  words : ∀ f ∈ p.functions, ∀ i ∈ f.code, ∀ name, i.op ≠ .word name
  callees : ∀ f ∈ p.functions, f.called = true → ∀ entry ∈ f.callees,
    Reach.Marked p.functions entry
  slots : ∀ f ∈ p.functions, ∀ (ip : Nat) i slot, f.code[ip]? = some i → i.op = .pushBind slot →
    slot < Assembly.slotsAt 0 f.code ip
  syscalls : ∀ f ∈ p.functions, ∀ i ∈ f.code, ∀ arity, i.op = .syscall arity → arity.toNat ≤ 6

namespace Program.Lowerable

theorem lowerable {p : Program} (h : p.Lowerable) {f : Function} (hf : f ∈ p.functions)
    (hcalled : f.called = true) {ip : Nat} {i : Instruction} (hi : f.code[ip]? = some i) :
    Assembly.Lowerable p (Assembly.slotsAt 0 f.code ip) i.op := by
  have hmem := List.mem_of_getElem? hi
  cases hop : i.op with
  | word name => exact absurd hop (h.words f hf i hmem name)
  | call entry =>
    apply h.callees f hf hcalled
    exact Function.mem_callees.mpr ⟨i, hmem, hop⟩
  | pushBind slot => exact h.slots f hf ip i slot hi hop
  | syscall arity => exact h.syscalls f hf i hmem arity hop
  | _ => trivial

theorem exists_lowerFunctions {p : Program} (h : p.Lowerable) {fs : List Function}
    (hfs : ∀ f ∈ fs, f ∈ p.functions) : ∃ lines, Assembly.lowerFunctions p fs = .ok lines := by
  induction fs with
  | nil => exact ⟨[], rfl⟩
  | cons f fs ih =>
    obtain ⟨others, hothers⟩ := ih fun g hg => hfs g (List.mem_cons_of_mem _ hg)
    unfold Assembly.lowerFunctions
    split
    · next hcalled =>
      obtain ⟨lines, hlines⟩ := Assembly.exists_lowerCode 0 fun k i hi =>
        h.lowerable (hfs f List.mem_cons_self) hcalled hi
      simp only [Assembly.lowerFunction, hlines, hothers]
      exact ⟨_, rfl⟩
    · exact ⟨others, hothers⟩

theorem exists_lower {p : Program} (h : p.Lowerable) : ∃ assembly, p.lower = .ok assembly := by
  obtain ⟨m, hm, hcalled⟩ := h.main
  obtain ⟨lines, hlines⟩ := h.exists_lowerFunctions fun f hf => hf
  unfold Program.lower
  simp only [hm, hcalled, hlines, if_true]
  exact ⟨_, rfl⟩

end Program.Lowerable

namespace Function

variable {functions : List Function} {f g : Function}

theorem Checked.slotsAt_eq (h : Checked functions f g) {ip : Nat} {w : Walk}
    (hle : ip ≤ g.code.length) (hw : f.stateAt functions ip = some w) :
    Assembly.slotsAt 0 g.code ip = w.bound := by
  induction ip generalizing w with
  | zero =>
    simp only [stateAt, Walk.before_zero, Option.some.injEq] at hw
    subst hw
    rfl
  | succ ip ih =>
    have hj := List.getElem?_eq_getElem hle
    obtain ⟨_, u, u', -, hu, hu', -, hstep⟩ := h.instruction hj
    rw [hw, Option.some.injEq] at hu'
    subst hu'
    rw [Walk.bound_of_step hstep, ← ih (by omega) hu, Assembly.slotsAt_succ hj]

theorem Checked.ne_word (h : Checked functions f g) {j : Instruction} (hj : j ∈ g.code)
    (name : String) : j.op ≠ .word name := by
  obtain ⟨ip, hip⟩ := List.getElem?_of_mem hj
  obtain ⟨_, _, _, -, -, -, hresolve, -⟩ := h.instruction hip
  rcases Walk.resolve_eq_ok hresolve with ⟨heq, hne⟩ | ⟨_, _, _, -, heq, -⟩
  · rw [heq]
    exact hne name
  · simp [heq]

theorem Checked.getElem?_of_call (h : Checked functions f g) {j : Instruction} (hj : j ∈ g.code)
    {entry : Nat} (hop : j.op = .call entry) : ∃ callee, functions[entry]? = some callee := by
  obtain ⟨ip, hip⟩ := List.getElem?_of_mem hj
  obtain ⟨_, _, _, -, -, -, -, hstep⟩ := h.instruction hip
  rw [hop] at hstep
  obtain ⟨_, hcall, -⟩ := Walk.goOn_eq_ok hstep
  obtain ⟨callee, _, hcallee, -⟩ := Walk.call_eq_ok hcall
  exact ⟨callee, hcallee⟩

theorem Checked.syscall_le (h : Checked functions f g) (hread : ReadCode f.code f.bindings)
    {j : Instruction} (hj : j ∈ g.code) {arity : UInt8} (hop : j.op = .syscall arity) :
    arity.toNat ≤ 6 := by
  obtain ⟨ip, hip⟩ := List.getElem?_of_mem hj
  obtain ⟨i, _, _, hi, -, -, hresolve, -⟩ := h.instruction hip
  have hi' : i.op = .syscall arity := by
    rw [← Walk.eq_of_resolve hresolve (by simp [hop]), hop]
  obtain ⟨body, ending, hcode, -, htidy, hending⟩ := hread.split
  have hmem := List.mem_of_getElem? hi
  rw [hcode, List.mem_append] at hmem
  rcases hmem with hmem | hmem
  · have := htidy.emitted i hmem
    rwa [hi'] at this
  · rcases hending with ⟨rfl, -⟩ | ⟨_, rfl, -⟩
    · simp at hmem
    · rw [List.mem_singleton] at hmem
      simp [hmem] at hi'

end Function

theorem lowerable_of_accepted {p q : Program} (h : Accepted p q) : q.Lowerable := by
  have hchecked : ∀ g ∈ q.functions, ∃ f, Function.Checked p.functions f g ∧
      ReadCode f.code f.bindings := by
    intro g hg
    obtain ⟨n, hn⟩ := List.getElem?_of_mem hg
    obtain ⟨f, hf, hfg⟩ := h.validated.exists_checked hn
    exact ⟨f, hfg, (h.read n f hf).code⟩
  constructor
  · obtain ⟨m, hm, -, hcalled⟩ := h.validated.main
    exact ⟨m, hm, hcalled⟩
  · intro g hg i hi
    obtain ⟨f, hfg, -⟩ := hchecked g hg
    exact hfg.ne_word hi
  · intro g hg hcalled entry hentry
    obtain ⟨f, hfg, -⟩ := hchecked g hg
    apply h.validated.callees g hg hcalled entry hentry
    obtain ⟨i, hi, hop⟩ := Function.mem_callees.mp hentry
    obtain ⟨callee, hcallee⟩ := hfg.getElem?_of_call hi hop
    rw [h.validated.length_eq]
    exact (List.getElem?_eq_some_iff.mp hcallee).1
  · intro g hg ip i slot hi hop
    obtain ⟨f, hfg, hread⟩ := hchecked g hg
    have hlt := (List.getElem?_eq_some_iff.mp hi).1
    obtain ⟨_, w, _, -, hw, -⟩ := hfg.instruction hi
    rw [hfg.slotsAt_eq (Nat.le_of_lt hlt) hw]
    exact (hfg.slot hread hi hop hw).1
  · intro g hg i hi arity hop
    obtain ⟨f, hfg, hread⟩ := hchecked g hg
    exact hfg.syscall_le hread hi hop

theorem parse_eq_error {loader : Loader} {entry : String} {options : Options} {e : CompileError}
    (h : parse loader entry options = .error e) : ∃ errors, e = .parse errors := by
  unfold parse at h
  cases hread : Program.read loader options.library entry with
  | error errors =>
    simp only [hread, Except.mapError, Except.error.injEq] at h
    exact ⟨errors, h.symm⟩
  | ok p => simp [hread, Except.mapError] at h

/--
Compilation succeeds, or reports what is wrong with the text or with the program, never a fault of
its own. Whatever has been read and validated can be lowered.
-/
theorem compile_reports_no_internal_error (loader : Loader) (entry : String) (options : Options) :
    ((∃ output, compile loader entry options = .ok output) ∨
      (∃ errors, compile loader entry options = .error (.parse errors)) ∨
      ∃ e, compile loader entry options = .error (.validation e) ∧
        e.isInternal = false ∧ e.isMalformed = false) ∧
    ∀ p q warnings, parse loader entry options = .ok p → p.validate = (q, .ok warnings) →
      q.Lowerable ∧ ∃ assembly, q.generate .x86Linux = .ok assembly := by
  have hgenerate : ∀ p q warnings, parse loader entry options = .ok p →
      p.validate = (q, .ok warnings) →
      q.Lowerable ∧ ∃ assembly, q.generate .x86Linux = .ok assembly := by
    intro p q warnings hparse hvalid
    have hlowerable := lowerable_of_accepted (accepted_of_parse hparse hvalid)
    exact ⟨hlowerable, hlowerable.exists_lower⟩
  refine ⟨?_, hgenerate⟩
  unfold compile check
  cases hparse : parse loader entry options with
  | error e =>
    obtain ⟨errors, rfl⟩ := parse_eq_error hparse
    exact Or.inr (Or.inl ⟨errors, rfl⟩)
  | ok p =>
    obtain ⟨hread, hwords⟩ := wellRead_of_parse hparse
    rcases hvalid : p.validate with ⟨q, r⟩
    cases r with
    | error e =>
      simp only [hvalid]
      exact Or.inr (Or.inr ⟨e, rfl, reportable_of_validate hread hwords hvalid⟩)
    | ok warnings =>
      obtain ⟨-, assembly, hassembly⟩ := hgenerate p q warnings hparse hvalid
      cases options.resolvedTarget
      simp only [hvalid, hassembly]
      exact Or.inl ⟨_, rfl⟩

theorem compile_reports_no_internal_error_collatz : ∃ p q warnings assembly,
    parse collatz.loader "main" { library := false } = .ok p ∧ p.validate = (q, .ok warnings) ∧
      q.Lowerable ∧ q.generate .x86Linux = .ok assembly := by
  obtain ⟨p, q, warnings, _, _, hparse, hvalid, -⟩ := exists_collatz
  obtain ⟨hlowerable, assembly, hassembly⟩ :=
    (compile_reports_no_internal_error _ _ _).2 p q warnings hparse hvalid
  exact ⟨p, q, warnings, assembly, hparse, hvalid, hlowerable, hassembly⟩

end StackLang
