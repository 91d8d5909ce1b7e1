import StackLang.Proofs.Validated

/-!
This module contains the blocks of code that has been read. Every mark and every jump belongs to
exactly one block, two blocks are apart or one lies in a part of the other, and every jump leads to
the place of its own block that it has to lead to.
-/

namespace StackLang

def Op.isControl : Op → Bool
  | enter _ | branch _ | otherwise _ | jump _ | leave _ => true
  | _ => false

def opAt (code : List Instruction) (ip : Nat) : Option Op := code[ip]?.map (·.op)

/-- Where the operations that belong to a block stand. -/
structure Extent where
  block : Block
  enter : Nat
  test : Nat
  /-- Where the first branch ends, if there is a second. -/
  turn : Option Nat := none
  /-- Where the body of a loop ends. -/
  back : Option Nat := none
  leave : Nat
deriving DecidableEq

namespace Extent

def marks (e : Extent) : List Nat :=
  e.enter :: e.test :: (e.turn.toList ++ e.back.toList ++ [e.leave])

/-- Where a failed test leads: past the first branch if there is a second, else to the end. -/
def exit (e : Extent) : Nat := (e.turn.map (· + 1)).getD e.leave

structure Stands (code : List Instruction) (e : Extent) : Prop where
  enter : opAt code e.enter = some (.enter e.block)
  test : opAt code e.test = some (.branch e.exit)
  turn : ∀ t, e.turn = some t → e.block = .cond ∧ opAt code t = some (.otherwise e.leave)
  back : ∀ t, e.back = some t →
    e.block = .loop ∧ opAt code t = some (.jump e.enter) ∧ t + 1 = e.leave
  loop : e.block = .loop → e.back.isSome = true
  leave : opAt code e.leave = some (.leave e.block)
  sorted : e.marks.Pairwise (· < ·)

def Apart (e e' : Extent) : Prop := e.leave < e'.enter ∨ e'.leave < e.enter

/-- The block `e` lies between two successive marks of `e'`. -/
def Within (e e' : Extent) : Prop :=
  e'.enter < e.enter ∧ e.leave < e'.leave ∧ ∀ m ∈ e'.marks, m < e.enter ∨ e.leave < m

theorem Stands.le_of_mem {code : List Instruction} {e : Extent} (h : e.Stands code) {m : Nat}
    (hm : m ∈ e.marks) : e.enter ≤ m ∧ m ≤ e.leave := by
  have hsorted := h.sorted
  unfold marks at hm hsorted
  rw [List.pairwise_cons] at hsorted
  constructor
  · rcases List.mem_cons.mp hm with hm | hm
    · omega
    · exact Nat.le_of_lt (hsorted.1 m hm)
  · rw [← List.cons_append, ← List.cons_append, List.mem_append] at hm
    rcases hm with hm | hm
    · apply Nat.le_of_lt
      have hall := h.sorted
      unfold marks at hall
      rw [← List.cons_append, ← List.cons_append, List.pairwise_append] at hall
      exact hall.2.2 m hm e.leave (List.mem_singleton_self _)
    · rw [List.mem_singleton] at hm
      omega

section

variable {code : List Instruction} {e : Extent} (h : e.Stands code) {i : Nat} (hi : i ∈ e.marks)
include h hi

theorem Stands.enter_of_mem {block : Block} (hop : opAt code i = some (.enter block)) :
    e.enter = i ∧ e.block = block := by
  simp only [marks, List.mem_cons, List.mem_append, Option.mem_toList, List.not_mem_nil,
    or_false] at hi
  rcases hi with rfl | rfl | (hi | hi) | rfl
  · rw [h.enter] at hop
    simpa using hop
  · rw [h.test] at hop
    simp at hop
  · rw [(h.turn i hi).2] at hop
    simp at hop
  · rw [(h.back i hi).2.1] at hop
    simp at hop
  · rw [h.leave] at hop
    simp at hop

theorem Stands.target_le {op : Op} {t : Nat} (hop : opAt code i = some op)
    (ht : op.target? = some t) : t ≤ e.leave := by
  have hfirst := (h.le_of_mem (m := e.enter) List.mem_cons_self).2
  simp only [marks, List.mem_cons, List.mem_append, Option.mem_toList, List.not_mem_nil,
    or_false] at hi
  rcases hi with rfl | rfl | (hi | hi) | rfl
  · rw [h.enter, Option.some.injEq] at hop
    simp [← hop, Op.target?] at ht
  · rw [h.test, Option.some.injEq] at hop
    simp only [← hop, Op.target?, Option.some.injEq] at ht
    rw [← ht, exit]
    cases hturn : e.turn with
    | none => simp
    | some turn =>
      have hle := (h.le_of_mem (m := turn) (by simp [marks, hturn])).2
      have hne : turn ≠ e.leave := by
        rintro rfl
        have := h.leave.symm.trans (h.turn _ hturn).2
        simp at this
      simp only [Option.map_some, Option.getD_some]
      omega
  · rw [(h.turn i hi).2, Option.some.injEq] at hop
    simp only [← hop, Op.target?, Option.some.injEq] at ht
    omega
  · rw [(h.back i hi).2.1, Option.some.injEq] at hop
    simp only [← hop, Op.target?, Option.some.injEq] at ht
    omega
  · rw [h.leave, Option.some.injEq] at hop
    simp [← hop, Op.target?] at ht

end

end Extent

def Span (start stop i : Nat) : Prop := start ≤ i ∧ i < stop

/-- Blocks that own the control operations at the indices with `here`, and lie there as a whole. -/
structure Forest (code : List Instruction) (here : Nat → Prop) (blocks : List Extent) : Prop where
  stands : ∀ e ∈ blocks, e.Stands code
  inside : ∀ e ∈ blocks, ∀ i, e.enter ≤ i → i ≤ e.leave → here i
  owned : ∀ i op, here i → opAt code i = some op → op.isControl = true →
    ∃ e ∈ blocks, i ∈ e.marks
  laminar : ∀ e ∈ blocks, ∀ e' ∈ blocks, e = e' ∨ e.Apart e' ∨ e.Within e' ∨ e'.Within e

namespace Forest

variable {code : List Instruction} {here here' : Nat → Prop} {blocks blocks' : List Extent}

theorem nil (h : ∀ i op, here i → opAt code i = some op → op.isControl = false) :
    Forest code here [] := by
  constructor
  · simp
  · simp
  · intro i op hi hop hcontrol
    rw [h i op hi hop] at hcontrol
    simp at hcontrol
  · simp

theorem congr (h : Forest code here blocks) (hhere : ∀ i, here' i ↔ here i) :
    Forest code here' blocks := by
  have heq : here' = here := by
    funext i
    apply propext
    apply hhere
  rw [heq]
  exact h

theorem append (h : Forest code here blocks) (h' : Forest code here' blocks')
    (hdisjoint : ∀ i, here i → ¬ here' i) :
    Forest code (fun i => here i ∨ here' i) (blocks ++ blocks') := by
  -- two blocks that share no index are apart
  have hapart : ∀ e ∈ blocks, ∀ e' ∈ blocks', e.Apart e' := by
    intro e he e' he'
    have hle := ((h.stands e he).le_of_mem List.mem_cons_self).2
    have hle' := ((h'.stands e' he').le_of_mem List.mem_cons_self).2
    unfold Extent.Apart
    by_contra hmeet
    rcases Nat.le_total e.enter e'.enter with hfirst | hfirst
    · apply hdisjoint e'.enter
      · apply h.inside e he <;> omega
      · apply h'.inside e' he' <;> omega
    · apply hdisjoint e.enter
      · apply h.inside e he <;> omega
      · apply h'.inside e' he' <;> omega
  constructor
  · intro e he
    rcases List.mem_append.mp he with he | he
    · exact h.stands e he
    · exact h'.stands e he
  · intro e he i hle hge
    rcases List.mem_append.mp he with he | he
    · exact Or.inl (h.inside e he i hle hge)
    · exact Or.inr (h'.inside e he i hle hge)
  · intro i op hi hop hcontrol
    rcases hi with hi | hi
    · obtain ⟨e, he, hm⟩ := h.owned i op hi hop hcontrol
      exact ⟨e, List.mem_append_left _ he, hm⟩
    · obtain ⟨e, he, hm⟩ := h'.owned i op hi hop hcontrol
      exact ⟨e, List.mem_append_right _ he, hm⟩
  · intro e he e' he'
    rcases List.mem_append.mp he with he | he <;> rcases List.mem_append.mp he' with he' | he'
    · exact h.laminar e he e' he'
    · exact Or.inr (Or.inl (hapart e he e' he'))
    · exact Or.inr (Or.inl (hapart e' he' e he).symm)
    · exact h'.laminar e he e' he'

theorem join {start middle stop : Nat} (h : Forest code (Span start middle) blocks)
    (h' : Forest code (Span middle stop) blocks') (hle : start ≤ middle) (hge : middle ≤ stop) :
    Forest code (Span start stop) (blocks ++ blocks') := by
  apply (h.append h' _).congr
  · intro i
    unfold Span
    omega
  · intro i
    unfold Span
    omega

theorem wrap {e : Extent} (he : e.Stands code) (h : Forest code here blocks)
    (hhere : ∀ i, here i ↔ e.enter < i ∧ i < e.leave ∧ i ∉ e.marks) :
    Forest code (Span e.enter (e.leave + 1)) (e :: blocks) := by
  have hle := (he.le_of_mem List.mem_cons_self).2
  have hwithin : ∀ b ∈ blocks, b.Within e := by
    intro b hb
    have hle := ((h.stands b hb).le_of_mem List.mem_cons_self).2
    have hfirst := (hhere b.enter).mp (h.inside b hb b.enter (Nat.le_refl _) hle)
    have hlast := (hhere b.leave).mp (h.inside b hb b.leave hle (Nat.le_refl _))
    refine ⟨hfirst.1, hlast.2.1, ?_⟩
    intro m hm
    by_contra hmeet
    have := (hhere m).mp (h.inside b hb m (by omega) (by omega))
    exact this.2.2 hm
  constructor
  · intro b hb
    rcases List.mem_cons.mp hb with rfl | hb
    · exact he
    · exact h.stands b hb
  · intro b hb i hle hge
    unfold Span
    rcases List.mem_cons.mp hb with rfl | hb
    · omega
    · have := (hhere i).mp (h.inside b hb i hle hge)
      omega
  · intro i op hi hop hcontrol
    unfold Span at hi
    by_cases hm : i ∈ e.marks
    · exact ⟨e, List.mem_cons_self, hm⟩
    · have hfirst : i ≠ e.enter := by
        rintro rfl
        exact hm List.mem_cons_self
      have hlast : i ≠ e.leave := by
        rintro rfl
        apply hm
        simp [Extent.marks]
      obtain ⟨b, hb, hm⟩ := h.owned i op ((hhere i).mpr ⟨by omega, by omega, hm⟩) hop hcontrol
      exact ⟨b, List.mem_cons_of_mem _ hb, hm⟩
  · intro b hb b' hb'
    rcases List.mem_cons.mp hb with heq | hb <;> rcases List.mem_cons.mp hb' with heq' | hb'
    · exact Or.inl (heq.trans heq'.symm)
    · rw [heq]
      exact Or.inr (Or.inr (Or.inr (hwithin b' hb')))
    · rw [heq']
      exact Or.inr (Or.inr (Or.inl (hwithin b hb)))
    · exact h.laminar b hb b' hb'

theorem eq_of_mem_marks (h : Forest code here blocks) {e e' : Extent} (he : e ∈ blocks)
    (he' : e' ∈ blocks) {i : Nat} (hi : i ∈ e.marks) (hi' : i ∈ e'.marks) : e = e' := by
  have hle := (h.stands e he).le_of_mem hi
  have hle' := (h.stands e' he').le_of_mem hi'
  rcases h.laminar e he e' he' with heq | hapart | ⟨-, -, hwithin⟩ | ⟨-, -, hwithin⟩
  · exact heq
  · unfold Extent.Apart at hapart
    omega
  · have := hwithin i hi'
    omega
  · have := hwithin i hi
    omega

/-- Between the marks of a block, all that lies in no block within it is plain. -/
theorem mem_marks_of_direct (h : Forest code here blocks) {e : Extent} (he : e ∈ blocks) {i : Nat}
    {op : Op} (hop : opAt code i = some op) (hcontrol : op.isControl = true) (hle : e.enter ≤ i)
    (hge : i ≤ e.leave)
    (hdirect : ∀ e' ∈ blocks, e'.Within e → i < e'.enter ∨ e'.leave < i) : i ∈ e.marks := by
  obtain ⟨e', he', hm⟩ := h.owned i op (h.inside e he i hle hge) hop hcontrol
  have hle' := (h.stands e' he').le_of_mem hm
  rcases h.laminar e he e' he' with heq | hapart | ⟨-, -, hwithin⟩ | hwithin
  · rw [heq]
    exact hm
  · unfold Extent.Apart at hapart
    omega
  · have := hwithin i hm
    omega
  · have := hdirect e' he' hwithin
    omega

end Forest

theorem opAt_of_drop {code rest : List Instruction} {ip : Nat} {i : Instruction}
    (h : code.drop ip = i :: rest) : opAt code ip = some i.op ∧ code.drop (ip + 1) = rest := by
  obtain ⟨hi, hrest⟩ := getElem?_of_drop h
  rw [opAt, hi]
  exact ⟨rfl, hrest⟩

theorem Op.isControl_of_isPlain {op : Op} (h : op.isPlain = true) : op.isControl = false := by
  cases op <;> simp_all [Op.isPlain, Op.isControl]

theorem Nested.exists_forest {code part post : List Instruction} {start : Nat}
    (h : Nested start part) (hcode : code.drop start = part ++ post) :
    ∃ blocks, Forest code (Span start (start + part.length)) blocks := by
  induction h generalizing post with
  | @nil start =>
    refine ⟨[], Forest.nil ?_⟩
    intro i op hi
    unfold Span at hi
    rw [List.length_nil] at hi
    omega
  | @plain start i rest hplain _ ih =>
    obtain ⟨hop, hrest⟩ := opAt_of_drop hcode
    obtain ⟨after, hafter⟩ := ih hrest
    have hone : Forest code (Span start (start + 1)) [] := by
      apply Forest.nil
      intro k op hk hop'
      obtain rfl : k = start := by
        unfold Span at hk
        omega
      rw [hop, Option.some.injEq] at hop'
      rw [← hop']
      exact Op.isControl_of_isPlain hplain
    have hlength : start + (i :: rest).length = start + 1 + rest.length := by
      rw [List.length_cons]
      omega
    rw [hlength]
    exact ⟨_, hone.join hafter (by omega) (by omega)⟩
  | @cond start target l₁ l₂ l₃ pre body rest _ _ htarget _ ihpre ihbody ih =>
    simp only [List.cons_append, List.append_assoc] at hcode
    obtain ⟨henter, hpre⟩ := opAt_of_drop hcode
    obtain ⟨hbranch, hbody⟩ := opAt_of_drop (drop_of_append hpre)
    obtain ⟨hleave, hrest⟩ := opAt_of_drop (drop_of_append hbody)
    rw [← htarget] at hleave hrest
    obtain ⟨inPre, hinPre⟩ := ihpre hpre
    obtain ⟨inBody, hinBody⟩ := ihbody hbody
    obtain ⟨after, hafter⟩ := ih hrest
    let e : Extent := { block := .cond, enter := start, test := start + 1 + pre.length,
                        leave := target }
    have he : e.Stands code := by
      refine ⟨henter, hbranch, by simp [e], by simp [e], by simp [e], hleave, ?_⟩
      simp only [e, Extent.marks, Option.toList_none, List.nil_append, List.pairwise_cons,
        List.mem_cons, forall_eq_or_imp]
      simp
      omega
    have hinner := hinPre.append hinBody (by
      unfold Span
      intro k
      omega)
    have hblock := Forest.wrap he hinner (by
      intro k
      simp [e, Extent.marks, Span]
      omega)
    have hlength : start + (Instruction.mk l₁ (.enter .cond) :: (pre ++ ⟨l₂, .branch target⟩ ::
        (body ++ ⟨l₃, .leave .cond⟩ :: rest))).length = target + 1 + rest.length := by
      simp only [List.length_cons, List.length_append]
      omega
    rw [hlength]
    exact ⟨_, hblock.join hafter (by simp only [e]; omega) (by simp only [e]; omega)⟩
  | @condElse start middle target l₁ l₂ l₃ l₄ pre first second rest _ _ hmiddle _ htarget _
      ihpre ihfirst ihsecond ih =>
    simp only [List.cons_append, List.append_assoc] at hcode
    obtain ⟨henter, hpre⟩ := opAt_of_drop hcode
    obtain ⟨hbranch, hfirst⟩ := opAt_of_drop (drop_of_append hpre)
    obtain ⟨helse, hsecond⟩ := opAt_of_drop (drop_of_append hfirst)
    rw [← hmiddle] at hsecond
    obtain ⟨hleave, hrest⟩ := opAt_of_drop (drop_of_append hsecond)
    rw [← htarget] at hleave hrest
    obtain ⟨inPre, hinPre⟩ := ihpre hpre
    obtain ⟨inFirst, hinFirst⟩ := ihfirst hfirst
    obtain ⟨inSecond, hinSecond⟩ := ihsecond hsecond
    obtain ⟨after, hafter⟩ := ih hrest
    let e : Extent := { block := .cond, enter := start, test := start + 1 + pre.length,
                        turn := some (start + 1 + pre.length + 1 + first.length), leave := target }
    have he : e.Stands code := by
      refine ⟨henter, ?_, ?_, by simp [e], by simp [e], hleave, ?_⟩
      · simp only [e, Extent.exit, Option.map_some, Option.getD_some]
        rw [hbranch, hmiddle]
      · rintro t ⟨⟩
        exact ⟨rfl, helse⟩
      · simp [e, Extent.marks]
        omega
    have hinner := (hinPre.append hinFirst (by unfold Span; intro k; omega)).append hinSecond (by
      unfold Span
      intro k
      omega)
    have hblock := Forest.wrap he hinner (by
      intro k
      simp [e, Extent.marks, Span]
      omega)
    have hlength : start + (Instruction.mk l₁ (.enter .cond) :: (pre ++ ⟨l₂, .branch middle⟩ ::
        (first ++ ⟨l₃, .otherwise target⟩ :: (second ++ ⟨l₄, .leave .cond⟩ :: rest)))).length =
        target + 1 + rest.length := by
      simp only [List.length_cons, List.length_append]
      omega
    rw [hlength]
    exact ⟨_, hblock.join hafter (by simp only [e]; omega) (by simp only [e]; omega)⟩
  | @loop start target l₁ l₂ l₃ l₄ test body rest _ _ htarget _ ihtest ihbody ih =>
    simp only [List.cons_append, List.append_assoc] at hcode
    obtain ⟨henter, htest⟩ := opAt_of_drop hcode
    obtain ⟨hbranch, hbody⟩ := opAt_of_drop (drop_of_append htest)
    obtain ⟨hjump, hend⟩ := opAt_of_drop (drop_of_append hbody)
    obtain ⟨hleave, hrest⟩ := opAt_of_drop hend
    rw [← htarget] at hleave hrest
    obtain ⟨inTest, hinTest⟩ := ihtest htest
    obtain ⟨inBody, hinBody⟩ := ihbody hbody
    obtain ⟨after, hafter⟩ := ih hrest
    let e : Extent := { block := .loop, enter := start, test := start + 1 + test.length,
                        back := some (start + 1 + test.length + 1 + body.length), leave := target }
    have he : e.Stands code := by
      refine ⟨henter, hbranch, by simp [e], ?_, by simp [e], hleave, ?_⟩
      · rintro t ⟨⟩
        exact ⟨rfl, hjump, htarget.symm⟩
      · simp [e, Extent.marks]
        omega
    have hinner := hinTest.append hinBody (by
      unfold Span
      intro k
      omega)
    have hblock := Forest.wrap he hinner (by
      intro k
      simp [e, Extent.marks, Span]
      omega)
    have hlength : start + (Instruction.mk l₁ (.enter .loop) :: (test ++ ⟨l₂, .branch target⟩ ::
        (body ++ ⟨l₃, .jump start⟩ :: ⟨l₄, .leave .loop⟩ :: rest))).length =
        target + 1 + rest.length := by
      simp only [List.length_cons, List.length_append]
      omega
    rw [hlength]
    exact ⟨_, hblock.join hafter (by simp only [e]; omega) (by simp only [e]; omega)⟩

structure Structured (code : List Instruction) (blocks : List Extent) : Prop where
  stands : ∀ e ∈ blocks, e.Stands code
  laminar : ∀ e ∈ blocks, ∀ e' ∈ blocks, e = e' ∨ e.Apart e' ∨ e.Within e' ∨ e'.Within e
  entered : ∀ i block, opAt code i = some (.enter block) →
    ∃! e, e ∈ blocks ∧ e.enter = i ∧ e.block = block
  owned : ∀ i op, opAt code i = some op → op.isControl = true → ∃! e, e ∈ blocks ∧ i ∈ e.marks
  /-- A block has no control operations but its own, apart from those of blocks within it. -/
  direct : ∀ e ∈ blocks, ∀ i op, opAt code i = some op → op.isControl = true →
    e.enter ≤ i → i ≤ e.leave → (∀ e' ∈ blocks, e'.Within e → i < e'.enter ∨ e'.leave < i) →
    i ∈ e.marks
  targets : ∀ i op t, opAt code i = some op → op.target? = some t → t < code.length

theorem Forest.structured {code : List Instruction} {here : Nat → Prop} {blocks : List Extent}
    (h : Forest code here blocks)
    (hall : ∀ i op, opAt code i = some op → op.isControl = true → here i) :
    Structured code blocks := by
  have howned : ∀ i op, opAt code i = some op → op.isControl = true →
      ∃ e ∈ blocks, i ∈ e.marks := by
    intro i op hop hcontrol
    exact h.owned i op (hall i op hop hcontrol) hop hcontrol
  constructor
  · exact h.stands
  · exact h.laminar
  · intro i block hop
    obtain ⟨e, he, hi⟩ := howned i _ hop rfl
    obtain ⟨henter, hblock⟩ := (h.stands e he).enter_of_mem hi hop
    refine ⟨e, ⟨he, henter, hblock⟩, ?_⟩
    rintro e' ⟨he', henter', -⟩
    apply h.eq_of_mem_marks he' he (i := i)
    · rw [← henter']
      exact List.mem_cons_self
    · exact hi
  · intro i op hop hcontrol
    obtain ⟨e, he, hi⟩ := howned i op hop hcontrol
    refine ⟨e, ⟨he, hi⟩, ?_⟩
    rintro e' ⟨he', hi'⟩
    exact h.eq_of_mem_marks he' he hi' hi
  · intro e he i op hop hcontrol hle hge hdirect
    exact h.mem_marks_of_direct he hop hcontrol hle hge hdirect
  · intro i op t hop ht
    have hcontrol : op.isControl = true := by
      cases op <;> simp_all [Op.target?, Op.isControl]
    obtain ⟨e, he, hi⟩ := howned i op hop hcontrol
    have hle := (h.stands e he).target_le hi hop ht
    have hleave := (h.stands e he).leave
    simp only [opAt, Option.map_eq_some_iff, List.getElem?_eq_some_iff] at hleave
    obtain ⟨_, ⟨hlt, -⟩, -⟩ := hleave
    omega

theorem ReadCode.exists_structured {code : List Instruction} {bindings : List Binding}
    (h : ReadCode code bindings) : ∃ blocks, Structured code blocks := by
  obtain ⟨body, ending, hcode, hbody, -, hending⟩ := h.split
  have hdrop : code.drop 0 = body ++ ending := by
    rw [List.drop_zero, hcode]
  obtain ⟨blocks, hblocks⟩ := hbody.exists_forest hdrop
  refine ⟨blocks, hblocks.structured ?_⟩
  intro i op hop hcontrol
  -- behind the blocks only binding slots are given up
  unfold Span
  by_contra hbehind
  rw [opAt, hcode, List.getElem?_append_right (by omega)] at hop
  obtain ⟨j, hj, rfl⟩ := Option.map_eq_some_iff.mp hop
  have hmem := List.mem_of_getElem? hj
  rcases hending with ⟨rfl, -⟩ | ⟨loc, rfl, -⟩
  · simp at hmem
  · rw [List.mem_singleton] at hmem
    simp [hmem, Op.isControl] at hcontrol

/--
Whatever the sources are that a program is read from, the code of its functions consists of blocks:
the marks of each stand in order with the jumps that belong to it, and no operation belongs to two.
Jumps stay in their function, and none is left without a target.
-/
theorem read_code_is_structured {loader : Loader} {entry : String} {options : Options} {p : Program}
    (hparse : parse loader entry options = .ok p) {f : Function} (hf : f ∈ p.functions) :
    ∃ blocks, Structured f.code blocks ∧
      -- the index type holds every index of the code
      (f.code.length ≤ Op.pendingTarget →
        ∀ i op, opAt f.code i = some op → op.target? ≠ some Op.pendingTarget) := by
  obtain ⟨n, hn⟩ := List.getElem?_of_mem hf
  obtain ⟨blocks, hblocks⟩ := ((wellRead_of_parse hparse).1 n f hn).code.exists_structured
  refine ⟨blocks, hblocks, ?_⟩
  intro hlength i op hop ht
  have := hblocks.targets i op _ hop ht
  omega

theorem read_code_is_structured_collatz : ∃ p f blocks,
    parse collatz.loader "main" { library := false } = .ok p ∧ p.functions[0]? = some f ∧
      Structured f.code blocks := by
  obtain ⟨p, _, _, f, _, hparse, -, hf, -⟩ := exists_collatz
  obtain ⟨blocks, hblocks, -⟩ := read_code_is_structured hparse (List.mem_of_getElem? hf)
  exact ⟨p, f, blocks, hparse, hf, hblocks⟩

end StackLang
