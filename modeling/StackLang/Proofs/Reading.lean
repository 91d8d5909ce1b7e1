import Mathlib.Data.List.Basic
import StackLang.Proofs.Nesting

/-!
This module contains what reading a body without a fault produces: nested code that fills every
binding slot before it reads it, and gives all slots up at its end.
-/

namespace StackLang

def Op.Emitted : Op → Prop
  | cast kind => ∃ t : TypeName, kind = t.kind
  | syscall arity => arity.toNat ≤ 6
  | bind count => 0 < count
  | unbind _ | call _ => False
  | _ => True

/-- An operation that a token stands for on its own, where `bindings` are in scope. -/
def Op.Placed (globals : Program) (bindings : List Binding) : Op → Prop
  | pushBind slot => ∃ b ∈ bindings, b.index = slot
  | pushPtr index => index < globals.memories.length
  | cast kind => ∃ t : TypeName, kind = t.kind
  | syscall arity => arity.toNat ≤ 6
  | pushStr _ | bind _ | unbind _ | call _ => False
  | _ => True

theorem Op.Placed.emitted {globals : Program} {bindings : List Binding} {op : Op}
    (h : op.Placed globals bindings) : op.Emitted := by
  cases op with
  | cast _ | syscall _ => exact h
  | pushStr _ | bind _ | unbind _ | call _ => exact h.elim
  | _ => trivial

theorem Op.Emitted.retarget {op : Op} (h : op.Emitted) (target : Nat) :
    (op.retarget target).Emitted := by
  cases op <;> simp_all [Op.Emitted, Op.retarget]

/--
How many slots are filled after code, if `bound` are filled before it and it reads no slot too
early. Code that gives slots up has no answer.
-/
def slotsAfter (bound : Nat) : List Instruction → Option Nat
  | [] => some bound
  | i :: rest =>
    match i.op with
    | .bind count => slotsAfter (bound + count) rest
    | .pushBind slot => if slot < bound then slotsAfter bound rest else none
    | .unbind _ => none
    | _ => slotsAfter bound rest

theorem slotsAfter_append (bound : Nat) (a b : List Instruction) :
    slotsAfter bound (a ++ b) = (slotsAfter bound a).bind (slotsAfter · b) := by
  induction a generalizing bound with
  | nil => rfl
  | cons i a ih =>
    simp only [List.cons_append, slotsAfter]
    split
    · apply ih
    · split
      · apply ih
      · rfl
    · rfl
    · apply ih

theorem slotsAfter_modify_retarget (bound i target : Nat) (code : List Instruction) :
    slotsAfter bound (code.modify i fun c => ⟨c.loc, c.op.retarget target⟩) =
      slotsAfter bound code := by
  induction code generalizing bound i with
  | nil => simp
  | cons c code ih =>
    cases i with
    | zero =>
      rcases c with ⟨loc, op⟩
      cases op <;> simp [slotsAfter, Op.retarget]
    | succ i =>
      simp only [List.modify_succ_cons, slotsAfter, ih]

structure Tidy (bound : Nat) (code : List Instruction) : Prop where
  slots : slotsAfter 0 code = some bound
  emitted : ∀ i ∈ code, i.op.Emitted

namespace Tidy

theorem nil : Tidy 0 [] := ⟨rfl, by simp⟩

theorem append {bound total : Nat} {code more : List Instruction} (h : Tidy bound code)
    (hslots : slotsAfter bound more = some total) (hemitted : ∀ i ∈ more, i.op.Emitted) :
    Tidy total (code ++ more) := by
  constructor
  · rw [slotsAfter_append, h.slots]
    exact hslots
  · intro i hi
    rcases List.mem_append.mp hi with hi | hi
    · exact h.emitted i hi
    · exact hemitted i hi

theorem retarget {bound : Nat} {code : List Instruction} (h : Tidy bound code) (i target : Nat) :
    Tidy bound (code.modify i fun c => ⟨c.loc, c.op.retarget target⟩) := by
  constructor
  · rw [slotsAfter_modify_retarget]
    exact h.slots
  · intro x hx
    obtain ⟨k, hk⟩ := List.mem_iff_getElem?.mp hx
    rw [List.getElem?_modify] at hk
    obtain ⟨y, hy, rfl⟩ := Option.map_eq_some_iff.mp hk
    have := h.emitted y (List.mem_of_getElem? hy)
    split
    · exact this.retarget target
    · exact this

end Tidy

/-- Binding slots in order, none of which has a kind yet. -/
def FreshSlots (bindings : List Binding) : Prop :=
  ∀ (k : Nat) (b : Binding), bindings[k]? = some b → b.index = k ∧ b.kind = .untyped

theorem FreshSlots.append {bindings : List Binding} (h : FreshSlots bindings)
    (names : List String) :
    FreshSlots (bindings ++ names.zipIdx.map fun (name, i) =>
      { name, index := bindings.length + i }) := by
  intro k b hk
  rw [List.getElem?_append] at hk
  split at hk
  · exact h k b hk
  · simp only [List.getElem?_map, List.getElem?_zipIdx] at hk
    obtain ⟨x, hx, rfl⟩ := Option.map_eq_some_iff.mp hk
    obtain ⟨name, -, rfl⟩ := Option.map_eq_some_iff.mp hx
    simp only [and_true]
    omega

theorem FreshSlots.slotsAfter_placed {bindings : List Binding} (h : FreshSlots bindings)
    {globals : Program} {op : Op} (hop : op.Placed globals bindings) (loc : Location) :
    slotsAfter bindings.length [⟨loc, op⟩] = some bindings.length := by
  cases op with
  | pushBind slot =>
    obtain ⟨b, hb, rfl⟩ := hop
    obtain ⟨k, hk⟩ := List.mem_iff_getElem?.mp hb
    have hlt := (List.getElem?_eq_some_iff.mp hk).1
    simp only [slotsAfter, (h k b hk).1, hlt, if_true]
  | bind _ | unbind _ => exact hop.elim
  | _ => rfl

structure ReadCode (code : List Instruction) (bindings : List Binding) : Prop where
  fresh : FreshSlots bindings
  split : ∃ body ending, code = body ++ ending ∧ Nested 0 body ∧ Tidy bindings.length body ∧
    ((ending = [] ∧ bindings = []) ∨
      ∃ loc, ending = [⟨loc, .unbind bindings.length⟩] ∧ bindings ≠ [])

structure LetClause where
  loc : Location
  names : List String

namespace Body

/--
All that reading does to a body, change by change, with the clauses that it binds. Which blocks are
open may change at any time, since no other change depends on it.
-/
inductive Grows (globals : Program) (b₀ : Body) : List LetClause → Body → Prop
  | refl : Grows globals b₀ [] b₀
  | fault {clauses b} (h : Grows globals b₀ clauses b) (loc : Location) (f : SyntaxFault) :
    Grows globals b₀ clauses (b.fault loc f)
  | blocks {clauses b} (h : Grows globals b₀ clauses b) (blocks : List OpenBlock) :
    Grows globals b₀ clauses { b with blocks }
  | emit {clauses b} (h : Grows globals b₀ clauses b) (loc : Location) (op : Op)
    (hop : op.Placed globals b.bindings) : Grows globals b₀ clauses (b.emit loc op)
  | patch {clauses b} (h : Grows globals b₀ clauses b) (i target : Nat) :
    Grows globals b₀ clauses (b.patch i target)
  | string {clauses b} (h : Grows globals b₀ clauses b) (loc : Location) (s : String) :
    Grows globals b₀ clauses { b.emit loc (.pushStr (intern b.strings s).1) with
      strings := (intern b.strings s).2 }
  | bind {clauses b names} (h : Grows globals b₀ clauses b) (loc : Location) (hnames : names ≠ []) :
    Grows globals b₀ (clauses ++ [⟨loc, names⟩]) (b.bind loc names)

theorem bind_of_ne_nil (b : Body) (loc : Location) {names : List String} (h : names ≠ []) :
    b.bind loc names = { b.emit loc (.bind names.length) with
      bindings := b.bindings ++ names.zipIdx.map fun (name, i) =>
        { name, index := b.bindings.length + i } } := by
  rw [bind, if_neg (by simpa using h)]

theorem placed_meaning (b : Body) (globals : Program) (name : String) :
    (b.meaning globals name).Placed globals b.bindings := by
  unfold meaning
  split
  · next binding hfind =>
    exact ⟨binding, List.mem_reverse.mp (List.mem_of_find?_eq_some hfind), rfl⟩
  · split
    · trivial
    · split
      · next index hindex => exact (List.findIdx?_eq_some_iff_getElem.mp hindex).1
      · trivial

theorem exists_finish (b : Body) (loc : Location) :
    ∃ ending, b.finish loc = { b with code := b.code ++ ending } ∧
      ((ending = [] ∧ b.bindings = []) ∨
        ∃ loc, ending = [⟨loc, .unbind b.bindings.length⟩] ∧ b.bindings ≠ []) := by
  unfold finish
  split
  · next hempty => exact ⟨[], by simp, .inl ⟨rfl, List.isEmpty_iff.mp hempty⟩⟩
  · next hne => exact ⟨_, rfl, .inr ⟨loc, rfl, by simpa using hne⟩⟩

namespace Grows

variable {globals : Program} {b₀ b : Body} {clauses : List LetClause}

theorem enter (h : Grows globals b₀ clauses b) (loc : Location) (block : Block) :
    Grows globals b₀ clauses (b.enter loc block) :=
  (h.emit loc (.enter block) trivial).blocks _

theorem test (h : Grows globals b₀ clauses b) (loc : Location) :
    Grows globals b₀ clauses (b.test loc) := by
  unfold Body.test
  split
  · split
    · exact h.fault loc _
    · exact (h.emit loc (.branch _) trivial).blocks _
  · exact h.fault loc _

theorem orElse (h : Grows globals b₀ clauses b) (loc : Location) :
    Grows globals b₀ clauses (b.orElse loc) := by
  unfold Body.orElse
  split
  · exact h.fault loc _
  · split
    · exact ((h.emit loc (.otherwise _) trivial).patch _ _).blocks _
    · exact h.fault loc _
    · exact h.fault loc _

theorem close (h : Grows globals b₀ clauses b) (loc : Location) (s : OpenBlock)
    (outer : List OpenBlock) : Grows globals b₀ clauses (b.close loc s outer) := by
  have hblocks := h.blocks outer
  unfold Body.close
  simp only
  split
  · exact hblocks.fault s.loc _
  · exact (hblocks.emit loc (.leave .cond) trivial).patch _ _
  · exact ((hblocks.emit loc (.jump s.start) trivial).emit loc (.leave .loop) trivial).patch _ _

theorem simple {ctx : Enclosing} (h : Grows ctx.globals b₀ clauses b) (t : Lexeme) :
    Grows ctx.globals b₀ clauses (b.simple ctx t) := by
  unfold Body.simple
  split
  · exact h.emit t.loc _ trivial
  · exact h.emit t.loc _ trivial
  · exact h.emit t.loc _ trivial
  · exact h.string t.loc _
  · exact h.emit t.loc _ trivial
  · next n _ =>
    apply h.emit t.loc (.syscall n.val.toUInt8)
    have := n.isLt
    simp only [Op.Placed, Nat.toUInt8, UInt8.toNat_ofNat']
    omega
  · next name _ => exact h.emit t.loc _ (b.placed_meaning ctx.globals name)
  · exact h.fault t.loc _

/-- Reading goes on change by change. If it comes to the end of the body, slots are given up. -/
theorem read {ctx : Enclosing} (h : Grows ctx.globals b₀ clauses b) (ts : List Lexeme) :
    ∃ clauses' b' ending, Grows ctx.globals b₀ clauses' b' ∧
      (Body.read ctx b ts).1 = { b' with code := b'.code ++ ending } ∧
      ∀ i ∈ ending, i.op = .unbind b'.bindings.length := by
  fun_induction Body.read ctx b ts generalizing clauses with
  | case1 b => exact ⟨_, _, [], h.fault _ _, by rw [List.append_nil], by simp⟩
  | case2 b => exact ⟨_, _, [], h.fault _ _, by rw [List.append_nil], by simp⟩
  | case3 b t ts _ s outer _ ih => exact ih (h.close t.loc s outer)
  | case4 b t ts =>
    obtain ⟨ending, hfinish, ⟨rfl, -⟩ | ⟨loc, rfl, -⟩⟩ := b.exists_finish t.loc
    · exact ⟨_, b, [], h, hfinish, by simp⟩
    · exact ⟨_, b, _, h, hfinish, by simp⟩
  | case5 b t ts _ ih => exact ih (h.test t.loc)
  | case6 b t ts _ ih => exact ih (h.enter t.loc .cond)
  | case7 b t ts _ ih => exact ih (h.enter t.loc .loop)
  | case8 b t ts _ ih => exact ih (h.orElse t.loc)
  | case10 b t ts _ _ names =>
    rename_i ih
    by_cases hnames : names = []
    · -- without a name the clause is at fault
      apply ih
      rw [hnames]
      exact h.fault t.loc .emptyLet
    · exact ih (h.bind t.loc hnames)
  | case13 b t _ target rest ty _ ih => exact ih (h.emit t.loc _ ⟨ty, rfl⟩)
  | case18 b t ts _ _ _ _ _ _ _ _ _ ih => exact ih (h.simple t)
  | _ => next ih => exact ih (h.fault _ _)

theorem prefix_faults (h : Grows globals b₀ clauses b) : b₀.faults <+: b.faults := by
  induction h with
  | refl => exact List.prefix_rfl
  | fault _ _ _ ih => exact ih.trans (List.prefix_append _ _)
  | blocks _ _ ih | emit _ _ _ _ ih | patch _ _ _ ih | string _ _ _ ih => exact ih
  | bind _ loc hnames ih =>
    rw [bind_of_ne_nil _ loc hnames]
    exact ih

theorem tidy {strings : List String} (h : Grows globals { strings } clauses b) :
    Tidy b.bindings.length b.code ∧ FreshSlots b.bindings := by
  induction h with
  | refl => exact ⟨Tidy.nil, by intro k b h; simp at h⟩
  | fault _ _ _ ih | blocks _ _ ih => exact ih
  | emit _ loc op hop ih =>
    exact ⟨ih.1.append (ih.2.slotsAfter_placed hop loc) (by simpa using hop.emitted), ih.2⟩
  | patch _ i target ih => exact ⟨ih.1.retarget i target, ih.2⟩
  | string _ _ _ ih => exact ⟨ih.1.append rfl (by simp [Op.Emitted]), ih.2⟩
  | @bind _ b names _ loc hnames ih =>
    rw [bind_of_ne_nil b loc hnames]
    refine ⟨ih.1.append (by simp [slotsAfter]) ?_, ih.2.append names⟩
    simpa [Op.Emitted] using List.length_pos_iff.mpr hnames

end Grows

@[simp]
theorem faults_fault_ne_nil (b : Body) (loc : Location) (f : SyntaxFault) :
    (b.fault loc f).faults ≠ [] := by
  simp [fault]

theorem faults_of_read {ctx : Enclosing} {b : Body} {ts : List Lexeme}
    (h : (read ctx b ts).1.faults = []) : b.faults = [] := by
  obtain ⟨_, b', _, hgrows, hread, -⟩ := (Grows.refl : Grows ctx.globals b [] b).read ts
  rw [hread] at h
  exact List.prefix_nil.mp (h ▸ hgrows.prefix_faults)

theorem ne_nil_of_bind {b : Body} {loc : Location} {names : List String}
    (h : (b.bind loc names).faults = []) : names ≠ [] := by
  rintro rfl
  exact faults_fault_ne_nil b loc .emptyLet h

def Shaped (b : Body) : Prop := Partial b.blocks b.code

namespace Shaped

variable {b : Body}

theorem emit (h : b.Shaped) (loc : Location) {op : Op} (hplain : op.isPlain = true) :
    (b.emit loc op).Shaped :=
  h.append (Nested.single hplain)

theorem bind (h : b.Shaped) {loc : Location} {names : List String} (hnames : names ≠ []) :
    (b.bind loc names).Shaped := by
  rw [bind_of_ne_nil b loc hnames]
  exact h.emit loc rfl

theorem enter (h : b.Shaped) (loc : Location) (block : Block) : (b.enter loc block).Shaped :=
  Partial.opened h rfl rfl rfl Nested.nil

theorem test (h : b.Shaped) {loc : Location} (hf : (b.test loc).faults = []) :
    (b.test loc).Shaped := by
  unfold Body.test at hf ⊢
  split at hf
  · next s outer hblocks =>
    split at hf
    · exact absurd hf (faults_fault_ne_nil _ _ _)
    · next hpending =>
      rw [if_neg hpending]
      apply Partial.test
      · rw [← hblocks]
        exact h
      · simpa using hpending
  · exact absurd hf (faults_fault_ne_nil _ _ _)

theorem orElse (h : b.Shaped) {loc : Location} (hf : (b.orElse loc).faults = []) :
    (b.orElse loc).Shaped := by
  unfold Body.orElse at hf ⊢
  split at hf
  · exact absurd hf (faults_fault_ne_nil _ _ _)
  · next s outer hblocks =>
    split at hf
    · next i hblock hpending helse =>
      simp only [hblock]
      rw [Shaped, hblocks] at h
      have horElse := h.orElse loc hblock hpending helse
      simp only [hblock] at horElse
      exact horElse
    · exact absurd hf (faults_fault_ne_nil _ _ _)
    · exact absurd hf (faults_fault_ne_nil _ _ _)

theorem close (h : b.Shaped) {loc : Location} {s : OpenBlock} {outer : List OpenBlock}
    (hblocks : b.blocks = s :: outer) (hf : (b.close loc s outer).faults = []) :
    (b.close loc s outer).Shaped := by
  rw [Shaped, hblocks] at h
  unfold Body.close at hf ⊢
  simp only at hf ⊢
  split at hf
  · exact absurd hf (faults_fault_ne_nil _ _ _)
  · next i hpending hblock => exact h.closeCond loc hblock hpending
  · next i hpending hblock =>
    have hloop := h.closeLoop loc hblock hpending
    simpa [Shaped, Body.patch, Body.emit] using hloop

theorem meaning (h : b.Shaped) (globals : Program) (loc : Location) (name : String) :
    (b.emit loc (b.meaning globals name)).Shaped := by
  apply h.emit
  unfold Body.meaning
  split
  · rfl
  · split
    · rfl
    · split
      · rfl
      · rfl

theorem simple (h : b.Shaped) {ctx : Enclosing} {t : Lexeme}
    (hf : (b.simple ctx t).faults = []) : (b.simple ctx t).Shaped := by
  unfold Body.simple at hf ⊢
  split at hf
  case h_7 name _ => exact h.meaning ctx.globals t.loc name
  case h_8 => exact absurd hf (faults_fault_ne_nil _ _ _)
  all_goals exact h.emit t.loc rfl

/-- Without a fault, reading ends where the body is closed, and its blocks are closed by then. -/
theorem read {ctx : Enclosing} {b₀ : Body} {clauses : List LetClause} {ts : List Lexeme}
    (h : b.Shaped) (hgrows : Grows ctx.globals b₀ clauses b)
    (hf : (Body.read ctx b ts).1.faults = []) :
    ∃ clauses' b' loc, Grows ctx.globals b₀ clauses' b' ∧ Nested 0 b'.code ∧
      (Body.read ctx b ts).1 = b'.finish loc := by
  fun_induction Body.read ctx b ts generalizing clauses with
  | case1 b => exact absurd hf (faults_fault_ne_nil _ _ _)
  | case2 b => exact absurd hf (faults_fault_ne_nil _ _ _)
  | case3 b t ts hrparen s outer hblocks ih =>
    exact ih (h.close hblocks (faults_of_read hf)) (hgrows.close t.loc s outer) hf
  | case4 b t ts hrparen hblocks =>
    rw [Shaped, hblocks] at h
    exact ⟨_, b, t.loc, hgrows, h.nested, rfl⟩
  | case5 b t ts hlparen ih => exact ih (h.test (faults_of_read hf)) (hgrows.test t.loc) hf
  | case6 b t ts hif ih => exact ih (h.enter t.loc .cond) (hgrows.enter t.loc .cond) hf
  | case7 b t ts hloop ih => exact ih (h.enter t.loc .loop) (hgrows.enter t.loc .loop) hf
  | case8 b t ts helse ih => exact ih (h.orElse (faults_of_read hf)) (hgrows.orElse t.loc) hf
  | case10 b t ts hlet hle names =>
    rename_i ih
    have hnames := ne_nil_of_bind (faults_of_read hf)
    exact ih (h.bind hnames) (hgrows.bind t.loc hnames) hf
  | case13 b t hcast target rest ty htype ih =>
    exact ih (h.emit t.loc rfl) (hgrows.emit t.loc _ ⟨ty, rfl⟩) hf
  | case18 b t ts h₁ h₂ h₃ h₄ h₅ h₆ h₇ h₈ h₉ ih =>
    exact ih (h.simple (faults_of_read hf)) (hgrows.simple t) hf
  -- in all other cases a fault is on record
  | _ => exact absurd (faults_of_read hf) (faults_fault_ne_nil _ _ _)

end Shaped

theorem readCode {ctx : Enclosing} {strings : List String} {ts : List Lexeme}
    (h : (read ctx { strings } ts).1.faults = []) :
    ReadCode (read ctx { strings } ts).1.code (read ctx { strings } ts).1.bindings := by
  have hempty : Shaped { strings } := Partial.closed Nested.nil
  obtain ⟨_, b, loc, hgrows, hnested, hread⟩ := hempty.read .refl h
  obtain ⟨ending, hfinish, hending⟩ := b.exists_finish loc
  rw [hread, hfinish]
  exact ⟨hgrows.tidy.2, b.code, ending, rfl, hnested, hgrows.tidy.1, hending⟩

end Body
end StackLang
