import StackLang.Body
import Mathlib.Tactic.Convert

/-!
This module contains the shape of the code that reading a body produces: its blocks are nested, and
every jump leads to the place in its own block that it has to lead to. While a body is read the
blocks that are still open form a stack around the code.
-/

namespace StackLang

def Op.isPlain : Op → Bool
  | enter _ | branch _ | otherwise _ | jump _ | leave _ | unbind _ => false
  | _ => true

/-- Code from the index `start` on in which every block is closed. -/
inductive Nested : Nat → List Instruction → Prop
  | nil {start} : Nested start []
  | plain {start i rest} (hplain : i.op.isPlain = true) (hrest : Nested (start + 1) rest) :
      Nested start (i :: rest)
  | cond {start target l₁ l₂ l₃ pre body rest} (hpre : Nested (start + 1) pre)
      (hbody : Nested (start + 1 + pre.length + 1) body)
      (htarget : target = start + 1 + pre.length + 1 + body.length)
      (hrest : Nested (target + 1) rest) :
      Nested start (⟨l₁, .enter .cond⟩ :: (pre ++ ⟨l₂, .branch target⟩ ::
        (body ++ ⟨l₃, .leave .cond⟩ :: rest)))
  | condElse {start middle target l₁ l₂ l₃ l₄ pre first second rest}
      (hpre : Nested (start + 1) pre)
      (hfirst : Nested (start + 1 + pre.length + 1) first)
      (hmiddle : middle = start + 1 + pre.length + 1 + first.length + 1)
      (hsecond : Nested middle second)
      (htarget : target = middle + second.length)
      (hrest : Nested (target + 1) rest) :
      Nested start (⟨l₁, .enter .cond⟩ :: (pre ++ ⟨l₂, .branch middle⟩ ::
        (first ++ ⟨l₃, .otherwise target⟩ :: (second ++ ⟨l₄, .leave .cond⟩ :: rest))))
  | loop {start target l₁ l₂ l₃ l₄ test body rest} (htest : Nested (start + 1) test)
      (hbody : Nested (start + 1 + test.length + 1) body)
      (htarget : target = start + 1 + test.length + 1 + body.length + 1)
      (hrest : Nested (target + 1) rest) :
      Nested start (⟨l₁, .enter .loop⟩ :: (test ++ ⟨l₂, .branch target⟩ ::
        (body ++ ⟨l₃, .jump start⟩ :: ⟨l₄, .leave .loop⟩ :: rest)))

namespace Nested

theorem append {start : Nat} {a b : List Instruction} (ha : Nested start a)
    (hb : Nested (start + a.length) b) : Nested start (a ++ b) := by
  induction ha with
  | nil => simpa using hb
  | plain hplain _ ih =>
    apply Nested.plain hplain
    apply ih
    simpa [Nat.add_assoc, Nat.add_comm, Nat.add_left_comm] using hb
  | cond hpre hbody htarget _ _ _ ih =>
    simp only [List.cons_append, List.append_assoc]
    apply Nested.cond hpre hbody htarget
    apply ih
    convert hb using 1
    simp only [List.length_cons, List.length_append]
    omega
  | condElse hpre hfirst hmiddle hsecond htarget _ _ _ _ ih =>
    simp only [List.cons_append, List.append_assoc]
    apply Nested.condElse hpre hfirst hmiddle hsecond htarget
    apply ih
    convert hb using 1
    simp only [List.length_cons, List.length_append]
    omega
  | loop htest hbody htarget _ _ _ ih =>
    simp only [List.cons_append, List.append_assoc]
    apply Nested.loop htest hbody htarget
    apply ih
    convert hb using 1
    simp only [List.length_cons, List.length_append]
    omega

theorem single {start : Nat} {i : Instruction} (h : i.op.isPlain = true) : Nested start [i] :=
  Nested.plain h Nested.nil

end Nested

theorem getElem?_of_drop {code rest : List Instruction} {ip : Nat} {i : Instruction}
    (h : code.drop ip = i :: rest) : code[ip]? = some i ∧ code.drop (ip + 1) = rest := by
  constructor
  · rw [← Nat.add_zero ip, ← List.getElem?_drop, h]
    rfl
  · rw [← List.drop_drop, h]
    rfl

theorem drop_of_append {code a rest : List Instruction} {ip : Nat} (h : code.drop ip = a ++ rest) :
    code.drop (ip + a.length) = rest := by
  rw [← List.drop_drop, h, List.drop_left]

/-- Code around which the given blocks are open, innermost first. -/
inductive Partial : List OpenBlock → List Instruction → Prop
  | closed {code} (hcode : Nested 0 code) : Partial [] code
  | opened {s outer code l seg} (hcode : Partial outer code) (hstart : s.start = code.length)
      (hpending : s.pending = none) (helse : s.hasElse = false)
      (hseg : Nested (code.length + 1) seg) :
      Partial (s :: outer) (code ++ ⟨l, .enter s.block⟩ :: seg)
  | tested {s outer code l₁ l₂ pre seg} (hcode : Partial outer code)
      (hstart : s.start = code.length)
      (hpending : s.pending = some (code.length + 1 + pre.length)) (helse : s.hasElse = false)
      (hpre : Nested (code.length + 1) pre)
      (hseg : Nested (code.length + 1 + pre.length + 1) seg) :
      Partial (s :: outer) (code ++ ⟨l₁, .enter s.block⟩ :: (pre ++
        ⟨l₂, .branch Op.pendingTarget⟩ :: seg))
  | inElse {s outer code l₁ l₂ l₃ pre first seg middle} (hcode : Partial outer code)
      (hblock : s.block = .cond)
      (hpending : s.pending = some (code.length + 1 + pre.length + 1 + first.length))
      (helse : s.hasElse = true)
      (hpre : Nested (code.length + 1) pre)
      (hfirst : Nested (code.length + 1 + pre.length + 1) first)
      (hmiddle : middle = code.length + 1 + pre.length + 1 + first.length + 1)
      (hseg : Nested middle seg) :
      Partial (s :: outer) (code ++ ⟨l₁, .enter .cond⟩ :: (pre ++ ⟨l₂, .branch middle⟩ ::
        (first ++ ⟨l₃, .otherwise Op.pendingTarget⟩ :: seg)))

theorem modify_append_cons {α : Type} {f : α → α} {i : Nat} {l a b : List α} {x : α}
    (hl : l = a ++ x :: b) (hi : i = a.length) : l.modify i f = a ++ f x :: b := by
  subst hl hi
  induction a with
  | nil => rfl
  | cons y a ih => simp [ih]

namespace Partial

theorem append {blocks : List OpenBlock} {code more : List Instruction} (h : Partial blocks code)
    (hmore : Nested code.length more) : Partial blocks (code ++ more) := by
  -- closed code goes to the innermost open block
  cases h with
  | closed hcode =>
    apply Partial.closed
    apply hcode.append
    simpa using hmore
  | opened hcode hstart hpending helse hseg =>
    simp only [List.append_assoc, List.cons_append]
    apply Partial.opened hcode hstart hpending helse
    apply hseg.append
    convert hmore using 1
    simp only [List.length_cons, List.length_append]
    omega
  | tested hcode hstart hpending helse hpre hseg =>
    simp only [List.append_assoc, List.cons_append]
    apply Partial.tested hcode hstart hpending helse hpre
    apply hseg.append
    convert hmore using 1
    simp only [List.length_cons, List.length_append]
    omega
  | inElse hcode hblock hpending helse hpre hfirst hmiddle hseg =>
    simp only [List.append_assoc, List.cons_append]
    apply Partial.inElse hcode hblock hpending helse hpre hfirst hmiddle
    apply hseg.append
    convert hmore using 1
    simp only [List.length_cons, List.length_append]
    omega

theorem nested {code : List Instruction} (h : Partial [] code) : Nested 0 code := by
  cases h
  assumption

theorem test {s : OpenBlock} {outer : List OpenBlock} {code : List Instruction}
    (h : Partial (s :: outer) code) (loc : Location) (hpending : s.pending = none) :
    Partial ({ s with pending := some code.length } :: outer)
      (code ++ [⟨loc, .branch Op.pendingTarget⟩]) := by
  cases h with
  | opened hcode hstart _ helse hseg =>
    simp only [List.append_assoc, List.cons_append]
    refine Partial.tested (s := { s with pending := some _ }) hcode hstart ?_ helse hseg Nested.nil
    simp only [List.length_append, List.length_cons]
    congr 1
    omega
  | tested _ _ hsome => simp [hsome] at hpending
  | inElse _ _ hsome => simp [hsome] at hpending

theorem orElse {s : OpenBlock} {outer : List OpenBlock} {code : List Instruction} {i : Nat}
    (h : Partial (s :: outer) code) (loc : Location) (hblock : s.block = .cond)
    (hpending : s.pending = some i) (helse : s.hasElse = false) :
    Partial ({ s with pending := some code.length, hasElse := true } :: outer)
      ((code ++ [Instruction.mk loc (.otherwise Op.pendingTarget)]).modify i fun c =>
        ⟨c.loc, c.op.retarget (code.length + 1)⟩) := by
  rcases s with ⟨block, start, pending, hasElse, l⟩
  dsimp only at hblock
  subst hblock
  cases h with
  | opened _ _ hnone => exact absurd (hnone.symm.trans hpending) (by simp)
  | @tested _ _ code _ _ pre seg hcode hstart hsome _ hpre hseg =>
    rw [hsome, Option.some.injEq] at hpending
    subst hpending
    rw [modify_append_cons (a := code ++ ⟨_, .enter .cond⟩ :: pre)
      (by simp only [List.append_assoc, List.cons_append]; rfl)
      (by simp only [List.length_append, List.length_cons]; omega)]
    simp only [List.append_assoc, List.cons_append]
    refine Partial.inElse (s := ⟨.cond, start, some _, true, l⟩) hcode rfl ?_ rfl hpre hseg ?_
      Nested.nil
    · simp only [List.length_append, List.length_cons]
      congr 1
      omega
    · simp only [List.length_append, List.length_cons]
      omega
  | inElse _ _ _ hyes => exact absurd (hyes.symm.trans helse) (by simp)

theorem closeCond {s : OpenBlock} {outer : List OpenBlock} {code : List Instruction} {i : Nat}
    (h : Partial (s :: outer) code) (loc : Location) (hblock : s.block = .cond)
    (hpending : s.pending = some i) :
    Partial outer ((code ++ [Instruction.mk loc (.leave .cond)]).modify i fun c =>
      ⟨c.loc, c.op.retarget code.length⟩) := by
  cases h with
  | opened _ _ hnone => simp [hnone] at hpending
  | @tested _ _ code _ _ pre seg hcode hstart hsome _ hpre hseg =>
    rw [hsome, Option.some.injEq] at hpending
    subst hpending
    rw [modify_append_cons (a := code ++ ⟨_, .enter s.block⟩ :: pre)
      (by simp only [List.append_assoc, List.cons_append]; rfl)
      (by simp only [List.length_append, List.length_cons]; omega)]
    simp only [hblock, List.append_assoc, List.cons_append]
    apply hcode.append
    apply Nested.cond hpre hseg _ Nested.nil
    simp only [List.length_append, List.length_cons]
    omega
  | @inElse _ _ code _ _ _ pre first seg middle hcode _ hsome _ hpre hfirst hmiddle hseg =>
    rw [hsome, Option.some.injEq] at hpending
    subst hpending
    -- the jump that waits is the one between the branches
    rw [modify_append_cons (a := code ++ ⟨_, .enter .cond⟩ :: (pre ++ ⟨_, .branch middle⟩ :: first))
      (by simp only [List.append_assoc, List.cons_append]; rfl)
      (by simp only [List.length_append, List.length_cons]; omega)]
    simp only [List.append_assoc, List.cons_append]
    apply hcode.append
    apply Nested.condElse hpre hfirst hmiddle hseg _ Nested.nil
    simp only [List.length_append, List.length_cons]
    omega

theorem closeLoop {s : OpenBlock} {outer : List OpenBlock} {code : List Instruction} {i : Nat}
    (h : Partial (s :: outer) code) (loc : Location) (hblock : s.block = .loop)
    (hpending : s.pending = some i) :
    Partial outer ((code ++ [Instruction.mk loc (.jump s.start), ⟨loc, .leave .loop⟩]).modify i
      fun c => ⟨c.loc, c.op.retarget (code.length + 1)⟩) := by
  cases h with
  | opened _ _ hnone => simp [hnone] at hpending
  | @tested _ _ code _ _ pre seg hcode hstart hsome _ hpre hseg =>
    rw [hsome, Option.some.injEq] at hpending
    subst hpending
    rw [modify_append_cons (a := code ++ ⟨_, .enter s.block⟩ :: pre)
      (by simp only [List.append_assoc, List.cons_append]; rfl)
      (by simp only [List.length_append, List.length_cons]; omega)]
    simp only [hblock, hstart, List.append_assoc, List.cons_append]
    apply hcode.append
    apply Nested.loop hpre hseg _ Nested.nil
    simp only [List.length_append, List.length_cons]
    omega
  | inElse _ hcond => simp [hblock] at hcond

end Partial
end StackLang
