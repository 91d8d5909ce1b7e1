import StackLang.Proofs.Library

/-!
This module contains what the library prints for a number. The digits are written into a buffer from
its end on, one for each turn of a loop, and stand there as the decimal spelling of the number. The
least number has no magnitude among the words, and is the only one that is not spelled.
-/

namespace StackLang

def Text.ascii (s : String) : List Byte := s.toList.map fun c => BitVec.ofNat 8 c.toNat

def Text.digits (n : Nat) : List Byte := (Nat.toDigits 10 n).map fun c => BitVec.ofNat 8 c.toNat

namespace Text

theorem digits_eq (n : Nat) :
    digits n = (if n < 10 then [] else digits (n / 10)) ++
      [BitVec.ofNat 8 (Nat.digitChar (n % 10)).toNat] := by
  unfold digits
  rw [Nat.toDigits_eq_if (by decide)]
  split
  · next hlt => simp [Nat.mod_eq_of_lt hlt]
  · simp

theorem length_digits_le {n : Nat} (h : n < 2 ^ 63) : (digits n).length ≤ 32 := by
  unfold digits
  rw [List.length_map, Nat.length_toDigits_le_iff (by decide) (by decide)]
  exact Nat.lt_trans h (by decide)

theorem ascii_toString (i : Int) :
    ascii (toString i) = (if i < 0 then ascii "-" else []) ++ digits i.natAbs := by
  have hnat (n : Nat) : ascii (toString n) = digits n := by
    rw [ascii, digits, Nat.toString_eq_ofList_toDigits, String.toList_ofList]
  cases i with
  | ofNat n =>
    rw [if_neg (by simp), List.nil_append]
    exact hnat n
  | negSucc n =>
    rw [if_pos (Int.negSucc_lt_zero n)]
    show ascii ("-" ++ toString (n + 1)) = _
    rw [ascii, String.toList_append, List.map_append]
    exact congrArg (ascii "-" ++ ·) (hnat (n + 1))

end Text

theorem Store.bytes_writeByte_of_ne {m : Store} {a x : Word} {b : Byte} {count : Nat}
    (h : ∀ k < count, x + BitVec.ofNat 64 k ≠ a) :
    (m.writeByte a b).bytes x count = m.bytes x count := by
  induction count generalizing x with
  | zero => rfl
  | succ count ih =>
    have hfirst : x ≠ a := by simpa using h 0 (by omega)
    rw [bytes, bytes, ih]
    · simp [writeByte, hfirst]
    · intro k hk
      have hnext := h (k + 1) (by omega)
      rwa [BitVec.ofNat_add, BitVec.add_comm (BitVec.ofNat 64 k), ← BitVec.add_assoc] at hnext

theorem Word.toInt_ofNat {n : Nat} (h : n < 2 ^ 63) : (BitVec.ofNat 64 n).toInt = n := by
  rw [BitVec.toInt_eq_toNat_of_lt] <;> simp only [BitVec.toNat_ofNat] <;> omega

theorem Word.slt_ofNat {n : Nat} (h : n < 2 ^ 63) :
    BitVec.slt 0 (BitVec.ofNat 64 n) = true ↔ 0 < n := by
  rw [BitVec.slt_iff_toInt_lt, toInt_ofNat h]
  simp

theorem Word.divide?_ten {n : Nat} (h : n < 2 ^ 63) :
    divide? (BitVec.ofNat 64 n) 10#64 =
      some (BitVec.ofNat 64 (n / 10), BitVec.ofNat 64 (n % 10)) := by
  have hten : (10#64).toInt = ((10 : Nat) : Int) := rfl
  have hquotient : (n : Int).tdiv ((10 : Nat) : Int) = ((n / 10 : Nat) : Int) := rfl
  have hremainder : (n : Int).tmod ((10 : Nat) : Int) = ((n % 10 : Nat) : Int) := rfl
  rw [divide?, toInt_ofNat h, hten, hquotient, hremainder, if_neg]
  · rfl
  · rintro (hzero | hlower | hupper)
    · exact absurd hzero (by decide)
    · omega
    · omega

theorem Word.digit {d : Nat} (h : d < 10) :
    (BitVec.ofNat 64 d + 48).setWidth 8 = BitVec.ofNat 8 (Nat.digitChar d).toNat := by
  have hall : ∀ d < 10, (BitVec.ofNat 64 d + 48).setWidth 8 =
      BitVec.ofNat 8 (Nat.digitChar d).toNat := by decide
  exact hall d h

/-- A memory in which the strings of a program lie behind their lengths. -/
structure Machine.Env.Loaded (env : Env) (p : Program) (memory : Store) : Prop where
  readable : ∀ {index : Nat} {s : String}, p.strings[index]? = some s →
    env.wordAt (env.str index) = true
  lengths : ∀ {index : Nat} {s : String}, p.strings[index]? = some s →
    memory.readWord (env.str index) = BitVec.ofNat 64 (Text.utf8 s).length
  contents : ∀ {index : Nat} {s : String}, p.strings[index]? = some s →
    memory.bytes (env.str index + 8) (Text.utf8 s).length = (Text.utf8 s).map (·.toBitVec)
  regions : ∀ {index : Nat} {m : Memory}, p.memories[index]? = some m →
    ∀ k < m.size, env.data (env.mem index + BitVec.ofNat 64 k) = true

namespace Library

open Machine

/-- The magnitude of a number, as far as it is a word. -/
def magnitude (n : Word) : Word := if n.slt 0 then 0 - n else n

def sign (n : Word) : List Byte := if n.slt 0 then Text.ascii "-" else []

section

variable {q : Program} (hq : q.HasLibrary) {env : Env} {base : Word} {size : Nat}
  {stack : List Word} {memory : Store}
include hq

theorem returns_writeOut (a count : Word) :
    Returns q env base size 0 0 ⟨a :: count :: stack, [], memory⟩ (memory.bytes a count.toNat)
      stack memory := by
  have hpush : Stretch q env base size 0 0 ⟨a :: count :: stack, [], memory⟩ [] 2
      ⟨1 :: 1 :: a :: count :: stack, [], memory⟩ :=
    .straight [.pushInt 1, .pushInt 1] hq.writeOut (by decide) (by decide) rfl
  have hdrop : Stretch q env base size 0 3 ⟨count :: stack, [], memory⟩ [] 4
      ⟨stack, [], memory⟩ :=
    .straight [.prim .drop] hq.writeOut (by decide) (by decide) rfl
  have hrun := (hpush.trans (.write hq.writeOut rfl)).trans hdrop
  simpa using hrun.returns hq.writeOut rfl

theorem returns_printStr {a : Word} (ha : env.wordAt a = true) :
    Returns q env base size 2 0 ⟨a :: stack, [], memory⟩
      (memory.bytes (a + 8) (memory.readWord a).toNat) stack memory := by
  have hpush : Stretch q env base size 2 0 ⟨a :: stack, [], memory⟩ [] 8
      ⟨(a + 8) :: memory.readWord a :: stack, [a], memory⟩ := by
    apply Stretch.straight [.bind 1, .pushBind 0, .cast .ptr, .prim .load, .pushBind 0, .cast .ptr,
      .pushInt 8, .prim .add] hq.printStr (by decide) (by decide)
    simp [execAll, exec, prim, binary, Local.push, ha]
  have hcall : Stretch q env base size 2 8 ⟨(a + 8) :: memory.readWord a :: stack, [a], memory⟩
      (memory.bytes (a + 8) (memory.readWord a).toNat) 9 ⟨stack, [a], memory⟩ :=
    .call hq.printStr rfl hq.writeOut (by simp) (returns_writeOut hq _ _)
  have hunbind : Stretch q env base size 2 9 ⟨stack, [a], memory⟩ [] 10 ⟨stack, [], memory⟩ :=
    .straight [.unbind 1] hq.printStr (by decide) (by decide) rfl
  have hrun := (hpush.trans hcall).trans hunbind
  simpa using hrun.returns hq.printStr rfl

theorem bytes_minus (hloaded : env.Loaded q memory) :
    memory.bytes (env.str 0 + 8) (memory.readWord (env.str 0)).toNat = Text.ascii "-" := by
  have hlength : (Text.utf8 "-").length = 1 := by decide
  rw [hloaded.lengths hq.minus, hlength]
  have hcontents := hloaded.contents hq.minus
  rw [hlength] at hcontents
  exact hcontents

theorem stretch_sign (hloaded : env.Loaded q memory) (n : Word) :
    Stretch q env base size 1 0 ⟨n :: stack, [], memory⟩ (sign n) 11
      ⟨magnitude n :: stack, [], memory⟩ := by
  have htest : Stretch q env base size 1 0 ⟨n :: stack, [], memory⟩ [] 4
      ⟨Word.ofBool (n.slt 0) :: n :: stack, [], memory⟩ :=
    .straight [.prim .dup, .pushInt 0, .prim .lt, .enter .cond] hq.printInt (by decide) (by decide)
      rfl
  have hbranch : Stretch q env base size 1 4
      ⟨Word.ofBool (n.slt 0) :: n :: stack, [], memory⟩ []
      (if Word.ofBool (n.slt 0) = 0 then 10 else 5) ⟨n :: stack, [], memory⟩ :=
    .branch hq.printInt rfl (by decide) _ ⟨n :: stack, [], memory⟩
  have hleave (m : Word) : Stretch q env base size 1 10 ⟨m :: stack, [], memory⟩ [] 11
      ⟨m :: stack, [], memory⟩ :=
    .straight [.leave .cond] hq.printInt (by decide) (by decide) rfl
  unfold sign magnitude
  cases hneg : n.slt 0 with
  | false =>
    simp only [hneg, Word.ofBool] at htest hbranch
    exact (htest.trans hbranch).trans (hleave n)
  | true =>
    simp only [hneg, Word.ofBool] at htest hbranch
    have hpush : Stretch q env base size 1 5 ⟨n :: stack, [], memory⟩ [] 6
        ⟨env.str 0 :: n :: stack, [], memory⟩ :=
      .straight [.pushStr 0] hq.printInt (by decide) (by decide) rfl
    have hcall : Stretch q env base size 1 6 ⟨env.str 0 :: n :: stack, [], memory⟩
        (Text.ascii "-") 7 ⟨n :: stack, [], memory⟩ := by
      apply Stretch.call hq.printInt rfl hq.printStr (by simp)
      rw [← bytes_minus hq hloaded]
      exact returns_printStr hq (hloaded.readable hq.minus)
    have hnegate : Stretch q env base size 1 7 ⟨n :: stack, [], memory⟩ [] 10
        ⟨(0 - n) :: stack, [], memory⟩ :=
      .straight [.pushInt 0, .prim .swap, .prim .sub] hq.printInt (by decide) (by decide) rfl
    have hrun := (htest.trans hbranch).trans ((hpush.trans hcall).trans (hnegate.trans (hleave _)))
    simpa using hrun

theorem stretch_cursor (m : Word) :
    Stretch q env base size 1 11 ⟨m :: stack, [], memory⟩ [] 15
      ⟨m :: (env.mem 0 + 32) :: stack, [], memory⟩ :=
  .straight [.pushPtr 0, .pushInt 32, .prim .add, .prim .swap] hq.printInt (by decide) (by decide)
    rfl

theorem stretch_test (m cursor : Word) :
    Stretch q env base size 1 15 ⟨m :: cursor :: stack, [], memory⟩ []
      (if cursor = env.mem 0 + 32 ∨ BitVec.slt 0 m = true then 26 else 45)
      ⟨m :: cursor :: stack, [], memory⟩ := by
  have htest : Stretch q env base size 1 15 ⟨m :: cursor :: stack, [], memory⟩ [] 25
      ⟨(Word.ofBool (cursor = env.mem 0 + 32) ||| Word.ofBool (BitVec.slt 0 m)) :: m :: cursor ::
        stack, [], memory⟩ :=
    .straight [.enter .loop, .prim .peek, .pushPtr 0, .pushInt 32, .prim .add, .prim .eq,
      .prim .peek, .pushInt 0, .prim .gt, .prim .or] hq.printInt (by decide) (by decide) rfl
  have hbranch : Stretch q env base size 1 25
      ⟨(Word.ofBool (cursor = env.mem 0 + 32) ||| Word.ofBool (BitVec.slt 0 m)) :: m :: cursor ::
        stack, [], memory⟩ [] _ ⟨m :: cursor :: stack, [], memory⟩ :=
    .branch hq.printInt rfl (by decide) _ ⟨m :: cursor :: stack, [], memory⟩
  have hcond : (Word.ofBool (cursor = env.mem 0 + 32) ||| Word.ofBool (BitVec.slt 0 m)) = 0 ↔
      ¬ (cursor = env.mem 0 + 32 ∨ BitVec.slt 0 m = true) := by
    by_cases hcursor : cursor = env.mem 0 + 32 <;> cases BitVec.slt 0 m <;>
      simp [hcursor, Word.ofBool]
  rw [if_congr hcond rfl rfl, ite_not] at hbranch
  exact htest.trans hbranch

/-- One turn of the loop puts the last digit in front of those that are there. -/
theorem stretch_digit {m cursor quotient remainder : Word}
    (hdivide : Word.divide? m 10#64 = some (quotient, remainder))
    (hdata : env.data (cursor - 1) = true) {k : Nat} (hk : k < size)
    (haddress : cursor - 1 = base + BitVec.ofNat 64 k) :
    Stretch q env base size 1 26 ⟨m :: cursor :: stack, [], memory⟩ [] 15
      ⟨quotient :: (cursor - 1) :: stack, [],
        memory.writeByte (cursor - 1) ((remainder + 48).setWidth 8)⟩ := by
  have hdigit : Stretch q env base size 1 26 ⟨m :: cursor :: stack, [], memory⟩ [] 40
      ⟨0 :: (cursor - 1) :: (remainder + 48) :: (cursor - 1) :: m :: stack, [], memory⟩ := by
    apply Stretch.straight [.prim .swap, .pushInt 1, .prim .sub, .prim .swap, .prim .dup,
      .pushInt 10, .prim .mod, .pushInt 48, .prim .add, .prim .rot, .prim .dup, .prim .rot,
      .prim .swap, .pushInt 0] hq.printInt (by decide) (by decide)
    simp [execAll, exec, prim, binary, divide, Local.push, hdivide]
  have hstore : Stretch q env base size 1 40
      ⟨0 :: (cursor - 1) :: (remainder + 48) :: (cursor - 1) :: m :: stack, [], memory⟩ [] 41
      ⟨(cursor - 1) :: m :: stack, [],
        memory.writeByte (cursor - 1) ((remainder + 48).setWidth 8)⟩ :=
    .store8 hq.printInt rfl (BitVec.add_zero _) hdata hk haddress
  have hquotient (memory : Store) : Stretch q env base size 1 41
      ⟨(cursor - 1) :: m :: stack, [], memory⟩ [] 44
      ⟨quotient :: (cursor - 1) :: stack, [], memory⟩ := by
    apply Stretch.straight [.prim .swap, .pushInt 10, .prim .div] hq.printInt (by decide)
      (by decide)
    simp [execAll, exec, prim, divide, Local.push, hdivide]
  exact (hdigit.trans hstore).trans ((hquotient _).trans (.jump hq.printInt rfl (by decide) _))

theorem returns_digits (m cursor : Word) :
    Returns q env base size 1 45 ⟨m :: cursor :: stack, [], memory⟩
      (memory.bytes cursor (env.mem 0 + 32 - cursor).toNat) stack memory := by
  have hlength : Stretch q env base size 1 45 ⟨m :: cursor :: stack, [], memory⟩ [] 55
      ⟨cursor :: (env.mem 0 + 32 - cursor) :: stack, [], memory⟩ :=
    .straight [.leave .loop, .prim .drop, .pushPtr 0, .pushInt 32, .prim .add, .cast .int,
      .prim .peek, .cast .int, .prim .sub, .prim .swap] hq.printInt (by decide) (by decide) rfl
  have hcall : Stretch q env base size 1 55
      ⟨cursor :: (env.mem 0 + 32 - cursor) :: stack, [], memory⟩
      (memory.bytes cursor (env.mem 0 + 32 - cursor).toNat) 56 ⟨stack, [], memory⟩ :=
    .call hq.printInt rfl hq.writeOut (by simp) (returns_writeOut hq _ _)
  have hrun := hlength.trans hcall
  simpa using hrun.returns hq.printInt rfl

end

def cursor (env : Env) (count : Nat) : Word := env.mem 0 + BitVec.ofNat 64 (32 - count)

section

variable {env : Env} {count : Nat}

theorem cursor_sub_one (h : count < 32) : cursor env count - 1 = cursor env (count + 1) := by
  unfold cursor
  bv_omega

theorem end_sub_cursor (h : count ≤ 32) :
    (env.mem 0 + 32 - cursor env count).toNat = count := by
  unfold cursor
  bv_omega

theorem cursor_eq_iff (h : count ≤ 32) : cursor env count = env.mem 0 + 32 ↔ count = 0 := by
  unfold cursor
  bv_omega

theorem bytes_writeByte_cursor (env : Env) (h : count < 32) (memory : Store) (b : Byte) :
    (memory.writeByte (cursor env (count + 1)) b).bytes (cursor env (count + 1)) (count + 1) =
      b :: memory.bytes (cursor env count) count := by
  have hnext : cursor env (count + 1) + 1 = cursor env count := by
    unfold cursor
    bv_omega
  rw [Store.bytes, hnext, Store.bytes_writeByte_of_ne]
  · simp [Store.writeByte]
  · intro k hk
    unfold cursor
    bv_omega

end

section

variable {q : Program} (hq : q.HasLibrary) {env : Env} (stack : List Word)
  (hbuffer : ∀ k < 32, env.data (env.mem 0 + BitVec.ofNat 64 k) = true)
include hq

theorem stretch_exit {m : Word} {count : Nat} (hcount : 0 < count) (hroom : count ≤ 32)
    (hm : BitVec.slt 0 m = false) (memory : Store) :
    Stretch q env (env.mem 0) 32 1 15 ⟨m :: cursor env count :: stack, [], memory⟩ [] 45
      ⟨m :: cursor env count :: stack, [], memory⟩ := by
  have htest : Stretch q env (env.mem 0) 32 1 15 ⟨m :: cursor env count :: stack, [], memory⟩ []
      _ ⟨m :: cursor env count :: stack, [], memory⟩ := stretch_test hq m (cursor env count)
  rw [if_neg] at htest
  · exact htest
  · rintro (hstart | hleft)
    · rw [cursor_eq_iff hroom] at hstart
      omega
    · exact absurd hleft (Bool.eq_false_iff.mp hm)

theorem returns_of_loop {memory memory' : Store} (hloaded : env.Loaded q memory) {w m : Word}
    {count : Nat} (hroom : count ≤ 32)
    (hloop : Stretch q env (env.mem 0) 32 1 15 ⟨magnitude w :: cursor env 0 :: stack, [], memory⟩ []
      45 ⟨m :: cursor env count :: stack, [], memory'⟩) :
    Returns q env (env.mem 0) 32 1 0 ⟨w :: stack, [], memory⟩
      (sign w ++ memory'.bytes (cursor env count) count) stack memory' := by
  have hstart : Stretch q env (env.mem 0) 32 1 0 ⟨w :: stack, [], memory⟩ (sign w ++ []) 15
      ⟨magnitude w :: cursor env 0 :: stack, [], memory⟩ :=
    (stretch_sign hq hloaded w).trans (stretch_cursor hq _)
  have hend : Returns q env (env.mem 0) 32 1 45 ⟨m :: cursor env count :: stack, [], memory'⟩ _
      stack memory' := returns_digits hq m (cursor env count)
  rw [end_sub_cursor hroom] at hend
  have hrun := (hstart.trans hloop).andReturns hend
  simpa using hrun

include hbuffer

theorem stretch_turn {m quotient remainder : Word} {count : Nat} (hroom : count < 32)
    (hgo : count = 0 ∨ BitVec.slt 0 m = true)
    (hdivide : Word.divide? m 10#64 = some (quotient, remainder)) (memory : Store) :
    Stretch q env (env.mem 0) 32 1 15 ⟨m :: cursor env count :: stack, [], memory⟩ [] 15
      ⟨quotient :: cursor env (count + 1) :: stack, [],
        memory.writeByte (cursor env (count + 1)) ((remainder + 48).setWidth 8)⟩ := by
  have htest : Stretch q env (env.mem 0) 32 1 15 ⟨m :: cursor env count :: stack, [], memory⟩ []
      _ ⟨m :: cursor env count :: stack, [], memory⟩ := stretch_test hq m (cursor env count)
  rw [if_pos] at htest
  · have hbyte := hbuffer (32 - (count + 1)) (by omega)
    rw [← cursor_sub_one hroom]
    apply htest.trans
    apply stretch_digit hq hdivide
    · rw [cursor_sub_one hroom]
      exact hbyte
    · show 32 - (count + 1) < 32
      omega
    · rw [cursor_sub_one hroom]
      rfl
  · rw [cursor_eq_iff (by omega)]
    exact hgo

theorem exists_stretch_digits {n : Nat} (hn : n < 2 ^ 63) {count : Nat} (hgo : count = 0 ∨ 0 < n)
    (hroom : count + (Text.digits n).length ≤ 32) (memory : Store) :
    ∃ memory', Stretch q env (env.mem 0) 32 1 15
      ⟨BitVec.ofNat 64 n :: cursor env count :: stack, [], memory⟩ [] 45
      ⟨0 :: cursor env (count + (Text.digits n).length) :: stack, [], memory'⟩ ∧
      memory'.bytes (cursor env (count + (Text.digits n).length))
        (count + (Text.digits n).length) =
        Text.digits n ++ memory.bytes (cursor env count) count := by
  induction n using Nat.strongRecOn generalizing count memory with
  | ind n ih =>
    have hdigits := Text.digits_eq n
    have hlength := congrArg List.length hdigits
    simp only [List.length_append, List.length_singleton] at hlength
    rw [← Word.slt_ofNat hn] at hgo
    have hcount : count < 32 := by omega
    have hturn : Stretch q env (env.mem 0) 32 1 15
        ⟨BitVec.ofNat 64 n :: cursor env count :: stack, [], memory⟩ [] 15 _ :=
      stretch_turn hq stack hbuffer hcount hgo (Word.divide?_ten hn) memory
    rw [Word.digit (Nat.mod_lt n (by decide))] at hturn
    have hbytes := bytes_writeByte_cursor env hcount memory
      (BitVec.ofNat 8 (Nat.digitChar (n % 10)).toNat)
    generalize memory.writeByte _ _ = written at hturn hbytes
    by_cases hlt : n < 10
    · -- the last turn
      rw [if_pos hlt] at hdigits hlength
      have hzero : n / 10 = 0 := by omega
      rw [hzero] at hturn
      refine ⟨written, ?_, ?_⟩
      · rw [hlength]
        exact hturn.trans (stretch_exit hq stack (by omega) (by omega) rfl written)
      · rw [hlength, hdigits]
        exact hbytes
    · rw [if_neg hlt] at hdigits hlength
      have hleft : count + 1 + (Text.digits (n / 10)).length ≤ 32 := by omega
      obtain ⟨memory', hrest, hcontents⟩ :=
        ih (n / 10) (by omega) (by omega) (.inr (by omega)) hleft written
      have htotal : count + 1 + (Text.digits (n / 10)).length =
          count + (Text.digits n).length := by omega
      rw [htotal] at hrest hcontents
      refine ⟨memory', hturn.trans hrest, ?_⟩
      rw [hcontents, hbytes, hdigits]
      simp

theorem exists_returns_of_magnitude {memory : Store} (hloaded : env.Loaded q memory) {w : Word}
    {n : Nat} (hn : n < 2 ^ 63) (hw : magnitude w = BitVec.ofNat 64 n) :
    ∃ memory', Returns q env (env.mem 0) 32 1 0 ⟨w :: stack, [], memory⟩
      (sign w ++ Text.digits n) stack memory' := by
  have hroom : 0 + (Text.digits n).length ≤ 32 := by
    rw [Nat.zero_add]
    exact Text.length_digits_le hn
  obtain ⟨memory', hloop, hbytes⟩ :=
    exists_stretch_digits hq stack hbuffer hn (.inl rfl) hroom memory
  rw [← hw] at hloop
  have hrun := returns_of_loop hq stack hloaded hroom hloop
  rw [hbytes] at hrun
  simp only [Store.bytes, List.append_nil] at hrun
  exact ⟨memory', hrun⟩

/-- The least number is its own magnitude, of which the loop takes one digit, a negative one. -/
theorem exists_returns_least {memory : Store} (hloaded : env.Loaded q memory) :
    ∃ memory', Returns q env (env.mem 0) 32 1 0 ⟨BitVec.intMin 64 :: stack, [], memory⟩
      (Text.ascii "-(") stack memory' := by
  have hmagnitude : magnitude (BitVec.intMin 64) = BitVec.intMin 64 := by decide
  have hdivide : Word.divide? (BitVec.intMin 64) 10#64 =
      some (BitVec.ofInt 64 (-922337203685477580), BitVec.ofInt 64 (-8)) := by decide
  have hturn := stretch_turn hq stack hbuffer (by decide) (.inl rfl) hdivide memory
  have hloop := hturn.trans (stretch_exit hq stack (by decide) (by decide) (by decide) _)
  rw [← hmagnitude] at hloop
  have hrun := returns_of_loop hq stack hloaded (by decide) hloop
  rw [bytes_writeByte_cursor env (by decide)] at hrun
  exact ⟨_, hrun⟩

end

theorem slt_zero_iff {w : Word} : w.slt 0 = true ↔ w.toInt < 0 := BitVec.slt_iff_toInt_lt

theorem magnitude_eq {w : Word} (hw : w ≠ BitVec.intMin 64) :
    w.toInt.natAbs < 2 ^ 63 ∧ magnitude w = BitVec.ofNat 64 w.toInt.natAbs := by
  have hne : w.toNat ≠ 2 ^ 63 := fun heq => hw (BitVec.eq_of_toNat_eq heq)
  have hlt := w.isLt
  have hcond := BitVec.toInt_eq_toNat_cond w
  unfold magnitude
  split
  · next hneg =>
    rw [slt_zero_iff] at hneg
    refine ⟨by omega, BitVec.eq_of_toNat_eq ?_⟩
    have hzero : (0 : Word).toNat = 0 := rfl
    rw [BitVec.toNat_sub, BitVec.toNat_ofNat, hzero]
    omega
  · next hneg =>
    rw [slt_zero_iff] at hneg
    refine ⟨by omega, BitVec.eq_of_toNat_eq ?_⟩
    rw [BitVec.toNat_ofNat]
    omega

end Library

/--
The library prints the decimal spelling of every number but the least one, from the sign to the last
digit, keeps to its buffer, and takes the number off the stack.
-/
theorem print_spells_all_but_the_least {loader : Loader} {entry : String} {options : Options}
    {p q : Program} {warnings : List Diagnostic} (hparse : parse loader entry options = .ok p)
    (hvalid : p.validate = (q, .ok warnings)) (hlibrary : options.library = true)
    {env : Machine.Env} {memory : Store} (hloaded : env.Loaded q memory) (n : Int64)
    (stack : List Word) (callers : List Machine.Activation) :
    q.Defines 1 "print" [.int] Library.printInt ∧
      (q.memories[0]?).map (fun m => (m.name, m.size)) = some ("print-buf", 32) ∧
      ∃ out memory', Machine.Prints q env (Machine.StoresWithin q (env.mem 0) 32)
          ⟨n.toBitVec :: stack, ⟨1, 0, [], stack⟩ :: callers, memory⟩ out
          ⟨stack, callers, memory'⟩ ∧
        (n ≠ Int64.minValue → out = Text.ascii (toString n.toInt)) ∧
        (n = Int64.minValue → out = Text.ascii "-(") := by
  have hq := hasLibrary_of_parse hparse hvalid hlibrary
  refine ⟨hq.printInt, hq.buffer, ?_⟩
  have hbuffer : ∀ k < 32, env.data (env.mem 0 + BitVec.ofNat 64 k) = true := by
    obtain ⟨m, hm, hnamed⟩ := Option.map_eq_some_iff.mp hq.buffer
    have hsize : m.size = 32 := (Prod.mk.inj hnamed).2
    rw [← hsize]
    exact hloaded.regions hm
  by_cases hn : n = Int64.minValue
  · obtain ⟨memory', hrun⟩ := Library.exists_returns_least hq stack hbuffer hloaded
    refine ⟨_, memory', ?_, fun hne => absurd hn hne, fun _ => rfl⟩
    rw [hn]
    exact hrun stack callers
  · have hw : n.toBitVec ≠ BitVec.intMin 64 := fun heq => hn (Int64.toBitVec_inj.mp heq)
    obtain ⟨hlt, hmagnitude⟩ := Library.magnitude_eq hw
    obtain ⟨memory', hrun⟩ :=
      Library.exists_returns_of_magnitude hq stack hbuffer hloaded hlt hmagnitude
    refine ⟨_, memory', hrun stack callers, fun _ => ?_, fun heq => absurd heq hn⟩
    rw [Text.ascii_toString, Library.sign, if_congr Library.slt_zero_iff rfl rfl]
    rfl

section

open Machine

def balance : SourceUnit := { id := "main.cin", text := "fn main ( -9223372036854775807 print )" }

def balanceTable : SourceTable := SourceTable.ofList [("main", balance.text)]

def SourceUnit.onlyPrints (u : SourceUnit) (p : Program) : Bool :=
  let r := u.read p
  r.2.isEmpty && (Front.unknownWords r.1).isEmpty && r.1.validate.2.isOk &&
    r.1.strings = ["-", "true", "false"]

theorem onlyPrints_balance : balance.onlyPrints (Source.ahead true).1 = true := by
  rw [Source.ahead, SourceUnit.program_of_reports (Source.reports_ahead true)]
  show balance.onlyPrints (SourceUnit.programOf "<prelude>" true Source.libraryText.toList) = true
  unfold Source.libraryText
  simp only [String.toList_append]
  decide +kernel

theorem exists_balance : ∃ p q warnings, parse balanceTable.loader "main" {} = .ok p ∧
    p.validate = (q, .ok warnings) ∧ q.strings = ["-", "true", "false"] := by
  have hfetch : balanceTable.loader.fetch "main" none = .ok balance := rfl
  have hbalance := onlyPrints_balance
  generalize hl : (Source.ahead true).1 = l at hbalance
  rcases hread : balance.read l with ⟨p, reports⟩
  simp only [SourceUnit.onlyPrints, hread, Bool.and_eq_true, List.isEmpty_iff,
    decide_eq_true_eq] at hbalance
  obtain ⟨⟨⟨rfl, hwords⟩, hvalid⟩, hstrings⟩ := hbalance
  rw [← hl] at hread
  have hparse : parse balanceTable.loader "main" {} = .ok p := parse_of_read hfetch hread hwords
  rcases hvalidate : p.validate with ⟨q, outcome⟩
  cases outcome with
  | error e => simp [hvalidate, Except.isOk, Except.toBool] at hvalid
  | ok warnings =>
    obtain ⟨functions, main, -, -, rfl, -⟩ := Program.validate_eq_ok hvalidate
    exact ⟨p, _, warnings, hparse, hvalidate, hstrings⟩

def cellOf (s : String) : List Byte :=
  BitVec.ofNat 8 s.length :: List.replicate 7 0 ++ Text.ascii s ++ List.replicate (56 - s.length) 0

def balanceEnv : Env where
  str index := BitVec.ofNat 64 (4096 + 64 * index)
  mem _ := 8192
  data _ := true

def balanceMemory : Store := fun a =>
  (["-", "true", "false"].flatMap cellOf).getD (a.toNat - 4096) 0

theorem loaded_balance {q : Program} (hstrings : q.strings = ["-", "true", "false"]) :
    balanceEnv.Loaded q balanceMemory := by
  have hall : ∀ index < 3, ∀ s, ["-", "true", "false"][index]? = some s →
      balanceMemory.readWord (balanceEnv.str index) = BitVec.ofNat 64 (Text.utf8 s).length ∧
        balanceMemory.bytes (balanceEnv.str index + 8) (Text.utf8 s).length =
          (Text.utf8 s).map (·.toBitVec) := by
    intro index hindex s hs
    rcases index with _ | _ | _ | index
    · obtain rfl : s = "-" := by simpa using hs.symm
      exact ⟨by decide +kernel, by decide +kernel⟩
    · obtain rfl : s = "true" := by simpa using hs.symm
      exact ⟨by decide +kernel, by decide +kernel⟩
    · obtain rfl : s = "false" := by simpa using hs.symm
      exact ⟨by decide +kernel, by decide +kernel⟩
    · omega
  have hlt {index : Nat} {s : String} (h : q.strings[index]? = some s) : index < 3 := by
    have := (List.getElem?_eq_some_iff.mp h).1
    rw [hstrings] at this
    exact this
  constructor
  case readable => intros; simp [Env.wordAt, balanceEnv]
  case lengths =>
    intro index s hs
    exact (hall index (hlt hs) s (hstrings ▸ hs)).1
  case contents =>
    intro index s hs
    exact (hall index (hlt hs) s (hstrings ▸ hs)).2
  case regions => intros; rfl

theorem print_spells_all_but_the_least_balance : ∃ p q warnings env memory,
    parse balanceTable.loader "main" {} = .ok p ∧ p.validate = (q, .ok warnings) ∧
      Env.Loaded env q memory ∧ q.Defines 1 "print" [.int] Library.printInt ∧
      ∃ memory', Prints q env (StoresWithin q (env.mem 0) 32)
        ⟨[(-9223372036854775807 : Int64).toBitVec], [⟨1, 0, [], []⟩], memory⟩
        (Text.ascii "-9223372036854775807") ⟨[], [], memory'⟩ := by
  obtain ⟨p, q, warnings, hparse, hvalid, hstrings⟩ := exists_balance
  have hloaded := loaded_balance hstrings
  obtain ⟨hprint, -, out, memory', hrun, hspelled, -⟩ :=
    print_spells_all_but_the_least hparse hvalid rfl hloaded (-9223372036854775807) [] []
  rw [hspelled (by decide)] at hrun
  exact ⟨p, q, warnings, _, _, hparse, hvalid, hloaded, hprint, memory', hrun⟩

/-- The least number is printed as a sign and a character that is no digit. -/
theorem least_number_is_not_spelled : ∃ p q warnings env memory,
    parse balanceTable.loader "main" {} = .ok p ∧ p.validate = (q, .ok warnings) ∧
      Env.Loaded env q memory ∧ (∃ memory', Prints q env (StoresWithin q (env.mem 0) 32)
        ⟨[Int64.minValue.toBitVec], [⟨1, 0, [], []⟩], memory⟩ (Text.ascii "-(")
        ⟨[], [], memory'⟩) ∧
      Text.ascii "-(" ≠ Text.ascii (toString Int64.minValue.toInt) := by
  obtain ⟨p, q, warnings, hparse, hvalid, hstrings⟩ := exists_balance
  have hloaded := loaded_balance hstrings
  have hq := hasLibrary_of_parse hparse hvalid rfl
  have hleast : Int64.minValue.toBitVec = BitVec.intMin 64 := rfl
  obtain ⟨memory', hrun⟩ := Library.exists_returns_least hq [] (fun _ _ => rfl) hloaded
  have hprints := hrun [] []
  simp only [Config.at, ← hleast] at hprints
  exact ⟨p, q, warnings, _, _, hparse, hvalid, hloaded, ⟨memory', hprints⟩, by decide +kernel⟩

end

end StackLang
