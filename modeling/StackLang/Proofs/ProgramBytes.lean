import Mathlib.Tactic.MkIffOfInductiveProp
import StackLang.Program.Wire
import StackLang.Proofs.Codecs

/-!
This module contains what writing and reading programs as bytes do to each other. A program is read
back from what it is written as, and of all the bytes that are read as a program, those that it is
written as are the fewest.
-/

namespace StackLang

def Text.Fits (s : String) : Prop := (utf8 s).length < 2 ^ 64

def ItemsFit {α : Type} (fits : α → Prop) (l : List α) : Prop :=
  l.length < 2 ^ 64 ∧ ∀ a ∈ l, fits a

def Kind.Fits : Kind → Prop
  | param name => Text.Fits name
  | _ => True

def Op.Fits : Op → Prop
  | pushStr n | pushPtr n | pushBind n | branch n | otherwise n | jump n | bind n | unbind n
  | call n => n < 2 ^ 64
  | cast kind => kind.Fits
  | word name => Text.Fits name
  | _ => True

@[mk_iff]
structure Location.Fits (l : Location) : Prop where
  file : Text.Fits l.file
  line : l.line < 2 ^ 64
  col : l.col < 2 ^ 64

@[mk_iff]
structure Instruction.Fits (i : Instruction) : Prop where
  loc : i.loc.Fits
  op : i.op.Fits

@[mk_iff]
structure Binding.Fits (b : Binding) : Prop where
  name : Text.Fits b.name
  index : b.index < 2 ^ 64
  kind : b.kind.Fits

@[mk_iff]
structure Memory.Fits (m : Memory) : Prop where
  name : Text.Fits m.name
  size : m.size < 2 ^ 64
  loc : m.loc.Fits

@[mk_iff]
structure Constant.Fits (c : Constant) : Prop where
  name : Text.Fits c.name
  loc : c.loc.Fits

@[mk_iff]
structure Function.Fits (f : Function) : Prop where
  name : Text.Fits f.name
  entry : f.entry < 2 ^ 64
  loc : f.loc.Fits
  args : ItemsFit Kind.Fits f.args
  rets : ItemsFit Kind.Fits f.rets
  code : ItemsFit Instruction.Fits f.code
  bindings : ItemsFit Binding.Fits f.bindings

/-- Programs whose indices and sizes, those of texts and lists included, are 64-bit words. -/
@[mk_iff]
structure Program.Fits (p : Program) : Prop where
  functions : ItemsFit Function.Fits p.functions
  memories : ItemsFit Memory.Fits p.memories
  constants : ItemsFit Constant.Fits p.constants
  strings : ItemsFit Text.Fits p.strings

section

instance (s : String) : Decidable (Text.Fits s) := inferInstanceAs (Decidable (_ < _))

instance {α : Type} (fits : α → Prop) [DecidablePred fits] : DecidablePred (ItemsFit fits) :=
  fun _ => inferInstanceAs (Decidable (_ ∧ _))

instance : DecidablePred Kind.Fits
  | .param name => inferInstanceAs (Decidable (Text.Fits name))
  | .untyped | .any | .bool | .byte | .int | .ptr | .str | .variadic =>
    inferInstanceAs (Decidable True)

instance : DecidablePred Op.Fits
  | .pushStr n | .pushPtr n | .pushBind n | .branch n | .otherwise n | .jump n | .bind n
  | .unbind n | .call n => inferInstanceAs (Decidable (n < 2 ^ 64))
  | .cast kind => inferInstanceAs (Decidable kind.Fits)
  | .word name => inferInstanceAs (Decidable (Text.Fits name))
  | .pushInt _ | .pushBool _ | .pushChar _ | .prim _ | .syscall _ | .enter _ | .leave _ =>
    inferInstanceAs (Decidable True)

instance : DecidablePred Location.Fits := fun l => decidable_of_iff _ (Location.fits_iff l).symm

instance : DecidablePred Instruction.Fits :=
  fun i => decidable_of_iff _ (Instruction.fits_iff i).symm

instance : DecidablePred Binding.Fits := fun b => decidable_of_iff _ (Binding.fits_iff b).symm

instance : DecidablePred Memory.Fits := fun m => decidable_of_iff _ (Memory.fits_iff m).symm

instance : DecidablePred Constant.Fits := fun c => decidable_of_iff _ (Constant.fits_iff c).symm

instance : DecidablePred Function.Fits := fun f => decidable_of_iff _ (Function.fits_iff f).symm

instance : DecidablePred Program.Fits := fun p => decidable_of_iff _ (Program.fits_iff p).symm

end

namespace Wire.Codec

open Decoder (Takes canonical_value)

def kindNumber : Kind → Nat
  | .untyped => 0
  | .any => 1
  | .bool => 2
  | .byte => 3
  | .int => 4
  | .ptr => 5
  | .str => 6
  | .param _ => 7
  | .variadic => 8

def kindOperand : Kind → List UInt8
  | .param name => text.encode name
  | _ => []

theorem lawful_of_number {α : Type} {c : Codec α} {next : Nat → Decoder α} {fits : α → Prop}
    (number : α → Nat) (operand : α → List UInt8)
    (hencode : ∀ a, c.encode a = choice.encode (number a) ++ operand a)
    (hdecode : c.decode = Decoder.andThen choice.decode next) (hnumber : ∀ a, number a < 2 ^ 32)
    (htakes : ∀ a, fits a → (next (number a)).Takes (operand a) a)
    (hcanonical : ∀ n bytes rest a, next n bytes = .ok (a, rest) → (number a = n ∧ fits a) ∧
      ∃ front, bytes = front ++ rest ∧ (next n).Takes front a ∧ Shortens (operand a) front) :
    c.Lawful fits := by
  have hnext : ∀ n, (next n).Inverts operand fun a => number a = n ∧ fits a := by
    intro n
    constructor
    · rintro a ⟨rfl, ha⟩
      exact htakes a ha
    · intro bytes rest a ha
      exact hcanonical n bytes rest a ha
  rw [Lawful, hdecode]
  apply (lawful_choice.andThen number hnext).congr hencode
  intro a
  simp only [hnumber, true_and]

theorem lawful_kind : kind.Lawful Kind.Fits := by
  apply lawful_of_number kindNumber kindOperand _ rfl
  · intro k
    cases k <;> simp [kindNumber]
  · intro k hk
    cases k with
    | param name => exact (lawful_text.takes hk).map Kind.param
    | untyped | any | bool | byte | int | ptr | str | variadic => apply Takes.value
  · intro n bytes rest k hk
    split at hk
    -- the only kind with an operand
    case h_8 =>
      obtain ⟨name, rfl, hname, hfront⟩ := lawful_text.canonical_map hk
      exact ⟨⟨rfl, hname⟩, hfront⟩
    case h_10 => simp [Decoder.fail] at hk
    all_goals
      obtain ⟨rfl, hfront⟩ := canonical_value hk
      exact ⟨⟨rfl, trivial⟩, hfront⟩
  · intro k
    cases k <;> simp [kind, kindNumber, kindOperand]

def opNumber : Op → Nat
  | .pushInt _ => 0
  | .pushBool _ => 1
  | .pushChar _ => 2
  | .pushStr _ => 3
  | .pushPtr _ => 4
  | .pushBind _ => 5
  | .prim p => primNumber p
  | .cast _ => 29
  | .syscall _ => 30
  | .enter .cond => 31
  | .enter .loop => 32
  | .branch _ => 33
  | .otherwise _ => 34
  | .jump _ => 35
  | .leave .cond => 36
  | .leave .loop => 37
  | .bind _ => 38
  | .unbind _ => 39
  | .word _ => 40
  | .call _ => 41

def opOperand : Op → List UInt8
  | .pushInt n => int64.encode n
  | .pushBool b => bool.encode b
  | .pushChar b | .syscall b => byte.encode b
  | .pushStr n | .pushPtr n | .pushBind n | .branch n | .otherwise n | .jump n | .bind n
  | .unbind n | .call n => nat.encode n
  | .cast k => kind.encode k
  | .word name => text.encode name
  | .prim _ | .enter _ | .leave _ => []

theorem primNumber_lt (p : Prim) : primNumber p < 29 := by
  cases p <;> decide

theorem decodeOp_primNumber (p : Prim) : decodeOp (primNumber p) = Decoder.value (.prim p) := by
  cases p <;> rfl

theorem primNumber_of_getElem? {n : Nat} {p : Prim} (h : Prim.all[n]? = some p) :
    primNumber p = 6 + n := by
  obtain ⟨hn, rfl⟩ := List.getElem?_eq_some_iff.mp h
  rw [primNumber, List.Nodup.idxOf_getElem (by decide)]

theorem opNumber_lt (o : Op) : opNumber o < 2 ^ 32 := by
  cases o with
  | prim p =>
    have := primNumber_lt p
    simp only [opNumber]
    omega
  | enter b | leave b => cases b <;> simp [opNumber]
  | _ => simp [opNumber]

theorem takes_decodeOp {o : Op} (h : o.Fits) : (decodeOp (opNumber o)).Takes (opOperand o) o := by
  cases o with
  | pushInt n => exact (lawful_int64.takes trivial).map Op.pushInt
  | pushBool b => exact (lawful_bool.takes trivial).map Op.pushBool
  | pushChar b => exact (lawful_byte.takes trivial).map Op.pushChar
  | syscall b => exact (lawful_byte.takes trivial).map Op.syscall
  | pushStr n => exact (lawful_nat.takes h).map Op.pushStr
  | pushPtr n => exact (lawful_nat.takes h).map Op.pushPtr
  | pushBind n => exact (lawful_nat.takes h).map Op.pushBind
  | branch n => exact (lawful_nat.takes h).map Op.branch
  | otherwise n => exact (lawful_nat.takes h).map Op.otherwise
  | jump n => exact (lawful_nat.takes h).map Op.jump
  | bind n => exact (lawful_nat.takes h).map Op.bind
  | unbind n => exact (lawful_nat.takes h).map Op.unbind
  | call n => exact (lawful_nat.takes h).map Op.call
  | cast k => exact (lawful_kind.takes h).map Op.cast
  | word name => exact (lawful_text.takes h).map Op.word
  | enter b | leave b => cases b <;> apply Takes.value
  | prim p =>
    simp only [opNumber, decodeOp_primNumber]
    apply Takes.value

theorem canonical_decodeOp {n : Nat} {bytes rest : List UInt8} {o : Op}
    (h : decodeOp n bytes = .ok (o, rest)) :
    (opNumber o = n ∧ o.Fits) ∧ ∃ front, bytes = front ++ rest ∧
      (decodeOp n).Takes front o ∧ Shortens (opOperand o) front := by
  unfold decodeOp at h
  split at h
  case h_1 =>
    obtain ⟨n, rfl, -, hfront⟩ := lawful_int64.canonical_map h
    exact ⟨⟨rfl, trivial⟩, hfront⟩
  case h_2 =>
    obtain ⟨b, rfl, -, hfront⟩ := lawful_bool.canonical_map h
    exact ⟨⟨rfl, trivial⟩, hfront⟩
  case h_3 | h_8 =>
    obtain ⟨b, rfl, -, hfront⟩ := lawful_byte.canonical_map h
    exact ⟨⟨rfl, trivial⟩, hfront⟩
  -- an index, a target or a count
  case h_4 | h_5 | h_6 | h_11 | h_12 | h_13 | h_16 | h_17 | h_19 =>
    obtain ⟨n, rfl, hn, hfront⟩ := lawful_nat.canonical_map h
    exact ⟨⟨rfl, hn⟩, hfront⟩
  case h_7 =>
    obtain ⟨k, rfl, hk, hfront⟩ := lawful_kind.canonical_map h
    exact ⟨⟨rfl, hk⟩, hfront⟩
  case h_18 =>
    obtain ⟨name, rfl, hname, hfront⟩ := lawful_text.canonical_map h
    exact ⟨⟨rfl, hname⟩, hfront⟩
  -- the two kinds of blocks have numbers of their own, and no operand
  case h_9 | h_10 | h_14 | h_15 =>
    obtain ⟨rfl, hfront⟩ := canonical_value h
    exact ⟨⟨rfl, trivial⟩, hfront⟩
  case h_20 =>
    cases hp : Prim.all[n - 6]? with
    | none => simp [hp, Decoder.fail] at h
    | some p =>
      simp only [hp] at h
      obtain ⟨rfl, hfront⟩ := canonical_value h
      -- numbers below six have been met already, so nothing is lost in `n - 6`
      have hnumber : primNumber p = n := by
        have hp := primNumber_of_getElem? hp
        grind
      subst hnumber
      rw [decodeOp_primNumber]
      exact ⟨⟨rfl, trivial⟩, hfront⟩

theorem lawful_op : op.Lawful Op.Fits := by
  apply lawful_of_number opNumber opOperand _ rfl opNumber_lt
  · intro o ho
    exact takes_decodeOp ho
  · intro n bytes rest o ho
    exact canonical_decodeOp ho
  · intro o
    cases o with
    | enter b | leave b => cases b <;> simp [op, opNumber, opOperand]
    | _ => simp [op, opNumber, opOperand]

theorem lawful_location : location.Lawful Location.Fits :=
  (lawful_text.pair (lawful_nat.pair lawful_nat)).via (fun _ => rfl) (fun _ => rfl)
    Location.fits_iff

theorem lawful_instruction : instruction.Lawful Instruction.Fits :=
  (lawful_location.pair lawful_op).via (fun _ => rfl) (fun _ => rfl) Instruction.fits_iff

theorem lawful_binding : binding.Lawful Binding.Fits :=
  (lawful_text.pair (lawful_nat.pair lawful_kind)).via (fun _ => rfl) (fun _ => rfl)
    Binding.fits_iff

theorem lawful_memory : memory.Lawful Memory.Fits :=
  (lawful_text.pair (lawful_nat.pair lawful_location)).via (fun _ => rfl) (fun _ => rfl)
    Memory.fits_iff

theorem lawful_constant : constant.Lawful Constant.Fits := by
  apply (lawful_text.pair (lawful_int64.pair lawful_location)).via (fun _ => rfl) (fun _ => rfl)
  intro c
  simp only [Constant.fits_iff, true_and]
  rfl

theorem lawful_function : function.Lawful Function.Fits := by
  apply (lawful_text.pair (lawful_nat.pair (lawful_location.pair (lawful_kind.list.pair
    (lawful_kind.list.pair (lawful_bool.pair (lawful_bool.pair (lawful_bool.pair
      (lawful_instruction.list.pair lawful_binding.list))))))))).via (fun _ => rfl) (fun _ => rfl)
  intro f
  simp only [Function.fits_iff, true_and]
  rfl

theorem lawful_program : program.Lawful Program.Fits :=
  (lawful_function.list.pair (lawful_memory.list.pair (lawful_constant.list.pair
    lawful_text.list))).via (fun _ => rfl) (fun _ => rfl) Program.fits_iff

end Wire.Codec

theorem Program.ofBytes_toBytes_append {p : Program} (h : p.Fits) (rest : List UInt8) :
    ofBytes (p.toBytes ++ rest) = .ok p := by
  have htakes := Wire.Codec.lawful_program.takes h rest
  rw [ofBytes, toBytes, htakes]
  rfl

/--
A program whose indices and sizes are 64-bit words is read back from what it is written as,
whatever follows. So no two programs are written alike, and none as the start of another.
-/
theorem program_bytes_round_trip {p : Program} (h : p.Fits) :
    (∀ rest, Program.ofBytes (p.toBytes ++ rest) = .ok p) ∧
      (∀ q : Program, q.Fits → q.toBytes = p.toBytes → q = p) ∧
      ∀ q : Program, q.Fits → p.toBytes <+: q.toBytes → p.toBytes = q.toBytes := by
  have hinitial : ∀ q : Program, q.Fits → p.toBytes <+: q.toBytes → p = q := by
    rintro q hq ⟨more, hmore⟩
    have hread := Program.ofBytes_toBytes_append h more
    rw [hmore, ← List.append_nil q.toBytes, Program.ofBytes_toBytes_append hq] at hread
    simpa using hread.symm
  refine ⟨Program.ofBytes_toBytes_append h, ?_, ?_⟩
  · intro q hq heq
    exact (hinitial q hq (heq ▸ List.prefix_rfl)).symm
  · intro q hq hp
    rw [hinitial q hq hp]

/-- A program with the greatest index, the least value, and texts that are empty or not ASCII. -/
def extremes : Program where
  functions := [
    { name := "main", entry := 0, loc := ⟨"a.cin", 1, 2 ^ 64 - 1⟩, called := true,
      code := [⟨⟨"é", 1, 4⟩, .pushInt Int64.minValue⟩, ⟨⟨"é", 1, 5⟩, .prim .store8⟩,
        ⟨⟨"é", 1, 6⟩, .cast (.param "日本")⟩, ⟨⟨"é", 1, 7⟩, .call (2 ^ 64 - 1)⟩] },
    { name := "", entry := 2 ^ 64 - 1, loc := ⟨"", 0, 0⟩, args := [.param "", .variadic],
      rets := [.untyped], overload := true,
      code := [⟨⟨"", 0, 0⟩, .word "\n"⟩, ⟨⟨"", 0, 0⟩, .leave .loop⟩],
      bindings := [⟨"x", 2 ^ 63, .param "x"⟩] }]
  memories := [⟨"buffer", 2 ^ 64 - 1, ⟨"", 0, 0⟩⟩]
  constants := [⟨"least", Int64.minValue, ⟨"", 0, 0⟩⟩]
  strings := ["", "é\n"]

theorem program_bytes_round_trip_extremes :
    extremes.Fits ∧ (∀ rest, Program.ofBytes (extremes.toBytes ++ rest) = .ok extremes) ∧
      (∀ q : Program, q.Fits → q.toBytes = extremes.toBytes → q = extremes) ∧
      ∀ q : Program, q.Fits → extremes.toBytes <+: q.toBytes → extremes.toBytes = q.toBytes :=
  ⟨by decide, program_bytes_round_trip (by decide)⟩

/--
Bytes that are read as a program start with some that alone decide what is read. The program is
written in no more bytes than these, in as many only if it is written as these, and it is read back.
-/
theorem read_program_is_written_shortest {bytes : List UInt8} {p : Program}
    (h : Program.ofBytes bytes = .ok p) :
    ∃ front rest, bytes = front ++ rest ∧
      (∀ more, Wire.Codec.program.decode (front ++ more) = .ok (p, more)) ∧
      p.toBytes.length ≤ front.length ∧
      (p.toBytes.length = front.length → p.toBytes = front) ∧
      Program.ofBytes p.toBytes = .ok p := by
  unfold Program.ofBytes at h
  cases hdecode : Wire.Codec.program.decode bytes with
  | error e => simp [hdecode, Except.map] at h
  | ok result =>
    obtain ⟨q, rest⟩ := result
    simp only [hdecode, Except.map, Except.ok.injEq] at h
    subst h
    obtain ⟨hfits, front, hfront, htakes, hshort⟩ := Wire.Codec.lawful_program.canonical hdecode
    refine ⟨front, rest, hfront, htakes, hshort.length_le, ?_, ?_⟩
    · intro hlength
      rcases hshort with hlt | heq
      · rw [Program.toBytes] at hlength
        omega
      · exact heq
    · have hread := Program.ofBytes_toBytes_append hfits []
      rwa [List.append_nil] at hread

/-- A constant and a string, with lengths and numbers in more bytes than needed, and a byte more. -/
def padded : List UInt8 :=
  [0x80, 0x80, 0x00, 0x00, 0x81, 0x00, 0x81, 0x00, 0x63, 0xff, 0xff, 0xff, 0xff, 0xff, 0xff, 0xff,
    0xff, 0xff, 0x01, 0x00, 0x80, 0x00, 0x00, 0x01, 0x82, 0x80, 0x00, 0x68, 0x69, 0xff]

def unpadded : Program where
  constants := [⟨"c", Int64.minValue, ⟨"", 0, 0⟩⟩]
  strings := ["hi"]

theorem read_program_is_written_shortest_padded :
    Program.ofBytes padded = .ok unpadded ∧ ∃ front rest, padded = front ++ rest ∧
      (∀ more, Wire.Codec.program.decode (front ++ more) = .ok (unpadded, more)) ∧
      unpadded.toBytes.length ≤ front.length ∧
      (unpadded.toBytes.length = front.length → unpadded.toBytes = front) ∧
      Program.ofBytes unpadded.toBytes = .ok unpadded := by
  have hread : Program.ofBytes padded = .ok unpadded := by decide +kernel
  exact ⟨hread, read_program_is_written_shortest hread⟩

end StackLang
