import StackLang.Proofs.ProgramBytes

/-!
This module contains what reading makes of bytes that have been cut off. A decoder that comes to a
result, a value or an error, comes to the same one whatever bytes follow; only where the bytes run
out do further ones matter. So a part of what a program is written as can only be found too short.
-/

namespace StackLang

namespace Wire

variable {α β : Type}

namespace Decoder

/-- Unless the bytes run out, bytes added at the end are left over and change nothing else. -/
def Steady (d : Decoder α) : Prop :=
  ∀ bytes more, d bytes ≠ .error .unexpectedEnd →
    d (bytes ++ more) = (d bytes).map (Prod.map id (· ++ more))

theorem steady_value (a : α) : (value a).Steady := by
  intro bytes more _
  rfl

theorem steady_fail (e : DecodeError) : (fail e : Decoder α).Steady := by
  intro bytes more _
  rfl

namespace Steady

theorem andThen {d : Decoder α} {next : α → Decoder β} (h : d.Steady)
    (h' : ∀ a, (next a).Steady) : (andThen d next).Steady := by
  intro bytes more hend
  have hfirst := h bytes more
  unfold Decoder.andThen at hend ⊢
  cases hd : d bytes with
  | error e =>
    simp only [hd] at hfirst hend
    rw [hfirst (by simpa using hend)]
    rfl
  | ok result =>
    simp only [hd] at hfirst hend
    rw [hfirst (by simp)]
    exact h' result.1 result.2 more hend

theorem map {d : Decoder α} (f : α → β) (h : d.Steady) : (map f d).Steady := by
  apply h.andThen
  intro a
  apply steady_value

theorem replicate {d : Decoder α} (h : d.Steady) (count : Nat) : (replicate d count).Steady := by
  induction count with
  | zero => apply steady_value
  | succ count ih =>
    apply h.andThen
    intro a
    exact ih.map (a :: ·)

theorem unexpectedEnd_of_cut {d : Decoder α} (h : d.Steady) {cut more : List UInt8} {a : α}
    (hread : d (cut ++ more) = .ok (a, [])) (hmore : more ≠ []) :
    d cut = .error .unexpectedEnd := by
  by_contra hend
  have hsame := h cut more hend
  rw [hread] at hsame
  cases hd : d cut with
  | error e => simp [hd, Except.map] at hsame
  | ok result =>
    -- a value read from `cut` alone would leave `more` over
    simp only [hd, Except.map, Except.ok.injEq, Prod.map, Prod.mk.injEq] at hsame
    exact hmore (List.append_eq_nil_iff.mp hsame.2.symm).2

end Steady
end Decoder

theorem steady_decodeNat (lastMax more : Nat) : (decodeNat lastMax more).Steady := by
  intro bytes rest hend
  fun_induction decodeNat lastMax more bytes with
  | case1 => simp at hend
  | case2 b bytes hb =>
    rw [List.cons_append, decodeNat, if_pos hb]
    rfl
  | case3 b bytes hb =>
    rw [List.cons_append, decodeNat, if_neg hb]
    rfl
  | case4 more b bytes hb =>
    rw [List.cons_append, decodeNat, if_pos hb]
    rfl
  | case5 more b bytes hb e he ih =>
    rw [List.cons_append, decodeNat, if_neg hb, ih (by rwa [he]), he]
    rfl
  | case6 more b bytes hb n after hn ih =>
    rw [List.cons_append, decodeNat, if_neg hb, ih (by simp [hn]), hn]
    rfl

namespace Codec

open Decoder (Steady steady_value steady_fail)

theorem steady_nat : nat.decode.Steady := steady_decodeNat 1 9

theorem steady_choice : choice.decode.Steady := steady_decodeNat 15 4

theorem steady_byte : byte.decode.Steady := by
  intro bytes more hend
  cases bytes with
  | nil => simp [byte] at hend
  | cons b bytes => rfl

theorem steady_bool : bool.decode.Steady := by
  apply steady_byte.andThen
  intro b
  split
  · apply steady_value
  · split
    · apply steady_value
    · apply steady_fail

theorem steady_int64 : int64.decode.Steady := steady_nat.map _

theorem steady_takeBytes (count : Nat) : (takeBytes count).Steady := by
  intro bytes more hend
  by_cases hcount : bytes.length < count
  · simp [takeBytes, hcount] at hend
  · have hle : count ≤ bytes.length := by omega
    rw [takeBytes, takeBytes, if_neg hcount, if_neg (by rw [List.length_append]; omega),
      List.take_append_of_le_length hle, List.drop_append_of_le_length hle]
    rfl

theorem steady_text : text.decode.Steady := by
  apply steady_nat.andThen
  intro count
  apply (steady_takeBytes count).andThen
  intro bytes
  split
  · apply steady_value
  · apply steady_fail

section

variable {a : Codec α} {b : Codec β}

theorem steady_list (h : a.decode.Steady) : (list a).decode.Steady :=
  steady_nat.andThen h.replicate

theorem steady_pair (ha : a.decode.Steady) (hb : b.decode.Steady) : (pair a b).decode.Steady := by
  apply ha.andThen
  intro x
  exact hb.map (x, ·)

theorem steady_via {toWire : β → α} {ofWire : α → β} (h : a.decode.Steady) :
    (via a toWire ofWire).decode.Steady := h.map ofWire

end

theorem steady_location : location.decode.Steady :=
  steady_via (steady_pair steady_text (steady_pair steady_nat steady_nat))

theorem steady_kind : kind.decode.Steady := by
  apply steady_choice.andThen
  intro number
  split
  -- the only kind with an operand
  case h_8 => exact steady_text.map Kind.param
  case h_10 => apply steady_fail
  all_goals apply steady_value

theorem steady_decodeOp (number : Nat) : (decodeOp number).Steady := by
  unfold decodeOp
  split
  case h_1 => exact steady_int64.map Op.pushInt
  case h_2 => exact steady_bool.map Op.pushBool
  case h_3 | h_8 => exact steady_byte.map _
  -- an index, a target or a count
  case h_4 | h_5 | h_6 | h_11 | h_12 | h_13 | h_16 | h_17 | h_19 => exact steady_nat.map _
  case h_7 => exact steady_kind.map Op.cast
  case h_18 => exact steady_text.map Op.word
  case h_9 | h_10 | h_14 | h_15 => apply steady_value
  case h_20 =>
    split
    · apply steady_value
    · apply steady_fail

theorem steady_op : op.decode.Steady := steady_choice.andThen steady_decodeOp

theorem steady_instruction : instruction.decode.Steady :=
  steady_via (steady_pair steady_location steady_op)

theorem steady_binding : binding.decode.Steady :=
  steady_via (steady_pair steady_text (steady_pair steady_nat steady_kind))

theorem steady_memory : memory.decode.Steady :=
  steady_via (steady_pair steady_text (steady_pair steady_nat steady_location))

theorem steady_constant : constant.decode.Steady :=
  steady_via (steady_pair steady_text (steady_pair steady_int64 steady_location))

theorem steady_function : function.decode.Steady :=
  steady_via (steady_pair steady_text (steady_pair steady_nat (steady_pair steady_location
    (steady_pair (steady_list steady_kind) (steady_pair (steady_list steady_kind)
      (steady_pair steady_bool (steady_pair steady_bool (steady_pair steady_bool
        (steady_pair (steady_list steady_instruction) (steady_list steady_binding))))))))))

theorem steady_program : program.decode.Steady :=
  steady_via (steady_pair (steady_list steady_function) (steady_pair (steady_list steady_memory)
    (steady_pair (steady_list steady_constant) (steady_list steady_text))))

end Codec
end Wire

/--
A program whose indices and sizes are 64-bit words is read back from all its bytes. From fewer of
them no program is read: wherever they are cut off, the error is that they run out.
-/
theorem truncated_program_is_too_short {p : Program} (h : p.Fits) :
    Program.ofBytes p.toBytes = .ok p ∧
      ∀ cut, cut <+: p.toBytes → cut ≠ p.toBytes → Program.ofBytes cut = .error .unexpectedEnd := by
  have hread := Wire.Codec.lawful_program.takes h []
  rw [List.append_nil] at hread
  constructor
  · rw [Program.ofBytes, Program.toBytes, hread]
    rfl
  · rintro cut ⟨more, hmore⟩ hcut
    have hall : Wire.Codec.program.decode (cut ++ more) = .ok (p, []) := by
      rw [hmore, Program.toBytes, hread]
    have hnil : more ≠ [] := by
      rintro rfl
      rw [List.append_nil] at hmore
      exact hcut hmore
    rw [Program.ofBytes, Wire.Codec.steady_program.unexpectedEnd_of_cut hall hnil]
    rfl

theorem truncated_program_is_too_short_extremes :
    extremes.Fits ∧ Program.ofBytes extremes.toBytes = .ok extremes ∧
      ∀ cut, cut <+: extremes.toBytes → cut ≠ extremes.toBytes →
        Program.ofBytes cut = .error .unexpectedEnd :=
  ⟨by decide, truncated_program_is_too_short (by decide)⟩

end StackLang
