import Mathlib.Algebra.Group.Nat.Defs
import Mathlib.Data.List.Basic
import StackLang.Wire

/-!
This module contains the laws of codecs. What a value is written as is read back, whatever bytes
follow it. Other bytes may be read as the same value, but only if they are longer.
-/

namespace StackLang.Wire

variable {α β : Type}

def Shortens (canonical bytes : List UInt8) : Prop :=
  canonical.length < bytes.length ∨ canonical = bytes

namespace Shortens

theorem refl (bytes : List UInt8) : Shortens bytes bytes := Or.inr rfl

theorem length_le {canonical bytes : List UInt8} (h : Shortens canonical bytes) :
    canonical.length ≤ bytes.length := by
  rcases h with hlt | rfl
  · omega
  · omega

theorem append {a b a' b' : List UInt8} (h : Shortens a b) (h' : Shortens a' b') :
    Shortens (a ++ a') (b ++ b') := by
  have hle := h.length_le
  have hle' := h'.length_le
  unfold Shortens at *
  simp only [List.length_append]
  rcases h with hlt | rfl
  · left
    omega
  · rcases h' with hlt' | rfl
    · left
      omega
    · right
      rfl

end Shortens

namespace Decoder

/-- The decoder reads the bytes `front` as `a`, and looks at no byte after them. -/
def Takes (d : Decoder α) (front : List UInt8) (a : α) : Prop :=
  ∀ rest, d (front ++ rest) = .ok (a, rest)

theorem andThen_eq_ok {d : Decoder α} {next : α → Decoder β} {bytes rest : List UInt8} {b : β}
    (h : andThen d next bytes = .ok (b, rest)) :
    ∃ a middle, d bytes = .ok (a, middle) ∧ next a middle = .ok (b, rest) := by
  unfold andThen at h
  split at h
  · simp at h
  · next a middle ha => exact ⟨a, middle, ha, h⟩

theorem map_eq_ok {d : Decoder α} {f : α → β} {bytes rest : List UInt8} {b : β}
    (h : map f d bytes = .ok (b, rest)) : ∃ a, d bytes = .ok (a, rest) ∧ f a = b := by
  obtain ⟨a, middle, ha, hb⟩ := andThen_eq_ok h
  simp only [value, Except.ok.injEq, Prod.mk.injEq] at hb
  obtain ⟨hb, hrest⟩ := hb
  subst hrest
  exact ⟨a, ha, hb⟩

namespace Takes

theorem value (a : α) : (value a).Takes [] a := by
  intro rest
  rfl

theorem andThen {d : Decoder α} {next : α → Decoder β} {front front' : List UInt8} {a : α} {b : β}
    (h : d.Takes front a) (h' : (next a).Takes front' b) :
    (andThen d next).Takes (front ++ front') b := by
  intro rest
  rw [List.append_assoc, Decoder.andThen, h]
  apply h'

theorem map {d : Decoder α} {front : List UInt8} {a : α} (f : α → β) (h : d.Takes front a) :
    (map f d).Takes front (f a) := by
  rw [← List.append_nil front]
  apply h.andThen
  apply Takes.value

end Takes

theorem canonical_value {a b : α} {bytes rest : List UInt8} (h : value a bytes = .ok (b, rest)) :
    a = b ∧ ∃ front, bytes = front ++ rest ∧ (value a).Takes front b ∧ Shortens [] front := by
  simp only [value, Except.ok.injEq, Prod.mk.injEq] at h
  obtain ⟨rfl, rfl⟩ := h
  exact ⟨rfl, [], rfl, Takes.value a, Shortens.refl []⟩

/--
Reading inverts writing: a value that fits is read from what it is written as, and a value that is
read fits, and is written in no more bytes than it was read from.
-/
structure Inverts (d : Decoder α) (encode : α → List UInt8) (fits : α → Prop) : Prop where
  takes : ∀ {a : α}, fits a → d.Takes (encode a) a
  canonical : ∀ {bytes rest : List UInt8} {a : α}, d bytes = .ok (a, rest) →
    fits a ∧ ∃ front, bytes = front ++ rest ∧ d.Takes front a ∧ Shortens (encode a) front

theorem inverts_value {a : α} {encode : α → List UInt8} {fits : α → Prop}
    (hfits : ∀ b, fits b ↔ b = a) (hencode : encode a = []) : (value a).Inverts encode fits := by
  constructor
  · intro b hb
    rw [(hfits b).mp hb, hencode]
    apply Takes.value
  · intro bytes rest b hb
    obtain ⟨rfl, hfront⟩ := canonical_value hb
    rw [hencode]
    exact ⟨(hfits a).mpr rfl, hfront⟩

theorem inverts_fail {e : DecodeError} {encode : α → List UInt8} {fits : α → Prop}
    (hfits : ∀ a, ¬ fits a) : (fail e).Inverts encode fits := by
  constructor
  · intro a ha
    exact absurd ha (hfits a)
  · intro bytes rest a ha
    simp [fail] at ha

namespace Inverts

variable {d : Decoder α} {encode : α → List UInt8} {fits : α → Prop}

theorem congr {encode' : α → List UInt8} {fits' : α → Prop} (h : d.Inverts encode fits)
    (hencode : ∀ a, encode' a = encode a) (hfits : ∀ a, fits' a ↔ fits a) :
    d.Inverts encode' fits' := by
  rw [funext hencode, funext fun a => propext (hfits a)]
  exact h

theorem andThen {next : α → Decoder β} {tail : β → List UInt8} {fits' : β → Prop}
    (h : d.Inverts encode fits) (head : β → α)
    (h' : ∀ a, (next a).Inverts tail fun b => head b = a ∧ fits' b) :
    (andThen d next).Inverts (fun b => encode (head b) ++ tail b)
      (fun b => fits (head b) ∧ fits' b) := by
  constructor
  · intro b hb
    apply (h.takes hb.1).andThen
    apply (h' (head b)).takes
    exact ⟨rfl, hb.2⟩
  · intro bytes rest b hb
    obtain ⟨a, middle, ha, htail⟩ := andThen_eq_ok hb
    obtain ⟨hfits, front, hfront, htakes, hshort⟩ := h.canonical ha
    obtain ⟨⟨rfl, hfits'⟩, front', hfront', htakes', hshort'⟩ := (h' a).canonical htail
    refine ⟨⟨hfits, hfits'⟩, front ++ front', ?_, htakes.andThen htakes', hshort.append hshort'⟩
    rw [hfront, hfront', List.append_assoc]

theorem canonical_map {f : α → β} {bytes rest : List UInt8} {b : β} (h : d.Inverts encode fits)
    (hb : Decoder.map f d bytes = .ok (b, rest)) :
    ∃ a, f a = b ∧ fits a ∧ ∃ front, bytes = front ++ rest ∧ (Decoder.map f d).Takes front b ∧
      Shortens (encode a) front := by
  obtain ⟨a, ha, rfl⟩ := map_eq_ok hb
  obtain ⟨hfit, front, hbytes, htakes, hshort⟩ := h.canonical ha
  exact ⟨a, rfl, hfit, front, hbytes, htakes.map f, hshort⟩

theorem map {f : α → β} {encode' : β → List UInt8} {fits' : β → Prop} (h : d.Inverts encode fits)
    (hencode : ∀ a, fits a → encode' (f a) = encode a)
    (hfits : ∀ b, fits' b ↔ ∃ a, fits a ∧ f a = b) : (map f d).Inverts encode' fits' := by
  constructor
  · intro b hb
    obtain ⟨a, ha, rfl⟩ := (hfits b).mp hb
    rw [hencode a ha]
    exact (h.takes ha).map f
  · intro bytes rest b hb
    obtain ⟨a, rfl, hfit, front, hfront⟩ := h.canonical_map hb
    refine ⟨(hfits (f a)).mpr ⟨a, hfit, rfl⟩, front, ?_⟩
    rw [hencode a hfit]
    exact hfront

theorem replicate (h : d.Inverts encode fits) (count : Nat) :
    (replicate d count).Inverts (·.flatMap encode)
      (fun l => l.length = count ∧ ∀ a ∈ l, fits a) := by
  induction count with
  | zero =>
    apply inverts_value
    · intro l
      rw [List.length_eq_zero_iff]
      constructor
      · exact And.left
      · rintro rfl
        simp
    · rfl
  | succ count ih =>
    constructor
    · rintro l ⟨hlength, hfits⟩
      obtain ⟨a, l, rfl⟩ := List.exists_of_length_succ l hlength
      rw [List.forall_mem_cons] at hfits
      rw [List.flatMap_cons]
      apply (h.takes hfits.1).andThen
      apply Takes.map (a :: ·)
      apply ih.takes
      exact ⟨by simpa using hlength, hfits.2⟩
    · intro bytes rest l hl
      obtain ⟨a, middle, ha, htail⟩ := andThen_eq_ok hl
      obtain ⟨l, hrest, rfl⟩ := map_eq_ok htail
      obtain ⟨hfit, front, hfront, htakes, hshort⟩ := h.canonical ha
      obtain ⟨⟨hlength, hfits⟩, front', hfront', htakes', hshort'⟩ := ih.canonical hrest
      refine ⟨⟨?_, ?_⟩, front ++ front', ?_, htakes.andThen (htakes'.map (a :: ·)),
        hshort.append hshort'⟩
      · simp [hlength]
      · rw [List.forall_mem_cons]
        exact ⟨hfit, hfits⟩
      · rw [hfront, hfront', List.append_assoc]

end Inverts
end Decoder

theorem toNat_toUInt8 {n : Nat} (h : n < 256) : n.toUInt8.toNat = n := by
  apply UInt8.toNat_ofNat_of_lt
  exact h

theorem encodeNat_of_lt {n : Nat} (h : n < 128) : encodeNat n = [n.toUInt8] := by
  rw [encodeNat, if_pos h]

theorem encodeNat_of_le {n : Nat} (h : 128 ≤ n) :
    encodeNat n = (n % 128 + 128).toUInt8 :: encodeNat (n / 128) := by
  rw [encodeNat, if_neg (by omega)]

theorem encodeNat_toNat {b : UInt8} (h : b.toNat < 128) : encodeNat b.toNat = [b] := by
  rw [encodeNat_of_lt h]
  simp

theorem shortens_encodeNat_cons {b : UInt8} {n : Nat} {front : List UInt8} (h : 128 ≤ b.toNat)
    (hshort : Shortens (encodeNat n) front) :
    Shortens (encodeNat (b.toNat - 128 + 128 * n)) (b :: front) := by
  have hb := b.toNat_lt
  have hle := hshort.length_le
  by_cases hn : n = 0
  · -- the bytes after `b` add nothing, and one byte would do
    subst hn
    rw [encodeNat_of_lt (by omega), List.length_singleton] at hle
    rw [encodeNat_of_lt (by omega)]
    left
    rw [List.length_singleton, List.length_cons]
    omega
  · have hdiv : (b.toNat - 128 + 128 * n) / 128 = n := by omega
    have hmod : (b.toNat - 128 + 128 * n) % 128 + 128 = b.toNat := by omega
    have hbyte : b.toNat.toUInt8 = b := by simp
    rw [encodeNat_of_le (by omega), hdiv, hmod, hbyte]
    exact (Shortens.refl [b]).append hshort

theorem takes_decodeNat_of_lt {lastMax more : Nat} {b : UInt8} (h : b.toNat < 128) :
    (decodeNat lastMax (more + 1)).Takes [b] b.toNat := by
  intro rest
  simp [decodeNat, h]

theorem takes_decodeNat_cons {lastMax more n : Nat} {b : UInt8} {front : List UInt8}
    (h : 128 ≤ b.toNat) (hfront : (decodeNat lastMax more).Takes front n) :
    (decodeNat lastMax (more + 1)).Takes (b :: front) (b.toNat - 128 + 128 * n) := by
  intro rest
  simp only [List.cons_append, decodeNat]
  rw [if_neg (by omega), hfront]

theorem takes_decodeNat {lastMax more n : Nat} (hlast : lastMax < 128)
    (h : n < 128 ^ more * (lastMax + 1)) : (decodeNat lastMax more).Takes (encodeNat n) n := by
  induction more generalizing n with
  | zero =>
    intro rest
    rw [encodeNat_of_lt (by omega), List.singleton_append, decodeNat, toNat_toUInt8 (by omega),
      if_pos (by omega)]
  | succ more ih =>
    by_cases hn : n < 128
    · have hbyte := toNat_toUInt8 (n := n) (by omega)
      rw [encodeNat_of_lt hn]
      rw [← hbyte] at hn
      have hone : (decodeNat lastMax (more + 1)).Takes [n.toUInt8] n.toUInt8.toNat :=
        takes_decodeNat_of_lt hn
      rwa [hbyte] at hone
    · have hbyte := toNat_toUInt8 (n := n % 128 + 128) (by omega)
      rw [Nat.pow_succ', Nat.mul_assoc] at h
      have hcons := takes_decodeNat_cons (b := (n % 128 + 128).toUInt8) (by omega)
        (ih (n := n / 128) (by omega))
      rw [encodeNat_of_le (by omega)]
      rwa [hbyte, show n % 128 + 128 - 128 + 128 * (n / 128) = n by omega] at hcons

theorem canonical_decodeNat {lastMax more n : Nat} {bytes rest : List UInt8}
    (hlast : lastMax < 128) (h : decodeNat lastMax more bytes = .ok (n, rest)) :
    n < 128 ^ more * (lastMax + 1) ∧ ∃ front, bytes = front ++ rest ∧
      (decodeNat lastMax more).Takes front n ∧ Shortens (encodeNat n) front := by
  fun_induction decodeNat lastMax more bytes generalizing n rest with
  | case1 => simp at h
  | case2 b bytes hb =>
    simp only [Except.ok.injEq, Prod.mk.injEq] at h
    obtain ⟨rfl, rfl⟩ := h
    refine ⟨by omega, [b], rfl, ?_, ?_⟩
    · intro rest
      simp [decodeNat, hb]
    · rw [encodeNat_toNat (by omega)]
      apply Shortens.refl
  | case3 => simp at h
  | case4 more b bytes hb =>
    simp only [Except.ok.injEq, Prod.mk.injEq] at h
    obtain ⟨rfl, rfl⟩ := h
    refine ⟨?_, [b], rfl, takes_decodeNat_of_lt hb, ?_⟩
    · have : 0 < 128 ^ more * (lastMax + 1) := Nat.mul_pos (Nat.pow_pos (by omega)) (by omega)
      rw [Nat.pow_succ', Nat.mul_assoc]
      omega
    · rw [encodeNat_toNat hb]
      apply Shortens.refl
  | case5 => simp at h
  | case6 more b bytes hb m after hm ih =>
    simp only [Except.ok.injEq, Prod.mk.injEq] at h
    obtain ⟨rfl, rfl⟩ := h
    obtain ⟨hfit, front, rfl, htakes, hshort⟩ := ih hm
    refine ⟨?_, b :: front, rfl, takes_decodeNat_cons (by omega) htakes,
      shortens_encodeNat_cons (by omega) hshort⟩
    have := b.toNat_lt
    rw [Nat.pow_succ', Nat.mul_assoc]
    omega

theorem inverts_decodeNat {lastMax more limit : Nat} (hlast : lastMax < 128)
    (hlimit : limit = 128 ^ more * (lastMax + 1)) :
    (decodeNat lastMax more).Inverts encodeNat (· < limit) := by
  subst hlimit
  exact ⟨takes_decodeNat hlast, canonical_decodeNat hlast⟩

namespace Codec

open Decoder (Inverts inverts_value inverts_fail)

abbrev Lawful (c : Codec α) (fits : α → Prop) : Prop := c.decode.Inverts c.encode fits

theorem lawful_nat : nat.Lawful (· < 2 ^ 64) := by
  apply inverts_decodeNat
  · decide
  · decide

theorem lawful_choice : choice.Lawful (· < 2 ^ 32) := by
  apply inverts_decodeNat
  · decide
  · decide

theorem lawful_byte : byte.Lawful fun _ => True := by
  constructor
  · intro b _ rest
    rfl
  · intro bytes rest b h
    cases bytes with
    | nil => simp [byte] at h
    | cons c bytes =>
      simp only [byte, Except.ok.injEq, Prod.mk.injEq] at h
      obtain ⟨rfl, rfl⟩ := h
      exact ⟨trivial, [c], rfl, fun _ => rfl, Shortens.refl [c]⟩

theorem lawful_bool : bool.Lawful fun _ => True := by
  have h : ∀ c : UInt8, (if c = 0 then Decoder.value false else if c = 1 then Decoder.value true
      else Decoder.fail .badBool).Inverts (fun _ => [])
        (fun b => (if b then 1 else 0) = c ∧ True) := by
    intro c
    split
    · next hzero =>
      apply inverts_value _ rfl
      subst hzero
      decide
    · next hzero =>
      split
      · next hone =>
        apply inverts_value _ rfl
        subst hone
        decide
      · next hone =>
        apply inverts_fail
        rintro b ⟨hb, -⟩
        cases b
        · exact hzero hb.symm
        · exact hone hb.symm
  apply (lawful_byte.andThen (fun b => if b then 1 else 0) h).congr
  · intro b
    rfl
  · simp

theorem zigzag_lt (i : Int64) : zigzag i.toInt < 2 ^ 64 := by
  have hlow := i.le_toInt
  have hhigh := i.toInt_lt
  unfold zigzag
  split
  · omega
  · omega

theorem unzigzag_zigzag (i : Int) : unzigzag (zigzag i) = i := by
  unfold zigzag unzigzag
  split
  · split
    · omega
    · omega
  · split
    · omega
    · omega

theorem zigzag_unzigzag (n : Nat) : zigzag (unzigzag n) = n := by
  unfold zigzag unzigzag
  split
  · split
    · omega
    · omega
  · split
    · omega
    · omega

theorem toInt_unzigzag {n : Nat} (h : n < 2 ^ 64) :
    (Int64.ofInt (unzigzag n)).toInt = unzigzag n := by
  apply Int64.toInt_ofInt_of_le
  · unfold unzigzag
    split
    · omega
    · omega
  · unfold unzigzag
    split
    · omega
    · omega

theorem lawful_int64 : int64.Lawful fun _ => True := by
  apply lawful_nat.map
  · intro n hn
    simp only [int64]
    rw [toInt_unzigzag hn, zigzag_unzigzag]
  · intro i
    simp only [true_iff]
    refine ⟨zigzag i.toInt, zigzag_lt i, ?_⟩
    rw [unzigzag_zigzag, Int64.ofInt_toInt]

theorem inverts_takeBytes (count : Nat) :
    (takeBytes count).Inverts id (·.length = count) := by
  have htakes : ∀ front : List UInt8, front.length = count →
      (takeBytes count).Takes front front := by
    intro front hfront rest
    rw [takeBytes, if_neg (by rw [List.length_append]; omega), List.take_left' hfront,
      List.drop_left' hfront]
  constructor
  · intro front hfront
    exact htakes front hfront
  · intro bytes rest front h
    unfold takeBytes at h
    split at h
    · simp at h
    · simp only [Except.ok.injEq, Prod.mk.injEq] at h
      obtain ⟨rfl, rfl⟩ := h
      have hlength : (bytes.take count).length = count := by
        rw [List.length_take]
        omega
      exact ⟨hlength, bytes.take count, (List.take_append_drop count bytes).symm,
        htakes _ hlength, Shortens.refl _⟩

theorem lawful_text : text.Lawful fun s => (Text.utf8 s).length < 2 ^ 64 := by
  refine Inverts.congr (lawful_nat.andThen (fun s => (Text.utf8 s).length) fun count =>
    (inverts_takeBytes count).andThen Text.utf8 fun bytes =>
      (?_ : Inverts _ (fun _ => []) fun s => Text.utf8 s = bytes ∧ True)) ?_ ?_
  · cases hs : Text.ofUtf8? bytes with
    | some s =>
      apply inverts_value _ rfl
      intro t
      rw [← Text.utf8_of_ofUtf8? hs, and_true]
      constructor
      · intro ht
        have := congrArg Text.ofUtf8? ht
        simpa using this
      · exact congrArg Text.utf8
    | none =>
      apply inverts_fail
      rintro t ⟨rfl, -⟩
      simp at hs
  · simp [text]
  · simp

theorem Lawful.list {c : Codec α} {fits : α → Prop} (h : c.Lawful fits) :
    (list c).Lawful fun l => l.length < 2 ^ 64 ∧ ∀ a ∈ l, fits a :=
  lawful_nat.andThen List.length h.replicate

theorem Lawful.pair {a : Codec α} {b : Codec β} {fits : α → Prop} {fits' : β → Prop}
    (ha : a.Lawful fits) (hb : b.Lawful fits') :
    (pair a b).Lawful fun v => fits v.1 ∧ fits' v.2 := by
  apply ha.andThen Prod.fst
  intro x
  apply hb.map
  · intro y _
    rfl
  · intro v
    constructor
    · rintro ⟨rfl, hv⟩
      exact ⟨v.2, hv, rfl⟩
    · rintro ⟨y, hy, rfl⟩
      exact ⟨rfl, hy⟩

theorem Lawful.via {c : Codec α} {fits : α → Prop} {fits' : β → Prop} {toWire : β → α}
    {ofWire : α → β} (h : c.Lawful fits) (hto : ∀ a, toWire (ofWire a) = a)
    (hof : ∀ b, ofWire (toWire b) = b) (hfits : ∀ b, fits' b ↔ fits (toWire b)) :
    (via c toWire ofWire).Lawful fits' := by
  apply h.map
  · intro a _
    simp only [Codec.via, hto]
  · intro b
    rw [hfits]
    constructor
    · intro hb
      exact ⟨toWire b, hb, hof b⟩
    · rintro ⟨a, ha, rfl⟩
      rwa [hto]

end Codec
end StackLang.Wire
