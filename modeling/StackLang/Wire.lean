import StackLang.Text

/-!
This module contains the byte format of values. Naturals are written in groups of seven bits, least
significant first, with the high bit set on every byte but the last; a text or a list is its length
and its items; a choice is its number and its fields.
-/

namespace StackLang.Wire

inductive DecodeError
  | unexpectedEnd
  | badNatural
  | badBool
  | badText
  | badChoice
deriving DecidableEq

def DecodeError.message : DecodeError → String
  | unexpectedEnd => "Hit the end of buffer, expected more data"
  | badNatural => "Found a varint that didn't terminate. Is the usize too big for this platform?"
  | badBool => "Found a bool that wasn't 0 or 1"
  | badText => "Tried to parse invalid utf-8"
  | badChoice => "Serde Deserialization Error"

/-- Reads a value off the front of bytes, and returns the bytes after it. -/
abbrev Decoder (α : Type) := List UInt8 → Except DecodeError (α × List UInt8)

namespace Decoder

variable {α β : Type}

def value (a : α) : Decoder α := fun bytes => .ok (a, bytes)

def fail (e : DecodeError) : Decoder α := fun _ => .error e

def andThen (first : Decoder α) (next : α → Decoder β) : Decoder β := fun bytes =>
  match first bytes with
  | .error e => .error e
  | .ok (a, rest) => next a rest

def map (f : α → β) (d : Decoder α) : Decoder β := andThen d fun a => value (f a)

def replicate (d : Decoder α) : Nat → Decoder (List α)
  | 0 => value []
  | count + 1 => andThen d fun a => map (a :: ·) (replicate d count)

end Decoder

structure Codec (α : Type) where
  encode : α → List UInt8
  decode : Decoder α

/-- Writes a natural number in groups of seven bits. -/
def encodeNat (n : Nat) : List UInt8 :=
  if n < 128 then [n.toUInt8] else (n % 128 + 128).toUInt8 :: encodeNat (n / 128)
termination_by n
decreasing_by omega

/--
Reads a natural number of at most `more + 1` bytes, the last of which may be `lastMax` at most when
all of them are used.
-/
def decodeNat (lastMax : Nat) : (more : Nat) → Decoder Nat
  | _, [] => .error .unexpectedEnd
  | 0, b :: rest => if b.toNat ≤ lastMax then .ok (b.toNat, rest) else .error .badNatural
  | more + 1, b :: rest =>
    if b.toNat < 128 then .ok (b.toNat, rest)
    else match decodeNat lastMax more rest with
      | .error e => .error e
      | .ok (n, rest) => .ok (b.toNat - 128 + 128 * n, rest)

namespace Codec

variable {α β : Type}

/-- Naturals below `2 ^ 64`, which take at most ten bytes. -/
def nat : Codec Nat := ⟨encodeNat, decodeNat 1 9⟩

/-- Numbers of choices, below `2 ^ 32`, which take at most five bytes. -/
def choice : Codec Nat := ⟨encodeNat, decodeNat 15 4⟩

def byte : Codec UInt8 where
  encode b := [b]
  decode
    | [] => .error .unexpectedEnd
    | b :: rest => .ok (b, rest)

def bool : Codec Bool where
  encode b := [if b then 1 else 0]
  decode := Decoder.andThen byte.decode fun b =>
    if b = 0 then Decoder.value false
    else if b = 1 then Decoder.value true
    else Decoder.fail .badBool

/-- Folds the sign of an integer into the lowest bit. -/
def zigzag (i : Int) : Nat := if 0 ≤ i then 2 * i.toNat else 2 * (-i).toNat - 1

def unzigzag (n : Nat) : Int := if n % 2 = 0 then (n / 2 : Nat) else -((n / 2 : Nat) : Int) - 1

def int64 : Codec Int64 where
  encode i := nat.encode (zigzag i.toInt)
  decode := Decoder.map (fun n => Int64.ofInt (unzigzag n)) nat.decode

def takeBytes (count : Nat) : Decoder (List UInt8) := fun bytes =>
  if bytes.length < count then .error .unexpectedEnd
  else .ok (bytes.take count, bytes.drop count)

def text : Codec String where
  encode s := nat.encode (Text.utf8 s).length ++ Text.utf8 s
  decode := Decoder.andThen nat.decode fun count => Decoder.andThen (takeBytes count) fun bytes =>
    match Text.ofUtf8? bytes with
    | some s => Decoder.value s
    | none => Decoder.fail .badText

def list (c : Codec α) : Codec (List α) where
  encode l := nat.encode l.length ++ l.flatMap c.encode
  decode := Decoder.andThen nat.decode (Decoder.replicate c.decode)

def pair (a : Codec α) (b : Codec β) : Codec (α × β) where
  encode v := a.encode v.1 ++ b.encode v.2
  decode := Decoder.andThen a.decode fun x => Decoder.map (x, ·) b.decode

def via (c : Codec α) (toWire : β → α) (ofWire : α → β) : Codec β where
  encode v := c.encode (toWire v)
  decode := Decoder.map ofWire c.decode

end Codec
end StackLang.Wire
