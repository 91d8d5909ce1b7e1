import StackLang.Text.Printable

/-!
This module contains what the other modules need to know about texts: the characters that separate
words, 64-bit integers as decimal numerals, columns of a listing, quoted text as it appears in
messages, and texts as bytes in UTF-8.
-/

namespace StackLang

def word64? (i : Int) : Option Int64 :=
  if Int64.minValue.toInt ≤ i ∧ i ≤ Int64.maxValue.toInt then some (Int64.ofInt i) else none

namespace Text

/-- Whether `c` has the Unicode property `White_Space`. -/
def isBlank (c : Char) : Bool :=
  let n := c.toNat
  (0x09 ≤ n && n ≤ 0x0d) || n == 0x20 || n == 0x85 || n == 0xa0 || n == 0x1680 ||
  (0x2000 ≤ n && n ≤ 0x200a) || n == 0x2028 || n == 0x2029 || n == 0x202f || n == 0x205f ||
  n == 0x3000

section Numerals

def isDigit (c : Char) : Bool := '0' ≤ c && c ≤ '9'

/-- The value of a run of digits, most significant first. -/
def digitsValue (ds : List Char) : Nat :=
  ds.foldl (fun n d => 10 * n + (d.toNat - '0'.toNat)) 0

def readDigits? (ds : List Char) : Option Int64 :=
  if ds.isEmpty || !ds.all isDigit then none else word64? (digitsValue ds)

def readNumeral? : List Char → Option Int64
  | '-' :: ds =>
    if ds.isEmpty || !ds.all isDigit then none else word64? (-(digitsValue ds : Int))
  | ds => readDigits? ds

end Numerals

section Columns

-- widths count code points

def padRight (width : Nat) (s : String) : String := s.pushn ' ' (width - s.length)

def zeroPadded (width n : Nat) : String :=
  let digits := toString n
  "".pushn '0' (width - digits.length) ++ digits

end Columns

section Quotes

/-- A code point written as `\u` with its number in hexadecimal between braces. -/
def codePoint (c : Char) : String :=
  "\\u\x7b" ++ String.ofList (Nat.toDigits 16 c.toNat) ++ "\x7d"

/--
One character inside quotes of the kind `quote`. The quote in use, the backslash and the common
control characters have short escapes; any other character that does not show is written by its
code point.
-/
def escaped (quote c : Char) : String :=
  if c = quote ∨ c = '\\' then String.ofList ['\\', c]
  else if c = '\x00' then "\\0"
  else if c = '\t' then "\\t"
  else if c = '\n' then "\\n"
  else if c = '\r' then "\\r"
  else if isPrintable c then c.toString
  else codePoint c

def quoted (s : String) : String :=
  "\"" ++ String.join (s.toList.map (escaped '"')) ++ "\""

/-- A byte, taken as the code point of the same number, in single quotes. -/
def quotedByte (b : UInt8) : String :=
  "'" ++ escaped '\'' (Char.ofNat b.toNat) ++ "'"

end Quotes

section Bytes

def utf8 (s : String) : List UInt8 := s.toUTF8.data.toList

def ofUtf8? (bytes : List UInt8) : Option String := String.fromUTF8? ⟨bytes.toArray⟩

@[simp]
theorem ofUtf8?_utf8 (s : String) : ofUtf8? (utf8 s) = some s := by
  unfold ofUtf8? utf8 String.fromUTF8?
  split
  · rfl
  · next h => exact absurd s.isValidUTF8 h

theorem utf8_of_ofUtf8? {bytes : List UInt8} {s : String} (h : ofUtf8? bytes = some s) :
    utf8 s = bytes := by
  unfold ofUtf8? String.fromUTF8? at h
  split at h
  · simp only [Option.some.injEq] at h
    subst h
    rfl
  · simp at h

end Bytes

end Text
end StackLang
