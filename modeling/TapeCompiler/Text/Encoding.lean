/-!
# Encodings

Bytes are decoded strictly: the first byte sequence that the encoding does not allow is reported
with its offset. Decoded text then has one line end, the line feed.

For UTF-8 the offending sequence is the longest prefix of a well-formed character that the bytes
hold, or one byte where no character starts.
-/
namespace TapeCompiler.Text

/-- The encodings that a file may be in. -/
inductive Encoding where
  | utf8
  | latin1
  | ascii
  deriving DecidableEq, Repr

def Encoding.name : Encoding → String
  | utf8 => "utf-8"
  | latin1 => "latin-1"
  | ascii => "ascii"

/-- Why a byte sequence is not text. -/
inductive DecodeReason where
  | invalidStart
  | invalidContinuation
  | unexpectedEnd
  | beyondAscii
  deriving DecidableEq, Repr

def DecodeReason.message : DecodeReason → String
  | invalidStart => "invalid start byte"
  | invalidContinuation => "invalid continuation byte"
  | unexpectedEnd => "unexpected end of data"
  | beyondAscii => "ordinal not in range(128)"

/-- The first byte sequence that could not be decoded. -/
structure DecodeError where
  encoding : Encoding
  /-- Offset of the first offending byte. -/
  start : Nat
  /-- The first offending byte. -/
  byte : UInt8
  /-- Number of offending bytes, at least one. -/
  length : Nat
  reason : DecodeReason
  deriving DecidableEq, Repr

def DecodeError.message (e : DecodeError) : String :=
  "'" ++ e.encoding.name ++ "' codec can't decode "
    ++ (if e.length = 1 then
          "byte 0x" ++ String.ofList ((Nat.toDigits 16 e.byte.toNat).leftpad 2 '0')
            ++ " in position " ++ toString e.start
        else
          "bytes in position " ++ toString e.start ++ "-" ++ toString (e.start + e.length - 1))
    ++ ": " ++ e.reason.message

/-! ## UTF-8 -/

/-- What a first byte promises: the bits it contributes, and for each continuation byte the range
that it has to lie in. -/
structure LeadByte where
  bits : Nat
  continuations : List (Nat × Nat)

/-- The first bytes of UTF-8. The narrowed ranges exclude overlong forms, surrogates and numbers
beyond the last code point. -/
def leadByte? (b : Nat) : Option LeadByte :=
  if b ≤ 0x7F then some ⟨b, []⟩
  else if 0xC2 ≤ b ∧ b ≤ 0xDF then some ⟨b - 0xC0, [(0x80, 0xBF)]⟩
  else if b = 0xE0 then some ⟨0, [(0xA0, 0xBF), (0x80, 0xBF)]⟩
  else if b = 0xED then some ⟨0xD, [(0x80, 0x9F), (0x80, 0xBF)]⟩
  else if 0xE1 ≤ b ∧ b ≤ 0xEF then some ⟨b - 0xE0, [(0x80, 0xBF), (0x80, 0xBF)]⟩
  else if b = 0xF0 then some ⟨0, [(0x90, 0xBF), (0x80, 0xBF), (0x80, 0xBF)]⟩
  else if 0xF1 ≤ b ∧ b ≤ 0xF3 then some ⟨b - 0xF0, [(0x80, 0xBF), (0x80, 0xBF), (0x80, 0xBF)]⟩
  else if b = 0xF4 then some ⟨4, [(0x80, 0x8F), (0x80, 0xBF), (0x80, 0xBF)]⟩
  else none

/-- The character under way: where it began, its first byte, the bytes and bits so far, and the
ranges of the continuation bytes still to come. -/
structure PendingChar where
  start : Nat
  byte : UInt8
  length : Nat
  bits : Nat
  continuations : List (Nat × Nat)

def PendingChar.error (p : PendingChar) (reason : DecodeReason) : DecodeError :=
  ⟨.utf8, p.start, p.byte, p.length, reason⟩

/-- Decodes UTF-8 from offset `offset`, inside a character when one is pending. -/
def decodeUtf8From (offset : Nat) :
    Option PendingChar → List UInt8 → Except DecodeError (List Char)
  | none, [] => .ok []
  | some p, [] => .error (p.error .unexpectedEnd)
  | none, b :: rest =>
    match leadByte? b.toNat with
    | none => .error ⟨.utf8, offset, b, 1, .invalidStart⟩
    | some ⟨bits, []⟩ => (decodeUtf8From (offset + 1) none rest).map (Char.ofNat bits :: ·)
    | some ⟨bits, continuations⟩ =>
      decodeUtf8From (offset + 1) (some ⟨offset, b, 1, bits, continuations⟩) rest
  | some p, b :: rest =>
    match p.continuations with
    | [] => .error (p.error .invalidContinuation)
    | (low, high) :: more =>
      if low ≤ b.toNat ∧ b.toNat ≤ high then
        let bits := p.bits * 64 + (b.toNat - 0x80)
        match more with
        | [] => (decodeUtf8From (offset + 1) none rest).map (Char.ofNat bits :: ·)
        | _ => decodeUtf8From (offset + 1)
            (some { p with length := p.length + 1, bits := bits, continuations := more }) rest
      else .error (p.error .invalidContinuation)

/-! ## All encodings -/

/-- Decodes ASCII from offset `offset`. -/
def decodeAsciiFrom (offset : Nat) : List UInt8 → Except DecodeError (List Char)
  | [] => .ok []
  | b :: rest =>
    if b.toNat < 0x80 then (decodeAsciiFrom (offset + 1) rest).map (Char.ofNat b.toNat :: ·)
    else .error ⟨.ascii, offset, b, 1, .beyondAscii⟩

def Encoding.decode : Encoding → List UInt8 → Except DecodeError (List Char)
  | utf8, bytes => decodeUtf8From 0 none bytes
  | latin1, bytes => .ok (bytes.map fun b => Char.ofNat b.toNat)
  | ascii, bytes => decodeAsciiFrom 0 bytes

/-- Writes every line end, a lone carriage return included, as one line feed. -/
def unifyLineEnds : List Char → List Char
  | [] => []
  | '\r' :: '\n' :: rest => '\n' :: unifyLineEnds rest
  | c :: rest => (if c = '\r' then '\n' else c) :: unifyLineEnds rest

/-- The text of a file. -/
def Encoding.readText (encoding : Encoding) (bytes : List UInt8) : Except DecodeError String :=
  (encoding.decode bytes).map fun text => String.ofList (unifyLineEnds text)

/-- The bytes of a text in UTF-8. -/
def utf8Bytes (text : String) : List UInt8 := text.toUTF8.toList

end TapeCompiler.Text
