import MessageBinder.Text.Digits

/-!
# UTF-8

Strict reading of UTF-8. The first byte of a character says how many bytes follow and in which
window the second one must lie, so that no character has two forms and none is a surrogate; the
others lie between 0x80 and 0xBF. A failure names its bytes: a byte that starts no character stands
alone, a character cut off by a wrong byte is blamed for the bytes read so far, and one cut off by
the end for all that is left.
-/

namespace MessageBinder.Text

/-- Why bytes are not UTF-8. -/
inductive Utf8Fault where
  /-- The byte starts no character. -/
  | invalidStart
  /-- A byte that should continue a character does not. -/
  | invalidContinuation
  /-- The bytes end inside a character. -/
  | unexpectedEnd
deriving DecidableEq, Repr

/-- A failure to read UTF-8: the cause and the bytes blamed for it. -/
structure Utf8Error where
  /-- The cause. -/
  fault : Utf8Fault
  /-- The first byte blamed. -/
  first : UInt8
  /-- The position of the first byte blamed, counted from zero. -/
  start : Nat
  /-- The number of bytes blamed. -/
  count : Nat
deriving DecidableEq, Repr

/-- What the first byte of a character announces. -/
structure Utf8Lead where
  /-- The bits that the first byte contributes. -/
  bits : Nat
  /-- The least second byte. -/
  low : UInt8
  /-- The greatest second byte. -/
  high : UInt8
  /-- The number of bytes after the second. -/
  more : Nat

/-- The announcement of a first byte beyond ASCII, if it is one. -/
def utf8Lead? (b : UInt8) : Option Utf8Lead :=
  if b < 0xC2 then none
  else if b < 0xE0 then some ⟨(b - 0xC0).toNat, 0x80, 0xBF, 0⟩
  else if b < 0xF0 then
    some ⟨(b - 0xE0).toNat, if b = 0xE0 then 0xA0 else 0x80, if b = 0xED then 0x9F else 0xBF, 1⟩
  else if b < 0xF5 then
    some ⟨(b - 0xF0).toNat, if b = 0xF0 then 0x90 else 0x80, if b = 0xF4 then 0x8F else 0xBF, 2⟩
  else none

/-- Reads the bytes after the first of a character: the code point and what is left, or the fault
and the number of bytes read in vain. -/
def utf8Tail (value read : Nat) (low high : UInt8) :
    Nat → List UInt8 → Except (Utf8Fault × Nat) (Nat × List UInt8)
  | _, [] => .error (.unexpectedEnd, read)
  | more, b :: bs =>
    if b < low || high < b then .error (.invalidContinuation, read)
    else
      let value := value * 64 + (b - 0x80).toNat
      match more with
      | 0 => .ok (value, bs)
      | more + 1 => utf8Tail value (read + 1) 0x80 0xBF more bs

/-- What is left after the bytes of a character is shorter. -/
theorem length_utf8Tail {value read more : Nat} {low high : UInt8} {bs rest : List UInt8} {n : Nat}
    (h : utf8Tail value read low high more bs = .ok (n, rest)) : rest.length < bs.length := by
  induction bs generalizing value read low high more with
  | nil => simp [utf8Tail] at h
  | cons b bs ih =>
    rw [utf8Tail] at h
    split at h
    · simp at h
    · split at h
      · simp only [Except.ok.injEq, Prod.mk.injEq] at h
        simp [← h.2]
      · have := ih h
        simp only [List.length_cons]
        omega

/-- Reads UTF-8 from the byte at position `pos` on. -/
def utf8From (pos : Nat) (bytes : List UInt8) : Except Utf8Error (List Char) :=
  match bytes with
  | [] => .ok []
  | b :: bs =>
    if b < 0x80 then return Char.ofNat b.toNat :: (← utf8From (pos + 1) bs)
    else match utf8Lead? b with
      | none => .error ⟨.invalidStart, b, pos, 1⟩
      | some lead =>
        match h : utf8Tail lead.bits 1 lead.low lead.high lead.more bs with
        | .error (fault, read) => .error ⟨fault, b, pos, read⟩
        | .ok (n, rest) =>
          have := length_utf8Tail h
          return Char.ofNat n :: (← utf8From (pos + 2 + lead.more) rest)
termination_by bytes.length

/-- The characters of UTF-8 bytes. -/
def ofUtf8 (bytes : List UInt8) : Except Utf8Error (List Char) := utf8From 0 bytes

/-- The wording of a fault. -/
def Utf8Fault.reason : Utf8Fault → String
  | .invalidStart => "invalid start byte"
  | .invalidContinuation => "invalid continuation byte"
  | .unexpectedEnd => "unexpected end of data"

/-- The message of a failure; a single byte is named, several are given by their range. -/
def Utf8Error.message (e : Utf8Error) : String :=
  let blamed :=
    if e.count ≤ 1 then
      let byte := String.ofList (hexPadded 2 e.first.toNat)
      s!"byte 0x{byte} in position {e.start}"
    else s!"bytes in position {e.start}-{e.start + e.count - 1}"
  s!"'utf-8' codec can't decode {blamed}: {e.fault.reason}"

end MessageBinder.Text
