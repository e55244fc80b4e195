/-! # UTF-8

Encoding of characters, and a lenient decoding that never fails: each longest
beginning of a character that is not continued, and each byte that begins none,
becomes one replacement character. The decoder reads one byte at a time.
-/

namespace MemberIndex.Text.Utf8

def replacement : Char := Char.ofNat 0xFFFD

/-- A character that has begun: its bits so far, how many bytes must follow the
next one, and the bounds on the next one. -/
structure Partial where
  bits : Nat
  owed : Nat
  low : UInt8
  high : UInt8
deriving DecidableEq

def Partial.ofLead? (b : UInt8) : Option Partial :=
  if 0xC2 ≤ b ∧ b ≤ 0xDF then some ⟨b.toNat % 32, 0, 0x80, 0xBF⟩
  else if b = 0xE0 then some ⟨0, 1, 0xA0, 0xBF⟩
  else if b = 0xED then some ⟨13, 1, 0x80, 0x9F⟩
  else if 0xE1 ≤ b ∧ b ≤ 0xEF then some ⟨b.toNat % 16, 1, 0x80, 0xBF⟩
  else if b = 0xF0 then some ⟨0, 2, 0x90, 0xBF⟩
  else if 0xF1 ≤ b ∧ b ≤ 0xF3 then some ⟨b.toNat % 8, 2, 0x80, 0xBF⟩
  else if b = 0xF4 then some ⟨4, 2, 0x80, 0x8F⟩
  else none

def begin (b : UInt8) : List Char × Option Partial :=
  if b < 0x80 then ([Char.ofNat b.toNat], none)
  else match Partial.ofLead? b with
    | some p => ([], some p)
    | none => ([replacement], none)

/-- The characters completed by one byte, and what it leaves open. A byte that does
not continue the open character closes it with a replacement and begins afresh. -/
def step : Option Partial → UInt8 → List Char × Option Partial
  | none, b => begin b
  | some p, b =>
    if p.low ≤ b ∧ b ≤ p.high then
      let bits := p.bits * 64 + b.toNat % 64
      match p.owed with
      | 0 => ([Char.ofNat bits], none)
      | n + 1 => ([], some ⟨bits, n, 0x80, 0xBF⟩)
    else (replacement :: (begin b).1, (begin b).2)

def decodeFrom : Option Partial → List UInt8 → List Char
  | none, [] => []
  | some _, [] => [replacement]
  | p, b :: bs => (step p b).1 ++ decodeFrom (step p b).2 bs

def decode (bytes : List UInt8) : String :=
  String.ofList (decodeFrom none bytes)

def encode (s : String) : List UInt8 :=
  s.toList.flatMap String.utf8EncodeChar

theorem step_ascii (p : Option Partial) {b : UInt8} (h : b < 0x80) (hp : ∀ q ∈ p, 0x80 ≤ q.low) :
    step p b = ((p.toList.map fun _ => replacement) ++ [Char.ofNat b.toNat], none) := by
  cases p with
  | none => simp [step, begin, h]
  | some q =>
    have hq : ¬ (q.low ≤ b ∧ b ≤ q.high) := fun hb =>
      absurd (UInt8.lt_of_lt_of_le h (hp q rfl)) (UInt8.not_lt.2 hb.1)
    simp [step, hq, begin, h]

end MemberIndex.Text.Utf8
