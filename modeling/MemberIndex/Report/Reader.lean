import MemberIndex.Records

/-! # Reading reports

A report is read by its shape as the text goes by: an identity's record is a table
that names its three lists once each, or the list of the three. What else a record
names is skipped. The first character that does not fit decides what is wrong.
-/

namespace MemberIndex.Report

/-- What is wrong with a report's text: it ends too early, it is no document, or it
is a document of another shape. -/
inductive ReadError
  | truncated
  | malformed
  | mismatch
deriving DecidableEq

/-- Something read at the front of a text, and the shorter text behind it. -/
structure Front (α : Type) (s : List Char) where
  value : α
  rest : List Char
  shorter : rest.length < s.length

abbrev Reader (α : Type) := (s : List Char) → Except ReadError (Front α s)

namespace Front

variable {α β : Type} {s t : List Char}

def widen (f : Front α t) (h : t.length ≤ s.length) : Front α s :=
  ⟨f.value, f.rest, Nat.lt_of_lt_of_le f.shorter h⟩

def map (g : α → β) (f : Front α s) : Front β s := ⟨g f.value, f.rest, f.shorter⟩

end Front

def isSpace (c : Char) : Bool := c == ' ' || c == '\n' || c == '\t' || c == '\r'

def skipSpace (s : List Char) : List Char := s.dropWhile isSpace

theorem length_skipSpace_le (s : List Char) : (skipSpace s).length ≤ s.length :=
  (List.dropWhile_sublist isSpace).length_le

def isDigit (c : Char) : Bool := '0' ≤ c && c ≤ '9'

def hexValue? (c : Char) : Option Nat :=
  if '0' ≤ c ∧ c ≤ '9' then some (c.toNat - 48)
  else if 'a' ≤ c ∧ c ≤ 'f' then some (c.toNat - 87)
  else if 'A' ≤ c ∧ c ≤ 'F' then some (c.toNat - 55)
  else none

def readHex : Reader Nat
  | a :: b :: c :: d :: r =>
    match hexValue? a, hexValue? b, hexValue? c, hexValue? d with
    | some a, some b, some c, some d =>
      .ok ⟨((a * 16 + b) * 16 + c) * 16 + d, r, by simp only [List.length_cons]; omega⟩
    | _, _, _, _ => .error .malformed
  | s => .error (if 4 ≤ (String.ofList s).utf8ByteSize then .malformed else .truncated)

def isHighSurrogate (n : Nat) : Bool := 0xD800 ≤ n && n ≤ 0xDBFF

def isLowSurrogate (n : Nat) : Bool := 0xDC00 ≤ n && n ≤ 0xDFFF

/-- Reads what follows the `u` of an escape: one unit, or the two of a pair. Where
the text is only skipped, a unit of a pair may stand alone. -/
def readUnits (skipping : Bool) : Reader Char := fun s => do
  let ⟨n, r, h⟩ ← readHex s
  if skipping then return ⟨Char.ofNat n, r, h⟩
  else if isLowSurrogate n then throw .malformed
  else if !isHighSurrogate n then return ⟨Char.ofNat n, r, h⟩
  else match r, h with
    | [], _ => throw .truncated
    | '\\' :: [], _ => throw .truncated
    | '\\' :: 'u' :: r', h => do
      let ⟨m, r'', h'⟩ ← readHex r'
      if isLowSurrogate m then
        return ⟨Char.ofNat (0x10000 + (n - 0xD800) * 0x400 + (m - 0xDC00)), r'', by
          simp only [List.length_cons] at h; omega⟩
      else throw .malformed
    | _, _ => throw .malformed

def readEscape (skipping : Bool) : Reader Char
  | [] => .error .truncated
  | c :: r =>
    let one (d : Char) : Except ReadError (Front Char (c :: r)) := .ok ⟨d, r, by simp⟩
    if c = '"' ∨ c = '\\' ∨ c = '/' then one c
    else if c = 'b' then one (Char.ofNat 8)
    else if c = 'f' then one (Char.ofNat 12)
    else if c = 'n' then one '\n'
    else if c = 'r' then one '\r'
    else if c = 't' then one '\t'
    else if c = 'u' then (readUnits skipping r).map (·.widen (by simp))
    else .error .malformed

def readChars (skipping : Bool) (s : List Char) : Except ReadError (Front (List Char) s) :=
  match s with
  | [] => .error .truncated
  | c :: r =>
    if c = '"' then .ok ⟨[], r, by simp⟩
    else if c = '\\' then do
      let ⟨d, r', h⟩ ← readEscape skipping r
      let ⟨ds, r'', h'⟩ ← readChars skipping r'
      return ⟨d :: ds, r'', by simp only [List.length_cons]; omega⟩
    else if c.toNat < 32 then .error .malformed
    else do
      let ⟨ds, r', h⟩ ← readChars skipping r
      return ⟨c :: ds, r', by simp only [List.length_cons]; omega⟩
termination_by s.length
decreasing_by
  all_goals simp only [List.length_cons]; omega

/-- Whether a number was met that no double-precision number comes near. -/
def exceedsDouble (significand exponent : Nat) : Bool :=
  let nearest (n : Nat) : Nat :=
    let unit := Nat.pow 2 (Nat.log2 n - 52)
    let whole := n / unit
    let twice := 2 * (n % unit)
    unit * (if unit < twice ∨ (unit = twice ∧ whole % 2 = 1) then whole + 1 else whole)
  significand ≠ 0 &&
    (308 < exponent ||
      decide ((Nat.pow 2 54 - 1) * Nat.pow 2 970 ≤
        nearest significand * nearest (Nat.pow 10 exponent)))

def takeDigits (significand : Nat) : List Char → Nat × List Char
  | [] => (significand, [])
  | c :: cs =>
    let next := significand * 10 + (c.toNat - 48)
    if next < UInt64.size then takeDigits next cs else (significand, c :: cs)

def takeExponent (digits : List Char) : Nat :=
  digits.foldl (fun n c => n * 10 + (c.toNat - 48)) 0

structure Numeral where
  whole : List Char
  fraction : List Char := []
  raised : Bool := true
  exponent : List Char := []

/-- Whether a numeral is too large for a double-precision number. Digits that the
significand does not take count only as places before the point. -/
def Numeral.isTooLarge (n : Numeral) : Bool :=
  let (whole, left) := takeDigits 0 n.whole
  let (significand, unread) := takeDigits whole n.fraction
  let exponent : Int := (takeExponent n.exponent : Nat)
  let power : Int := (if n.raised then exponent else -exponent) + left.length +
    unread.length - n.fraction.length
  decide (0 ≤ power) && exceedsDouble significand power.toNat

/-- Reads one or more digits; `short` is the error where the text ends before them. -/
def readDigits (short : ReadError) : Reader (List Char)
  | [] => .error short
  | c :: r =>
    if isDigit c then
      .ok ⟨c :: r.takeWhile isDigit, r.dropWhile isDigit,
        Nat.lt_succ_of_le (List.dropWhile_sublist isDigit).length_le⟩
    else .error .malformed

def unsigned : List Char → Bool × List Char
  | '+' :: r => (true, r)
  | '-' :: r => (false, r)
  | r => (true, r)

theorem length_unsigned_le (s : List Char) : (unsigned s).2.length ≤ s.length := by
  unfold unsigned
  split <;> simp

def readFraction (short : ReadError) :
    (s : List Char) → Except ReadError (Front (List Char) ('.' :: s))
  | '.' :: r => (readDigits short r).map (·.widen (by simp only [List.length_cons]; omega))
  | r => .ok ⟨[], r, by simp⟩

def readScale (short : ReadError) (whole : List Char) (s : List Char) :
    Except ReadError (Front Numeral ('.' :: s)) := do
  let ⟨fraction, r, h⟩ ← readFraction short s
  match r, h with
  | e :: r, h =>
    if e = 'e' ∨ e = 'E' then
      let ⟨exponent, r', h'⟩ ← readDigits short (unsigned r).2
      return ⟨⟨whole, fraction, (unsigned r).1, exponent⟩, r', by
        have := length_unsigned_le r
        simp only [List.length_cons] at h ⊢
        omega⟩
    else return ⟨⟨whole, fraction, true, []⟩, e :: r, h⟩
  | [], h => return ⟨⟨whole, fraction, true, []⟩, [], h⟩

def readNumeral (short : ReadError) : Reader Numeral := fun s => do
  let ⟨whole, r, h⟩ ← readDigits short s
  if whole.head? = some '0' ∧ 1 < whole.length then throw .malformed
  (readScale short whole r).map (·.widen (by simp only [List.length_cons]; omega))

def wordError (word s : List Char) : Option ReadError :=
  match word, s with
  | [], _ => none
  | _, [] => some .truncated
  | w :: ws, c :: cs => if w = c then wordError ws cs else some .malformed

/-- What is wrong where a value of one shape is wanted and another text stands: a
whole value of another shape is a mismatch. -/
def wrongShape : List Char → ReadError
  | [] => .truncated
  | c :: r =>
    let number (digits : List Char) : ReadError :=
      match readNumeral .truncated digits with
      | .error e => e
      | .ok f => if f.value.isTooLarge then .malformed else .mismatch
    if c = 'n' then (wordError "ull".toList r).getD .mismatch
    else if c = 't' then (wordError "rue".toList r).getD .mismatch
    else if c = 'f' then (wordError "alse".toList r).getD .mismatch
    else if c = '-' then number r
    else if isDigit c then number (c :: r)
    else if c = '"' then
      match readChars false r with
      | .error e => e
      | .ok _ => .mismatch
    else if c = '[' ∨ c = '\x7b' then .mismatch
    else .malformed

def readMark (s : List Char) : Except ReadError (Front Char s) :=
  match h : skipSpace s with
  | [] => .error .truncated
  | c :: r => .ok ⟨c, r, by
      have := length_skipSpace_le s
      rw [h, List.length_cons] at this
      omega⟩

def readColon (s : List Char) : Except ReadError (Front Unit s) := do
  let ⟨c, r, h⟩ ← readMark s
  if c = ':' then return ⟨(), r, h⟩ else throw .malformed

mutual

def skipValue (s : List Char) : Except ReadError (Front Unit s) :=
  match h : skipSpace s with
  | [] => .error .truncated
  | c :: r =>
    have hr : r.length < s.length := by
      have := length_skipSpace_le s
      rw [h, List.length_cons] at this
      omega
    let word (w : List Char) : Except ReadError (Front Unit s) :=
      match wordError w r with
      | some e => .error e
      | none => .ok ⟨(), r.drop w.length, Nat.lt_of_le_of_lt (by simp) hr⟩
    if c = 'n' then word "ull".toList
    else if c = 't' then word "rue".toList
    else if c = 'f' then word "alse".toList
    else if c = '-' then
      (readNumeral .malformed r).map fun f => (f.map fun _ => ()).widen (by omega)
    else if isDigit c then
      (readNumeral .malformed (c :: r)).map fun f =>
        (f.map fun _ => ()).widen (by simp only [List.length_cons]; omega)
    else if c = '"' then (readChars true r).map fun f => (f.map fun _ => ()).widen (by omega)
    else if c = '[' then (skipItems true r).map (·.widen (by omega))
    else if c = '\x7b' then (skipRows true r).map (·.widen (by omega))
    else .error .malformed
termination_by (s.length, 0)

def skipItems (first : Bool) (s : List Char) : Except ReadError (Front Unit s) :=
  match h : skipSpace s with
  | [] => .error .truncated
  | c :: r =>
    have hr : r.length < s.length := by
      have := length_skipSpace_le s
      rw [h, List.length_cons] at this
      omega
    if c = ']' then .ok ⟨(), r, hr⟩
    else if first then do
      let ⟨_, r', h'⟩ ← skipValue s
      (skipItems false r').map (·.widen (by omega))
    else if c = ',' then do
      let ⟨_, r', h'⟩ ← skipValue r
      (skipItems false r').map (·.widen (by omega))
    else .error .malformed
termination_by (s.length, 1)

def skipRows (first : Bool) (s : List Char) : Except ReadError (Front Unit s) :=
  match h : skipSpace s with
  | [] => .error .truncated
  | c :: r =>
    have hr : r.length < s.length := by
      have := length_skipSpace_le s
      rw [h, List.length_cons] at this
      omega
    if c = '\x7d' then .ok ⟨(), r, hr⟩
    else if first then do
      let ⟨_, r', h'⟩ ← skipRow s
      (skipRows false r').map (·.widen (by omega))
    else if c = ',' then do
      let ⟨_, r', h'⟩ ← skipRow r
      (skipRows false r').map (·.widen (by omega))
    else .error .malformed
termination_by (s.length, 2)

def skipRow (s : List Char) : Except ReadError (Front Unit s) :=
  match h : skipSpace s with
  | [] => .error .truncated
  | c :: r =>
    have hr : r.length < s.length := by
      have := length_skipSpace_le s
      rw [h, List.length_cons] at this
      omega
    if c = '"' then do
      let ⟨_, r', h'⟩ ← readChars true r
      let ⟨_, r'', h''⟩ ← readColon r'
      (skipValue r'').map (·.widen (by omega))
    else .error .malformed
termination_by (s.length, 1)

end

def readText (s : List Char) : Except ReadError (Front String s) := do
  let ⟨c, r, h⟩ ← readMark s
  if c = '"' then
    (readChars false r).map fun f => (f.map String.ofList).widen (by omega)
  else throw (wrongShape (c :: r))

def readTextItems (first : Bool) (s : List Char) :
    Except ReadError (Front (List String) s) := do
  let ⟨c, r, h⟩ ← readMark s
  if c = ']' then return ⟨[], r, h⟩
  else if first then
    let ⟨t, r', h'⟩ ← readText s
    let ⟨ts, r'', h''⟩ ← readTextItems false r'
    return ⟨t :: ts, r'', by omega⟩
  else if c = ',' then
    let ⟨t, r', h'⟩ ← readText r
    let ⟨ts, r'', h''⟩ ← readTextItems false r'
    return ⟨t :: ts, r'', by omega⟩
  else throw .malformed
termination_by s.length
decreasing_by all_goals omega

def readTexts (s : List Char) : Except ReadError (Front (List String) s) := do
  let ⟨c, r, h⟩ ← readMark s
  if c = '[' then (readTextItems true r).map (·.widen (by omega))
  else throw (wrongShape (c :: r))

def readBeforeItem (first : Bool) (s : List Char) :
    Except ReadError (Option (Front Unit ('[' :: s))) := do
  let ⟨c, r, h⟩ ← readMark s
  if c = ']' then return none
  else if first then return some ⟨(), s, by simp⟩
  else if c = ',' then return some ⟨(), r, by simp only [List.length_cons]; omega⟩
  else throw .malformed

/-- Reads a record written as the list of its three lists, behind the bracket. -/
def readMembersList (s : List Char) : Except ReadError (Front Members s) := do
  let some ⟨_, r₁, h₁⟩ ← readBeforeItem true s | throw .mismatch
  let ⟨methods, r₂, h₂⟩ ← readTexts r₁
  let some ⟨_, r₃, h₃⟩ ← readBeforeItem false r₂ | throw .mismatch
  let ⟨fields, r₄, h₄⟩ ← readTexts r₃
  let some ⟨_, r₅, h₅⟩ ← readBeforeItem false r₄ | throw .mismatch
  let ⟨dependencies, r₆, h₆⟩ ← readTexts r₅
  let ⟨c, r₇, h₇⟩ ← readMark r₆
  if c = ']' then
    return ⟨⟨methods, fields, Std.ExtTreeSet.ofList dependencies⟩, r₇, by
      simp only [List.length_cons] at h₁ h₃ h₅; omega⟩
  else throw .malformed

def readKey (first : Bool) (s : List Char) :
    Except ReadError (Front (Option (List Char)) s) := do
  let ⟨c, r, h⟩ ← readMark s
  if c = '\x7d' then return ⟨none, r, h⟩
  else if first then
    if c = '"' then (readChars false r).map fun f => (f.map some).widen (by omega)
    else throw .malformed
  else if c = ',' then
    let ⟨q, r', h'⟩ ← readMark r
    if q = '"' then (readChars false r').map fun f => (f.map some).widen (by omega)
    else throw .malformed
  else throw .malformed

structure Draft where
  methods : Option (List String) := none
  fields : Option (List String) := none
  dependencies : Option (List String) := none

def Draft.members? : Draft → Option Members
  | ⟨some m, some f, some d⟩ => some ⟨m, f, Std.ExtTreeSet.ofList d⟩
  | _ => none

def Draft.has (d : Draft) (key : List Char) : Bool :=
  (key == "methods".toList && d.methods.isSome) || (key == "fields".toList && d.fields.isSome) ||
    (key == "dependencies".toList && d.dependencies.isSome)

def Draft.set (d : Draft) (key : List Char) (ts : List String) : Draft :=
  if key = "methods".toList then { d with methods := some ts }
  else if key = "fields".toList then { d with fields := some ts }
  else { d with dependencies := some ts }

def isListKey (key : List Char) : Bool :=
  key == "methods".toList || key == "fields".toList || key == "dependencies".toList

def readMembersRows (d : Draft) (first : Bool) (s : List Char) :
    Except ReadError (Front Members s) := do
  let ⟨key, r, h⟩ ← readKey first s
  match key with
  | none =>
    match d.members? with
    | some m => return ⟨m, r, h⟩
    | none => throw .mismatch
  | some key =>
    if d.has key then throw .mismatch
    else
      let ⟨_, r', h'⟩ ← readColon r
      if isListKey key then
        let ⟨ts, r'', h''⟩ ← readTexts r'
        (readMembersRows (d.set key ts) false r'').map (·.widen (by omega))
      else
        let ⟨_, r'', h''⟩ ← skipValue r'
        (readMembersRows d false r'').map (·.widen (by omega))
termination_by s.length
decreasing_by all_goals omega

def readMembers (s : List Char) : Except ReadError (Front Members s) := do
  let ⟨c, r, h⟩ ← readMark s
  if c = '[' then (readMembersList r).map (·.widen (by omega))
  else if c = '\x7b' then (readMembersRows {} true r).map (·.widen (by omega))
  else throw (wrongShape (c :: r))

/-- Reads the records of a report, from its start or from behind a record, and its
end. A later record replaces an earlier one of the same identity. -/
def readRows (records : Records) (first : Bool) (s : List Char) :
    Except ReadError (Front Records s) := do
  let ⟨key, r, h⟩ ← readKey first s
  match key with
  | none => return ⟨records, r, h⟩
  | some key =>
    let ⟨_, r', h'⟩ ← readColon r
    let ⟨m, r'', h''⟩ ← readMembers r'
    (readRows (records.put (String.ofList key) m).2 false r'').map (·.widen (by omega))
termination_by s.length
decreasing_by all_goals omega

def load (text : String) : Except ReadError Records := do
  let ⟨c, r, _⟩ ← readMark text.toList
  if c = '\x7b' then
    let ⟨records, rest, _⟩ ← readRows ∅ true r
    if skipSpace rest = [] then return records else throw .malformed
  else throw (wrongShape (c :: r))

end MemberIndex.Report
