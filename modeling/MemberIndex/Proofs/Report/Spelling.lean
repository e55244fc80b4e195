import Mathlib.Algebra.Field.Rat
import MemberIndex.Proofs.Report.RoundTrip

/-! # The texts of a document

One document has many texts: blanks may stand between its parts, a character may be escaped, a
number may be written in other digits, and the rows of a table may come in another order. Each
part of the grammar says which text stands in front and which is left behind it. Strings,
numbers and whole values are read, or passed over, to exactly where the grammar ends them.
-/

namespace MemberIndex.Report

/-- A document without its layout. A table may have more than one row under a key. -/
inductive Value
  | null
  | boolean (b : Bool)
  | number (q : ℚ)
  | text (t : String)
  | list (items : List Value)
  | table (rows : List (String × Value))

section Grammar

inductive Blanks : List Char → List Char → Prop
  | none {r : List Char} : Blanks r r
  | more {c : Char} {s r : List Char} : c ∈ [' ', '\n', '\t', '\r'] → Blanks s r → Blanks (c :: s) r

def IsHexDigit (n : ℕ) (c : Char) : Prop :=
  n < 16 ∧ (c = Nat.digitChar n ∨ c = (Nat.digitChar n).toUpper)

inductive HexDigits : ℕ → List Char → List Char → Prop
  | mk {n₁ n₂ n₃ n₄ : ℕ} {c₁ c₂ c₃ c₄ : Char} {r : List Char} :
      IsHexDigit n₁ c₁ → IsHexDigit n₂ c₂ → IsHexDigit n₃ c₃ → IsHexDigit n₄ c₄ →
      HexDigits (((n₁ * 16 + n₂) * 16 + n₃) * 16 + n₄) (c₁ :: c₂ :: c₃ :: c₄ :: r) r

def escapeLetters : List (Char × Char) :=
  [('"', '"'), ('\\', '\\'), ('/', '/'), ('b', Char.ofNat 8), ('f', Char.ofNat 12), ('n', '\n'),
    ('r', '\r'), ('t', '\t')]

/-- What may stand for a character behind a backslash: a letter, its number, or the numbers of
the two halves that make it up. -/
inductive SpellsEscape : Char → List Char → List Char → Prop
  | letter {l c : Char} {r : List Char} : (l, c) ∈ escapeLetters → SpellsEscape c (l :: r) r
  | unit {c : Char} {s r : List Char} : HexDigits c.toNat s r → SpellsEscape c ('u' :: s) r
  | pair {c : Char} {high low : ℕ} {s t r : List Char} : high < 0x400 → low < 0x400 →
      c.toNat = 0x10000 + high * 0x400 + low → HexDigits (0xD800 + high) s ('\\' :: 'u' :: t) →
      HexDigits (0xDC00 + low) t r → SpellsEscape c ('u' :: s) r

inductive SpellsChars : List Char → List Char → List Char → Prop
  | closing {r : List Char} : SpellsChars [] ('"' :: r) r
  | plain {c : Char} {cs s r : List Char} : c ≠ '"' → c ≠ '\\' → 32 ≤ c.toNat →
      SpellsChars cs s r → SpellsChars (c :: cs) (c :: s) r
  | escape {c : Char} {cs s t r : List Char} : SpellsEscape c s t → SpellsChars cs t r →
      SpellsChars (c :: cs) ('\\' :: s) r

def IsDigits (ds : List Char) : Prop := ds ≠ [] ∧ ∀ d ∈ ds, d.isDigit

inductive SpellsFraction : List Char → List Char → List Char → Prop
  | none {r : List Char} : SpellsFraction [] r r
  | some {ds r : List Char} : IsDigits ds → SpellsFraction ds ('.' :: (ds ++ r)) r

inductive SpellsExponent : Bool → List Char → List Char → List Char → Prop
  | none {r : List Char} : SpellsExponent true [] r r
  | bare {e : Char} {ds r : List Char} : e ∈ ['e', 'E'] → IsDigits ds →
      SpellsExponent true ds (e :: (ds ++ r)) r
  | plus {e : Char} {ds r : List Char} : e ∈ ['e', 'E'] → IsDigits ds →
      SpellsExponent true ds (e :: '+' :: (ds ++ r)) r
  | minus {e : Char} {ds r : List Char} : e ∈ ['e', 'E'] → IsDigits ds →
      SpellsExponent false ds (e :: '-' :: (ds ++ r)) r

/-- A number without its sign. Its whole part has no zero in front of other digits. -/
inductive SpellsNumeral : Numeral → List Char → List Char → Prop
  | mk {whole fraction exponent s t r : List Char} {raised : Bool} : IsDigits whole →
      (whole.head? = some '0' → whole = ['0']) → SpellsFraction fraction s t →
      SpellsExponent raised exponent t r →
      SpellsNumeral ⟨whole, fraction, raised, exponent⟩ (whole ++ s) r

def Numeral.value (n : Numeral) : ℚ :=
  takeExponent (n.whole ++ n.fraction) *
    10 ^ ((if n.raised then (takeExponent n.exponent : ℤ) else -takeExponent n.exponent) -
      n.fraction.length)

/-- What stands in front of an item: blanks, and a comma unless it is the first. -/
inductive SpellsLead : Bool → List Char → List Char → Prop
  | first {s r : List Char} : Blanks s r → SpellsLead true s r
  | next {s t r : List Char} : Blanks s (',' :: t) → Blanks t r → SpellsLead false s r

/-- The same rows in another order, where those under one key keep theirs. -/
def SameByKey (rows rows' : List (String × Value)) : Prop :=
  ∀ key, rows.filter (·.1 = key) = rows'.filter (·.1 = key)

/-- A part of a document: a value, or what is left of a list or a table from its start or from
behind an item. -/
inductive Part
  | value (v : Value)
  | items (first : Bool) (vs : List Value)
  | rows (first : Bool) (rows : List (String × Value))

/-- The texts of a part, with the text that is left behind it. -/
inductive Spells : Part → List Char → List Char → Prop
  | null {r : List Char} : Spells (.value .null) ('n' :: 'u' :: 'l' :: 'l' :: r) r
  | yes {r : List Char} : Spells (.value (.boolean true)) ('t' :: 'r' :: 'u' :: 'e' :: r) r
  | no {r : List Char} : Spells (.value (.boolean false)) ('f' :: 'a' :: 'l' :: 's' :: 'e' :: r) r
  | number {n : Numeral} {s r : List Char} : SpellsNumeral n s r →
      Spells (.value (.number n.value)) s r
  | negative {n : Numeral} {s r : List Char} : SpellsNumeral n s r →
      Spells (.value (.number (-n.value))) ('-' :: s) r
  | text {t : String} {s r : List Char} : SpellsChars t.toList s r →
      Spells (.value (.text t)) ('"' :: s) r
  | list {vs : List Value} {s r : List Char} : Spells (.items true vs) s r →
      Spells (.value (.list vs)) ('[' :: s) r
  | table {rows rows' : List (String × Value)} {s r : List Char} : SameByKey rows rows' →
      Spells (.rows true rows') s r → Spells (.value (.table rows)) ('\x7b' :: s) r
  | itemsDone {first : Bool} {s r : List Char} : Blanks s (']' :: r) → Spells (.items first []) s r
  | item {first : Bool} {v : Value} {vs : List Value} {s t u r : List Char} :
      SpellsLead first s t → Spells (.value v) t u → Spells (.items false vs) u r →
      Spells (.items first (v :: vs)) s r
  | rowsDone {first : Bool} {s r : List Char} : Blanks s ('\x7d' :: r) →
      Spells (.rows first []) s r
  | row {first : Bool} {key : String} {v : Value} {rows : List (String × Value)}
      {s t u w x y r : List Char} : SpellsLead first s ('"' :: t) → SpellsChars key.toList t u →
      Blanks u (':' :: w) → Blanks w x → Spells (.value v) x y → Spells (.rows false rows) y r →
      Spells (.rows first ((key, v) :: rows)) s r

def SpellsDocument (v : Value) (text : String) : Prop :=
  ∃ s r, Blanks text.toList s ∧ Spells (.value v) s r ∧ Blanks r []

end Grammar

section Strings

variable {k : Bool} {c : Char} {cs s t r : List Char}

theorem isDigit_eq (c : Char) : isDigit c = c.isDigit := rfl

theorem hexValue?_of_isHexDigit {n : ℕ} (h : IsHexDigit n c) : hexValue? c = some n := by
  have hall : ∀ n < 16, hexValue? (Nat.digitChar n) = some n ∧
      hexValue? (Nat.digitChar n).toUpper = some n := by decide
  obtain ⟨hn, rfl | rfl⟩ := h
  · exact (hall n hn).1
  · exact (hall n hn).2

theorem HexDigits.reads {n : ℕ} (h : HexDigits n s r) : Reads (readHex s) n r := by
  obtain ⟨h₁, h₂, h₃, h₄⟩ := h
  simp only [readHex, hexValue?_of_isHexDigit h₁, hexValue?_of_isHexDigit h₂,
    hexValue?_of_isHexDigit h₃, hexValue?_of_isHexDigit h₄]
  exact ⟨_, rfl⟩

theorem not_isSurrogate (c : Char) :
    isLowSurrogate c.toNat = false ∧ isHighSurrogate c.toNat = false := by
  have hvalid : c.toNat < 0xD800 ∨ 0xDFFF < c.toNat ∧ c.toNat < 0x110000 := c.valid
  simp [isLowSurrogate, isHighSurrogate]
  omega

theorem reads_unit (h : HexDigits c.toNat s r) : Reads (readUnits k s) c r := by
  obtain ⟨hlt, hhex⟩ := h.reads
  obtain ⟨hlow, hhigh⟩ := not_isSurrogate c
  cases k <;> exact ⟨hlt, by
    simp [readUnits, hhex, hlow, hhigh, bind, Except.bind, pure, Except.pure]⟩

theorem reads_pair {high low : ℕ} (hhigh : high < 0x400) (hlow : low < 0x400)
    (hc : c.toNat = 0x10000 + high * 0x400 + low)
    (hs : HexDigits (0xD800 + high) s ('\\' :: 'u' :: t)) (ht : HexDigits (0xDC00 + low) t r) :
    Reads (readUnits false s) c r := by
  obtain ⟨hlt, hs⟩ := hs.reads
  obtain ⟨hlt', ht⟩ := ht.reads
  have hnotlow : isLowSurrogate (0xD800 + high) = false := by simp [isLowSurrogate]; omega
  have hishigh : isHighSurrogate (0xD800 + high) = true := by simp [isHighSurrogate]; omega
  have hislow : isLowSurrogate (0xDC00 + low) = true := by simp [isLowSurrogate]; omega
  have hsum : 0x10000 + (0xD800 + high - 0xD800) * 0x400 + (0xDC00 + low - 0xDC00) = c.toNat := by
    omega
  simp only [readUnits, hs, ht, hnotlow, hishigh, hislow, hsum, Char.ofNat_toNat, bind,
    Except.bind, pure, Except.pure, ↓reduceIte, Bool.not_true, Bool.false_eq_true]
  exact ⟨_, rfl⟩

theorem reads_letter {l : Char} (h : (l, c) ∈ escapeLetters) :
    Reads (readEscape k (l :: r)) c r := by
  simp only [escapeLetters, List.mem_cons, Prod.mk.injEq, List.not_mem_nil, or_false] at h
  obtain ⟨rfl, rfl⟩ | ⟨rfl, rfl⟩ | ⟨rfl, rfl⟩ | ⟨rfl, rfl⟩ | ⟨rfl, rfl⟩ | ⟨rfl, rfl⟩ |
    ⟨rfl, rfl⟩ | ⟨rfl, rfl⟩ := h <;> exact ⟨by simp, rfl⟩

theorem readEscape_of_readUnits (h : Reads (readUnits k s) c r) :
    Reads (readEscape k ('u' :: s)) c r := by
  unfold readEscape
  simpa using h.widen _

theorem SpellsEscape.reads (h : SpellsEscape c s r) : Reads (readEscape false s) c r := by
  cases h with
  | letter h => exact reads_letter h
  | unit h => exact readEscape_of_readUnits (reads_unit h)
  | pair hhigh hlow hc hs ht => exact readEscape_of_readUnits (reads_pair hhigh hlow hc hs ht)

theorem SpellsChars.reads (h : SpellsChars cs s r) : Reads (readChars false s) cs r := by
  induction h with
  | closing =>
    rw [readChars]
    exact ⟨by simp, rfl⟩
  | plain h₁ h₂ h₃ _ ih => exact readChars_plain h₁ h₂ h₃ ih
  | escape he _ ih => exact readChars_backslash he.reads ih

/-- Where a text is only skipped, the halves of a pair are skipped one after the other. -/
theorem SpellsEscape.passes (h : SpellsEscape c s t) (hcs : Reads (readChars true t) cs r) :
    ∃ ds, Reads (readChars true ('\\' :: s)) ds r := by
  have hunit {n : ℕ} {s t : List Char} (hn : HexDigits n s t) :
      Reads (readEscape true ('u' :: s)) (Char.ofNat n) t := by
    obtain ⟨hlt, hhex⟩ := hn.reads
    refine readEscape_of_readUnits ⟨hlt, ?_⟩
    simp [readUnits, hhex, bind, Except.bind, pure, Except.pure]
  cases h with
  | letter h => exact ⟨_, readChars_backslash (reads_letter h) hcs⟩
  | unit h => exact ⟨_, readChars_backslash (hunit h) hcs⟩
  | pair _ _ _ hs ht =>
    exact ⟨_, readChars_backslash (hunit hs) (readChars_backslash (hunit ht) hcs)⟩

theorem SpellsChars.passes (h : SpellsChars cs s r) : ∃ ds, Reads (readChars true s) ds r := by
  induction h with
  | closing => exact ⟨[], by rw [readChars]; exact ⟨by simp, rfl⟩⟩
  | plain h₁ h₂ h₃ _ ih =>
    obtain ⟨ds, hds⟩ := ih
    exact ⟨_, readChars_plain h₁ h₂ h₃ hds⟩
  | escape he _ ih =>
    obtain ⟨ds, hds⟩ := ih
    exact he.passes hds

theorem SpellsChars.plain_append {ds : List Char}
    (h : ∀ c ∈ cs, c ≠ '"' ∧ c ≠ '\\' ∧ 32 ≤ c.toNat) (hs : SpellsChars ds s r) :
    SpellsChars (cs ++ ds) (cs ++ s) r := by
  induction cs with
  | nil => exact hs
  | cons c cs ih =>
    obtain ⟨⟨h₁, h₂, h₃⟩, hcs⟩ := List.forall_mem_cons.1 h
    exact .plain h₁ h₂ h₃ (ih hcs)

theorem spells_plain (cs r : List Char) (h : ∀ c ∈ cs, c ≠ '"' ∧ c ≠ '\\' ∧ 32 ≤ c.toNat) :
    SpellsChars cs (cs ++ '"' :: r) r := by
  simpa using SpellsChars.plain_append h (.closing (r := r))

end Strings

section Numbers

variable {n : Numeral} {ds s t r : List Char} {raised : Bool}

def NoDigit (r : List Char) : Prop := ∀ c ∈ r.head?, c.isDigit = false

/-- A text that does not carry on a number that ends before it. -/
def Follows (r : List Char) : Prop := ∀ c ∈ r.head?, c.isDigit = false ∧ c ∉ ['.', 'e', 'E']

theorem Follows.noDigit (h : Follows r) : NoDigit r := fun c hc => (h c hc).1

theorem IsDigits.reads (h : IsDigits ds) (hr : NoDigit r) (short : ReadError) :
    Reads (readDigits short (ds ++ r)) ds r := by
  obtain ⟨d, ds, rfl⟩ := List.exists_cons_of_ne_nil h.1
  have hd : isDigit d = true := h.2 d (by simp)
  have hds : ∀ c ∈ ds, isDigit c = true := fun c hc => h.2 c (by simp [hc])
  have htake : (ds ++ r).takeWhile isDigit = ds := by
    rw [List.takeWhile_append_of_pos hds]
    cases r with
    | nil => simp
    | cons c r => simp [isDigit_eq, hr c rfl]
  have hdrop : (ds ++ r).dropWhile isDigit = r := by
    rw [List.dropWhile_append_of_pos hds]
    cases r with
    | nil => rfl
    | cons c r => simp [isDigit_eq, hr c rfl]
  rw [List.cons_append, readDigits, if_pos hd]
  simp only [htake, hdrop]
  exact ⟨_, rfl⟩

/-- What may stand behind the whole part and the fraction of a number. -/
def NoFraction (r : List Char) : Prop := ∀ c ∈ r.head?, c.isDigit = false ∧ c ≠ '.'

theorem NoFraction.noDigit (h : NoFraction r) : NoDigit r := fun c hc => (h c hc).1

theorem SpellsExponent.noFraction (h : SpellsExponent raised ds s r) (hr : Follows r) :
    NoFraction s := by
  have hmark {e : Char} {u : List Char} (he : e ∈ ['e', 'E']) : NoFraction (e :: u) := by
    rintro c ⟨⟩
    obtain rfl | rfl : e = 'e' ∨ e = 'E' := by simpa using he
    · decide
    · decide
  cases h with
  | none => exact fun c hc => ⟨(hr c hc).1, fun hdot => (hr c hc).2 (by simp [hdot])⟩
  | bare he => exact hmark he
  | plus he => exact hmark he
  | minus he => exact hmark he

theorem SpellsFraction.noDigit (h : SpellsFraction ds s t) (ht : NoFraction t) : NoDigit s := by
  cases h with
  | none => exact ht.noDigit
  | some => rintro c ⟨⟩; rfl

theorem SpellsFraction.reads (h : SpellsFraction ds s t) (ht : NoFraction t) (short : ReadError) :
    Reads (readFraction short s) ds t := by
  cases h with
  | none =>
    unfold readFraction
    split
    · exact absurd rfl (ht '.' rfl).2
    · exact ⟨by simp, rfl⟩
  | some hds => exact (hds.reads ht.noDigit short).widen _

theorem unsigned_digits (h : IsDigits ds) (r : List Char) :
    unsigned (ds ++ r) = (true, ds ++ r) := by
  obtain ⟨d, ds, rfl⟩ := List.exists_cons_of_ne_nil h.1
  have hd : d.isDigit = true := h.2 d (by simp)
  unfold unsigned
  split
  · rename_i heq
    obtain ⟨rfl, -⟩ := List.cons.inj heq
    exact absurd hd (by decide)
  · rename_i heq
    obtain ⟨rfl, -⟩ := List.cons.inj heq
    exact absurd hd (by decide)
  · rfl

theorem SpellsExponent.cases_mark (h : SpellsExponent raised ds s r) (hr : Follows r) :
    (s = r ∧ raised = true ∧ ds = []) ∨ ∃ e u, s = e :: u ∧ (e = 'e' ∨ e = 'E') ∧
      unsigned u = (raised, ds ++ r) ∧ IsDigits ds := by
  cases h with
  | none => exact .inl ⟨rfl, rfl, rfl⟩
  | bare he hds => exact .inr ⟨_, _, rfl, by simpa using he, unsigned_digits hds r, hds⟩
  | plus he hds => exact .inr ⟨_, _, rfl, by simpa using he, rfl, hds⟩
  | minus he hds => exact .inr ⟨_, _, rfl, by simpa using he, rfl, hds⟩

theorem reads_scale {fraction exponent whole : List Char} (hf : SpellsFraction fraction s t)
    (he : SpellsExponent raised exponent t r) (hr : Follows r) (short : ReadError) :
    Reads (readScale short whole s) ⟨whole, fraction, raised, exponent⟩ r := by
  obtain ⟨hlt, hfraction⟩ := hf.reads (he.noFraction hr) short
  obtain ⟨rfl, rfl, rfl⟩ | ⟨e, u, rfl, hmark, hsign, hds⟩ := he.cases_mark hr
  · cases t with
    | nil =>
      simp only [readScale, hfraction, bind, Except.bind, pure, Except.pure]
      exact ⟨_, rfl⟩
    | cons c t =>
      have hc : ¬ (c = 'e' ∨ c = 'E') := fun h => (hr c rfl).2 (by simp; tauto)
      simp only [readScale, hfraction, hc, bind, Except.bind, pure, Except.pure, ↓reduceIte]
      exact ⟨_, rfl⟩
  · obtain ⟨hlt', hdigits⟩ : Reads (readDigits short (unsigned u).2) exponent r := by
      rw [hsign]
      exact hds.reads hr.noDigit short
    have hraised : (unsigned u).1 = raised := by rw [hsign]
    simp only [readScale, hfraction, hmark, hdigits, hraised, bind, Except.bind, pure,
      Except.pure, ↓reduceIte]
    exact ⟨_, rfl⟩

theorem SpellsNumeral.reads (h : SpellsNumeral n s r) (hr : Follows r) (short : ReadError) :
    Reads (readNumeral short s) n r := by
  obtain @⟨whole, fraction, exponent, s, t, r, raised, hwhole, hzero, hf, he⟩ := h
  obtain ⟨hlt, hdigits⟩ := hwhole.reads (hf.noDigit (he.noFraction hr)) short
  have hone : ¬ (whole.head? = some '0' ∧ 1 < whole.length) := by
    rintro ⟨hhead, hlong⟩
    rw [hzero hhead] at hlong
    exact absurd hlong (by decide)
  simp only [readNumeral, hdigits, if_neg hone, bind, Except.bind]
  exact (reads_scale hf he hr short).widen _

end Numbers

section Openings

variable {v : Value} {c : Char} {s t r : List Char}

theorem Blanks.opens (h : Blanks s (c :: r)) (hc : isSpace c = false) : Opens c r s := by
  generalize hq : c :: r = q at h
  induction h with
  | none => exact hq ▸ opens_cons hc r
  | more hb _ ih =>
    refine opens_blank ?_ (ih hq)
    simpa [isSpace, or_assoc] using hb

theorem readColon_of_blanks (h : Blanks s (':' :: r)) : Reads (readColon s) () r := by
  obtain ⟨hlt, hmark⟩ := (h.opens rfl).readMark
  simp only [readColon, hmark, bind, Except.bind, ↓reduceIte, pure, Except.pure]
  exact ⟨_, rfl⟩

def Value.OpensWith : Value → Char → Prop
  | .null, c => c = 'n'
  | .boolean b, c => c = if b then 't' else 'f'
  | .number _, c => c = '-' ∨ c.isDigit
  | .text _, c => c = '"'
  | .list _, c => c = '['
  | .table _, c => c = '\x7b'

theorem ne_of_isDigit {d : Char} (hc : c.isDigit) (hd : d.isDigit = false) : c ≠ d := by
  rintro rfl
  exact Bool.false_ne_true (hd.symm.trans hc)

theorem SpellsNumeral.head {n : Numeral} (h : SpellsNumeral n s r) :
    ∃ d t, s = d :: t ∧ d.isDigit := by
  obtain ⟨hwhole, -⟩ := h
  obtain ⟨d, ds, rfl⟩ := List.exists_cons_of_ne_nil hwhole.1
  exact ⟨d, _, rfl, hwhole.2 d (by simp)⟩

theorem Spells.head (h : Spells (.value v) s r) : ∃ c t, s = c :: t ∧ v.OpensWith c := by
  cases h with
  | null => exact ⟨_, _, rfl, rfl⟩
  | yes => exact ⟨_, _, rfl, rfl⟩
  | no => exact ⟨_, _, rfl, rfl⟩
  | number h =>
    obtain ⟨d, t, rfl, hd⟩ := h.head
    exact ⟨d, t, rfl, .inr hd⟩
  | negative => exact ⟨_, _, rfl, .inl rfl⟩
  | text => exact ⟨_, _, rfl, rfl⟩
  | list => exact ⟨_, _, rfl, rfl⟩
  | table => exact ⟨_, _, rfl, rfl⟩

theorem Value.OpensWith.plain (h : v.OpensWith c) : isSpace c = false ∧ c ≠ ']' := by
  cases v with
  | number =>
    obtain rfl | hd := h
    · decide
    · have hne {d : Char} (hd' : d.isDigit = false) := ne_of_isDigit hd hd'
      simp [isSpace, hne (d := ' ') rfl, hne (d := '\n') rfl, hne (d := '\t') rfl,
        hne (d := '\r') rfl, hne (d := ']') rfl]
  | boolean b => cases b <;> (obtain rfl := h; decide)
  | null | text | list | table =>
    obtain rfl := h
    decide

theorem Blanks.follows (h : Blanks s (c :: r)) (hc : c ∈ [',', ']', '\x7d']) : Follows s := by
  have hmark : ∀ d ∈ [',', ']', '\x7d'], d.isDigit = false ∧ d ∉ ['.', 'e', 'E'] := by simp
  have hblank : ∀ d ∈ [' ', '\n', '\t', '\r'], d.isDigit = false ∧ d ∉ ['.', 'e', 'E'] := by
    simp
  cases h with
  | none =>
    rintro d ⟨⟩
    exact hmark _ hc
  | more hb =>
    rintro d ⟨⟩
    exact hblank _ hb

theorem SpellsLead.follows (h : SpellsLead false s t) : Follows s := by
  cases h with
  | next hs => exact hs.follows (by simp)

theorem Spells.follows_items {vs : List Value} (h : Spells (.items false vs) s r) : Follows s := by
  cases h with
  | itemsDone hs => exact hs.follows (by simp)
  | item hs => exact hs.follows

theorem Spells.follows_rows {rows : List (String × Value)} (h : Spells (.rows false rows) s r) :
    Follows s := by
  cases h with
  | rowsDone hs => exact hs.follows (by simp)
  | row hs => exact hs.follows

end Openings

section Skipping

variable {c : Char} {s t u r : List Char} {first : Bool}

theorem Opens.reads_match {α : Type} {x : α} (h : Opens c r s)
    {e : skipSpace s = [] → Except ReadError (Front α s)}
    {f : (c : Char) → (r : List Char) → skipSpace s = c :: r → Except ReadError (Front α s)}
    (hf : Reads (f c r h) x t) :
    Reads (match h : skipSpace s with
      | [] => e h
      | c :: r => f c r h) x t := by
  split
  · rename_i hnil
    exact absurd (h.symm.trans hnil) (List.cons_ne_nil _ _)
  · rename_i hcons
    obtain ⟨rfl, rfl⟩ := List.cons.inj (h.symm.trans hcons)
    exact hf

theorem skipItems_end (h : Opens ']' r s) : Reads (skipItems first s) () r := by
  rw [skipItems]
  refine h.reads_match ?_
  exact ⟨_, rfl⟩

theorem skipItems_item {v : Value} (hs : SpellsLead first s (c :: t)) (hc : v.OpensWith c)
    (hv : ∀ b, Blanks b (c :: t) → Reads (skipValue b) () u)
    (hrest : Reads (skipItems false u) () r) : Reads (skipItems first s) () r := by
  obtain ⟨hspace, hclosing⟩ := hc.plain
  obtain ⟨hlt, hrest⟩ := hrest
  rw [skipItems]
  cases hs with
  | first hb =>
    obtain ⟨hlt', hv⟩ := hv s hb
    refine (hb.opens hspace).reads_match ?_
    simp only [hclosing, hv, hrest, bind, Except.bind, Except.map, ↓reduceIte]
    exact ⟨_, rfl⟩
  | next hb hb' =>
    obtain ⟨hlt', hv⟩ := hv _ hb'
    refine (hb.opens rfl).reads_match ?_
    simp only [hv, hrest, bind, Except.bind, Except.map, Char.reduceEq, Bool.false_eq_true,
      ↓reduceIte]
    exact ⟨_, rfl⟩

theorem skipRows_end (h : Opens '\x7d' r s) : Reads (skipRows first s) () r := by
  rw [skipRows]
  refine h.reads_match ?_
  exact ⟨_, rfl⟩

theorem skipRow_row {cs w x : List Char} (hs : Blanks s ('"' :: t)) (hkey : SpellsChars cs t u)
    (hu : Blanks u (':' :: w)) (hv : Reads (skipValue w) () x) : Reads (skipRow s) () x := by
  obtain ⟨ds, hlt, hchars⟩ := hkey.passes
  obtain ⟨hlt', hcolon⟩ := readColon_of_blanks hu
  rw [skipRow]
  refine (hs.opens rfl).reads_match ?_
  simp only [hchars, hcolon, bind, Except.bind, ↓reduceIte]
  exact hv.widen _

theorem skipRows_row (hs : SpellsLead first s ('"' :: t))
    (hrow : ∀ b, Blanks b ('"' :: t) → Reads (skipRow b) () u)
    (hrest : Reads (skipRows false u) () r) : Reads (skipRows first s) () r := by
  obtain ⟨hlt, hrest⟩ := hrest
  rw [skipRows]
  cases hs with
  | first hb =>
    obtain ⟨hlt', hrow⟩ := hrow s hb
    refine (hb.opens rfl).reads_match ?_
    simp only [hrow, hrest, bind, Except.bind, Except.map, Char.reduceEq, ↓reduceIte]
    exact ⟨_, rfl⟩
  | next hb hb' =>
    obtain ⟨hlt', hrow⟩ := hrow _ hb'
    refine (hb.opens rfl).reads_match ?_
    simp only [hrow, hrest, bind, Except.bind, Except.map, Char.reduceEq, Bool.false_eq_true,
      ↓reduceIte]
    exact ⟨_, rfl⟩

theorem skipValue_digits {d : Char} {n : Numeral} (h : Opens d r s) (hd : d.isDigit)
    (hn : Reads (readNumeral .malformed (d :: r)) n t) : Reads (skipValue s) () t := by
  have hne {e : Char} (he : e.isDigit = false) := ne_of_isDigit hd he
  rw [skipValue]
  refine h.reads_match ?_
  simp only [hne (e := 'n') rfl, hne (e := 't') rfl, hne (e := 'f') rfl, hne (e := '-') rfl,
    isDigit_eq, hd, ↓reduceIte]
  exact hn.map_widen _ _

def Skips : Part → List Char → List Char → Prop
  | .value _, s, r => ∀ b, Blanks b s → Follows r → Reads (skipValue b) () r
  | .items first _, s, r => Reads (skipItems first s) () r
  | .rows first _, s, r => Reads (skipRows first s) () r

/-- Whatever stands in a part, it is passed over to exactly its end. -/
theorem Spells.skips {p : Part} (h : Spells p s r) : Skips p s r := by
  -- On the grammar. A number is taken as far as it goes, so its text must not be carried on by
  -- what stands behind it; behind an item that is a blank or a mark.
  induction h with
  | null | yes | no =>
    intro b hb _
    rw [skipValue]
    refine (hb.opens rfl).reads_match ?_
    exact ⟨_, rfl⟩
  | number hn =>
    intro b hb hr
    obtain ⟨d, t, rfl, hd⟩ := hn.head
    have hspace : isSpace d = false := (Value.OpensWith.plain (v := .number 0) (.inr hd)).1
    exact skipValue_digits (hb.opens hspace) hd (hn.reads hr .malformed)
  | negative hn =>
    intro b hb hr
    rw [skipValue]
    refine (hb.opens rfl).reads_match ?_
    simp only [Char.reduceEq, ↓reduceIte]
    exact (hn.reads hr .malformed).map_widen _ _
  | text ht =>
    intro b hb _
    obtain ⟨ds, hds⟩ := ht.passes
    rw [skipValue]
    refine (hb.opens rfl).reads_match ?_
    simp only [Char.reduceEq, ↓reduceIte]
    exact hds.map_widen _ _
  | list _ ih =>
    intro b hb _
    rw [skipValue]
    refine (hb.opens rfl).reads_match ?_
    simp only [Char.reduceEq, ↓reduceIte]
    exact ih.widen _
  | table _ _ ih =>
    intro b hb _
    rw [skipValue]
    refine (hb.opens rfl).reads_match ?_
    simp only [Char.reduceEq, ↓reduceIte]
    exact ih.widen _
  | itemsDone hs => exact skipItems_end (hs.opens rfl)
  | item hs hv hrest ihv ihrest =>
    obtain ⟨c, t, rfl, hc⟩ := hv.head
    exact skipItems_item hs hc (fun b hb => ihv b hb hrest.follows_items) ihrest
  | rowsDone hs => exact skipRows_end (hs.opens rfl)
  | row hs hkey hu hw hv hrest ihv ihrest =>
    exact skipRows_row hs
      (fun b hb => skipRow_row hb hkey hu (ihv _ hw hrest.follows_rows)) ihrest

end Skipping

end MemberIndex.Report
