import Mathlib.Tactic.SplitIfs
import MemberIndex.Proofs.Records
import MemberIndex.Report.Printer
import MemberIndex.Report.Reader

/-! # Reading what was written

A report that was written is read back to the records that it was written from. Each
reader is followed through the text that is written for it, with any text behind.
-/

namespace MemberIndex.Report

/-- A reader comes to a value, with a text left behind it. -/
def Reads {α : Type} {s : List Char} (e : Except ReadError (Front α s)) (a : α)
    (rest : List Char) : Prop :=
  ∃ h, e = .ok ⟨a, rest, h⟩

theorem Reads.map_widen {α β : Type} {s t : List Char} {e : Except ReadError (Front α t)} {a : α}
    {rest : List Char} (he : Reads e a rest) (g : α → β) (h : t.length ≤ s.length) :
    Reads (e.map fun f => (f.map g).widen (s := s) h) (g a) rest := by
  obtain ⟨hlt, rfl⟩ := he
  exact ⟨_, rfl⟩

theorem Reads.widen {α : Type} {s t : List Char} {e : Except ReadError (Front α t)} {a : α}
    {rest : List Char} (he : Reads e a rest) (h : t.length ≤ s.length) :
    Reads (e.map (·.widen (s := s) h)) a rest := he.map_widen id h

section Strings

variable {r : List Char}

theorem hexValue?_digitChar {n : Nat} (h : n < 16) : hexValue? (Nat.digitChar n) = some n := by
  have hall : ∀ n < 16, hexValue? (Nat.digitChar n) = some n := by decide
  exact hall n h

theorem readHex_digits {n : Nat} (h : n < 256) (r : List Char) :
    Reads (readHex ('0' :: '0' :: Nat.digitChar (n / 16) :: Nat.digitChar (n % 16) :: r)) n r := by
  have hzero : hexValue? '0' = some 0 := by decide
  have hsum : ((0 * 16 + 0) * 16 + n / 16) * 16 + n % 16 = n := by omega
  unfold readHex
  simp only [hzero, hexValue?_digitChar (show n / 16 < 16 by omega),
    hexValue?_digitChar (show n % 16 < 16 by omega), hsum]
  exact ⟨_, rfl⟩

theorem readEscape_units {c : Char} (hc : c.toNat < 32) (r : List Char) :
    Reads (readEscape false ('u' :: '0' :: '0' :: Nat.digitChar (c.toNat / 16) ::
      Nat.digitChar (c.toNat % 16) :: r)) c r := by
  obtain ⟨h, hhex⟩ := readHex_digits (n := c.toNat) (by omega) r
  have hlow : isLowSurrogate c.toNat = false := by simp [isLowSurrogate]; omega
  have hhigh : isHighSurrogate c.toNat = false := by simp [isHighSurrogate]; omega
  have hunits : Reads (readUnits false ('0' :: '0' :: Nat.digitChar (c.toNat / 16) ::
      Nat.digitChar (c.toNat % 16) :: r)) c r := by
    refine ⟨h, ?_⟩
    simp [readUnits, hhex, hlow, hhigh, bind, Except.bind, pure, Except.pure]
  unfold readEscape
  simpa using hunits.widen _

theorem readChars_backslash {k : Bool} {c : Char} {cs s t : List Char}
    (he : Reads (readEscape k t) c s) (h : Reads (readChars k s) cs r) :
    Reads (readChars k ('\\' :: t)) (c :: cs) r := by
  obtain ⟨hlt, he⟩ := he
  obtain ⟨hlt', hread⟩ := h
  rw [readChars]
  simp only [Char.reduceEq, ↓reduceIte, he, hread, bind, Except.bind, pure, Except.pure]
  exact ⟨_, rfl⟩

theorem readChars_plain {k : Bool} {c : Char} {cs s : List Char} (h₁ : c ≠ '"') (h₂ : c ≠ '\\')
    (h₃ : 32 ≤ c.toNat) (h : Reads (readChars k s) cs r) :
    Reads (readChars k (c :: s)) (c :: cs) r := by
  obtain ⟨hlt, hread⟩ := h
  rw [readChars]
  simp only [if_neg h₁, if_neg h₂, if_neg (Nat.not_lt.2 h₃), hread, bind, Except.bind, pure,
    Except.pure]
  exact ⟨_, rfl⟩

theorem escape_cases (c : Char) :
    (∃ e, Document.escape c = ['\\', e] ∧ ∀ s, Reads (readEscape false (e :: s)) c s) ∨
      (c.toNat < 32 ∧ Document.escape c = ['\\', 'u', '0', '0', Nat.digitChar (c.toNat / 16),
        Nat.digitChar (c.toNat % 16)]) ∨
      (Document.escape c = [c] ∧ c ≠ '"' ∧ c ≠ '\\' ∧ ¬ c.toNat < 32) := by
  have hletter {e d : Char} (he : ∀ s, Reads (readEscape false (e :: s)) d s) (hc : c = d) :
      ∃ e', ['\\', e] = ['\\', e'] ∧ ∀ s, Reads (readEscape false (e' :: s)) c s :=
    ⟨e, rfl, hc ▸ he⟩
  unfold Document.escape
  split_ifs with h₁ h₂ h₃ h₄ h₅ h₆ h₇ h₈
  · exact .inl (hletter (fun s => ⟨by simp, rfl⟩) h₁)
  · exact .inl (hletter (fun s => ⟨by simp, rfl⟩) h₂)
  · exact .inl (hletter (d := Char.ofNat 8) (fun s => ⟨by simp, rfl⟩) (Char.toNat_inj.1 h₃))
  · exact .inl (hletter (fun s => ⟨by simp, rfl⟩) h₄)
  · exact .inl (hletter (fun s => ⟨by simp, rfl⟩) h₅)
  · exact .inl (hletter (d := Char.ofNat 12) (fun s => ⟨by simp, rfl⟩) (Char.toNat_inj.1 h₆))
  · exact .inl (hletter (fun s => ⟨by simp, rfl⟩) h₇)
  · exact .inr (.inl ⟨h₈, rfl⟩)
  · exact .inr (.inr ⟨rfl, h₁, h₂, h₈⟩)

theorem readChars_escape (c : Char) {cs s : List Char} (h : Reads (readChars false s) cs r) :
    Reads (readChars false (Document.escape c ++ s)) (c :: cs) r := by
  rcases escape_cases c with ⟨e, heq, he⟩ | ⟨hc, heq⟩ | ⟨heq, h₁, h₂, h₃⟩
  · rw [heq]
    exact readChars_backslash (he s) h
  · rw [heq]
    exact readChars_backslash (readEscape_units hc s) h
  · rw [heq]
    exact readChars_plain h₁ h₂ (Nat.not_lt.1 h₃) h

theorem readChars_quoted (cs r : List Char) :
    Reads (readChars false (cs.flatMap Document.escape ++ '"' :: r)) cs r := by
  induction cs with
  | nil =>
    rw [List.flatMap_nil, List.nil_append, readChars]
    exact ⟨by simp, rfl⟩
  | cons c cs ih =>
    rw [List.flatMap_cons, List.append_assoc]
    exact readChars_escape c ih

end Strings

section Blanks

def Opens (c : Char) (r s : List Char) : Prop := skipSpace s = c :: r

theorem opens_cons {c : Char} (h : isSpace c = false) (r : List Char) : Opens c r (c :: r) := by
  simp [Opens, skipSpace, h]

theorem opens_blank {c b : Char} {r s : List Char} (hb : isSpace b = true) (h : Opens c r s) :
    Opens c r (b :: s) := by
  rw [Opens, skipSpace, List.dropWhile_cons_of_pos hb]
  exact h

theorem opens_newline {c : Char} {r s : List Char} (depth : Nat) (h : Opens c r s) :
    Opens c r (Document.newline depth ++ s) := by
  have hblanks (n : Nat) : Opens c r (List.replicate n ' ' ++ s) := by
    induction n with
    | zero => exact h
    | succ n ih => exact opens_blank rfl ih
  exact opens_blank rfl (hblanks _)

theorem Opens.readMark {c : Char} {r s : List Char} (h : Opens c r s) : Reads (readMark s) c r := by
  unfold Report.readMark
  split
  · rename_i hnil
    exact absurd (h.symm.trans hnil) (List.cons_ne_nil _ _)
  · rename_i c' r' hcons
    obtain ⟨rfl, rfl⟩ := List.cons.inj (h.symm.trans hcons)
    exact ⟨_, rfl⟩

theorem opens_quote (x : String) (r : List Char) :
    Opens '"' (x.toList.flatMap Document.escape ++ '"' :: r) (Document.quote x ++ r) := by
  have hquote : Document.quote x ++ r =
      '"' :: (x.toList.flatMap Document.escape ++ '"' :: r) := by
    simp [Document.quote]
  rw [hquote]
  exact opens_cons rfl _

end Blanks

section Lists

variable {r s t u : List Char} {x : String} {xs : List String}

theorem readText_of_opens
    (h : Opens '"' (x.toList.flatMap Document.escape ++ '"' :: r) s) : Reads (readText s) x r := by
  obtain ⟨hlt, hmark⟩ := h.readMark
  obtain ⟨hlt', hchars⟩ := readChars_quoted x.toList r
  unfold readText
  simp only [hmark, hchars, bind, Except.bind, Except.map, ↓reduceIte, Front.map,
    String.ofList_toList]
  exact ⟨_, rfl⟩

theorem readTextItems_end {first : Bool} (h : Opens ']' r s) :
    Reads (readTextItems first s) [] r := by
  obtain ⟨hlt, hmark⟩ := h.readMark
  rw [readTextItems]
  simp only [hmark, bind, Except.bind, ↓reduceIte, pure, Except.pure]
  exact ⟨_, rfl⟩

theorem readTextItems_first {q : List Char} (h : Opens '"' q s) (hx : Reads (readText s) x t)
    (hxs : Reads (readTextItems false t) xs r) : Reads (readTextItems true s) (x :: xs) r := by
  obtain ⟨hlt, hmark⟩ := h.readMark
  obtain ⟨hlt', hx⟩ := hx
  obtain ⟨hlt'', hxs⟩ := hxs
  rw [readTextItems]
  simp only [hmark, hx, hxs, bind, Except.bind, Char.reduceEq, ↓reduceIte, pure, Except.pure]
  exact ⟨_, rfl⟩

theorem readTextItems_next (h : Opens ',' u s) (hx : Reads (readText u) x t)
    (hxs : Reads (readTextItems false t) xs r) : Reads (readTextItems false s) (x :: xs) r := by
  obtain ⟨hlt, hmark⟩ := h.readMark
  obtain ⟨hlt', hx⟩ := hx
  obtain ⟨hlt'', hxs⟩ := hxs
  rw [readTextItems]
  simp only [hmark, hx, hxs, bind, Except.bind, Char.reduceEq, ↓reduceIte, pure, Except.pure,
    Bool.false_eq_true]
  exact ⟨_, rfl⟩

theorem readTextItems_written (depth : Nat) (xs : List String) (r : List Char) :
    Reads (readTextItems false (Document.writeItems depth (xs.map .text) ++ r)) xs r := by
  induction xs with
  | nil =>
    rw [List.map_nil, Document.writeItems, List.append_assoc]
    exact readTextItems_end (opens_newline depth (opens_cons rfl r))
  | cons x xs ih =>
    have hwrite : Document.writeItems depth ((x :: xs).map .text) ++ r =
        ',' :: (Document.newline (depth + 1) ++ (Document.quote x ++
          (Document.writeItems depth (xs.map .text) ++ r))) := by
      simp [Document.writeItems, Document.write]
    rw [hwrite]
    refine readTextItems_next (opens_cons rfl _) (readText_of_opens ?_) ih
    exact opens_newline (depth + 1) (opens_quote x _)

theorem readTexts_of_opens {xs : List String} {depth : Nat} {r s : List Char}
    (hs : ∃ u, Document.write depth (texts xs) ++ r = '[' :: u ∧ Opens '[' u s) :
    Reads (readTexts s) xs r := by
  obtain ⟨u, hu, hs⟩ := hs
  have hitems : Reads (readTextItems true u) xs r := by
    cases xs with
    | nil =>
      obtain rfl : u = ']' :: r := by
        simp only [texts, List.map_nil, Document.write] at hu
        exact (List.cons.inj hu).2.symm
      exact readTextItems_end (opens_cons rfl r)
    | cons x xs =>
      simp only [texts, List.map_cons, Document.write, List.append_assoc, List.cons_append] at hu
      obtain rfl := (List.cons.inj hu).2
      have hopens := opens_newline (depth + 1)
        (opens_quote x (Document.writeItems depth (xs.map .text) ++ r))
      exact readTextItems_first hopens (readText_of_opens hopens) (readTextItems_written depth xs r)
  obtain ⟨hlt, hmark⟩ := hs.readMark
  unfold readTexts
  simp only [hmark, bind, Except.bind, ↓reduceIte]
  exact hitems.widen _

end Lists

section Members

theorem readColon_written (r : List Char) : Reads (readColon (':' :: ' ' :: r)) () (' ' :: r) := by
  obtain ⟨hlt, hmark⟩ := (opens_cons (c := ':') rfl (' ' :: r)).readMark
  unfold readColon
  simp only [hmark, bind, Except.bind, ↓reduceIte, pure, Except.pure]
  exact ⟨_, rfl⟩

variable {r s t u : List Char}

theorem readKey_end {first : Bool} (h : Opens '\x7d' r s) : Reads (readKey first s) none r := by
  obtain ⟨hlt, hmark⟩ := h.readMark
  unfold readKey
  simp only [hmark, bind, Except.bind, ↓reduceIte, pure, Except.pure]
  exact ⟨_, rfl⟩

theorem readKey_first {key : String}
    (h : Opens '"' (key.toList.flatMap Document.escape ++ '"' :: r) s) :
    Reads (readKey true s) (some key.toList) r := by
  obtain ⟨hlt, hmark⟩ := h.readMark
  obtain ⟨hlt', hchars⟩ := readChars_quoted key.toList r
  unfold readKey
  simp only [hmark, hchars, bind, Except.bind, Except.map, Char.reduceEq, ↓reduceIte]
  exact ⟨_, rfl⟩

theorem readKey_next {key : String} (h : Opens ',' u s)
    (hu : Opens '"' (key.toList.flatMap Document.escape ++ '"' :: r) u) :
    Reads (readKey false s) (some key.toList) r := by
  obtain ⟨hlt, hmark⟩ := h.readMark
  obtain ⟨hlt', hmark'⟩ := hu.readMark
  obtain ⟨hlt'', hchars⟩ := readChars_quoted key.toList r
  unfold readKey
  simp only [hmark, hmark', hchars, bind, Except.bind, Except.map, Char.reduceEq, ↓reduceIte,
    Bool.false_eq_true]
  exact ⟨_, rfl⟩

variable {d : Draft} {first : Bool} {m : Members}

theorem readMembersRows_end (h : Reads (readKey first s) none r) (hd : d.members? = some m) :
    Reads (readMembersRows d first s) m r := by
  obtain ⟨hlt, hkey⟩ := h
  rw [readMembersRows]
  simp only [hkey, hd, bind, Except.bind, pure, Except.pure]
  exact ⟨_, rfl⟩

theorem readMembersRows_list {key : List Char} {xs : List String}
    (h : Reads (readKey first s) (some key) (':' :: ' ' :: t)) (hkey : isListKey key = true)
    (hd : d.has key = false) (hxs : Reads (readTexts (' ' :: t)) xs u)
    (hrest : Reads (readMembersRows (d.set key xs) false u) m r) :
    Reads (readMembersRows d first s) m r := by
  obtain ⟨hlt, hk⟩ := h
  obtain ⟨hlt', hcolon⟩ := readColon_written t
  obtain ⟨hlt'', hxs⟩ := hxs
  rw [readMembersRows]
  simp only [hk, hd, hcolon, hkey, hxs, bind, Except.bind, ↓reduceIte, Bool.false_eq_true]
  exact hrest.widen _

theorem opens_texts (depth : Nat) (xs : List String) (r : List Char) :
    ∃ u, Document.write depth (texts xs) ++ r = '[' :: u ∧
      Opens '[' u (' ' :: (Document.write depth (texts xs) ++ r)) := by
  have hwrite : ∃ u, Document.write depth (texts xs) = '[' :: u := by
    cases xs with
    | nil => exact ⟨_, rfl⟩
    | cons x xs =>
      simp only [texts, List.map_cons, Document.write, List.cons_append]
      exact ⟨_, rfl⟩
  obtain ⟨u, hu⟩ := hwrite
  refine ⟨u ++ r, by rw [hu]; rfl, ?_⟩
  rw [hu]
  exact opens_blank rfl (opens_cons rfl _)

theorem ofList_toList (deps : Std.ExtTreeSet String) :
    Std.ExtTreeSet.ofList deps.toList = deps := by
  apply Std.ExtTreeSet.ext_mem
  intro x
  rw [Std.ExtTreeSet.mem_ofList, List.contains_iff_mem, Std.ExtTreeSet.mem_toList]

theorem Draft.set_methods (d : Draft) (xs : List String) :
    d.set "methods".toList xs = { d with methods := some xs } := rfl

theorem Draft.set_fields (d : Draft) (xs : List String) :
    d.set "fields".toList xs = { d with fields := some xs } := rfl

theorem Draft.set_dependencies (d : Draft) (xs : List String) :
    d.set "dependencies".toList xs = { d with dependencies := some xs } := rfl

theorem readMembers_written (depth : Nat) (m : Members) (r : List Char) :
    Reads (readMembers (' ' :: (Document.write depth (ofMembers m) ++ r))) m r := by
  obtain ⟨methods, fields, deps⟩ := m
  -- The rows are read from the last one back, so that each finds what is read behind it.
  let row (key : String) (xs : List String) (behind : List Char) : List Char :=
    Document.newline (depth + 1) ++ (Document.quote key ++ (':' :: ' ' ::
      (Document.write (depth + 1) (texts xs) ++ behind)))
  let closing : List Char := Document.newline depth ++ ('\x7d' :: r)
  have hwrite : Document.write depth (ofMembers ⟨methods, fields, deps⟩) ++ r =
      '\x7b' :: row "methods" methods (',' :: row "fields" fields
        (',' :: row "dependencies" deps.toList closing)) := by
    simp [row, closing, ofMembers, Document.write, Document.writeRows, Document.writeRow]
  have hend : Reads (readMembersRows ⟨some methods, some fields, some deps.toList⟩ false closing)
      ⟨methods, fields, deps⟩ r :=
    readMembersRows_end (readKey_end (opens_newline depth (opens_cons rfl r)))
      (by rw [Draft.members?, ofList_toList])
  have hdeps : Reads (readMembersRows ⟨some methods, some fields, none⟩ false
      (',' :: row "dependencies" deps.toList closing)) ⟨methods, fields, deps⟩ r := by
    refine readMembersRows_list (readKey_next (opens_cons rfl _)
      (opens_newline (depth + 1) (opens_quote "dependencies" _))) (by decide) rfl
      (readTexts_of_opens (opens_texts (depth + 1) deps.toList closing)) ?_
    rw [Draft.set_dependencies]
    exact hend
  have hfields : Reads (readMembersRows ⟨some methods, none, none⟩ false
      (',' :: row "fields" fields (',' :: row "dependencies" deps.toList closing)))
      ⟨methods, fields, deps⟩ r := by
    refine readMembersRows_list (readKey_next (opens_cons rfl _)
      (opens_newline (depth + 1) (opens_quote "fields" _))) (by decide) rfl
      (readTexts_of_opens (opens_texts (depth + 1) fields _)) ?_
    rw [Draft.set_fields]
    exact hdeps
  have hmethods : Reads (readMembersRows {} true (row "methods" methods
      (',' :: row "fields" fields (',' :: row "dependencies" deps.toList closing))))
      ⟨methods, fields, deps⟩ r := by
    refine readMembersRows_list (readKey_first
      (opens_newline (depth + 1) (opens_quote "methods" _))) (by decide) rfl
      (readTexts_of_opens (opens_texts (depth + 1) methods _)) ?_
    rw [Draft.set_methods]
    exact hfields
  obtain ⟨hlt, hmark⟩ := (opens_blank (b := ' ') rfl (opens_cons (c := '\x7b') rfl
    (row "methods" methods (',' :: row "fields" fields
      (',' :: row "dependencies" deps.toList closing))))).readMark
  rw [hwrite]
  unfold readMembers
  simp only [hmark, bind, Except.bind, Char.reduceEq, ↓reduceIte]
  exact hmethods.widen _

end Members

section Records

variable {r s t u : List Char} {records read : Records}

theorem readRows_end {first : Bool} (h : Reads (readKey first s) none r) :
    Reads (readRows records first s) records r := by
  obtain ⟨hlt, hkey⟩ := h
  rw [readRows]
  simp only [hkey, bind, Except.bind, pure, Except.pure]
  exact ⟨_, rfl⟩

theorem readRows_row {first : Bool} {key : String} {m : Members}
    (h : Reads (readKey first s) (some key.toList) (':' :: ' ' :: t))
    (hm : Reads (readMembers (' ' :: t)) m u)
    (hrest : Reads (readRows (records.put key m).2 false u) read r) :
    Reads (readRows records first s) read r := by
  obtain ⟨hlt, hkey⟩ := h
  obtain ⟨hlt', hcolon⟩ := readColon_written t
  obtain ⟨hlt'', hm⟩ := hm
  rw [readRows]
  simp only [hkey, hcolon, hm, bind, Except.bind, String.ofList_toList]
  exact hrest.widen _

def rowOf (e : String × Members) : String × Document := (e.1, ofMembers e.2)

theorem writeRow_append (e : String × Members) (r : List Char) :
    Document.newline 1 ++ (Document.writeRow 0 (rowOf e) ++ r) =
      Document.newline 1 ++ (Document.quote e.1 ++
        (':' :: ' ' :: (Document.write 1 (ofMembers e.2) ++ r))) := by
  simp [rowOf, Document.writeRow]

theorem readRows_written (records : Records) (rows : List (String × Members)) (r : List Char) :
    Reads (readRows records false (Document.writeRows 0 (rows.map rowOf) ++ r))
      (records.putAll rows) r := by
  induction rows generalizing records with
  | nil =>
    rw [List.map_nil, Document.writeRows, List.append_assoc]
    exact readRows_end (readKey_end (opens_newline 0 (opens_cons rfl r)))
  | cons e rows ih =>
    have hwrite : Document.writeRows 0 ((e :: rows).map rowOf) ++ r =
        ',' :: (Document.newline 1 ++ (Document.writeRow 0 (rowOf e) ++
          (Document.writeRows 0 (rows.map rowOf) ++ r))) := by
      simp [Document.writeRows]
    rw [hwrite, writeRow_append]
    exact readRows_row (readKey_next (opens_cons rfl _) (opens_newline 1 (opens_quote e.1 _)))
      (readMembers_written 1 e.2 _) (ih (records.put e.1 e.2).2)

/-- Reading what was written, with any blanks behind it, gives the records. -/
theorem load_of_toList_eq (records : Records) {text : String} {blanks : List Char}
    (ht : text.toList = (render records).toList ++ blanks) (hb : skipSpace blanks = []) :
    load text = .ok records := by
  obtain ⟨behind, hwrite, hread⟩ : ∃ behind,
      Document.write 0 (.table (records.toList.map rowOf)) ++ blanks = '\x7b' :: behind ∧
        Reads (readRows ∅ true behind) ((∅ : Records).putAll records.toList) blanks := by
    cases records.toList with
    | nil => exact ⟨_, rfl, readRows_end (readKey_end (opens_cons rfl _))⟩
    | cons e rows =>
      refine ⟨Document.newline 1 ++ (Document.writeRow 0 (rowOf e) ++
        (Document.writeRows 0 (rows.map rowOf) ++ blanks)), by simp [Document.write], ?_⟩
      rw [writeRow_append]
      exact readRows_row (readKey_first (opens_newline 1 (opens_quote e.1 _)))
        (readMembers_written 1 e.2 _) (readRows_written _ rows _)
  have htext : text.toList = '\x7b' :: behind := by
    rw [ht, ← hwrite, render, Document.render, String.toList_ofList]
    rfl
  have hopens : Opens '\x7b' behind text.toList := by
    rw [htext]
    exact opens_cons rfl behind
  obtain ⟨hlt, hmark⟩ := hopens.readMark
  obtain ⟨hlt', hread⟩ := hread
  unfold load
  simp only [hmark, hread, hb, bind, Except.bind, ↓reduceIte, Records.putAll_toList]
  rfl

theorem load_fileText (records : Records) : load (fileText records) = .ok records :=
  load_of_toList_eq records (String.toList_append ..) rfl

/-- Every report is read back to its own records, from its text alone and from its file, which
holds the text and a line feed. -/
theorem load_render_and_fileText (records : Records) :
    load (render records) = .ok records ∧ fileText records = render records ++ "\n" ∧
      load (render records ++ "\n") = .ok records := by
  refine ⟨?_, rfl, ?_⟩
  · exact load_of_toList_eq records (List.append_nil _).symm rfl
  · exact load_fileText records

end Records

end MemberIndex.Report
