import Mathlib.Data.List.Basic
import MemberIndex.Proofs.Members.LongestNames
import MemberIndex.Proofs.Members.Listing

/-! # The names of a raw line

The names that are found in the text of a raw line are the longest ones that its bytes spell.
Bytes that are no characters leave something between the names on their two sides, and take
nothing of them.
-/

namespace MemberIndex.QualifiedName

open Text (Utf8.encode Utf8.decodeFrom)

variable {as bs raw : List UInt8} {cs w : List Char} {c : Char}

def ofByte (b : UInt8) : Char :=
  Char.ofNat b.toNat

theorem toNat_ofByte (b : UInt8) : (ofByte b).toNat = b.toNat := by
  have := b.toNat_lt
  exact Text.Utf8.toNat_ofNat (.inl (by omega))

theorem ofByte_injective : Function.Injective ofByte := by
  intro b c h
  rw [← UInt8.toNat_inj, ← toNat_ofByte, ← toNat_ofByte, h]

theorem map_ofByte_injective : Function.Injective (List.map ofByte) :=
  List.map_injective_iff.2 ofByte_injective

/-! ## What parts names -/

def Parts (c : Char) : Prop :=
  isNameChar c = false ∧ c ≠ '.'

theorem toNat_lt_of_isNameChar (h : isNameChar c = true) : 0 < c.toNat ∧ c.toNat < 128 := by
  have hle (d : Char) : d ≤ c ↔ d.toNat ≤ c.toNat := Iff.rfl
  have hge (d : Char) : c ≤ d ↔ c.toNat ≤ d.toNat := Iff.rfl
  simp [isNameChar, isNameStart, hle, hge] at h
  rcases h with (((hlower | hupper) | rfl) | rfl) | hdigit
  · omega
  · omega
  · decide
  · decide
  · omega

theorem parts_of_stray (h : Text.Utf8.Stray c) : Parts c := by
  have hnot : ¬ (0 < c.toNat ∧ c.toNat < 128) := by
    rcases h with h | h <;> omega
  constructor
  · by_contra hname
    exact hnot (toNat_lt_of_isNameChar (by simpa using hname))
  · rintro rfl
    exact hnot (by decide)

theorem parts_of_toNat_eq {b : UInt8} (hb : ¬ b < 0x80) (h : c.toNat = b.toNat) : Parts c := by
  have hge : 128 ≤ b.toNat := UInt8.le_iff_toNat_le.1 (UInt8.not_lt.1 hb)
  exact parts_of_stray (.inr (h ▸ hge))

theorem findAll_append_of_parts (hcs : ∀ c ∈ cs, Parts c) (ds : List Char) :
    findAll (cs ++ ds) = findAll ds := by
  induction cs with
  | nil => rfl
  | cons c cs ih =>
    obtain ⟨hc, hdot⟩ := hcs c List.mem_cons_self
    have hrest := ih fun d hd => hcs d (List.mem_cons_of_mem _ hd)
    have h := findAll_append hc hdot [] (cs ++ ds)
    rw [findAll, List.nil_append, List.nil_append, hrest] at h
    exact h

theorem findAll_append_append (hne : w ≠ []) (hw : ∀ c ∈ w, Parts c) (cs ds : List Char) :
    findAll (cs ++ (w ++ ds)) = findAll cs ++ findAll ds := by
  obtain ⟨c, v, rfl⟩ := List.exists_cons_of_ne_nil hne
  obtain ⟨hc, hdot⟩ := hw c List.mem_cons_self
  rw [List.cons_append, findAll_append hc hdot,
    findAll_append_of_parts fun d hd => hw d (List.mem_cons_of_mem _ hd)]

/-! ## Decoding changes no name -/

theorem decodeFrom_append_of_ascii (has : ∀ b ∈ as, b < 0x80) (bs : List UInt8) :
    Utf8.decodeFrom none (as ++ bs) = as.map ofByte ++ Utf8.decodeFrom none bs := by
  induction as with
  | nil => rfl
  | cons b as ih =>
    have hrest := ih fun c hc => has c (List.mem_cons_of_mem _ hc)
    have h := Text.Utf8.decodeFrom_append_ascii [] (as ++ bs) (has b List.mem_cons_self)
    rw [hrest] at h
    exact h

theorem parts_of_mem_decodeFrom (has : ∀ b ∈ as, ¬ b < 0x80) :
    ∀ c ∈ Utf8.decodeFrom none as, Parts c := by
  intro c hc
  rcases Text.Utf8.exists_byte_of_mem hc with h | ⟨b, hb, h⟩
  · exact parts_of_stray h
  · exact parts_of_toNat_eq (has b hb) h

theorem parts_of_mem_map_ofByte (has : ∀ b ∈ as, ¬ b < 0x80) : ∀ c ∈ as.map ofByte, Parts c := by
  intro c hc
  obtain ⟨b, hb, rfl⟩ := List.mem_map.1 hc
  exact parts_of_toNat_eq (has b hb) (toNat_ofByte b)

theorem decodeFrom_append_of_head (as : List UInt8) (h : ∀ b, bs.head? = some b → b < 0x80) :
    Utf8.decodeFrom none (as ++ bs) = Utf8.decodeFrom none as ++ Utf8.decodeFrom none bs := by
  cases bs with
  | nil => simp [Utf8.decodeFrom]
  | cons b bs =>
    rw [Text.Utf8.decodeFrom_append_ascii as bs (h b rfl)]
    exact congrArg _ (Text.Utf8.decodeFrom_append_ascii [] bs (h b rfl)).symm

theorem bytes_cases (raw : List UInt8) : (∀ b ∈ raw, b < 0x80) ∨ ∃ as run bs,
    raw = as ++ (run ++ bs) ∧ (∀ b ∈ as, b < 0x80) ∧ run ≠ [] ∧ (∀ b ∈ run, ¬ b < 0x80) ∧
      ∀ b, bs.head? = some b → b < 0x80 := by
  have hsplit := List.takeWhile_append_dropWhile (p := (· < 0x80)) (l := raw)
  have hlow : ∀ b ∈ raw.takeWhile (· < 0x80), b < 0x80 := by
    intro b hb
    simpa using List.mem_takeWhile_imp hb
  cases hrest : raw.dropWhile (· < 0x80) with
  | nil =>
    rw [hrest, List.append_nil] at hsplit
    exact .inl (hsplit ▸ hlow)
  | cons c rest =>
    right
    have hc : ¬ c < 0x80 := by
      have := List.head?_dropWhile_not (fun b : UInt8 => decide (b < 0x80)) raw
      rw [hrest] at this
      simpa using this
    refine ⟨_, (c :: rest).takeWhile (¬ · < 0x80), (c :: rest).dropWhile (¬ · < 0x80), ?_, hlow,
      by simp [hc], ?_, ?_⟩
    · rw [List.takeWhile_append_dropWhile, ← hrest, hsplit]
    · intro b hb
      simpa using List.mem_takeWhile_imp hb
    · intro b hb
      have := List.head?_dropWhile_not (fun b : UInt8 => decide (¬ b < 0x80)) (c :: rest)
      rw [hb] at this
      simpa using this

/-- The names of decoded bytes are those of the bytes. -/
theorem findAll_decodeFrom (raw : List UInt8) :
    findAll (Utf8.decodeFrom none raw) = findAll (raw.map ofByte) := by
  induction hn : raw.length using Nat.strongRecOn generalizing raw with
  | _ n ih =>
    subst hn
    rcases bytes_cases raw with hlow | ⟨as, run, bs, rfl, has, hne, hrun, hbs⟩
    · have h := decodeFrom_append_of_ascii hlow []
      rw [List.append_nil, Utf8.decodeFrom, List.append_nil] at h
      rw [h]
    · have hlt : bs.length < (as ++ (run ++ bs)).length := by
        have := List.length_pos_iff.2 hne
        simp only [List.length_append]
        omega
      -- bytes that are no characters leave something between what stands on their two sides
      have hdecoded : Utf8.decodeFrom none run ≠ [] :=
        fun h => hne (Text.Utf8.decodeFrom_eq_nil h).2
      rw [decodeFrom_append_of_ascii has, decodeFrom_append_of_head run hbs,
        findAll_append_append hdecoded (parts_of_mem_decodeFrom hrun), ih _ hlt bs rfl,
        List.map_append, List.map_append,
        findAll_append_append (by simpa using hne) (parts_of_mem_map_ofByte hrun)]

/-! ## Where the bytes spell a name -/

/-- A name is spelled by the bytes of a line that stand between two parts of it. -/
def SpelledIn (raw before : List UInt8) (name : String) (after : List UInt8) : Prop :=
  raw = before ++ (Utf8.encode name ++ after) ∧ IsQualified name.toList

/-- A name is spelled there, and none by bytes that hold these and more. -/
structure LongestSpelledIn (raw before : List UInt8) (name : String) (after : List UInt8) :
    Prop where
  spelled : SpelledIn raw before name after
  longest : ∀ b n a, SpelledIn raw b n a → b.length ≤ before.length → a.length ≤ after.length →
    b = before ∧ a = after

variable {before after : List UInt8} {name : String}

theorem IsIdentifier.toNat_lt (hw : IsIdentifier w) : ∀ c ∈ w, c.toNat < 128 :=
  fun c hc => (toNat_lt_of_isNameChar (hw.isNameChar_of_mem c hc)).2

theorem IsIdentifier.toNat_lt_append {v : List Char} (hw : IsIdentifier w)
    (hv : ∀ c ∈ v, c.toNat < 128) : ∀ c ∈ w ++ '.' :: v, c.toNat < 128 := by
  intro c hc
  rcases List.mem_append.1 hc with hc | hc
  · exact hw.toNat_lt c hc
  · rcases List.mem_cons.1 hc with rfl | hc
    · decide
    · exact hv c hc

theorem IsQualified.toNat_lt (hw : IsQualified w) : ∀ c ∈ w, c.toNat < 128 := by
  induction hw with
  | two hu hv => exact hu.toNat_lt_append hv.toNat_lt
  | cons hu _ ih => exact hu.toNat_lt_append ih

theorem map_ofByte_encode (h : IsQualified name.toList) :
    (Utf8.encode name).map ofByte = name.toList := by
  have hlow := h.toNat_lt
  rw [Utf8.encode]
  generalize name.toList = cs at hlow
  induction cs with
  | nil => rfl
  | cons c cs ih =>
    have hc : c.toNat < 128 := hlow c List.mem_cons_self
    have henc : String.utf8EncodeChar c = [UInt8.ofNat c.toNat] := if_pos (Nat.le_of_lt_succ hc)
    have hbyte : ofByte (UInt8.ofNat c.toNat) = c := by
      rw [ofByte, UInt8.toNat_ofNat', Nat.mod_eq_of_lt (by omega), Char.ofNat_toNat]
    rw [List.flatMap_cons, henc, List.map_append, List.map_singleton, hbyte,
      ih fun d hd => hlow d (List.mem_cons_of_mem _ hd), List.singleton_append]

def placeOf (before : List UInt8) (name : String) (after : List UInt8) : Place :=
  ⟨before.map ofByte, name.toList, after.map ofByte⟩

theorem spelledIn_iff : SpelledIn raw before name after ↔
    (placeOf before name after).text = raw.map ofByte ∧ IsQualified name.toList := by
  apply and_congr_left
  intro h
  rw [Place.text, placeOf, ← map_ofByte_encode h, ← List.map_append, ← List.map_append,
    List.append_assoc, map_ofByte_injective.eq_iff, eq_comm]

/-- A name among the characters of the bytes is spelled by some of them. -/
theorem exists_placeOf {o : Place} (htext : o.text = raw.map ofByte) :
    ∃ before after, o = placeOf before (String.ofList o.word) after := by
  obtain ⟨front, after, -, hfront, hafter⟩ := List.map_eq_append_iff.1 htext.symm
  obtain ⟨before, -, -, hbefore, -⟩ := List.map_eq_append_iff.1 hfront
  refine ⟨before, after, ?_⟩
  rw [placeOf, hbefore, hafter, String.toList_ofList]

theorem longestSpelledIn_iff : LongestSpelledIn raw before name after ↔
    (placeOf before name after).IsLongestIn (raw.map ofByte) := by
  constructor
  · rintro ⟨hspelled, hlongest⟩
    obtain ⟨htext, hname⟩ := spelledIn_iff.1 hspelled
    refine ⟨htext, hname, ?_⟩
    intro o htext' hname' hin
    obtain ⟨b, a, ho⟩ := exists_placeOf htext'
    rw [ho] at htext' hin ⊢
    have hspelled' : SpelledIn raw b (String.ofList o.word) a :=
      spelledIn_iff.2 ⟨htext', by simpa using hname'⟩
    obtain ⟨rfl, rfl⟩ := hlongest b _ a hspelled' (by simpa [placeOf] using hin.1)
      (by simpa [placeOf] using hin.2)
    have hword := htext'.trans htext.symm
    simp only [Place.text, placeOf] at hword
    rw [placeOf, placeOf, List.append_cancel_left (List.append_cancel_right hword)]
  · rintro ⟨htext, hname, hlongest⟩
    refine ⟨spelledIn_iff.2 ⟨htext, hname⟩, ?_⟩
    intro b n a hspelled hb ha
    obtain ⟨htext', hname'⟩ := spelledIn_iff.1 hspelled
    have heq := hlongest _ htext' hname' ⟨by simpa [placeOf] using hb, by simpa [placeOf] using ha⟩
    obtain ⟨hbefore, -, hafter⟩ := Place.mk.inj heq
    exact ⟨map_ofByte_injective hbefore, map_ofByte_injective hafter⟩

end MemberIndex.QualifiedName

namespace MemberIndex.Members

open QualifiedName

theorem findAll_dropEnd {mark : UInt8} (hmark : Parts (ofByte mark)) (raw : List UInt8) :
    findAll ((Text.dropEnd mark raw).map ofByte) = findAll (raw.map ofByte) := by
  unfold Text.dropEnd
  split
  · rename_i hlast
    obtain ⟨bs, rfl⟩ := List.getLast?_eq_some_iff.1 hlast
    rw [List.dropLast_concat, List.map_append, List.map_singleton,
      findAll_append hmark.1 hmark.2, findAll, List.append_nil]
  · rfl

theorem namesIn_decodeLine (raw : List UInt8) :
    namesIn (Text.decodeLine raw) = (findAll (raw.map ofByte)).map String.ofList := by
  have hreturn : Parts (ofByte 13) := ⟨by decide, by decide⟩
  have hnewline : Parts (ofByte 10) := ⟨by decide, by decide⟩
  rw [namesIn, Text.decodeLine, Text.Utf8.decode, String.toList_ofList, findAll_decodeFrom,
    findAll_dropEnd hreturn, findAll_dropEnd hnewline]

/-- The text of a raw line adds to the dependencies the longest names that the bytes of the
line spell, those and no others, whatever bytes stand before, behind and between them. -/
theorem dependencies_of_raw (m : Members) (raw : List UInt8) (d : String) :
    d ∈ (m.scanLine (Text.decodeLine raw)).dependencies ↔
      d ∈ m.dependencies ∨ ∃ before after, LongestSpelledIn raw before d after := by
  obtain ⟨os, hfound, hlongest⟩ := findAll_spec (raw.map ofByte)
  rw [mem_dependencies_scanLine, namesIn_decodeLine, hfound, List.map_map, List.mem_map]
  apply or_congr_right
  constructor
  · rintro ⟨o, ho, rfl⟩
    have ho := (hlongest.mem_iff o).1 ho
    obtain ⟨before, after, heq⟩ := exists_placeOf ho.text
    rw [heq] at ho
    exact ⟨before, after, longestSpelledIn_iff.2 ho⟩
  · rintro ⟨before, after, h⟩
    refine ⟨_, (hlongest.mem_iff _).2 (longestSpelledIn_iff.1 h), ?_⟩
    exact String.ofList_toList

end MemberIndex.Members
