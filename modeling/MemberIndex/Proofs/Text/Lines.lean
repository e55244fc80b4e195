import Mathlib.Data.List.DropRight
import MemberIndex.Proofs.Text.Utf8
import MemberIndex.Text.Lines

/-! # Decoding line by line

Bytes may be cut at the line feeds before they are decoded or afterwards, and a carriage
return may be dropped before or afterwards. The lines that a pipe hands out are the lines
of the decoded output, but for a carriage return that no line feed follows.
-/

namespace MemberIndex.Text

namespace Utf8

theorem not_stray_newline : ¬ Stray '\n' := by
  rintro (h | h) <;> exact absurd h (by decide)

theorem not_stray_return : ¬ Stray '\r' := by
  rintro (h | h) <;> exact absurd h (by decide)

theorem mem_decodeFrom_iff {bytes : List UInt8} {c : Char} {b : UInt8}
    (hc : c = Char.ofNat b.toNat) (hb : b < 0x80) (hs : ¬ Stray c) :
    c ∈ decodeFrom none bytes ↔ b ∈ bytes := by
  constructor
  · intro h
    rcases exists_byte_of_mem h with h | ⟨b', hb', h⟩
    · exact absurd h hs
    · rw [hc, toNat_ofNat_byte b hb] at h
      obtain rfl : b = b' := UInt8.toNat_inj.1 h
      exact hb'
  · intro h
    obtain ⟨as, bs, rfl⟩ := List.append_of_mem h
    rw [decodeFrom_append_ascii as bs hb, ← hc]
    exact List.mem_append_right _ List.mem_cons_self

theorem newline_mem_iff {bytes : List UInt8} : '\n' ∈ decodeFrom none bytes ↔ 10 ∈ bytes :=
  mem_decodeFrom_iff rfl (by decide) not_stray_newline

theorem getLast?_eq_return_iff {bytes : List UInt8} :
    (decodeFrom none bytes).getLast? = some '\r' ↔ bytes.getLast? = some 13 := by
  rcases List.eq_nil_or_concat bytes with rfl | ⟨as, b, rfl⟩
  · simp [decodeFrom]
  · rw [List.concat_eq_append, List.getLast?_concat, Option.some.injEq]
    by_cases hlt : b < 0x80
    · rw [decodeFrom_append_ascii as [] hlt, decodeFrom, List.getLast?_concat, Option.some.injEq]
      constructor
      · intro h
        have h := congrArg Char.toNat h
        rw [toNat_ofNat_byte b hlt] at h
        exact UInt8.toNat_inj.1 h
      · rintro rfl
        rfl
    · have hge : 128 ≤ b.toNat := UInt8.le_iff_toNat_le.1 (UInt8.not_lt.1 hlt)
      obtain ⟨c, hc, hstray⟩ := exists_getLast_stray as hge
      rw [hc, Option.some.injEq]
      constructor
      · rintro rfl
        exact absurd hstray not_stray_return
      · rintro rfl
        exact absurd hge (by decide)

/-- A carriage return is dropped alike before decoding and afterwards. -/
theorem decodeFrom_dropEnd (bytes : List UInt8) :
    decodeFrom none (dropEnd 13 bytes) = dropEnd '\r' (decodeFrom none bytes) := by
  by_cases h : bytes.getLast? = some 13
  · obtain ⟨as, rfl⟩ := List.getLast?_eq_some_iff.1 h
    rw [decodeFrom_append_ascii as [] (by decide)]
    simp [dropEnd, decodeFrom]
  · rw [dropEnd, dropEnd, if_neg h, if_neg (mt getLast?_eq_return_iff.1 h)]

end Utf8

section Chunks

variable {α : Type} [DecidableEq α] {mark : α} {as : List α}

theorem chunks_of_notMem (h : mark ∉ as) (hne : as ≠ []) : chunks mark as = [as] := by
  induction as with
  | nil => exact absurd rfl hne
  | cons a as ih =>
    obtain ⟨ha, hrest⟩ := not_or.1 (mt List.mem_cons.2 h)
    rw [chunks, if_neg (Ne.symm ha)]
    cases as with
    | nil => rfl
    | cons b bs => rw [ih hrest (List.cons_ne_nil _ _)]

theorem chunks_append_cons (h : mark ∉ as) (bs : List α) :
    chunks mark (as ++ mark :: bs) = (as ++ [mark]) :: chunks mark bs := by
  induction as with
  | nil => simp [chunks]
  | cons a as ih =>
    obtain ⟨ha, hrest⟩ := not_or.1 (mt List.mem_cons.2 h)
    rw [List.cons_append, chunks, if_neg (Ne.symm ha), ih hrest]
    rfl

/-- What holds of the lists without the mark, and of a list as soon as it holds of what stands
behind the first mark, holds of all lists. -/
@[elab_as_elim]
theorem marks_induction (mark : α) {motive : List α → Prop} (last : ∀ as, mark ∉ as → motive as)
    (next : ∀ as bs, mark ∉ as → motive bs → motive (as ++ mark :: bs)) (as : List α) :
    motive as := by
  induction hn : as.length using Nat.strongRecOn generalizing as with
  | _ n ih =>
    subst hn
    by_cases h : mark ∈ as
    · obtain ⟨bs, cs, rfl, hbs⟩ := List.eq_append_cons_of_mem h
      have hlt : cs.length < (bs ++ mark :: cs).length := by
        simp only [List.length_append, List.length_cons]
        omega
      exact next bs cs hbs (ih _ hlt cs rfl)
    · exact last as h

theorem fields_of_notMem (h : mark ∉ as) : fields mark as = [as] := by
  induction as with
  | nil => rfl
  | cons a as ih =>
    obtain ⟨ha, hrest⟩ := not_or.1 (mt List.mem_cons.2 h)
    rw [fields, if_neg (Ne.symm ha), ih hrest]

theorem fields_ne_nil : fields mark as ≠ [] := by
  intro hnil
  have := length_fields mark as
  simp [hnil] at this

theorem fields_append_cons (as bs : List α) :
    fields mark (as ++ mark :: bs) = fields mark as ++ fields mark bs := by
  induction as with
  | nil => simp [fields]
  | cons a as ih =>
    rw [List.cons_append, fields, fields, ih]
    split
    · rfl
    · have hne : fields mark as ≠ [] := fields_ne_nil
      obtain ⟨piece, rest, hf⟩ := List.exists_cons_of_ne_nil hne
      rw [hf]
      rfl

theorem fields_intercalate {pieces : List (List α)} (h : ∀ piece ∈ pieces, mark ∉ piece)
    (hne : pieces ≠ []) : fields mark ([mark].intercalate pieces) = pieces := by
  induction pieces with
  | nil => exact absurd rfl hne
  | cons piece pieces ih =>
    have hpiece := fields_of_notMem (h piece List.mem_cons_self)
    cases pieces with
    | nil => rw [List.intercalate_singleton, hpiece]
    | cons next rest =>
      have hrest := ih (fun p hp => h p (List.mem_cons_of_mem _ hp)) (List.cons_ne_nil _ _)
      rw [List.intercalate_cons_cons, List.append_assoc, List.singleton_append,
        fields_append_cons, hpiece, hrest, List.singleton_append]

theorem eq_nil_of_fields (h : fields mark as = [[]]) : as = [] := by
  cases as with
  | nil => rfl
  | cons a as =>
    have hne : fields mark as ≠ [] := fields_ne_nil
    obtain ⟨piece, rest, hf⟩ := List.exists_cons_of_ne_nil hne
    rw [fields, hf] at h
    split at h <;> cases h

theorem notMem_of_mem_fields {piece : List α} (h : piece ∈ fields mark as) : mark ∉ piece := by
  induction as using marks_induction mark with
  | last as hnot =>
    rw [fields_of_notMem hnot, List.mem_singleton] at h
    rwa [h]
  | next as bs hnot ih =>
    rw [fields_append_cons, fields_of_notMem hnot, List.singleton_append, List.mem_cons] at h
    rcases h with rfl | h
    · exact hnot
    · exact ih h

theorem fields_append {before : List (List α)} {last bs : List α} (hbs : mark ∉ bs)
    (h : fields mark as = before ++ [last]) :
    fields mark (as ++ bs) = before ++ [last ++ bs] := by
  induction as generalizing before last with
  | nil =>
    obtain ⟨rfl, rfl⟩ : before = [] ∧ last = [] := by
      cases before with
      | nil => exact ⟨rfl, (List.cons.inj h).1.symm⟩
      | cons b before => simp [fields] at h
    exact fields_of_notMem hbs
  | cons a as ih =>
    have hne : fields mark as ≠ [] := fields_ne_nil
    rw [List.cons_append, fields]
    rw [fields] at h
    by_cases ha : a = mark
    · rw [if_pos ha] at h ⊢
      cases before with
      | nil => exact absurd (List.cons.inj h).2 hne
      | cons b before =>
        obtain ⟨rfl, hrest⟩ := List.cons.inj h
        rw [ih hrest]
        rfl
    · rw [if_neg ha] at h ⊢
      cases hf : fields mark as with
      | nil => exact absurd hf hne
      | cons piece rest =>
        rw [hf] at h
        cases before with
        | nil =>
          obtain ⟨rfl, rfl⟩ := List.cons.inj h
          rw [ih (show fields mark as = [] ++ [piece] from hf)]
          rfl
        | cons b before =>
          obtain ⟨rfl, rfl⟩ := List.cons.inj h
          rw [ih (show fields mark as = (piece :: before) ++ [last] from hf)]
          rfl

theorem mem_of_mem_dropEnd {a : α} (h : a ∈ dropEnd mark as) : a ∈ as := by
  unfold dropEnd at h
  split at h
  · exact (List.dropLast_sublist as).subset h
  · exact h

theorem notMem_dropEnd_of_mem_chunks {piece : List α} (h : piece ∈ chunks mark as) :
    mark ∉ dropEnd mark piece := by
  induction as using marks_induction mark with
  | last as hnot =>
    intro hmem
    have hpiece := mem_of_mem_dropEnd hmem
    apply hnot
    rw [← flatten_chunks mark as]
    exact List.mem_flatten.2 ⟨piece, h, hpiece⟩
  | next as bs has ih =>
    rw [chunks_append_cons has] at h
    rcases List.mem_cons.1 h with rfl | h
    · simpa [dropEnd] using has
    · exact ih h

end Chunks

/-- Cutting at line feeds and decoding may change places. -/
theorem chunks_decodeFrom (bytes : List UInt8) :
    chunks '\n' (Utf8.decodeFrom none bytes) = (chunks 10 bytes).map (Utf8.decodeFrom none) := by
  induction bytes using marks_induction (10 : UInt8) with
  | last bytes h =>
    by_cases hne : bytes = []
    · subst hne
      rfl
    · have hne' : Utf8.decodeFrom none bytes ≠ [] := fun h => hne (Utf8.decodeFrom_eq_nil h).2
      rw [chunks_of_notMem h hne, chunks_of_notMem (mt Utf8.newline_mem_iff.1 h) hne']
      rfl
  | next as bs h ih =>
    rw [chunks_append_cons h, Utf8.decodeFrom_append_ascii as bs (by decide)]
    change chunks '\n' (Utf8.decodeFrom none as ++ '\n' :: Utf8.decodeFrom none bs) = _
    rw [chunks_append_cons (mt Utf8.newline_mem_iff.1 h), ih, List.map_cons,
      Utf8.decodeFrom_append_ascii as [] (by decide)]
    rfl

theorem fields_decodeFrom (bytes : List UInt8) :
    fields '\n' (Utf8.decodeFrom none bytes) = (fields 10 bytes).map (Utf8.decodeFrom none) := by
  induction bytes using marks_induction (10 : UInt8) with
  | last bytes h =>
    rw [fields_of_notMem h, fields_of_notMem (mt Utf8.newline_mem_iff.1 h), List.map_singleton]
  | next as bs h ih =>
    rw [Utf8.decodeFrom_append_ascii as bs (by decide)]
    change fields '\n' (Utf8.decodeFrom none as ++ '\n' :: Utf8.decodeFrom none bs) = _
    rw [fields_append_cons, fields_append_cons, fields_of_notMem h,
      fields_of_notMem (mt Utf8.newline_mem_iff.1 h), ih, List.map_append, List.map_singleton]

theorem count_newline_decode (bytes : List UInt8) :
    (Utf8.decode bytes).toList.count '\n' = bytes.count 10 := by
  have hlength := congrArg List.length (fields_decodeFrom bytes)
  rw [List.length_map, length_fields, length_fields] at hlength
  rw [Utf8.decode, String.toList_ofList]
  exact Nat.succ.inj hlength

theorem count_newline_encode (s : String) : (Utf8.encode s).count 10 = s.toList.count '\n' := by
  rw [← count_newline_decode, Utf8.decode_encode]

theorem fields_encode {s : String} (h : '\n' ∉ s.toList) :
    fields 10 (Utf8.encode s) = [Utf8.encode s] := by
  apply fields_of_notMem
  rw [← List.count_eq_zero, count_newline_encode]
  exact List.count_eq_zero.2 h

theorem newline_notMem_pipeLines {bytes : List UInt8} {l : String} (h : l ∈ pipeLines bytes) :
    '\n' ∉ l.toList := by
  obtain ⟨raw, hraw, rfl⟩ := List.mem_map.1 h
  rw [decodeLine, Utf8.decode, String.toList_ofList, Utf8.newline_mem_iff]
  exact mt mem_of_mem_dropEnd (notMem_dropEnd_of_mem_chunks hraw)

theorem decodeLine_newline (as : List UInt8) :
    decodeLine (as ++ [10]) =
      String.ofList (unterminated (Utf8.decodeFrom none (as ++ [10]))) := by
  have hdrop : dropEnd 10 (as ++ [10]) = as := by simp [dropEnd]
  rw [decodeLine, Utf8.decode, hdrop, Utf8.decodeFrom_dropEnd,
    Utf8.decodeFrom_append_ascii as [] (by decide)]
  simp [unterminated, Utf8.decodeFrom]

theorem decodeLine_of_notMem {raw : List UInt8} (h : 10 ∉ raw) :
    decodeLine raw = String.ofList (dropEnd '\r' (Utf8.decodeFrom none raw)) := by
  have hdrop : dropEnd 10 raw = raw := if_neg fun hl => h (List.mem_of_getLast? hl)
  rw [decodeLine, Utf8.decode, hdrop, Utf8.decodeFrom_dropEnd]

theorem unterminated_of_notMem {raw : List UInt8} (h : 10 ∉ raw) :
    unterminated (Utf8.decodeFrom none raw) = Utf8.decodeFrom none raw :=
  if_neg fun hl => h (Utf8.newline_mem_iff.1 (List.mem_of_getLast? hl))

theorem lines_decode (bytes : List UInt8) :
    lines (Utf8.decode bytes) =
      (chunks 10 bytes).map fun raw =>
        String.ofList (unterminated (Utf8.decodeFrom none raw)) := by
  rw [lines, Utf8.decode, String.toList_ofList, chunks_decodeFrom, List.map_map]
  rfl

/-- What is read from a pipe that stays open are the lines of the bytes up to the last line feed. -/
theorem openPipeLines_eq_pipeLines (bytes : List UInt8) :
    openPipeLines bytes = pipeLines (bytes.rdropWhile (· ≠ 10)) := by
  rw [openPipeLines, pipeLines]
  congr 1
  induction bytes using marks_induction (10 : UInt8) with
  | last bytes h =>
    have hnone : bytes.rdropWhile (· ≠ 10) = [] := by
      rw [List.rdropWhile_eq_nil_iff]
      intro b hb
      simpa using ne_of_mem_of_not_mem hb h
    have hlast : bytes.getLast? ≠ some 10 := fun hl => h (List.mem_of_getLast? hl)
    by_cases hne : bytes = []
    · subst hne
      rfl
    · rw [hnone, chunks_of_notMem h hne]
      simp [hlast, chunks]
  | next as bs h ih =>
    have hmore : (as ++ 10 :: bs).rdropWhile (· ≠ 10) = as ++ 10 :: bs.rdropWhile (· ≠ 10) := by
      cases hbs : bs.reverse.dropWhile (· ≠ 10) <;>
        simp_all [List.rdropWhile, List.dropWhile_append]
    rw [hmore, chunks_append_cons h, chunks_append_cons h, List.filter_cons_of_pos (by simp), ih]

/-- The lines that are read from a closed pipe are the lines of the decoded bytes, but for
the carriage return that ends the last one of bytes that end in it. -/
theorem pipeLines_cases (bytes : List UInt8) :
    (bytes.getLast? ≠ some 13 ∧ lines (Utf8.decode bytes) = pipeLines bytes) ∨
      bytes.getLast? = some 13 ∧ ∃ before last, pipeLines bytes = before ++ [last] ∧
        lines (Utf8.decode bytes) = before ++ [last ++ "\r"] := by
  rw [lines_decode, pipeLines]
  induction bytes using marks_induction (10 : UInt8) with
  | last bytes h =>
    by_cases hne : bytes = []
    · subst hne
      exact .inl ⟨nofun, rfl⟩
    · rw [chunks_of_notMem h hne, List.map_singleton, List.map_singleton,
        unterminated_of_notMem h, decodeLine_of_notMem h, dropEnd]
      by_cases hr : bytes.getLast? = some 13
      · obtain ⟨cs, hcs⟩ := List.getLast?_eq_some_iff.1 (Utf8.getLast?_eq_return_iff.2 hr)
        refine .inr ⟨hr, [], String.ofList cs, ?_, ?_⟩
        · rw [hcs, if_pos (List.getLast?_concat ..), List.dropLast_concat, List.nil_append]
        · rw [hcs, List.nil_append, String.ofList_append]
      · rw [if_neg (mt Utf8.getLast?_eq_return_iff.1 hr)]
        exact .inl ⟨hr, rfl⟩
  | next as bs h ih =>
    have hlast : (as ++ 10 :: bs).getLast? = some 13 ↔ bs.getLast? = some 13 := by
      rw [List.getLast?_append, List.getLast?_cons]
      cases bs.getLast? <;> simp
    rw [chunks_append_cons h, List.map_cons, List.map_cons, decodeLine_newline, Ne, hlast]
    rcases ih with ⟨hr, heq⟩ | ⟨hr, before, last, hpipe, hlines⟩
    · exact .inl ⟨hr, by rw [heq]⟩
    · exact .inr ⟨hr, _ :: before, last, by rw [hpipe]; rfl, by rw [hlines]; rfl⟩

end MemberIndex.Text
