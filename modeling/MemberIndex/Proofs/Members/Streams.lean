import MemberIndex.Proofs.Members.Joining

/-! # Streams of lines

Reading takes one line after another from a stream, each into the block before it is scanned,
and stops at the end of the stream or at its first error. So it is told by the lines that the
stream has handed out until then, and what stands behind an error is left in the stream. A list
is one of the streams; others need not come to an end.
-/

namespace MemberIndex

/-- A stream of lines, by what it may hand out in each of its states and by its state behind
that: a line, an error, or `none` for its end. -/
abbrev LineStream (σ : Type) := σ → Option (Except TaskError String) → σ → Prop

namespace LineStream

variable {σ : Type} {next : LineStream σ} {m : Members} {b b' : Block} {s s' : σ}
  {r : Except TaskError Members} {lines rest : List (Except TaskError String)} {ls : List String}

def ofList : LineStream (List (Except TaskError String)) :=
  fun lines x rest => lines.head? = x ∧ lines.tail = rest

/-- The lines that a stream hands out between two of its states. -/
inductive HandsOut (next : LineStream σ) : σ → List String → σ → Prop
  | nil {s : σ} : HandsOut next s [] s
  | cons {s s' s'' : σ} {l : String} {ls : List String} (h : next s (some (.ok l)) s')
    (hs : HandsOut next s' ls s'') : HandsOut next s (l :: ls) s''

/-- What reading from a stream comes to: the members or the error, the block, and the state in
which it leaves the stream. -/
inductive Reads (next : LineStream σ) :
    Members → Block → σ → Except TaskError Members → Block → σ → Prop
  | ends {m : Members} {b : Block} {s s' : σ} (h : next s none s') : Reads next m b s (.ok m) b s'
  | fails {m : Members} {b : Block} {s s' : σ} {e : TaskError} (h : next s (some (.error e)) s') :
    Reads next m b s (.error e) b s'
  | line {m : Members} {b b' : Block} {s s' s'' : σ} {l : String} {r : Except TaskError Members}
    (h : next s (some (.ok l)) s') (hr : Reads next (m.scanLine l) (b.push l) s' r b' s'') :
    Reads next m b s r b' s''

/-- How a reading has ended behind the lines that were handed out. -/
def EndsAt (next : LineStream σ) (m : Members) (ls : List String) (mid : σ)
    (r : Except TaskError Members) (s' : σ) : Prop :=
  (next mid none s' ∧ r = .ok (ls.foldl Members.scanLine m)) ∨
    ∃ e, next mid (some (.error e)) s' ∧ r = .error e

theorem Reads.exists_handsOut (h : Reads next m b s r b' s') : ∃ ls mid,
    HandsOut next s ls mid ∧ b' = ⟨b.lines ++ ls⟩ ∧ EndsAt next m ls mid r s' := by
  induction h with
  | ends h => exact ⟨[], _, .nil, by simp, .inl ⟨h, rfl⟩⟩
  | fails h => exact ⟨[], _, .nil, by simp, .inr ⟨_, h, rfl⟩⟩
  | line h _ ih =>
    obtain ⟨ls, mid, hs, rfl, hend⟩ := ih
    exact ⟨_ :: ls, mid, .cons h hs, by simp [Block.push], hend⟩

theorem HandsOut.reads {mid : σ} (hs : HandsOut next s ls mid) (he : EndsAt next m ls mid r s') :
    Reads next m b s r ⟨b.lines ++ ls⟩ s' := by
  induction hs generalizing m b with
  | nil =>
    rw [List.append_nil]
    rcases he with ⟨h, rfl⟩ | ⟨e, h, rfl⟩
    · exact .ends h
    · exact .fails h
  | @cons _ _ _ l ls h _ ih =>
    have hread := ih (m := m.scanLine l) (b := b.push l) he
    have hblock : (b.push l).lines ++ ls = b.lines ++ l :: ls := by simp [Block.push]
    rw [hblock] at hread
    exact .line h hread

theorem reads_iff : Reads next m b s r b' s' ↔ ∃ ls mid,
    HandsOut next s ls mid ∧ b' = ⟨b.lines ++ ls⟩ ∧ EndsAt next m ls mid r s' := by
  constructor
  · exact Reads.exists_handsOut
  · rintro ⟨ls, mid, hs, rfl, he⟩
    exact hs.reads he

/-- What is carried out on a list is the reading of the list as a stream. -/
theorem reads_ofList_iff :
    Reads ofList m b lines r b' rest ↔ extract m b lines = ⟨r, b', rest⟩ := by
  constructor
  · intro h
    induction h with
    | @ends m b lines rest h =>
      obtain ⟨hhead, rfl⟩ := h
      rw [List.head?_eq_none_iff.1 hhead]
      rfl
    | @fails m b lines rest e h =>
      obtain ⟨hhead, rfl⟩ := h
      obtain ⟨rest, rfl⟩ := List.head?_eq_some_iff.1 hhead
      rfl
    | @line m b b' lines mid rest l r h _ ih =>
      obtain ⟨hhead, rfl⟩ := h
      obtain ⟨mid, rfl⟩ := List.head?_eq_some_iff.1 hhead
      exact ih
  · intro h
    fun_induction extract m b lines with
    | case1 m b =>
      cases h
      exact .ends ⟨rfl, rfl⟩
    | case2 m b e lines =>
      cases h
      exact .fails ⟨rfl, rfl⟩
    | case3 m b l lines ih => exact .line ⟨rfl, rfl⟩ (ih h)

end LineStream

namespace Members

theorem ofLines_eq_ofText {ls : List String} (h : ∀ l ∈ ls, '\n' ∉ l.toList) :
    ofLines ls = ofText ("\n".intercalate ls) := by
  rw [ofText_eq_ofPieces, String.toList_intercalate]
  by_cases hls : ls = []
  · subst hls
    exact (ofPieces_singleton []).trans ofLine_empty |>.symm
  · have hpieces : ∀ piece ∈ ls.map String.toList, '\n' ∉ piece := by simpa using h
    have hfields := Text.fields_intercalate hpieces (by simpa using hls)
    have hmark : "\n".toList = ['\n'] := rfl
    rw [hmark, hfields, ofPieces, List.map_map]
    simp [Function.comp_def]

end Members

namespace LineStream

theorem exists_lines {lines : List (Except TaskError String)} (h : ∀ e, .error e ∉ lines) :
    ∃ ls : List String, lines = ls.map .ok := by
  induction lines with
  | nil => exact ⟨[], rfl⟩
  | cons x lines ih =>
    obtain ⟨ls, rfl⟩ := ih fun e he => h e (List.mem_cons_of_mem x he)
    cases x with
    | error e => exact absurd List.mem_cons_self (h e)
    | ok l => exact ⟨l :: ls, rfl⟩

theorem exists_lines_of_first {lines : List (Except TaskError String)} {k : Nat} {e : TaskError}
    (he : lines[k]? = some (.error e)) (hfirst : ∀ j < k, ∀ e', lines[j]? ≠ some (.error e')) :
    ∃ ls : List String, ls.length = k ∧
      lines = ls.map .ok ++ .error e :: lines.drop (k + 1) := by
  obtain ⟨hk, hget⟩ := List.getElem?_eq_some_iff.1 he
  have hnone : ∀ e', .error e' ∉ lines.take k := by
    intro e' hmem
    obtain ⟨j, hj, hget'⟩ := List.mem_take_iff_getElem.1 hmem
    have hlt : j < k := Nat.lt_of_lt_of_le hj (Nat.min_le_left ..)
    exact hfirst j hlt e' (hget' ▸ List.getElem?_eq_getElem _)
  obtain ⟨ls, hls⟩ := exists_lines hnone
  refine ⟨ls, ?_, ?_⟩
  · have hlength := congrArg List.length hls
    rw [List.length_take_of_le (Nat.le_of_lt hk), List.length_map] at hlength
    exact hlength.symm
  · rw [← hls, ← hget, ← List.drop_eq_getElem_cons hk, List.take_append_drop]

/-- What is read from lines, whatever the block holds before: all lines if there is no error
among them, and otherwise those before the first error, which is the answer, and nothing behind
it. Lines without a line feed are recorded as the text that joins them is. From any other stream
reading takes what the stream hands out up to its end or its first error, as it does from a
list; it comes to an answer where the stream comes to one of these, and only there. -/
theorem reads_to_first_error (b : Block) :
    (∀ lines : List (Except TaskError String), (∀ e, .error e ∉ lines) →
      ∃ ls : List String, lines = ls.map .ok ∧
        extract ∅ b lines = ⟨.ok (ls.foldl Members.scanLine ∅), ⟨b.lines ++ ls⟩, []⟩ ∧
        ((∀ l ∈ ls, '\n' ∉ l.toList) →
          (extract ∅ b lines).result = .ok (Members.ofText ("\n".intercalate ls)))) ∧
    (∀ (lines : List (Except TaskError String)) (k : Nat) (e : TaskError),
      lines[k]? = some (.error e) → (∀ j < k, ∀ e', lines[j]? ≠ some (.error e')) →
        ∃ ls : List String, ls.length = k ∧
          lines = ls.map .ok ++ .error e :: lines.drop (k + 1) ∧
          extract ∅ b lines = ⟨.error e, ⟨b.lines ++ ls⟩, lines.drop (k + 1)⟩) ∧
    (∀ lines r b' rest, Reads ofList ∅ b lines r b' rest ↔ extract ∅ b lines = ⟨r, b', rest⟩) ∧
    ∀ (σ : Type) (next : LineStream σ) (s : σ) (r : Except TaskError Members) (b' : Block) (s' : σ),
      Reads next ∅ b s r b' s' ↔ ∃ ls mid, HandsOut next s ls mid ∧ b' = ⟨b.lines ++ ls⟩ ∧
        ((next mid none s' ∧ r = .ok (ls.foldl Members.scanLine ∅)) ∨
          ∃ e, next mid (some (.error e)) s' ∧ r = .error e) := by
  refine ⟨?_, ?_, fun _ _ _ _ => reads_ofList_iff, fun _ _ _ _ _ _ => reads_iff⟩
  · intro lines h
    obtain ⟨ls, rfl⟩ := exists_lines h
    have hread : extract ∅ b (ls.map .ok) =
        ⟨.ok (ls.foldl Members.scanLine ∅), ⟨b.lines ++ ls⟩, []⟩ := by
      have hlines := extract_ok ∅ b ls []
      rwa [List.append_nil] at hlines
    refine ⟨ls, rfl, hread, ?_⟩
    intro hplain
    rw [hread, ← Members.ofLines_eq_ofText hplain]
    rfl
  · intro lines k e he hfirst
    obtain ⟨ls, hlength, hlines⟩ := exists_lines_of_first he hfirst
    have hread := extract_ok ∅ b ls (.error e :: lines.drop (k + 1))
    rw [← hlines] at hread
    exact ⟨ls, hlength, hlines, hread⟩

theorem reads_to_first_error_of_broken :
    (∃ ls : List String, ls.length = 1 ∧
      extract ∅ ⟨["x"]⟩ [.ok " int a;", .error (.timeout ⟨0⟩), .ok " int b;"] =
        ⟨.error (.timeout ⟨0⟩), ⟨"x" :: ls⟩, [.ok " int b;"]⟩) ∧
    (extract ∅ ⟨["x"]⟩ [.ok " int a;"]).result = .ok (Members.ofText " int a;") := by
  obtain ⟨hall, hfirst, -⟩ := reads_to_first_error ⟨["x"]⟩
  constructor
  · obtain ⟨ls, hlength, -, hread⟩ :=
      hfirst [.ok " int a;", .error (.timeout ⟨0⟩), .ok " int b;"] 1 _ rfl (by simp)
    exact ⟨ls, hlength, hread⟩
  · obtain ⟨ls, hls, -, hjoined⟩ := hall [.ok " int a;"] (by simp)
    obtain rfl : ls = [" int a;"] := by
      cases ls with
      | nil => cases hls
      | cons l ls =>
        obtain ⟨hl, hnil⟩ := List.cons.inj hls
        cases hl
        rw [List.map_eq_nil_iff.1 hnil.symm]
    exact hjoined (by decide)

end LineStream

end MemberIndex
