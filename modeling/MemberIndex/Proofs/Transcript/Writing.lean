import Mathlib.Algebra.GroupWithZero.Nat
import MemberIndex.Transcript.Sink

/-! # Writing

Writing is an action of byte sequences: it does not matter in which pieces bytes come, whether
the writer fails on the way or not. What a sink leaves in its writer is therefore told by the
bytes of its blocks, one block behind the other.
-/

namespace MemberIndex

theorem Block.flatten_pieces (b : Block) : b.pieces.flatten = b.render := by
  simp [pieces, render, List.flatMap_def, List.flatten_flatten, Function.comp_def]

theorem Block.render_of_isEmpty {b : Block} (h : b.isEmpty = true) : b.render = [] := by
  rw [render, List.isEmpty_iff.1 h, List.flatMap_nil]

theorem Block.size_of_isEmpty {b : Block} (h : b.isEmpty = true) : b.size = 0 := by
  rw [size, List.isEmpty_iff.1 h, List.length_nil]

namespace Writer

/-- A writer that goes on with bytes. It writes no more after its first failure. -/
def push (w : Writer × Option IoError) (bytes : List UInt8) : Writer × Option IoError :=
  match w.2 with
  | none => w.1.write bytes
  | some _ => w

theorem append_append (written : Array UInt8) (as bs : List UInt8) :
    written ++ as ++ bs = written ++ (as ++ bs) :=
  Array.ext' (by simp)

theorem write_nil (w : Writer) : w.write [] = (w, none) := by
  obtain ⟨written, room, full, flushFault⟩ := w
  cases room <;> simp [write]

theorem write_append_of_fits {w : Writer} {as : List UInt8} (h : (w.write as).2 = none)
    (bs : List UInt8) : w.write (as ++ bs) = (w.write as).1.write bs := by
  obtain ⟨written, room, full, flushFault⟩ := w
  cases room with
  | none => simp [write, append_append]
  | some n =>
    have hn : as.length ≤ n := by simpa [write] using h
    have hfits : as.length + bs.length ≤ n ↔ bs.length ≤ n - as.length := by omega
    simp [write, hfits, List.take_append, List.take_of_length_le hn, append_append, Nat.sub_sub]

theorem write_append_of_full {w : Writer} {as : List UInt8} (h : (w.write as).2 ≠ none)
    (bs : List UInt8) : w.write (as ++ bs) = w.write as := by
  obtain ⟨written, room, full, flushFault⟩ := w
  cases room with
  | none => exact absurd rfl h
  | some n =>
    have hn : n < as.length := by simpa [write] using h
    have hrest : n - as.length = 0 := by omega
    have hfull : ¬ as.length + bs.length ≤ n := by omega
    have hroom : n - (as.length + bs.length) = 0 := by omega
    simp [write, List.take_append, Nat.not_le.2 hn, hrest, hfull, hroom]

@[simp] theorem push_nil (w : Writer × Option IoError) : push w [] = w := by
  obtain ⟨w, failure⟩ := w
  cases failure with
  | none => exact write_nil w
  | some e => rfl

theorem push_append (w : Writer × Option IoError) (as bs : List UInt8) :
    push w (as ++ bs) = push (push w as) bs := by
  obtain ⟨w, failure⟩ := w
  cases failure with
  | some e => rfl
  | none =>
    cases h : (w.write as).2 with
    | none => simp only [push, write_append_of_fits h, h]
    | some e => simp only [push, write_append_of_full (by simp [h] : (w.write as).2 ≠ none), h]

theorem writeAll_eq (w : Writer) (pieces : List (List UInt8)) :
    w.writeAll pieces = w.write pieces.flatten := by
  induction pieces generalizing w with
  | nil => exact (write_nil w).symm
  | cons piece rest ih =>
    rw [List.flatten_cons, writeAll]
    split
    · rename_i w' hw
      rw [write_append_of_fits (by rw [hw]), ih, hw]
    · rename_i w' e hw
      rw [write_append_of_full (by rw [hw]; simp), hw]

theorem writeBlock_eq (w : Writer) (b : Block) : w.writeBlock b = w.write b.render := by
  rw [← b.flatten_pieces, ← writeAll_eq]
  rfl

theorem flushFault_write (w : Writer) (bytes : List UInt8) :
    (w.write bytes).1.flushFault = w.flushFault := by
  unfold write
  split <;> rfl

theorem flushFault_push (w : Writer × Option IoError) (bytes : List UInt8) :
    (push w bytes).1.flushFault = w.1.flushFault := by
  unfold push
  split
  · exact flushFault_write w.1 bytes
  · rfl

theorem isSome_write_iff (w : Writer) (bytes : List UInt8) :
    (w.write bytes).2.isSome = true ↔ ∃ n, w.room = some n ∧ n < bytes.length := by
  unfold write
  split
  · rename_i h
    simp [h]
  · rename_i n h
    by_cases hn : bytes.length ≤ n
    · simp [h, hn]
    · simp [h, hn, Nat.lt_of_not_le hn]

theorem room_write_eq_none_iff (w : Writer) (bytes : List UInt8) :
    (w.write bytes).1.room = none ↔ w.room = none := by
  unfold write
  split <;> simp [*]

theorem written_write {w : Writer} {bytes : List UInt8} (h : (w.write bytes).2 = none) :
    (w.write bytes).1.written = w.written ++ bytes := by
  unfold write at h ⊢
  split
  · rfl
  · rename_i n hroom
    simp only [hroom, ite_eq_left_iff, reduceCtorEq, imp_false, not_not] at h
    rw [List.take_of_length_le h]

theorem write_of_room {w : Writer} (h : w.room = none) (bytes : List UInt8) :
    w.write bytes = ({ w with written := w.written ++ bytes }, none) := by
  simp [write, h]

end Writer

namespace Sink

variable {k : Sink}

theorem drainOne_of_cons {b : Block} {rest : List Block} (h : k.queue = b :: rest) :
    k.drainOne.queue = rest ∧ k.drainOne.submitted = k.submitted ∧
      (k.drainOne.writer, k.drainOne.failure) = Writer.push (k.writer, k.failure) b.render := by
  obtain ⟨w, queue, n, failure⟩ := k
  cases h
  cases failure with
  | none => exact ⟨rfl, rfl, w.writeBlock_eq b⟩
  | some e => exact ⟨rfl, rfl, rfl⟩

theorem drain_spec (k : Sink) : k.drain.queue = [] ∧ k.drain.submitted = k.submitted ∧
    (k.drain.writer, k.drain.failure) =
      Writer.push (k.writer, k.failure) (k.queue.flatMap Block.render) := by
  unfold drain
  generalize hq : k.queue = queue
  induction queue generalizing k with
  | nil => simp [hq]
  | cons b rest ih =>
    obtain ⟨hrest, hsubmitted, hwritten⟩ := drainOne_of_cons hq
    obtain ⟨hq', hs', hw'⟩ := ih k.drainOne hrest
    refine ⟨hq', hs'.trans hsubmitted, ?_⟩
    rw [List.foldl_cons, hw', hwritten, List.flatMap_cons, Writer.push_append]

theorem eq_of_fields {k l : Sink} (hw : (k.writer, k.failure) = (l.writer, l.failure))
    (hq : k.queue = l.queue) (hs : k.submitted = l.submitted) : k = l := by
  cases k
  cases l
  simp_all

theorem drain_of_nil (h : k.queue = []) : k.drain = k := by
  rw [drain, h, List.foldl_nil]

theorem submitted_submit (k : Sink) (b : Block) :
    (k.submit b).submitted = k.submitted + b.size := by
  rw [submit]
  split
  · rename_i hb
    rw [Block.size_of_isEmpty hb, Nat.add_zero]
  · rfl

theorem submitted_foldl_submit (k : Sink) (bs : List Block) :
    (bs.foldl submit k).submitted = k.submitted + (bs.map Block.size).sum := by
  induction bs generalizing k with
  | nil => rfl
  | cons b bs ih =>
    rw [List.foldl_cons, ih, submitted_submit, List.map_cons, List.sum_cons, Nat.add_assoc]

theorem submitted_drainOne (k : Sink) : k.drainOne.submitted = k.submitted := by
  unfold drainOne
  split <;> rfl

theorem foldl_submit_spec (k : Sink) (bs : List Block) :
    (bs.foldl submit k).writer = k.writer ∧ (bs.foldl submit k).failure = k.failure ∧
      (bs.foldl submit k).queue.flatMap Block.render =
        k.queue.flatMap Block.render ++ bs.flatMap Block.render := by
  induction bs generalizing k with
  | nil => simp
  | cons b bs ih =>
    obtain ⟨hw, hf, hq⟩ := ih (k.submit b)
    rw [List.foldl_cons, hw, hf, hq, submit]
    split
    · rename_i hb
      simp [Block.render_of_isEmpty hb]
    · simp

end Sink

end MemberIndex
