import Mathlib.Data.List.Infix
import Mathlib.Order.Basic
import Mathlib.Tactic.Conv
import MemberIndex.Proofs.Transcript.Channel
import MemberIndex.Transcript.Calls

/-! # Destinations that fill up

A destination with room for so many bytes has in the end exactly the first ones of all that was
sent, wherever in a line its room ends and however little it takes at a time. The writer asks
nothing more of it once a write was refused, and flushes it only if none was.
-/

namespace MemberIndex

namespace Writer

variable {w : Writer} {offered : List UInt8} {n : Nat}

theorem push_accept (hle : n ≤ offered.length) (hroom : ∀ m ∈ w.room, n ≤ m)
    (rest : List UInt8) : push (w, none) (offered ++ rest) =
      push (w.accept offered n, none) (offered.drop n ++ rest) := by
  have hlength : (offered.take n).length = n := List.length_take_of_le hle
  have haccept : w.write (offered.take n) = (w.accept offered n, none) := by
    unfold write accept
    cases hm : w.room with
    | none => simp
    | some m =>
      have hall := List.take_of_length_le (hlength.trans_le (hroom m hm))
      simp [hall, hlength, hroom m hm]
  conv_lhs => rw [← List.take_append_drop n offered, List.append_assoc, push_append]
  change push (w.write (offered.take n)) _ = _
  rw [haccept]

theorem written_prefix_write (w : Writer) (bytes : List UInt8) :
    w.written.toList <+: (w.write bytes).1.written.toList := by
  unfold write
  split <;> simp

theorem written_push_prefix (w : Writer × Option IoError) (bytes : List UInt8) :
    w.1.written.toList <+: (push w bytes).1.written.toList := by
  unfold push
  split
  · exact w.1.written_prefix_write bytes
  · exact List.prefix_rfl

theorem write_of_limit {limit : Nat} (hroom : w.room = some limit) (bytes : List UInt8) :
    (w.write bytes).1.written.toList = w.written.toList ++ bytes.take limit ∧
      (w.write bytes).2 = if limit < bytes.length then some w.full else none := by
  simp only [write, hroom]
  refine ⟨by simp, ?_⟩
  split <;> split <;> first | rfl | omega

theorem push_of_full (hroom : w.room = some 0) (ho : offered ≠ []) :
    push (w, none) offered = (w, some w.full) := by
  have hpos : ¬ offered.length ≤ 0 := by simpa using ho
  obtain ⟨written, room, full, flushFault⟩ := w
  cases hroom
  simp [push, write, hpos]

end Writer

namespace Channel

variable {w : Writer} {calls : List (Nat × Block)} {call : Option (Nat × Block)}
  {asked : List Call} {ask : Option Call} {c d : Channel}

theorem Kept.fail (h : Kept w calls c) {piece : List UInt8} {rest : List (List UInt8)}
    (hw : c.writing = piece :: rest) (hp : piece ≠ []) (hroom : c.sink.writer.room = some 0) :
    Kept w calls c.fail := by
  have hf : c.sink.failure = none := h.writing (by simp [hw])
  have hwritten := h.written
  rw [hw, hf, Writer.push_of_full hroom (by simp [hp])] at hwritten
  refine ⟨hwritten, h.counted, fun hne => absurd rfl hne, h.senders, ?_⟩
  rintro r hr
  obtain ⟨-, -, hnil, -⟩ := h.ended r hr
  cases hw.symm.trans hnil

theorem Kept.accept_part (h : Kept w calls c) {piece : List UInt8} {rest : List (List UInt8)}
    {n : Nat} (hw : c.writing = piece :: rest) (hle : n ≤ piece.length)
    (hroom : ∀ m ∈ c.sink.writer.room, n ≤ m) :
    Kept w calls { c with
      sink := { c.sink with writer := c.sink.writer.accept piece n }
      writing := piece.drop n :: rest } := by
  have hf : c.sink.failure = none := h.writing (by simp [hw])
  have hwritten := h.written
  rw [hw, hf, List.flatten_cons, List.append_assoc, Writer.push_accept hle hroom] at hwritten
  refine ⟨?_, h.counted, fun _ => hf, h.senders, ?_⟩
  · simpa [hf] using hwritten
  · rintro r hr
    obtain ⟨-, -, hnil, -⟩ := h.ended r hr
    cases hw.symm.trans hnil

theorem Kept.close (h : Kept w calls c) (ho : c.owned = false) (hh : c.held = [])
    (hw : c.writing = []) (hq : c.sink.queue = []) {r : Except IoError Unit}
    (hr : r = c.sink.shutdown.1) : Kept w calls { c with answer := some r } := by
  refine ⟨h.written, h.counted, h.writing, h.senders, ?_⟩
  rintro _ ⟨⟩
  exact ⟨ho, hh, hw, hq, hr⟩

theorem Kept.serve (h : Kept w calls c) (hs : Serves c call ask d) :
    Kept w (calls ++ call.toList) d := by
  cases hs with
  | quiet hs => exact h.step hs
  | takes hw _ hle hroom => simpa using h.accept_part hw hle hroom
  | refuses hw hp hroom | takesNone hw hp hroom => simpa using h.fail hw hp hroom
  | flushes ho hh hw hq _ hf =>
    rw [Option.toList_none, List.append_nil]
    apply h.close ho hh hw hq
    simp only [Sink.shutdown, Sink.drain_of_nil hq, hf, Writer.flushed]
    split <;> simp [*]
  | givesUp ho hh hw hq _ hf =>
    rw [Option.toList_none, List.append_nil]
    apply h.close ho hh hw hq
    simp only [Sink.shutdown, Sink.drain_of_nil hq, hf]

theorem Served.kept (h : Served w calls asked c) : Kept w calls c := by
  induction h with
  | new => exact kept_new w
  | step _ hs ih => exact ih.serve hs

/-- How the calls to a destination end, told by how far the channel has come. -/
inductive Ends (c : Channel) : List Call → Prop
  | goesOn (hf : c.sink.failure = none) (ha : c.answer = none) : Ends c []
  | refused {x : Call} (hf : c.sink.failure.isSome = true) (hx : x.isRefused = true) : Ends c [x]
  | flushed (hf : c.sink.failure = none) (ha : c.answer.isSome = true) :
    Ends c [.flush c.sink.writer.flushFault]

/-- What the calls tell of a channel: the bytes that its destination took, and that only the last
call is refused or a flush. -/
structure Told (w : Writer) (asked : List Call) (c : Channel) : Prop where
  written : c.sink.writer.written.toList = w.written.toList ++ asked.flatMap Call.taken
  course : ∃ before last, asked = before ++ last ∧
    (∀ x ∈ before, x.isRefused = false ∧ x.isFlush = false) ∧ c.Ends last

theorem told_new (w : Writer) : Told w [] (new w) :=
  ⟨(List.append_nil _).symm, [], [], rfl, nofun, .goesOn rfl rfl⟩

theorem Kept.goes_on (h : Kept w calls c) (hw : c.writing ≠ []) :
    c.sink.failure = none ∧ c.answer = none := by
  refine ⟨h.writing hw, ?_⟩
  cases ha : c.answer with
  | none => rfl
  | some r => exact absurd (h.ended r ha).2.2.1 hw

theorem Told.goes_on (h : Told w asked c) (hf : c.sink.failure = none) (ha : c.answer = none) :
    ∀ x ∈ asked, x.isRefused = false ∧ x.isFlush = false := by
  obtain ⟨before, last, rfl, hbefore, hlast⟩ := h.course
  cases hlast with
  | goesOn => simpa using hbefore
  | refused hf' => simp [hf] at hf'
  | flushed _ ha' => simp [ha] at ha'

theorem Told.serve (h : Told w asked c) (hk : Kept w calls c) (hs : Serves c call ask d) :
    Told w (asked ++ ask.toList) d := by
  cases hs with
  | quiet _ hw hf ha =>
    obtain ⟨before, last, rfl, hbefore, hlast⟩ := h.course
    refine ⟨by simpa [hw] using h.written, before, last, by simp, hbefore, ?_⟩
    cases hlast with
    | goesOn hf' ha' => exact .goesOn (hf.trans hf') (ha.trans ha')
    | refused hf' hx => exact .refused (hf ▸ hf') hx
    | flushed hf' ha' =>
      rw [← hw]
      exact .flushed (hf.trans hf') (ha ▸ ha')
  | @takes piece rest n hw hn =>
    obtain ⟨hf, ha⟩ := hk.goes_on (by simp [hw])
    refine ⟨by simp [Writer.accept, h.written, Call.taken], _, [], (List.append_nil _).symm, ?_,
      .goesOn hf ha⟩
    simp only [Option.toList_some, List.forall_mem_append, List.forall_mem_singleton]
    exact ⟨h.goes_on hf ha, by simp [Call.isRefused, Nat.ne_of_gt hn], rfl⟩
  | refuses hw | takesNone hw =>
    obtain ⟨hf, ha⟩ := hk.goes_on (by simp [hw])
    refine ⟨by simp [fail, h.written, Call.taken], asked, _, rfl, h.goes_on hf ha, .refused rfl rfl⟩
  | flushes _ _ _ _ ha hf =>
    refine ⟨by simp [h.written, Call.taken], asked, _, rfl, h.goes_on hf ha, .flushed hf rfl⟩
  | givesUp _ _ _ _ _ hf =>
    obtain ⟨before, last, rfl, hbefore, hlast⟩ := h.course
    refine ⟨by simpa using h.written, before, last, by simp, hbefore, ?_⟩
    cases hlast with
    | goesOn hf' | flushed hf' => cases hf.symm.trans hf'
    | refused hf' hx => exact .refused hf' hx

/-- The bytes that a destination has taken are the first ones of those that were sent. -/
theorem Told.taken_prefix (h : Told w asked c) (hk : Kept w calls c) {limit : Nat}
    (hroom : w.room = some limit) : asked.flatMap Call.taken <+: (bytes calls).take limit := by
  have hpush := Writer.written_push_prefix (c.sink.writer, c.sink.failure)
    (c.writing.flatten ++ c.sink.queue.flatMap Block.render)
  rw [hk.written, h.written] at hpush
  change _ <+: (w.write (bytes calls)).1.written.toList at hpush
  rw [(Writer.write_of_limit hroom _).1] at hpush
  exact (List.prefix_append_right_inj _).1 hpush

theorem Kept.eq_write (h : Kept w calls c) {r : Except IoError Unit} (ha : c.answer = some r) :
    (c.sink.writer, c.sink.failure) = w.write (bytes calls) := by
  obtain ⟨-, -, hw, hq, -⟩ := h.ended r ha
  have hwritten := h.written
  rw [hw, hq, List.flatten_nil, List.flatMap_nil, List.append_nil, Writer.push_nil] at hwritten
  exact hwritten

theorem Told.not_last (h : Told w asked c) :
    ∀ x ∈ asked.dropLast, x.isRefused = false ∧ x.isFlush = false := by
  obtain ⟨before, last, rfl, hbefore, hlast⟩ := h.course
  cases hlast with
  | goesOn =>
    intro x hx
    exact hbefore x (by simpa using List.mem_of_mem_dropLast hx)
  | refused | flushed => simpa using hbefore

theorem isFlush_of_isRefused {x : Call} (h : x.isRefused = true) : x.isFlush = false := by
  cases x with
  | write => rfl
  | flush => cases h

theorem Told.answered (h : Told w asked c) (hk : Kept w calls c) {limit : Nat}
    (hroom : w.room = some limit) {r : Except IoError Unit} (ha : c.answer = some r) :
    if limit < (bytes calls).length then r = .error w.full ∧ ∀ x ∈ asked, x.isFlush = false
    else r = w.flushed ∧ asked.getLast? = some (.flush w.flushFault) := by
  obtain ⟨-, -, -, hq, hr⟩ := hk.ended r ha
  have heq := hk.eq_write ha
  have hfailure : c.sink.failure = if limit < (bytes calls).length then some w.full else none :=
    (congrArg Prod.snd heq).trans (Writer.write_of_limit hroom _).2
  have hflush : c.sink.writer.flushFault = w.flushFault :=
    (congrArg (·.1.flushFault) heq).trans (w.flushFault_write _)
  obtain ⟨before, last, rfl, hbefore, hlast⟩ := h.course
  simp only [Sink.shutdown, Sink.drain_of_nil hq, hflush] at hr
  split
  · rename_i hlimit
    rw [if_pos hlimit] at hfailure
    refine ⟨by simpa [hfailure] using hr, ?_⟩
    cases hlast with
    | goesOn hf | flushed hf => cases hf.symm.trans hfailure
    | refused _ hx =>
      rw [List.forall_mem_append, List.forall_mem_singleton]
      exact ⟨fun y hy => (hbefore y hy).2, isFlush_of_isRefused hx⟩
  · rename_i hlimit
    rw [if_neg hlimit] at hfailure
    refine ⟨?_, ?_⟩
    · rw [hr, hfailure, Writer.flushed]
      cases w.flushFault <;> rfl
    · cases hlast with
      | goesOn _ hnone => cases hnone.symm.trans ha
      | refused hf => simp [hfailure] at hf
      | flushed => rw [List.getLast?_concat, hflush]

def load (pieces : List (List UInt8)) : Nat := (pieces.map fun piece => piece.length + 1).sum

/-- A bound on the steps and calls of a writer that nobody can send to any more. -/
def outstanding (c : Channel) : Nat :=
  (c.sink.queue.map fun b => load b.pieces + 1).sum + load c.writing +
    if c.answer.isNone then 1 else 0

theorem IsClosed.serve (h : c.IsClosed) (hs : Serves c call ask d) :
    d.IsClosed ∧ d.outstanding < c.outstanding := by
  cases hs with
  | quiet hs _ _ ha =>
    refine ⟨(h.step hs).1, ?_⟩
    cases hs with
    | handle ho | shutsDown ho => cases ho.symm.trans h.owned
    | clone hi | ignores hi | sends hi | refused hi | drops hi => simp [h.held] at hi
    | counts hx => simp [h.counted] at hx
    | @takes b rest hw hq =>
      have hload : load (c.accept b rest).writing ≤ load b.pieces := by
        simp only [accept]
        split <;> simp [load]
      have hanswer : (c.accept b rest).answer = c.answer := rfl
      have hqueue : (c.accept b rest).sink.queue = rest := rfl
      simp only [outstanding, hq, hw, hanswer, hqueue, List.map_cons, List.sum_cons]
      omega
    | @writes piece rest hw =>
      have hload : load (c.put piece rest).writing ≤ load rest := by
        simp only [put]
        split <;> simp [load]
      have hanswer : (c.put piece rest).answer = c.answer := rfl
      have hqueue : (c.put piece rest).sink.queue = c.sink.queue := rfl
      have hpiece : load (piece :: rest) = piece.length + 1 + load rest := by simp [load]
      simp only [outstanding, hw, hanswer, hqueue, hpiece]
      omega
    | ends _ _ _ _ hnone => simp [hnone] at ha
  | @takes piece rest n hw hn hle =>
    refine ⟨⟨h.owned, h.held, h.counted⟩, ?_⟩
    simp only [outstanding, hw, load, List.map_cons, List.sum_cons, List.length_drop]
    omega
  | @refuses piece rest hw | @takesNone piece rest hw =>
    refine ⟨⟨h.owned, h.held, h.counted⟩, ?_⟩
    have hnil : load c.fail.writing = 0 := rfl
    have hanswer : c.fail.answer = c.answer := rfl
    have hqueue : c.fail.sink.queue = c.sink.queue := rfl
    have hpiece : load (piece :: rest) = piece.length + 1 + load rest := by simp [load]
    simp only [outstanding, hw, hnil, hanswer, hqueue, hpiece]
    omega
  | flushes _ _ _ _ ha | givesUp _ _ _ _ ha =>
    refine ⟨⟨h.owned, h.held, h.counted⟩, ?_⟩
    simp [outstanding, ha]

theorem IsClosed.exists_serve (h : c.IsClosed) (hk : Kept w calls c) (ha : c.answer = none) :
    ∃ ask d, Serves c none ask d := by
  cases hw : c.writing with
  | cons piece rest =>
    have hf : c.sink.failure = none := hk.writing (by simp [hw])
    by_cases hp : piece = []
    · subst hp
      exact ⟨_, _, .quiet (.writes c hw) (by simp [put, Writer.write_nil])
        (by simp [put, Writer.write_nil, hf]) rfl⟩
    · have hlength : 1 ≤ piece.length := List.length_pos_iff.2 hp
      by_cases hfull : c.sink.writer.room = some 0
      · exact ⟨_, _, .refuses c hw hp hfull⟩
      · refine ⟨_, _, .takes c hw Nat.one_pos hlength ?_⟩
        rintro m hm
        exact Nat.one_le_iff_ne_zero.2 fun h0 => hfull (h0 ▸ hm)
  | nil =>
    cases hq : c.sink.queue with
    | cons b rest => exact ⟨_, _, .quiet (.takes c hw hq) rfl rfl rfl⟩
    | nil =>
      cases hf : c.sink.failure with
      | none => exact ⟨_, _, .flushes c h.owned h.held hw hq ha hf⟩
      | some e => exact ⟨_, _, .givesUp c h.owned h.held hw hq ha hf⟩

theorem Served.told (h : Served w calls asked c) : Told w asked c := by
  induction h with
  | new => exact told_new w
  | step hr hs ih => exact ih.serve hr.kept hs

/-- A channel to a destination with room for so many bytes. At any time the destination has taken
the first of the bytes that were sent, within its room, only the last call can have been refused
or a flush, and every line that was sent is counted. In the end it has all bytes that there was
room for. Where they were too many the answer is its error and it was not flushed, and else the
answer is that of the flush. The channel comes to its end once it is given up by every hand, and
is then the sink that was given the blocks one by one. -/
theorem fills_to_limit {limit : Nat} (hroom : w.room = some limit) (h : Served w calls asked c) :
    (c.sink.writer.written.toList = w.written.toList ++ asked.flatMap Call.taken ∧
      asked.flatMap Call.taken <+: (bytes calls).take limit ∧
      (∀ x ∈ asked.dropLast, x.isRefused = false ∧ x.isFlush = false) ∧
      c.sink.submitted + (c.uncounted.map (·.2)).sum = lines calls) ∧
    (∀ r, c.answer = some r →
      c.sink.writer.written.toList =
        w.written.toList ++ (bytes calls).take (min limit (bytes calls).length) ∧
      c.sink.queue = [] ∧ c.sink.submitted = lines calls ∧
      (if limit < (bytes calls).length then r = .error w.full ∧ ∀ x ∈ asked, x.isFlush = false
        else r = w.flushed ∧ asked.getLast? = some (.flush w.flushFault)) ∧
      (r, c.sink) = ((blocks calls).foldl Sink.submit { writer := w }).shutdown) ∧
    (c.owned = false → c.held = [] →
      Acc (fun d c => ∃ call ask, Serves c call ask d) c ∧
        (c.answer = none → ∃ ask d, Serves c none ask d)) := by
  have hkept := h.kept
  have htold := h.told
  refine ⟨⟨htold.written, htold.taken_prefix hkept hroom, htold.not_last, hkept.counted⟩, ?_, ?_⟩
  · rintro r ha
    obtain ⟨-, hh, -, hq, -⟩ := hkept.ended r ha
    have hcounted := hkept.counted
    rw [hkept.uncounted_of_held hh, List.map_nil, List.sum_nil, Nat.add_zero] at hcounted
    have hwritten := congrArg (·.1.written.toList) (hkept.eq_write ha)
    simp only [(Writer.write_of_limit hroom _).1] at hwritten
    refine ⟨?_, hq, hcounted, htold.answered hkept hroom ha, hkept.eq_of_answer ha⟩
    rw [hwritten, List.take_eq_take_min]
  · rintro ho hh
    have hclosed : c.IsClosed := ⟨ho, hh, hkept.uncounted_of_held hh⟩
    refine ⟨?_, hclosed.exists_serve hkept⟩
    exact hclosed.acc_of_lt outstanding fun hc ⟨_, _, hs⟩ => hc.serve hs

def narrow : Writer := { room := some 2, flushFault := some .writeZero }

/-- The room ends at a line feed, after two calls of one byte each. The block that is sent then is
taken but not written, and the destination is not flushed. -/
theorem fills_to_limit_of_narrow :
    ∃ asked c, Served narrow [(0, ⟨["ab", ""]⟩), (0, ⟨["c"]⟩)] asked c ∧
      c.answer = some (.error (.os .noSpace)) ∧
      c.sink.writer.written.toList = Text.Utf8.encode "ab" ∧ c.sink.submitted = 3 ∧
      asked.length = 3 ∧ ∀ x ∈ asked, x.isFlush = false := by
  have hmade := Served.new.step (.quiet (.handle (new narrow) rfl) rfl rfl rfl)
  have hsent := (hmade.step (.quiet (.sends _ (i := 0) (b := ⟨["ab", ""]⟩) (by decide) rfl rfl)
    rfl rfl rfl)).step (.quiet (.takes _ rfl rfl) rfl rfl rfl)
  have hpart := (hsent.step (.takes _ (n := 1) rfl (by decide) (by decide) (by decide))).step
    (.takes _ (n := 1) rfl (by decide) (by decide) (by decide))
  have hrefused := (hpart.step (.quiet (.writes _ rfl) rfl rfl rfl)).step
    (.refuses _ rfl (by decide) rfl)
  have hpassed := (hrefused.step (.quiet (.sends _ (i := 0) (b := ⟨["c"]⟩) (by decide) rfl rfl)
    rfl rfl rfl)).step (.quiet (.takes _ rfl rfl) rfl rfl rfl)
  have hcounted := (hpassed.step (.quiet (.counts _ (x := (0, 2)) (by decide)) rfl rfl rfl)).step
    (.quiet (.counts _ (x := (0, 1)) (by decide)) rfl rfl rfl)
  have hclosed := (hcounted.step (.quiet (.shutsDown _ rfl) rfl rfl rfl)).step
    (.quiet (.drops _ (i := 0) (by decide) (by decide)) rfl rfl rfl)
  have hended := hclosed.step (.givesUp _ rfl rfl rfl rfl rfl rfl)
  obtain ⟨-, hends, -⟩ := fills_to_limit rfl hended
  obtain ⟨hwritten, -, hlines, hanswer, -⟩ := hends _ rfl
  rw [if_pos (by decide)] at hanswer
  exact ⟨_, _, hended, congrArg some hanswer.1, hwritten, hlines, rfl, hanswer.2⟩

end Channel

end MemberIndex
