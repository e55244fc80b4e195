import MemberIndex.Proofs.Transcript.Writing
import MemberIndex.Transcript.Channel

/-! # What a channel keeps

However the hands of a sink and its writer take turns, what is written, what is being written
and what waits in the queue is what has been sent, one block behind the other in the order of
the sending. A channel that has come to its end is the sink that was given these blocks one by
one.
-/

namespace MemberIndex.Channel

variable {w : Writer} {calls : List (Nat × Block)} {call : Option (Nat × Block)} {c d : Channel}

def blocks (calls : List (Nat × Block)) : List Block := calls.map (·.2)

def bytes (calls : List (Nat × Block)) : List UInt8 := (blocks calls).flatMap Block.render

def lines (calls : List (Nat × Block)) : Nat := ((blocks calls).map Block.size).sum

theorem blocks_append (calls more : List (Nat × Block)) :
    blocks (calls ++ more) = blocks calls ++ blocks more := List.map_append

theorem bytes_append (calls more : List (Nat × Block)) :
    bytes (calls ++ more) = bytes calls ++ bytes more := by
  rw [bytes, blocks_append, List.flatMap_append, bytes, bytes]

theorem lines_append (calls more : List (Nat × Block)) :
    lines (calls ++ more) = lines calls + lines more := by
  rw [lines, blocks_append, List.map_append, List.sum_append, lines, lines]

/-- What holds of a channel at any time, its writer told by what has been sent so far. -/
structure Kept (w : Writer) (calls : List (Nat × Block)) (c : Channel) : Prop where
  written : Writer.push (c.sink.writer, c.sink.failure)
    (c.writing.flatten ++ c.sink.queue.flatMap Block.render) = Writer.push (w, none) (bytes calls)
  counted : c.sink.submitted + (c.uncounted.map (·.2)).sum = lines calls
  writing : c.writing ≠ [] → c.sink.failure = none
  senders : ∀ x ∈ c.uncounted, x.1 ∈ c.held
  ended : ∀ r, c.answer = some r → c.owned = false ∧ c.held = [] ∧ c.writing = [] ∧
    c.sink.queue = [] ∧ r = c.sink.shutdown.1

theorem kept_new (w : Writer) : Kept w [] (new w) where
  written := rfl
  counted := rfl
  writing h := absurd rfl h
  senders := by rintro x ⟨⟩
  ended := by rintro r ⟨⟩

theorem Kept.answer_of_held (h : Kept w calls c) {i : Nat} (hi : i ∈ c.held) :
    c.answer = none := by
  cases ha : c.answer with
  | none => rfl
  | some r =>
    obtain ⟨-, hh, -⟩ := h.ended r ha
    simp [hh] at hi

theorem Kept.uncounted_of_held (h : Kept w calls c) (hh : c.held = []) : c.uncounted = [] := by
  apply List.eq_nil_iff_forall_not_mem.2
  rintro x hx
  simpa [hh] using h.senders x hx

theorem Kept.extend (h : Kept w calls c) (ha : c.answer = none) : Kept w calls c.extend := by
  refine ⟨h.written, h.counted, h.writing, ?_, ?_⟩
  · rintro x hx
    exact List.mem_append_left _ (h.senders x hx)
  · rintro r hr
    cases ha.symm.trans hr

theorem Kept.ignores (h : Kept w calls c) {i : Nat} {b : Block} (hb : b.isEmpty = true) :
    Kept w (calls ++ [(i, b)]) c := by
  have hbytes : bytes [(i, b)] = [] := by simp [bytes, blocks, Block.render_of_isEmpty hb]
  have hlines : lines [(i, b)] = 0 := by simp [lines, blocks, Block.size_of_isEmpty hb]
  refine ⟨?_, ?_, h.writing, h.senders, h.ended⟩
  · rw [bytes_append, hbytes, List.append_nil, h.written]
  · rw [lines_append, hlines, Nat.add_zero, h.counted]

theorem Kept.enqueue (h : Kept w calls c) {i : Nat} (hi : i ∈ c.held) (b : Block) :
    Kept w (calls ++ [(i, b)]) (c.enqueue i b) := by
  refine ⟨?_, ?_, h.writing, ?_, ?_⟩
  · have hbytes : bytes [(i, b)] = b.render := by simp [bytes, blocks]
    rw [bytes_append, hbytes, Writer.push_append (w, none), ← h.written, ← Writer.push_append]
    simp [Channel.enqueue]
  · have hlines : lines [(i, b)] = b.size := by simp [lines, blocks]
    rw [lines_append, hlines, ← h.counted]
    simp [Channel.enqueue, Nat.add_assoc]
  · rintro x hx
    rcases List.mem_append.1 hx with hx | hx
    · exact h.senders x hx
    · obtain rfl := List.mem_singleton.1 hx
      exact hi
  · rintro r hr
    cases (h.answer_of_held hi).symm.trans hr

theorem Kept.count (h : Kept w calls c) {x : Nat × Nat} (hx : x ∈ c.uncounted) :
    Kept w calls (c.count x) := by
  refine ⟨h.written, ?_, h.writing, ?_, ?_⟩
  · have hsum := ((List.perm_cons_erase hx).map (·.2)).sum_nat
    rw [List.map_cons, List.sum_cons] at hsum
    have hcounted := h.counted
    change c.sink.submitted + x.2 + ((c.uncounted.erase x).map (·.2)).sum = lines calls
    omega
  · rintro y hy
    exact h.senders y (List.mem_of_mem_erase hy)
  · rintro r hr
    cases (h.answer_of_held (h.senders x hx)).symm.trans hr

theorem Kept.drops (h : Kept w calls c) {i : Nat} (hi : i ∈ c.held)
    (hx : ∀ x ∈ c.uncounted, x.1 ≠ i) : Kept w calls { c with held := c.held.erase i } := by
  refine ⟨h.written, h.counted, h.writing, ?_, ?_⟩
  · rintro x hmem
    exact (List.mem_erase_of_ne (hx x hmem)).2 (h.senders x hmem)
  · rintro r hr
    cases (h.answer_of_held hi).symm.trans hr

theorem Kept.accept (h : Kept w calls c) {b : Block} {rest : List Block} (hw : c.writing = [])
    (hq : c.sink.queue = b :: rest) : Kept w calls (c.accept b rest) := by
  have hwritten := h.written
  rw [hw, hq] at hwritten
  refine ⟨?_, h.counted, ?_, h.senders, ?_⟩
  · cases hf : c.sink.failure with
    | none => simpa [Channel.accept, hf, b.flatten_pieces] using hwritten
    | some e => simpa [Channel.accept, hf, Writer.push] using hwritten
  · intro hne
    cases hf : c.sink.failure with
    | none => exact hf
    | some e => simp [Channel.accept, hf] at hne
  · rintro r hr
    obtain ⟨-, -, -, hnil, -⟩ := h.ended r hr
    cases hq.symm.trans hnil

theorem Kept.put (h : Kept w calls c) {piece : List UInt8} {rest : List (List UInt8)}
    (hw : c.writing = piece :: rest) : Kept w calls (c.put piece rest) := by
  have hf : c.sink.failure = none := h.writing (by simp [hw])
  have hwritten := h.written
  rw [hw, hf, List.flatten_cons, List.append_assoc, Writer.push_append] at hwritten
  have hpush : Writer.push (c.sink.writer, none) piece = c.sink.writer.write piece := rfl
  rw [hpush] at hwritten
  cases hp : c.sink.writer.write piece with
  | mk w' failure =>
    rw [hp] at hwritten
    refine ⟨?_, ?_, ?_, ?_, ?_⟩
    · cases failure with
      | none => simpa [Channel.put, hp] using hwritten
      | some e => simpa [Channel.put, hp, Writer.push] using hwritten
    · simpa [Channel.put, hp] using h.counted
    · intro hne
      cases failure with
      | none => simp [Channel.put, hp]
      | some e => simp [Channel.put, hp] at hne
    · simpa [Channel.put, hp] using h.senders
    · rintro r hr
      obtain ⟨-, -, hnil, -⟩ := h.ended r (by simpa [Channel.put, hp] using hr)
      cases hw.symm.trans hnil

theorem Kept.step (h : Kept w calls c) (hs : Step c call d) : Kept w (calls ++ call.toList) d := by
  cases hs with
  | handle ho =>
    rw [Option.toList_none, List.append_nil]
    apply h.extend
    cases ha : c.answer with
    | none => rfl
    | some r => cases ho.symm.trans (h.ended r ha).1
  | clone hi =>
    rw [Option.toList_none, List.append_nil]
    exact h.extend (h.answer_of_held hi)
  | ignores _ hb => exact h.ignores hb
  | sends hi => exact h.enqueue hi _
  | refused hi _ ha => simp [h.answer_of_held hi] at ha
  | counts hx => simpa using h.count hx
  | drops hi hx => simpa using h.drops hi hx
  | shutsDown ho =>
    rw [Option.toList_none, List.append_nil]
    refine ⟨h.written, h.counted, h.writing, h.senders, ?_⟩
    rintro r hr
    cases ho.symm.trans (h.ended r hr).1
  | takes hw hq => simpa using h.accept hw hq
  | writes hw => simpa using h.put hw
  | ends ho hh hw hq =>
    rw [Option.toList_none, List.append_nil]
    refine ⟨h.written, h.counted, h.writing, h.senders, ?_⟩
    rintro r ⟨⟩
    exact ⟨ho, hh, hw, hq, rfl⟩

theorem Runs.kept (h : Runs w calls c) : Kept w calls c := by
  induction h with
  | new => exact kept_new w
  | step _ hs ih => exact ih.step hs

theorem Kept.eq_of_answer (h : Kept w calls c) {r : Except IoError Unit}
    (ha : c.answer = some r) :
    (r, c.sink) = ((blocks calls).foldl Sink.submit { writer := w }).shutdown := by
  obtain ⟨-, hh, hw, hq, rfl⟩ := h.ended r ha
  have huncounted := h.uncounted_of_held hh
  have hcounted := h.counted
  have hwritten := h.written
  rw [hw, hq, List.flatten_nil, List.flatMap_nil, List.append_nil, Writer.push_nil] at hwritten
  rw [huncounted, List.map_nil, List.sum_nil, Nat.add_zero] at hcounted
  generalize hk : (blocks calls).foldl Sink.submit { writer := w } = k
  obtain ⟨hwriter, hfailure, hqueue⟩ := Sink.foldl_submit_spec { writer := w } (blocks calls)
  have hlines := Sink.submitted_foldl_submit { writer := w } (blocks calls)
  rw [hk] at hwriter hfailure hqueue hlines
  obtain ⟨hnil, hsubmitted, hpushed⟩ := k.drain_spec
  have hsink : k.drain = c.sink := by
    apply Sink.eq_of_fields
    · rw [hpushed, hwriter, hfailure, hqueue, hwritten]
      rfl
    · rw [hnil, hq]
    · rw [hsubmitted, hlines, hcounted]
      exact Nat.zero_add _
  have hdrained : c.sink.drain = c.sink := Sink.drain_of_nil hq
  simp only [Sink.shutdown, hsink, hdrained]

/-- With a writer that has room for everything, nothing that was sent is missing: it is written,
being written, or in the queue. -/
theorem Kept.bytes_eq (h : Kept w calls c) (hroom : w.room = none) :
    c.sink.writer.written.toList ++
        (c.writing.flatten ++ c.sink.queue.flatMap Block.render) =
      w.written.toList ++ bytes calls ∧
    c.sink.failure = none ∧ c.sink.writer.flushFault = w.flushFault := by
  have hwritten := h.written
  have hall : Writer.push (w, none) (bytes calls) =
      ({ w with written := w.written ++ bytes calls }, none) := Writer.write_of_room hroom _
  rw [hall] at hwritten
  have hflush := Writer.flushFault_push (c.sink.writer, c.sink.failure)
    (c.writing.flatten ++ c.sink.queue.flatMap Block.render)
  rw [hwritten] at hflush
  cases hf : c.sink.failure with
  | some e =>
    rw [hf] at hwritten
    cases (Prod.mk.inj hwritten).2
  | none =>
    rw [hf] at hwritten
    have hwrite : c.sink.writer.write (c.writing.flatten ++ c.sink.queue.flatMap Block.render) =
        ({ w with written := w.written ++ bytes calls }, none) := hwritten
    have hroom' : c.sink.writer.room = none := by
      rw [← Writer.room_write_eq_none_iff, hwrite]
      exact hroom
    rw [Writer.write_of_room hroom'] at hwrite
    refine ⟨?_, rfl, hflush.symm⟩
    have harray := congrArg (·.1.written.toList) hwrite
    simpa using harray

theorem Kept.eq_ok_of_answer (h : Kept w calls c) (hroom : w.room = none)
    (hflush : w.flushFault = none) {r : Except IoError Unit} (ha : c.answer = some r) :
    r = .ok () := by
  obtain ⟨-, -, -, hq, rfl⟩ := h.ended r ha
  obtain ⟨-, hfailure, hflush'⟩ := h.bytes_eq hroom
  simp only [Sink.shutdown, Sink.drain_of_nil hq, hfailure, hflush', hflush]

def remaining (c : Channel) : Nat :=
  (c.sink.queue.map fun b => b.pieces.length + 1).sum + c.writing.length +
    if c.answer.isNone then 1 else 0

/-- A channel that has been given up by every hand. -/
structure IsClosed (c : Channel) : Prop where
  owned : c.owned = false
  held : c.held = []
  counted : c.uncounted = []

theorem IsClosed.step (h : c.IsClosed) (hs : Step c call d) :
    d.IsClosed ∧ d.remaining < c.remaining := by
  cases hs with
  | handle ho | shutsDown ho => cases ho.symm.trans h.owned
  | clone hi | ignores hi | sends hi | refused hi | drops hi => simp [h.held] at hi
  | counts hx => simp [h.counted] at hx
  | @takes b rest hw hq =>
    refine ⟨⟨h.owned, h.held, h.counted⟩, ?_⟩
    have hpieces : (c.accept b rest).writing.length ≤ b.pieces.length := by
      simp only [accept]
      split <;> simp
    have hanswer : (c.accept b rest).answer = c.answer := rfl
    have hqueue : (c.accept b rest).sink.queue = rest := rfl
    simp only [remaining, hq, hw, hanswer, hqueue, List.map_cons, List.sum_cons, List.length_nil]
    omega
  | @writes piece rest hw =>
    refine ⟨⟨h.owned, h.held, h.counted⟩, ?_⟩
    have hpieces : (c.put piece rest).writing.length ≤ rest.length := by
      simp only [put]
      split <;> simp
    have hanswer : (c.put piece rest).answer = c.answer := rfl
    have hqueue : (c.put piece rest).sink.queue = c.sink.queue := rfl
    simp only [remaining, hw, hanswer, hqueue, List.length_cons]
    omega
  | ends _ _ _ _ ha =>
    refine ⟨⟨h.owned, h.held, h.counted⟩, ?_⟩
    simp [remaining, ha]

theorem IsClosed.acc_of_lt {R : Channel → Channel → Prop} (f : Channel → Nat)
    (hR : ∀ {c d}, c.IsClosed → R d c → d.IsClosed ∧ f d < f c) (h : c.IsClosed) : Acc R c := by
  induction hn : f c using Nat.strongRecOn generalizing c with
  | ind n ih =>
    constructor
    rintro d hs
    obtain ⟨hd, hlt⟩ := hR h hs
    exact ih (f d) (hn ▸ hlt) hd rfl

theorem IsClosed.acc (h : c.IsClosed) : Acc (fun d c => ∃ call, Step c call d) c :=
  h.acc_of_lt remaining fun hc ⟨_, hs⟩ => hc.step hs

theorem IsClosed.exists_step (h : c.IsClosed) (ha : c.answer = none) : ∃ d, Step c none d := by
  cases hw : c.writing with
  | cons piece rest => exact ⟨_, .writes c hw⟩
  | nil =>
    cases hq : c.sink.queue with
    | cons b rest => exact ⟨_, .takes c hw hq⟩
    | nil => exact ⟨_, .ends c h.owned h.held hw hq ha⟩

/-- The writer of a closed channel answers in the end. -/
theorem IsClosed.exists_answer (h : c.IsClosed) (hr : Runs w calls c) :
    ∃ d r, Runs w calls d ∧ d.answer = some r := by
  induction h.acc with
  | intro c _ ih =>
    cases ha : c.answer with
    | some r => exact ⟨c, r, hr, ha⟩
    | none =>
      obtain ⟨d, hs⟩ := h.exists_step ha
      have hr' := hr.step hs
      rw [Option.toList_none, List.append_nil] at hr'
      exact ih d ⟨none, hs⟩ (h.step hs).1 hr'

theorem Runs.send (bs : List Block) (hr : Runs w calls c) (ho : c.owned = true)
    (hh : c.held = [0]) (hu : c.uncounted = []) :
    ∃ d, Runs w (calls ++ bs.map (0, ·)) d ∧ d.owned = true ∧ d.held = [0] ∧ d.uncounted = [] := by
  induction bs generalizing calls c with
  | nil => exact ⟨c, by simpa using hr, ho, hh, hu⟩
  | cons b bs ih =>
    have hi : 0 ∈ c.held := by simp [hh]
    rw [List.map_cons, List.append_cons]
    cases hb : b.isEmpty with
    | true => exact ih (hr.step (.ignores c hi hb)) ho hh hu
    | false =>
      have hsent := hr.step (.sends c hi hb (hr.kept.answer_of_held hi))
      have hcounted := hsent.step (.counts _ (x := (0, b.size)) (by simp [enqueue]))
      rw [Option.toList_none, List.append_nil] at hcounted
      exact ih hcounted ho hh (by simp [count, enqueue, hu])

theorem exists_runs (w : Writer) (bs : List Block) :
    ∃ c r, Runs w (bs.map (0, ·)) c ∧ c.answer = some r := by
  obtain ⟨c, hr, ho, hh, hu⟩ := (Runs.new.step (.handle (Channel.new w) rfl)).send bs rfl rfl rfl
  have hdropped := hr.step (.drops c (i := 0) (by simp [hh]) (by simp [hu]))
  have hshut := hdropped.step (.shutsDown _ ho)
  rw [Option.toList_none, List.append_nil, List.append_nil] at hshut
  have hclosed : IsClosed { c with held := c.held.erase 0, owned := false } :=
    ⟨rfl, by simp [hh], hu⟩
  exact hclosed.exists_answer hshut

/-- An order of the blocks that have lines, each of them once, in which every sender's stand as
they were submitted. -/
def Merges (order calls : List (Nat × Block)) : Prop :=
  ∀ i, order.filter (·.1 = i) = (calls.filter (·.1 = i)).filter (!·.2.isEmpty)

theorem merges_filter (calls : List (Nat × Block)) :
    Merges (calls.filter (!·.2.isEmpty)) calls := by
  intro i
  rw [List.filter_filter, List.filter_filter]
  congr 1
  funext x
  exact Bool.and_comm _ _

theorem bytes_filter (calls : List (Nat × Block)) :
    bytes (calls.filter (!·.2.isEmpty)) = bytes calls := by
  induction calls with
  | nil => rfl
  | cons x calls ih =>
    have hcons : bytes (x :: calls) = x.2.render ++ bytes calls := rfl
    rw [hcons, ← ih, List.filter_cons]
    split
    · rfl
    · rename_i hx
      rw [Block.render_of_isEmpty (by simpa using hx), List.nil_append]

theorem lines_filter (calls : List (Nat × Block)) :
    lines (calls.filter (!·.2.isEmpty)) = lines calls := by
  induction calls with
  | nil => rfl
  | cons x calls ih =>
    have hcons : lines (x :: calls) = x.2.size + lines calls := rfl
    rw [hcons, ← ih, List.filter_cons]
    split
    · rfl
    · rename_i hx
      rw [Block.size_of_isEmpty (by simpa using hx), Nat.zero_add]

/-- A channel whose writer never fails. At any time what is written, being written and queued is
what was sent. In the end all blocks are written, each in one piece and each sender's in their
order, and all their lines are counted. It comes to its end once it is given up by every hand. -/
theorem never_splices (hroom : w.room = none) (hflush : w.flushFault = none)
    (h : Runs w calls c) :
    (c.sink.writer.written.toList ++ (c.writing.flatten ++ c.sink.queue.flatMap Block.render) =
        w.written.toList ++ bytes calls ∧
      c.sink.submitted + (c.uncounted.map (·.2)).sum = lines calls) ∧
    (∀ r, c.answer = some r → r = .ok () ∧
      (r, c.sink) = ((blocks calls).foldl Sink.submit { writer := w }).shutdown ∧
      ∃ order, Merges order calls ∧
        c.sink.writer.written.toList = w.written.toList ++ bytes order ∧
        c.sink.submitted = lines order) ∧
    (c.owned = false → c.held = [] →
      Acc (fun d c => ∃ call, Step c call d) c ∧ (c.answer = none → ∃ d, Step c none d)) := by
  have hkept := h.kept
  obtain ⟨hbytes, -⟩ := hkept.bytes_eq hroom
  refine ⟨⟨hbytes, hkept.counted⟩, ?_, ?_⟩
  · rintro r ha
    obtain ⟨-, hh, hw, hq, -⟩ := hkept.ended r ha
    have huncounted := hkept.uncounted_of_held hh
    refine ⟨hkept.eq_ok_of_answer hroom hflush ha, hkept.eq_of_answer ha, _, merges_filter calls,
      ?_, ?_⟩
    · rw [bytes_filter, ← hbytes, hw, hq]
      simp
    · rw [lines_filter, ← hkept.counted, huncounted]
      simp
  · rintro ho hh
    have hclosed : c.IsClosed := ⟨ho, hh, hkept.uncounted_of_held hh⟩
    exact ⟨hclosed.acc, hclosed.exists_step⟩

theorem never_splices_of_two_handles :
    ∃ c, Runs {} [(0, ⟨["a", "b"]⟩), (1, ⟨["c"]⟩), (0, {})] c ∧ c.answer = some (.ok ()) ∧
      c.sink.writer.written.toList = Text.Utf8.encode "a\nb\nc\n" ∧ c.sink.submitted = 3 := by
  have hmade := (Runs.new.step (.handle (new {}) rfl)).step (.clone _ (i := 0) (by decide))
  have hfirst := (hmade.step (.sends _ (i := 0) (b := ⟨["a", "b"]⟩) (by decide) rfl rfl)).step
    (.takes _ rfl rfl)
  have hsecond := ((hfirst.step (.writes _ rfl)).step
    (.sends _ (i := 1) (b := ⟨["c"]⟩) (by decide) rfl rfl)).step (.writes _ rfl)
  have hthird := (hsecond.step (.ignores _ (i := 0) (b := {}) (by decide) rfl)).step
    (.counts _ (x := (1, 1)) (by decide))
  have hcounted := (hthird.step (.counts _ (x := (0, 2)) (by decide))).step (.shutsDown _ rfl)
  have hdropped := (hcounted.step (.drops _ (i := 0) (by decide) (by decide))).step
    (.drops _ (i := 1) (by decide) (by decide))
  have hwritten := ((hdropped.step (.writes _ rfl)).step (.writes _ rfl)).step (.takes _ rfl rfl)
  have hended := ((hwritten.step (.writes _ rfl)).step (.writes _ rfl)).step
    (.ends _ rfl rfl rfl rfl rfl)
  obtain ⟨⟨hbytes, hlines⟩, hends, -⟩ := never_splices rfl rfl hended
  obtain ⟨hanswer, -⟩ := hends _ rfl
  exact ⟨_, hended, congrArg some hanswer, (List.append_nil _).symm.trans hbytes, hlines⟩

end MemberIndex.Channel
