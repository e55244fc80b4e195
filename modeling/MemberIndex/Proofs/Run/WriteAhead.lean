import MemberIndex.Proofs.Run.Carried
import MemberIndex.Proofs.Run.Replay

/-! # The log explains the records

A task submits its block before it puts its record. At any time of a run every record is
therefore the one that the lines of a submitted block make, and the block stands in the
log's queue or has been taken by its writer.
-/

namespace MemberIndex

/-- A writer that takes a block. It writes no more after its first failure. -/
def Writer.take (w : Writer × Option IoError) (b : Block) : Writer × Option IoError :=
  match w.2 with
  | none => w.1.writeBlock b
  | some _ => w

namespace Sink

theorem foldl_submit (k : Sink) {bs : List Block} (hb : ∀ b ∈ bs, b.isEmpty = false) :
    (bs.foldl submit k).queue = k.queue ++ bs ∧ (bs.foldl submit k).writer = k.writer ∧
      (bs.foldl submit k).failure = k.failure := by
  induction bs generalizing k with
  | nil => simp
  | cons b bs ih =>
    have hne : b.isEmpty = false := hb b List.mem_cons_self
    rw [List.foldl_cons]
    obtain ⟨hq, hw, hf⟩ := ih (k.submit b) fun b hmem => hb b (List.mem_cons_of_mem _ hmem)
    refine ⟨?_, hw.trans (by simp [submit, hne]), hf.trans (by simp [submit, hne])⟩
    rw [hq]
    simp [submit, hne]

theorem drainOne_of_ne_nil {k : Sink} (h : k.queue ≠ []) :
    ∃ b, k.queue = b :: k.drainOne.queue ∧
      (k.drainOne.writer, k.drainOne.failure) = Writer.take (k.writer, k.failure) b := by
  obtain ⟨w, queue, n, failure⟩ := k
  cases queue with
  | nil => exact absurd rfl h
  | cons b rest => cases failure <;> exact ⟨b, rfl, rfl⟩

end Sink

namespace Workbench

variable {p : Workbench} {path : Path} {phase : Phase} {own : List Deed} {i : String}
  {m : Members}

theorem block?_of_finding {x : Finding} (h : p.finding? path = some x) :
    ∃ ls, identity? p.root path = some x.identity ∧
      p.block? path = some ⟨Block.header path :: ls⟩ ∧ x.members = Members.ofLines ls := by
  unfold finding? at h
  cases hi : identity? p.root path with
  | none => simp [hi] at h
  | some i =>
    cases hx : p.tool.hearing? path with
    | none => simp [hi, hx] at h
    | some y =>
      obtain ⟨ls, ending⟩ := y
      cases ending with
      | error e => simp [hi, hx] at h
      | ok exit =>
        simp only [hi, hx, Option.some.injEq] at h
        subst h
        exact ⟨ls, rfl, by simp [block?, heard, hi, hx], rfl⟩

def Quiet (ds : List Deed) : Prop :=
  ds.filterMap Deed.row? = [] ∧ ds.filterMap Deed.block? = []

theorem Quiet.append {ds es : List Deed} (hd : Quiet ds) (he : Quiet es) : Quiet (ds ++ es) := by
  constructor
  · rw [List.filterMap_append, hd.1, he.1, List.append_nil]
  · rw [List.filterMap_append, hd.2, he.2, List.append_nil]

theorem quiet_warnings (exit : ToolEnd) : Quiet (warnings path exit) := by
  unfold warnings
  split <;> exact ⟨rfl, rfl⟩

/-- At any time a task has submitted a block at most, and then put a record at most. -/
theorem outline_of_told (h : p.Told path phase own) :
    (∃ es ds, own = es ++ ds ∧ es <+: p.prelude path ∧ Quiet ds) ∨
      ∃ x replaced ds, p.finding? path = some x ∧
        own = p.prelude path ++ .records x.identity x.members replaced :: ds ∧ Quiet ds := by
  have hself : p.prelude path <+: p.prelude path := List.prefix_rfl
  have hcounts : Quiet [.counts] := ⟨rfl, rfl⟩
  cases phase with
  | scheduled => exact .inl ⟨[], [], h, List.nil_prefix, rfl, rfl⟩
  | announced => exact .inl ⟨_, [], by rw [h, List.append_nil], by simp [prelude], rfl, rfl⟩
  | disassembled => exact .inl ⟨_, [], by rw [h.1, List.append_nil], hself, rfl, rfl⟩
  | refused => exact .inl ⟨_, [], by rw [h.2, List.append_nil], hself, rfl, rfl⟩
  | reported => exact .inl ⟨_, _, h.2, hself, rfl, rfl⟩
  | stored o =>
    obtain ⟨m, hx, rfl⟩ := h
    exact .inr ⟨_, o.replaced, [], hx, rfl, rfl, rfl⟩
  | counted o =>
    obtain ⟨m, hx, rfl⟩ := h
    exact .inr ⟨_, o.replaced, [.counts], hx, rfl, hcounts⟩
  | warned o =>
    obtain ⟨m, hx, -, rfl⟩ := h
    exact .inr ⟨_, o.replaced, [.counts, .warns], hx, by simp, rfl, rfl⟩
  | checked o =>
    obtain ⟨m, hx, rfl⟩ := h
    refine .inr ⟨_, o.replaced, [.counts] ++ warnings path o.exit, hx, by simp, ?_⟩
    exact hcounts.append (quiet_warnings o.exit)
  | collided o =>
    obtain ⟨m, hx, -, rfl⟩ := h
    refine .inr ⟨_, o.replaced, [.counts] ++ warnings path o.exit ++ [.collides], hx, by simp, ?_⟩
    exact (hcounts.append (quiet_warnings o.exit)).append ⟨rfl, rfl⟩
  | finished =>
    cases h with
    | failed he => exact .inl ⟨_, _, rfl, hself, rfl, rfl⟩
    | @recorded x hx replaced =>
      refine .inr ⟨x, replaced, [.counts] ++ warnings path x.exit ++
        if replaced.isSome then [.collides, .tells (.overwritten path x.identity)] else [], hx,
        by simp, ?_⟩
      refine (hcounts.append (quiet_warnings x.exit)).append ?_
      split <;> exact ⟨rfl, rfl⟩

theorem row?_prelude : (p.prelude path).filterMap Deed.row? = [] := by
  cases hb : p.block? path <;> simp [prelude, hb, List.filterMap_cons]

theorem block?_prelude : (p.prelude path).filterMap Deed.block? = (p.block? path).toList := by
  cases hb : p.block? path <;> simp [prelude, hb, List.filterMap_cons]

theorem finding?_of_told (h : p.Told path phase own) (hm : (i, m) ∈ own.filterMap Deed.row?) :
    ∃ x, p.finding? path = some x ∧ x.identity = i ∧ x.members = m ∧ p.prelude path <+: own := by
  rcases outline_of_told h with ⟨es, ds, rfl, hes, hds⟩ | ⟨x, replaced, ds, hx, rfl, hds⟩
  · have hnone : es.filterMap Deed.row? = [] := by
      have := hes.filterMap Deed.row?
      rwa [row?_prelude, List.prefix_nil] at this
    rw [List.filterMap_append, hnone, hds.1] at hm
    cases hm
  · rw [List.filterMap_append, row?_prelude, List.filterMap_cons, hds.1] at hm
    obtain ⟨rfl, rfl⟩ := Prod.mk.inj (List.mem_singleton.1 hm)
    exact ⟨x, hx, rfl, rfl, List.prefix_append _ _⟩

theorem length_blocks_of_told (h : p.Told path phase own) :
    (own.filterMap Deed.block?).length ≤ 1 := by
  have hone : (p.block? path).toList.length ≤ 1 := by cases p.block? path <;> simp
  rw [← block?_prelude] at hone
  rcases outline_of_told h with ⟨es, ds, rfl, hes, hds⟩ | ⟨x, replaced, ds, -, rfl, hds⟩
  · rw [List.filterMap_append, hds.2, List.append_nil]
    exact Nat.le_trans (hes.filterMap Deed.block?).length_le hone
  · rw [List.filterMap_append, List.filterMap_cons_none rfl, hds.2, List.append_nil]
    exact hone

end Workbench

theorem History.mem_own_iff {t : Nat} {x : Deed} {h : History} : x ∈ h.own t ↔ (t, x) ∈ h := by
  simp [History.own]

/-- What a history, which begins with a sink, tells of the records and of the sink that
it leads to: every record is made of the lines of a block that has been submitted, no task
has submitted two, and a submitted block waits in the queue unless the writer took it. -/
structure Explained (p : Workbench) (paths : List Path) (k : Sink) (h : History) (s : Shared) :
    Prop where
  record : ∀ i m, s.records[i]? = some m → ∃ t path b, paths[t]? = some path ∧
    identity? p.root path = some i ∧ (t, .submits b) ∈ h ∧
      b.lines.head? = some (Block.header path) ∧ m = b.lines.tail.foldl Members.scanLine ∅
  once : ∀ t, ((h.own t).filterMap Deed.block?).length ≤ 1
  log : ∃ taken, k.queue ++ h.deeds.filterMap Deed.block? = taken ++ s.sink.queue ∧
    (s.sink.writer, s.sink.failure) = taken.foldl Writer.take (k.writer, k.failure)

namespace Crew

variable {p : Workbench} {paths : List Path} {s : Shared} {h : History} {c d : Crew}

theorem isEmpty_of_turn {path : Path} {r : Records} {phase phase' : Phase} {ds : List Deed}
    (ht : Turn p path r phase ds phase') : ∀ b ∈ ds.filterMap Deed.block?, b.isEmpty = false := by
  cases ht with
  | disassemble hi ha =>
    obtain ⟨x, -, rfl⟩ := Workbench.attempt_eq_ok ha
    intro b hb
    obtain rfl := List.mem_singleton.1 hb
    rfl
  | _ => exact nofun

/-- The blocks leave the queue in the order in which they were submitted. -/
theorem Runs.exists_taken (hr : Runs p c h d) :
    ∃ taken, c.shared.sink.queue ++ h.deeds.filterMap Deed.block? =
        taken ++ d.shared.sink.queue ∧
      (d.shared.sink.writer, d.shared.sink.failure) =
        taken.foldl Writer.take (c.shared.sink.writer, c.shared.sink.failure) := by
  induction hr with
  | refl => exact ⟨[], by simp [History.deeds], rfl⟩
  | @task h before after path phase phase' s ds _ ht ih =>
    obtain ⟨taken, hq, hw⟩ := ih
    obtain ⟨hq', hw', hf'⟩ := s.sink.foldl_submit (isEmpty_of_turn ht)
    refine ⟨taken, ?_, ?_⟩
    · rw [History.deeds_append_turn, List.filterMap_append, ← List.append_assoc, hq,
        List.append_assoc, Shared.foldl_act]
      exact congrArg (taken ++ ·) hq'.symm
    · rw [← hw, Shared.foldl_act]
      exact Prod.ext hw' hf'
  | @writer h d _ hne ih =>
    obtain ⟨taken, hq, hw⟩ := ih
    obtain ⟨b, hb, hb'⟩ := Sink.drainOne_of_ne_nil hne
    refine ⟨taken ++ [b], ?_, ?_⟩
    · rw [hq, hb, List.append_assoc]
      rfl
    · rw [List.foldl_append, ← hw]
      exact hb'

theorem Runs.explained (he : s.records = ∅) (hr : Runs p (.init paths s) h d) :
    Explained p paths s.sink h d.shared := by
  obtain ⟨hp, hlt, htold⟩ := hr.told
  have htask (t : Nat) (ht : t < paths.length) :
      ∃ phase, p.Told paths[t] phase (h.own t) := by
    have hd : t < d.tasks.length := by rw [← hp] at ht; simpa using ht
    refine ⟨d.tasks[t].2, ?_⟩
    have hpath : paths[t] = d.tasks[t].1 := by simp [← hp]
    rw [hpath]
    exact htold t _ _ (List.getElem?_eq_getElem hd)
  constructor
  · intro i m him
    rw [hr.shared_eq] at him
    have hrow : (i, m) ∈ h.deeds.filterMap Deed.row? := by
      rcases Records.mem_of_getElem?_putAll him with hrow | hbefore
      · exact hrow
      · rw [show (init paths s).shared.records = ∅ from he] at hbefore
        simp at hbefore
    obtain ⟨x, hx, hrow⟩ := List.mem_filterMap.1 hrow
    obtain ⟨⟨t, _⟩, hmem, rfl⟩ := List.mem_map.1 hx
    have ht : t < paths.length := hlt _ hmem
    obtain ⟨phase, hphase⟩ := htask t ht
    obtain ⟨y, hy, rfl, rfl, htell⟩ := Workbench.finding?_of_told hphase
      (List.mem_filterMap.2 ⟨_, History.mem_own_iff.2 hmem, hrow⟩)
    obtain ⟨ls, hi, hb, hm⟩ := Workbench.block?_of_finding hy
    refine ⟨t, paths[t], ⟨Block.header paths[t] :: ls⟩, List.getElem?_eq_getElem ht, hi, ?_,
      rfl, hm⟩
    exact History.mem_own_iff.1 (htell.subset (by simp [Workbench.prelude, hb]))
  · intro t
    by_cases ht : t < paths.length
    · obtain ⟨phase, hphase⟩ := htask t ht
      exact Workbench.length_blocks_of_told hphase
    · have hnone : h.own t = [] := by
        rw [List.eq_nil_iff_forall_not_mem]
        intro x hx
        exact ht (hlt _ (History.mem_own_iff.1 hx))
      simp [hnone]
  · exact hr.exists_taken

/-- Every state of a run that began without records is explained by each of its
histories, and it has one. -/
theorem log_explains_records (he : s.records = ∅) (hr : Reaches p (.init paths s) d) :
    (∃ h, Runs p (.init paths s) h d) ∧
      ∀ h, Runs p (.init paths s) h d → Explained p paths s.sink h d.shared := by
  constructor
  · exact reaches_iff_runs.1 hr
  · intro h hr
    exact hr.explained he

theorem log_explains_records_of_failed_tool :
    ∃ d h, Reaches ⟨.ofString "in", .always { ending := .exits (.code 1) }, ⟨0⟩⟩
        (.init [.ofString "in/A.class"] {}) d ∧
      d.shared.records.size = 1 ∧
      Explained ⟨.ofString "in", .always { ending := .exits (.code 1) }, ⟨0⟩⟩
        [.ofString "in/A.class"] {} h d.shared := by
  have hdone : ((⟨.ofString "in", .always { ending := .exits (.code 1) }, ⟨0⟩⟩ : Workbench).runCrew
      1 {} [.ofString "in/A.class"]).1 = none := by decide
  obtain ⟨d, hr, -, hs⟩ := Workbench.reaches_of_runCrew hdone
  obtain ⟨⟨h, hruns⟩, hall⟩ := log_explains_records rfl hr
  exact ⟨d, h, hr, by rw [hs]; decide, hall h hruns⟩

end Crew

end MemberIndex
