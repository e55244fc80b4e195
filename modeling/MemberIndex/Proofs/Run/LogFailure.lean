import Mathlib
import MemberIndex.Proofs.Run.OrderIndependence
import MemberIndex.Proofs.Run.WriteAhead
import MemberIndex.Proofs.Transcript.Channel

-- The examples are evaluated with equations of library functions, some of which other parts of the
-- library make too: the whole of it is imported, so that no equation is made twice.

/-! # Failures of the log

Whether the log's destination takes everything, fails at any byte or only when it is flushed,
a run comes to the same tally, the same number of transcript lines and the same records. The
failure shows in the inventory's fault alone, and it shows there whenever there was one.
-/

namespace MemberIndex

namespace Writer

/-- Whether a writer fails on the way through so many bytes, or when it is flushed behind
them. -/
def FailsWithin (w : Writer) (n : Nat) : Prop :=
  (∃ m, w.room = some m ∧ m < n) ∨ w.flushFault.isSome = true

theorem take_eq_push (w : Writer × Option IoError) (b : Block) :
    take w b = push w b.render := by
  obtain ⟨w, failure⟩ := w
  cases failure with
  | none => exact w.writeBlock_eq b
  | some e => rfl

theorem foldl_take (w : Writer × Option IoError) (bs : List Block) :
    bs.foldl take w = push w (bs.flatMap Block.render) := by
  induction bs generalizing w with
  | nil => exact (push_nil w).symm
  | cons b bs ih => rw [List.foldl_cons, ih, take_eq_push, List.flatMap_cons, push_append]

end Writer

theorem Sink.shutdown_eq_error_iff (k : Sink) : (∃ e, k.shutdown.1 = .error e) ↔
    k.drain.failure.isSome = true ∨ k.drain.writer.flushFault.isSome = true := by
  cases hf : k.drain.failure <;> cases hg : k.drain.writer.flushFault <;>
    simp [shutdown, hf, hg]

namespace Workbench

def logSize (p : Workbench) (paths : List Path) : Nat :=
  ((paths.filterMap p.block?).map fun b => b.render.length).sum

end Workbench

namespace Crew

variable {p : Workbench} {paths : List Path} {s : Shared} {h : History} {c d : Crew}

theorem Runs.drained (hr : Runs p c h d) :
    (d.shared.sink.drain.writer, d.shared.sink.drain.failure) =
      Writer.push (c.shared.sink.writer, c.shared.sink.failure)
        ((c.shared.sink.queue ++ h.deeds.filterMap Deed.block?).flatMap Block.render) := by
  obtain ⟨taken, hq, hw⟩ := hr.exists_taken
  obtain ⟨-, -, hdrained⟩ := d.shared.sink.drain_spec
  rw [hdrained, hw, Writer.foldl_take, ← Writer.push_append, ← List.flatMap_append, ← hq]

theorem Runs.records_agree {clock : Moment} {s' : Shared} {h' : History} {c' : Crew}
    (hr : Runs p (.init paths s) h c) (hd : c.IsDone)
    (hr' : Runs { p with clock := clock } (.init paths s') h' c') (hd' : c'.IsDone)
    (hs : s.records = s'.records) :
    (∀ i, i ∈ c.shared.records ↔ i ∈ c'.shared.records) ∧
      ∀ i, paths.countP (p.produces i) ≤ 1 → c.shared.records[i]? = c'.shared.records[i]? := by
  obtain ⟨entries, hp, hrec⟩ := hr.exists_records_eq hd
  obtain ⟨entries', hp', hrec'⟩ := hr'.exists_records_eq hd'
  have hperm : entries.Perm entries' := hp.trans hp'.symm
  rw [hrec, hrec', hs]
  constructor
  · intro i
    rw [Records.mem_putAll_iff, Records.mem_putAll_iff]
    simp only [hperm.mem_iff]
  · intro i hi
    apply Records.getElem?_putAll_of_perm hperm
    rw [hp.countP_eq, Workbench.countP_entries]
    exact hi

theorem Runs.written {w : Writer} {r : Records} {es : List Event}
    (hr : Runs p (.init paths { records := r, sink := { writer := w }, events := es }) h c) :
    (c.shared.sink.drain.writer, c.shared.sink.drain.failure) =
      w.write ((h.deeds.filterMap Deed.block?).flatMap Block.render) :=
  hr.drained

theorem shutdown_fails_iff {w : Writer} {r : Records} {es : List Event}
    (hr : Runs p (.init paths { records := r, sink := { writer := w }, events := es }) h c)
    (hd : c.IsDone) :
    (∃ e, c.shared.sink.shutdown.1 = .error e) ↔ w.FailsWithin (p.logSize paths) := by
  have hlength : ((h.deeds.filterMap Deed.block?).flatMap Block.render).length =
      p.logSize paths := by
    rw [List.length_flatMap]
    exact ((hr.blocks hd).map _).sum_nat
  have hfailure := congrArg Prod.snd hr.written
  have hflush := congrArg (·.1.flushFault) hr.written
  simp only [Writer.flushFault_write] at hfailure hflush
  rw [Sink.shutdown_eq_error_iff, hfailure, hflush, Writer.isSome_write_iff, hlength]
  rfl

end Crew

namespace Run

variable {tool : Tool} {w w' : Writer} {s s' : Settings} {clock clock' : Moment} {t : FileTree}
  {run run' : Run} {inv inv' : Inventory}

/-- The completed runs that settings may come to with any tool in the disassembler's place and
any writer behind the opened log. -/
inductive LogsTo (tool : Tool) (w : Writer) (s : Settings) (clock : Moment) (t : FileTree) :
    Run → Prop
  | completed {r : OpenRun} {c : Crew} (h : start s t = .ok r)
    (hc : Crew.Reaches ⟨s.root, tool, clock⟩
      (.init r.discovery.artifacts { r.shared with sink := { writer := w } }) c)
    (hd : c.IsDone) : LogsTo tool w s clock t (r.close c.shared)

/-- The completed runs that so many workers may come to with any tool in the disassembler's
place and any writer behind the opened log. -/
inductive WorksTo (workers : Nat) (tool : Tool) (w : Writer) (s : Settings) (clock : Moment)
    (t : FileTree) : Run → Prop
  | completed {r : OpenRun} {c : Crew} (h : start s t = .ok r)
    (hc : Crew.Works ⟨s.root, tool, clock⟩ workers
      (.init r.discovery.artifacts { r.shared with sink := { writer := w } }) c)
    (hd : c.IsDone) : WorksTo workers tool w s clock t (r.close c.shared)

theorem WorksTo.logsTo {workers : Nat} (h : WorksTo workers tool w s clock t run) :
    LogsTo tool w s clock t run := by
  cases h with
  | completed hs hc hd => exact .completed hs hc.reaches hd

/-- The log of a run writes to the file or the device that was opened, from the beginning. -/
theorem exists_writer (r : OpenRun) :
    ∃ w : Writer, w.written = #[] ∧ r.shared = { r.shared with sink := { writer := w } } := by
  refine ⟨r.shared.sink.writer, ?_, ?_⟩
  · unfold OpenRun.shared Log.sink
    split <;> rfl
  · unfold OpenRun.shared Log.sink
    split <;> rfl

theorem BuildsWith.exists_logsTo (hb : BuildsWith tool s clock t run)
    (hrun : run.outcome = .complete inv) :
    ∃ w, w.written = #[] ∧ LogsTo tool w s clock t run := by
  cases hb with
  | ended h =>
    obtain ⟨e, he⟩ := failed_of_start_eq_error h
    cases he.symm.trans hrun
  | @completed r c h hc hd =>
    obtain ⟨w, hempty, hsink⟩ := exists_writer r
    rw [hsink] at hc
    exact ⟨w, hempty, .completed h hc hd⟩

theorem exists_worksTo_buildWith (hrun : (buildWith tool s clock t).outcome = .complete inv) :
    ∃ w, w.written = #[] ∧ WorksTo s.jobs tool w s clock t (buildWith tool s clock t) := by
  unfold buildWith at hrun ⊢
  cases hs : start s t with
  | error r =>
    obtain ⟨e, he⟩ := failed_of_start_eq_error hs
    simp only [hs] at hrun
    cases he.symm.trans hrun
  | ok r =>
    simp only [hs] at hrun ⊢
    cases hc : (⟨s.root, tool, clock⟩ : Workbench).runCrew s.jobs r.shared
        r.discovery.artifacts with
    | mk stall shared =>
      rw [hc] at hrun
      cases stall with
      | some stall => cases hrun
      | none =>
        obtain ⟨c, hw, hd, hcs⟩ := Workbench.works_of_runCrew (congrArg Prod.fst hc)
        obtain rfl : c.shared = shared := by rw [hcs, hc]
        obtain ⟨w, hempty, hsink⟩ := exists_writer r
        rw [hsink] at hw
        exact ⟨w, hempty, .completed hs hw hd⟩

theorem isSome_fault_iff {r : OpenRun} {shared : Shared}
    (h : (r.close shared).outcome = .complete inv) :
    inv.transcriptFault.isSome = true ↔ ∃ e, shared.sink.shutdown.1 = .error e := by
  unfold OpenRun.close at h
  cases hshutdown : shared.sink.shutdown with
  | mk closed sink =>
    rw [hshutdown] at h
    cases closed with
    | ok _ =>
      cases h
      simp
    | error e =>
      cases h
      simp

theorem LogsTo.isSome_fault_iff (h : LogsTo tool w s clock t run)
    (hrun : run.outcome = .complete inv) {d : Discovery}
    (hd : discover t s.root s.extension = .ok d) :
    inv.transcriptFault.isSome = true ↔
      w.FailsWithin ((⟨s.root, tool, clock⟩ : Workbench).logSize d.artifacts) := by
  cases h with
  | completed hs hc hdone =>
    cases (start_eq_ok hs).2.symm.trans hd
    obtain ⟨history, hruns⟩ := Crew.reaches_iff_runs.1 hc
    exact (Run.isSome_fault_iff hrun).trans (Crew.shutdown_fails_iff hruns hdone)

/-- Two completed runs over a tree with one tool, whatever the order of their steps, whose logs
were opened: however their destinations behave from then on, the runs agree on the tally, if the
paths' texts tell them apart, on the number of transcript lines, and on each record that one
task puts alone. Each of them has a fault where its own destination failed. Behind this stands
that a channel refuses nothing that is sent, whatever its writer, and comes to what a sink comes
to. -/
theorem agree_whatever_log (h : LogsTo tool w s clock t run)
    (h' : LogsTo tool w' s' clock' t run') (hroot : s'.root = s.root)
    (hextension : s'.extension = s.extension) (hrun : run.outcome = .complete inv)
    (hrun' : run'.outcome = .complete inv') :
    ∃ d, discover t s.root s.extension = .ok d ∧
      ((d.artifacts.map Path.display).Nodup → inv.tally = inv'.tally) ∧
      inv.transcriptLines = inv'.transcriptLines ∧
      (∀ i, d.artifacts.countP ((⟨s.root, tool, clock⟩ : Workbench).produces i) ≤ 1 →
        inv.records[i]? = inv'.records[i]?) ∧
      (inv.transcriptFault.isSome = true ↔
        w.FailsWithin ((⟨s.root, tool, clock⟩ : Workbench).logSize d.artifacts)) ∧
      (inv'.transcriptFault.isSome = true ↔
        w'.FailsWithin ((⟨s.root, tool, clock⟩ : Workbench).logSize d.artifacts)) ∧
      ∀ v calls c, Channel.Runs v calls c → (c.held ≠ [] → c.answer = none) ∧
        ∀ r, c.answer = some r →
          (r, c.sink) = ((Channel.blocks calls).foldl Sink.submit { writer := v }).shutdown := by
  have hfault := fun d => h.isSome_fault_iff hrun (d := d)
  have hfault' := fun d => h'.isSome_fault_iff hrun' (d := d)
  rw [hroot, hextension] at hfault'
  cases h with
  | @completed r c hs hc hd =>
    cases h' with
    | @completed r' c' hs' hc' hd' =>
      obtain ⟨history, hruns⟩ := Crew.reaches_iff_runs.1 hc
      obtain ⟨history', hruns'⟩ := Crew.reaches_iff_runs.1 hc'
      have hfound := (start_eq_ok hs).2
      have hfound' := (start_eq_ok hs').2
      rw [hroot, hextension, hfound] at hfound'
      obtain hdiscovery : r.discovery = r'.discovery := Except.ok.inj hfound'
      rw [hroot, ← hdiscovery] at hruns'
      obtain ⟨hmem, hrecords⟩ := hruns.records_agree hd hruns' hd' rfl
      have hb := hruns.balanced hd
      have hb' : Balanced ⟨s.root, tool, clock⟩ r.discovery.artifacts ∅ { writer := w' }
          c'.shared := (hruns'.balanced hd').of_clock
      cases hrun
      cases hrun'
      refine ⟨r.discovery, hfound, ?_, ?_, hrecords, hfault _ hfound, hfault' _ hfound, ?_⟩
      · intro hn
        change c.shared.tally r.discovery.artifacts.length =
          c'.shared.tally r'.discovery.artifacts.length
        rw [← hdiscovery]
        exact hb.tally_eq hb' hn (Records.size_eq_of_mem_iff hmem)
      · change c.shared.sink.drain.submitted = c'.shared.sink.drain.submitted
        rw [c.shared.sink.drain_spec.2.1, c'.shared.sink.drain_spec.2.1]
        exact hb.submitted.trans hb'.submitted.symm
      · rintro v calls c hchannel
        refine ⟨?_, fun answer ha => hchannel.kept.eq_of_answer ha⟩
        intro hheld
        obtain ⟨i, hi⟩ := List.exists_mem_of_ne_nil _ hheld
        exact hchannel.kept.answer_of_held hi

/-- What is carried out for settings with any tool in the disassembler's place and any writer
behind the opened log, if it completes. -/
def logTo (tool : Tool) (w : Writer) (s : Settings) (clock : Moment) (t : FileTree) :
    Option Run :=
  match start s t with
  | .error _ => none
  | .ok r =>
    match (⟨s.root, tool, clock⟩ : Workbench).runCrew s.jobs
        { r.shared with sink := { writer := w } } r.discovery.artifacts with
    | (some _, _) => none
    | (none, shared) => some (r.close shared)

theorem worksTo_of_logTo (h : logTo tool w s clock t = some run) :
    WorksTo s.jobs tool w s clock t run := by
  unfold logTo at h
  cases hs : start s t with
  | error r => simp [hs] at h
  | ok r =>
    simp only [hs] at h
    split at h
    · cases h
    · rename_i shared hc
      cases h
      obtain ⟨c, hw, hd, hcs⟩ := Workbench.works_of_runCrew (congrArg Prod.fst hc)
      obtain rfl : c.shared = shared := by rw [hcs, hc]
      exact .completed hs hw hd

theorem logsTo_of_logTo (h : logTo tool w s clock t = some run) :
    LogsTo tool w s clock t run :=
  (worksTo_of_logTo h).logsTo

def twoClasses : FileTree :=
  ((({} : FileTree).put [Text.Utf8.encode "in"] .directory).put
    [Text.Utf8.encode "in", Text.Utf8.encode "A.class"] (.file {})).put
    [Text.Utf8.encode "in", Text.Utf8.encode "B.class"] (.file {})

def forTwoClasses (jobs : Nat) : Settings where
  root := .ofString "/in"
  extension := "class"
  disassembler := ⟨.ofString "javap", [], none, none⟩
  jobs := jobs
  output := .ofString "/out"
  log := .ofString "/log"
  appendLog := false

set_option maxRecDepth 10000 in
/-- One worker with a log that takes everything, and two with a log that fails at its fourth
byte. -/
theorem agree_whatever_log_of_full_log :
    ∃ run run' inv inv', LogsTo (.always {}) {} (forTwoClasses 1) ⟨0⟩ twoClasses run ∧
      LogsTo (.always {}) { room := some 3 } (forTwoClasses 2) ⟨0⟩ twoClasses run' ∧
      run.outcome = .complete inv ∧ run'.outcome = .complete inv' ∧
      inv.transcriptFault = none ∧ inv'.transcriptFault.isSome = true ∧
      inv.transcriptLines = inv'.transcriptLines ∧ inv.transcriptLines = 2 := by
  have hone : ((logTo (.always {}) {} (forTwoClasses 1) ⟨0⟩ twoClasses).bind inventory?).map
      (fun inv => (inv.transcriptFault.isNone, inv.transcriptLines)) = some (true, 2) := by cbv
  have htwo : ((logTo (.always {}) { room := some 3 } (forTwoClasses 2) ⟨0⟩ twoClasses).bind
      inventory?).map (·.transcriptFault.isSome) = some true := by cbv
  obtain ⟨inv, hinv, hfacts⟩ := Option.map_eq_some_iff.1 hone
  obtain ⟨run, hrun, hcomplete⟩ := Option.bind_eq_some_iff.1 hinv
  obtain ⟨inv', hinv', hfacts'⟩ := Option.map_eq_some_iff.1 htwo
  obtain ⟨run', hrun', hcomplete'⟩ := Option.bind_eq_some_iff.1 hinv'
  have hlogs := logsTo_of_logTo hrun
  have hlogs' := logsTo_of_logTo hrun'
  have houtcome := inventory?_eq_some hcomplete
  have houtcome' := inventory?_eq_some hcomplete'
  obtain ⟨d, -, -, hlines, -⟩ := agree_whatever_log hlogs hlogs' rfl rfl houtcome houtcome'
  obtain ⟨hfault, hcount⟩ := Prod.mk.inj hfacts
  exact ⟨run, run', inv, inv', hlogs, hlogs', houtcome, houtcome',
    Option.isNone_iff_eq_none.1 hfault, hfacts', hlines, hcount⟩

end Run

end MemberIndex
