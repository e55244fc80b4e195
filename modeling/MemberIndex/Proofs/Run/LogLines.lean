import Mathlib.Algebra.Order.BigOperators.Group.List
import Mathlib.Algebra.Order.Group.Nat
import MemberIndex.Proofs.Discovery.Identities
import MemberIndex.Proofs.FileTree.Open
import MemberIndex.Proofs.Run.LogFailure
import MemberIndex.Proofs.Text.Lines

/-! # The lines of a log

A run counts the lines of the blocks that its tasks submit. Lines that were read from a tool
hold no line feed, so each of them is one line of the log. The name in a block's header is not
read by lines: a line feed in it divides the header, which was counted as one line.
-/

namespace MemberIndex

/-- What the line feeds of a file end, each its line. -/
def File.lines (f : File) : List (List UInt8) := (Text.fields 10 f.content.bytes).dropLast

theorem File.length_lines (f : File) : f.lines.length = f.content.bytes.count 10 := by
  rw [lines, List.length_dropLast, Text.length_fields, Nat.add_sub_cancel]

/-- Whether a line is among those that a tool puts out for an artifact. -/
def Tool.Prints (tool : Tool) (path : Path) (line : String) : Prop :=
  ∃ b, tool.start path = .ok b ∧ line ∈ Text.pipeLines b.output

namespace Behaviour

variable {b : Behaviour} {limit : Option Duration} {line : String}

theorem mem_pipeLines_of_mem_lines (h : line ∈ b.lines) : line ∈ Text.pipeLines b.output := by
  unfold lines at h
  split at h
  · exact h
  · obtain ⟨raw, hraw, rfl⟩ := List.mem_map.1 h
    exact List.mem_map_of_mem (List.mem_of_mem_filter hraw)

theorem mem_lines_of_mem_within (h : line ∈ (b.within limit).lines) : line ∈ b.lines := by
  unfold within at h
  split at h
  · cases h
  · exact h

end Behaviour

namespace Block

/-- What a block comes to when it is read by lines: its own lines, divided at the line feeds in
them. -/
def printed (b : Block) : List (List UInt8) :=
  b.lines.flatMap fun line => Text.fields 10 (Text.Utf8.encode line)

theorem fields_render_append (b : Block) (rest : List UInt8) :
    Text.fields 10 (b.render ++ rest) = b.printed ++ Text.fields 10 rest := by
  obtain ⟨lines⟩ := b
  induction lines with
  | nil => rfl
  | cons line lines ih =>
    have hline : (⟨line :: lines⟩ : Block).render ++ rest =
        Text.Utf8.encode line ++ 10 :: ((⟨lines⟩ : Block).render ++ rest) := by
      simp [render]
    rw [hline, Text.fields_append_cons, ih, ← List.append_assoc]
    rfl

theorem fields_flatMap_render (bs : List Block) :
    Text.fields 10 (bs.flatMap render) = bs.flatMap printed ++ [[]] := by
  induction bs with
  | nil => rfl
  | cons b bs ih =>
    rw [List.flatMap_cons, fields_render_append, ih, List.flatMap_cons, List.append_assoc]

theorem lines_of_flatMap_render {f : File} {bs : List Block}
    (h : f.content.bytes = bs.flatMap render) :
    f.lines = bs.flatMap printed ∧ Text.fields 10 f.content.bytes = f.lines ++ [[]] := by
  have hlines : f.lines = bs.flatMap printed := by
    rw [File.lines, h, fields_flatMap_render, List.dropLast_concat]
  exact ⟨hlines, by rw [hlines, h, fields_flatMap_render]⟩

theorem count_render (b : Block) :
    b.render.count 10 = b.size + (b.lines.map fun line => line.toList.count '\n').sum := by
  obtain ⟨lines⟩ := b
  induction lines with
  | nil => rfl
  | cons line lines ih =>
    have hline : (⟨line :: lines⟩ : Block).render =
        Text.Utf8.encode line ++ [10] ++ (⟨lines⟩ : Block).render := rfl
    rw [hline, List.count_append, List.count_append, Text.count_newline_encode, ih]
    simp [size]
    omega

theorem count_newline_header (path : Path) :
    (header path).toList.count '\n' = (title path).toList.count '\n' := by
  have hmark : headerMark.toList.count '\n' = 0 := by decide
  rw [header, String.toList_append, List.count_append, hmark, Nat.zero_add]

theorem fields_header {path : Path} (h : '\n' ∉ (title path).toList) :
    Text.fields 10 (Text.Utf8.encode (header path)) = [Text.Utf8.encode (header path)] := by
  apply Text.fields_encode
  rw [← List.count_eq_zero, count_newline_header]
  exact List.count_eq_zero.2 h

end Block

namespace Workbench

variable {p : Workbench} {path : Path} {paths : List Path} {line : String}

theorem prints_of_mem_heard (h : line ∈ p.heard path) : p.tool.Prints path line := by
  unfold heard Tool.hearing? at h
  cases hb : p.tool.start path with
  | error e => simp [hb] at h
  | ok b =>
    simp only [hb] at h
    cases hx : (b.within p.tool.limit).hearing? p.tool.limit with
    | none => simp [hx] at h
    | some x =>
      rw [hx] at h
      have hline : line ∈ (b.within p.tool.limit).lines := Behaviour.lines_of_hearing hx ▸ h
      have hprinted := Behaviour.mem_lines_of_mem_within hline
      exact ⟨b, hb, Behaviour.mem_pipeLines_of_mem_lines hprinted⟩

theorem newline_notMem_heard (h : line ∈ p.heard path) : '\n' ∉ line.toList := by
  obtain ⟨b, -, hline⟩ := prints_of_mem_heard h
  exact Text.newline_notMem_pipeLines hline

theorem filterMap_block? (hi : ∀ q ∈ paths, (identity? p.root q).isSome = true) :
    paths.filterMap p.block? = paths.map fun q => ⟨Block.header q :: p.heard q⟩ := by
  rw [← List.filterMap_eq_map]
  apply List.filterMap_congr
  intro q hq
  obtain ⟨i, hi⟩ := Option.isSome_iff_exists.1 (hi q hq)
  simp [block?, hi]

/-- The blocks of tasks have the line feeds behind their lines, and those in their titles. -/
theorem count_blocks (hi : ∀ q ∈ paths, (identity? p.root q).isSome = true) :
    ((paths.filterMap p.block?).flatMap Block.render).count 10 =
      ((paths.filterMap p.block?).map Block.size).sum +
        (paths.map fun q => (Block.title q).toList.count '\n').sum := by
  have hheard (q : Path) : ((p.heard q).map fun line => line.toList.count '\n').sum = 0 := by
    apply List.sum_eq_zero
    intro n hn
    obtain ⟨line, hline, rfl⟩ := List.mem_map.1 hn
    exact List.count_eq_zero.2 (newline_notMem_heard hline)
  rw [filterMap_block? hi, List.count_flatMap, List.map_map, List.map_map, ← List.sum_map_add]
  congr 1
  apply List.map_congr_left
  intro q _
  simp [Block.count_render, Block.count_newline_header, hheard]

theorem exists_of_mem_printed {b : Block} (hb : b ∈ paths.filterMap p.block?) {piece : List UInt8}
    (h : piece ∈ b.printed) :
    ∃ q ∈ paths, piece ∈ Text.fields 10 (Text.Utf8.encode (Block.header q)) ∨
      ∃ line, p.tool.Prints q line ∧ piece = Text.Utf8.encode line := by
  obtain ⟨q, hq, hblock⟩ := List.mem_filterMap.1 hb
  obtain ⟨i, -, rfl⟩ := Option.map_eq_some_iff.1 hblock
  obtain ⟨line, hline, hpiece⟩ := List.mem_flatMap.1 h
  refine ⟨q, hq, ?_⟩
  rcases List.mem_cons.1 hline with rfl | hheard
  · exact .inl hpiece
  · rw [Text.fields_encode (newline_notMem_heard hheard), List.mem_singleton] at hpiece
    exact .inr ⟨line, prints_of_mem_heard hheard, hpiece⟩

end Workbench

namespace Run

variable {tool : Tool} {w : Writer} {s : Settings} {clock : Moment} {t : FileTree} {run : Run}
  {inv : Inventory} {r : OpenRun} {f : File} {sink : Sink}

theorem opened_of_start (h : start s t = .ok r) :
    FileTree.Opened s.log s.appendLog r.tree r.log := by
  unfold start at h
  split at h
  · cases h
  · simp only at h
    split at h
    · cases h
    · rename_i place t' hopen
      cases h
      obtain ⟨-, t₁, -, hfile⟩ := Change.run_bind_eq_ok hopen
      exact FileTree.opened_of_openFile hfile

/-- Where a log was opened there is a device, or a file that holds what the log's writer took
behind what it held. -/
theorem find?_settle {p : Path} {append : Bool} {l : Location}
    (h : FileTree.Opened p append t l) (sink : Sink) :
    (∃ v, t.entryAt? l = some (.device v) ∧
      (Log.settle t l sink).find? p = some (.device v)) ∨
      ∃ g, t.entryAt? l = some (.file g) ∧ (Log.settle t l sink).find? p =
        some (.file { g with content := g.content.append sink.writer.written.toList }) := by
  obtain ⟨e, he, hway⟩ := h.entry
  unfold Log.settle
  rw [he]
  cases e with
  | directory | link => cases hway
  | device v => exact .inl ⟨v, rfl, h.find? rfl (FileTree.keeps_refl t) he hway⟩
  | file g =>
    have hwritten := FileTree.rewritten_rewrite
      (f := { g with content := g.content.append sink.writer.written.toList }) he
    exact .inr ⟨g, rfl, h.find? hwritten.current hwritten.keeps hwritten.file rfl⟩

theorem bytes_of_settle {p : Path} {l : Location} (h : FileTree.Opened p false t l)
    (hf : (Log.settle t l sink).find? p = some (.file f)) :
    f.content.bytes = sink.writer.written.toList := by
  rcases find?_settle h sink with ⟨v, -, hv⟩ | ⟨g, he, hg⟩
  · cases hv.symm.trans hf
  · cases hg.symm.trans hf
    rw [Content.bytes_append, h.emptied rfl g he]
    rfl

theorem bytes_of_close {history : History} {c : Crew} (hs : start s t = .ok r)
    (hr : Crew.Runs ⟨s.root, tool, clock⟩
      (.init r.discovery.artifacts { r.shared with sink := { writer := w } }) history c)
    (hw : w.written = #[]) (happend : s.appendLog = false)
    (hrun : (r.close c.shared).outcome = .complete inv) (hfault : inv.transcriptFault = none)
    (hlog : (r.close c.shared).tree.find? s.log = some (.file f)) :
    f.content.bytes = (history.deeds.filterMap Deed.block?).flatMap Block.render := by
  have hfits : c.shared.sink.drain.failure = none := by
    by_contra hfailure
    have hfails := c.shared.sink.shutdown_eq_error_iff.2
      (.inl (Option.isSome_iff_ne_none.2 hfailure))
    rw [← Run.isSome_fault_iff hrun, hfault] at hfails
    cases hfails
  have hall := Writer.written_write ((congrArg Prod.snd hr.written).symm.trans hfits)
  have hwritten : c.shared.sink.drain.writer.written = _ :=
    (congrArg (·.1.written) hr.written).trans hall
  have hopened := opened_of_start hs
  rw [happend] at hopened
  rw [bytes_of_settle hopened hlog]
  apply (congrArg Array.toList hwritten).trans
  simp [hw]

theorem LogsTo.exists_blocks (h : LogsTo tool w s clock t run) (hw : w.written = #[])
    (happend : s.appendLog = false) (hrun : run.outcome = .complete inv)
    (hfault : inv.transcriptFault = none) (hlog : run.tree.find? s.log = some (.file f)) :
    ∃ d, ∃ blocks : List Block, discover t s.root s.extension = .ok d ∧
      blocks.Perm (d.artifacts.filterMap (⟨s.root, tool, clock⟩ : Workbench).block?) ∧
      f.content.bytes = blocks.flatMap Block.render ∧
      inv.transcriptLines = (blocks.map Block.size).sum := by
  cases h with
  | @completed r c hs hc hd =>
    obtain ⟨history, hruns⟩ := Crew.reaches_iff_runs.1 hc
    refine ⟨r.discovery, _, (start_eq_ok hs).2, hruns.blocks hd,
      bytes_of_close hs hruns hw happend hrun hfault hlog, ?_⟩
    cases hrun
    change c.shared.sink.drain.submitted = _
    rw [c.shared.sink.drain_spec.2.1, hruns.submitted]
    exact Nat.zero_add _

/-- The lines of a log that was emptied before a run, which nothing went wrong with. There is
one for each line that the run has counted, and one more for each line feed in a title; so the
run has counted them if no title holds a line feed, and only then. Each of them is a header or a
part of one, or a line that a tool has put out. Every run that comes to an inventory is one of
these runs, by `BuildsWith.exists_logsTo`. -/
theorem log_counts_lines (h : LogsTo tool w s clock t run) (hw : w.written = #[])
    (ht : t.IsNamed) (happend : s.appendLog = false) (hrun : run.outcome = .complete inv)
    (hfault : inv.transcriptFault = none) (hlog : run.tree.find? s.log = some (.file f)) :
    ∃ d, discover t s.root s.extension = .ok d ∧
      Text.fields 10 f.content.bytes = f.lines ++ [[]] ∧
      f.lines.length = inv.transcriptLines +
        (d.artifacts.map fun q => (Block.title q).toList.count '\n').sum ∧
      (f.lines.length = inv.transcriptLines ↔ ∀ q ∈ d.artifacts, '\n' ∉ (Block.title q).toList) ∧
      (∀ line ∈ f.lines, ∃ q ∈ d.artifacts,
        line ∈ Text.fields 10 (Text.Utf8.encode (Block.header q)) ∨
          ∃ l, tool.Prints q l ∧ line = Text.Utf8.encode l) ∧
      ((∀ q ∈ d.artifacts, '\n' ∉ (Block.title q).toList) → ∀ line ∈ f.lines, ∃ q ∈ d.artifacts,
        line = Text.Utf8.encode (Block.header q) ∨
          ∃ l, tool.Prints q l ∧ line = Text.Utf8.encode l) := by
  obtain ⟨d, blocks, hd, hperm, hbytes, hlines⟩ :=
    h.exists_blocks hw happend hrun hfault hlog
  have hidentity : ∀ q ∈ d.artifacts, (identity? s.root q).isSome = true := by
    intro q hq
    obtain ⟨_, _, _, -, -, -, hi⟩ := (Discovery.discovers_of_discover hd).exists_identity ht hq
    rw [hi]
    rfl
  obtain ⟨hread, hend⟩ := Block.lines_of_flatMap_render hbytes
  have hlength : f.lines.length = inv.transcriptLines +
      (d.artifacts.map fun q => (Block.title q).toList.count '\n').sum := by
    rw [f.length_lines, hbytes, (hperm.flatMap_right _).count_eq, Workbench.count_blocks hidentity,
      hlines, (hperm.map _).sum_nat]
  have hsource : ∀ line ∈ f.lines, ∃ q ∈ d.artifacts,
      line ∈ Text.fields 10 (Text.Utf8.encode (Block.header q)) ∨
        ∃ l, tool.Prints q l ∧ line = Text.Utf8.encode l := by
    rw [hread]
    intro line hline
    obtain ⟨b, hb, hpiece⟩ := List.mem_flatMap.1 hline
    exact Workbench.exists_of_mem_printed (hperm.subset hb) hpiece
  refine ⟨d, hd, hend, hlength, ?_, hsource, ?_⟩
  · rw [hlength, Nat.add_eq_left, List.sum_eq_zero_iff]
    simp [List.count_eq_zero]
  · intro hplain line hline
    obtain ⟨q, hq, hheader | hprinted⟩ := hsource line hline
    · rw [Block.fields_header (hplain q hq), List.mem_singleton] at hheader
      exact ⟨q, hq, .inl hheader⟩
    · exact ⟨q, hq, .inr hprinted⟩

/-- How many lines a run has counted and which lines its log has, if nothing went wrong with the
log and it is a file. -/
def logged? (run : Run) (log : Path) : Option (Nat × List (List UInt8)) :=
  match run.inventory?, run.tree.find? log with
  | some inv, some (.file f) =>
    if inv.transcriptFault = none then some (inv.transcriptLines, f.lines) else none
  | _, _ => none

theorem logged?_eq_some {p : Path} {n : Nat} {lines : List (List UInt8)}
    (h : run.logged? p = some (n, lines)) :
    ∃ inv f, run.outcome = .complete inv ∧ inv.transcriptFault = none ∧
      run.tree.find? p = some (.file f) ∧ inv.transcriptLines = n ∧ f.lines = lines := by
  unfold logged? at h
  split at h
  · rename_i inv f hinv hf
    split at h
    · rename_i hfault
      cases h
      exact ⟨inv, f, inventory?_eq_some hinv, hfault, hf, rfl, rfl⟩
    · cases h
  · cases h

def namedClass (name : String) : FileTree :=
  (({} : FileTree).put [Text.Utf8.encode "in"] .directory).put
    [Text.Utf8.encode "in", Text.Utf8.encode name] (.file {})

def ofNamedClass (name : String) : Run :=
  buildWith (.always { output := [120, 10] }) (forTwoClasses 1) ⟨0⟩ (namedClass name)

theorem buildsWith_ofNamedClass {name : String} {inv : Inventory}
    (h : (ofNamedClass name).outcome = .complete inv) :
    BuildsWith (.always { output := [120, 10] }) (forTwoClasses 1) ⟨0⟩ (namedClass name)
      (ofNamedClass name) := by
  apply buildsWith_buildWith
  intro stall hstall
  cases h.symm.trans hstall

set_option maxRecDepth 10000 in
theorem log_counts_lines_of_plain_name :
    ∃ inv f d, (ofNamedClass "A.class").outcome = .complete inv ∧
      (ofNamedClass "A.class").tree.find? (.ofString "/log") = some (.file f) ∧
      inv.transcriptLines = 2 ∧ f.lines.length = 2 ∧
      discover (namedClass "A.class") (.ofString "/in") "class" = .ok d ∧
      (∀ q ∈ d.artifacts, '\n' ∉ (Block.title q).toList) ∧
      ∀ line ∈ f.lines, ∃ q ∈ d.artifacts, line = Text.Utf8.encode (Block.header q) ∨
        ∃ l, (Tool.always { output := [120, 10] }).Prints q l ∧ line = Text.Utf8.encode l := by
  have hlogged : (ofNamedClass "A.class").logged? (.ofString "/log") =
      some (2, ["Class: A.class", "x"].map Text.Utf8.encode) := by cbv
  obtain ⟨inv, f, hrun, hfault, hlog, hcount, hlines⟩ := logged?_eq_some hlogged
  obtain ⟨w, hw, h⟩ := (buildsWith_ofNamedClass hrun).exists_logsTo hrun
  have hlength : f.lines.length = 2 := by rw [hlines]; rfl
  obtain ⟨d, hd, -, -, hiff, -, hsource⟩ :=
    log_counts_lines h hw (by decide) rfl hrun hfault hlog
  have hplain := hiff.1 (hlength.trans hcount.symm)
  exact ⟨inv, f, d, hrun, hlog, hcount, hlength, hd, hplain, hsource hplain⟩

set_option maxRecDepth 10000 in
/-- A class file whose name holds a line feed has a header that is counted as one line and
written as two. -/
theorem exists_miscounted_log :
    (namedClass "A\nB.class").IsNamed ∧ (forTwoClasses 1).appendLog = false ∧
      ∃ run inv f, BuildsWith (.always { output := [120, 10] }) (forTwoClasses 1) ⟨0⟩
          (namedClass "A\nB.class") run ∧ run.outcome = .complete inv ∧
        inv.transcriptFault = none ∧
        run.tree.find? (forTwoClasses 1).log = some (.file f) ∧ inv.transcriptLines = 2 ∧
        f.lines = ["Class: A", "B.class", "x"].map Text.Utf8.encode := by
  have hlogged : (ofNamedClass "A\nB.class").logged? (.ofString "/log") =
      some (2, ["Class: A", "B.class", "x"].map Text.Utf8.encode) := by cbv
  obtain ⟨inv, f, hrun, hfault, hlog, hcount, hlines⟩ := logged?_eq_some hlogged
  exact ⟨by decide, rfl, _, inv, f, buildsWith_ofNamedClass hrun, hrun, hfault, hlog, hcount,
    hlines⟩

end Run

end MemberIndex
