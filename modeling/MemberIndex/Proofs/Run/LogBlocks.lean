import Mathlib.Data.List.SplitBy
import MemberIndex.Proofs.Run.InOrder
import MemberIndex.Proofs.Run.LogLines

/-! # The tasks of a log

The header of a block begins with a mark. Where no other line does, a log can be cut before
its marked lines, and the pieces are what the tasks have submitted, one for each artifact,
however its task has come out. They stand in the order of the artifacts if there was one
worker, and in some order if there were several.
-/

namespace MemberIndex

namespace Block

variable {b : Block} {line : String} {path : Path}

def isMarked (line : List UInt8) : Bool := (Text.Utf8.encode headerMark).isPrefixOf line

/-- The lines of a log, cut before each line that begins as a header does. -/
def cut (lines : List (List UInt8)) : List (List (List UInt8)) :=
  lines.splitBy fun _ line => !isMarked line

def encoded (b : Block) : List (List UInt8) := b.lines.map Text.Utf8.encode

theorem isMarked_encode_iff :
    isMarked (Text.Utf8.encode line) = true ↔ headerMark.toList <+: line.toList :=
  List.isPrefixOf_iff_prefix.trans Text.Utf8.encode_prefix_iff

theorem isMarked_header (path : Path) : isMarked (Text.Utf8.encode (header path)) = true := by
  rw [isMarked_encode_iff, header, String.toList_append]
  exact List.prefix_append ..

theorem printed_eq_encoded (h : ∀ line ∈ b.lines, '\n' ∉ line.toList) :
    b.printed = b.encoded := by
  obtain ⟨lines⟩ := b
  induction lines with
  | nil => rfl
  | cons line lines ih =>
    obtain ⟨hline, hlines⟩ := List.forall_mem_cons.1 h
    have hrest := ih hlines
    rw [printed, encoded] at hrest ⊢
    rw [List.flatMap_cons, hrest, Text.fields_encode hline]
    rfl

/-- A piece of a log: a marked line, and lines behind it that are not marked. -/
def IsPiece (piece : List (List UInt8)) : Prop :=
  ∃ head rest, piece = head :: rest ∧ isMarked head = true ∧ ∀ line ∈ rest, isMarked line = false

theorem cut_flatten {pieces : List (List (List UInt8))} (h : ∀ piece ∈ pieces, IsPiece piece) :
    cut pieces.flatten = pieces := by
  apply List.splitBy_flatten
  · intro hnil
    obtain ⟨head, rest, hpiece, -⟩ := h [] hnil
    cases hpiece
  · intro piece hpiece
    obtain ⟨head, rest, rfl, -, hrest⟩ := h piece hpiece
    apply List.Pairwise.isChain
    apply List.pairwise_cons.2
    constructor
    · intro line hline
      rw [hrest line hline, Bool.not_false]
    · apply List.pairwise_of_forall_mem_list
      intro _ _ line hline
      rw [hrest line hline, Bool.not_false]
  · apply List.Pairwise.isChain
    apply List.pairwise_of_forall_mem_list
    intro before hbefore piece hpiece
    obtain ⟨_, _, rfl, -, -⟩ := h before hbefore
    obtain ⟨head, rest, rfl, hmarked, -⟩ := h piece hpiece
    refine ⟨List.cons_ne_nil _ _, List.cons_ne_nil _ _, ?_⟩
    rw [List.head_cons, hmarked, Bool.not_true]

/-- The pieces of a log that holds blocks are the blocks. -/
theorem cut_lines {f : File} {bs : List Block} (h : f.content.bytes = bs.flatMap render)
    (hlines : ∀ b ∈ bs, ∀ line ∈ b.lines, '\n' ∉ line.toList)
    (hpieces : ∀ b ∈ bs, IsPiece b.encoded) : cut f.lines = bs.map encoded := by
  have hread : f.lines = (bs.map encoded).flatten := by
    rw [(lines_of_flatMap_render h).1, List.flatMap_def]
    congr 1
    apply List.map_congr_left
    intro b hb
    exact printed_eq_encoded (hlines b hb)
  rw [hread]
  apply cut_flatten
  intro piece hpiece
  obtain ⟨b, hb, rfl⟩ := List.mem_map.1 hpiece
  exact hpieces b hb

end Block

namespace Discovery

variable {t : FileTree} {root : Path} {ext : String} {d : Discovery} {q : Path}

theorem Discovers.newline_notMem_title (h : Discovers t root ext d) (ht : t.IsNamed)
    (hnames : ∀ l e, t.entryAt? l = some e → ∀ n ∈ l, 10 ∉ n) (hq : q ∈ d.artifacts) :
    '\n' ∉ (Block.title q).toList := by
  obtain ⟨place, l, n, hl, hartifact, rfl, -⟩ := h.exists_artifact ht hq
  obtain ⟨e, he⟩ : ∃ e, t.entryAt? (place ++ (l ++ [n])) = some e := by
    rcases hartifact.file with ⟨f, hf⟩ | ⟨⟨target, htarget⟩, -⟩
    · exact ⟨_, hf⟩
    · exact ⟨_, htarget⟩
  have hname : (root.below (l ++ [n])).fileName? = some n := by
    apply Path.fileName?_below (FileTree.bytes_ne_nil_of_locate hl)
    intro k hk
    exact ht _ e he k (List.mem_append_right place hk)
  rw [Block.title, hname]
  change '\n' ∉ (Text.Utf8.decode n).toList
  rw [Text.Utf8.decode, String.toList_ofList, Text.Utf8.newline_mem_iff]
  exact hnames _ e he n (by simp)

end Discovery

namespace Workbench

variable {p : Workbench} {path : Path}

def submission (p : Workbench) (path : Path) : Block := ⟨Block.header path :: p.heard path⟩

theorem block_of_attempt {a : Attempt} (h : p.attempt path = .ok a) :
    a.block = p.submission path := by
  obtain ⟨x, hx, rfl⟩ := attempt_eq_ok h
  simp [submission, heard, hx]

theorem isPiece_submission (hplain : ∀ line, p.tool.Prints path line →
    ¬ Block.headerMark.toList <+: line.toList) : Block.IsPiece (p.submission path).encoded := by
  refine ⟨_, _, rfl, Block.isMarked_header path, ?_⟩
  intro piece hpiece
  obtain ⟨line, hline, rfl⟩ := List.mem_map.1 hpiece
  rw [← Bool.not_eq_true, Block.isMarked_encode_iff]
  exact hplain line (prints_of_mem_heard hline)

theorem newline_notMem_submission (h : '\n' ∉ (Block.title path).toList) :
    ∀ line ∈ (p.submission path).lines, '\n' ∉ line.toList := by
  intro line hline
  rcases List.mem_cons.1 hline with rfl | hline
  · rw [← List.count_eq_zero, Block.count_newline_header]
    exact List.count_eq_zero.2 h
  · exact newline_notMem_heard hline

end Workbench

namespace Run

variable {workers : Nat} {tool : Tool} {w : Writer} {s : Settings} {clock : Moment}
  {t : FileTree} {run : Run} {inv : Inventory}

/-- The lines of a log that was emptied before a run and that nothing went wrong with, cut
before each line that begins as a header does. If no name of the tree holds a line feed and no
tool puts out a line that begins so, the pieces are the blocks that the attempts on the
artifacts came to, each once: the artifact's header and the lines that its task has read. They
stand in the order of the artifacts if there was one worker. What is carried out for settings is
such a run of the workers that they ask for, by `exists_worksTo_buildWith`. -/
theorem log_cut_into_tasks (h : WorksTo workers tool w s clock t run) (hw : w.written = #[])
    (ht : t.IsNamed) (hnames : ∀ l e, t.entryAt? l = some e → ∀ n ∈ l, 10 ∉ n)
    (hplain : ∀ q line, tool.Prints q line → ¬ Block.headerMark.toList <+: line.toList)
    (happend : s.appendLog = false) (hrun : run.outcome = .complete inv)
    (hfault : inv.transcriptFault = none)
    (hdevice : ∀ v, run.tree.find? s.log ≠ some (.device v)) :
    ∃ d f, discover t s.root s.extension = .ok d ∧ run.tree.find? s.log = some (.file f) ∧
      Text.fields 10 f.content.bytes = f.lines ++ [[]] ∧
      (∀ q ∈ d.artifacts, ∃ a, (⟨s.root, tool, clock⟩ : Workbench).attempt q = .ok a ∧
        a.block = (⟨s.root, tool, clock⟩ : Workbench).submission q) ∧
      (Block.cut f.lines).Perm
        (d.artifacts.map fun q => ((⟨s.root, tool, clock⟩ : Workbench).submission q).encoded) ∧
      (workers = 1 → Block.cut f.lines =
        d.artifacts.map fun q => ((⟨s.root, tool, clock⟩ : Workbench).submission q).encoded) := by
  cases h with
  | @completed r c hs hc hd =>
    obtain ⟨history, hruns, hin⟩ := hc.exists_runs
    have hfound := (start_eq_ok hs).2
    have hdiscovers := Discovery.discovers_of_discover hfound
    have hidentity : ∀ q ∈ r.discovery.artifacts, (identity? s.root q).isSome = true := by
      intro q hq
      obtain ⟨_, _, _, -, -, -, hi⟩ := hdiscovers.exists_identity ht hq
      rw [hi]
      rfl
    obtain ⟨f, hlog⟩ : ∃ f, (r.close c.shared).tree.find? s.log = some (.file f) := by
      rcases find?_settle (opened_of_start hs) _ with ⟨v, -, hv⟩ | ⟨g, -, hg⟩
      · exact absurd hv (hdevice v)
      · exact ⟨_, hg⟩
    have hbytes := bytes_of_close hs hruns hw happend hrun hfault hlog
    have hblocks := Workbench.filterMap_block? (p := ⟨s.root, tool, clock⟩) hidentity
    have hperm := hruns.blocks hd
    rw [hblocks] at hperm
    have hmem : ∀ b ∈ history.deeds.filterMap Deed.block?, ∃ q ∈ r.discovery.artifacts,
        b = (⟨s.root, tool, clock⟩ : Workbench).submission q := by
      intro b hb
      obtain ⟨q, hq, rfl⟩ := List.mem_map.1 (hperm.subset hb)
      exact ⟨q, hq, rfl⟩
    have hcut : Block.cut f.lines =
        (history.deeds.filterMap Deed.block?).map Block.encoded := by
      apply Block.cut_lines hbytes
      · intro b hb
        obtain ⟨q, hq, rfl⟩ := hmem b hb
        exact Workbench.newline_notMem_submission (hdiscovers.newline_notMem_title ht hnames hq)
      · intro b hb
        obtain ⟨q, hq, rfl⟩ := hmem b hb
        exact Workbench.isPiece_submission (hplain q)
    refine ⟨r.discovery, f, hfound, hlog, (Block.lines_of_flatMap_render hbytes).2, ?_, ?_, ?_⟩
    · intro q hq
      have hi := Option.isSome_iff_exists.1 (hidentity q hq)
      obtain ⟨a, ha⟩ := hc.reaches.answered hd hq hi
      exact ⟨a, ha, Workbench.block_of_attempt ha⟩
    · rw [hcut]
      have hencoded := hperm.map Block.encoded
      rw [List.map_map] at hencoded
      exact hencoded
    · intro hone
      rw [hcut, hruns.blocks_inOrder hd (hin hone), hblocks, List.map_map]
      rfl

def faulty : Tool where
  name := "javap"
  limit := none
  start q :=
    if 65 ∈ q.bytes then .ok { output := [120, 10], fault := some (.other "cut off") }
    else .error (.os .noEntry)

theorem not_marked_of_faulty {q : Path} {line : String} (h : faulty.Prints q line) :
    ¬ Block.headerMark.toList <+: line.toList := by
  obtain ⟨b, hb, hline⟩ := h
  unfold faulty at hb
  simp only at hb
  split at hb
  · cases hb
    have hlines : Text.pipeLines [120, 10] = ["x"] := by decide
    rw [hlines, List.mem_singleton] at hline
    subst hline
    decide
  · cases hb

theorem exists_attempt_of_faulty (root q : Path) :
    ∃ a, (⟨root, faulty, ⟨0⟩⟩ : Workbench).attempt q = .ok a := by
  apply Workbench.attempt_isOk_iff.2
  intro b hb
  unfold faulty at hb
  simp only at hb
  split at hb <;> cases hb
  exact .inl rfl

theorem exists_start_twoClasses :
    ∃ r, start (forTwoClasses 1) twoClasses = .ok r ∧
      r.discovery.artifacts = [.ofString "/in/A.class", .ofString "/in/B.class"] ∧
      r.tree.entryAt? r.log = some (.file {}) := by
  have h : (start (forTwoClasses 1) twoClasses).toOption.map
      (fun r => (r.discovery.artifacts, r.tree.entryAt? r.log)) =
        some ([.ofString "/in/A.class", .ofString "/in/B.class"], some (.file {})) := by cbv
  cases hr : start (forTwoClasses 1) twoClasses with
  | error run => simp [hr, Except.toOption] at h
  | ok r =>
    rw [hr] at h
    obtain ⟨hartifacts, hentry⟩ := Prod.mk.inj (Option.some.inj h)
    exact ⟨r, rfl, hartifacts, hentry⟩

theorem log_cut_into_tasks_of_faulty :
    ∃ run inv d f, WorksTo 1 faulty {} (forTwoClasses 1) ⟨0⟩ twoClasses run ∧
      twoClasses.IsNamed ∧ (∀ l e, twoClasses.entryAt? l = some e → ∀ n ∈ l, 10 ∉ n) ∧
      (∀ q line, faulty.Prints q line → ¬ Block.headerMark.toList <+: line.toList) ∧
      (forTwoClasses 1).appendLog = false ∧ run.outcome = .complete inv ∧
      inv.transcriptFault = none ∧
      (∀ v, run.tree.find? (forTwoClasses 1).log ≠ some (.device v)) ∧
      discover twoClasses (.ofString "/in") "class" = .ok d ∧
      run.tree.find? (.ofString "/log") = some (.file f) ∧
      Block.cut f.lines =
        [["Class: A.class", "x"], ["Class: B.class"]].map (·.map Text.Utf8.encode) := by
  obtain ⟨r, hr, hartifacts, hentry⟩ := exists_start_twoClasses
  have hanswered : ∀ q ∈ r.discovery.artifacts,
      ∃ a, (⟨(forTwoClasses 1).root, faulty, ⟨0⟩⟩ : Workbench).attempt q = .ok a :=
    fun q _ => exists_attempt_of_faulty _ q
  obtain ⟨run, inv, h, hrun⟩ := exists_worksTo 1 {} hr hanswered
  have hnamed : twoClasses.IsNamed := by decide
  have hnames : ∀ l e, twoClasses.entryAt? l = some e → ∀ n ∈ l, (10 : UInt8) ∉ n :=
    FileTree.forall_name_iff.2 (by decide)
  have hfault : inv.transcriptFault = none := by
    have hiff := h.logsTo.isSome_fault_iff hrun (start_eq_ok hr).2
    simpa [Writer.FailsWithin] using hiff
  have hdevice : ∀ v, run.tree.find? (forTwoClasses 1).log ≠ some (.device v) := by
    cases h with
    | completed hs _ _ =>
      cases hr.symm.trans hs
      intro v hv
      rcases find?_settle (opened_of_start hr) _ with ⟨_, hdevice, -⟩ | ⟨g, -, hg⟩
      · cases hdevice.symm.trans hentry
      · cases hg.symm.trans hv
  obtain ⟨d, f, hd, hf, -, -, -, hcut⟩ := log_cut_into_tasks h rfl hnamed hnames
    (fun _ _ => not_marked_of_faulty) rfl hrun hfault hdevice
  refine ⟨run, inv, d, f, h, hnamed, hnames, fun _ _ => not_marked_of_faulty, rfl, hrun, hfault,
    hdevice, hd, hf, ?_⟩
  cases (start_eq_ok hr).2.symm.trans hd
  rw [hcut rfl, hartifacts]
  cbv

end Run

end MemberIndex
