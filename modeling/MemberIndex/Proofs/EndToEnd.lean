import Mathlib
import MemberIndex.Proofs.Members.Listing
import MemberIndex.Proofs.Report.RoundTrip
import MemberIndex.Proofs.Report.Write
import MemberIndex.Proofs.Run.OrderIndependence

-- The examples are evaluated with equations of library functions, some of which other parts of the
-- library make too: the whole of it is imported, so that no equation is made twice.

/-! # Reports and artifacts

The report of an inventory is loaded from its path as an index of the artifacts: it has
the identities of those whose tool ended, and the members that the tool's output shows.
-/

namespace MemberIndex

open FileTree

/-- The whole output of a behaviour that is read to its end and exits. -/
def Behaviour.printed? (b : Behaviour) : Option (List UInt8) :=
  match b.fault, b.ending with
  | none, .exits _ => some b.output
  | _, _ => none

def Tool.printed? (tool : Tool) (path : Path) : Option (List UInt8) :=
  (tool.start path).toOption.bind fun b => (b.within tool.limit).printed?

/-- Records of what a tool printed of artifacts: every identity of a printed one stands, and
shows that one's members if no other one has the identity. -/
structure Records.Indexes (r : Records) (root : Path) (tool : Tool) (artifacts : List Path) :
    Prop where
  mem_iff : ∀ i, i ∈ r ↔ ∃ a ∈ artifacts, identity? root a = some i ∧ (tool.printed? a).isSome
  members : ∀ a ∈ artifacts, ∀ i bytes, identity? root a = some i →
    tool.printed? a = some bytes →
    (∀ b ∈ artifacts, identity? root b = some i → (tool.printed? b).isSome → b = a) →
    r[i]? = some (Members.ofText (Text.Utf8.decode bytes))

theorem Behaviour.printed?_eq_some_iff {b : Behaviour} {bytes : List UInt8} :
    b.printed? = some bytes ↔
      b.fault = none ∧ (∃ status, b.ending = .exits status) ∧ b.output = bytes := by
  unfold printed?
  cases b.fault <;> cases b.ending <;> simp

theorem Behaviour.hearing?_of_printed {b : Behaviour} {bytes : List UInt8}
    (limit : Option Duration) (h : b.printed? = some bytes) :
    ∃ exit, b.hearing? limit = some ⟨Text.pipeLines bytes, .ok exit⟩ := by
  obtain ⟨hfault, ⟨status, hending⟩, rfl⟩ := printed?_eq_some_iff.1 h
  refine ⟨⟨status, Text.Utf8.decode b.diagnostics⟩, ?_⟩
  simp [hearing?, lines, closesOutput, hfault, hending]

theorem Behaviour.printed?_of_hearing {b : Behaviour} {limit : Option Duration}
    {ls : List String} {exit : ToolEnd} (h : b.hearing? limit = some ⟨ls, .ok exit⟩) :
    ∃ bytes, b.printed? = some bytes := by
  obtain ⟨hfault, hending⟩ := exits_of_hearing h
  exact ⟨b.output, printed?_eq_some_iff.2 ⟨hfault, ⟨_, hending⟩, rfl⟩⟩

theorem Tool.hearing?_eq_some_iff {tool : Tool} {path : Path} {ls : List String} :
    (∃ exit, tool.hearing? path = some ⟨ls, .ok exit⟩) ↔
      ∃ bytes, tool.printed? path = some bytes ∧ ls = Text.pipeLines bytes := by
  unfold hearing? printed?
  cases tool.start path with
  | error e => simp [Except.toOption]
  | ok b =>
    simp only [Except.toOption, Option.bind_some]
    constructor
    · rintro ⟨exit, h⟩
      obtain ⟨bytes, hbytes⟩ := Behaviour.printed?_of_hearing h
      obtain ⟨exit', h'⟩ := Behaviour.hearing?_of_printed tool.limit hbytes
      cases h.symm.trans h'
      exact ⟨bytes, hbytes, rfl⟩
    · rintro ⟨bytes, hbytes, rfl⟩
      exact Behaviour.hearing?_of_printed tool.limit hbytes

namespace Workbench

variable {p : Workbench} {path : Path} {paths : List Path} {i : String} {m : Members}

theorem row?_eq_some_iff : p.row? path = some (i, m) ↔ identity? p.root path = some i ∧
    ∃ bytes, p.tool.printed? path = some bytes ∧
      m = Members.ofText (Text.Utf8.decode bytes) := by
  constructor
  · intro h
    obtain ⟨x, hx, hrow⟩ := Option.map_eq_some_iff.1 h
    cases hrow
    unfold finding? at hx
    split at hx
    · rename_i j ls exit hi hh
      cases hx
      obtain ⟨bytes, hbytes, rfl⟩ := Tool.hearing?_eq_some_iff.1 ⟨exit, hh⟩
      exact ⟨hi, bytes, hbytes, Members.ofLines_pipeLines bytes⟩
    · cases hx
  · rintro ⟨hi, bytes, hbytes, rfl⟩
    obtain ⟨exit, hh⟩ := Tool.hearing?_eq_some_iff.2 ⟨bytes, hbytes, rfl⟩
    simp [row?, finding?, hi, hh, Members.ofLines_pipeLines]

theorem indexes_putAll {entries : List (String × Members)}
    (hp : entries.Perm (paths.filterMap p.row?)) :
    ((∅ : Records).putAll entries).Indexes p.root p.tool paths := by
  have hmem (i : String) (m : Members) :
      (i, m) ∈ entries ↔ ∃ a ∈ paths, p.row? a = some (i, m) := by
    rw [hp.mem_iff, List.mem_filterMap]
  constructor
  · intro i
    rw [Records.mem_putAll_iff]
    constructor
    · rintro (h | ⟨m, hm⟩)
      · simp at h
      · obtain ⟨a, ha, hrow⟩ := (hmem i m).1 hm
        obtain ⟨hi, bytes, hbytes, -⟩ := row?_eq_some_iff.1 hrow
        exact ⟨a, ha, hi, by simp [hbytes]⟩
    · rintro ⟨a, ha, hi, hprinted⟩
      obtain ⟨bytes, hbytes⟩ := Option.isSome_iff_exists.1 hprinted
      exact .inr ⟨_, (hmem i _).2 ⟨a, ha, row?_eq_some_iff.2 ⟨hi, bytes, hbytes, rfl⟩⟩⟩
  · intro a ha i bytes hi hbytes hone
    have hrow : p.row? a = some (i, Members.ofText (Text.Utf8.decode bytes)) :=
      row?_eq_some_iff.2 ⟨hi, bytes, hbytes, rfl⟩
    obtain ⟨n, hn, hput⟩ := Records.exists_getElem?_putAll (r := ∅) ((hmem i _).2 ⟨a, ha, hrow⟩)
    -- Whichever entry stands, its artifact is the only one of the identity.
    obtain ⟨b, hb, hrow'⟩ := (hmem i n).1 hn
    obtain ⟨hi', bytes', hbytes', -⟩ := row?_eq_some_iff.1 hrow'
    obtain rfl : b = a := hone b hb hi' (by simp [hbytes'])
    cases hrow.symm.trans hrow'
    exact hput

end Workbench

namespace Report

theorem write_eq_ok {p : Path} {r : Records} {t t' : FileTree} (h : write p r t = (.ok (), t')) :
    (save p r).run.run t = (.ok (), t') := by
  unfold write at h
  cases hs : (save p r).run.run t with
  | mk result t₁ =>
    rw [hs] at h
    cases result with
    | error e => cases h
    | ok u => exact Prod.ext rfl (Prod.mk.inj h).2

end Report

namespace Run

variable {tool : Tool} {s : Settings} {clock : Moment} {t t' : FileTree} {run : Run}
  {inventory : Inventory} {output : Path}

/-- The records of an inventory index the artifacts, whatever the order of the steps. -/
theorem BuildsWith.indexes (hb : BuildsWith tool s clock t run)
    (hrun : run.outcome = .complete inventory) :
    ∃ d, discover t s.root s.extension = .ok d ∧
      inventory.records.Indexes s.root tool d.artifacts := by
  cases hb with
  | ended h =>
    obtain ⟨e, he⟩ := failed_of_start_eq_error h
    cases he.symm.trans hrun
  | @completed r c h hc hd =>
    obtain ⟨history, hruns⟩ := Crew.reaches_iff_runs.1 hc
    obtain ⟨entries, hp, hrecords⟩ := hruns.exists_records_eq hd
    cases hrun
    refine ⟨r.discovery, (start_eq_ok h).2, ?_⟩
    have hindexes := Workbench.indexes_putAll hp
    change c.shared.records.Indexes _ _ _
    rw [hrecords]
    exact hindexes

/-- What is loaded from the report of an inventory indexes the artifacts that were found. -/
theorem load_report_of_inventory (hb : BuildsWith tool s clock t run)
    (hrun : run.outcome = .complete inventory)
    (hfree : ∀ t₁, (makeParents output).run.run run.tree = (.ok (), t₁) →
      Report.Unobstructed t₁ output)
    (hw : Report.write output inventory.records run.tree = (.ok (), t')) :
    ∃ d f text records, discover t s.root s.extension = .ok d ∧
      t'.find? output = some (.file f) ∧ f.content = .data (Text.Utf8.encode text) ∧
      Report.load text = .ok records ∧ records.Indexes s.root tool d.artifacts := by
  obtain ⟨d, hd, hindexes⟩ := hb.indexes hrun
  obtain ⟨f, hf, hcontent⟩ := Report.find?_of_save (Report.write_eq_ok hw) hfree
  exact ⟨d, f, Report.fileText inventory.records, inventory.records, hd, hf, hcontent,
    Report.load_fileText inventory.records, hindexes⟩

def report? (run : Run) (output : Path) : Option (Inventory × FileTree) :=
  match run.outcome with
  | .complete i =>
    match Report.write output i.records run.tree with
    | (.ok _, t') => some (i, t')
    | (.error _, _) => none
  | _ => none

theorem report?_eq_some {i : Inventory} (h : run.report? output = some (i, t')) :
    run.outcome = .complete i ∧ Report.write output i.records run.tree = (.ok (), t') := by
  unfold report? at h
  split at h
  · rename_i hi
    split at h
    · rename_i hw
      cases h
      exact ⟨hi, hw⟩
    · cases h
  · cases h

section OneClass

def oneClass (name : String) (e : Entry) : FileTree :=
  ((({} : FileTree).put [Text.Utf8.encode "in"] .directory).put
    [Text.Utf8.encode "in", Text.Utf8.encode "A.class"] (.file {})).put [Text.Utf8.encode name] e

def forOneClass (output : Path) : Settings where
  root := .ofString "/in"
  extension := "class"
  disassembler := ⟨.ofString "javap", [], none, none⟩
  jobs := 1
  output := output
  log := .ofString "/log"
  appendLog := false

def fieldTool : Tool := .always { output := Text.Utf8.encode " int x;\n" }

def ofOneClass (output : Path) (t : FileTree) : Run :=
  buildWith fieldTool (forOneClass output) ⟨0⟩ t

theorem buildsWith_ofOneClass {i : Inventory}
    (h : (ofOneClass output t).outcome = .complete i) :
    BuildsWith fieldTool (forOneClass output) ⟨0⟩ t (ofOneClass output t) := by
  apply buildsWith_buildWith
  intro stall hstall
  cases h.symm.trans hstall

/-- Whether a report can be written at a path once its parents are made. -/
def isFree (p : Path) (t : FileTree) : Bool :=
  match (makeParents p).run.run t with
  | (.ok _, t₁) => decide (Report.Unobstructed t₁ p)
  | _ => true

set_option maxRecDepth 10000 in
theorem load_report_of_one_class :
    ∃ i t' f text records,
      (ofOneClass (.ofString "/r") (oneClass "n" (.file {}))).report? (.ofString "/r") =
        some (i, t') ∧
      t'.find? (.ofString "/r") = some (.file f) ∧ f.content = .data (Text.Utf8.encode text) ∧
      Report.load text = .ok records ∧ records["A"]? = some (Members.ofText " int x;\n") := by
  have hfound : (discover (oneClass "n" (.file {})) (.ofString "/in") "class").toOption.map
      (·.artifacts) = some [.ofString "/in/A.class"] := by cbv
  have hends : (((ofOneClass (.ofString "/r") (oneClass "n" (.file {}))).report?
        (.ofString "/r")).isSome &&
      isFree (.ofString "/r") (ofOneClass (.ofString "/r") (oneClass "n" (.file {}))).tree) =
      true := by cbv
  obtain ⟨hsome, hparents⟩ := Bool.and_eq_true_iff.1 hends
  obtain ⟨⟨i, t'⟩, hreport⟩ := Option.isSome_iff_exists.1 hsome
  obtain ⟨hi, hw⟩ := report?_eq_some hreport
  have hfree : ∀ t₁, (makeParents (.ofString "/r")).run.run
      (ofOneClass (.ofString "/r") (oneClass "n" (.file {}))).tree = (.ok (), t₁) →
      Report.Unobstructed t₁ (.ofString "/r") := by
    intro t₁ h
    rw [isFree, h] at hparents
    exact of_decide_eq_true hparents
  obtain ⟨d, f, text, records, hd, hf, hcontent, hload, hindexes⟩ :=
    load_report_of_inventory (buildsWith_ofOneClass hi) hi hfree hw
  have hartifacts : d.artifacts = [.ofString "/in/A.class"] := by
    change discover _ (.ofString "/in") "class" = .ok d at hd
    rw [hd] at hfound
    exact Option.some.inj hfound
  refine ⟨i, t', f, text, records, hreport, hf, hcontent, hload, ?_⟩
  have hmembers := hindexes.members (.ofString "/in/A.class") (by simp [hartifacts]) "A"
    (Text.Utf8.encode " int x;\n") (by decide) rfl (by simp [hartifacts])
  rwa [Text.Utf8.decode_encode] at hmembers

/-- A run whose report is written, no link standing at the draft's path, and yet is not the
file that its own path leads to. -/
def LosesReport (run : Run) (output : Path) : Prop :=
  (∀ s, run.tree.StepsTo (Report.draftPath output) s →
    ∀ target, run.tree.entryAt? s.place ≠ some (.link target)) ∧
  ∃ i t', run.report? output = some (i, t') ∧ ∀ f, t'.find? output ≠ some (.file f)

def losesReport (run : Run) (output : Path) : Bool :=
  ((run.tree.lastStep? (Report.draftPath output)).all fun s =>
    match run.tree.entryAt? s.place with
    | some (.link _) => false
    | _ => true) &&
  (run.report? output).any fun x =>
    match x.2.find? output with
    | some (.file _) => false
    | _ => true

theorem losesReport_of_eq_true (h : run.losesReport output = true) : run.LosesReport output := by
  obtain ⟨hdraft, hreport⟩ := Bool.and_eq_true_iff.1 h
  constructor
  · intro s hs target hlink
    have hs' := (Option.all_eq_true _ _).1 hdraft s (stepsTo_iff.1 hs)
    simp [hlink] at hs'
  · obtain ⟨⟨i, t'⟩, hit, hfind⟩ := (Option.any_eq_true _ _).1 hreport
    refine ⟨i, t', hit, ?_⟩
    intro f hf
    simp [hf] at hfind

theorem LosesReport.outcome (h : run.LosesReport output) : ∃ i, run.outcome = .complete i := by
  obtain ⟨-, i, t', hreport, -⟩ := h
  exact ⟨i, (report?_eq_some hreport).1⟩

theorem losesReport_ofOneClass (h : (ofOneClass output t).losesReport output = true) :
    ∃ run, BuildsWith fieldTool (forOneClass output) ⟨0⟩ t run ∧ run.LosesReport output := by
  have hloses := losesReport_of_eq_true h
  obtain ⟨i, hi⟩ := hloses.outcome
  exact ⟨_, buildsWith_ofOneClass hi, hloses⟩

set_option maxRecDepth 10000 in
/-- A link that leads to its own directory is replaced by the report, so that a path through
it leads nowhere. A device at the draft's path takes the report in and comes to stand at the
report's path. -/
theorem exists_losesReport :
    (∃ run, BuildsWith fieldTool (forOneClass (.ofString "/A/A")) ⟨0⟩
        (oneClass "A" (.link [Path.dot])) run ∧ run.LosesReport (.ofString "/A/A")) ∧
      ∃ run, BuildsWith fieldTool (forOneClass (.ofString "/r")) ⟨0⟩
        (oneClass "r.tmp" (.device .null)) run ∧ run.LosesReport (.ofString "/r") := by
  constructor
  · exact losesReport_ofOneClass (by cbv)
  · exact losesReport_ofOneClass (by cbv)

end OneClass

end Run

end MemberIndex
