import Mathlib
import MemberIndex.Proofs.Discovery.Exact
import MemberIndex.Proofs.Run.Conservation

-- The examples are evaluated with equations of library functions, some of which other parts of the
-- library make too: the whole of it is imported, so that no equation is made twice.

/-! # Identities of discovered artifacts

Every artifact that is found has an identity, spelled from the names below the root alone.
So no task of a run fails for want of one, and two spellings of a root come to the same
identities where they open the same directories and the same links.
-/

namespace MemberIndex

open FileTree

section Spelling

variable {t : FileTree} {root : Path} {place l : Location} {n : Name} {links : Nat} {r : Reached}

theorem leads_join_iff {p : Path} (hp : p.bytes ≠ []) (hn : IsEntryName n) :
    Leads t links place (p.join ⟨n⟩).pieces r ↔
      ∃ mid, Leads t links place p.pieces mid ∧ Leads t mid.links mid.place [n] r := by
  obtain ⟨before, -, hpieces, hjoin⟩ := Path.pieces_join hp hn
  rw [hjoin, leads_append_iff]
  refine exists_congr fun mid => ?_
  rcases hpieces with hpieces | hpieces
  · rw [hpieces]
  · rw [hpieces, leads_concat_nil_iff, and_assoc, and_congr_right_iff]
    intro _
    exact (and_iff_right_of_imp fun h => h.isDirectoryAt_of_cons).symm

/-- Names below a root are looked up where the root leads to. -/
theorem leads_below_iff (hr : root.bytes ≠ []) (hl : ∀ k ∈ l, IsEntryName k) :
    Leads t links place (root.below l).pieces r ↔
      ∃ mid, Leads t links place root.pieces mid ∧ Leads t mid.links mid.place l r := by
  induction l using List.reverseRecOn generalizing r with
  | nil =>
    constructor
    · intro h
      exact ⟨r, h, .nil⟩
    · rintro ⟨⟨_, _⟩, hroot, h⟩
      cases h
      exact hroot
  | append_singleton l n ih =>
    have hl' (k : Name) (hk : k ∈ l) : IsEntryName k := hl k (List.mem_append_left _ hk)
    have hn := hl n (List.mem_append_right _ (List.mem_singleton_self n))
    rw [Path.below_concat, leads_join_iff (Path.components_below hr hl').2 hn]
    constructor
    · rintro ⟨far, hbelow, hlast⟩
      obtain ⟨mid, hroot, hmid⟩ := (ih hl').1 hbelow
      exact ⟨mid, hroot, hmid.append hlast⟩
    · rintro ⟨mid, hroot, h⟩
      obtain ⟨far, hmid, hlast⟩ := h.split
      exact ⟨far, (ih hl').2 ⟨mid, hroot, hmid⟩, hlast⟩

theorem origin_below (hr : root.bytes ≠ []) (hl : ∀ k ∈ l, IsEntryName k) :
    t.origin (root.below l) = t.origin root := by
  rw [origin, origin, Path.isAbsolute_below hr hl]

theorem leadsToFile_below_iff (hr : root.bytes ≠ []) (hl : ∀ k ∈ l, IsEntryName k)
    (hroot : Leads t maxLinks (t.origin root) root.pieces ⟨place, links⟩) :
    t.LeadsToFile (root.below l) ↔ checkPath (root.below l) = .ok () ∧
      ∃ r f, Leads t links place l r ∧ t.entryAt? r.place = some (.file f) := by
  unfold LeadsToFile
  rw [origin_below hr hl]
  simp only [leads_below_iff hr hl]
  constructor
  · rintro ⟨r, f, hcheck, ⟨mid, hmid, h⟩, hf⟩
    cases hroot.unique hmid
    exact ⟨hcheck, r, f, h, hf⟩
  · rintro ⟨hcheck, r, f, h, hf⟩
    exact ⟨r, f, hcheck, ⟨_, hroot, h⟩, hf⟩

end Spelling

section Failures

variable {path : Path} {ls : List String} {e : TaskError}

theorem Behaviour.kind_of_hearing {b : Behaviour} {limit : Option Duration}
    (h : b.hearing? limit = some ⟨ls, .error e⟩) : e.kind ≠ "IdentityError" := by
  unfold hearing? at h
  split at h <;> cases h <;> simp [TaskError.kind]

theorem Tool.kind_of_hearing {tool : Tool} (h : tool.hearing? path = some ⟨ls, .error e⟩) :
    e.kind ≠ "IdentityError" := by
  unfold hearing? at h
  split at h
  · cases h
    simp [TaskError.kind]
  · exact Behaviour.kind_of_hearing h

theorem Workbench.kind_of_failedTask {p : Workbench} {f : FailedTask} {i : String}
    (hi : identity? p.root path = some i) (hf : p.failedTask? path = some f) :
    f.kind ≠ "IdentityError" := by
  obtain ⟨e, he, rfl⟩ := Option.map_eq_some_iff.1 hf
  unfold failure? at he
  split at he
  · rename_i hnone
    cases hi.symm.trans hnone
  · rename_i hh
    cases he
    exact Tool.kind_of_hearing hh
  · cases he

end Failures

namespace Discovery

variable {t : FileTree} {root root' : Path} {place l : Location} {n : Name} {ext : String}
  {d d' : Discovery}

theorem Discovers.artifacts_of_stream (h : Discovers t root ext d) (hs : isStream root = true) :
    d.artifacts = [] := by
  obtain ⟨place, met, -, hd, hm⟩ := h.exists_met
  rw [if_pos hs] at hm
  rw [hd, hm.eq_nil]
  simp [ofEncounters]

theorem Discovers.sorted_artifacts (h : Discovers t root ext d) (ht : t.IsNamed) :
    d.artifacts.Pairwise fun p q => compare p.sortKey q.sortKey = .lt := by
  cases hs : isStream root with
  | true =>
    rw [h.artifacts_of_stream hs]
    exact .nil
  | false =>
    obtain ⟨place, met, hl, -, -⟩ := h.exists_met
    exact (h.isExact ht hs hl).2.sorted

theorem Discovers.exists_artifact (h : Discovers t root ext d) (ht : t.IsNamed) {p : Path}
    (hp : p ∈ d.artifacts) :
    ∃ place l n, t.locate true root = .ok place ∧ t.IsArtifactAt root place ext l n ∧
      p = root.below (l ++ [n]) ∧ p.stripPrefix? root = some ((l ++ [n]).map .name) := by
  obtain ⟨place, met, hl, -, -⟩ := h.exists_met
  cases hs : isStream root with
  | true => simp [h.artifacts_of_stream hs] at hp
  | false =>
    have hr := bytes_ne_nil_of_locate hl
    obtain ⟨l, n, hartifact, rfl⟩ := ((h.isExact ht hs hl).2.mem_artifacts p).1 hp
    have hnames := isEntryName_of_mem_sift ht ((mem_places_iff ht hr).2 ⟨l, n, hartifact, rfl⟩)
    exact ⟨place, l, n, hl, hartifact, rfl, Path.stripPrefix?_below hr hnames⟩

theorem Discovers.exists_identity (h : Discovers t root ext d) (ht : t.IsNamed) {p : Path}
    (hp : p ∈ d.artifacts) :
    ∃ place l n, t.locate true root = .ok place ∧ t.IsArtifactAt root place ext l n ∧
      p = root.below (l ++ [n]) ∧ identity? root p = some (".".intercalate
        (l.map Text.Utf8.decode ++ [Text.Utf8.decode (Path.splitName n).1])) := by
  obtain ⟨place, l, n, hl, hartifact, hbelow, hstrip⟩ := h.exists_artifact ht hp
  exact ⟨place, l, n, hl, hartifact, hbelow, identity?_of_stripPrefix hstrip⟩

theorem IsExact.enters (h : d.IsExact t root place ext) (hd : d.skipped = [])
    (henters : t.Enters root' place l) : t.Enters root place l := by
  induction henters with
  | root => exact .root
  | @down l n _ hdirectory _ ih =>
    refine .down ih hdirectory ?_
    by_contra hlong
    have hmem := (h.mem_skipped _ _).2 ⟨rfl, l, n, ih, hdirectory, hlong, rfl⟩
    rw [hd] at hmem
    cases hmem

/-- Two spellings of one directory, neither of them the input stream's, from which the same
links with an extension lead to files. -/
structure Respells (t : FileTree) (ext : String) (root root' : Path) (place : Location) :
    Prop where
  left : t.locate true root = .ok place ∧ isStream root = false
  right : t.locate true root' = .ok place ∧ isStream root' = false
  links : ∀ l n target, t.Enters root place l → t.Enters root' place l →
    t.entryAt? (place ++ (l ++ [n])) = some (.link target) →
    (Path.splitName n).2 = some (Text.Utf8.encode ext) →
    (t.LeadsToFile (root.below (l ++ [n])) ↔ t.LeadsToFile (root'.below (l ++ [n])))

section Respells

variable (h : Respells t ext root root' place)
include h

theorem Respells.symm : Respells t ext root' root place :=
  ⟨h.right, h.left, fun l n target henters henters' hlink hext =>
    (h.links l n target henters' henters hlink hext).symm⟩

theorem Respells.isArtifactAt (hd' : d'.IsExact t root' place ext) (hs' : d'.skipped = [])
    (ha : t.IsArtifactAt root place ext l n) : t.IsArtifactAt root' place ext l n := by
  have henters := hd'.enters hs' ha.enters
  refine ⟨henters, ?_, ha.extension⟩
  rcases ha.file with hfile | ⟨⟨target, hlink⟩, hleads⟩
  · exact .inl hfile
  · exact .inr ⟨⟨target, hlink⟩,
      (h.links l n target ha.enters henters hlink ha.extension).1 hleads⟩

theorem Respells.places_eq (ht : t.IsNamed) (hr : root.bytes ≠ []) (hr' : root'.bytes ≠ [])
    (hd : d.IsExact t root place ext) (hs : d.skipped = [])
    (hd' : d'.IsExact t root' place ext) (hs' : d'.skipped = []) :
    places t root place ext = places t root' place ext := by
  refine eq_of_mem_iff_of_rising (f := id) pairwise_sift pairwise_sift fun l => ?_
  refine (mem_places_iff ht hr).trans (Iff.trans ?_ (mem_places_iff ht hr').symm)
  refine exists_congr fun m => exists_congr fun n => and_congr_left fun _ => ?_
  exact ⟨h.isArtifactAt hd' hs', h.symm.isArtifactAt hd hs⟩

/-- Two spellings of a root come to the same identities where nothing is passed over. -/
theorem Respells.identities_eq (ht : t.IsNamed) (hd : Discovers t root ext d)
    (hs : d.skipped = []) (hd' : Discovers t root' ext d') (hs' : d'.skipped = []) :
    d.artifacts.map (identity? root) = d'.artifacts.map (identity? root') := by
  obtain ⟨hartifacts, hexact⟩ := hd.isExact ht h.left.2 h.left.1
  obtain ⟨hartifacts', hexact'⟩ := hd'.isExact ht h.right.2 h.right.1
  have hr := bytes_ne_nil_of_locate h.left.1
  have hr' := bytes_ne_nil_of_locate h.right.1
  rw [hartifacts, hartifacts', ← h.places_eq ht hr hr' hexact hs hexact' hs', List.map_map,
    List.map_map]
  refine List.map_congr_left fun l hmem => ?_
  have hnames := isEntryName_of_mem_sift ht hmem
  obtain ⟨m, n, -, rfl⟩ := (mem_places_iff ht hr).1 hmem
  exact (identity?_below hr hnames).trans (identity?_below hr' hnames).symm

end Respells

/-- A spelling of a directory that leaves so many links to follow below it. -/
structure Spells (t : FileTree) (root : Path) (place : Location) (links : Nat) : Prop where
  valid : checkPath root = .ok ()
  leads : Leads t maxLinks (t.origin root) root.pieces ⟨place, links⟩
  plain : isStream root = false

theorem Spells.locate {links : Nat} (h : Spells t root place links) :
    t.locate true root = .ok place :=
  locate_eq_ok_iff.2 ⟨h.valid, links, h.leads⟩

/-- Two spellings open the same links if they leave as many links to follow, and the system
takes the paths below both of them or below neither. -/
theorem respells_of_spells (ht : t.IsNamed) {links : Nat} (h : Spells t root place links)
    (h' : Spells t root' place links) (hcheck : ∀ x ∈ (t.entries.under place).toList,
      checkPath (root.below x.1) = checkPath (root'.below x.1)) :
    Respells t ext root root' place := by
  refine ⟨⟨h.locate, h.plain⟩, ⟨h'.locate, h'.plain⟩, ?_⟩
  intro l n target _ _ hlink _
  have hnames (k : Name) (hk : k ∈ l ++ [n]) : IsEntryName k :=
    ht _ _ hlink k (List.mem_append_right place hk)
  have hmem : (l ++ [n], Entry.link target) ∈ (t.entries.under place).toList := by
    rw [Forest.mem_toList_iff (Forest.ordered_under t.ordered place),
      Forest.get?_append_singleton, ← entryAt?_concat]
    exact hlink
  rw [leadsToFile_below_iff (bytes_ne_nil_of_locate h.locate) hnames h.leads,
    leadsToFile_below_iff (bytes_ne_nil_of_locate h'.locate) hnames h'.leads, hcheck _ hmem]

/-- Every artifact that is found has the identity of its names below the root, so that no
task of an inventory fails for want of one; and two spellings of a root that open the same
links come to the same identities, where nothing is passed over. -/
theorem identities_of_discovered (ht : t.IsNamed) :
    (∀ (root : Path) (ext : String) (d : Discovery), Discovers t root ext d →
      ∀ p ∈ d.artifacts, ∃ place l n, t.locate true root = .ok place ∧
        t.IsArtifactAt root place ext l n ∧ p = root.below (l ++ [n]) ∧
        identity? root p = some (".".intercalate
          (l.map Text.Utf8.decode ++ [Text.Utf8.decode (Path.splitName n).1]))) ∧
    (∀ (tool : Tool) (s : Settings) (clock : Moment) (run : Run) (inventory : Inventory),
      Run.BuildsWith tool s clock t run → run.outcome = .complete inventory →
        ∀ f ∈ inventory.tally.failures, f.kind ≠ "IdentityError") ∧
    ∀ (root root' : Path) (ext : String) (place : Location) (d d' : Discovery),
      Respells t ext root root' place → Discovers t root ext d → Discovers t root' ext d' →
        d.skipped = [] → d'.skipped = [] →
          d.artifacts.map (identity? root) = d'.artifacts.map (identity? root') := by
  refine ⟨fun root ext d hd p hp => hd.exists_identity ht hp, ?_, ?_⟩
  · intro tool s clock run inventory hb hrun f hf
    cases hb with
    | ended he =>
      obtain ⟨e, he'⟩ := Run.failed_of_start_eq_error he
      cases he'.symm.trans hrun
    | @completed r c hs hc hdone =>
      obtain ⟨history, hruns⟩ := Crew.reaches_iff_runs.1 hc
      have hbalanced := hruns.balanced hdone
      have hdiscovers := discovers_of_discover (Run.start_eq_ok hs).2
      cases hrun
      obtain ⟨q, hq, hfailed⟩ := List.mem_filterMap.1 (hbalanced.failures.mem_iff.1 hf)
      obtain ⟨_, _, _, -, -, -, hidentity⟩ := hdiscovers.exists_identity ht hq
      exact Workbench.kind_of_failedTask hidentity hfailed
  · intro root root' ext place d d' h hd hd' hs hs'
    exact h.identities_eq ht hd hs hd' hs'

section Samples

def forCircled : Settings where
  root := .ofString "c"
  extension := "class"
  disassembler := ⟨.ofString "javap", [], none, none⟩
  jobs := 1
  output := .ofString "report"
  log := .ofString "log"
  appendLog := false

def ofCircled : Run := Run.buildWith (.always {}) forCircled ⟨0⟩ circled

set_option maxRecDepth 10000 in
theorem identities_of_two_spellings :
    (∃ d d', discover circled (.ofString "c") "class" = .ok d ∧
      discover circled (.ofString "./c//") "class" = .ok d' ∧
      (∀ p ∈ d'.artifacts, (identity? (.ofString "./c//") p).isSome = true) ∧
      d.artifacts.map (identity? (.ofString "c")) =
        d'.artifacts.map (identity? (.ofString "./c//"))) ∧
    ∃ inventory, ofCircled.outcome = .complete inventory ∧ inventory.discovered = 2 ∧
      ∀ f ∈ inventory.tally.failures, f.kind ≠ "IdentityError" := by
  obtain ⟨hidentity, hfailures, hsame⟩ := identities_of_discovered (t := circled) (by decide)
  constructor
  · have hplace : circled.locate true (.ofString "c") = .ok [Text.Utf8.encode "c"] := by cbv
    have hplace' : circled.locate true (.ofString "./c//") = .ok [Text.Utf8.encode "c"] := by cbv
    have hd := discover_circled hplace (by decide) (by cbv) (by cbv)
    have hd' := discover_circled hplace' (by decide) (by cbv) (by cbv)
    have hrespells : Respells circled "class" (.ofString "c") (.ofString "./c//")
        [Text.Utf8.encode "c"] :=
      respells_of_spells (by decide) ⟨by cbv, leads_of_walk (by cbv), by decide⟩
        ⟨by cbv, leads_of_walk (by cbv), by decide⟩ (by decide)
    refine ⟨_, _, hd, hd', fun p hp => ?_, ?_⟩
    · obtain ⟨_, _, _, -, -, -, hi⟩ := hidentity _ _ _ (discovers_of_discover hd') p hp
      rw [hi]
      rfl
    · exact hsame _ _ _ _ _ _ hrespells (discovers_of_discover hd) (discovers_of_discover hd')
        rfl rfl
  · have hrun : ofCircled.inventory?.map (·.discovered) = some 2 := by cbv
    obtain ⟨inventory, hinventory, hdiscovered⟩ := Option.map_eq_some_iff.1 hrun
    have ho := Run.inventory?_eq_some hinventory
    have hb : Run.BuildsWith (.always {}) forCircled ⟨0⟩ circled ofCircled := by
      refine Run.buildsWith_buildWith fun stall hstall => ?_
      cases ho.symm.trans hstall
    exact ⟨inventory, ho, hdiscovered, hfailures _ _ _ _ _ hb ho⟩

/-- Two spellings of one directory that come to different identities, although neither
discovery passes over anything. -/
def Unlike (t : FileTree) (root root' : Path) (extension : String) : Prop :=
  ∃ place d d', t.locate true root = .ok place ∧ t.locate true root' = .ok place ∧
    discover t root extension = .ok d ∧ discover t root' extension = .ok d' ∧
    d.skipped = [] ∧ d'.skipped = [] ∧
    d.artifacts.map (identity? root) ≠ d'.artifacts.map (identity? root')

set_option maxRecDepth 10000 in
/-- A detour may leave no link to follow to a class, and a directory that is spelled as the
input stream holds nothing. -/
theorem exists_unlike :
    Unlike circled (.ofString "c") (detour 40) "class" ∧
      Unlike dashed (.ofString "-") (.ofString "./-") "class" := by
  constructor
  · have hplace : circled.locate true (.ofString "c") = .ok [Text.Utf8.encode "c"] := by cbv
    have hplace' : circled.locate true (detour 40) = .ok [Text.Utf8.encode "c"] := by cbv
    have hd := discover_circled hplace (by decide) (by cbv) (by cbv)
    have hd' := discover_circled hplace' (by decide) (by cbv) (by cbv)
    exact ⟨_, _, _, hplace, hplace', hd, hd', rfl, rfl, by decide⟩
  · exact ⟨[[45]], ⟨[], []⟩, ⟨[.ofString "./-/A.class"], []⟩, by cbv, by cbv, by cbv, by cbv, rfl,
      rfl, by decide⟩

end Samples

end Discovery

end MemberIndex
