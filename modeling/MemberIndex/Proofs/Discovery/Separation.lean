import MemberIndex.Proofs.Discovery.Identities
import MemberIndex.Proofs.Run.OrderIndependence

/-! # Identities that keep apart

An identity is cut at its dots into the names that it was joined from, if these are texts
without a dot. So two artifacts with such names have two identities, and where every artifact
has such names, no record of a run replaces another one.
-/

namespace MemberIndex

open FileTree

/-- A name that encodes a text and holds no dot. -/
structure IsPlain (n : Name) : Prop where
  text : ∃ s, Text.Utf8.encode s = n
  dot_notMem : Path.dot ∉ n

theorem exists_encode_iff {n : Name} :
    (∃ s, Text.Utf8.encode s = n) ↔ Text.Utf8.encode (Text.Utf8.decode n) = n := by
  constructor
  · rintro ⟨s, rfl⟩
    rw [Text.Utf8.decode_encode]
  · intro h
    exact ⟨_, h⟩

theorem isPlain_iff {n : Name} :
    IsPlain n ↔ Text.Utf8.encode (Text.Utf8.decode n) = n ∧ Path.dot ∉ n := by
  rw [← exists_encode_iff]
  constructor
  · rintro ⟨htext, hdot⟩
    exact ⟨htext, hdot⟩
  · rintro ⟨htext, hdot⟩
    exact ⟨htext, hdot⟩

instance (n : Name) : Decidable (IsPlain n) := decidable_of_iff' _ isPlain_iff

namespace Identity

def names (i : String) : List Name :=
  (Text.fields '.' i.toList).map fun piece => Text.Utf8.encode (String.ofList piece)

theorem not_stray_dot : ¬ Text.Utf8.Stray '.' := by
  rintro (h | h) <;> exact absurd h (by decide)

theorem dot_mem_decode_iff {n : Name} : '.' ∈ (Text.Utf8.decode n).toList ↔ Path.dot ∈ n := by
  rw [Text.Utf8.decode, String.toList_ofList]
  exact Text.Utf8.mem_decodeFrom_iff rfl (by decide) not_stray_dot

/-- Plain names are what stands between the dots of the identity that they are joined to. -/
theorem names_intercalate {ks : List Name} (hk : ∀ k ∈ ks, IsPlain k) (hne : ks ≠ []) :
    names (".".intercalate (ks.map Text.Utf8.decode)) = ks := by
  have hpieces : ∀ piece ∈ ks.map fun k => (Text.Utf8.decode k).toList, '.' ∉ piece := by
    intro piece hpiece
    obtain ⟨k, hmem, rfl⟩ := List.mem_map.1 hpiece
    exact mt dot_mem_decode_iff.1 (hk k hmem).dot_notMem
  have hfields := Text.fields_intercalate hpieces (by simpa using hne)
  have hlist : (".".intercalate (ks.map Text.Utf8.decode)).toList =
      ['.'].intercalate (ks.map fun k => (Text.Utf8.decode k).toList) := by
    rw [String.toList_intercalate, List.map_map]
    rfl
  rw [names, hlist, hfields, List.map_map]
  refine (List.map_congr_left fun k hmem => ?_).trans (List.map_id ks)
  rw [Function.comp_apply, String.ofList_toList]
  exact exists_encode_iff.1 (hk k hmem).text

end Identity

namespace Path

/-- The names that a path goes through behind a root: those of its directories, and the stem
of its last one. -/
inductive Trail (p root : Path) : List Name → Prop
  | of {l : Location} {n : Name} (h : p.stripPrefix? root = some ((l ++ [n]).map .name)) :
    Trail p root (l ++ [(splitName n).1])

def IsPlainBelow (p root : Path) : Prop := ∃ ks, Trail p root ks ∧ ∀ k ∈ ks, IsPlain k

variable {root p : Path} {ks : List Name}

theorem Trail.ne_nil (h : Trail p root ks) : ks ≠ [] := by
  cases h
  exact List.append_ne_nil_of_right_ne_nil _ (List.cons_ne_nil _ _)

theorem Trail.unique {ks' : List Name} (h : Trail p root ks) (h' : Trail p root ks') :
    ks = ks' := by
  cases h with | @of l n h =>
  cases h' with | @of l' n' h' =>
  have hnames : l ++ [n] = l' ++ [n'] :=
    List.map_injective_iff.2 (fun _ _ => Component.name.inj) (Option.some.inj (h.symm.trans h'))
  obtain ⟨rfl, hlast⟩ := List.append_inj' hnames rfl
  rw [List.singleton_inj.1 hlast]

theorem Trail.identity? (h : Trail p root ks) :
    identity? root p = some (".".intercalate (ks.map Text.Utf8.decode)) := by
  cases h with | of h =>
  rw [identity?_of_stripPrefix h, List.map_append, List.map_singleton]

theorem eq_of_splitName {n e : Name} (h : (splitName n).2 = some e) :
    n = (splitName n).1 ++ dot :: e := by
  have hwhole : n = (n.reverse.dropWhile (· ≠ dot)).reverse ++
      (n.reverse.takeWhile (· ≠ dot)).reverse := by
    rw [← List.reverse_append, List.takeWhile_append_dropWhile, List.reverse_reverse]
  have hdot := List.head?_dropWhile_not (p := (· ≠ dot)) n.reverse
  unfold splitName at h ⊢
  split at h
  · cases h
  · cases h
  · rename_i b before _ hdrop
    cases h
    rw [hdrop] at hwhole hdot
    obtain rfl : b = dot := by simpa using hdot
    refine hwhole.trans ?_
    simp

end Path

namespace Discovery

variable {t : FileTree} {root p q : Path} {ext : String} {d : Discovery}

theorem Discovers.exists_trail (h : Discovers t root ext d) (ht : t.IsNamed)
    (hp : p ∈ d.artifacts) : ∃ l stem, p.Trail root (l ++ [stem]) ∧
      p = root.below (l ++ [stem ++ Path.dot :: Text.Utf8.encode ext]) := by
  obtain ⟨place, l, n, -, hartifact, hbelow, hstrip⟩ := h.exists_artifact ht hp
  refine ⟨l, (Path.splitName n).1, .of hstrip, ?_⟩
  rw [hbelow, ← Path.eq_of_splitName hartifact.extension]

theorem Discovers.eq_of_trail (h : Discovers t root ext d) (ht : t.IsNamed) {ks : List Name}
    (hp : p ∈ d.artifacts) (hq : q ∈ d.artifacts) (hpk : p.Trail root ks)
    (hqk : q.Trail root ks) : p = q := by
  obtain ⟨l, stem, htrail, hbelow⟩ := h.exists_trail ht hp
  obtain ⟨l', stem', htrail', hbelow'⟩ := h.exists_trail ht hq
  have hsame : l ++ [stem] = l' ++ [stem'] :=
    (htrail.unique hpk).trans (hqk.unique htrail')
  obtain ⟨rfl, hstem⟩ := List.append_inj' hsame rfl
  rw [hbelow, hbelow', List.singleton_inj.1 hstem]

theorem Discovers.eq_of_identity (h : Discovers t root ext d) (ht : t.IsNamed)
    (hp : p ∈ d.artifacts) (hq : q ∈ d.artifacts) (hpp : p.IsPlainBelow root)
    (hqp : q.IsPlainBelow root) (hi : identity? root p = identity? root q) : p = q := by
  obtain ⟨ks, hk, hks⟩ := hpp
  obtain ⟨ks', hk', hks'⟩ := hqp
  rw [hk.identity?, hk'.identity?, Option.some.injEq] at hi
  have hsame : ks = ks' := by
    rw [← Identity.names_intercalate hks hk.ne_nil, hi, Identity.names_intercalate hks' hk'.ne_nil]
  exact h.eq_of_trail ht hp hq hk (hsame ▸ hk')

theorem Discovers.nodup_artifacts (h : Discovers t root ext d) (ht : t.IsNamed) :
    d.artifacts.Nodup :=
  .of_map _ (nodup_sortKeys (h.sorted_artifacts ht))

end Discovery

namespace Workbench

variable {p : Workbench} {path : Path} {paths : List Path} {ds : List Deed}

def Separates (p : Workbench) (paths : List Path) : Prop :=
  paths.Pairwise fun q q' => ∀ i, identity? p.root q = some i → identity? p.root q' ≠ some i

theorem Separates.nodup_rows (h : p.Separates paths) :
    ((paths.filterMap p.row?).map (·.1)).Nodup := by
  rw [List.Nodup, List.pairwise_map, List.pairwise_filterMap]
  refine h.imp fun {q q'} hne e he e' he' heq => ?_
  refine hne _ (identity?_of_row he) ?_
  rw [identity?_of_row he']
  exact congrArg some heq.symm

theorem Story.countP_collision_pos (h : p.Story path ds) {q : Path} {i : String}
    (ho : .tells (.overwritten q i) ∈ ds) : 0 < ds.countP Deed.isCollision := by
  have hprelude : .tells (.overwritten q i) ∉ p.prelude path := by
    cases hb : p.block? path <;> simp [prelude, hb]
  cases h with
  | failed he => simp [hprelude] at ho
  | @recorded x hx replaced =>
    have hwarnings : .tells (.overwritten q i) ∉ warnings path x.exit := by
      unfold warnings
      split <;> simp
    cases replaced with
    | none => simp [hprelude, hwarnings] at ho
    | some m => exact List.countP_pos_iff.2 ⟨.collides, by simp, rfl⟩

end Workbench

namespace Crew

variable {p : Workbench} {paths : List Path} {s : Shared} {h : History} {c : Crew}

/-- Where no two paths have the same identity, a finished run that began without records has
one for each task that ended well, and no collision. -/
theorem Runs.separate (hr : Runs p (.init paths s) h c) (hd : c.IsDone)
    (hp : p.Separates paths) (hs : s.records = ∅) :
    h.deeds.countP Deed.isCollision = 0 ∧
      c.shared.records.size = paths.countP (fun q => (p.finding? q).isSome) ∧
      ∀ q ∈ paths, ∀ x, p.finding? q = some x → c.shared.records[x.identity]? = some x.members := by
  obtain ⟨entries, hperm, hrec⟩ := hr.exists_records_eq hd
  rw [hs] at hrec
  have hnodup : (entries.map (·.1)).Nodup := (hperm.map _).nodup_iff.2 hp.nodup_rows
  have hsize : c.shared.records.size = (h.deeds.filterMap Deed.row?).length := by
    rw [hrec, Records.size_putAll_of_nodup hnodup, hperm.length_eq, (hr.entries hd).length_eq]
  refine ⟨?_, ?_, ?_⟩
  · have hsum := hr.size_records
    change _ = s.records.size + _ at hsum
    rw [hs, Std.ExtTreeMap.size_empty] at hsum
    rw [hr.collisions hd]
    omega
  · rw [hrec, Records.size_putAll_of_nodup hnodup, hperm.length_eq,
      List.length_filterMap_eq_countP]
    simp [Workbench.row?]
  · intro q hq x hx
    have hmem : (x.identity, x.members) ∈ entries :=
      hperm.mem_iff.2 (List.mem_filterMap.2 ⟨q, hq, by rw [Workbench.row?, hx]; rfl⟩)
    obtain ⟨m, hm, hget⟩ := Records.exists_getElem?_putAll (r := ∅) hmem
    rw [hrec, hget]
    exact congrArg (some ·.2) (List.inj_on_of_nodup_map hnodup hm hmem rfl)

theorem Runs.overwritten_notMem (hr : Runs p (.init paths s) h c) (hd : c.IsDone)
    (hnone : h.deeds.countP Deed.isCollision = 0) {q : Path} {i : String}
    (hs : .overwritten q i ∉ s.events) : .overwritten q i ∉ c.shared.events := by
  intro hmem
  rw [hr.shared_eq] at hmem
  obtain ⟨deed, hdeed, htold⟩ := List.mem_filterMap.1 ((List.mem_append.1 hmem).resolve_left hs)
  obtain rfl : deed = .tells (.overwritten q i) := by
    cases deed <;> simp_all
  obtain ⟨stories, hstories, hperm⟩ := hr.exists_stories hd
  obtain ⟨story, hstory, hin⟩ := List.mem_flatten.1 (hperm.mem_iff.1 hdeed)
  obtain ⟨n, hn, rfl⟩ := List.getElem_of_mem hstory
  have hforall := List.forall₂_iff_get.1 hstories
  have hpos := (hforall.2 n (hforall.1 ▸ hn) hn).countP_collision_pos hin
  obtain ⟨collision, hcollision, his⟩ := List.countP_pos_iff.1 hpos
  have hdeeds : collision ∈ h.deeds :=
    hperm.mem_iff.2 (List.mem_flatten.2 ⟨_, hstory, hcollision⟩)
  rw [List.countP_eq_zero] at hnone
  exact hnone collision hdeeds his

end Crew

namespace Discovery

variable {t : FileTree}

theorem Discovers.separates {root : Path} {ext : String} {d : Discovery}
    (h : Discovers t root ext d) (ht : t.IsNamed)
    (hplain : ∀ p ∈ d.artifacts, p.IsPlainBelow root) (tool : Tool) (clock : Moment) :
    (⟨root, tool, clock⟩ : Workbench).Separates d.artifacts := by
  refine (h.nodup_artifacts ht).imp_of_mem fun {p q} hp hq hne i hi hi' => ?_
  exact hne (h.eq_of_identity ht hp hq (hplain p hp) (hplain q hq) (hi.trans hi'.symm))

/-- The identity of an artifact with plain names is cut at its dots into these names, so that
two artifacts with plain names have two identities; and in a run over such artifacts alone no
record replaces another one. -/
theorem identities_separate (ht : t.IsNamed) :
    (∀ (root : Path) (ext : String) (d : Discovery), Discovers t root ext d →
      ∀ p ∈ d.artifacts, (∃ ks, p.Trail root ks) ∧
        ∀ ks, p.Trail root ks → (∀ k ∈ ks, IsPlain k) →
          ∃ i, identity? root p = some i ∧ Identity.names i = ks) ∧
    (∀ (root : Path) (ext : String) (d : Discovery), Discovers t root ext d →
      ∀ p ∈ d.artifacts, ∀ q ∈ d.artifacts, p.IsPlainBelow root → q.IsPlainBelow root →
        identity? root p = identity? root q → p = q) ∧
    ∀ (tool : Tool) (s : Settings) (clock : Moment) (run : Run) (inv : Inventory) (d : Discovery),
      Run.BuildsWith tool s clock t run → run.outcome = .complete inv →
        discover t s.root s.extension = .ok d → (∀ p ∈ d.artifacts, p.IsPlainBelow s.root) →
          inv.tally.collisions = 0 ∧ inv.records.size = inv.tally.extracted ∧
          (∀ p i, .overwritten p i ∉ run.events) ∧
          ∀ p ∈ d.artifacts, ∀ x, (⟨s.root, tool, clock⟩ : Workbench).finding? p = some x →
            inv.records[x.identity]? = some x.members := by
  refine ⟨?_, fun _ _ _ hd p hp q hq => hd.eq_of_identity ht hp hq, ?_⟩
  · intro root ext d hd p hp
    obtain ⟨l, stem, htrail, -⟩ := hd.exists_trail ht hp
    refine ⟨⟨_, htrail⟩, fun ks hks hplain => ⟨_, hks.identity?, ?_⟩⟩
    exact Identity.names_intercalate hplain hks.ne_nil
  · intro tool s clock run inv d hb hinv hd hplain
    cases hb with
    | ended he =>
      obtain ⟨e, he'⟩ := Run.failed_of_start_eq_error he
      cases he'.symm.trans hinv
    | @completed r c hs hc hdone =>
      obtain ⟨history, hruns⟩ := Crew.reaches_iff_runs.1 hc
      obtain ⟨-, hd'⟩ := Run.start_eq_ok hs
      cases hd.symm.trans hd'
      have hseparates := (discovers_of_discover hd).separates ht hplain tool clock
      obtain ⟨hnone, hsize, hstands⟩ := hruns.separate hdone hseparates rfl
      have hbalanced := hruns.balanced hdone
      have htold (p : Path) (i : String) : .overwritten p i ∉ c.shared.events := by
        refine hruns.overwritten_notMem hdone hnone ?_
        change _ ∉ r.events
        rw [Run.events_of_start hs]
        simp
      cases hinv
      refine ⟨?_, hsize.trans hbalanced.extracted.symm, ?_, hstands⟩
      · have hcount := hbalanced.size
        rw [hsize, Std.ExtTreeMap.size_empty, hbalanced.extracted] at hcount
        exact Nat.add_left_cancel (hcount.trans (Nat.add_comm 0 _))
      · intro p i hmem
        rcases List.mem_append.1 hmem with hmem | hmem
        · exact htold p i hmem
        · simp at hmem

section Samples

def ofWhole : Run :=
  Run.buildWith (.always {}) { forCircled with root := .ofString "." } ⟨0⟩ circled

theorem discover_whole : discover circled (.ofString ".") "class" =
    .ok ⟨[.ofString "./c/C.class", .ofString "./c/L.class"], []⟩ := by
  have hplace : circled.locate true (.ofString ".") = .ok [] := by cbv
  have hplaces : (places circled (.ofString ".") [] "class").map (Path.below (.ofString ".")) =
      [.ofString "./c/C.class", .ofString "./c/L.class"] := by cbv
  have hpassed : passed circled (.ofString ".") [] = [] := by cbv
  rw [discover_eq_ok (by decide) hplace (by cbv) (by decide), hplaces, hpassed, List.map_nil]

set_option maxRecDepth 10000 in
theorem identities_separate_of_circled :
    ∃ inv, Identity.names "c.C" = [Text.Utf8.encode "c", Text.Utf8.encode "C"] ∧
      identity? (.ofString ".") (.ofString "./c/C.class") ≠
        identity? (.ofString ".") (.ofString "./c/L.class") ∧
      ofWhole.outcome = .complete inv ∧ inv.tally.extracted = 2 ∧ inv.tally.collisions = 0 ∧
      inv.records.size = 2 := by
  obtain ⟨hnames, hseparate, hcounts⟩ := identities_separate (t := circled) (by decide)
  have hd := discovers_of_discover discover_whole
  have htrail : (Path.ofString "./c/C.class").Trail (.ofString ".")
      [Text.Utf8.encode "c", Text.Utf8.encode "C"] := by
    exact .of (l := [Text.Utf8.encode "c"]) (n := Text.Utf8.encode "C.class") (by decide)
  have htrail' : (Path.ofString "./c/L.class").Trail (.ofString ".")
      [Text.Utf8.encode "c", Text.Utf8.encode "L"] := by
    exact .of (l := [Text.Utf8.encode "c"]) (n := Text.Utf8.encode "L.class") (by decide)
  have hplain : ∀ p ∈ [Path.ofString "./c/C.class", Path.ofString "./c/L.class"],
      p.IsPlainBelow (.ofString ".") := by
    simp only [List.forall_mem_cons, List.not_mem_nil, false_implies, implies_true, and_true]
    exact ⟨⟨_, htrail, by decide⟩, ⟨_, htrail', by decide⟩⟩
  have hrun : ofWhole.inventory?.map (·.tally.extracted) = some 2 := by cbv
  obtain ⟨inv, hinv, hextracted⟩ := Option.map_eq_some_iff.1 hrun
  have ho := Run.inventory?_eq_some hinv
  have hb : Run.BuildsWith (.always {}) { forCircled with root := .ofString "." } ⟨0⟩ circled
      ofWhole := by
    refine Run.buildsWith_buildWith fun stall hstall => ?_
    cases ho.symm.trans hstall
  obtain ⟨hcollisions, hsize, -⟩ := hcounts _ _ _ _ _ _ hb ho discover_whole hplain
  refine ⟨inv, ?_, ?_, ho, hextracted, hcollisions, hsize.trans hextracted⟩
  · obtain ⟨i, hi, hsplit⟩ := (hnames _ _ _ hd _ List.mem_cons_self).2 _ htrail (by decide)
    rw [htrail.identity?] at hi
    obtain rfl : "c.C" = i := Option.some.inj hi
    exact hsplit
  · intro hsame
    have heq := hseparate _ _ _ hd _ List.mem_cons_self _
      (List.mem_cons_of_mem _ List.mem_cons_self) (hplain _ (by simp)) (hplain _ (by simp)) hsame
    exact absurd heq (by decide)

end Samples

end Discovery

end MemberIndex
