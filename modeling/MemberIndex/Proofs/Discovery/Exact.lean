import Mathlib.Data.List.Permutation
import Mathlib.Data.List.Sort
import MemberIndex.Proofs.Discovery.Walk
import MemberIndex.Proofs.FileTree.Leads

/-! # Exact discoveries

A discovery finds every artifact below its root once, in the order of paths, and names every
directory that could not be read, whatever the order in which they are come upon. What it
finds is told by the tree alone: which directories the root leads down to, which entries
stand there, and which links lead to files.
-/

namespace MemberIndex

namespace FileTree

/-- Every entry has a location of names that entries may have. -/
def IsNamed (t : FileTree) : Prop := ∀ l e, t.entryAt? l = some e → ∀ n ∈ l, IsEntryName n

/-- The directories below a root that real directories lead to, all of which can be read. -/
inductive Enters (t : FileTree) (root : Path) (place : Location) : Location → Prop
  | root : Enters t root place []
  | down {l : Location} {n : Name} (h : Enters t root place l)
    (hd : t.entryAt? (place ++ (l ++ [n])) = some .directory) (hr : root.Reads (l ++ [n])) :
    Enters t root place (l ++ [n])

def LeadsToFile (t : FileTree) (p : Path) : Prop :=
  ∃ r f, checkPath p = .ok () ∧ Leads t maxLinks (t.origin p) p.pieces r ∧
    t.entryAt? r.place = some (.file f)

/-- An entry of a directory below a root that a discovery is to find. -/
structure IsArtifactAt (t : FileTree) (root : Path) (place : Location) (extension : String)
    (l : Location) (n : Name) : Prop where
  enters : t.Enters root place l
  file : (∃ f, t.entryAt? (place ++ (l ++ [n])) = some (.file f)) ∨
    (∃ target, t.entryAt? (place ++ (l ++ [n])) = some (.link target)) ∧
      t.LeadsToFile (root.below (l ++ [n]))
  extension : (Path.splitName n).2 = some (Text.Utf8.encode extension)

variable {t : FileTree} {root : Path} {place l : Location} {n : Name} {ext : String}

theorem forall_name_iff {P : Name → Prop} :
    (∀ l e, t.entryAt? l = some e → ∀ n ∈ l, P n) ↔ ∀ x ∈ t.toList, ∀ n ∈ x.1, P n := by
  constructor
  · intro h x hx
    exact h _ _ ((mem_toList_iff t _ _).1 hx).2
  · intro h l e he
    by_cases hl : l = []
    · simp [hl]
    · exact h (l, e) ((mem_toList_iff t l e).2 ⟨hl, he⟩)

theorem isNamed_iff : t.IsNamed ↔ ∀ x ∈ t.toList, ∀ n ∈ x.1, IsEntryName n := forall_name_iff

instance : Decidable t.IsNamed := decidable_of_iff' _ isNamed_iff

theorem entryAt?_concat (t : FileTree) (place l : Location) (n : Name) :
    t.entryAt? (place ++ (l ++ [n])) = (((t.entries.under place).under l).child n).1 := by
  have hne : place ++ (l ++ [n]) ≠ [] := by simp
  rw [entryAt?, if_neg hne, ← List.append_assoc, Forest.get?_append_singleton,
    Forest.under_append]

theorem enters_concat_iff : t.Enters root place (l ++ [n]) ↔ t.Enters root place l ∧
    t.entryAt? (place ++ (l ++ [n])) = some .directory ∧ root.Reads (l ++ [n]) := by
  constructor
  · generalize hm : l ++ [n] = m
    intro h
    cases h with
    | root => exact absurd hm (by simp)
    | down h hd hr =>
      obtain ⟨rfl, -⟩ := List.append_inj' hm rfl
      exact ⟨h, hd, hr⟩
  · rintro ⟨h, hd, hr⟩
    exact .down h hd hr

theorem opens_iff_enters : (t.entries.under place).Opens root [] l ↔ t.Enters root place l := by
  induction l using List.reverseRecOn with
  | nil => exact iff_of_true trivial .root
  | append_singleton l n ih =>
    rw [Forest.opens_concat, enters_concat_iff, ih, entryAt?_concat, List.nil_append]

/-- What a walk tells of are the entries of the directories that it enters. -/
theorem mem_opened_iff {x : Location × Entry} : x ∈ (t.entries.under place).opened root [] ↔
    ∃ l n, x.1 = l ++ [n] ∧ t.Enters root place l ∧
      t.entryAt? (place ++ (l ++ [n])) = some x.2 := by
  have hordered := Forest.ordered_under t.ordered place
  rw [Forest.opened, List.mem_filter, Forest.mem_toList_iff hordered, decide_eq_true_eq,
    opens_iff_enters]
  constructor
  · rintro ⟨hget, henters⟩
    rcases List.eq_nil_or_concat x.1 with hnil | ⟨l, n, hconcat⟩
    · rw [hnil] at hget
      cases hget
    · rw [List.concat_eq_append] at hconcat
      rw [hconcat, List.dropLast_concat] at henters
      rw [hconcat, Forest.get?_append_singleton] at hget
      exact ⟨l, n, hconcat, henters, (entryAt?_concat ..).trans hget⟩
  · rintro ⟨l, n, hconcat, henters, hentry⟩
    rw [hconcat, List.dropLast_concat, Forest.get?_append_singleton]
    exact ⟨(entryAt?_concat ..).symm.trans hentry, henters⟩

theorem isFile_iff {p : Path} : t.isFile p = true ↔ t.LeadsToFile p := by
  constructor
  · intro h
    unfold isFile at h
    split at h
    · rename_i f hf
      obtain ⟨l, hl, he⟩ := find?_eq_some_iff.1 hf
      obtain ⟨hp, links, hleads⟩ := locate_eq_ok_iff.1 hl
      exact ⟨_, f, hp, hleads, he⟩
    · cases h
  · rintro ⟨r, f, hp, hleads, hfile⟩
    rw [isFile, find?_of_leads hp hleads, hfile]

theorem exists_place_of_isDirectory (h : t.isDirectory root = true) :
    ∃ place, t.locate true root = .ok place ∧ t.isDirectoryAt place = true := by
  obtain ⟨place, hl, he⟩ := find?_eq_some_iff.1 (of_decide_eq_true h)
  exact ⟨place, hl, decide_eq_true he⟩

end FileTree

namespace Discovery

open FileTree

/-- The discoveries that a root may come to: a walk below it hands out what it comes upon in
any order. -/
inductive Discovers (t : FileTree) (root : Path) (extension : String) : Discovery → Prop
  | of {place : Location} {met : List Encounter} (hl : t.locate true root = .ok place)
    (hd : t.isDirectoryAt place = true)
    (hm : met.Perm (if isStream root then [] else walk root (t.entries.under place))) :
    Discovers t root extension (ofEncounters t extension met)

/-- A discovery that finds each artifact below a root once, in the order of paths, and passes
over the directories that cannot be read, and nothing else. -/
structure IsExact (t : FileTree) (root : Path) (place : Location) (extension : String)
    (d : Discovery) : Prop where
  mem_artifacts : ∀ p, p ∈ d.artifacts ↔
    ∃ l n, t.IsArtifactAt root place extension l n ∧ p = root.below (l ++ [n])
  separate : ∀ l n l' n', t.IsArtifactAt root place extension l n →
    t.IsArtifactAt root place extension l' n' → root.below (l ++ [n]) = root.below (l' ++ [n']) →
      l ++ [n] = l' ++ [n']
  sorted : d.artifacts.Pairwise fun p q => compare p.sortKey q.sortKey = .lt
  mem_skipped : ∀ p e, (p, e) ∈ d.skipped ↔ e = .os .nameTooLong ∧
    ∃ l n, t.Enters root place l ∧ t.entryAt? (place ++ (l ++ [n])) = some .directory ∧
      ¬ root.Reads (l ++ [n]) ∧ p = root.below (l ++ [n])
  nodup_skipped : d.skipped.Nodup

def sift (t : FileTree) (root : Path) (place : Location) (test : Location × Entry → Bool) :
    List Location :=
  (((t.entries.under place).opened root []).filter test).map (·.1)

variable {t : FileTree} {root : Path} {place l : Location} {n : Name} {ext : String}
  {test : Location × Entry → Bool}

section Sift

theorem mem_sift_iff : l ∈ sift t root place test ↔ ∃ m n e, l = m ++ [n] ∧
    t.Enters root place m ∧ t.entryAt? (place ++ (m ++ [n])) = some e ∧ test (l, e) = true := by
  rw [sift, List.mem_map]
  constructor
  · rintro ⟨⟨l, e⟩, hx, rfl⟩
    obtain ⟨hopened, htest⟩ := List.mem_filter.1 hx
    obtain ⟨m, n, hl, henters, hentry⟩ := mem_opened_iff.1 hopened
    exact ⟨m, n, e, hl, henters, hentry, htest⟩
  · rintro ⟨m, n, e, hl, henters, hentry, htest⟩
    exact ⟨(l, e), List.mem_filter.2 ⟨mem_opened_iff.2 ⟨m, n, hl, henters, hentry⟩, htest⟩, rfl⟩

theorem pairwise_sift : (sift t root place test).Pairwise fun l m => compare l m = .lt := by
  have hordered := Forest.ordered_under t.ordered place
  rw [sift, List.pairwise_map]
  exact ((Forest.pairwise_toList hordered).filter _).filter _

theorem isEntryName_of_mem_sift (ht : t.IsNamed) (hl : l ∈ sift t root place test) :
    ∀ n ∈ l, IsEntryName n := by
  obtain ⟨m, n, e, rfl, -, hentry, -⟩ := mem_sift_iff.1 hl
  intro k hk
  exact ht _ _ hentry k (List.mem_append_right place hk)

theorem filterMap_walk {β : Type} {g : Encounter → Option β} {f : Location → β}
    (h : ∀ x, (told root x.1 x.2).filterMap g = if test x then [f x.1] else []) :
    (walk root (t.entries.under place)).filterMap g = (sift t root place test).map f := by
  have hwalk : walk (root.below []) (t.entries.under place) = _ :=
    walk_eq_flatMap (Forest.ordered_under t.ordered place) []
  rw [Path.below_nil] at hwalk
  rw [hwalk, List.filterMap_flatMap, sift]
  simp only [List.nil_append, h]
  induction (t.entries.under place).opened root [] with
  | nil => rfl
  | cons x xs ih =>
    rw [List.flatMap_cons, ih, List.filter_cons]
    split <;> rfl

theorem pairwise_map_below (ht : t.IsNamed) (hr : root.bytes ≠ []) :
    ((sift t root place test).map root.below).Pairwise
      fun p q => compare p.sortKey q.sortKey = .lt := by
  rw [List.pairwise_map]
  refine pairwise_sift.imp_of_mem fun hl hm hlt => ?_
  rw [Path.compare_below hr (isEntryName_of_mem_sift ht hl) (isEntryName_of_mem_sift ht hm)]
  exact hlt

end Sift

section Sorting

theorem eq_of_mem_iff_of_rising {α β : Type} [Ord β] [Std.OrientedOrd β] {f : α → β}
    {as bs : List α} (ha : as.Pairwise fun a b => compare (f a) (f b) = .lt)
    (hb : bs.Pairwise fun a b => compare (f a) (f b) = .lt) (h : ∀ a, a ∈ as ↔ a ∈ bs) :
    as = bs := by
  have hasymm : Std.Asymm fun a b => compare (f a) (f b) = .lt :=
    ⟨fun _ _ => Std.OrientedCmp.not_lt_of_lt⟩
  exact ha.eq_of_mem_iff hb h

variable {ps qs : List Path}

theorem precedes_total (p q : Path) : (p.precedes q || q.precedes p) = true := by
  rw [Bool.or_eq_true]
  by_cases h : (compare p.sortKey q.sortKey).isLE = true
  · exact .inl h
  · exact .inr (Ordering.isLE_of_eq_lt (Std.OrientedCmp.lt_of_not_isLE h))

theorem nodup_sortKeys (hq : qs.Pairwise fun p q => compare p.sortKey q.sortKey = .lt) :
    (qs.map Path.sortKey).Nodup := by
  rw [List.Nodup, List.pairwise_map]
  refine hq.imp fun {p q} hlt heq => ?_
  rw [heq] at hlt
  exact Std.OrientedCmp.not_lt_of_lt hlt hlt

theorem mergeSort_eq_of_perm (hp : ps.Perm qs)
    (hq : qs.Pairwise fun p q => compare p.sortKey q.sortKey = .lt) :
    ps.mergeSort Path.precedes = qs := by
  have htrans (p q r : Path) (hpq : p.precedes q = true) (hqr : q.precedes r = true) :
      p.precedes r = true := Std.TransCmp.isLE_trans hpq hqr
  have hsorted := List.pairwise_mergeSort htrans precedes_total ps
  have hperm := (List.mergeSort_perm ps Path.precedes).trans hp
  refine hperm.eq_of_pairwise ?_ hsorted ?_
  · intro p q hp' hq' hpq hqp
    have hkey : p.sortKey = q.sortKey :=
      Std.LawfulEqCmp.eq_of_compare (Std.OrientedCmp.isLE_antisymm hpq hqp)
    exact List.inj_on_of_nodup_map (nodup_sortKeys hq) (hperm.mem_iff.1 hp') hq' hkey
  · exact hq.imp Ordering.isLE_of_eq_lt

end Sorting

def places (t : FileTree) (root : Path) (place : Location) (extension : String) :
    List Location :=
  sift t root place fun x => isArtifact t extension (root.below x.1) x.2

def passed (t : FileTree) (root : Path) (place : Location) : List Location :=
  sift t root place fun x => x.2 = .directory ∧ ¬ root.Reads x.1

section Encounters

variable {met : List Encounter}

theorem artifacts_ofEncounters (ht : t.IsNamed) (hr : root.bytes ≠ [])
    (hm : met.Perm (walk root (t.entries.under place))) :
    (ofEncounters t ext met).artifacts = (places t root place ext).map root.below := by
  refine mergeSort_eq_of_perm ((hm.filterMap _).trans (.of_eq (filterMap_walk fun x => ?_)))
    (pairwise_map_below ht hr)
  by_cases hskip : x.2 = .directory ∧ ¬ root.Reads x.1
  · obtain ⟨hdirectory, hlong⟩ := hskip
    simp [told, hdirectory, hlong, isArtifact]
  · by_cases hkeep : isArtifact t ext (root.below x.1) x.2 = true <;> simp [told, hskip, hkeep]

theorem skipped_walk (ext : String) :
    (ofEncounters t ext (walk root (t.entries.under place))).skipped =
      (passed t root place).map fun l => (root.below l, .os .nameTooLong) := by
  refine filterMap_walk fun x => ?_
  by_cases hskip : x.2 = .directory ∧ ¬ root.Reads x.1
  · simp [told, hskip]
  · simp [told, hskip]

theorem skipped_ofEncounters (hm : met.Perm (walk root (t.entries.under place))) :
    (ofEncounters t ext met).skipped.Perm
      ((passed t root place).map fun l => (root.below l, .os .nameTooLong)) := by
  rw [← skipped_walk ext]
  exact hm.filterMap _

end Encounters

section Exact

variable {d d' : Discovery}

theorem isArtifact_iff (ht : t.IsNamed) (hr : root.bytes ≠ []) {e : Entry}
    (he : t.entryAt? (place ++ (l ++ [n])) = some e) (henters : t.Enters root place l) :
    isArtifact t ext (root.below (l ++ [n])) e = true ↔
      t.IsArtifactAt root place ext l n := by
  have hnames (k : Name) (hk : k ∈ l ++ [n]) : IsEntryName k :=
    ht _ _ he k (List.mem_append_right place hk)
  have hext : (root.below (l ++ [n])).extension? = (Path.splitName n).2 :=
    Path.extension?_below hr hnames
  constructor
  · intro h
    cases e with
    | file f =>
      exact ⟨henters, .inl ⟨f, he⟩, hext.symm.trans (of_decide_eq_true h)⟩
    | link target =>
      obtain ⟨hx, hfile⟩ := Bool.and_eq_true_iff.1 h
      exact ⟨henters, .inr ⟨⟨target, he⟩, isFile_iff.1 hfile⟩,
        hext.symm.trans (of_decide_eq_true hx)⟩
    | directory | device _ => cases h
  · rintro ⟨-, ⟨f, hfile⟩ | ⟨⟨target, hlink⟩, hfile⟩, hx⟩
    · cases he.symm.trans hfile
      exact decide_eq_true (hext.trans hx)
    · cases he.symm.trans hlink
      exact Bool.and_eq_true_iff.2 ⟨decide_eq_true (hext.trans hx), isFile_iff.2 hfile⟩

theorem mem_places_iff (ht : t.IsNamed) (hr : root.bytes ≠ []) :
    l ∈ places t root place ext ↔
      ∃ m n, t.IsArtifactAt root place ext m n ∧ l = m ++ [n] := by
  rw [places, mem_sift_iff]
  constructor
  · rintro ⟨m, n, e, rfl, henters, hentry, htest⟩
    exact ⟨m, n, (isArtifact_iff ht hr hentry henters).1 htest, rfl⟩
  · rintro ⟨m, n, h, rfl⟩
    obtain ⟨e, hentry⟩ : ∃ e, t.entryAt? (place ++ (m ++ [n])) = some e := by
      rcases h.file with ⟨f, hfile⟩ | ⟨⟨target, hlink⟩, -⟩
      · exact ⟨_, hfile⟩
      · exact ⟨_, hlink⟩
    exact ⟨m, n, e, rfl, h.enters, hentry, (isArtifact_iff ht hr hentry h.enters).2 h⟩

theorem mem_passed_iff : l ∈ passed t root place ↔ ∃ m n, l = m ++ [n] ∧
    t.Enters root place m ∧ t.entryAt? (place ++ (m ++ [n])) = some .directory ∧
      ¬ root.Reads (m ++ [n]) := by
  simp only [passed, mem_sift_iff, decide_eq_true_eq]
  constructor
  · rintro ⟨m, n, _, rfl, henters, hentry, rfl, hlong⟩
    exact ⟨m, n, rfl, henters, hentry, hlong⟩
  · rintro ⟨m, n, rfl, henters, hentry, hlong⟩
    exact ⟨m, n, _, rfl, henters, hentry, rfl, hlong⟩

/-- What a walk comes upon amounts to an exact discovery, whatever the order. -/
theorem isExact_ofEncounters (ht : t.IsNamed) (hr : root.bytes ≠ []) {met : List Encounter}
    (hm : met.Perm (walk root (t.entries.under place))) :
    (ofEncounters t ext met).IsExact t root place ext := by
  have hartifacts : (ofEncounters t ext met).artifacts = (places t root place ext).map root.below :=
    artifacts_ofEncounters ht hr hm
  have hskipped : (ofEncounters t ext met).skipped.Perm _ := skipped_ofEncounters hm
  constructor
  · intro p
    simp only [hartifacts, List.mem_map, mem_places_iff ht hr]
    constructor
    · rintro ⟨_, ⟨l, n, h, rfl⟩, rfl⟩
      exact ⟨l, n, h, rfl⟩
    · rintro ⟨l, n, h, rfl⟩
      exact ⟨_, ⟨l, n, h, rfl⟩, rfl⟩
  · intro l n l' n' h h'
    have hl := isEntryName_of_mem_sift ht ((mem_places_iff ht hr).2 ⟨l, n, h, rfl⟩)
    have hl' := isEntryName_of_mem_sift ht ((mem_places_iff ht hr).2 ⟨l', n', h', rfl⟩)
    exact Path.eq_of_below_eq hr hl hl'
  · rw [hartifacts]
    exact pairwise_map_below ht hr
  · intro p e
    simp only [hskipped.mem_iff, List.mem_map, mem_passed_iff, Prod.mk.injEq]
    constructor
    · rintro ⟨_, ⟨l, n, rfl, henters, hentry, hlong⟩, rfl, rfl⟩
      exact ⟨rfl, l, n, henters, hentry, hlong, rfl⟩
    · rintro ⟨rfl, l, n, henters, hentry, hlong, rfl⟩
      exact ⟨_, ⟨l, n, rfl, henters, hentry, hlong⟩, rfl, rfl⟩
  · rw [hskipped.nodup_iff]
    refine .of_map Prod.fst ?_
    rw [List.map_map]
    exact .of_map _ (nodup_sortKeys (pairwise_map_below ht hr))

theorem IsExact.unique (h : d.IsExact t root place ext)
    (h' : d'.IsExact t root place ext) :
    d.artifacts = d'.artifacts ∧ d.skipped.Perm d'.skipped := by
  constructor
  · exact eq_of_mem_iff_of_rising h.sorted h'.sorted fun p =>
      (h.mem_artifacts p).trans (h'.mem_artifacts p).symm
  · exact (List.perm_ext_iff_of_nodup h.nodup_skipped h'.nodup_skipped).2 fun x =>
      (h.mem_skipped x.1 x.2).trans (h'.mem_skipped x.1 x.2).symm

theorem discover_eq_ok (ht : t.IsNamed) (hl : t.locate true root = .ok place)
    (hd : t.isDirectoryAt place = true) (hs : isStream root = false) (ext : String) :
    discover t root ext = .ok ⟨(places t root place ext).map root.below,
      (passed t root place).map fun l => (root.below l, .os .nameTooLong)⟩ := by
  have hr := bytes_ne_nil_of_locate hl
  rw [← artifacts_ofEncounters ht hr (.refl _), ← skipped_walk ext]
  simp [discover, hl, hd, hs]

theorem Discovers.exists_met (h : Discovers t root ext d) :
    ∃ place met, t.locate true root = .ok place ∧ d = ofEncounters t ext met ∧
      met.Perm (if isStream root then [] else walk root (t.entries.under place)) := by
  cases h with
  | of hl _ hm => exact ⟨_, _, hl, rfl, hm⟩

theorem discovers_of_discover (h : discover t root ext = .ok d) : Discovers t root ext d := by
  unfold discover at h
  split at h
  · cases h
  · rename_i hl
    split at h
    · cases h
    · rename_i hd
      cases h
      exact .of hl (by simpa using hd) (.refl _)

theorem Discovers.isExact (h : Discovers t root ext d) (ht : t.IsNamed)
    (hs : isStream root = false) (hl : t.locate true root = .ok place) :
    d.artifacts = (places t root place ext).map root.below ∧ d.IsExact t root place ext := by
  obtain ⟨place', met, hl', rfl, hm⟩ := h.exists_met
  cases hl.symm.trans hl'
  rw [if_neg (by simp [hs])] at hm
  have hr := bytes_ne_nil_of_locate hl
  exact ⟨artifacts_ofEncounters ht hr hm, isExact_ofEncounters ht hr hm⟩

/-- Below a root that can be read, and that is not spelled as the input stream, a discovery
finds exactly the artifacts, in one order, whatever the order of the encounters. -/
theorem discover_isExact (ht : t.IsNamed) (hroot : t.isDirectory root = true)
    (hs : isStream root = false) (ext : String) :
    ∃ place, t.locate true root = .ok place ∧
      (∃ d, discover t root ext = .ok d ∧ Discovers t root ext d) ∧
      ∀ d, Discovers t root ext d → d.IsExact t root place ext ∧
        ∀ d', Discovers t root ext d' → d'.artifacts = d.artifacts ∧ d'.skipped.Perm d.skipped := by
  obtain ⟨place, hl, hd⟩ := exists_place_of_isDirectory hroot
  have hexact {d : Discovery} (h : Discovers t root ext d) : d.IsExact t root place ext :=
    (h.isExact ht hs hl).2
  have hdiscover := discover_eq_ok ht hl hd hs ext
  refine ⟨place, hl, ⟨_, hdiscover, discovers_of_discover hdiscover⟩, fun d h => ?_⟩
  exact ⟨hexact h, fun d' h' => (hexact h').unique (hexact h)⟩

end Exact

section Samples

def circled : FileTree :=
  (((({} : FileTree).put [Text.Utf8.encode "c"] .directory).put
    [Text.Utf8.encode "c", Text.Utf8.encode "C.class"] (.file {})).put
    [Text.Utf8.encode "c", Text.Utf8.encode "L.class"] (.link (Text.Utf8.encode "C.class"))).put
    [Text.Utf8.encode "s"] (.link [Path.dot])

def detour (turns : Nat) : Path :=
  ⟨(List.replicate turns (Text.Utf8.encode "s/")).flatten ++ Text.Utf8.encode "c"⟩

def dashed : FileTree :=
  (({} : FileTree).put [[45]] .directory).put [[45], Text.Utf8.encode "A.class"] (.file {})

theorem discover_circled {ls : List Location}
    (hl : circled.locate true root = .ok [Text.Utf8.encode "c"]) (hs : isStream root = false)
    (hplaces : places circled root [Text.Utf8.encode "c"] "class" = ls)
    (hpassed : passed circled root [Text.Utf8.encode "c"] = []) :
    discover circled root "class" = .ok ⟨ls.map root.below, []⟩ := by
  rw [discover_eq_ok (by decide) hl (by cbv) hs, hplaces, hpassed, List.map_nil]

set_option maxRecDepth 10000 in
theorem discover_isExact_of_detour :
    ∃ d, discover circled (detour 1) "class" = .ok d ∧
      d.artifacts = [.ofString "s/c/C.class", .ofString "s/c/L.class"] ∧
      d.IsExact circled (detour 1) [Text.Utf8.encode "c"] "class" ∧
      ∀ d', Discovers circled (detour 1) "class" d' → d'.artifacts = d.artifacts := by
  have hroot : circled.isDirectory (detour 1) = true := by cbv
  obtain ⟨place, hl, ⟨d, hd, hdiscovers⟩, hexact⟩ :=
    discover_isExact (by decide) hroot (by decide) "class"
  have hplace : circled.locate true (detour 1) = .ok [Text.Utf8.encode "c"] := by cbv
  have hfound := discover_circled hplace (by decide) (by cbv) (by cbv)
  cases hplace.symm.trans hl
  cases hd.symm.trans hfound
  obtain ⟨hisExact, hsame⟩ := hexact _ hdiscovers
  exact ⟨_, hd, by decide, hisExact, fun d' h' => (hsame d' h').1⟩

/-- A discovery that passes over nothing, and yet does not find a name of its root's
directory that has the extension and leads from there to a file. -/
def Overlooks (t : FileTree) (root : Path) (extension : String) (n : Name) : Prop :=
  ∃ place d r f, t.locate true root = .ok place ∧ t.isDirectoryAt place = true ∧
    discover t root extension = .ok d ∧ d.skipped = [] ∧
    (Path.splitName n).2 = some (Text.Utf8.encode extension) ∧
    Leads t maxLinks place [n] r ∧ t.entryAt? r.place = some (.file f) ∧
    root.below [n] ∉ d.artifacts

set_option maxRecDepth 10000 in
/-- On its way to a link a path may have followed as many links as the system allows, and
then the link is not found. A root that is spelled as the input stream has no entries. -/
theorem exists_overlooked :
    Overlooks circled (detour 40) "class" (Text.Utf8.encode "L.class") ∧
      Overlooks dashed ⟨[45]⟩ "class" (Text.Utf8.encode "A.class") := by
  constructor
  · have hplace : circled.locate true (detour 40) = .ok [Text.Utf8.encode "c"] := by cbv
    have hd : discover circled (detour 40) "class" =
        .ok ⟨[[Text.Utf8.encode "C.class"]].map (detour 40).below, []⟩ :=
      discover_circled hplace (by decide) (by cbv) (by cbv)
    exact ⟨[Text.Utf8.encode "c"], _, ⟨[Text.Utf8.encode "c", Text.Utf8.encode "C.class"], 39⟩,
      {}, hplace, by cbv, hd, rfl, by decide, leads_of_walk (by cbv), by cbv, by decide⟩
  · exact ⟨[[45]], ⟨[], []⟩, ⟨[[45], Text.Utf8.encode "A.class"], 40⟩, {}, by cbv, by cbv, by cbv,
      rfl, by decide, leads_of_walk (by cbv), by cbv, by decide⟩

end Samples

end Discovery

end MemberIndex
