import MemberIndex.Proofs.Discovery.Separation
import MemberIndex.Proofs.Path.Identity
import MemberIndex.Settings

/-! # Extensions that are found

A file whose name ends in a dot and the wanted extension is found exactly if its directory is
entered and the extension holds no dot: the extension of a name begins behind its last dot. The
dots that begin a wanted extension are dropped before, but not those inside it, so that settings
may ask for an extension which no name has.
-/

namespace MemberIndex

open FileTree Discovery

namespace Path

variable {p q cwd : Path}

theorem components_of_isAbsolute (h : p.isAbsolute = true) :
    p.components = .root :: p.pieces.filterMap Component.ofPiece? := by
  rw [components, if_pos h]
  rfl

theorem isAbsolute_join_of_isAbsolute (h : p.isAbsolute = true) (q : Path) :
    (p.join q).isAbsolute = true := by
  unfold join
  split
  · assumption
  · have hne : p.bytes ≠ [] := by
      intro hnil
      simp [isAbsolute, hnil] at h
    have hhead (bs : List UInt8) : (p.bytes ++ bs).head? = p.bytes.head? :=
      List.head?_append_of_ne_nil _ hne
    split
    · rename_i hlast
      exact absurd (List.getLast?_eq_none_iff.1 hlast) hne
    · split <;> rwa [isAbsolute, hhead]

theorem isAbsolute_extend (h : p.isAbsolute = true) (cs : List Component) :
    (p.extend cs).isAbsolute = true := by
  induction cs generalizing p with
  | nil => exact h
  | cons c cs ih => exact ih (isAbsolute_join_of_isAbsolute h ⟨c.bytes⟩)

theorem isAbsolute_path (l : Location) : l.path.isAbsolute = true := isAbsolute_extend rfl _

theorem isAbsolute_of_absolute (hc : cwd.isAbsolute = true) (h : absolute cwd p = .ok q) :
    q.isAbsolute = true := by
  have hwhole (x : Path) (hx : x.isAbsolute = true) :
      (if p.bytes.getLast? = some slash then x.join ⟨[]⟩ else x).isAbsolute = true := by
    split
    · exact isAbsolute_join_of_isAbsolute hx _
    · exact hx
  unfold absolute at h
  split at h
  · cases h
  · cases h
    apply hwhole
    split
    · rename_i habs
      split
      · exact isAbsolute_extend rfl _
      · rw [components_of_isAbsolute habs]
        exact isAbsolute_extend (p := ⟨[slash]⟩) rfl _
    · exact isAbsolute_extend hc _

theorem not_isStream_of_isAbsolute (h : p.isAbsolute = true) : isStream p = false := by
  simp [isStream, components_of_isAbsolute h]

/-- A name that ends in a dot and a text behind a stem has that text as its extension exactly if
there is no other dot in it. -/
theorem extension_stem_iff {stem e : Name} (hstem : stem ≠ []) :
    (splitName (stem ++ dot :: e)).2 = some e ↔ dot ∉ e := by
  constructor
  · intro h hdot
    obtain ⟨after, before, he, hafter⟩ := List.eq_append_cons_of_mem (List.mem_reverse.2 hdot)
    obtain rfl : e = before.reverse ++ dot :: after.reverse := by
      simpa using congrArg List.reverse he
    have hsplit : splitName ((stem ++ dot :: before.reverse) ++ dot :: after.reverse) = _ :=
      splitName_append_cons (mt List.mem_reverse.1 hafter)
    rw [if_neg (by simp), List.append_assoc, List.cons_append] at hsplit
    have hlast := congrArg List.length (Option.some.inj ((congrArg Prod.snd hsplit).symm.trans h))
    simp at hlast
    omega
  · intro he
    rw [splitName_append_cons he, if_neg hstem]

end Path

theorem Settings.eq_of_resolve {t : FileTree} {env : Environment} {a : Arguments} {s : Settings}
    (h : resolve t env a = .ok s) :
    s.root.isAbsolute = true ∧ s.extension = bareExtension a.extension := by
  unfold resolve at h
  cases hroot : Path.absolute t.current.path a.root with
  | error e => simp [hroot, Except.mapError, bind, Except.bind] at h
  | ok root =>
    simp only [hroot, Except.mapError, bind, Except.bind] at h
    split at h
    · cases h
    · cases h
      exact ⟨Path.isAbsolute_of_absolute (Path.isAbsolute_path _) hroot, rfl⟩

namespace Discovery

variable {t : FileTree} {root : Path} {place l : Location} {n : Name} {ext : String}
  {d : Discovery}

theorem IsExact.below_mem_iff (h : d.IsExact t root place ext) (hr : root.bytes ≠ [])
    (ht : t.IsNamed) {e : Entry} (he : t.entryAt? (place ++ (l ++ [n])) = some e) :
    root.below (l ++ [n]) ∈ d.artifacts ↔ t.IsArtifactAt root place ext l n := by
  have hnames {l' : Location} {n' : Name} {e' : Entry}
      (he' : t.entryAt? (place ++ (l' ++ [n'])) = some e') : ∀ k ∈ l' ++ [n'], IsEntryName k :=
    fun k hk => ht _ _ he' k (List.mem_append_right place hk)
  rw [h.mem_artifacts]
  constructor
  · rintro ⟨l', n', hartifact, hbelow⟩
    obtain ⟨e', he'⟩ : ∃ e', t.entryAt? (place ++ (l' ++ [n'])) = some e' := by
      rcases hartifact.file with ⟨f, hfile⟩ | ⟨⟨target, hlink⟩, -⟩
      · exact ⟨_, hfile⟩
      · exact ⟨_, hlink⟩
    have hsame := Path.eq_of_below_eq hr (hnames he) (hnames he') hbelow
    obtain ⟨rfl, hlast⟩ := List.append_inj' hsame rfl
    rwa [List.singleton_inj.1 hlast]
  · intro hartifact
    exact ⟨l, n, hartifact, rfl⟩

theorem dot_mem_encode_iff {s : String} : Path.dot ∈ Text.Utf8.encode s ↔ '.' ∈ s.toList := by
  rw [← Identity.dot_mem_decode_iff, Text.Utf8.decode_encode]

/-- Whatever extension settings ask for, and in whatever order a walk comes upon the entries: a
file whose name is a stem, a dot and that extension is found exactly if the extension has no
dot left in it, and real directories that can be read lead down to the file. -/
theorem found_iff_undotted {env : Environment} {a : Arguments} {s : Settings}
    (hs : Settings.resolve t env a = .ok s) (ht : t.IsNamed)
    (hroot : t.isDirectory s.root = true) :
    s.extension = Settings.bareExtension a.extension ∧
    ∃ place, t.locate true s.root = .ok place ∧
      (∃ d, discover t s.root s.extension = .ok d ∧ Discovers t s.root s.extension d) ∧
      ∀ d, Discovers t s.root s.extension d → ∀ l stem f, stem ≠ [] →
        t.entryAt? (place ++ (l ++ [stem ++ Path.dot :: Text.Utf8.encode s.extension])) =
          some (.file f) →
        (s.root.below (l ++ [stem ++ Path.dot :: Text.Utf8.encode s.extension]) ∈ d.artifacts ↔
          '.' ∉ s.extension.toList ∧ t.Enters s.root place l) := by
  obtain ⟨habs, hextension⟩ := Settings.eq_of_resolve hs
  have hstream := Path.not_isStream_of_isAbsolute habs
  obtain ⟨place, hl, hd⟩ := exists_place_of_isDirectory hroot
  have hdiscover := discover_eq_ok ht hl hd hstream s.extension
  refine ⟨hextension, place, hl, ⟨_, hdiscover, discovers_of_discover hdiscover⟩, ?_⟩
  intro d hdiscovers l stem f hstem hfile
  have hexact := (hdiscovers.isExact ht hstream hl).2
  rw [hexact.below_mem_iff (bytes_ne_nil_of_locate hl) ht hfile, ← dot_mem_encode_iff,
    ← Path.extension_stem_iff hstem]
  constructor
  · intro hartifact
    exact ⟨hartifact.extension, hartifact.enters⟩
  · rintro ⟨hsplit, henters⟩
    exact ⟨henters, .inl ⟨f, hfile⟩, hsplit⟩

section Samples

def archives : FileTree :=
  ((({} : FileTree).put [Text.Utf8.encode "d"] .directory).put
    [Text.Utf8.encode "d", Text.Utf8.encode "A.klass"] (.file {})).put
    [Text.Utf8.encode "d", Text.Utf8.encode "B.tar.gz"] (.file {})

def asking (extension : String) : Arguments where
  root := .ofString "d"
  extension := extension

def askedFor (extension : String) : Settings where
  root := .ofString "/d"
  extension := extension
  disassembler := ⟨.ofString "javap", [Text.Utf8.encode "-v"], some (.ofSeconds 60), none⟩
  jobs := 0
  output := .ofString "class_info.json"
  log := .ofString "javap_output.log"
  appendLog := false

theorem found_iff_undotted_of_klass :
    Settings.resolve archives {} (asking ".klass") = .ok (askedFor "klass") ∧
      archives.IsNamed ∧ archives.isDirectory (askedFor "klass").root = true ∧
      ∃ d, discover archives (askedFor "klass").root "klass" = .ok d ∧
        Path.below (askedFor "klass").root [Text.Utf8.encode "A.klass"] ∈ d.artifacts := by
  have hs : Settings.resolve archives {} (asking ".klass") = .ok (askedFor "klass") := by rfl
  have ht : archives.IsNamed := by decide
  have hroot : archives.isDirectory (askedFor "klass").root = true := by cbv
  obtain ⟨-, place, hl, ⟨d, hd, hdiscovers⟩, hfound⟩ := found_iff_undotted hs ht hroot
  have hplace : archives.locate true (askedFor "klass").root = .ok [Text.Utf8.encode "d"] := by cbv
  cases hplace.symm.trans hl
  refine ⟨hs, ht, hroot, d, hd, ?_⟩
  exact (hfound d hdiscovers [] (Text.Utf8.encode "A") {} (by decide) (by rfl)).2
    ⟨by decide, .root⟩

/-- An extension with a dot inside is accepted, and a file with it is not found. -/
theorem exists_undiscovered :
    ∃ s d f, Settings.resolve archives {} (asking "tar.gz") = .ok s ∧ s.extension = "tar.gz" ∧
      archives.locate true s.root = .ok [Text.Utf8.encode "d"] ∧
      archives.entryAt? [Text.Utf8.encode "d", Text.Utf8.encode "B" ++
        Path.dot :: Text.Utf8.encode s.extension] = some (.file f) ∧
      discover archives s.root s.extension = .ok d ∧ d.skipped = [] ∧
      s.root.below [Text.Utf8.encode "B" ++ Path.dot :: Text.Utf8.encode s.extension] ∉
        d.artifacts := by
  have hplace : archives.locate true (askedFor "tar.gz").root = .ok [Text.Utf8.encode "d"] := by
    cbv
  have hplaces : places archives (askedFor "tar.gz").root [Text.Utf8.encode "d"] "tar.gz" = [] := by
    cbv
  have hpassed : passed archives (askedFor "tar.gz").root [Text.Utf8.encode "d"] = [] := by cbv
  have hd := discover_eq_ok (by decide) hplace (by cbv) (by decide) "tar.gz"
  rw [hplaces, hpassed] at hd
  exact ⟨askedFor "tar.gz", _, {}, by rfl, rfl, hplace, by decide, hd, rfl, List.not_mem_nil⟩

end Samples

end Discovery

end MemberIndex
