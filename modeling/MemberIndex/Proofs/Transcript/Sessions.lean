import MemberIndex.Proofs.FileTree.Reopening
import MemberIndex.Proofs.Run.LogLines

/-! # Sessions of a log

A log is opened, given blocks and shut down, and may be opened again later. A session that adds
to the log writes behind what stands there, and any other begins with an empty file, so that the
log holds what was written since it was emptied last, and what it held at first if it was never
emptied.
-/

namespace MemberIndex

namespace Log

/-! ## Writing to an open log -/

/-- A log held open: it writes behind what the log holds if it adds to it, and otherwise from
its own place on. -/
structure Descriptor where
  append : Bool
  offset : Nat := 0

namespace Descriptor

variable {x : Descriptor × List UInt8}

/-- Writes bytes into what the log holds, over what stands where they are written. -/
def write (x : Descriptor × List UInt8) (more : List UInt8) : Descriptor × List UInt8 :=
  let start := if x.1.append then x.2.length else x.1.offset
  ({ x.1 with offset := start + more.length },
    x.2.take start ++ List.replicate (start - x.2.length) 0 ++ more ++
      x.2.drop (start + more.length))

def IsBehind (x : Descriptor × List UInt8) : Prop := x.1.append = true ∨ x.1.offset = x.2.length

theorem IsBehind.write (h : IsBehind x) (more : List UInt8) :
    (write x more).2 = x.2 ++ more ∧ IsBehind (write x more) := by
  have hstart : (if x.1.append then x.2.length else x.1.offset) = x.2.length := by
    rcases h with happend | hoffset
    · rw [if_pos happend]
    · rw [hoffset, ite_self]
  have hheld : (Descriptor.write x more).2 = x.2 ++ more := by
    simp [Descriptor.write, hstart]
  refine ⟨hheld, .inr ?_⟩
  rw [hheld, List.length_append]
  simp [Descriptor.write, hstart]

/-- However bytes are cut into pieces, writing the pieces behind each other writes the bytes. -/
theorem IsBehind.foldl_write (h : IsBehind x) (chunks : List (List UInt8)) :
    (chunks.foldl Descriptor.write x).2 = x.2 ++ chunks.flatten := by
  induction chunks generalizing x with
  | nil => simp
  | cons chunk chunks ih =>
    obtain ⟨hheld, hbehind⟩ := h.write chunk
    rw [List.foldl_cons, ih hbehind, hheld, List.append_assoc, List.flatten_cons]

end Descriptor

theorem bytes_append_of_opened {p : Path} {append : Bool} {t : FileTree} {place : Location}
    {f : File} (h : FileTree.Opened p append t place) (hf : t.entryAt? place = some (.file f))
    (chunks : List (List UInt8)) :
    (chunks.foldl Descriptor.write (⟨append, 0⟩, f.content.bytes)).2 =
      (f.content.append chunks.flatten).bytes := by
  have hbehind : Descriptor.IsBehind (⟨append, 0⟩, f.content.bytes) := by
    cases append with
    | true => exact .inl rfl
    | false =>
      right
      rw [h.emptied rfl f hf]
      rfl
  rw [hbehind.foldl_write, Content.bytes_append]

/-! ## One session after another -/

/-- One opening of a log up to its shutdown, with the blocks that it is given. -/
structure Session where
  append : Bool
  blocks : List Block

namespace Session

variable {p : Path} {s : Session} {t t' : FileTree} {held : List UInt8}

def bytes (s : Session) : List UInt8 := s.blocks.flatMap Block.render

/-- A session on a tree, in which any hands send blocks in any order of steps, and the tree that it
leaves once it is shut down and nothing has failed. -/
inductive Runs (p : Path) (s : Session) (t : FileTree) : FileTree → Prop
  | intro {t₁ : FileTree} {place : Location} {calls : List (Nat × Block)} {c : Channel}
    (hopen : (openAt p s.append).run.run t = (.ok place, t₁))
    (hr : Channel.Runs (sink t₁ place).writer calls c) (hb : Channel.blocks calls = s.blocks)
    (ha : c.answer = some (.ok ())) : Runs p s t (settle t₁ place c.sink)

def carryOut? (p : Path) (s : Session) (t : FileTree) : Option FileTree :=
  match (openAt p s.append).run.run t with
  | (.ok place, t₁) =>
    match (s.blocks.foldl Sink.submit (sink t₁ place)).shutdown with
    | (.ok _, k) => some (settle t₁ place k)
    | (.error _, _) => none
  | (.error _, _) => none

/-- Whoever sends the blocks of a session and however its writer gets on, the session leaves the
same tree. -/
theorem runs_iff : s.Runs p t t' ↔ s.carryOut? p t = some t' := by
  have hsink (t : FileTree) (place : Location) :
      { writer := (sink t place).writer } = sink t place := by
    unfold sink
    split <;> rfl
  constructor
  · rintro ⟨hopen, hr, hb, ha⟩
    have hend := hr.kept.eq_of_answer ha
    rw [hb, hsink] at hend
    simp only [carryOut?, hopen, ← hend]
  · intro h
    unfold carryOut? at h
    split at h
    · rename_i place t₁ hopen
      obtain ⟨c, r, hr, ha⟩ := Channel.exists_runs (sink t₁ place).writer s.blocks
      have hblocks : Channel.blocks (s.blocks.map (0, ·)) = s.blocks := by
        simp [Channel.blocks, Function.comp_def]
      have hend := hr.kept.eq_of_answer ha
      rw [hblocks, hsink] at hend
      rw [← hend] at h
      cases r with
      | error e => cases h
      | ok u =>
        cases h
        exact .intro hopen hr hblocks ha
    · cases h

end Session

/-- The bytes of the log at a path: those of the file that the path leads to once the directories
that it lies in are made, or none if it leads to nothing then. -/
def Holds (p : Path) (t : FileTree) (held : List UInt8) : Prop :=
  (∃ f, ((FileTree.makeParents p).run.run t).2.find? p = some (.file f) ∧
    f.content = .data held) ∨
  ((FileTree.makeParents p).run.run t).2.find? p = none ∧ held = []

section

variable {p : Path} {s : Session} {ss : List Session} {t t' : FileTree} {held : List UInt8}

theorem holds_of_file {f : File} (hf : t.find? p = some (.file f)) (hc : f.content = .data held) :
    Holds p t held := by
  cases hmade : (FileTree.makeParents p).run.run t with
  | mk r t₁ =>
    have hgrown := (FileTree.makeParents_growsTo p t r t₁ hmade).extends
    exact .inl ⟨f, by rw [hmade]; exact hgrown.find? hf, hc⟩

theorem holds_of_missing (ht : t.IsRooted) (hup : [Path.dot, Path.dot] ∉ p.pieces)
    (h : t.find? p = none) : Holds p t [] :=
  .inr ⟨FileTree.find?_of_makeParents ht hup h, rfl⟩

theorem missing_of_made {append : Bool} {place : Location}
    (h : FileTree.Opened p append (t.put place (.file {})) place)
    (hnone : t.entryAt? place = none) : t.find? p = none := by
  have hput : (t.put place (.file {})).entryAt? place = some (.file {}) := by
    rw [FileTree.entryAt?_put t h.ne_nil, if_pos rfl]
  have hleads := h.locate _ _ rfl (FileTree.keeps_refl _) hput rfl
  exact (FileTree.extends_put h.ne_nil hnone _).find?_eq_none hleads hnone

theorem file_of_openAt {append : Bool} {place : Location} (hh : Holds p t held)
    (h : (openAt p append).run.run t = (.ok place, t')) :
    FileTree.Opened p append t' place ∧ ∃ f, t'.entryAt? place = some (.file f) ∧
      f.content = .data (if append then held else []) := by
  unfold openAt at h
  obtain ⟨u, t₁, hmade, hopen⟩ := Change.run_bind_eq_ok h
  have hopened := FileTree.opened_of_openFile hopen
  refine ⟨hopened, ?_⟩
  rw [Holds, hmade] at hh
  obtain ⟨-, -, hcases⟩ := FileTree.openFile_cases hopen
  rcases hcases with ⟨hnone, rfl⟩ | ⟨f, he, ht'⟩ | ⟨e, he, hfile, rfl⟩
  · have hmissing := missing_of_made hopened hnone
    rcases hh with ⟨f, hf, -⟩ | ⟨-, rfl⟩
    · cases hmissing.symm.trans hf
    · have hmade := FileTree.rewritten_put (f := {}) hopened.ne_nil hnone
      exact ⟨{}, hmade.file, by rw [ite_self]⟩
  · cases append with
    | true =>
      obtain rfl : t' = t₁ := ht'
      have hf := hopened.find? rfl (FileTree.keeps_refl _) he rfl
      rcases hh with ⟨g, hg, hc⟩ | ⟨hmissing, -⟩
      · cases hf.symm.trans hg
        exact ⟨f, he, hc⟩
      · cases hmissing.symm.trans hf
    | false =>
      obtain rfl : t' = t₁.rewrite place { f with content := .data [] } := ht'
      exact ⟨_, (FileTree.rewritten_rewrite he).file, rfl⟩
  · -- a device, to which the path would have led before
    obtain ⟨e', he', hway⟩ := hopened.entry
    have hf := hopened.find? rfl (FileTree.keeps_refl _) he' hway
    rcases hh with ⟨g, hg, -⟩ | ⟨hmissing, -⟩
    · cases hf.symm.trans hg
      cases he.symm.trans he'
      exact absurd rfl (hfile g)
    · cases hmissing.symm.trans hf

theorem sink_of_file {place : Location} {f : File} (hf : t.entryAt? place = some (.file f)) :
    sink t place = {} := by
  unfold sink
  rw [hf]

/-- A session leaves its blocks in the log behind what the log held before, if it adds to the
log, or else its blocks alone. -/
theorem Session.Runs.exists_file (h : s.Runs p t t') (hh : Holds p t held) :
    ∃ f, t'.find? p = some (.file f) ∧
      f.content = .data ((if s.append then held else []) ++ s.bytes) := by
  obtain ⟨hopen, hr, hb, ha⟩ := h
  rename_i t₁ place calls c
  obtain ⟨hopened, f, hf, hc⟩ := file_of_openAt hh hopen
  rw [sink_of_file hf] at hr
  obtain ⟨hbytes, -⟩ := hr.kept.bytes_eq rfl
  obtain ⟨-, -, hw, hq, -⟩ := hr.kept.ended _ ha
  have hwritten : c.sink.writer.written.toList = s.bytes := by
    rw [hw, hq] at hbytes
    rw [Session.bytes, ← hb]
    simpa [Channel.bytes] using hbytes
  rcases Run.find?_settle hopened c.sink with ⟨v, hv, -⟩ | ⟨g, hg, hfind⟩
  · cases hf.symm.trans hv
  · cases hf.symm.trans hg
    exact ⟨_, hfind, by rw [hc, hwritten, Content.append_data]⟩

theorem Session.exists_runs {place : Location} {t₁ : FileTree} (hh : Holds p t held)
    (h : (openAt p s.append).run.run t = (.ok place, t₁)) : ∃ t', s.Runs p t t' := by
  obtain ⟨-, f, hf, -⟩ := file_of_openAt hh h
  obtain ⟨c, r, hr, ha⟩ := Channel.exists_runs (sink t₁ place).writer s.blocks
  have hsink := sink_of_file hf
  have hok : r = .ok () := hr.kept.eq_ok_of_answer (by rw [hsink]) (by rw [hsink]) ha
  rw [hok] at ha
  exact ⟨_, .intro h hr (by simp [Channel.blocks, Function.comp_def]) ha⟩

theorem openAt_rooted {append : Bool} {place : Location} (ht : t.IsRooted)
    (h : (openAt p append).run.run t = (.ok place, t')) : t'.IsRooted := by
  unfold openAt at h
  obtain ⟨u, t₁, hmade, hopen⟩ := Change.run_bind_eq_ok h
  exact FileTree.openFile_rooted ((FileTree.makeParents_made p _ _ _ hmade).rooted ht) hopen

theorem settle_rooted (ht : t.IsRooted) (place : Location) (k : Sink) :
    (settle t place k).IsRooted := by
  unfold settle
  split
  · rename_i f hf
    exact (FileTree.rewritten_rewrite hf).rooted ht (ht _ _ hf)
  · exact ht

theorem Session.Runs.rooted (h : s.Runs p t t') (ht : t.IsRooted) : t'.IsRooted := by
  obtain ⟨hopen, -, -, -⟩ := h
  exact settle_rooted (openAt_rooted ht hopen) _ _

theorem exists_openAt (append : Bool) {f : File} (ht : t.IsRooted)
    (hf : t.find? p = some (.file f)) :
    ∃ place t₁, (openAt p append).run.run t = (.ok place, t₁) := by
  obtain ⟨l, -, hopen⟩ := FileTree.openFile_of_file append ht hf
  have hsame : (openAt p append).run.run t = (FileTree.openFile p append).run.run t := by
    unfold openAt
    rw [Change.run_bind, FileTree.makeParents_of_find? hf]
  exact ⟨l, _, hsame.trans hopen⟩

/-- Sessions that are carried out one after another on the log at a path, from one tree to
another. -/
inductive Sessions (p : Path) : FileTree → List Session → FileTree → Prop
  | nil {t : FileTree} : Sessions p t [] t
  | cons {t t' t'' : FileTree} {s : Session} {ss : List Session} (h : s.Runs p t t')
    (hs : Sessions p t' ss t'') : Sessions p t (s :: ss) t''

/-- What a log holds after sessions: the blocks of all of them behind what it held before if each
of them has added to the log, and otherwise those of the last session that did not and of all
behind it. -/
def Left (held : List UInt8) (ss : List Session) (left : List UInt8) : Prop :=
  ((∀ s ∈ ss, s.append = true) ∧ left = held ++ ss.flatMap Session.bytes) ∨
  ∃ before s after, ss = before ++ s :: after ∧ s.append = false ∧
    (∀ x ∈ after, x.append = true) ∧ left = (s :: after).flatMap Session.bytes

theorem Left.cons {left : List UInt8}
    (h : Left ((if s.append then held else []) ++ s.bytes) ss left) : Left held (s :: ss) left := by
  rcases h with ⟨hall, rfl⟩ | ⟨before, x, after, rfl, hx, hafter, rfl⟩
  · cases happend : s.append with
    | true =>
      left
      refine ⟨List.forall_mem_cons.2 ⟨happend, hall⟩, ?_⟩
      rw [if_pos rfl, List.flatMap_cons, List.append_assoc]
    | false =>
      right
      refine ⟨[], s, ss, rfl, happend, hall, ?_⟩
      simp
  · exact .inr ⟨s :: before, x, after, rfl, hx, hafter, rfl⟩

theorem Sessions.exists_left (h : Sessions p t ss t') (hh : Holds p t held) :
    ∃ left, Left held ss left ∧
      (ss = [] ∧ t' = t ∨ ∃ f, t'.find? p = some (.file f) ∧ f.content = .data left) := by
  induction h generalizing held with
  | nil => exact ⟨held, .inl ⟨nofun, by simp⟩, .inl ⟨rfl, rfl⟩⟩
  | cons h _ ih =>
    obtain ⟨f, hf, hc⟩ := h.exists_file hh
    obtain ⟨left, hleft, ⟨rfl, rfl⟩ | hfile⟩ := ih (holds_of_file hf hc)
    · rcases hleft with ⟨-, rfl⟩ | ⟨before, x, after, hnil, -⟩
      · refine ⟨_, Left.cons (.inl ⟨nofun, rfl⟩), .inr ⟨f, hf, ?_⟩⟩
        rw [hc, List.flatMap_nil, List.append_nil]
      · simp at hnil
    · exact ⟨left, hleft.cons, .inr hfile⟩

theorem exists_sessions (ss : List Session) {f : File} (ht : t.IsRooted)
    (hf : t.find? p = some (.file f)) (hc : f.content = .data held) :
    ∃ t', Sessions p t ss t' := by
  induction ss generalizing t held f with
  | nil => exact ⟨t, .nil⟩
  | cons s ss ih =>
    have hh := holds_of_file hf hc
    obtain ⟨place, t₁, hopen⟩ := exists_openAt s.append ht hf
    obtain ⟨t₂, hruns⟩ := Session.exists_runs hh hopen
    obtain ⟨g, hg, hcontent⟩ := hruns.exists_file hh
    obtain ⟨t', hs⟩ := ih (hruns.rooted ht) hg hcontent
    exact ⟨t', .cons hruns hs⟩

theorem exists_sessions_of_openAt (ss : List Session) {place : Location} {t₁ : FileTree}
    (ht : t.IsRooted) (hh : Holds p t held)
    (h : (openAt p s.append).run.run t = (.ok place, t₁)) : ∃ t', Sessions p t (s :: ss) t' := by
  obtain ⟨t₂, hruns⟩ := Session.exists_runs hh h
  obtain ⟨g, hg, hcontent⟩ := hruns.exists_file hh
  obtain ⟨t', hs⟩ := exists_sessions ss (hruns.rooted ht) hg hcontent
  exact ⟨t', .cons hruns hs⟩

theorem sessions_iff :
    Sessions p t ss t' ↔ ss.foldlM (fun t s => Session.carryOut? p s t) t = some t' := by
  induction ss generalizing t with
  | nil =>
    constructor
    · rintro ⟨⟩
      rfl
    · rintro ⟨⟩
      exact .nil
  | cons s ss ih =>
    rw [List.foldlM_cons, Option.bind_eq_bind, Option.bind_eq_some_iff]
    constructor
    · intro h
      cases h with
      | cons h hs => exact ⟨_, Session.runs_iff.1 h, ih.1 hs⟩
    · rintro ⟨t₁, h, hs⟩
      exact .cons (Session.runs_iff.2 h) (ih.2 hs)

end

/-- What stands in a log after any sessions on it, each of them shut down with nothing failed. A
file that stands there first holds its bytes, and a log that is missing holds none, be it with
directories that have to be made for it. Every session that adds to the log leaves its blocks
behind what the log held, and every other one leaves its blocks alone, whoever sends them and in
whatever pieces they are written through the open log. Where every entry has its directory, any
sessions can be carried out on a log that stands, and on one that the first of them can open. -/
theorem left_by_sessions (p : Path) :
    (∀ (t : FileTree) (f : File) (held : List UInt8), t.find? p = some (.file f) →
      f.content = .data held → Holds p t held) ∧
    (∀ t : FileTree, t.IsRooted → [Path.dot, Path.dot] ∉ p.pieces → t.find? p = none →
      Holds p t []) ∧
    (∀ (t t' : FileTree) (ss : List Session) (held : List UInt8), Holds p t held →
      Sessions p t ss t' → ∃ left, Left held ss left ∧
        (ss = [] ∧ t' = t ∨ ∃ f, t'.find? p = some (.file f) ∧ f.content = .data left)) ∧
    (∀ (t : FileTree) (f : File) (held : List UInt8) (ss : List Session), t.IsRooted →
      t.find? p = some (.file f) → f.content = .data held → ∃ t', Sessions p t ss t') ∧
    (∀ (t t₁ : FileTree) (held : List UInt8) (s : Session) (ss : List Session) (place : Location),
      t.IsRooted → Holds p t held → (openAt p s.append).run.run t = (.ok place, t₁) →
        ∃ t', Sessions p t (s :: ss) t') ∧
    (∀ (s : Session) (t t' : FileTree), s.Runs p t t' ↔ s.carryOut? p t = some t') ∧
    ∀ (append : Bool) (t t' : FileTree) (place : Location) (f : File)
      (chunks : List (List UInt8)), (openAt p append).run.run t = (.ok place, t') →
        t'.entryAt? place = some (.file f) →
          (chunks.foldl Descriptor.write (⟨append, 0⟩, f.content.bytes)).2 =
            (f.content.append chunks.flatten).bytes := by
  refine ⟨?_, ?_, ?_, ?_, ?_, fun _ _ _ => Session.runs_iff, ?_⟩
  · intro t f held hf hc
    exact holds_of_file hf hc
  · intro t ht hup h
    exact holds_of_missing ht hup h
  · intro t t' ss held hh h
    exact h.exists_left hh
  · intro t f held ss ht hf hc
    exact exists_sessions ss ht hf hc
  · intro t t₁ held s ss place ht hh h
    exact exists_sessions_of_openAt ss ht hh h
  · intro append t t' place f chunks hopen hf
    unfold openAt at hopen
    obtain ⟨-, t₁, -, hfile⟩ := Change.run_bind_eq_ok hopen
    exact bytes_append_of_opened (FileTree.opened_of_openFile hfile) hf chunks

set_option maxRecDepth 10000 in
/-- A log below a missing directory is begun, added to, and begun anew. -/
theorem left_by_sessions_of_fresh_log :
    ∃ t', Sessions (.ofString "logs/log") {}
        [⟨false, [⟨["first run"]⟩]⟩, ⟨true, [⟨["second run"]⟩]⟩, ⟨false, [⟨["fresh"]⟩]⟩] t' ∧
      ∃ left, Left []
          [⟨false, [⟨["first run"]⟩]⟩, ⟨true, [⟨["second run"]⟩]⟩, ⟨false, [⟨["fresh"]⟩]⟩] left ∧
        left = Text.Utf8.encode "fresh\n" := by
  have hrun : ([⟨false, [⟨["first run"]⟩]⟩, ⟨true, [⟨["second run"]⟩]⟩,
      ⟨false, [⟨["fresh"]⟩]⟩].foldlM
        (fun t s => Session.carryOut? (.ofString "logs/log") s t) {}).bind
          (·.find? (.ofString "logs/log")) =
      some (.file { content := .data (Text.Utf8.encode "fresh\n") }) := by cbv
  obtain ⟨t', hsessions, hfind⟩ := Option.bind_eq_some_iff.1 hrun
  have hs := sessions_iff.2 hsessions
  obtain ⟨-, hmissing, hleft, -⟩ := left_by_sessions (.ofString "logs/log")
  obtain ⟨left, hl, ⟨hnil, -⟩ | ⟨f, hf, hc⟩⟩ :=
    hleft {} t' _ [] (hmissing {} (by decide) (by decide) (by cbv)) hs
  · cases hnil
  · cases hfind.symm.trans hf
    exact ⟨t', hs, left, hl, (Content.data.inj hc).symm⟩

end Log

end MemberIndex
