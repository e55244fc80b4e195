import Mathlib.Data.List.Basic
import MemberIndex.Proofs.FileTree.Writing
import MemberIndex.Proofs.Text.Lines
import MemberIndex.Report.Refusal

/-! # Reports that were written

A report is written at its draft's path and moved. Where the draft is not led astray, and
the report's own entry does not lead to its directory, the report's path names the whole
text afterwards.
-/

namespace MemberIndex.Report

open FileTree

/-- A path that a report can be written at. Neither a link nor a device stands where its
draft is written, and its directory is found without the entry that the report replaces. -/
structure Unobstructed (t : FileTree) (p : Path) : Prop where
  draft : ∀ s, t.StepsTo (draftPath p) s → t.IsPlainAt s.place
  directory : ∀ d, t.StepsTo p d → (t.erase d.place).StepsTo p d

variable {p : Path} {r : Records} {t t' : FileTree}

theorem unobstructed_iff : Unobstructed t p ↔
    ((t.lastStep? (draftPath p)).all fun s => decide (t.IsPlainAt s.place)) = true ∧
      ((t.lastStep? p).all fun d => (t.erase d.place).lastStep? p = some d) = true := by
  simp only [Option.all_eq_true, decide_eq_true_eq]
  constructor
  · rintro ⟨hdraft, hdirectory⟩
    constructor
    · intro s hs
      exact hdraft s (stepsTo_iff.2 hs)
    · intro d hd
      exact stepsTo_iff.1 (hdirectory d (stepsTo_iff.2 hd))
  · rintro ⟨hdraft, hdirectory⟩
    constructor
    · intro s hs
      exact hdraft s (stepsTo_iff.1 hs)
    · intro d hd
      exact stepsTo_iff.2 (hdirectory d (stepsTo_iff.1 hd))

instance : Decidable (Unobstructed t p) := decidable_of_iff' _ unobstructed_iff

theorem save_of_written {t₁ t₂ : FileTree} (hparents : (makeParents p).run.run t = (.ok (), t₁))
    (hwrite : (writeFile (draftPath p) (Text.Utf8.encode (fileText r))).run.run t₁ = (.ok (), t₂)) :
    (∃ t', (move (draftPath p) p).run.run t₂ = (.ok (), t') ∧
      (save p r).run.run t = (.ok (), t')) ∨
    ∃ e y t', (remove (draftPath p)).run.run t₂ = (y, t') ∧
      (save p r).run.run t = (.error e, t') := by
  have hsave : (save p r).run.run t = (tryCatch (move (draftPath p) p) fun e => do
      tryCatch (remove (draftPath p)) fun _ => pure ()
      throw e : Change Unit).run.run t₂ := by
    unfold save
    rw [Change.run_bind, hparents]
    change (writeFile _ _ >>= _).run.run t₁ = _
    rw [Change.run_bind, hwrite]
  rw [hsave, Change.run_tryCatch]
  cases hmove : (move (draftPath p) p).run.run t₂ with
  | mk x t₃ =>
    cases x with
    | ok _ => exact .inl ⟨t₃, rfl, rfl⟩
    | error e =>
      cases eq_of_move_eq_error hmove
      cases hremove : (remove (draftPath p)).run.run t₂ with
      | mk y t' =>
        refine .inr ⟨e, y, t', rfl, ?_⟩
        change (tryCatch (remove _) _ >>= _).run.run t₂ = _
        rw [Change.run_bind, Change.run_tryCatch, hremove]
        cases y <;> rfl

/-- What is made of a report is one of its ends. -/
theorem save_cases {x : Except IoError Unit} (h : (save p r).run.run t = (x, t')) :
    (∃ e, x = .error e ∧ (makeParents p).run.run t = (.error e, t')) ∨
      ∃ t₁ fate, (makeParents p).run.run t = (.ok (), t₁) ∧
        Ends p r t₁ fate (x.mapError fun e => ⟨.report, p, e⟩) t' := by
  have hsave := h
  unfold save at h
  rcases Change.run_bind_cases h with ⟨_, t₁, hparents, h₁⟩ | ⟨e, he, hparents⟩
  · right
    rcases Change.run_bind_cases h₁ with ⟨_, t₂, hwrite, -⟩ | ⟨e, rfl, hwrite⟩
    · rcases save_of_written hparents hwrite with ⟨t₃, hmove, hsaved⟩ | ⟨e, y, t₃, hremove, hsaved⟩
      · cases hsave.symm.trans hsaved
        exact ⟨t₁, .moved, hparents, .moved hwrite hmove⟩
      · cases hsave.symm.trans hsaved
        obtain ⟨e', rfl, rfl⟩ | ⟨s, -, rfl, rfl⟩ := remove_cases hremove
        · exact ⟨t₁, .left, hparents, .left e hwrite⟩
        · exact ⟨t₁, .dropped, hparents, .dropped e hwrite hremove⟩
    · rcases writeFile_cases hwrite with rfl | ⟨hok, -⟩
      · exact ⟨t', .unwritten, hparents, .unwritten e⟩
      · cases hok
  · exact .inl ⟨e, he, hparents⟩

theorem write_eq {x : Except IoError Unit} (h : (save p r).run.run t = (x, t')) :
    write p r t = (x.mapError fun e => ⟨.report, p, e⟩, t') := by
  rw [write, h]

theorem pieces_draftPath {before : List (List UInt8)} {last : List UInt8}
    (h : p.pieces = before ++ [last]) :
    (draftPath p).pieces = before ++ [last ++ Text.Utf8.encode ".tmp"] :=
  Text.fields_append (by decide) h

/-- A tree after a file was written at one place and moved to another one. It has the ways of the
tree before without the entry that is replaced. -/
structure Moved (t t' : FileTree) (l m : Location) (f : File) : Prop where
  current : t'.current = t.current
  file : t'.entryAt? m = some (.file f)
  draft : t'.entryAt? l = if t.isSame l m then some (.file f) else none
  keeps : Keeps (t.erase m) t'
  keeps_symm : Keeps t' (t.erase m)

section Moved

variable {l m k : Location} {f : File} {t₁ : FileTree} {e : Entry}

theorem isWay_erase_iff (h : Rewritten t t₁ l f) (hm : m ≠ []) (he : isWay e = true) :
    (t.erase m).entryAt? k = some e ↔ m ≠ k ∧ t₁.entryAt? k = some e := by
  rw [entryAt?_erase t hm, h.isWay_iff he]
  simp

theorem ne_of_isWay (hl : t.entryAt? l = some (.file f)) (he : isWay e = true)
    (hk : t.entryAt? k = some e) : l ≠ k := by
  rintro rfl
  cases hl.symm.trans hk
  cases he

theorem moved_of_isSame (h : Rewritten t t₁ l f) (hm : m ≠ []) (hsame : t.isSame l m = true) :
    Moved t t₁ l m f := by
  have hfile : t₁.entryAt? m = some (.file f) := by rw [h.entry, if_pos hsame]
  refine ⟨h.current, hfile, by rw [h.file, if_pos hsame], ?_, ?_⟩
  · intro k e he hk
    exact ((isWay_erase_iff h hm he).1 hk).2
  · intro k e he hk
    exact (isWay_erase_iff h hm he).2 ⟨ne_of_isWay hfile he hk, hk⟩

theorem moved_of_carry (h : Rewritten t t₁ l f) (hl : l ≠ []) (hm : m ≠ [])
    (hsame : t.isSame l m = false) : Moved t (t₁.carry l m hm) l m f := by
  have hne : m ≠ l := by
    rintro rfl
    cases hsame.symm.trans (isSame_iff.2 (.inl rfl))
  have hcarry (k : Location) : (t₁.carry l m hm).entryAt? k =
      if m = k then some (.file f) else if l = k then none else t₁.entryAt? k := by
    rw [entryAt?_carry hl hm, h.file]
  have hfile : (t₁.carry l m hm).entryAt? m = some (.file f) := by rw [hcarry, if_pos rfl]
  refine ⟨h.current, hfile, ?_, ?_, ?_⟩
  · rw [hcarry, if_neg hne, if_pos rfl, hsame, if_neg Bool.false_ne_true]
  · intro k e he hk
    obtain ⟨hmk, hk⟩ := (isWay_erase_iff h hm he).1 hk
    rw [hcarry, if_neg hmk, if_neg (ne_of_isWay h.file he hk), hk]
  · intro k e he hk
    have hmk := ne_of_isWay hfile he hk
    rw [hcarry, if_neg hmk] at hk
    split at hk
    · cases hk
    · exact (isWay_erase_iff h hm he).2 ⟨hmk, hk⟩

end Moved

/-- A report that was moved has left its draft's place for its own, and this is the net effect. -/
theorem moved_of_move {bytes : List UInt8} {t₁ : FileTree}
    (hwrite : (writeFile (draftPath p) bytes).run.run t = (.ok (), t₁))
    (hmove : (move (draftPath p) p).run.run t₁ = (.ok (), t'))
    (hplain : ∀ s, t.StepsTo (draftPath p) s → t.IsPlainAt s.place) :
    ∃ s d f, t.StepsTo (draftPath p) s ∧ t.StepsTo p d ∧ d.slashed = false ∧ IsName d.name ∧
      f.content = .data bytes ∧ Moved t t' s.place d.place f := by
  obtain ⟨s, f, hs, -, hcontent, hrewritten⟩ := writeFile_run_eq_ok hwrite hplain
  obtain ⟨s', d, e, hs', hd, -, hnamed, hshort, -, hslashed, rfl⟩ := move_run_eq_ok hmove
  obtain rfl : s = s' := (hrewritten.stepsTo_iff.2 hs).unique hs'
  refine ⟨s, d, f, hs, hrewritten.stepsTo_iff.1 hd, hslashed,
    isName_of_lastStep hd.step hnamed hshort, hcontent, ?_⟩
  rw [hrewritten.isSame]
  cases hsame : t.isSame s.place d.place with
  | true => exact moved_of_isSame hrewritten d.place_ne_nil hsame
  | false => exact moved_of_carry hrewritten s.place_ne_nil d.place_ne_nil hsame

theorem find?_of_save (h : (save p r).run.run t = (.ok (), t'))
    (hfree : ∀ t₁, (makeParents p).run.run t = (.ok (), t₁) → Unobstructed t₁ p) :
    ∃ f, t'.find? p = some (.file f) ∧ f.content = .data (Text.Utf8.encode (fileText r)) := by
  rcases save_cases h with ⟨e, he, -⟩ | ⟨t₁, fate, hparents, hends⟩
  · cases he
  · obtain ⟨hplain, hdirectory⟩ := hfree t₁ hparents
    cases hends with
    | moved hwrite hmove =>
      obtain ⟨s, d, f, -, hd, hslashed, hn, hcontent, hmoved⟩ := moved_of_move hwrite hmove hplain
      have hd' := (hdirectory d hd).keep hmoved.keeps hmoved.current
      have hlocated := hd'.locate hn hmoved.file (by simp) (by simp [hslashed])
      exact ⟨f, find?_eq_some_iff.2 ⟨_, hlocated, hmoved.file⟩, hcontent⟩

end MemberIndex.Report
