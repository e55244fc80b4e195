import MemberIndex.Proofs.FileTree.Standing
import MemberIndex.Proofs.Report.Frame

/-! # Reports that replace or leave an entry

A report that is written leaves no draft, and stands whole at its path unless its directory is
found through the entry that it replaces. A report that cannot be written leaves the entry at
its path as it was, and no draft that was written either.
-/

namespace MemberIndex

namespace Path

theorem up_mem_components {p : Path} (h : [dot, dot] ∈ p.pieces) : .up ∈ p.components := by
  rw [components_eq]
  exact List.mem_append_right _ (List.mem_filterMap.2 ⟨_, h, rfl⟩)

end Path

namespace Report

open FileTree
open MemberIndex.Path (dot isIdle)

variable {p q : Path} {r : Records} {t t' : FileTree} {bytes : List UInt8}

section Draft

variable {before : List (List UInt8)} {last : List UInt8}

theorem draftName_ne (last : List UInt8) {n : List UInt8} (hn : n.length < 4) :
    last ++ Text.Utf8.encode ".tmp" ≠ n := by
  rintro rfl
  have hlength : (Text.Utf8.encode ".tmp").length = 4 := by decide
  rw [List.length_append, hlength] at hn
  omega

theorem isIdle_draftName (last : List UInt8) :
    isIdle (last ++ Text.Utf8.encode ".tmp") = false :=
  decide_eq_false (not_or.2 ⟨draftName_ne last (by decide), draftName_ne last (by decide)⟩)

theorem goesOn_draftPath (h : q.GoesOn p) : q.GoesOn (draftPath p) := by
  obtain ⟨more, last, hp, -⟩ := h.exists_concat
  refine ⟨more ++ [last ++ Text.Utf8.encode ".tmp"], ?_, _, List.mem_append_right _ (by simp),
    isIdle_draftName last⟩
  rw [pieces_draftPath hp, List.append_assoc]

theorem up_notMem_draftPath (h : [dot, dot] ∉ p.pieces) : [dot, dot] ∉ (draftPath p).pieces := by
  obtain ⟨before, last, hp⟩ := p.exists_pieces_concat
  rw [pieces_draftPath hp]
  simp only [hp, List.mem_append, List.mem_singleton, not_or] at h ⊢
  exact ⟨h.1, (draftName_ne last (by decide)).symm⟩

theorem draft_step {s : LastStep} (hp : p.pieces = before ++ [last])
    (hs : t.StepsTo (draftPath p) s) :
    s.name = last ++ Text.Utf8.encode ".tmp" ∧ s.slashed = false ∧ s.isNamed = true ∧
      Leads t maxLinks (t.origin (draftPath p)) before ⟨s.directory, s.links⟩ ∧
      t.isDirectoryAt s.directory = true := by
  obtain ⟨before', hsplit, hleads, hd⟩ := lastStep_eq_some hs.step
  rw [pieces_draftPath hp, splitLast?_append (draftName_ne last (by decide))] at hsplit
  simp only [Option.some.injEq, Prod.mk.injEq] at hsplit
  obtain ⟨rfl, hname, hslashed⟩ := hsplit
  refine ⟨hname.symm, hslashed.symm, ?_, hleads, hd⟩
  simp only [LastStep.isNamed, ← hname, Bool.and_eq_true, decide_eq_true_eq]
  exact ⟨draftName_ne last (by decide), draftName_ne last (by decide)⟩

theorem draft_place_ne {s : LastStep} (hp : p.pieces = before ++ [last])
    (hs : t.StepsTo (draftPath p) s) (place : Location) : place ++ [last] ≠ s.place := by
  intro h
  obtain ⟨hdraft, -⟩ := draft_step hp hs
  have hname : last = s.name := List.head_eq_of_cons_eq (List.append_inj_right' h rfl)
  have hnil : Text.Utf8.encode ".tmp" = [] := List.self_eq_append_right.1 (hname.trans hdraft)
  exact absurd hnil (by decide)

end Draft

section Ends

theorem isPlainAt_of_writeFile (h : (writeFile q bytes).run.run t = (.ok (), t'))
    (hq : ∀ e, t.entryOf? q = some e → e = .directory ∨ ∃ f, e = .file f) {s : LastStep}
    (hs : t.StepsTo q s) : IsName s.name ∧ t.IsPlainAt s.place := by
  unfold writeFile at h
  obtain ⟨l, t₁, hopen, -⟩ := Change.run_bind_eq_ok h
  obtain ⟨hvalid, htarget, -⟩ := openFile_cases hopen
  obtain ⟨s', x, ha⟩ : ∃ s' x, t.aim maxLinks (t.origin q) q.pieces = .ok (s', x) := by
    rcases target_cases htarget with ⟨s', ha, -⟩ | ⟨s', _, _, _, ha, -⟩
    · exact ⟨s', _, ha⟩
    · exact ⟨s', _, ha⟩
  obtain ⟨hs', hn, hslashed, -⟩ := aim_eq_ok ha
  obtain rfl : s = s' := hs.unique ⟨hvalid, hs'⟩
  refine ⟨hn, ?_⟩
  rw [hs.entryOf? hslashed hn] at hq
  constructor
  · intro target he
    simpa using hq _ he
  · intro d he
    simpa using hq _ he

/-- The draft's path and the report's lead to two names of one file. -/
def Shares (t : FileTree) (p : Path) : Prop :=
  ∃ l m n, t.locate false (draftPath p) = .ok l ∧ t.locate false p = .ok m ∧
    t.node? l = some n ∧ t.node? m = some n

theorem exists_rewritten (h : (writeFile (draftPath p) bytes).run.run t = (.ok (), t'))
    (hdraft : ∀ e, t.entryOf? (draftPath p) = some e → e = .directory ∨ ∃ f, e = .file f) :
    ∃ s f, t.StepsTo (draftPath p) s ∧ s.slashed = false ∧ IsName s.name ∧
      f.content = .data bytes ∧ Rewritten t t' s.place f := by
  have hplain (s : LastStep) (hs : t.StepsTo (draftPath p) s) := isPlainAt_of_writeFile h hdraft hs
  obtain ⟨s, f, hs, hslashed, hcontent, hwritten⟩ :=
    writeFile_run_eq_ok h fun s hs => (hplain s hs).2
  exact ⟨s, f, hs, hslashed, (hplain s hs).1, hcontent, hwritten⟩

/-- Two last steps that lead to one file, of which the report's and the draft's never have the
same name, lead to two names of it. -/
theorem shares_of_isSame {s d : LastStep} (hs : t.StepsTo (draftPath p) s)
    (hs' : s.slashed = false) (hsn : IsName s.name) (hd : t.StepsTo p d) (hd' : d.slashed = false)
    (hdn : IsName d.name) (hsame : t.isSame s.place d.place = true) : Shares t p := by
  obtain ⟨before, hp, -⟩ := hd.exists_pieces hd'
  obtain heq | ⟨n, hsnode, hdnode⟩ := isSame_iff.1 hsame
  · exact absurd heq.symm (draft_place_ne hp hs d.directory)
  · obtain ⟨f, hsf, hdf⟩ := entryAt?_of_node? hsnode hdnode
    exact ⟨_, _, n, hs.locate_false hs' hsn hsf, hd.locate_false hd' hdn hdf, hsnode, hdnode⟩

theorem Shares.exists_file (h : Shares t p) :
    ∃ f, t.entryOf? (draftPath p) = some (.file f) ∧ t.entryOf? p = some (.file f) := by
  obtain ⟨l, m, n, hl, hm, hln, hmn⟩ := h
  obtain ⟨f, hlf, hmf⟩ := entryAt?_of_node? hln hmn
  exact ⟨f, by rwa [entryOf?, hl], by rwa [entryOf?, hm]⟩

theorem entryOf?_of_rewritten {s : LastStep} {f : File} (hup : [dot, dot] ∉ p.pieces)
    (hs : t.StepsTo (draftPath p) s) (hslashed : s.slashed = false) (hn : IsName s.name)
    (h : Rewritten t t' s.place f) (hshares : ¬ Shares t p) :
    t'.entryOf? p = t.entryOf? p ∧ (t'.erase s.place).entryOf? p = t.entryOf? p := by
  have hframe (d : LastStep) (hd : t.StepsTo p d) (hd' : d.slashed = false)
      (hdn : IsName d.name) : t'.entryAt? d.place = t.entryAt? d.place := by
    have hother : ¬ t.isSame s.place d.place = true :=
      fun hsame => hshares (shares_of_isSame hs hslashed hn hd hd' hdn hsame)
    rw [h.entry, if_neg hother]
  refine ⟨entryOf?_congr hup h.keeps h.keeps_symm h.current hframe, ?_⟩
  refine entryOf?_congr hup (h.keeps.trans (keeps_erase_of_file h.file)) ?_ h.current ?_
  · exact (keeps_erase s.place_ne_nil).trans h.keeps_symm
  · intro d hd hd' hdn
    obtain ⟨before, hp, -⟩ := hd.exists_pieces hd'
    have hne : s.place ≠ d.place := fun h => draft_place_ne hp hs d.directory h.symm
    rw [entryAt?_erase _ s.place_ne_nil, if_neg hne]
    exact hframe d hd hd' hdn

/-- A report that is not written leaves the entry at its path as it was, unless that is the file
of the draft too. A draft that was removed is gone. -/
theorem Ends.entryOf?_of_error {fate : Fate} {e : RunError} (h : Ends p r t fate (.error e) t')
    (hup : [dot, dot] ∉ p.pieces)
    (hdraft : ∀ e, t.entryOf? (draftPath p) = some e → e = .directory ∨ ∃ f, e = .file f) :
    (t'.entryOf? p = t.entryOf? p ∨ Shares t p) ∧
      (fate = .dropped → t'.entryOf? (draftPath p) = none) := by
  have hkept {bytes : List UInt8} {t₁ : FileTree}
      (hwrite : (writeFile (draftPath p) bytes).run.run t = (.ok (), t₁)) :
      t₁.entryOf? p = t.entryOf? p ∨ Shares t p := by
    obtain ⟨s, f, hs, hslashed, hn, -, hwritten⟩ := exists_rewritten hwrite hdraft
    refine or_iff_not_imp_right.2 fun hshares => ?_
    exact (entryOf?_of_rewritten hup hs hslashed hn hwritten hshares).1
  cases h with
  | unwritten => exact ⟨.inl rfl, nofun⟩
  | broken n e _ hwrite => exact ⟨hkept hwrite, nofun⟩
  | left e hwrite => exact ⟨hkept hwrite, nofun⟩
  | dropped e hwrite hremove =>
    obtain ⟨s, f, hs, hslashed, hn, -, hwritten⟩ := exists_rewritten hwrite hdraft
    obtain ⟨_, he, -⟩ | ⟨s', hs', -, rfl⟩ := remove_cases hremove
    · cases he
    · obtain rfl : s' = s := (hwritten.stepsTo_iff.1 hs').unique hs
      refine ⟨or_iff_not_imp_right.2 fun hshares => ?_, fun _ => ?_⟩
      · exact (entryOf?_of_rewritten hup hs hslashed hn hwritten hshares).2
      · have hs'' :=
          hs.keep (hwritten.keeps.trans (keeps_erase_of_file hwritten.file)) hwritten.current
        rw [hs''.entryOf? hslashed hn, entryAt?_erase _ s'.place_ne_nil, if_pos rfl]

/-- A report that was moved leaves no draft, unless that was a name of its own file, and its path
holds it exactly if its directory is found without the entry that it replaced. -/
theorem Ends.entryOf?_of_ok {fate : Fate} (h : Ends p r t fate (.ok ()) t')
    (hdraft : ∀ e, t.entryOf? (draftPath p) = some e → e = .directory ∨ ∃ f, e = .file f) :
    (t'.entryOf? (draftPath p) = none ∨
      Shares t p ∧ t'.entryOf? (draftPath p) = t'.entryOf? p) ∧
    ∃ d, t.StepsTo p d ∧ t.entryOf? p = t.entryAt? d.place ∧
      ((∃ f, t'.entryOf? p = some (.file f) ∧
          f.content = .data (Text.Utf8.encode (fileText r))) ↔
        (t.erase d.place).StepsTo p d) := by
  cases h with
  | moved hwrite hmove =>
    have hplain (s : LastStep) (hs : t.StepsTo (draftPath p) s) :=
      isPlainAt_of_writeFile hwrite hdraft hs
    obtain ⟨s, d, f, hs, hd, hslashed, hn, hcontent, hmoved⟩ :=
      moved_of_move hwrite hmove fun s hs => (hplain s hs).2
    obtain ⟨before, hp, -⟩ := hd.exists_pieces hslashed
    have hsn := (hplain s hs).1
    obtain ⟨-, hslashed', -⟩ := draft_step hp hs
    -- what a path steps to in the new tree, it steps to in the old one
    have hback {q : Path} {x : LastStep} (hx : t'.StepsTo q x) : (t.erase d.place).StepsTo q x :=
      hx.keep hmoved.keeps_symm hmoved.current.symm
    have hforth {q : Path} {x : LastStep} (hx : (t.erase d.place).StepsTo q x) : t.StepsTo q x :=
      hx.keep (keeps_erase d.place_ne_nil) rfl
    refine ⟨?_, d, hd, hd.entryOf? hslashed hn, ?_, ?_⟩
    · cases hsame : t.isSame s.place d.place with
      | false =>
        left
        have hgone := hmoved.draft
        rw [hsame, if_neg Bool.false_ne_true] at hgone
        apply Option.eq_none_iff_forall_ne_some.2
        intro e he
        obtain ⟨s', hs'⟩ := exists_stepsTo_of_entryOf? (pieces_draftPath hp)
          (draftName_ne d.name (by decide)) he
        obtain rfl : s' = s := (hforth (hback hs')).unique hs
        rw [hs'.entryOf? hslashed' hsn, hgone] at he
        cases he
      | true =>
        right
        have hshares := shares_of_isSame hs hslashed' hsn hd hslashed hn hsame
        refine ⟨hshares, ?_⟩
        obtain ⟨g, -, hg⟩ := hshares.exists_file
        rw [hd.entryOf? hslashed hn] at hg
        have hkeeps : Keeps t t' := (keeps_erase_of_file hg).trans hmoved.keeps
        have hentry := hmoved.draft
        rw [hsame, if_pos rfl] at hentry
        rw [(hs.keep hkeeps hmoved.current).entryOf? hslashed' hsn, hentry,
          (hd.keep hkeeps hmoved.current).entryOf? hslashed hn, hmoved.file]
    · rintro ⟨_, hf, -⟩
      obtain ⟨⟨hne, -⟩, -⟩ := hn
      obtain ⟨d', hd'⟩ := exists_stepsTo_of_entryOf? hp hne hf
      obtain rfl : d' = d := (hforth (hback hd')).unique hd
      exact hback hd'
    · intro hd'
      refine ⟨f, ?_, hcontent⟩
      rw [(hd'.keep hmoved.keeps hmoved.current).entryOf? hslashed hn, hmoved.file]

end Ends

section Write

/-- Whether a path's directory is found without the path's own entry is told by the tree before
directories were made for it. -/
theorem stepsTo_erase_iff {d : LastStep} (h : Approaches t t' p) (hd : t'.StepsTo p d)
    (hentry : t'.entryOf? p = t'.entryAt? d.place) :
    (t'.erase d.place).StepsTo p d ↔ ∀ d', t.StepsTo p d' → (t.erase d'.place).StepsTo p d' := by
  rcases h.same with rfl | ⟨-, hsteps, hnone⟩
  · constructor
    · intro herased d' hd'
      exact hd'.unique hd ▸ herased
    · intro herased
      exact herased d hd
  · -- a directory was missing, so that nothing stands at the path, and nothing is erased
    refine iff_of_true ?_ fun d' hd' => absurd hd' (hsteps d')
    refine hd.keep (fun l e _ he => ?_) rfl
    rw [entryAt?_erase _ d.place_ne_nil, if_neg, he]
    rintro rfl
    cases (hentry.symm.trans hnone).symm.trans he

theorem entryOf?_draft_of_error {t₁ : FileTree} {e : RunError}
    (hparents : (makeParents p).run.run t = (.ok (), t₁))
    (hwrite : (writeFile (draftPath p) (Text.Utf8.encode (fileText r))).run.run t₁ = (.ok (), t'))
    (hup : [dot, dot] ∉ p.pieces)
    (hdraft : ∀ e, t₁.entryOf? (draftPath p) = some e → e = .directory ∨ ∃ f, e = .file f)
    (he : (write p r t).1 = .error e) : (write p r t).2.entryOf? (draftPath p) = none := by
  obtain ⟨s, f, hs, hslashed, hn, -, hwritten⟩ := exists_rewritten hwrite hdraft
  obtain ⟨before, last, hp⟩ := p.exists_pieces_concat
  obtain ⟨-, -, hnamed, -⟩ := draft_step hp hs
  rcases save_of_written hparents hwrite with ⟨t₂, -, hsave⟩ | ⟨e, y, t₂, hremove, hsave⟩
  · rw [write_eq hsave] at he
    cases he
  · have hremoved := remove_run_of_file (hwritten.stepsTo_iff.2 hs) hnamed hslashed hwritten.file
    cases hremoved.symm.trans hremove
    have hends : Ends p r t₁ .dropped (.error ⟨.report, p, e⟩) (t'.erase s.place) :=
      .dropped e hwrite hremoved
    rw [write_eq hsave]
    exact (hends.entryOf?_of_error hup hdraft).2 rfl

/-- A report that is written leaves no draft, unless that is a name of its own file, and stands
at its path exactly if the path's directory is found without the entry that stood there. One that
is not written leaves the entry at its path as it was, unless the draft was written into the file
that stands there. Then a draft that was written is gone, unless the system refuses to remove
it. -/
theorem write_all_or_nothing {p : Path} (r : Records) {t : FileTree} (ht : t.IsRooted)
    (hup : .up ∉ p.components)
    (hdraft : ∀ e, t.entryOf? (draftPath p) = some e → e = .directory ∨ ∃ f, e = .file f) :
    (Made p.holders t (ground p t) ∧
      ∃ fate, Ends p r (ground p t) fate (write p r t).1 (write p r t).2) ∧
    (∀ t₁ fate x t', Made p.holders t t₁ → Ends p r t₁ fate x t' →
      match x with
      | .ok _ =>
        (t'.entryOf? (draftPath p) = none ∨
          Shares t p ∧ t'.entryOf? (draftPath p) = t'.entryOf? p) ∧
        ((∃ f, t'.entryOf? p = some (.file f) ∧
            f.content = .data (Text.Utf8.encode (render r ++ "\n"))) ↔
          ∀ d, t.StepsTo p d → (t.erase d.place).StepsTo p d)
      | .error _ =>
        (t'.entryOf? p = t.entryOf? p ∨ Shares t p) ∧
        (fate = .dropped → t'.entryOf? (draftPath p) = none)) ∧
    ∀ t₁ t₂ e, (makeParents p).run.run t = (.ok (), t₁) →
      (writeFile (draftPath p) (Text.Utf8.encode (render r ++ "\n"))).run.run t₁ = (.ok (), t₂) →
      (write p r t).1 = .error e → (write p r t).2.entryOf? (draftPath p) = none := by
  have hpieces : [dot, dot] ∉ p.pieces := mt Path.up_mem_components hup
  have hdraft' {t₁ : FileTree} (hmade : Made p.holders t t₁) :
      ∀ e, t₁.entryOf? (draftPath p) = some e → e = .directory ∨ ∃ f, e = .file f := by
    have happroaches : Approaches t t₁ (draftPath p) :=
      hmade.approaches (fun q hq => (Path.goesOn_of_mem_holders hq).imp_right goesOn_draftPath)
        (up_notMem_draftPath hpieces) ht
    rwa [happroaches.entryOf?]
  refine ⟨⟨made_ground p t, write_ends p r t⟩, ?_, ?_⟩
  · intro t₁ fate x t' hmade hends
    have hreport := hmade.approaches (fun q => Path.goesOn_of_mem_holders) hpieces ht
    have hshares (h : Shares t₁ p) : Shares t p := by
      rcases hreport.same with rfl | ⟨-, -, hnone⟩
      · exact h
      · obtain ⟨f, -, hf⟩ := h.exists_file
        cases hnone.symm.trans hf
    cases x with
    | error e =>
      obtain ⟨hentry, hgone⟩ := hends.entryOf?_of_error hpieces (hdraft' hmade)
      exact ⟨hentry.imp (·.trans hreport.entryOf?) hshares, hgone⟩
    | ok _ =>
      obtain ⟨hgone, d, hd, hentry, hiff⟩ := hends.entryOf?_of_ok (hdraft' hmade)
      exact ⟨hgone.imp_right (·.imp_left hshares), hiff.trans (stepsTo_erase_iff hreport hd hentry)⟩
  · intro t₁ t₂ e hparents hwrite he
    have hmade := makeParents_made p _ _ _ hparents
    exact entryOf?_draft_of_error hparents hwrite hpieces (hdraft' hmade) he

def occupied : FileTree :=
  ofTop [("d", .directory), ("d.tmp", .file { content := .data (Text.Utf8.encode "old") })]

set_option maxRecDepth 10000 in
theorem write_all_or_nothing_of_occupied :
    (∃ e t', write (.ofString "/d") {} occupied = (.error e, t') ∧
        t'.entryOf? (.ofString "/d") = some .directory ∧
        t'.entryOf? (draftPath (.ofString "/d")) = none) ∧
      ∃ t' f, write (.ofString "/n//r") {} occupied = (.ok (), t') ∧
        t'.entryOf? (draftPath (.ofString "/n//r")) = none ∧
        t'.entryOf? (.ofString "/n//r") = some (.file f) ∧
        f.content = .data (Text.Utf8.encode (render {} ++ "\n")) := by
  constructor
  · have hfile : occupied.entryOf? (draftPath (.ofString "/d")) =
        some (.file { content := .data (Text.Utf8.encode "old") }) := by cbv
    have hwrite : (write (.ofString "/d") {} occupied).1 =
        .error ⟨.report, .ofString "/d", .os .isDirectory⟩ := by cbv
    have hdirectory : occupied.entryOf? (.ofString "/d") = some .directory := by cbv
    have hparents : ((makeParents (.ofString "/d")).run.run occupied).1 = .ok () := by cbv
    have hdraft : ((writeFile (draftPath (.ofString "/d"))
        (Text.Utf8.encode (render {} ++ "\n"))).run.run (ground (.ofString "/d") occupied)).1 =
        .ok () := by cbv
    obtain ⟨⟨hmade, fate, hends⟩, hall, hgone⟩ := write_all_or_nothing (p := .ofString "/d") {}
      (t := occupied) (by decide) (by decide) (by simp [hfile])
    have hkept := hall _ fate _ _ hmade hends
    rw [hwrite] at hkept
    refine ⟨_, _, Prod.ext hwrite rfl, ?_, hgone _ _ _ (Prod.ext hparents rfl)
      (Prod.ext hdraft rfl) hwrite⟩
    rcases hkept.1 with hentry | hshares
    · exact hentry.trans hdirectory
    · obtain ⟨f, -, hf⟩ := hshares.exists_file
      cases hdirectory.symm.trans hf
  · have hnone : occupied.entryOf? (draftPath (.ofString "/n//r")) = none := by cbv
    have hwrite : (write (.ofString "/n//r") {} occupied).1 = .ok () := by cbv
    have hstep : occupied.lastStep? (.ofString "/n//r") = none := by cbv
    obtain ⟨⟨hmade, fate, hends⟩, hall, -⟩ := write_all_or_nothing (p := .ofString "/n//r") {}
      (t := occupied) (by decide) (by decide) (by simp [hnone])
    have hkept := hall _ fate _ _ hmade hends
    rw [hwrite] at hkept
    obtain ⟨hdraft, hiff⟩ := hkept
    obtain ⟨f, hf, hcontent⟩ := hiff.2 fun d hd => by cases hstep.symm.trans (stepsTo_iff.1 hd)
    refine ⟨_, f, Prod.ext hwrite rfl, ?_, hf, hcontent⟩
    rcases hdraft with hgone | ⟨hshares, -⟩
    · exact hgone
    · obtain ⟨f, hf, -⟩ := hshares.exists_file
      cases hnone.symm.trans hf

set_option maxRecDepth 10000 in
/-- A report replaces the link that its own path goes through, and is not found there. Where its
draft's path is a name of the file at its own, both names stay. A system that refuses both to move
a draft and to remove it leaves it. -/
theorem exists_report_in_its_way :
    (∃ t', (ofTop [("A", .link [dot])]).IsRooted ∧ .up ∉ (Path.ofString "/A/A").components ∧
      (ofTop [("A", .link [dot])]).entryOf? (draftPath (.ofString "/A/A")) = none ∧
      write (.ofString "/A/A") {} (ofTop [("A", .link [dot])]) = (.ok (), t') ∧
      t'.entryOf? (.ofString "/A/A") = none) ∧
    (∃ t' f, (twoNames (Text.Utf8.encode "r") (Text.Utf8.encode "r.tmp") {}).IsRooted ∧
      write (.ofString "/r") {} (twoNames (Text.Utf8.encode "r") (Text.Utf8.encode "r.tmp") {}) =
        (.ok (), t') ∧
      t'.entryOf? (draftPath (.ofString "/r")) = some (.file f)) ∧
    ∃ e t' f, Ends (.ofString "/r") {} {} .left (.error e) t' ∧
      t'.entryOf? (draftPath (.ofString "/r")) = some (.file f) := by
  refine ⟨⟨_, by decide, by decide, by cbv, Prod.ext (by cbv) rfl, by cbv⟩,
    ⟨_, _, by decide, Prod.ext (by cbv) rfl, by cbv⟩,
    ⟨_, _, _, .left (.os .permissionDenied) (Prod.ext (by cbv) rfl), by cbv⟩⟩

end Write

end Report

end MemberIndex
