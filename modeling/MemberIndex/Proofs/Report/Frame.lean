import Mathlib
import MemberIndex.Proofs.FileTree.Parents
import MemberIndex.Proofs.Report.Write

-- The examples are evaluated with equations of library functions, some of which other parts of the
-- library make too: the whole of it is imported, so that no equation is made twice.

/-! # What the writing of a report touches

Apart from the directories that are made, the writing of a report changes the entries at its own
path and at its draft's, whether or not it succeeds. A link that stands where the draft is
written leads the text astray, and then the entry that it leads to is changed as well. So are the
other names of a file that the draft is written into.
-/

namespace MemberIndex.Report

open FileTree

/-- The places that the writing of a report changes in a tree in which its directories are made:
its own, its draft's, the one that a link leads to which stands in the draft's, and those of all
other names of the file that the draft is written into. -/
inductive Touches (t : FileTree) (p : Path) : Location → Prop
  | report {d : LastStep} (h : t.StepsTo p d) : Touches t p d.place
  | draft {s : LastStep} (h : t.StepsTo (draftPath p) s) : Touches t p s.place
  | astray {s : LastStep} {target : List UInt8} {l : Location} (h : t.StepsTo (draftPath p) s)
    (hlink : t.entryAt? s.place = some (.link target))
    (hl : t.target maxLinks maxLinks (t.origin (draftPath p)) (draftPath p).pieces = .ok l) :
    Touches t p l
  | name {l m : Location}
    (hl : t.target maxLinks maxLinks (t.origin (draftPath p)) (draftPath p).pieces = .ok l)
    (hm : t.isSame l m = true) (hne : l ≠ m) : Touches t p m

variable {p : Path} {r : Records} {t t' : FileTree} {bytes : List UInt8} {l : Location}

theorem touches_of_target (hvalid : checkPath (draftPath p) = .ok ())
    (h : t.target maxLinks maxLinks (t.origin (draftPath p)) (draftPath p).pieces = .ok l) :
    Touches t p l := by
  rcases target_cases h with ⟨s, ha, rfl⟩ | ⟨s, target, _, _, ha, -⟩
  · obtain ⟨hs, -⟩ := aim_eq_ok ha
    exact .draft ⟨hvalid, hs⟩
  · obtain ⟨hs, -, -, hlink, -⟩ := aim_eq_ok ha
    exact .astray ⟨hvalid, hs⟩ (hlink target rfl) h

/-- A tree after the draft was written, with the same steps as the one before. -/
structure Drafted (t t' : FileTree) (p : Path) : Prop where
  current : t'.current = t.current
  frame : ∀ l, ¬ Touches t p l → t'.entryAt? l = t.entryAt? l ∧ t'.node? l = t.node? l
  steps : ∀ q s, StepsTo t' q s → StepsTo t q s

theorem drafted_refl (t : FileTree) (p : Path) : Drafted t t p :=
  ⟨rfl, fun _ _ => ⟨rfl, rfl⟩, fun _ _ => id⟩

theorem drafted_of_writeFile {x : Except IoError Unit}
    (h : (writeFile (draftPath p) bytes).run.run t = (x, t')) : Drafted t t' p := by
  rcases writeFile_cases h with rfl | ⟨-, l, f, hvalid, htarget, hwritten⟩
  · exact drafted_refl t' p
  · refine ⟨hwritten.current, ?_, fun q s => hwritten.stepsTo_iff.1⟩
    intro m hm
    have hother : ¬ t.isSame l m = true := by
      intro hsame
      by_cases hne : l = m
      · exact hm (hne ▸ touches_of_target hvalid htarget)
      · exact hm (.name htarget hsame hne)
    exact ⟨by rw [hwritten.entry, if_neg hother], by rw [hwritten.node?_eq]⟩

/-- What the writing of a report does not touch is what it was, whatever the system refuses. -/
theorem Ends.frame {fate : Fate} {x : Except RunError Unit} (h : Ends p r t fate x t') :
    t'.current = t.current ∧
      ∀ l, ¬ Touches t p l → t'.entryAt? l = t.entryAt? l ∧ t'.node? l = t.node? l := by
  cases h with
  | unwritten => exact ⟨rfl, fun _ _ => ⟨rfl, rfl⟩⟩
  | broken n e _ hwrite =>
    obtain ⟨hcurrent, hframe, -⟩ := drafted_of_writeFile hwrite
    exact ⟨hcurrent, hframe⟩
  | left e hwrite =>
    obtain ⟨hcurrent, hframe, -⟩ := drafted_of_writeFile hwrite
    exact ⟨hcurrent, hframe⟩
  | moved hwrite hmove =>
    obtain ⟨hcurrent, hframe, hsteps⟩ := drafted_of_writeFile hwrite
    obtain ⟨s, d, e, hs, hd, -, -, -, -, -, rfl⟩ := move_run_eq_ok hmove
    split
    · exact ⟨hcurrent, hframe⟩
    · refine ⟨hcurrent, ?_⟩
      intro l hl
      have hreport : l ≠ d.place := fun h => hl (h ▸ .report (hsteps _ _ hd))
      have hdraft : l ≠ s.place := fun h => hl (h ▸ .draft (hsteps _ _ hs))
      rw [entryAt?_carry s.place_ne_nil d.place_ne_nil, if_neg hreport.symm, if_neg hdraft.symm,
        node?_carry, if_neg hreport, if_neg hdraft]
      exact hframe l hl
  | dropped e hwrite hremove =>
    obtain ⟨hcurrent, hframe, hsteps⟩ := drafted_of_writeFile hwrite
    rcases remove_cases hremove with ⟨_, -, rfl⟩ | ⟨s, hs, -, rfl⟩
    · exact ⟨hcurrent, hframe⟩
    · refine ⟨hcurrent, ?_⟩
      intro l hl
      have hdraft : l ≠ s.place := fun h => hl (h ▸ .draft (hsteps _ _ hs))
      rw [entryAt?_erase _ s.place_ne_nil, if_neg hdraft.symm, node?_erase, if_neg hdraft]
      exact hframe l hl

/-- The tree that a report is written in: the directories of its path are made, as far as they
can be. -/
def ground (p : Path) (t : FileTree) : FileTree := ((makeParents p).run.run t).2

theorem made_ground (p : Path) (t : FileTree) : Made p.holders t (ground p t) :=
  makeParents_made p t _ _ rfl

/-- What becomes of a report on a system that refuses nothing is one of its ends. -/
theorem write_ends (p : Path) (r : Records) (t : FileTree) :
    ∃ fate, Ends p r (ground p t) fate (write p r t).1 (write p r t).2 := by
  obtain ⟨x, t', h⟩ : ∃ x t', (save p r).run.run t = (x, t') := ⟨_, _, rfl⟩
  rw [write_eq h]
  rcases save_cases h with ⟨e, rfl, hparents⟩ | ⟨t₁, fate, hparents, hends⟩
  · obtain rfl : ground p t = t' := congrArg Prod.snd hparents
    exact ⟨.unwritten, .unwritten e⟩
  · obtain rfl : ground p t = t₁ := congrArg Prod.snd hparents
    exact ⟨fate, hends⟩

/-- Whatever a system refuses, and whether or not a report can be written, of what stands where
its directories were made only its own entry changes, its draft's, one that a link in the draft's
place leads to, and other names of the file that the draft is written into. -/
theorem write_touches (p : Path) (r : Records) (t : FileTree) :
    (Made p.holders t (ground p t) ∧
      ∃ fate, Ends p r (ground p t) fate (write p r t).1 (write p r t).2) ∧
    ∀ t₁ fate x t', Made p.holders t t₁ → Ends p r t₁ fate x t' →
      t.GrowsTo t₁ p.holders ∧ t'.current = t.current ∧
        ∀ l, (t'.entryAt? l = t₁.entryAt? l ∧ t'.node? l = t₁.node? l) ∨ Touches t₁ p l := by
  refine ⟨⟨made_ground p t, write_ends p r t⟩, ?_⟩
  · intro t₁ fate x t' hmade hends
    have hgrows := hmade.growsTo
    obtain ⟨hcurrent, hframe⟩ := hends.frame
    refine ⟨hgrows, hcurrent.trans hgrows.current, ?_⟩
    intro l
    exact or_iff_not_imp_right.2 (hframe l)

def ofTop (es : List (String × Entry)) : FileTree :=
  es.foldl (fun t x => t.put [Text.Utf8.encode x.1] x.2) {}

def twoNames (a b : Name) (f : File) : FileTree where
  entries := (Forest.set (some (.file f)) [a] .nil).set (some (.file f)) [b]
  node? l := if l = [a] ∨ l = [b] then some 0 else none
  ordered := Forest.ordered_set (Forest.ordered_set (by trivial) _ _) _ _
  shared l m n hl hm := by
    have hfile (k : Location) (hk : k = [a] ∨ k = [b]) :
        ((Forest.set (some (Entry.file f)) [a] .nil).set (some (.file f)) [b]).get? k =
          some (.file f) := by
      rw [Forest.get?_set (by simp), Forest.get?_set (by simp)]
      grind
    grind

set_option maxRecDepth 10000 in
/-- Through a link in the draft's place a file is overwritten, and made where none was, and the
link comes to stand at the report's path. A file that has the draft's path for another name is
overwritten too. -/
theorem exists_report_led_astray :
    (∃ t', write (.ofString "/r") {} (ofTop [("r.tmp", .link (Text.Utf8.encode "victim")),
          ("victim", .file { content := .data (Text.Utf8.encode "kept\n") })]) = (.ok (), t') ∧
        t'.entryAt? [Text.Utf8.encode "victim"] =
          some (.file { content := .data (Text.Utf8.encode (fileText {})) })) ∧
      (∃ t', write (.ofString "/r") {} (ofTop [("r.tmp", .link (Text.Utf8.encode "victim"))]) =
          (.ok (), t') ∧
        t'.entryAt? [Text.Utf8.encode "victim"] =
          some (.file { content := .data (Text.Utf8.encode (fileText {})) }) ∧
        t'.entryAt? [Text.Utf8.encode "r"] = some (.link (Text.Utf8.encode "victim"))) ∧
      ∃ t', write (.ofString "/r") {}
          (twoNames (Text.Utf8.encode "r.tmp") (Text.Utf8.encode "victim")
            { content := .data (Text.Utf8.encode "kept\n") }) = (.ok (), t') ∧
        t'.entryAt? [Text.Utf8.encode "victim"] =
          some (.file { content := .data (Text.Utf8.encode (fileText {})) }) := by
  refine ⟨⟨_, Prod.ext ?_ rfl, ?_⟩, ⟨_, Prod.ext ?_ rfl, ?_, ?_⟩, ⟨_, Prod.ext ?_ rfl, ?_⟩⟩
  all_goals cbv

end MemberIndex.Report
