import MemberIndex.Proofs.FileTree.Parents
import MemberIndex.Proofs.Path.Relative

/-! # The directories that a path lies in

The path of a directory that a path lies in is a beginning of it, which the path goes on
from to something that it names, or it names nothing.
-/

namespace MemberIndex.Path

variable {p q r : Path}

/-- Whether nothing stands between the slashes of a path that names something. -/
def IsIdle (p : Path) : Prop := ∀ piece ∈ p.pieces, isIdle piece = true

/-- A path that another one goes on from to something that it names. -/
def GoesOn (q p : Path) : Prop :=
  ∃ more, p.pieces = q.pieces ++ more ∧ ∃ piece ∈ more, isIdle piece = false

theorem exists_pieces_concat (p : Path) : ∃ before last, p.pieces = before ++ [last] :=
  (List.eq_nil_or_concat' p.pieces).resolve_left Text.fields_ne_nil

theorem GoesOn.exists_concat (h : q.GoesOn p) : ∃ more last,
    p.pieces = (q.pieces ++ more) ++ [last] ∧ ∃ piece ∈ more ++ [last], isIdle piece = false := by
  obtain ⟨more, hp, piece, hmem, hpiece⟩ := h
  obtain ⟨more, last, rfl⟩ := (List.eq_nil_or_concat' more).resolve_left (List.ne_nil_of_mem hmem)
  exact ⟨more, last, hp.trans (List.append_assoc ..).symm, piece, hmem, hpiece⟩

theorem GoesOn.trans (h : q.GoesOn p) (h' : r.GoesOn q) : r.GoesOn p := by
  obtain ⟨more, hp, -⟩ := h
  obtain ⟨more', hq, piece, hmem, hpiece⟩ := h'
  refine ⟨more' ++ more, ?_, piece, List.mem_append_left more hmem, hpiece⟩
  rw [hp, hq, List.append_assoc]

theorem IsIdle.not_goesOn (h : p.IsIdle) : ¬ q.GoesOn p := by
  rintro ⟨more, hp, piece, hmem, hpiece⟩
  have hidle := h piece (hp ▸ List.mem_append_right _ hmem)
  cases hidle.symm.trans hpiece

theorem pieces_cut {ps : List (List UInt8)} (h : ps <+: p.pieces) :
    (p.cut ps).IsIdle ∨ (p.cut ps).pieces <+: ps := by
  have htrim : trimPieces ps <+: ps := List.rdropWhile_prefix isIdle ps
  rw [cut]
  split
  · left
    unfold IsIdle
    rcases lead_cases p.pieces with hl | hl | hl <;> rw [hl] <;> decide
  · rename_i hne
    right
    have hnot (piece : List UInt8) (hp : piece ∈ trimPieces ps) : slash ∉ piece :=
      Text.notMem_of_mem_fields ((htrim.trans h).subset hp)
    rw [pieces, Text.fields_intercalate hnot hne]
    exact htrim

theorem goesOn_of_parent? (h : p.parent? = some q) : q.IsIdle ∨ q.GoesOn p := by
  rcases trimPieces_cases p.pieces with hnil | ⟨before, last, hconcat, hlast⟩
  · obtain ⟨-, rfl⟩ := eq_of_parent?_of_trimPieces h hnil
    exact .inl (by unfold IsIdle; decide)
  · have hprefix := prefix_of_trimPieces hconcat
    cases (parent?_eq_cut hconcat hlast).symm.trans h
    have hbefore := (List.prefix_append before [last]).trans hprefix
    rcases pieces_cut hbefore with hidle | ⟨rest, hrest⟩
    · exact .inl hidle
    · obtain ⟨after, hafter⟩ := hprefix
      refine .inr ⟨rest ++ last :: after, ?_, last, by simp, hlast⟩
      rw [← List.append_assoc, hrest, ← hafter, List.append_assoc, List.singleton_append]

/-- What holds of a path's parent, and of what this lies in, holds of all that the path lies in. -/
theorem isIdle_or_goesOn_trans (h : r.IsIdle ∨ r.GoesOn p) (h' : q = r ∨ q.IsIdle ∨ q.GoesOn r) :
    q.IsIdle ∨ q.GoesOn p := by
  rcases h' with rfl | hidle | hq
  · exact h
  · exact .inl hidle
  · rcases h with hidle | hr
    · exact absurd hq hidle.not_goesOn
    · exact .inr (hr.trans hq)

theorem goesOn_of_mem_climb {n : Nat} (h : q ∈ climb n p) : q = p ∨ q.IsIdle ∨ q.GoesOn p := by
  induction n generalizing p with
  | zero => cases h
  | succ n ih =>
    rcases List.mem_cons.1 h with rfl | hmem
    · exact .inl rfl
    cases hparent : p.parent? with
    | none =>
      rw [hparent] at hmem
      cases hmem
    | some r =>
      rw [hparent] at hmem
      exact .inr (isIdle_or_goesOn_trans (goesOn_of_parent? hparent) (ih hmem))

theorem goesOn_of_mem_holders (h : q ∈ p.holders) : q.IsIdle ∨ q.GoesOn p := by
  unfold holders at h
  split at h
  · cases h
  · rename_i r hparent
    exact isIdle_or_goesOn_trans (goesOn_of_parent? hparent) (goesOn_of_mem_climb h)

theorem GoesOn.isAbsolute (h : q.GoesOn p) (hq : ¬ q.IsIdle) : q.isAbsolute = p.isAbsolute := by
  obtain ⟨more, hp, -⟩ := h
  obtain ⟨piece, hmem, hpiece⟩ : ∃ piece ∈ q.pieces, isIdle piece = false := by
    simpa [IsIdle] using hq
  apply Bool.eq_iff_iff.2
  rw [isAbsolute_iff, isAbsolute_iff, hp, lead_append ⟨piece, hmem, hpiece⟩]

end MemberIndex.Path
