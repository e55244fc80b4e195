import MemberIndex.Proofs.FileTree.Open
import MemberIndex.Proofs.FileTree.Parents

/-! # Files that are written, moved and removed

What these changes leave behind, whether they succeed or fail: a file that is written changes one
entry, where its path leads through links, and a change that fails has changed nothing.
-/

namespace MemberIndex.FileTree

variable {p q : Path} {t t' : FileTree} {bytes : List UInt8} {s : LastStep} {l : Location}

theorem Rewritten.stepsTo_iff {f : File} (h : Rewritten t t' l f) :
    StepsTo t' p s ↔ StepsTo t p s :=
  ⟨fun hs => hs.keep h.keeps_symm h.current.symm, fun hs => hs.keep h.keeps h.current⟩

theorem keeps_erase (hl : l ≠ []) : Keeps (t.erase l) t := by
  intro k e _ hk
  rw [entryAt?_erase t hl] at hk
  split at hk
  · cases hk
  · exact hk

theorem keeps_erase_of_file {f : File} (hf : t.entryAt? l = some (.file f)) :
    Keeps t (t.erase l) := by
  intro m e hway hm
  have hl : l ≠ [] := by
    rintro rfl
    cases hf
  rw [entryAt?_erase t hl, if_neg, hm]
  rintro rfl
  cases hf.symm.trans hm
  cases hway

theorem eq_of_writeAt {e : Entry} {r : Except IoError Unit} (he : t.entryAt? l = some e)
    (hfile : ∀ f, e ≠ .file f) (h : (writeAt l bytes).run.run t = (r, t')) : t' = t := by
  unfold writeAt at h
  rw [Change.run_get_bind, he] at h
  split at h
  · rename_i heq
    exact absurd (Option.some.inj heq) (hfile _)
  · split at h <;> cases h <;> rfl
  · cases h
    rfl

/-- A file is written where its path is opened, or the tree is left as it is: there is no file to
be opened, or a device takes the bytes. -/
theorem writeFile_cases {r : Except IoError Unit} (h : (writeFile p bytes).run.run t = (r, t')) :
    t' = t ∨ r = .ok () ∧ ∃ l f, checkPath p = .ok () ∧
      t.target maxLinks maxLinks (t.origin p) p.pieces = .ok l ∧ Rewritten t t' l f := by
  unfold writeFile at h
  rcases Change.run_bind_cases h with ⟨l, t₁, hopen, hwrite⟩ | ⟨e, -, hopen⟩
  · obtain ⟨hvalid, htarget, hopened⟩ := openFile_cases hopen
    have hwritten {g : File} (hg : Rewritten t t₁ l g) :
        r = .ok () ∧ ∃ f, Rewritten t t' l f := by
      rw [writeAt_run_of_file hg.file] at hwrite
      obtain ⟨rfl, rfl⟩ := Prod.mk.inj hwrite
      exact ⟨rfl, _, hg.rewrite _⟩
    rcases hopened with ⟨he, rfl⟩ | ⟨f, he, rfl⟩ | ⟨e, he, hfile, rfl⟩
    · obtain ⟨hr, f, hf⟩ := hwritten (rewritten_put (opensAt_of_target htarget).ne_nil he)
      exact .inr ⟨hr, l, f, hvalid, htarget, hf⟩
    · obtain ⟨hr, f, hf⟩ := hwritten (rewritten_rewrite he)
      exact .inr ⟨hr, l, f, hvalid, htarget, hf⟩
    · exact .inl (eq_of_writeAt he hfile hwrite)
  · exact .inl (eq_of_openFile_eq_error hopen)

theorem eq_of_lastStepOf {p : Path} {x : Except IoError (Option LastStep)}
    (h : (lastStepOf p).run.run t = (x, t')) : t' = t := by
  rw [lastStepOf_run] at h
  exact (Prod.mk.inj h).2.symm

theorem eq_of_move_eq_error {e : IoError} (h : (move p q).run.run t = (.error e, t')) :
    t' = t := by
  unfold move at h
  rcases Change.run_bind_cases h with ⟨s, t₁, hs, h₁⟩ | ⟨e, -, hs⟩
  · cases eq_of_lastStepOf hs
    rcases Change.run_bind_cases h₁ with ⟨d, t₂, hd, h₂⟩ | ⟨e, -, hd⟩
    · cases eq_of_lastStepOf hd
      split at h₂
      · rw [Change.run_get_bind] at h₂
        repeat' split at h₂
        all_goals cases h₂
        all_goals rfl
      · cases h₂
        rfl
    · exact eq_of_lastStepOf hd
  · exact eq_of_lastStepOf hs

/-- An entry is removed where its path steps to, or stays. -/
theorem remove_cases {r : Except IoError Unit} (h : (remove p).run.run t = (r, t')) :
    (∃ e, r = .error e ∧ t' = t) ∨ ∃ s, StepsTo t p s ∧ r = .ok () ∧ t' = t.erase s.place := by
  unfold remove at h
  rcases Change.run_bind_cases h with ⟨s?, t₁, hs, h₁⟩ | ⟨e, rfl, hs⟩
  · cases s? with
    | none =>
      cases eq_of_lastStepOf hs
      cases h₁
      exact .inl ⟨_, rfl, rfl⟩
    | some s =>
      obtain ⟨rfl, hs⟩ := stepsTo_of_lastStepOf hs
      rw [Change.run_get_bind] at h₁
      repeat' split at h₁
      all_goals cases h₁
      · exact .inl ⟨_, rfl, rfl⟩
      · exact .inl ⟨_, rfl, rfl⟩
      · exact .inl ⟨_, rfl, rfl⟩
      · exact .inr ⟨s, hs, rfl, rfl⟩
  · exact .inl ⟨e, rfl, eq_of_lastStepOf hs⟩

theorem lastStepOf_run_of_stepsTo (h : StepsTo t p s) :
    (lastStepOf p).run.run t = (.ok (some s), t) := by
  rw [lastStepOf_run, h.valid, h.step]
  rfl

theorem remove_run_of_file {f : File} (h : StepsTo t p s) (hnamed : s.isNamed = true)
    (hslashed : s.slashed = false) (he : t.entryAt? s.place = some (.file f)) :
    (remove p).run.run t = (.ok (), t.erase s.place) := by
  unfold remove
  rw [Change.run_bind, lastStepOf_run_of_stepsTo h]
  simp only [Change.run_get_bind, he, hnamed, hslashed, Bool.not_true, Bool.false_or,
    reduceCtorEq, decide_false, Bool.false_eq_true, ↓reduceIte]
  rfl

end MemberIndex.FileTree
