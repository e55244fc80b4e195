import Mathlib.Data.List.TakeWhile

/-! # Runs of a class

One character or more of a class, as `takeWhile` reads them off a text.
-/

namespace MemberIndex.Text

variable {p : Char → Bool} {w cs : List Char}

/-- One character or more, each of the class. -/
structure IsRun (p : Char → Bool) (w : List Char) : Prop where
  ne_nil : w ≠ []
  all : ∀ c ∈ w, p c = true

structure RunOf (p : Char → Bool) where
  text : List Char
  isRun : IsRun p text

theorem isRun_takeWhile (h : cs.head?.any p = true) : IsRun p (cs.takeWhile p) where
  ne_nil := by
    cases cs with
    | nil => cases h
    | cons c cs => simp [show p c = true from h]
  all _ := List.mem_takeWhile_imp

namespace IsRun

theorem reverse (h : IsRun p w) : IsRun p w.reverse where
  ne_nil := by simpa using h.ne_nil
  all c hc := h.all c (List.mem_reverse.1 hc)

theorem head?_append (h : IsRun p w) (rest : List Char) :
    ∃ c, (w ++ rest).head? = some c ∧ p c = true := by
  obtain ⟨c, v, rfl⟩ := List.exists_cons_of_ne_nil h.ne_nil
  exact ⟨c, rfl, h.all c List.mem_cons_self⟩

theorem span (h : IsRun p w) (rest : List Char) (hrest : rest.head?.any p = false) :
    (w ++ rest).takeWhile p = w ∧ (w ++ rest).dropWhile p = rest := by
  have hstop : rest.takeWhile p = [] ∧ rest.dropWhile p = rest := by
    cases rest with
    | nil => exact ⟨rfl, rfl⟩
    | cons c rest => simp [show p c = false from hrest]
  rw [List.takeWhile_append_of_pos h.all, List.dropWhile_append_of_pos h.all, hstop.1, hstop.2]
  exact ⟨List.append_nil w, rfl⟩

end IsRun

end MemberIndex.Text
