import MemberIndex.Proofs.FileTree.Open
import MemberIndex.Transcript.Log

/-! # Directories made on the way

Making directories only adds to a tree: every entry stays as it was, and what is new are
directories where the asked paths lead from then on. A change that fails keeps what it did, so
this holds of every tree that such a change leaves, whether or not it came to its end.
-/

namespace MemberIndex

def Path.holders (p : Path) : List Path :=
  match p.parent? with
  | none => []
  | some q => q.ancestors

namespace FileTree

variable {α β : Type} {p q : Path} {ps qs : List Path} {t t' t'' : FileTree}

/-- A tree that has every entry of another one. -/
structure Extends (t t' : FileTree) : Prop where
  current : t'.current = t.current
  entry : ∀ l e, t.entryAt? l = some e → t'.entryAt? l = some e

theorem Extends.locate (h : Extends t t') {l : Location} (hl : t.locate true p = .ok l) :
    t'.locate true p = .ok l := by
  obtain ⟨hp, links, hleads⟩ := locate_eq_ok_iff.1 hl
  rw [locate_eq_ok_iff, origin_congr h.current]
  refine ⟨hp, links, hleads.keep_entry ?_ (h.entry l)⟩
  intro m e _ he
  exact h.entry m e he

theorem Extends.find? (h : Extends t t') {e : Entry} (he : t.find? p = some e) :
    t'.find? p = some e := by
  obtain ⟨l, hl, he⟩ := find?_eq_some_iff.1 he
  exact find?_eq_some_iff.2 ⟨l, h.locate hl, h.entry l e he⟩

theorem Extends.entryAt?_eq_none (h : Extends t t') {l : Location}
    (hl : t'.entryAt? l = none) : t.entryAt? l = none := by
  apply Option.eq_none_iff_forall_ne_some.2
  intro e he
  cases hl.symm.trans (h.entry l e he)

theorem Extends.find?_eq_none (h : Extends t t') {l : Location}
    (hl : t'.locate true p = .ok l) (hnone : t.entryAt? l = none) : t.find? p = none := by
  apply Option.eq_none_iff_forall_ne_some.2
  intro e he
  obtain ⟨m, hm, he⟩ := find?_eq_some_iff.1 he
  cases hl.symm.trans (h.locate hm)
  cases hnone.symm.trans he

/-- A tree with new directories and nothing else that is new. Each stands where one of these
paths leads, and that path led to nothing before. -/
structure GrowsTo (t t' : FileTree) (ps : List Path) : Prop where
  current : t'.current = t.current
  node?_eq : t'.node? = t.node?
  entry : ∀ l, t'.entryAt? l = t.entryAt? l ∨
    t.entryAt? l = none ∧ t'.entryAt? l = some .directory ∧
      ∃ p ∈ ps, t.find? p = none ∧ t'.locate true p = .ok l

theorem growsTo_refl (t : FileTree) (ps : List Path) : GrowsTo t t ps :=
  ⟨rfl, rfl, fun _ => .inl rfl⟩

theorem GrowsTo.extends (h : GrowsTo t t' ps) : Extends t t' := by
  refine ⟨h.current, ?_⟩
  intro l e he
  rcases h.entry l with hsame | ⟨hnone, -⟩
  · exact hsame.trans he
  · cases hnone.symm.trans he

theorem GrowsTo.mono (h : GrowsTo t t' ps) (hsub : ∀ p ∈ ps, p ∈ qs) : GrowsTo t t' qs := by
  refine ⟨h.current, h.node?_eq, ?_⟩
  intro l
  rcases h.entry l with hsame | ⟨hnone, hnew, p, hp, hmissing, hleads⟩
  · exact .inl hsame
  · exact .inr ⟨hnone, hnew, p, hsub p hp, hmissing, hleads⟩

theorem GrowsTo.trans (h : GrowsTo t t' ps) (h' : GrowsTo t' t'' ps) : GrowsTo t t'' ps := by
  refine ⟨h'.current.trans h.current, h'.node?_eq.trans h.node?_eq, ?_⟩
  intro l
  rcases h'.entry l with hsame' | ⟨hnone', hnew', p, hp, hmissing', hleads'⟩
  · rcases h.entry l with hsame | ⟨hnone, hnew, p, hp, hmissing, hleads⟩
    · exact .inl (hsame'.trans hsame)
    · exact .inr ⟨hnone, hsame'.trans hnew, p, hp, hmissing, h'.extends.locate hleads⟩
  · -- the path leads on in the last tree, so it is enough that its place was empty in the first
    have hnone := h.extends.entryAt?_eq_none hnone'
    have hall : Extends t t'' :=
      ⟨h'.current.trans h.current, fun m e he => h'.extends.entry m e (h.extends.entry m e he)⟩
    exact .inr ⟨hnone, hnew', p, hp, hall.find?_eq_none hleads' hnone, hleads'⟩

end FileTree

namespace Change

variable {α β : Type} {x : Change α} {R : FileTree → FileTree → Prop}

/-- A change that leaves a tree so related to the one before, whatever becomes of it. -/
def Leaves (x : Change α) (R : FileTree → FileTree → Prop) : Prop :=
  ∀ t r t', x.run.run t = (r, t') → R t t'

theorem Leaves.bind {f : α → Change β} (hx : x.Leaves R) (hf : ∀ a, (f a).Leaves R)
    (htrans : ∀ t t' t'', R t t' → R t' t'' → R t t'') : (x >>= f).Leaves R := by
  intro t r t' h
  rcases run_bind_cases h with ⟨a, t₁, h₁, h₂⟩ | ⟨e, -, h₁⟩
  · exact htrans t t₁ t' (hx t _ t₁ h₁) (hf a t₁ r t' h₂)
  · exact hx t _ t' h₁

theorem Leaves.tryCatch {f : IoError → Change α} (hx : x.Leaves R) (hf : ∀ e, (f e).Leaves R)
    (htrans : ∀ t t' t'', R t t' → R t' t'' → R t t'') : (tryCatch x f).Leaves R := by
  intro t r t' h
  rcases run_tryCatch_cases h with h₁ | ⟨e, t₁, h₁, h₂⟩
  · exact hx t r t' h₁
  · exact htrans t t₁ t' (hx t _ t₁ h₁) (hf e t₁ r t' h₂)

end Change

namespace FileTree

variable {p q : Path} {ps qs : List Path} {t t' t'' : FileTree}

theorem makeDirectory_cases {r : Except IoError Unit}
    (h : (makeDirectory p).run.run t = (r, t')) :
    t' = t ∨ ∃ s, StepsTo t p s ∧ IsName s.name ∧ t.entryAt? s.place = none ∧
      t' = t.put s.place .directory := by
  unfold makeDirectory at h
  rcases Change.run_bind_cases h with ⟨s?, t₁, hs, h₁⟩ | ⟨e, -, h₁⟩
  · cases s? with
    | none =>
      rw [lastStepOf_run] at hs
      cases h₁
      exact .inl (Prod.mk.inj hs).2.symm
    | some s =>
      obtain ⟨rfl, hs⟩ := stepsTo_of_lastStepOf hs
      rw [Change.run_get_bind] at h₁
      split at h₁
      · cases h₁
        exact .inl rfl
      split at h₁
      · cases h₁
        exact .inl rfl
      split at h₁
      · cases h₁
        exact .inl rfl
      rename_i hnamed hshort hnone
      cases h₁
      rw [Bool.not_eq_true', Bool.not_eq_false] at hnamed
      have hn := isName_of_lastStep hs.step hnamed (Nat.not_lt.1 hshort)
      exact .inr ⟨s, hs, hn, Option.not_isSome_iff_eq_none.1 hnone, rfl⟩
  · rw [lastStepOf_run] at h₁
    exact .inl (Prod.mk.inj h₁).2.symm

section Put

variable {s : LastStep}

theorem extends_put {l : Location} (hl : l ≠ []) (hnone : t.entryAt? l = none) (e : Entry) :
    Extends t (t.put l e) := by
  refine ⟨rfl, ?_⟩
  intro m e' he
  rw [entryAt?_put t hl, if_neg, he]
  rintro rfl
  cases hnone.symm.trans he

theorem locate_put (h : StepsTo t p s) (hn : IsName s.name) (hnone : t.entryAt? s.place = none) :
    (t.put s.place .directory).locate true p = .ok s.place := by
  have hkeeps : Keeps t (t.put s.place .directory) :=
    fun l e _ he => (extends_put s.place_ne_nil hnone _).entry l e he
  apply (h.keep hkeeps rfl).locate hn _ (by simp) (fun _ => rfl)
  rw [entryAt?_put t s.place_ne_nil, if_pos rfl]

theorem growsTo_put (h : StepsTo t p s) (hn : IsName s.name)
    (hnone : t.entryAt? s.place = none) : GrowsTo t (t.put s.place .directory) [p] := by
  have hleads := locate_put h hn hnone
  refine ⟨rfl, node?_put_of_none hnone _, ?_⟩
  intro l
  rw [entryAt?_put t s.place_ne_nil]
  split
  · rename_i hl
    subst hl
    exact .inr ⟨hnone, rfl, p, List.mem_singleton_self p,
      (extends_put s.place_ne_nil hnone _).find?_eq_none hleads hnone, hleads⟩
  · exact .inl rfl

end Put

theorem makeDirectory_growsTo (p : Path) : (makeDirectory p).Leaves (GrowsTo · · [p]) := by
  intro t r t' h
  rcases makeDirectory_cases h with rfl | ⟨s, hs, hn, hnone, rfl⟩
  · exact growsTo_refl _ _
  · exact growsTo_put hs hn hnone

section Made

theorem Made.trans (h : Made ps t t') (h' : Made ps t' t'') : Made ps t t'' := by
  induction h' with
  | refl => exact h
  | tail _ hp ih => exact ih.tail hp

theorem makeDirectory_made (hp : p ∈ ps) : (makeDirectory p).Leaves (Made ps) := by
  intro t r t' h
  have hlast : ((makeDirectory p).run.run t).2 = t' := by rw [h]
  exact hlast ▸ (Made.refl t).tail hp

theorem unlessDirectory_made (p : Path) (e : IoError) :
    (unlessDirectory p e).Leaves (Made ps) := by
  intro t r t' h
  unfold unlessDirectory at h
  rw [Change.run_get_bind] at h
  split at h <;> cases h <;> exact .refl _

theorem makeFirst_made (h : ∀ q ∈ qs, q ∈ ps) : (makeFirst qs).Leaves (Made ps) := by
  have htrans (t t' t'' : FileTree) : Made ps t t' → Made ps t' t'' → Made ps t t'' := Made.trans
  induction qs with
  | nil =>
    intro t r t' hrun
    cases hrun
    exact .refl t
  | cons q holders ih =>
    obtain ⟨hfirst, hholders⟩ := List.forall_mem_cons.1 h
    have hmade := makeDirectory_made hfirst
    unfold makeFirst
    refine hmade.tryCatch (fun e => ?_) htrans
    split
    · exact (ih hholders).bind (fun _ => hmade.tryCatch (unlessDirectory_made q) htrans) htrans
    · exact unlessDirectory_made q e

theorem makeParents_made (p : Path) : (makeParents p).Leaves (Made p.holders) := by
  unfold makeParents Path.holders
  cases p.parent? with
  | none =>
    intro t r t' hrun
    cases hrun
    exact .refl t
  | some q => exact makeFirst_made fun _ => id

/-- Directories are made where the asked paths lead, whatever becomes of the making. -/
theorem Made.growsTo (h : Made ps t t') : GrowsTo t t' ps := by
  induction h with
  | refl => exact growsTo_refl t ps
  | tail _ hp ih =>
    exact ih.trans ((makeDirectory_growsTo _ _ _ _ rfl).mono (by simpa using hp))

theorem makeParents_growsTo (p : Path) : (makeParents p).Leaves (GrowsTo · · p.holders) :=
  fun t r t' h => (makeParents_made p t r t' h).growsTo

end Made

theorem eq_of_openFile_eq_error {append : Bool} {e : IoError}
    (h : (openFile p append).run.run t = (.error e, t')) : t' = t := by
  unfold openFile at h
  rw [Change.run_get_bind] at h
  rcases Change.run_bind_cases h with ⟨place, t₁, -, h₁⟩ | ⟨e, -, hplace⟩
  · -- nothing fails once the place is known
    cases he : t.entryAt? place with
    | none =>
      rw [he] at h₁
      cases h₁
    | some entry =>
      rw [he] at h₁
      cases entry with
      | file f => cases append <;> cases h₁
      | directory | link | device => cases h₁
  · rw [attempt_run] at hplace
    exact (Prod.mk.inj hplace).2.symm

end FileTree

/-- A log that cannot be opened leaves a tree that has at most grown: some of the directories
that were to hold the log are new. -/
theorem Log.growsTo_of_openAt_eq_error {p : Path} {append : Bool} {e : IoError}
    {t t' : FileTree} (h : (Log.openAt p append).run.run t = (.error e, t')) :
    t.GrowsTo t' p.holders := by
  unfold Log.openAt at h
  rcases Change.run_bind_cases h with ⟨u, t₁, hmade, hopen⟩ | ⟨e, -, hmade⟩
  · cases FileTree.eq_of_openFile_eq_error hopen
    exact FileTree.makeParents_growsTo p t _ _ hmade
  · exact FileTree.makeParents_growsTo p t _ _ hmade

end MemberIndex
