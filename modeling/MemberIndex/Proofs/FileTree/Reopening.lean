import MemberIndex.Proofs.FileTree.Standing

/-! # Files that can be opened again

The directories that a path lies in are found on the way to whatever it leads to, so that none
has to be made. In a tree where every entry has its directory, a path that leads to a file is
one that the file can be opened at.
-/

namespace MemberIndex

namespace Text

variable {α : Type} {mark : α}

theorem intercalate_fields [DecidableEq α] (mark : α) (as : List α) :
    [mark].intercalate (fields mark as) = as := by
  induction as using marks_induction mark with
  | last as hnot => rw [fields_of_notMem hnot, List.intercalate_singleton]
  | next as bs hnot ih =>
    have hne : fields mark bs ≠ [] := fields_ne_nil
    obtain ⟨piece, rest, hf⟩ := List.exists_cons_of_ne_nil hne
    rw [hf] at ih
    rw [fields_append_cons, fields_of_notMem hnot, hf, List.singleton_append,
      List.intercalate_cons_cons, ih, List.append_assoc, List.singleton_append]

theorem prefix_intercalate {ps qs : List (List α)} (h : ps <+: qs) (hne : ps ≠ []) :
    [mark].intercalate ps <+: [mark].intercalate qs := by
  induction ps generalizing qs with
  | nil => exact absurd rfl hne
  | cons piece ps ih =>
    obtain ⟨rest, rfl, hrest⟩ := List.cons_prefix_iff.1 h
    cases ps with
    | nil =>
      cases rest with
      | nil => exact List.prefix_rfl
      | cons next rest =>
        rw [List.intercalate_singleton, List.intercalate_cons_cons, List.append_assoc]
        exact List.prefix_append ..
    | cons next ps =>
      obtain ⟨rest, rfl, -⟩ := List.cons_prefix_iff.1 hrest
      rw [List.intercalate_cons_cons, List.intercalate_cons_cons]
      exact (List.prefix_append_right_inj _).2 (ih hrest (List.cons_ne_nil _ _))

end Text

namespace Path

variable {p q : Path}

theorem bytes_prefix_of_parent? (h : p.parent? = some q) : q.bytes <+: p.bytes := by
  rcases trimPieces_cases p.pieces with hnil | ⟨before, last, hconcat, hlast⟩
  · obtain ⟨-, rfl⟩ := eq_of_parent?_of_trimPieces h hnil
    exact List.nil_prefix
  · cases (parent?_eq_cut hconcat hlast).symm.trans h
    have hbefore := (List.prefix_append before [last]).trans (prefix_of_trimPieces hconcat)
    have htrim := (List.rdropWhile_prefix isIdle before).trans hbefore
    have hbytes := Text.intercalate_fields slash p.bytes
    rw [cut, ← hbytes]
    split
    · rw [lead_pieces]
      split
      · rename_i habsolute
        rw [hbytes]
        obtain ⟨rest, hrest⟩ := List.head?_eq_some_iff.1 (beq_iff_eq.1 habsolute)
        exact ⟨rest, hrest.symm⟩
      split
      · rename_i hdot
        obtain ⟨rest, hrest⟩ := List.head?_eq_some_iff.1 hdot
        have hbegins : [[dot]] <+: p.pieces := ⟨rest, hrest.symm⟩
        exact Text.prefix_intercalate hbegins (List.cons_ne_nil _ _)
      · exact List.nil_prefix
    · rename_i hne
      exact Text.prefix_intercalate htrim hne

theorem isAbsolute_of_begins (h : q.bytes <+: p.bytes) (hne : q.bytes ≠ []) :
    q.isAbsolute = p.isAbsolute := by
  obtain ⟨b, bs, hb⟩ := List.exists_cons_of_ne_nil hne
  obtain ⟨more, hp⟩ := h
  rw [isAbsolute, isAbsolute, ← hp, hb]
  rfl

end Path

namespace FileTree

open MemberIndex.Path (dot slash isIdle)

variable {p q : Path} {t t' : FileTree} {links n turns : Nat} {place l : Location}
  {pieces : List (List UInt8)} {e : Entry} {f : File}

/-! ## The directories of a file -/

theorem checkPath_of_begins (hp : checkPath p = .ok ()) (h : q.bytes <+: p.bytes)
    (hne : q.bytes ≠ []) : checkPath q = .ok () := by
  unfold checkPath at hp ⊢
  split at hp
  · cases hp
  split at hp
  · cases hp
  split at hp
  · cases hp
  rename_i hnul _ hshort
  have hnul' : ¬ q.bytes.contains 0 = true := by
    simp only [List.contains_iff_mem] at hnul ⊢
    exact fun hmem => hnul (h.subset hmem)
  have hshort' : ¬ pathLimit ≤ q.bytes.length := by
    have := h.length_le
    omega
  rw [if_neg hnul', if_neg (by simpa [Path.isEmpty] using hne), if_neg hshort']

theorem isDirectory_of_parent? (h : t.find? p = some e) (hq : p.parent? = some q)
    (hne : q.bytes ≠ []) : t.isDirectory q = true := by
  obtain ⟨l, hl, -⟩ := find?_eq_some_iff.1 h
  obtain ⟨hvalid, n, hleads⟩ := locate_eq_ok_iff.1 hl
  have hprefix := Path.bytes_prefix_of_parent? hq
  have horigin : t.origin q = t.origin p := by
    rw [origin, origin, Path.isAbsolute_of_begins hprefix hne]
  obtain ⟨mid, hmid, hd⟩ : ∃ mid, Leads t maxLinks (t.origin q) q.pieces mid ∧
      t.isDirectoryAt mid.place = true := by
    rcases Path.goesOn_of_parent? hq with hidle | ⟨more, hp, piece, hmem, -⟩
    · have hnonempty : p.pieces ≠ [] := Text.fields_ne_nil
      obtain ⟨piece, rest, hp⟩ := List.exists_cons_of_ne_nil hnonempty
      rw [hp, ← horigin] at hleads
      have hd := hleads.isDirectoryAt_of_cons
      exact ⟨_, leads_of_idle hd fun piece hpiece => of_decide_eq_true (hidle piece hpiece), hd⟩
    · rw [hp, leads_append_iff, ← horigin] at hleads
      obtain ⟨mid, hmid, hmore⟩ := hleads
      obtain ⟨first, rest, rfl⟩ := List.exists_cons_of_ne_nil (List.ne_nil_of_mem hmem)
      exact ⟨mid, hmid, hmore.isDirectoryAt_of_cons⟩
  have hfind : t.find? q = some .directory := by
    rw [find?_of_leads (checkPath_of_begins hvalid hprefix hne) hmid]
    exact of_decide_eq_true hd
  exact decide_eq_true hfind

theorem lastStep_cases {r : Reached} (h : Leads t links place pieces r) :
    t.lastStep links place pieces = .ok none ∨
      ∃ s, t.lastStep links place pieces = .ok (some s) ∧
        (s.isNamed = true → s.name.length ≤ maxName ∧ (t.entryAt? s.place).isSome = true) := by
  cases hsplit : splitLast? pieces with
  | none => exact .inl (by simp [lastStep, hsplit])
  | some x =>
    obtain ⟨before, last, slashed⟩ := x
    obtain ⟨rest, rfl, -, hne, -⟩ := exists_splitLast?_eq_some hsplit
    obtain ⟨⟨mid, left⟩, hbefore, hlast⟩ := leads_append_iff.1 h
    refine .inr ⟨⟨mid, left, last, slashed⟩,
      lastStep_of_leads hsplit hbefore hlast.isDirectoryAt_of_cons, ?_⟩
    intro hnamed
    simp only [LastStep.isNamed, Bool.and_eq_true, decide_eq_true_eq] at hnamed
    cases hlast with
    | skip _ hskip => exact absurd hskip (not_or.2 ⟨hne, hnamed.1⟩)
    | up => exact absurd rfl hnamed.2
    | down _ hn he => exact ⟨hn.short, Option.isSome_of_eq_some he⟩
    | link _ hn he => exact ⟨hn.short, Option.isSome_of_eq_some he⟩

theorem makeDirectory_of_isDirectory (h : t.isDirectory q = true) :
    (makeDirectory q).run.run t = (.error (.os .alreadyExists), t) := by
  obtain ⟨l, hl, -⟩ := find?_eq_some_iff.1 (of_decide_eq_true h)
  obtain ⟨hvalid, n, hleads⟩ := locate_eq_ok_iff.1 hl
  unfold makeDirectory
  rw [Change.run_bind, lastStepOf_run, hvalid]
  rcases lastStep_cases hleads with hnone | ⟨s, hs, hnamed⟩
  · rw [hnone]
    rfl
  · rw [hs]
    change ((get : Change FileTree) >>= _).run.run t = _
    rw [Change.run_get_bind]
    cases hn : s.isNamed with
    | false => rfl
    | true =>
      obtain ⟨hshort, hsome⟩ := hnamed hn
      simp only [Bool.not_true, Bool.false_eq_true, ↓reduceIte, Nat.not_lt.2 hshort, hsome]
      rfl

theorem makeParents_of_find? (h : t.find? p = some e) :
    (makeParents p).run.run t = (.ok (), t) := by
  unfold makeParents
  cases hq : p.parent? with
  | none => rfl
  | some q =>
    change (makeFirst (Path.climb q.components.length q)).run.run t = _
    cases hn : q.components.length with
    | zero => rfl
    | succ n =>
      have hne : q.bytes ≠ [] := by
        intro hnil
        obtain ⟨bytes⟩ := q
        obtain rfl : bytes = [] := hnil
        cases hn
      have hd := isDirectory_of_parent? h hq hne
      rw [Path.climb, makeFirst, Change.run_tryCatch, makeDirectory_of_isDirectory hd]
      change (unlessDirectory q (.os .alreadyExists)).run.run t = _
      unfold unlessDirectory
      rw [Change.run_get_bind, if_pos hd]
      rfl

/-! ## The place of a file -/

theorem Leads.links_le {r : Reached} (h : Leads t links place pieces r) : r.links ≤ links := by
  induction h with
  | nil => exact Nat.le_refl _
  | skip _ _ _ ih | up _ _ ih | down _ _ _ _ _ ih => exact ih
  | link _ _ _ _ ih => exact Nat.le_succ_of_le ih

theorem aim_of_lastStep {s : LastStep} (h : t.lastStep links place pieces = .ok (some s))
    (hn : IsName s.name) (hs : s.slashed = false) (he : t.entryAt? s.place = some e)
    (hd : e ≠ .directory) : t.aim links place pieces = .ok (s, match e with
      | .link target => some target
      | _ => none) := by
  obtain ⟨⟨-, hnamed⟩, hshort⟩ := hn
  have hisNamed : s.isNamed = true := by simpa [LastStep.isNamed] using hnamed
  unfold aim
  simp only [h, bind, Except.bind, hisNamed, hs, Nat.not_lt.2 hshort, he]
  cases e with
  | directory => exact absurd rfl hd
  | file | link | device => rfl

/-- Where pieces lead to a file, it is opened, in a tree where every entry has its directory. -/
theorem target_of_leads (ht : t.IsRooted) (hp : pieces ≠ [])
    (h : Leads t links place pieces ⟨l, n⟩) (he : t.entryAt? l = some e) (hway : isWay e = false)
    (hturns : links ≤ turns) : t.target turns links place pieces = .ok l := by
  induction links using Nat.strongRecOn generalizing place pieces turns with
  | _ links ih =>
    obtain ⟨before, last, rfl⟩ := (List.eq_nil_or_concat' pieces).resolve_left hp
    obtain ⟨⟨mid, left⟩, hbefore, hlast⟩ := leads_append_iff.1 h
    have hd := hlast.isDirectoryAt_of_cons
    have hne (m : Location) (hm : t.isDirectoryAt m = true) : m ≠ l := by
      rintro rfl
      cases he.symm.trans (of_decide_eq_true hm)
      cases hway
    have hstep (hn : IsName last) : t.lastStep links place (before ++ [last]) =
        .ok (some ⟨mid, left, last, false⟩) :=
      lastStep_of_leads (splitLast?_append hn.some.1 before) hbefore hd
    cases hlast with
    | skip _ _ h =>
      cases h
      exact absurd rfl (hne _ hd)
    | up _ h =>
      cases h
      exact absurd rfl (hne _ (ht _ _ (of_decide_eq_true hd)))
    | down _ hn he' _ h =>
      cases h
      cases he.symm.trans he'
      have haim := aim_of_lastStep (hstep hn) hn rfl he (by rintro rfl; cases hway)
      have htarget : t.aim links place (before ++ [last]) =
          .ok (⟨mid, left, last, false⟩, none) := by
        rw [haim]
        cases e with
        | directory | link => cases hway
        | file | device => rfl
      cases turns <;> simp only [target, htarget, bind, Except.bind] <;> rfl
    | @link left _ _ goal _ _ _ hn he' h =>
      have haim := aim_of_lastStep (hstep hn) hn rfl he' (by simp)
      have hle : left + 1 ≤ links := hbefore.links_le
      obtain ⟨turns, rfl⟩ : ∃ k, turns = k + 1 := ⟨turns - 1, by omega⟩
      rw [List.append_nil] at h
      simp only [target, haim, bind, Except.bind]
      exact ih left (by omega) Text.fields_ne_nil h (by omega)

theorem openFile_of_file (append : Bool) (ht : t.IsRooted) (h : t.find? p = some (.file f)) :
    ∃ l, t.entryAt? l = some (.file f) ∧ (openFile p append).run.run t =
      (.ok l, if append then t else t.rewrite l { f with content := .data [] }) := by
  obtain ⟨l, hl, he⟩ := find?_eq_some_iff.1 h
  obtain ⟨hvalid, n, hleads⟩ := locate_eq_ok_iff.1 hl
  have htarget : t.target maxLinks maxLinks (t.origin p) p.pieces = .ok l :=
    target_of_leads ht Text.fields_ne_nil hleads he rfl (Nat.le_refl maxLinks)
  have hfound : (do checkPath p; liftErrno (t.target maxLinks maxLinks (t.origin p) p.pieces)) =
      .ok l := by
    rw [hvalid, htarget]
    rfl
  refine ⟨l, he, ?_⟩
  unfold openFile
  rw [Change.run_get_bind, Change.run_bind, attempt_run, hfound]
  simp only [he]
  cases append <;> rfl

/-! ## Trees that stay rooted -/

theorem makeDirectory_rooted (q : Path) :
    (makeDirectory q).Leaves fun t t' => t.IsRooted → t'.IsRooted := by
  intro t r t' h ht
  rcases makeDirectory_cases h with rfl | ⟨s, hs, -, hnone, rfl⟩
  · exact ht
  · exact ht.make hs hnone

theorem Made.rooted {ps : List Path} (h : Made ps t t') (ht : t.IsRooted) : t'.IsRooted := by
  induction h with
  | refl => exact ht
  | tail _ _ ih => exact makeDirectory_rooted _ _ _ _ rfl ih

theorem isDirectoryAt_of_aim {s : LastStep} {onward : Option (List UInt8)}
    (h : t.aim links place pieces = .ok (s, onward)) :
    t.isDirectoryAt s.place.dropLast = true := by
  obtain ⟨hs, -⟩ := aim_eq_ok h
  exact isDirectoryAt_of_lastStep hs

theorem isDirectoryAt_of_target (h : t.target turns links place pieces = .ok l) :
    t.isDirectoryAt l.dropLast = true := by
  induction turns generalizing links place pieces with
  | zero =>
    rcases target_cases h with ⟨s, ha, rfl⟩ | ⟨_, _, turns', _, -, hturns, -⟩
    · exact isDirectoryAt_of_aim ha
    · cases hturns
  | succ turns ih =>
    rcases target_cases h with ⟨s, ha, rfl⟩ | ⟨s, goal, turns', n, -, hturns, -, hrest⟩
    · exact isDirectoryAt_of_aim ha
    · cases hturns
      exact ih hrest

theorem Rewritten.rooted (h : Rewritten t t' l f) (ht : t.IsRooted)
    (hd : t.isDirectoryAt l.dropLast = true) : t'.IsRooted := by
  intro m e he
  apply h.keeps.isDirectoryAt
  rw [h.entry] at he
  split at he
  · rename_i hsame
    obtain rfl | ⟨n, hl, hm⟩ := isSame_iff.1 hsame
    · exact hd
    · obtain ⟨g, -, hg⟩ := entryAt?_of_node? hl hm
      exact ht m _ hg
  · exact ht m e he

theorem openFile_rooted {append : Bool} (ht : t.IsRooted)
    (h : (openFile p append).run.run t = (.ok l, t')) : t'.IsRooted := by
  obtain ⟨-, htarget, hcases⟩ := openFile_cases h
  have hd := isDirectoryAt_of_target htarget
  rcases hcases with ⟨hnone, rfl⟩ | ⟨f, hf, rfl⟩ | ⟨-, -, -, rfl⟩
  · exact (rewritten_put (opensAt_of_target htarget).ne_nil hnone).rooted ht hd
  · cases append with
    | true => exact ht
    | false => exact (rewritten_rewrite hf).rooted ht hd
  · exact ht

end FileTree

end MemberIndex
