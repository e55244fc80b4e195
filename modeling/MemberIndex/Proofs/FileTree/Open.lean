import MemberIndex.Proofs.FileTree.Change

/-! # Files that were opened

A file is opened where its path leads to once it stands there, through however many links: the
entries on the way are directories and links, and opening changes none of them.
-/

namespace MemberIndex.FileTree

open MemberIndex.Path (slash)

variable {p : Path} {t t' : FileTree} {l place : Location} {links turns : Nat}
  {pieces : List (List UInt8)} {append : Bool}

theorem keeps_refl (t : FileTree) : Keeps t t := fun _ _ _ h => h

theorem keeps_put (hl : l ≠ []) (h : t.IsEndAt l) (e : Entry) : Keeps t (t.put l e) := by
  intro m e' hway hm
  rw [entryAt?_put t hl, if_neg, hm]
  rintro rfl
  cases hway.symm.trans (h e' hm)

theorem Keeps.trans {t'' : FileTree} (h : Keeps t t') (h' : Keeps t' t'') : Keeps t t'' :=
  fun l e he hl => h' l e he (h l e he hl)

theorem exists_leads_of_lastStep {s : LastStep}
    (h : t.lastStep links place pieces = .ok (some s)) (hs : s.slashed = false)
    (hk : Keeps t t') :
    ∃ before, pieces = before ++ [s.name] ∧
      Leads t' links place before ⟨s.directory, s.links⟩ ∧
      t'.isDirectoryAt s.directory = true := by
  obtain ⟨before, hsplit, hleads, hdir⟩ := lastStep_eq_some h
  rw [hs] at hsplit
  exact ⟨before, (splitLast?_eq_some hsplit).1, hleads.keep hk hdir, hk.isDirectoryAt hdir⟩

/-- A place where nothing stands that leads on, and to which pieces lead in any tree that keeps
the ways and has a file or a device there. -/
structure OpensAt (t : FileTree) (links : Nat) (place : Location) (pieces : List (List UInt8))
    (l : Location) : Prop where
  ne_nil : l ≠ []
  isEnd : t.IsEndAt l
  leads : ∀ t' e, Keeps t t' → t'.entryAt? l = some e → isWay e = false →
    ∃ n, Leads t' links place pieces ⟨l, n⟩

theorem opensAt_of_aim {s : LastStep} (h : t.aim links place pieces = .ok (s, none)) :
    t.OpensAt links place pieces s.place := by
  obtain ⟨hs, hname, hslashed, -, hend⟩ := aim_eq_ok h
  refine ⟨s.place_ne_nil, hend rfl, ?_⟩
  intro t' e hk he hway
  obtain ⟨before, rfl, hbefore, hdir⟩ := exists_leads_of_lastStep hs hslashed hk
  refine ⟨s.links, hbefore.append (.down hdir hname he ?_ .nil)⟩
  rintro target rfl
  cases hway

theorem OpensAt.of_link {s : LastStep} {target : List UInt8} {n : Nat}
    (ha : t.aim links place pieces = .ok (s, some target)) (hn : s.links = n + 1)
    (h : t.OpensAt n (if target.head? = some slash then [] else s.directory)
      (Text.fields slash target) l) : t.OpensAt links place pieces l := by
  obtain ⟨hs, hname, hslashed, htarget, -⟩ := aim_eq_ok ha
  refine ⟨h.ne_nil, h.isEnd, ?_⟩
  intro t' e hk he hway
  obtain ⟨before, rfl, hbefore, hdir⟩ := exists_leads_of_lastStep hs hslashed hk
  obtain ⟨m, hlast⟩ := h.leads t' e hk he hway
  have hlink := hk _ _ rfl (htarget target rfl)
  rw [hn] at hbefore
  refine ⟨m, hbefore.append (.link hdir hname hlink ?_)⟩
  rwa [List.append_nil]

theorem opensAt_of_target (h : t.target turns links place pieces = .ok l) :
    t.OpensAt links place pieces l := by
  induction turns generalizing links place pieces with
  | zero =>
    rcases target_cases h with ⟨s, ha, rfl⟩ | ⟨_, _, turns', _, -, hturns, -⟩
    · exact opensAt_of_aim ha
    · cases hturns
  | succ turns ih =>
    rcases target_cases h with ⟨s, ha, rfl⟩ | ⟨s, target, turns', n, ha, hturns, hn, hrest⟩
    · exact opensAt_of_aim ha
    · cases hturns
      exact .of_link ha hn (ih hrest)

/-- What opening a file leaves: a file or a device where its path leads to, in this tree and in
every one that keeps the ways and has a file or a device there. -/
structure Opened (p : Path) (append : Bool) (t' : FileTree) (l : Location) : Prop where
  ne_nil : l ≠ []
  entry : ∃ e, t'.entryAt? l = some e ∧ isWay e = false
  emptied : append = false → ∀ f, t'.entryAt? l = some (.file f) → f.content = .data []
  locate : ∀ t'' e, t''.current = t'.current → Keeps t' t'' → t''.entryAt? l = some e →
    isWay e = false → t''.locate true p = .ok l

theorem opened_of_keeps (ho : t.OpensAt maxLinks (t.origin p) p.pieces l)
    (hp : checkPath p = .ok ()) (hc : t'.current = t.current) (hk : Keeps t t')
    (hentry : ∃ e, t'.entryAt? l = some e ∧ isWay e = false)
    (hemptied : append = false → ∀ f, t'.entryAt? l = some (.file f) → f.content = .data []) :
    Opened p append t' l := by
  refine ⟨ho.ne_nil, hentry, hemptied, ?_⟩
  intro t'' e hc' hk' he hway
  rw [locate_eq_ok_iff, origin_congr (hc'.trans hc)]
  exact ⟨hp, ho.leads t'' e (hk.trans hk') he hway⟩

theorem opened_of_openFile (h : (openFile p append).run.run t = (.ok l, t')) :
    Opened p append t' l := by
  obtain ⟨hp, htarget, hopened⟩ := openFile_cases h
  have ho := opensAt_of_target htarget
  have hmade {f : File} (hr : Rewritten t t' l f) (hempty : f.content = .data []) :
      Opened p append t' l := by
    refine opened_of_keeps ho hp hr.current hr.keeps ⟨_, hr.file, rfl⟩ ?_
    rintro - g hg
    cases hr.file.symm.trans hg
    exact hempty
  rcases hopened with ⟨hnone, rfl⟩ | ⟨f, he, rfl⟩ | ⟨e, he, hfile, rfl⟩
  · exact hmade (rewritten_put ho.ne_nil hnone) rfl
  · cases append with
    | true => exact opened_of_keeps ho hp rfl (keeps_refl t) ⟨_, he, rfl⟩ nofun
    | false => exact hmade (rewritten_rewrite he) rfl
  · refine opened_of_keeps ho hp rfl (keeps_refl _) ⟨e, he, ho.isEnd e he⟩ ?_
    rintro - f hf
    cases he.symm.trans hf
    exact absurd rfl (hfile f)

theorem Opened.find? {e : Entry} (h : Opened p append t l) (hc : t'.current = t.current)
    (hk : Keeps t t') (he : t'.entryAt? l = some e) (hway : isWay e = false) :
    t'.find? p = some e := by
  rw [FileTree.find?, h.locate t' e hc hk he hway]
  exact he

end MemberIndex.FileTree
