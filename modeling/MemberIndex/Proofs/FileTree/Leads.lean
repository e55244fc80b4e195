import MemberIndex.FileTree.Resolve

/-! # Where paths lead

The walks that come to a place, as a relation. A walk to a directory meets directories and
links only, so it is the same walk in any tree that keeps these.
-/

namespace MemberIndex.FileTree

open MemberIndex.Path (slash dot)

structure IsName (piece : List UInt8) : Prop where
  some : piece ≠ [] ∧ piece ≠ [dot] ∧ piece ≠ [dot, dot]
  short : piece.length ≤ maxName

/-- Pieces that lead from a place, through links, to where they reach. -/
inductive Leads (t : FileTree) : Nat → Location → List (List UInt8) → Reached → Prop
  | nil {links : Nat} {place : Location} : Leads t links place [] ⟨place, links⟩
  | skip {links : Nat} {place : Location} {piece : List UInt8} {rest : List (List UInt8)}
    {r : Reached} (hd : t.isDirectoryAt place = true) (hp : piece = [] ∨ piece = [dot])
    (h : Leads t links place rest r) : Leads t links place (piece :: rest) r
  | up {links : Nat} {place : Location} {rest : List (List UInt8)} {r : Reached}
    (hd : t.isDirectoryAt place = true) (h : Leads t links place.dropLast rest r) :
    Leads t links place ([dot, dot] :: rest) r
  | down {links : Nat} {place : Location} {piece : List UInt8} {rest : List (List UInt8)}
    {r : Reached} {e : Entry} (hd : t.isDirectoryAt place = true) (hn : IsName piece)
    (he : t.entryAt? (place ++ [piece]) = some e) (hl : ∀ target, e ≠ .link target)
    (h : Leads t links (place ++ [piece]) rest r) : Leads t links place (piece :: rest) r
  | link {links : Nat} {place : Location} {piece target : List UInt8}
    {rest : List (List UInt8)} {r : Reached} (hd : t.isDirectoryAt place = true)
    (hn : IsName piece) (he : t.entryAt? (place ++ [piece]) = some (.link target))
    (h : Leads t links (if target.head? = some slash then [] else place)
      (Text.fields slash target ++ rest) r) : Leads t (links + 1) place (piece :: rest) r

variable {t t' : FileTree} {links : Nat} {place : Location} {pieces : List (List UInt8)}
  {r : Reached}

theorem leads_of_walk (h : t.walk true links place pieces = .ok r) :
    Leads t links place pieces r := by
  induction links using Nat.strongRecOn generalizing place pieces with
  | _ links ihl =>
    induction pieces generalizing place with
    | nil =>
      rw [walk_nil] at h
      cases h
      exact .nil
    | cons piece rest ih =>
      rw [walk_cons] at h
      by_cases hd : t.isDirectoryAt place = true
      · rw [if_neg (by simp [hd])] at h
        by_cases hskip : piece = [] ∨ piece = [dot]
        · rw [if_pos hskip] at h
          exact .skip hd hskip (ih h)
        rw [if_neg hskip] at h
        obtain ⟨hnil, hdot⟩ := not_or.1 hskip
        by_cases hup : piece = [dot, dot]
        · rw [if_pos hup] at h
          subst hup
          exact .up hd (ih h)
        rw [if_neg hup] at h
        by_cases hlong : maxName < piece.length
        · rw [if_pos hlong] at h
          cases h
        rw [if_neg hlong] at h
        have hn : IsName piece := ⟨⟨hnil, hdot, hup⟩, Nat.not_lt.1 hlong⟩
        cases he : t.entryAt? (place ++ [piece]) with
        | none =>
          rw [he] at h
          cases h
        | some e =>
          rw [he] at h
          cases e with
          | link target =>
            simp only [Bool.not_true, Bool.false_eq_true, and_false, ↓reduceIte] at h
            cases links with
            | zero => cases h
            | succ n => exact .link hd hn he (ihl n (Nat.lt_succ_self n) h)
          | directory | file _ | device _ => exact .down hd hn he (by simp) (ih h)
      · rw [if_pos (by simp [hd])] at h
        cases h

theorem walk_of_leads (h : Leads t links place pieces r) :
    t.walk true links place pieces = .ok r := by
  induction h with
  | nil => exact walk_nil ..
  | skip hd hp _ ih => rw [walk_cons, if_neg (by simp [hd]), if_pos hp, ih]
  | up hd _ ih =>
    rw [walk_cons, if_neg (by simp [hd]), if_neg (by simp), if_pos rfl, ih]
  | @down links place piece rest r e hd hn he hl _ ih =>
    obtain ⟨⟨hnil, hdot, hup⟩, hshort⟩ := hn
    rw [walk_cons, if_neg (by simp [hd]), if_neg (not_or.2 ⟨hnil, hdot⟩), if_neg hup,
      if_neg (Nat.not_lt.2 hshort), he]
    cases e with
    | link target => exact absurd rfl (hl target)
    | _ => exact ih
  | link hd hn he _ ih =>
    obtain ⟨⟨hnil, hdot, hup⟩, hshort⟩ := hn
    rw [walk_cons, if_neg (by simp [hd]), if_neg (not_or.2 ⟨hnil, hdot⟩), if_neg hup,
      if_neg (Nat.not_lt.2 hshort), he]
    simpa using ih

theorem Leads.append {more : List (List UInt8)} {s : Reached} (h : Leads t links place pieces r)
    (hm : Leads t r.links r.place more s) : Leads t links place (pieces ++ more) s := by
  induction h with
  | nil => exact hm
  | skip hd hp _ ih => exact .skip hd hp (ih hm)
  | up hd _ ih => exact .up hd (ih hm)
  | down hd hn he hl _ ih => exact .down hd hn he hl (ih hm)
  | link hd hn he _ ih =>
    have hrest := ih hm
    rw [List.append_assoc] at hrest
    exact .link hd hn he hrest

/-- A walk comes past the place that the first of its pieces lead to. -/
theorem Leads.split {before after : List (List UInt8)}
    (h : Leads t links place (before ++ after) r) :
    ∃ mid, Leads t links place before mid ∧ Leads t mid.links mid.place after r := by
  generalize hp : before ++ after = whole at h
  induction h generalizing before with
  | nil =>
    obtain ⟨rfl, rfl⟩ := List.append_eq_nil_iff.1 hp
    exact ⟨_, .nil, .nil⟩
  | skip hd hskip h ih =>
    obtain ⟨rfl, rfl⟩ | ⟨before, rfl, rfl⟩ := List.append_eq_cons_iff.1 hp
    · exact ⟨_, .nil, .skip hd hskip h⟩
    · obtain ⟨mid, hbefore, hafter⟩ := ih rfl
      exact ⟨mid, .skip hd hskip hbefore, hafter⟩
  | up hd h ih =>
    obtain ⟨rfl, rfl⟩ | ⟨before, rfl, rfl⟩ := List.append_eq_cons_iff.1 hp
    · exact ⟨_, .nil, .up hd h⟩
    · obtain ⟨mid, hbefore, hafter⟩ := ih rfl
      exact ⟨mid, .up hd hbefore, hafter⟩
  | down hd hn he hl h ih =>
    obtain ⟨rfl, rfl⟩ | ⟨before, rfl, rfl⟩ := List.append_eq_cons_iff.1 hp
    · exact ⟨_, .nil, .down hd hn he hl h⟩
    · obtain ⟨mid, hbefore, hafter⟩ := ih rfl
      exact ⟨mid, .down hd hn he hl hbefore, hafter⟩
  | link hd hn he h ih =>
    obtain ⟨rfl, rfl⟩ | ⟨before, rfl, rfl⟩ := List.append_eq_cons_iff.1 hp
    · exact ⟨_, .nil, .link hd hn he h⟩
    · obtain ⟨mid, hbefore, hafter⟩ := ih (List.append_assoc ..)
      exact ⟨mid, .link hd hn he hbefore, hafter⟩

theorem leads_append_iff {before after : List (List UInt8)} :
    Leads t links place (before ++ after) r ↔
      ∃ mid, Leads t links place before mid ∧ Leads t mid.links mid.place after r := by
  constructor
  · exact Leads.split
  · rintro ⟨mid, hbefore, hafter⟩
    exact hbefore.append hafter

theorem Leads.unique {s : Reached} (h : Leads t links place pieces r)
    (h' : Leads t links place pieces s) : r = s :=
  Except.ok.inj ((walk_of_leads h).symm.trans (walk_of_leads h'))

theorem Leads.isDirectoryAt_of_cons {piece : List UInt8} {rest : List (List UInt8)}
    (h : Leads t links place (piece :: rest) r) : t.isDirectoryAt place = true := by
  cases h with
  | skip hd | up hd | down hd | link hd => exact hd

theorem leads_of_idle (hd : t.isDirectoryAt place = true)
    (h : ∀ piece ∈ pieces, piece = [] ∨ piece = [dot]) :
    Leads t links place pieces ⟨place, links⟩ := by
  induction pieces with
  | nil => exact .nil
  | cons piece rest ih =>
    obtain ⟨hpiece, hrest⟩ := List.forall_mem_cons.1 h
    exact .skip hd hpiece (ih hrest)

theorem leads_concat_nil_iff {before : List (List UInt8)} :
    Leads t links place (before ++ [[]]) r ↔
      Leads t links place before r ∧ t.isDirectoryAt r.place = true := by
  rw [leads_append_iff]
  constructor
  · rintro ⟨mid, hbefore, hnil⟩
    have hd := hnil.isDirectoryAt_of_cons
    cases hnil.unique (.skip hd (.inl rfl) .nil)
    exact ⟨hbefore, hd⟩
  · rintro ⟨hbefore, hd⟩
    exact ⟨r, hbefore, .skip hd (.inl rfl) .nil⟩

theorem Leads.isDirectoryAt (h : Leads t links place pieces r)
    (hr : t.isDirectoryAt r.place = true) : t.isDirectoryAt place = true := by
  cases pieces with
  | nil =>
    cases h
    exact hr
  | cons piece rest => exact h.isDirectoryAt_of_cons

def isWay : Entry → Bool
  | .directory | .link _ => true
  | .file _ | .device _ => false

/-- A tree that has every directory and every link of another one. -/
def Keeps (t t' : FileTree) : Prop :=
  ∀ l e, isWay e = true → t.entryAt? l = some e → t'.entryAt? l = some e

theorem Keeps.isDirectoryAt (hk : Keeps t t') {l : Location} (h : t.isDirectoryAt l = true) :
    t'.isDirectoryAt l = true :=
  decide_eq_true (hk l .directory rfl (of_decide_eq_true h))

theorem Leads.keep_entry (h : Leads t links place pieces r) (hk : Keeps t t')
    (hr : ∀ e, t.entryAt? r.place = some e → t'.entryAt? r.place = some e) :
    Leads t' links place pieces r := by
  induction h with
  | nil => exact .nil
  | skip hd hp _ ih => exact .skip (hk.isDirectoryAt hd) hp (ih hr)
  | up hd _ ih => exact .up (hk.isDirectoryAt hd) (ih hr)
  | @down links place piece rest r e hd hn he hl h ih =>
    refine .down (hk.isDirectoryAt hd) hn ?_ hl (ih hr)
    -- the walk ends here, or goes on from a directory
    cases rest with
    | nil =>
      cases h
      exact hr e he
    | cons =>
      have hplace := hk.isDirectoryAt h.isDirectoryAt_of_cons
      cases he.symm.trans (of_decide_eq_true h.isDirectoryAt_of_cons)
      exact of_decide_eq_true hplace
  | link hd hn he _ ih => exact .link (hk.isDirectoryAt hd) hn (hk _ _ rfl he) (ih hr)

theorem Leads.keep (h : Leads t links place pieces r) (hk : Keeps t t')
    (hr : t.isDirectoryAt r.place = true) : Leads t' links place pieces r := by
  apply h.keep_entry hk
  intro e he
  cases he.symm.trans (of_decide_eq_true hr)
  exact hk _ _ rfl he

section LastStep

theorem exists_splitLast?_eq_some {before : List (List UInt8)} {last : List UInt8}
    {slashed : Bool} (h : splitLast? pieces = some (before, last, slashed)) :
    ∃ rest, pieces = before ++ last :: rest ∧ (∀ piece ∈ rest, piece = []) ∧ last ≠ [] ∧
      (slashed = false → rest = []) := by
  unfold splitLast? at h
  split at h
  · cases h
  · rename_i l before hdrop
    have hl : l ≠ [] := by
      have hhead := List.head?_dropWhile_not (· = []) pieces.reverse
      rw [hdrop] at hhead
      simpa using hhead
    have hpieces : pieces = before.reverse ++ l ::
        (pieces.reverse.takeWhile (· = [])).reverse := by
      have hwhole := congrArg List.reverse
        (List.takeWhile_append_dropWhile (p := (· = [])) (l := pieces.reverse))
      rw [hdrop, List.reverse_append, List.reverse_cons, List.reverse_reverse] at hwhole
      rw [List.append_assoc, List.singleton_append] at hwhole
      exact hwhole.symm
    cases h
    refine ⟨_, hpieces, ?_, hl, ?_⟩
    · intro piece hpiece
      simpa using List.all_eq_true.1 List.all_takeWhile piece (List.mem_reverse.1 hpiece)
    · intro hslashed
      have hlength := congrArg List.length hpieces
      have hle := of_decide_eq_false hslashed
      apply List.eq_nil_of_length_eq_zero
      simp only [List.length_append, List.length_cons, List.length_reverse] at hlength hle ⊢
      omega

theorem splitLast?_eq_some {before : List (List UInt8)} {last : List UInt8}
    (h : splitLast? pieces = some (before, last, false)) :
    pieces = before ++ [last] ∧ last ≠ [] := by
  obtain ⟨rest, hpieces, -, hl, hrest⟩ := exists_splitLast?_eq_some h
  rw [hrest rfl] at hpieces
  exact ⟨hpieces, hl⟩

theorem splitLast?_append {last : List UInt8} (hl : last ≠ []) (before : List (List UInt8)) :
    splitLast? (before ++ [last]) = some (before, last, false) := by
  simp [splitLast?, hl]

theorem lastStep_eq_some {s : LastStep} (h : t.lastStep links place pieces = .ok (some s)) :
    ∃ before, splitLast? pieces = some (before, s.name, s.slashed) ∧
      Leads t links place before ⟨s.directory, s.links⟩ ∧ t.isDirectoryAt s.directory = true := by
  unfold lastStep at h
  split at h
  · cases h
  · rename_i before last slashed hsplit
    cases hw : t.walk true links place before with
    | error e =>
      rw [hw] at h
      cases h
    | ok r =>
      simp only [hw, bind, Except.bind] at h
      split at h
      · rename_i hd
        cases h
        exact ⟨before, hsplit, leads_of_walk hw, hd⟩
      · cases h

theorem lastStep_of_leads {before : List (List UInt8)} {s : LastStep}
    (hs : splitLast? pieces = some (before, s.name, s.slashed))
    (h : Leads t links place before ⟨s.directory, s.links⟩)
    (hr : t.isDirectoryAt s.directory = true) :
    t.lastStep links place pieces = .ok (some s) := by
  unfold lastStep
  simp only [hs, walk_of_leads h, bind, Except.bind, hr, ↓reduceIte]
  rfl

theorem isName_of_lastStep {s : LastStep} (h : t.lastStep links place pieces = .ok (some s))
    (hnamed : s.isNamed = true) (hshort : s.name.length ≤ maxName) : IsName s.name := by
  obtain ⟨before, hsplit, -⟩ := lastStep_eq_some h
  obtain ⟨-, -, -, hne, -⟩ := exists_splitLast?_eq_some hsplit
  simp only [LastStep.isNamed, Bool.and_eq_true, decide_eq_true_eq] at hnamed
  exact ⟨⟨hne, hnamed⟩, hshort⟩

end LastStep

theorem origin_congr (h : t'.current = t.current) (p : Path) : t'.origin p = t.origin p := by
  rw [origin, origin, h]

theorem bytes_ne_nil_of_checkPath {p : Path} (h : checkPath p = .ok ()) : p.bytes ≠ [] := by
  intro hnil
  simp [checkPath, Path.isEmpty, hnil] at h

theorem locate_eq_ok_iff {p : Path} {l : Location} : t.locate true p = .ok l ↔
    checkPath p = .ok () ∧ ∃ links, Leads t maxLinks (t.origin p) p.pieces ⟨l, links⟩ := by
  unfold locate
  cases hp : checkPath p with
  | error e => simp [bind, Except.bind]
  | ok u =>
    cases hw : t.walk true maxLinks (t.origin p) p.pieces with
    | error e =>
      simp only [bind, Except.bind, Except.map, liftErrno, reduceCtorEq, false_iff, true_and]
      rintro ⟨links, hleads⟩
      cases hw.symm.trans (walk_of_leads hleads)
    | ok r =>
      simp only [bind, Except.bind, Except.map, liftErrno, Except.ok.injEq, true_and]
      constructor
      · rintro rfl
        exact ⟨r.links, leads_of_walk hw⟩
      · rintro ⟨links, hleads⟩
        cases hw.symm.trans (walk_of_leads hleads)
        rfl

theorem bytes_ne_nil_of_locate {p : Path} {l : Location} (h : t.locate true p = .ok l) :
    p.bytes ≠ [] :=
  bytes_ne_nil_of_checkPath (locate_eq_ok_iff.1 h).1

theorem find?_eq_some_iff {p : Path} {e : Entry} :
    t.find? p = some e ↔ ∃ l, t.locate true p = .ok l ∧ t.entryAt? l = some e := by
  unfold find?
  cases t.locate true p with
  | error x => simp
  | ok l => simp

theorem find?_of_leads {p : Path} (hp : checkPath p = .ok ())
    (h : Leads t maxLinks (t.origin p) p.pieces r) : t.find? p = t.entryAt? r.place := by
  rw [find?, locate_eq_ok_iff.2 ⟨hp, r.links, h⟩]

end MemberIndex.FileTree
