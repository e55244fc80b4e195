import Mathlib.Data.List.DropRight
import Mathlib.Data.List.Induction
import Mathlib.Logic.Relation
import MemberIndex.Path.Basic
import MemberIndex.Proofs.Text.Lines

/-! # Paths cut from paths

The parent of a path, and a path as it is seen from one that it begins with, are paths
again: cut out of the spelling of the first, and read anew. They have the components that
stay of the first one's, whatever stands between the slashes. How often a slash is
repeated, and where a dot or a last slash is put in, changes no components at all.
-/

namespace MemberIndex.Path

open Component (ofPiece?)

section Pieces

variable {ps qs : List (List UInt8)} {piece : List UInt8}

def isIdle (piece : List UInt8) : Bool := piece = [] ∨ piece = [dot]

theorem ofPiece?_eq_none_iff : ofPiece? piece = none ↔ isIdle piece = true := by
  unfold ofPiece? isIdle
  split
  · rename_i h
    simp [h]
  · rename_i h
    split <;> simp [h]

theorem exists_ofPiece? (h : isIdle piece = false) : ∃ c, ofPiece? piece = some c :=
  Option.ne_none_iff_exists'.1 (mt ofPiece?_eq_none_iff.1 (by simp [h]))

theorem eq_of_ofPiece? {c : Component} (h : ofPiece? piece = some c) :
    c = .up ∨ c = .name piece := by
  unfold ofPiece? at h
  split at h
  · cases h
  · split at h <;> cases h
    · exact .inl rfl
    · exact .inr rfl

theorem trimPieces_eq (ps : List (List UInt8)) : trimPieces ps = ps.rdropWhile isIdle := rfl

theorem filterMap_ofPiece?_of_isIdle (h : ∀ piece ∈ ps, isIdle piece = true) :
    ps.filterMap ofPiece? = [] :=
  List.filterMap_eq_nil_iff.2 fun piece hp => ofPiece?_eq_none_iff.2 (h piece hp)

theorem filterMap_dropWhile_isIdle (ps : List (List UInt8)) :
    (ps.dropWhile isIdle).filterMap ofPiece? = ps.filterMap ofPiece? := by
  conv_rhs => rw [← List.takeWhile_append_dropWhile (p := isIdle) (l := ps)]
  rw [List.filterMap_append, filterMap_ofPiece?_of_isIdle fun _ => List.mem_takeWhile_imp,
    List.nil_append]

theorem filterMap_trimPieces (ps : List (List UInt8)) :
    (trimPieces ps).filterMap ofPiece? = ps.filterMap ofPiece? := by
  conv_rhs => rw [← List.rdropWhile_append_rtakeWhile (p := isIdle) (l := ps)]
  rw [List.filterMap_append, filterMap_ofPiece?_of_isIdle fun _ => List.mem_rtakeWhile_imp,
    List.append_nil, trimPieces_eq]

theorem trimPieces_cases (ps : List (List UInt8)) : trimPieces ps = [] ∨
    ∃ before last, trimPieces ps = before ++ [last] ∧ isIdle last = false := by
  rcases List.eq_nil_or_concat (trimPieces ps) with h | ⟨before, last, h⟩
  · exact .inl h
  · rw [List.concat_eq_append] at h
    have hne : ps.rdropWhile isIdle ≠ [] := by
      rw [← trimPieces_eq, h]
      exact List.append_ne_nil_of_right_ne_nil _ (List.cons_ne_nil _ _)
    have hlast := List.rdropWhile_last_not isIdle ps hne
    exact .inr ⟨before, last, h, by simpa [← trimPieces_eq, h] using hlast⟩

def skip : Nat → List (List UInt8) → List (List UInt8)
  | 0, ps => ps
  | k + 1, ps => skip k (ps.dropWhile isIdle).tail

theorem filterMap_skip (k : Nat) (ps : List (List UInt8)) :
    (skip k ps).filterMap ofPiece? = (ps.filterMap ofPiece?).drop k := by
  induction k generalizing ps with
  | zero => rfl
  | succ k ih =>
    have htail : (ps.dropWhile isIdle).tail.filterMap ofPiece? =
        (ps.filterMap ofPiece?).tail := by
      rw [← filterMap_dropWhile_isIdle ps]
      cases hps : ps.dropWhile isIdle with
      | nil => rfl
      | cons piece rest =>
        have hpiece := List.head?_dropWhile_not isIdle ps
        rw [hps, List.head?_cons] at hpiece
        obtain ⟨c, hc⟩ := exists_ofPiece? (by simpa using hpiece)
        rw [List.tail_cons, List.filterMap_cons_some hc, List.tail_cons]
    rw [skip, ih, htail, List.drop_tail]

theorem skip_suffix (k : Nat) (ps : List (List UInt8)) : skip k ps <:+ ps := by
  induction k generalizing ps with
  | zero => exact List.suffix_rfl
  | succ k ih => exact (ih _).trans ((List.tail_suffix _).trans (List.dropWhile_suffix _))

/-- How pieces begin: at the root, at a dot that stays, or at once with what they name. -/
def lead : List (List UInt8) → List Component
  | [] => []
  | [] :: rest => if rest = [] then [] else [.root]
  | piece :: _ => if piece = [dot] then [.here] else []

def componentsOf (ps : List (List UInt8)) : List Component := lead ps ++ ps.filterMap ofPiece?

theorem lead_cases (ps : List (List UInt8)) :
    lead ps = [] ∨ lead ps = [.root] ∨ lead ps = [.here] := by
  unfold lead
  split
  · exact .inl rfl
  · split <;> simp
  · split <;> simp

theorem lead_append_cons (rest : List (List UInt8)) (h : ps ≠ []) :
    lead (ps ++ piece :: rest) =
      if ps.head? = some [] then [.root] else if ps.head? = some [dot] then [.here] else [] := by
  obtain ⟨first, ps, rfl⟩ := List.exists_cons_of_ne_nil h
  cases first with
  | nil => simp [lead]
  | cons b bs => simp [lead]

theorem lead_of_not_isIdle (h : isIdle piece = false) (rest : List (List UInt8)) :
    lead (piece :: rest) = [] := by
  have hpiece : piece ≠ [] ∧ piece ≠ [dot] := by simpa [isIdle] using h
  obtain ⟨b, bs, rfl⟩ := List.exists_cons_of_ne_nil hpiece.1
  exact if_neg hpiece.2

theorem lead_append (h : ∃ piece ∈ ps, isIdle piece = false) (more : List (List UInt8)) :
    lead (ps ++ more) = lead ps := by
  obtain ⟨piece, hmem, hpiece⟩ := h
  obtain ⟨first, rest, rfl⟩ := List.exists_cons_of_ne_nil (List.ne_nil_of_mem hmem)
  cases first with
  | cons b bs => rfl
  | nil =>
    have hrest : rest ≠ [] := by
      rintro rfl
      cases List.mem_singleton.1 hmem
      cases hpiece
    simp [lead, hrest]

theorem lead_of_prefix (h : ps ++ [piece] <+: qs) (hp : isIdle piece = false) :
    lead (ps ++ [piece]) = lead qs := by
  obtain ⟨rest, rfl⟩ := h
  exact (lead_append ⟨piece, by simp, hp⟩ rest).symm

theorem lead_trimPieces_dropWhile (ps : List (List UInt8)) :
    lead (trimPieces (ps.dropWhile isIdle)) = [] := by
  rcases trimPieces_cases (ps.dropWhile isIdle) with hnil | ⟨before, last, hconcat, hlast⟩
  · rw [hnil]
    rfl
  · have hprefix := List.rdropWhile_prefix isIdle (ps.dropWhile isIdle)
    rw [← trimPieces_eq, hconcat] at hprefix
    rw [hconcat, lead_of_prefix hprefix hlast]
    cases hps : ps.dropWhile isIdle with
    | nil => rfl
    | cons first rest =>
      exact lead_of_not_isIdle (by simpa [hps] using List.head?_dropWhile_not isIdle ps) rest

theorem componentsOf_append_cons (rest : List (List UInt8)) (h : ps ≠ []) (hrest : rest ≠ [])
    (hp : isIdle piece = true) :
    componentsOf (ps ++ piece :: rest) = componentsOf (ps ++ rest) := by
  obtain ⟨next, rest, rfl⟩ := List.exists_cons_of_ne_nil hrest
  rw [componentsOf, componentsOf, lead_append_cons _ h, lead_append_cons _ h,
    List.filterMap_append, List.filterMap_cons_none (ofPiece?_eq_none_iff.2 hp),
    List.filterMap_append]

theorem componentsOf_concat_nil (h : ps ≠ []) (h' : ps ≠ [[]]) :
    componentsOf (ps ++ [[]]) = componentsOf ps := by
  have hlead : lead (ps ++ [[]]) = lead ps := by
    obtain ⟨first, rest, rfl⟩ := List.exists_cons_of_ne_nil h
    rw [lead_append_cons _ h, List.head?_cons]
    cases first with
    | nil =>
      have hrest : rest ≠ [] := fun hnil => h' (by rw [hnil])
      simp [lead, hrest]
    | cons b bs => simp [lead]
  rw [componentsOf, hlead, List.filterMap_append]
  exact congrArg _ (List.append_nil _)

end Pieces

section Spelling

variable {p q root : Path} {ps : List (List UInt8)}

theorem lead_pieces (p : Path) : lead p.pieces = if p.isAbsolute then [Component.root]
    else if p.pieces.head? = some [dot] then [Component.here] else [] := by
  obtain ⟨bytes⟩ := p
  cases bytes with
  | nil => rfl
  | cons b bs =>
    have hne : Text.fields slash bs ≠ [] := Text.fields_ne_nil
    by_cases hb : b = slash
    · subst hb
      simp [pieces, Text.fields, isAbsolute, lead, hne]
    · obtain ⟨piece, rest, hf⟩ := List.exists_cons_of_ne_nil hne
      simp [pieces, Text.fields, isAbsolute, hb, hf, lead]

theorem components_eq (p : Path) : p.components = componentsOf p.pieces := by
  rw [componentsOf, lead_pieces, components]

theorem isAbsolute_iff : p.isAbsolute = true ↔ lead p.pieces = [.root] := by
  rw [lead_pieces]
  split
  · rename_i h
    exact iff_of_true h rfl
  · rename_i h
    refine iff_of_false h ?_
    split <;> simp

theorem here_notMem_tail_components (p : Path) : Component.here ∉ p.components.tail := by
  have hnames : Component.here ∉ p.pieces.filterMap ofPiece? := fun h => by
    obtain ⟨piece, -, hpiece⟩ := List.mem_filterMap.1 h
    simpa using eq_of_ofPiece? hpiece
  rw [components_eq, componentsOf]
  rcases lead_cases p.pieces with h | h | h <;> rw [h]
  · exact fun hmem => hnames (List.mem_of_mem_tail hmem)
  · exact hnames
  · exact hnames

/-- Pieces are read off the path that they are joined to. -/
theorem components_intercalate (h : ∀ piece ∈ ps, slash ∉ piece) :
    components ⟨[slash].intercalate ps⟩ = componentsOf ps := by
  by_cases hps : ps = []
  · rw [hps]
    rfl
  · rw [components_eq, pieces, Text.fields_intercalate h hps]

/-- The path that the first of a path's pieces spell, as far as they name something. -/
def cut (p : Path) (ps : List (List UInt8)) : Path :=
  match trimPieces ps with
  | [] => ofComponents (lead p.pieces)
  | before => ⟨[slash].intercalate before⟩

theorem components_cut (h : ps <+: p.pieces) :
    (p.cut ps).components = lead p.pieces ++ ps.filterMap ofPiece? := by
  have htrim : trimPieces ps <+: p.pieces := (List.rdropWhile_prefix isIdle ps).trans h
  rw [cut]
  rcases trimPieces_cases ps with hnil | ⟨before, last, hconcat, hlast⟩
  · have hlead : (ofComponents (lead p.pieces)).components = lead p.pieces := by
      rcases lead_cases p.pieces with hl | hl | hl <;> rw [hl] <;> rfl
    rw [← filterMap_trimPieces, hnil, List.filterMap_nil, List.append_nil]
    exact hlead
  · have hne : before ++ [last] ≠ [] := by simp
    rw [← filterMap_trimPieces, ← lead_of_prefix (hconcat ▸ htrim) hlast, ← hconcat]
    split
    · rename_i hnil
      exact absurd (hconcat.symm.trans hnil) hne
    · exact components_intercalate fun piece hp => Text.notMem_of_mem_fields (htrim.subset hp)

/-- What stands of a path behind its first components. Behind none of them it is the path
without what ends it and names nothing. -/
def behind (p : Path) : Nat → Path
  | 0 => p.cut p.pieces
  | k + 1 => ⟨[slash].intercalate
      (trimPieces ((skip (k + 1 - (lead p.pieces).length) p.pieces).dropWhile isIdle))⟩

theorem components_behind (p : Path) (k : Nat) :
    (p.behind k).components = p.components.drop k := by
  cases k with
  | zero => rw [behind, components_cut List.prefix_rfl, List.drop_zero, components_eq, componentsOf]
  | succ k =>
    -- What leads the pieces names nothing as a piece, so only the components behind it are skipped
    have hlength : (lead p.pieces).length ≤ k + 1 := by
      rcases lead_cases p.pieces with h | h | h <;> simp [h]
    have hnot (piece : List UInt8) (hp : piece ∈ trimPieces
        ((skip (k + 1 - (lead p.pieces).length) p.pieces).dropWhile isIdle)) : slash ∉ piece :=
      Text.notMem_of_mem_fields ((skip_suffix _ _).subset
        ((List.dropWhile_suffix _).subset ((List.rdropWhile_prefix isIdle _).subset hp)))
    rw [behind, components_intercalate hnot, componentsOf, lead_trimPieces_dropWhile,
      List.nil_append, filterMap_trimPieces, filterMap_dropWhile_isIdle, filterMap_skip,
      components_eq, componentsOf, List.drop_append, List.drop_of_length_le hlength,
      List.nil_append]

section Parent

variable {before : List (List UInt8)} {last : List UInt8}

theorem components_of_trimPieces {c : Component} (h : trimPieces p.pieces = before ++ [last])
    (hc : ofPiece? last = some c) :
    p.components = (lead p.pieces ++ before.filterMap ofPiece?) ++ [c] := by
  rw [components_eq, componentsOf, ← filterMap_trimPieces, h, List.filterMap_append,
    List.filterMap_cons_some hc, List.append_assoc]
  rfl

/-- The parent of a path is cut off before the last piece that names something. -/
theorem parent?_eq_cut (h : trimPieces p.pieces = before ++ [last]) (hlast : isIdle last = false) :
    p.parent? = some (p.cut before) := by
  obtain ⟨c, hc⟩ := exists_ofPiece? hlast
  have hname := eq_of_ofPiece? hc
  cases c with
  | root | here => simp at hname
  | up | name _ =>
    rw [parent?, h, components_of_trimPieces h hc, List.getLast?_concat, List.dropLast_concat,
      List.dropLast_concat, cut]
    cases ht : trimPieces before with
    | nil =>
      rw [← filterMap_trimPieces before, ht, List.filterMap_nil, List.append_nil]
    | cons first rest => rfl

theorem prefix_of_trimPieces (h : trimPieces p.pieces = before ++ [last]) :
    before ++ [last] <+: p.pieces := h ▸ List.rdropWhile_prefix isIdle p.pieces

theorem eq_of_parent?_of_trimPieces (h : p.parent? = some q) (hnil : trimPieces p.pieces = []) :
    p.components = [.here] ∧ q = ⟨[]⟩ := by
  have hall : p.components = lead p.pieces := by
    rw [components_eq, componentsOf, ← filterMap_trimPieces, hnil]
    exact List.append_nil _
  rw [parent?, hnil, hall] at h
  rw [hall]
  rcases lead_cases p.pieces with hl | hl | hl <;> rw [hl] at h ⊢ <;> cases h
  exact ⟨rfl, rfl⟩

theorem components_of_parent? (h : p.parent? = some q) :
    q.components = p.components.dropLast := by
  rcases trimPieces_cases p.pieces with hnil | ⟨before, last, hconcat, hlast⟩
  · obtain ⟨hhere, rfl⟩ := eq_of_parent?_of_trimPieces h hnil
    rw [hhere]
    rfl
  · obtain ⟨c, hc⟩ := exists_ofPiece? hlast
    have hbefore := (List.prefix_append before [last]).trans (prefix_of_trimPieces hconcat)
    cases (parent?_eq_cut hconcat hlast).symm.trans h
    rw [components_cut hbefore, components_of_trimPieces hconcat hc, List.dropLast_concat]

end Parent

theorem exists_parent? {n : Name} (h : p.components.getLast? = some (.name n)) :
    ∃ q, p.parent? = some q := by
  rw [parent?, h]
  simp only
  split <;> exact ⟨_, rfl⟩

def relativeTo? (p root : Path) : Option Path :=
  if root.components.isPrefixOf p.components then some (p.behind root.components.length) else none

theorem stripPrefix?_eq_some_iff {rest : List Component} :
    p.stripPrefix? root = some rest ↔ p.components = root.components ++ rest := by
  rw [stripPrefix?]
  split
  · rename_i h
    obtain ⟨after, hafter⟩ := List.isPrefixOf_iff_prefix.1 h
    rw [← hafter, List.drop_left, Option.some_inj, List.append_right_inj]
  · rename_i h
    refine iff_of_false (Option.some_ne_none rest).symm fun hrest => h ?_
    exact List.isPrefixOf_iff_prefix.2 ⟨rest, hrest.symm⟩

theorem map_components_relativeTo? (p root : Path) :
    (p.relativeTo? root).map components = p.stripPrefix? root := by
  rw [relativeTo?, stripPrefix?, ← components_behind]
  split <;> rfl

example : (ofString "/w//a/./b/.").relativeTo? (ofString "/w/") = some (ofString "a/./b") := by
  decide

end Spelling

section Pads

/-- A spelling with one more slash beside another, one more dot between two slashes, or one
more slash at its end. -/
inductive Pads : Path → Path → Prop
  | repeated (before after : List UInt8) :
    Pads ⟨before ++ slash :: after⟩ ⟨before ++ slash :: slash :: after⟩
  | inner (before after : List UInt8) :
    Pads ⟨before ++ slash :: after⟩ ⟨before ++ slash :: dot :: slash :: after⟩
  | trailing {bytes : List UInt8} (h : bytes ≠ []) : Pads ⟨bytes⟩ ⟨bytes ++ [slash]⟩

theorem Pads.components {p q : Path} (h : Pads p q) : p.components = q.components := by
  simp only [components_eq, pieces]
  cases h with
  | repeated before after =>
    rw [Text.fields_append_cons, Text.fields_append_cons]
    exact (componentsOf_append_cons _ Text.fields_ne_nil Text.fields_ne_nil rfl).symm
  | inner before after =>
    rw [Text.fields_append_cons, Text.fields_append_cons]
    exact (componentsOf_append_cons _ Text.fields_ne_nil Text.fields_ne_nil rfl).symm
  | @trailing bytes h =>
    rw [Text.fields_append_cons]
    refine (componentsOf_concat_nil Text.fields_ne_nil fun hf => h ?_).symm
    exact Text.eq_nil_of_fields hf

/-- Paths that differ in padding alone have the same components. -/
theorem components_of_eqvGen {p q : Path} (h : Relation.EqvGen Pads p q) :
    p.components = q.components := by
  induction h with
  | rel _ _ h => exact h.components
  | refl _ => rfl
  | symm _ _ _ ih => exact ih.symm
  | trans _ _ _ _ _ ih ih' => exact ih.trans ih'

end Pads

end MemberIndex.Path
