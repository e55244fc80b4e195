import Mathlib.Data.List.Basic
import Mathlib.Data.List.Induction
import MemberIndex.Discovery
import MemberIndex.Identity
import MemberIndex.Proofs.Text.Lines

/-! # Paths below a root

A path that is spelled from a root and from names of entries has the root's components and
then these names, however the root is spelled. What is read off such a path is read off the
names: its extension, its place in the order of paths, and its identity.
-/

namespace MemberIndex

structure IsEntryName (n : Name) : Prop where
  ne_nil : n ≠ []
  ne_here : n ≠ [Path.dot]
  ne_up : n ≠ [Path.dot, Path.dot]
  slash_notMem : Path.slash ∉ n

theorem isEntryName_iff {n : Name} : IsEntryName n ↔
    (n ≠ [] ∧ n ≠ [Path.dot] ∧ n ≠ [Path.dot, Path.dot]) ∧ Path.slash ∉ n := by
  constructor
  · rintro ⟨h₁, h₂, h₃, h₄⟩
    exact ⟨⟨h₁, h₂, h₃⟩, h₄⟩
  · rintro ⟨⟨h₁, h₂, h₃⟩, h₄⟩
    exact ⟨h₁, h₂, h₃, h₄⟩

instance (n : Name) : Decidable (IsEntryName n) := decidable_of_iff' _ isEntryName_iff

namespace Path

/-- The path of a location below a root. -/
def below (root : Path) (l : Location) : Path := root.extend (l.map .name)

theorem below_nil (root : Path) : root.below [] = root := rfl

theorem below_concat (root : Path) (l : Location) (n : Name) :
    root.below (l ++ [n]) = (root.below l).join ⟨n⟩ := by
  rw [below, extend, List.map_append, List.foldl_append]
  rfl

section Join

variable {p : Path} {n : Name}

theorem ofPiece?_of_isEntryName (hn : IsEntryName n) :
    Component.ofPiece? n = some (.name n) := by
  unfold Component.ofPiece?
  rw [if_neg (not_or.2 ⟨hn.ne_nil, hn.ne_here⟩), if_neg hn.ne_up]

theorem bytes_join (hp : p.bytes ≠ []) (hn : IsEntryName n) :
    ∃ before, (p.bytes = before ∨ p.bytes = before ++ [slash]) ∧
      (p.join ⟨n⟩).bytes = before ++ slash :: n := by
  have habs : ¬ (⟨n⟩ : Path).isAbsolute = true := by
    intro h
    have hhead : n.head? = some slash := by simpa [isAbsolute] using h
    exact hn.slash_notMem (List.mem_of_head? hhead)
  obtain ⟨as, b, hb⟩ := (List.eq_nil_or_concat p.bytes).resolve_left hp
  rw [List.concat_eq_append] at hb
  have hlast : p.bytes.getLast? = some b := by rw [hb, List.getLast?_concat]
  rw [join, if_neg habs, hlast]
  by_cases hs : b = slash
  · subst hs
    exact ⟨as, .inr hb, by simp [hb]⟩
  · exact ⟨p.bytes, .inl rfl, by simp [hs]⟩

theorem isAbsolute_join (hp : p.bytes ≠ []) (hn : IsEntryName n) :
    (p.join ⟨n⟩).isAbsolute = p.isAbsolute := by
  obtain ⟨before, hbytes, hjoin⟩ := bytes_join hp hn
  rw [isAbsolute, isAbsolute, hjoin]
  rcases hbytes with rfl | hbytes
  · rw [List.head?_append_of_ne_nil _ hp]
  · rw [hbytes, List.head?_append, List.head?_append]
    rfl

theorem pieces_join (hp : p.bytes ≠ []) (hn : IsEntryName n) :
    ∃ before, before ≠ [] ∧ (p.pieces = before ∨ p.pieces = before ++ [[]]) ∧
      (p.join ⟨n⟩).pieces = before ++ [n] := by
  obtain ⟨before, hbytes, hjoin⟩ := bytes_join hp hn
  refine ⟨Text.fields slash before, Text.fields_ne_nil, ?_, ?_⟩
  · rcases hbytes with rfl | hbytes
    · exact .inl rfl
    · right
      rw [pieces, hbytes, Text.fields_append_cons]
      rfl
  · rw [pieces, hjoin, Text.fields_append_cons, Text.fields_of_notMem hn.slash_notMem]

/-- A joined name is one more component, however the path before it is spelled. -/
theorem components_join (hp : p.bytes ≠ []) (hn : IsEntryName n) :
    (p.join ⟨n⟩).components = p.components ++ [.name n] := by
  obtain ⟨before, hne, hpieces, hjoin⟩ := pieces_join hp hn
  have hlast : [n].filterMap Component.ofPiece? = [.name n] := by
    rw [List.filterMap_cons_some (ofPiece?_of_isEntryName hn), List.filterMap_nil]
  have hsame : p.pieces.head? = before.head? ∧
      p.pieces.filterMap Component.ofPiece? = before.filterMap Component.ofPiece? := by
    rcases hpieces with hpieces | hpieces
    · rw [hpieces]
      exact ⟨rfl, rfl⟩
    · rw [hpieces, List.filterMap_append]
      exact ⟨List.head?_append_of_ne_nil _ hne, List.append_nil _⟩
  rw [components, components, isAbsolute_join hp hn, hjoin, List.head?_append_of_ne_nil _ hne,
    List.filterMap_append, hlast, hsame.1, hsame.2, List.append_assoc]

theorem bytes_join_ne_nil (hp : p.bytes ≠ []) (hn : IsEntryName n) : (p.join ⟨n⟩).bytes ≠ [] := by
  obtain ⟨before, -, hjoin⟩ := bytes_join hp hn
  rw [hjoin]
  exact List.append_ne_nil_of_right_ne_nil _ (List.cons_ne_nil _ _)

end Join

section Below

variable {root : Path} {l m : Location} {n : Name}

theorem components_below (hr : root.bytes ≠ []) (hl : ∀ n ∈ l, IsEntryName n) :
    (root.below l).components = root.components ++ l.map .name ∧ (root.below l).bytes ≠ [] := by
  induction l using List.reverseRecOn with
  | nil => exact ⟨(List.append_nil _).symm, hr⟩
  | append_singleton l n ih =>
    obtain ⟨hcomponents, hbytes⟩ := ih fun k hk => hl k (List.mem_append_left _ hk)
    have hn := hl n (List.mem_append_right _ (List.mem_singleton_self n))
    rw [below_concat, components_join hbytes hn, hcomponents, List.map_append, List.append_assoc]
    exact ⟨rfl, bytes_join_ne_nil hbytes hn⟩

theorem isAbsolute_below (hr : root.bytes ≠ []) (hl : ∀ n ∈ l, IsEntryName n) :
    (root.below l).isAbsolute = root.isAbsolute := by
  induction l using List.reverseRecOn with
  | nil => rfl
  | append_singleton l n ih =>
    have hl' (k : Name) (hk : k ∈ l) : IsEntryName k := hl k (List.mem_append_left _ hk)
    have hn := hl n (List.mem_append_right _ (List.mem_singleton_self n))
    rw [below_concat, isAbsolute_join (components_below hr hl').2 hn, ih hl']

theorem eq_of_below_eq (hr : root.bytes ≠ []) (hl : ∀ k ∈ l, IsEntryName k)
    (hm : ∀ k ∈ m, IsEntryName k) (h : root.below l = root.below m) : l = m := by
  have hcomponents := congrArg components h
  rw [(components_below hr hl).1, (components_below hr hm).1] at hcomponents
  exact List.map_injective_iff.2 (fun _ _ => Component.name.inj)
    (List.append_cancel_left hcomponents)

theorem fileName?_below (hr : root.bytes ≠ []) (hl : ∀ k ∈ l ++ [n], IsEntryName k) :
    (root.below (l ++ [n])).fileName? = some n := by
  rw [fileName?, (components_below hr hl).1, List.map_append, ← List.append_assoc,
    List.map_singleton, List.getLast?_concat]

theorem extension?_below (hr : root.bytes ≠ []) (hl : ∀ k ∈ l ++ [n], IsEntryName k) :
    (root.below (l ++ [n])).extension? = (splitName n).2 := by
  rw [extension?, fileName?_below hr hl, Option.bind_some]

theorem stripPrefix?_below (hr : root.bytes ≠ []) (hl : ∀ k ∈ l, IsEntryName k) :
    (root.below l).stripPrefix? root = some (l.map .name) := by
  have hprefix : root.components.isPrefixOf (root.components ++ l.map .name) = true :=
    List.isPrefixOf_iff_prefix.2 (List.prefix_append _ _)
  rw [stripPrefix?, (components_below hr hl).1, if_pos hprefix, List.drop_left]

end Below

section Order

variable {α β : Type} [Ord α] [Ord β]

theorem compare_append_left [Std.ReflCmp (compare : α → α → Ordering)] (as bs cs : List α) :
    compare (as ++ bs) (as ++ cs) = compare bs cs := by
  induction as with
  | nil => rfl
  | cons a as ih =>
    have hself : compare a a = .eq := Std.ReflCmp.compare_self
    rw [List.cons_append, List.cons_append, List.compare_eq_compareLex, List.compareLex_cons_cons,
      hself, Ordering.eq_then, ← List.compare_eq_compareLex, ih]

theorem compare_map {f : α → β} (hf : ∀ a b, compare (f a) (f b) = compare a b) (as bs : List α) :
    compare (as.map f) (bs.map f) = compare as bs := by
  rw [List.compare_eq_compareLex, List.compare_eq_compareLex]
  induction as generalizing bs with
  | nil => cases bs <;> rfl
  | cons a as ih =>
    cases bs with
    | nil => rfl
    | cons b bs =>
      rw [List.map_cons, List.map_cons, List.compareLex_cons_cons, List.compareLex_cons_cons, hf,
        ih]

theorem compare_below {root : Path} {l m : Location} (hr : root.bytes ≠ [])
    (hl : ∀ k ∈ l, IsEntryName k) (hm : ∀ k ∈ m, IsEntryName k) :
    compare (root.below l).sortKey (root.below m).sortKey = compare l m := by
  have hname (n k : Name) :
      compare (3 :: n.map UInt8.toNat) (3 :: k.map UInt8.toNat) = compare n k := by
    change compare ([3] ++ _) ([3] ++ _) = _
    rw [compare_append_left]
    exact compare_map (fun a b => (UInt8.compare_eq_toNat_compare_toNat a b).symm) n k
  simp only [sortKey, (components_below hr hl).1, (components_below hr hm).1, List.map_append,
    List.map_map, compare_append_left]
  exact compare_map hname l m

end Order

end Path

section Identity

open MemberIndex.Path

variable {root : Path} {l : Location} {n : Name}

theorem segments?_names (l : Location) :
    Identity.segments? (l.map .name) = some (l.map Text.Utf8.decode) := by
  induction l with
  | nil => rfl
  | cons n l ih => rw [List.map_cons, Identity.segments?, ih, Option.map_some, List.map_cons]

theorem Identity.ofComponents?_names (l : Location) (n : Name) :
    Identity.ofComponents? ((l ++ [n]).map .name) =
      some (".".intercalate (l.map Text.Utf8.decode ++ [Text.Utf8.decode (splitName n).1])) := by
  rw [Identity.ofComponents?, List.map_append, List.map_singleton, List.getLast?_concat,
    List.dropLast_concat]
  simp only [segments?_names, Option.map_some]

theorem identity?_of_stripPrefix {p : Path}
    (h : p.stripPrefix? root = some ((l ++ [n]).map .name)) :
    identity? root p =
      some (".".intercalate (l.map Text.Utf8.decode ++ [Text.Utf8.decode (splitName n).1])) := by
  rw [identity?, h, Option.bind_some, Identity.ofComponents?_names]

/-- The identity at a location below a root, whatever the root's spelling. -/
theorem identity?_below (hr : root.bytes ≠ []) (hl : ∀ k ∈ l ++ [n], IsEntryName k) :
    identity? root (root.below (l ++ [n])) =
      some (".".intercalate (l.map Text.Utf8.decode ++ [Text.Utf8.decode (splitName n).1])) :=
  identity?_of_stripPrefix (stripPrefix?_below hr hl)

end Identity

end MemberIndex
