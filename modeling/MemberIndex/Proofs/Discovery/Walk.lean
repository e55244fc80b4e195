import MemberIndex.Proofs.Path.Below

/-! # Walks below a root

A walk comes upon what a forest holds, in the order of the locations, as far as directories
that can be read lead to it.
-/

namespace MemberIndex

namespace Forest

section Order

variable {α : Type} {f : Forest α} {n k : Name} {a : Option α} {below siblings : Forest α}

theorem ordered_under (hf : f.Ordered) (l : Location) : (f.under l).Ordered := by
  induction l generalizing f with
  | nil => exact hf
  | cons n l ih => exact ih (ordered_child hf n)

theorem child_cons_self : (cons n a below siblings).child n = (a, below) := by
  simp [child]

theorem child_cons_of_mem (hf : (cons n a below siblings).Ordered) (hk : k ∈ siblings.names) :
    (cons n a below siblings).child k = siblings.child k := by
  have hgt : compare k n = .gt := Std.OrientedCmp.gt_of_lt (hf.1 k hk)
  rw [child, hgt]

theorem mem_toList_cons {x : Location × α} : x ∈ (cons n a below siblings).toList ↔
    (∃ b, a = some b ∧ x = ([n], b)) ∨ (∃ y ∈ below.toList, x = (n :: y.1, y.2)) ∨
      x ∈ siblings.toList := by
  simp [toList, eq_comm]

theorem exists_name_of_mem_toList {x : Location × α} (hx : x ∈ f.toList) :
    ∃ n l, x.1 = n :: l ∧ n ∈ f.names := by
  induction f with
  | nil => cases hx
  | cons n a below siblings _ ih =>
    obtain ⟨b, -, rfl⟩ | ⟨y, -, rfl⟩ | hx := mem_toList_cons.1 hx
    · exact ⟨n, [], rfl, List.mem_cons_self⟩
    · exact ⟨n, y.1, rfl, List.mem_cons_self⟩
    · obtain ⟨k, l, hl, hk⟩ := ih hx
      exact ⟨k, l, hl, List.mem_cons_of_mem n hk⟩

theorem pairwise_toList (hf : f.Ordered) :
    f.toList.Pairwise fun x y => compare x.1 y.1 = .lt := by
  induction f with
  | nil => exact .nil
  | cons n a below siblings ihb ihs =>
    obtain ⟨hn, hb, hs⟩ := hf
    have hdown (l m : Location) : compare (n :: l) (n :: m) = compare l m :=
      Path.compare_append_left [n] l m
    have haside {x y : Location × α} (l : Location) (hx : x.1 = n :: l)
        (hy : y ∈ siblings.toList) : compare x.1 y.1 = .lt := by
      obtain ⟨k, m, hm, hk⟩ := exists_name_of_mem_toList hy
      rw [hx, hm, List.compare_eq_compareLex, List.compareLex_cons_cons, hn k hk]
      rfl
    rw [toList, List.pairwise_append, List.pairwise_append]
    refine ⟨⟨?_, ?_, ?_⟩, ihs hs, ?_⟩
    · cases a with
      | none => exact .nil
      | some a => exact List.pairwise_singleton _ _
    · rw [List.pairwise_map]
      exact (ihb hb).imp fun h => (hdown _ _).trans h
    · intro x hx y hy
      obtain ⟨b, -, rfl⟩ := List.mem_map.1 hx
      obtain ⟨z, hz, rfl⟩ := List.mem_map.1 hy
      obtain ⟨k, m, hm, -⟩ := exists_name_of_mem_toList hz
      change compare [n] (n :: z.1) = .lt
      rw [hdown, hm]
      rfl
    · intro x hx y hy
      rcases List.mem_append.1 hx with hx | hx
      · obtain ⟨b, -, rfl⟩ := List.mem_map.1 hx
        exact haside [] rfl hy
      · obtain ⟨z, -, rfl⟩ := List.mem_map.1 hx
        exact haside z.1 rfl hy

end Order

end Forest

/-- Whether the system reads a directory at a location below a root: the path is not too
long. -/
def Path.Reads (root : Path) (l : Location) : Prop :=
  (root.below l).bytes.length < FileTree.pathLimit

instance (root : Path) (l : Location) : Decidable (root.Reads l) :=
  inferInstanceAs (Decidable (_ < _))

namespace Forest

/-- A walk that has come to a location goes down further names: each of them is a directory,
and one that can be read. -/
def Opens (root : Path) (l : Location) : Forest Entry → Location → Prop
  | _, [] => True
  | f, n :: m => ((f.child n).1 = some .directory ∧ root.Reads (l ++ [n])) ∧
    Opens root (l ++ [n]) (f.child n).2 m

instance decidableOpens (root : Path) :
    (l : Location) → (f : Forest Entry) → (m : Location) → Decidable (f.Opens root l m)
  | _, _, [] => .isTrue trivial
  | l, f, n :: m =>
    have := decidableOpens root (l ++ [n]) (f.child n).2 m
    inferInstanceAs (Decidable (_ ∧ _))

variable {root : Path} {l m : Location} {n : Name} {f below siblings : Forest Entry}
  {e : Option Entry}

theorem opens_concat : f.Opens root l (m ++ [n]) ↔
    f.Opens root l m ∧ ((f.under m).child n).1 = some .directory ∧
      root.Reads (l ++ (m ++ [n])) := by
  induction m generalizing f l with
  | nil => simp [Opens, under]
  | cons k m ih => simp [Opens, under, ih, and_assoc]

def opened (root : Path) (l : Location) (f : Forest Entry) : List (Location × Entry) :=
  f.toList.filter fun x => f.Opens root l x.1.dropLast

theorem opened_cons (hf : (cons n e below siblings).Ordered) :
    (cons n e below siblings).opened root l = (e.toList.map fun a => ([n], a)) ++
      (if e = some .directory ∧ root.Reads (l ++ [n]) then
        (below.opened root (l ++ [n])).map fun (m, a) => (n :: m, a) else []) ++
      siblings.opened root l := by
  have hbelow (x : Location × Entry) (hx : x ∈ below.toList) :
      (cons n e below siblings).Opens root l (n :: x.1).dropLast ↔
        (e = some .directory ∧ root.Reads (l ++ [n])) ∧
          below.Opens root (l ++ [n]) x.1.dropLast := by
    obtain ⟨k, m, hm, -⟩ := exists_name_of_mem_toList hx
    rw [hm, List.dropLast_cons_cons, Opens, child_cons_self]
  have hbeside (x : Location × Entry) (hx : x ∈ siblings.toList) :
      (cons n e below siblings).Opens root l x.1.dropLast ↔
        siblings.Opens root l x.1.dropLast := by
    obtain ⟨k, m, hm, hk⟩ := exists_name_of_mem_toList hx
    rw [hm]
    cases m with
    | nil => rfl
    | cons k' m => rw [List.dropLast_cons_cons, Opens, Opens, child_cons_of_mem hf hk]
  rw [opened, toList, List.filter_append, List.filter_append]
  congr 1
  · congr 1
    · rw [List.filter_eq_self]
      intro x hx
      obtain ⟨a, -, rfl⟩ := List.mem_map.1 hx
      exact decide_eq_true trivial
    · rw [List.filter_map]
      split
      · rename_i h
        congr 1
        refine List.filter_congr fun x hx => decide_eq_decide.2 ?_
        exact (hbelow x hx).trans (and_iff_right h)
      · rename_i h
        rw [List.map_eq_nil_iff, List.filter_eq_nil_iff]
        intro x hx
        exact mt of_decide_eq_true fun ho => h ((hbelow x hx).1 ho).1
  · exact List.filter_congr fun x hx => decide_eq_decide.2 (hbeside x hx)

end Forest

namespace Discovery

def told (root : Path) (l : Location) (e : Entry) : List Encounter :=
  .entry (root.below l) e ::
    if e = .directory ∧ ¬ root.Reads l then [.unreadable (root.below l) (.os .nameTooLong)] else []

variable {root : Path} {l : Location}

theorem walk_cons {n : Name} {e : Option Entry} {below siblings : Forest Entry} :
    walk (root.below l) (.cons n e below siblings) = e.toList.flatMap (told root (l ++ [n])) ++
      (if e = some .directory ∧ root.Reads (l ++ [n]) then walk (root.below (l ++ [n])) below
        else []) ++ walk (root.below l) siblings := by
  have hjoin : (root.below l).join ⟨n⟩ = root.below (l ++ [n]) := (Path.below_concat ..).symm
  conv_lhs => unfold walk
  rw [hjoin]
  cases e with
  | none => rfl
  | some e =>
    cases e with
    | directory =>
      by_cases hr : (root.below (l ++ [n])).bytes.length < FileTree.pathLimit
      · simp [told, Path.Reads, hr]
      · simp [told, Path.Reads, hr]
    | file _ | link _ | device _ => simp [told]

/-- A walk tells of the entries that its directories lead to, in the order of their
locations. -/
theorem walk_eq_flatMap {f : Forest Entry} (hf : f.Ordered) (l : Location) :
    walk (root.below l) f = (f.opened root l).flatMap fun x => told root (l ++ x.1) x.2 := by
  induction f generalizing l with
  | nil => rfl
  | cons n e below siblings ihb ihs =>
    rw [walk_cons, Forest.opened_cons hf, List.flatMap_append, List.flatMap_append, ihs hf.2.2,
      List.flatMap_map]
    congr 2
    split
    · rw [ihb hf.2.1, List.flatMap_map]
      simp only [List.append_assoc, List.singleton_append]
    · rfl

end Discovery

end MemberIndex
