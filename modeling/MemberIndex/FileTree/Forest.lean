import MemberIndex.Path.Basic

/-! # Forests

Values by location, which is the list of names from the top down. The names that stand
side by side are in order, and what is below a name hangs from it, so that one step down
is one search among siblings. A name may have no value of its own.
-/

namespace MemberIndex

abbrev Location := List Name

inductive Forest (α : Type)
  | nil
  | cons (name : Name) (value : Option α) (below siblings : Forest α)

namespace Forest

variable {α : Type}

def child (n : Name) : Forest α → Option α × Forest α
  | nil => (none, nil)
  | cons m a below siblings =>
    match compare n m with
    | .lt => (none, nil)
    | .eq => (a, below)
    | .gt => siblings.child n

def setChild (n : Name) (x : Option α × Forest α) : Forest α → Forest α
  | nil => cons n x.1 x.2 nil
  | cons m a below siblings =>
    match compare n m with
    | .lt => cons n x.1 x.2 (cons m a below siblings)
    | .eq => cons n x.1 x.2 siblings
    | .gt => cons m a below (siblings.setChild n x)

def get? : Location → Forest α → Option α
  | [], _ => none
  | [n], f => (f.child n).1
  | n :: m :: l, f => (f.child n).2.get? (m :: l)

def under : Location → Forest α → Forest α
  | [], f => f
  | n :: l, f => (f.child n).2.under l

def set (a : Option α) : Location → Forest α → Forest α
  | [], f => f
  | [n], f => f.setChild n (a, (f.child n).2)
  | n :: m :: l, f => f.setChild n ((f.child n).1, (f.child n).2.set a (m :: l))

def mapAt (g : Location → α → α) : Forest α → Forest α
  | nil => nil
  | cons n a below siblings =>
    cons n (a.map (g [n])) (below.mapAt fun l => g (n :: l)) (siblings.mapAt g)

def toList : Forest α → List (Location × α)
  | nil => []
  | cons n a below siblings =>
    (a.toList.map fun a => ([n], a)) ++
      (below.toList.map fun (l, a) => (n :: l, a)) ++ siblings.toList

def names : Forest α → List Name
  | nil => []
  | cons n _ _ siblings => n :: siblings.names

/-- Siblings rise by their names, at the top and below it. -/
def Ordered : Forest α → Prop
  | nil => True
  | cons n _ below siblings =>
    (∀ m ∈ siblings.names, compare n m = .lt) ∧ below.Ordered ∧ siblings.Ordered

theorem child_setChild (n m : Name) (x : Option α × Forest α) (f : Forest α) :
    (f.setChild n x).child m = if n = m then x else f.child m := by
  induction f with
  | nil =>
    by_cases h : n = m
    · subst h; simp [setChild, child]
    · have : compare m n ≠ .eq := by simpa using Ne.symm h
      cases hc : compare m n <;> simp_all [setChild, child]
  | cons k a below siblings _ ih =>
    cases hc : compare n k with
    | lt =>
      by_cases h : n = m
      · subst h; simp [setChild, child, hc]
      · have hm : compare m n ≠ .eq := by simpa using Ne.symm h
        cases hd : compare m n with
        | lt => simp [setChild, child, hc, hd, h, Std.TransCmp.lt_trans hd hc]
        | eq => exact absurd hd hm
        | gt => simp [setChild, child, hc, hd, h]
    | eq =>
      obtain rfl : n = k := by simpa using hc
      by_cases h : n = m
      · subst h; simp [setChild, child]
      · have hm : compare m n ≠ .eq := by simpa using Ne.symm h
        cases hd : compare m n <;> simp_all [setChild, child]
    | gt =>
      by_cases h : n = m
      · subst h; simp [setChild, child, hc, ih]
      · simp [setChild, child, hc, h, ih]

theorem get?_set {l : Location} (hl : l ≠ []) (a : Option α) (f : Forest α) (m : Location) :
    (f.set a l).get? m = if l = m then a else f.get? m := by
  fun_induction set a l f generalizing m with
  | case1 => contradiction
  | case2 n f =>
    match m with
    | [] => simp [get?]
    | [k] => by_cases h : n = k <;> simp [get?, child_setChild, h]
    | k :: k' :: r => by_cases h : n = k <;> simp [get?, child_setChild, h]
  | case3 n o l f ih =>
    match m with
    | [] => simp [get?]
    | [k] => by_cases h : n = k <;> simp [get?, child_setChild, h]
    | k :: k' :: r =>
      by_cases h : n = k
      · subst h; simp [get?, child_setChild, ih]
      · simp [get?, child_setChild, h]

theorem get?_set_of_ne {l m : Location} (h : l ≠ m) (a : Option α) (f : Forest α) :
    (f.set a l).get? m = f.get? m := by
  by_cases hl : l = []
  · subst hl
    rfl
  · rw [get?_set hl, if_neg h]

theorem child_mapAt (g : Location → α → α) (n : Name) (f : Forest α) : (f.mapAt g).child n =
    ((f.child n).1.map (g [n]), (f.child n).2.mapAt fun l => g (n :: l)) := by
  induction f with
  | nil => rfl
  | cons m a below siblings _ ih =>
    cases hc : compare n m with
    | lt | gt => simp [mapAt, child, hc, ih]
    | eq =>
      obtain rfl : n = m := by simpa using hc
      simp [mapAt, child]

theorem get?_mapAt (g : Location → α → α) (l : Location) (f : Forest α) :
    (f.mapAt g).get? l = (f.get? l).map (g l) := by
  induction l generalizing f g with
  | nil => rfl
  | cons n l ih =>
    cases l with
    | nil => rw [get?, child_mapAt, get?]
    | cons m l => rw [get?, child_mapAt, get?, ih]

theorem names_mapAt (g : Location → α → α) (f : Forest α) : (f.mapAt g).names = f.names := by
  induction f with
  | nil => rfl
  | cons n a below siblings _ ih => rw [mapAt, names, names, ih]

theorem get?_append_singleton (l : Location) (n : Name) (f : Forest α) :
    f.get? (l ++ [n]) = ((f.under l).child n).1 := by
  induction l generalizing f with
  | nil => rfl
  | cons m l ih =>
    cases l with
    | nil => rfl
    | cons k l => exact ih _

theorem under_append (l r : Location) (f : Forest α) :
    f.under (l ++ r) = (f.under l).under r := by
  induction l generalizing f with
  | nil => rfl
  | cons n l ih => exact ih _

theorem mem_names_setChild {n m : Name} {x : Option α × Forest α} {f : Forest α}
    (h : m ∈ (f.setChild n x).names) : m = n ∨ m ∈ f.names := by
  induction f with
  | nil => simpa [setChild, names] using h
  | cons k a below siblings _ ih =>
    cases hc : compare n k with
    | lt => simpa [setChild, names, hc] using h
    | eq => simp [setChild, names, hc] at h ⊢; grind
    | gt => simp [setChild, names, hc] at h ⊢; grind

theorem ordered_child {f : Forest α} (hf : f.Ordered) (n : Name) : (f.child n).2.Ordered := by
  induction f with
  | nil => exact hf
  | cons k a below siblings _ ih =>
    obtain ⟨_, hb, hs⟩ := hf
    cases hc : compare n k <;> simp_all [child, Ordered]

theorem ordered_setChild {f : Forest α} (hf : f.Ordered) (n : Name)
    {x : Option α × Forest α} (hx : x.2.Ordered) : (f.setChild n x).Ordered := by
  induction f with
  | nil => simp [setChild, Ordered, names, hx]
  | cons k a below siblings _ ih =>
    obtain ⟨hn, hb, hs⟩ := hf
    cases hc : compare n k with
    | lt =>
      have : (cons k a below siblings).setChild n x =
          cons n x.1 x.2 (cons k a below siblings) := by simp [setChild, hc]
      rw [this]
      refine ⟨fun m hm => ?_, hx, hn, hb, hs⟩
      rcases List.mem_cons.1 hm with rfl | hm
      · exact hc
      · exact Std.TransCmp.lt_trans hc (hn m hm)
    | eq =>
      obtain rfl : n = k := by simpa using hc
      simpa [setChild, Ordered] using ⟨hn, hx, hs⟩
    | gt =>
      have : (cons k a below siblings).setChild n x = cons k a below (siblings.setChild n x) := by
        simp [setChild, hc]
      rw [this]
      refine ⟨fun m hm => ?_, hb, ih hs⟩
      rcases mem_names_setChild hm with rfl | hm
      · exact Std.OrientedCmp.lt_of_gt hc
      · exact hn m hm

theorem ordered_set {f : Forest α} (hf : f.Ordered) (a : Option α) (l : Location) :
    (f.set a l).Ordered := by
  fun_induction set a l f with
  | case1 => exact hf
  | case2 n f => exact ordered_setChild hf n (ordered_child hf n)
  | case3 n m l f ih => exact ordered_setChild hf n (ih (ordered_child hf n))

theorem ordered_mapAt {f : Forest α} (hf : f.Ordered) (g : Location → α → α) :
    (f.mapAt g).Ordered := by
  induction f generalizing g with
  | nil => exact hf
  | cons n a below siblings ihb ihs =>
    obtain ⟨hn, hb, hs⟩ := hf
    exact ⟨by rwa [names_mapAt], ihb hb _, ihs hs _⟩

theorem get?_cons (n : Name) (l : Location) (f : Forest α) :
    f.get? (n :: l) = if l = [] then (f.child n).1 else (f.child n).2.get? l := by
  cases l <;> simp [get?]

theorem get?_nil (l : Location) : (nil : Forest α).get? l = none := by
  induction l with
  | nil => rfl
  | cons n l ih => simp [get?_cons, child, ih]

theorem child_of_lt {n : Name} {f : Forest α} (h : ∀ m ∈ f.names, compare n m = .lt) :
    f.child n = (none, nil) := by
  cases f with
  | nil => rfl
  | cons m a below siblings => simp [child, h m (by simp [names])]

theorem mem_toList_iff {f : Forest α} (hf : f.Ordered) (l : Location) (a : α) :
    (l, a) ∈ f.toList ↔ f.get? l = some a := by
  induction f generalizing l with
  | nil => simp [toList, get?_nil]
  | cons n b below siblings ihb ihs =>
    obtain ⟨hn, hb, hs⟩ := hf
    cases l with
    | nil => simpa [toList, get?] using ihs hs []
    | cons k l =>
      have hmem : (k :: l, a) ∈ (cons n b below siblings).toList ↔
          (b = some a ∧ k = n ∧ l = []) ∨ (k = n ∧ (l, a) ∈ below.toList) ∨
            (k :: l, a) ∈ siblings.toList := by
        simp [toList]; grind
      rw [hmem, ihb hb, ihs hs, get?_cons, get?_cons]
      cases hc : compare k n with
      | lt =>
        have hk : k ≠ n := fun h => by simp [h] at hc
        have := child_of_lt fun m hm => Std.TransCmp.lt_trans hc (hn m hm)
        simp [child, hc, hk, this, get?_nil]
      | eq =>
        obtain rfl : k = n := by simpa using hc
        have := child_of_lt hn
        cases l with
        | nil => simp [child, this, get?]
        | cons m l => simp [child, this, get?_nil]
      | gt =>
        have hk : k ≠ n := fun h => by simp [h] at hc
        simp [child, hc, hk]

end Forest

end MemberIndex
