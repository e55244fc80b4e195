import MemberIndex.Disassembler.Behaviour
import MemberIndex.FileTree.Forest

/-! # File trees

The entries of a file system by their location below the top directory, and the
directory that relative paths start from.
-/

namespace MemberIndex

/-- What a regular file holds: bytes, the code of a class given by what it makes a
disassembler do, or a disassembler. -/
inductive Content
  | data (bytes : List UInt8)
  | code (script : Script)
  | disassembler
deriving DecidableEq

structure File where
  content : Content := .data []
  executable : Bool := false
deriving DecidableEq

inductive Device
  | null
  | full
deriving DecidableEq

inductive Entry
  | directory
  | file (f : File)
  | link (target : List UInt8)
  | device (d : Device)
deriving DecidableEq

theorem not_shared_of_nil : ∀ (l m : Location) (n : Nat), (none : Option Nat) = some n →
    (none : Option Nat) = some n → ∃ f, (Forest.nil : Forest Entry).get? l = some (.file f) ∧
      (Forest.nil : Forest Entry).get? m = some (.file f) := by
  nofun

/-- Entries by their locations. A file of several names has a number that its names share, and
what is written under one of them stands under all. Nobody owns an entry, nothing but the
execution of a file needs a permission, and regular files never run out of room: what a system
refuses on such grounds is no matter of the tree (see `Report.Ends`). -/
structure FileTree where
  entries : Forest Entry := .nil
  current : Location := []
  node? : Location → Option Nat := fun _ => none
  ordered : entries.Ordered := by trivial
  shared : ∀ l m n, node? l = some n → node? m = some n →
    ∃ f, entries.get? l = some (.file f) ∧ entries.get? m = some (.file f) := by
      exact not_shared_of_nil

namespace Content

def bytes : Content → List UInt8
  | data b => b
  | _ => []

def append (c : Content) (more : List UInt8) : Content :=
  if more = [] then c else .data (c.bytes ++ more)

end Content

namespace Location

def path (l : Location) : Path := Path.extend ⟨[Path.slash]⟩ (l.map .name)

end Location

namespace FileTree

variable (t : FileTree)

def entryAt? (l : Location) : Option Entry :=
  if l = [] then some .directory else t.entries.get? l

/-- Whether two locations are one, or hold two names of one file. -/
def isSame (l m : Location) : Bool := l = m || (t.node? l).isSome && t.node? l = t.node? m

def assign (a : Option Entry) (l : Location) : FileTree where
  entries := t.entries.set a l
  current := t.current
  node? m := if m = l then none else t.node? m
  ordered := Forest.ordered_set t.ordered _ _
  shared k m n hk hm := by
    split at hk <;> split at hm <;> simp_all [Forest.get?_set_of_ne, t.shared k m n, Ne.symm]

def put (l : Location) (e : Entry) : FileTree := t.assign (some e) l

def erase (l : Location) : FileTree := t.assign none l

/-- Writes a file under all of its names. -/
def rewrite (l : Location) (f : File) : FileTree :=
  if t.node? l = none then t.put l (.file f)
  else
    { t with
      entries := t.entries.mapAt fun m e => if t.isSame l m then .file f else e
      ordered := Forest.ordered_mapAt t.ordered _
      shared := fun k m n hk hm => by
        obtain ⟨g, hgk, hgm⟩ := t.shared k m n hk hm
        have hsame : t.isSame l k = t.isSame l m := by grind [isSame]
        cases h : t.isSame l m <;> simp [Forest.get?_mapAt, hgk, hgm, hsame, h] }

/-- Takes the name at a location to another one, over what stands there. -/
def carry (l m : Location) (hm : m ≠ []) : FileTree where
  entries := (t.entries.set none l).set (t.entries.get? l) m
  current := t.current
  node? k := if k = m then t.node? l else if k = l then none else t.node? k
  ordered := Forest.ordered_set (Forest.ordered_set t.ordered _ _) _ _
  shared k k' n hk hk' := by
    -- each of the two holds what one of the two before held
    have hfrom (k : Location)
        (h : (if k = m then t.node? l else if k = l then none else t.node? k) = some n) :
        ∃ j, t.node? j = some n ∧
          ((t.entries.set none l).set (t.entries.get? l) m).get? k = t.entries.get? j := by
      split at h
      · rename_i hk
        exact ⟨l, h, by rw [Forest.get?_set hm, if_pos hk.symm]⟩
      split at h
      · cases h
      · rename_i hkm hkl
        refine ⟨k, h, ?_⟩
        rw [Forest.get?_set_of_ne (Ne.symm hkm), Forest.get?_set_of_ne (Ne.symm hkl)]
    obtain ⟨j, hj, hkj⟩ := hfrom k hk
    obtain ⟨j', hj', hkj'⟩ := hfrom k' hk'
    rw [hkj, hkj']
    exact t.shared j j' n hj hj'

def isDirectoryAt (l : Location) : Bool := t.entryAt? l = some .directory

variable {t} {l m : Location}

theorem entryAt?_put (t : FileTree) (hl : l ≠ []) (e : Entry) (m : Location) :
    (t.put l e).entryAt? m = if l = m then some e else t.entryAt? m := by
  by_cases hm : m = []
  · subst hm; simp [entryAt?, hl]
  · simp [entryAt?, put, assign, hm, Forest.get?_set hl]

theorem entryAt?_erase (t : FileTree) (hl : l ≠ []) (m : Location) :
    (t.erase l).entryAt? m = if l = m then none else t.entryAt? m := by
  by_cases hm : m = []
  · subst hm; simp [entryAt?, hl]
  · simp [entryAt?, erase, assign, hm, Forest.get?_set hl]

theorem entryAt?_of_node? {n : Nat} (hl : t.node? l = some n) (hm : t.node? m = some n) :
    ∃ f, t.entryAt? l = some (.file f) ∧ t.entryAt? m = some (.file f) := by
  obtain ⟨f, hfl, hfm⟩ := t.shared l m n hl hm
  have hne (k : Location) (hk : t.entries.get? k = some (.file f)) : k ≠ [] := by
    rintro rfl
    cases hk
  exact ⟨f, by rwa [entryAt?, if_neg (hne l hfl)], by rwa [entryAt?, if_neg (hne m hfm)]⟩

theorem node?_eq_none (h : ∀ f, t.entryAt? l ≠ some (.file f)) : t.node? l = none := by
  apply Option.eq_none_iff_forall_ne_some.2
  intro n hn
  obtain ⟨f, hf, -⟩ := entryAt?_of_node? hn hn
  exact h f hf

theorem isSame_iff :
    t.isSame l m = true ↔ l = m ∨ ∃ n, t.node? l = some n ∧ t.node? m = some n := by
  simp only [isSame, Bool.or_eq_true, Bool.and_eq_true, decide_eq_true_eq, Option.isSome_iff_exists]
  grind

theorem entryAt?_of_isSame (h : t.isSame l m = true) : t.entryAt? l = t.entryAt? m := by
  obtain rfl | ⟨n, hl, hm⟩ := isSame_iff.1 h
  · rfl
  · obtain ⟨f, hfl, hfm⟩ := entryAt?_of_node? hl hm
    rw [hfl, hfm]

theorem isSame_of_node?_eq_none (h : t.node? l = none) : t.isSame l m = decide (l = m) := by
  simp [isSame, h]

theorem isSame_of_entryAt?_eq_none (h : t.entryAt? l = none) : t.isSame l m = decide (l = m) :=
  isSame_of_node?_eq_none (node?_eq_none (by simp [h]))

/-- What is written to a file stands under all of its names. -/
theorem entryAt?_rewrite {g : File} (hl : t.entryAt? l = some (.file g)) (f : File) (m : Location) :
    (t.rewrite l f).entryAt? m = if t.isSame l m then some (.file f) else t.entryAt? m := by
  have hne : l ≠ [] := by
    rintro rfl
    cases hl
  unfold rewrite
  split
  · rename_i hn
    simp only [entryAt?_put t hne, isSame_of_node?_eq_none hn, decide_eq_true_eq]
  · by_cases hm : m = []
    · subst hm
      have hother : t.isSame l [] = false := by
        rw [Bool.eq_false_iff]
        intro h
        cases hl.symm.trans (entryAt?_of_isSame h)
      simp [entryAt?, hother]
    · cases h : t.isSame l m with
      | false => simp [entryAt?, hm, Forest.get?_mapAt, h]
      | true =>
        have hget := (entryAt?_of_isSame h).symm.trans hl
        rw [entryAt?, if_neg hm] at hget
        simp [entryAt?, hm, Forest.get?_mapAt, h, hget]

theorem entryAt?_carry (hl : l ≠ []) (hm : m ≠ []) (k : Location) : (t.carry l m hm).entryAt? k =
    if m = k then t.entryAt? l else if l = k then none else t.entryAt? k := by
  by_cases hk : k = []
  · subst hk; simp [entryAt?, hl, hm]
  · simp [entryAt?, carry, hk, hl, Forest.get?_set hm, Forest.get?_set hl]

theorem node?_erase (t : FileTree) (l m : Location) :
    (t.erase l).node? m = if m = l then none else t.node? m := rfl

theorem node?_carry (t : FileTree) (l m : Location) (hm : m ≠ []) (k : Location) :
    (t.carry l m hm).node? k =
      if k = m then t.node? l else if k = l then none else t.node? k := rfl

theorem node?_put_of_none (h : t.entryAt? l = none) (e : Entry) : (t.put l e).node? = t.node? := by
  funext k
  by_cases hk : k = l
  · simp [put, assign, hk, node?_eq_none (l := l) (t := t) (by simp [h])]
  · simp [put, assign, hk]

theorem current_rewrite (f : File) : (t.rewrite l f).current = t.current := by
  unfold rewrite
  split <;> rfl

theorem node?_rewrite (f : File) : (t.rewrite l f).node? = t.node? := by
  unfold rewrite
  split
  · rename_i hn
    funext k
    by_cases hk : k = l
    · simp [put, assign, hk, hn]
    · simp [put, assign, hk]
  · rfl

def toList (t : FileTree) : List (Location × Entry) := t.entries.toList

theorem mem_toList_iff (t : FileTree) (l : Location) (e : Entry) :
    (l, e) ∈ t.toList ↔ l ≠ [] ∧ t.entryAt? l = some e := by
  rw [toList, Forest.mem_toList_iff t.ordered, entryAt?]
  by_cases hl : l = [] <;> simp [hl, Forest.get?]

end FileTree

end MemberIndex
