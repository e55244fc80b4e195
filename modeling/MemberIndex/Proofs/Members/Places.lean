import MemberIndex.Proofs.Members.Listing
import MemberIndex.Proofs.Text.Run

/-! # Where a member is declared

What the reading of a line looks for, as conditions on what stands before a place and behind
it. A line is read for the first place where they hold.
-/

namespace MemberIndex.Declaration

open Text (isBlank IsRun isRun_takeWhile)

variable {before after name line : List Char} {stop : Char}

/-! ## What stands before a place -/

/-- A blank, a type word, blanks and a name stand in this order before a place. -/
def Names (before name : List Char) : Prop :=
  ∃ front b type gap, before = front ++ b :: (type ++ (gap ++ name)) ∧ isBlank b = true ∧
    IsRun isTypeChar type ∧ IsRun isBlank gap ∧ IsRun isWordChar name

theorem not_isTypeChar_of_isBlank {c : Char} (h : isBlank c = true) : isTypeChar c = false := by
  have hb : c.toNat ≤ 32 ∨ 133 ≤ c.toNat := by
    simp only [isBlank, Bool.or_eq_true, Bool.and_eq_true, decide_eq_true_eq, beq_iff_eq] at h
    omega
  have hle (d : Char) : d ≤ c ↔ d.toNat ≤ c.toNat := Iff.rfl
  have hge (d : Char) : c ≤ d ↔ c.toNat ≤ d.toNat := Iff.rfl
  have hne (d : Char) (hd : 32 < d.toNat ∧ d.toNat < 133) : c ≠ d := by
    rintro rfl
    omega
  simp [isTypeChar, isWordChar, hle, hge, hne]
  omega

theorem isTypeChar_of_isWordChar {c : Char} (h : isWordChar c = true) : isTypeChar c = true := by
  simp [isTypeChar, h]

theorem not_isBlank_of_isTypeChar {c : Char} (h : isTypeChar c = true) : isBlank c = false := by
  by_contra hblank
  have := not_isTypeChar_of_isBlank (by simpa using hblank)
  rw [h] at this
  cases this

theorem not_isWordChar_of_isBlank {c : Char} (h : isBlank c = true) : isWordChar c = false := by
  by_contra hword
  have := not_isBlank_of_isTypeChar (isTypeChar_of_isWordChar (by simpa using hword))
  rw [h] at this
  cases this

theorem nameBefore?_of_runs (front : List Char) {type gap name : List Char} {b : Char}
    (hb : isBlank b = true) (htype : IsRun isTypeChar type) (hgap : IsRun isBlank gap)
    (hname : IsRun isWordChar name) :
    nameBefore? (name ++ (gap ++ (type ++ b :: front))) = some name.reverse := by
  obtain ⟨c, hc, hcblank⟩ := hgap.head?_append (type ++ b :: front)
  obtain ⟨d, hd, hdtype⟩ := htype.head?_append (b :: front)
  obtain ⟨hname₁, hname₂⟩ := hname.span (gap ++ (type ++ b :: front))
    (by rw [hc]; exact not_isWordChar_of_isBlank hcblank)
  obtain ⟨-, hgap₂⟩ := hgap.span (type ++ b :: front)
    (by rw [hd]; exact not_isBlank_of_isTypeChar hdtype)
  obtain ⟨-, htype₂⟩ := htype.span (b :: front) (not_isTypeChar_of_isBlank hb)
  simp only [nameBefore?, hname₁, hname₂, hgap₂, htype₂, hc, hd]
  exact if_pos ⟨hname.ne_nil, hcblank, hdtype, hb⟩

theorem runs_of_nameBefore? {bs : List Char} (h : nameBefore? bs = some name) :
    ∃ front b type gap, bs = name.reverse ++ (gap ++ (type ++ b :: front)) ∧ isBlank b = true ∧
      IsRun isTypeChar type ∧ IsRun isBlank gap ∧ IsRun isWordChar name := by
  simp only [nameBefore?, Option.ite_none_right_eq_some, Option.some.injEq] at h
  obtain ⟨⟨hname, hgap, htype, hb⟩, rfl⟩ := h
  cases hfront : ((bs.dropWhile isWordChar).dropWhile isBlank).dropWhile isTypeChar with
  | nil => simp [hfront] at hb
  | cons b front =>
    have hrun : IsRun isWordChar (bs.takeWhile isWordChar) :=
      ⟨hname, fun _ => List.mem_takeWhile_imp⟩
    refine ⟨front, b, _, _, ?_, by simpa [hfront] using hb, isRun_takeWhile htype,
      isRun_takeWhile hgap, hrun.reverse⟩
    rw [List.reverse_reverse, ← hfront, List.takeWhile_append_dropWhile,
      List.takeWhile_append_dropWhile, List.takeWhile_append_dropWhile]

theorem nameBefore?_eq_some_iff : nameBefore? before.reverse = some name ↔ Names before name := by
  constructor
  · intro h
    obtain ⟨front, b, type, gap, hbs, hb, htype, hgap, hname⟩ := runs_of_nameBefore? h
    refine ⟨front.reverse, b, type.reverse, gap.reverse, ?_, hb, htype.reverse, hgap.reverse,
      hname⟩
    rw [← List.reverse_reverse before, hbs]
    simp
  · rintro ⟨front, b, type, gap, rfl, hb, htype, hgap, hname⟩
    have h := nameBefore?_of_runs front.reverse hb htype.reverse hgap.reverse
      hname.reverse
    rw [List.reverse_reverse] at h
    simpa using h

theorem Names.append_left (h : Names before name) (front : List Char) :
    Names (front ++ before) name := by
  obtain ⟨before, b, type, gap, rfl, hb, htype, hgap, hname⟩ := h
  exact ⟨front ++ before, b, type, gap, (List.append_assoc ..).symm, hb, htype, hgap, hname⟩

theorem Names.unique {n : List Char} (h : Names before name) (h' : Names before n) : name = n := by
  rw [← nameBefore?_eq_some_iff] at h h'
  exact Option.some.inj (h.symm.trans h')

/-! ## What stands behind a place -/

def Ends (after : List Char) : Prop :=
  (∃ rest, after = ';' :: rest) ∨
    ∃ gap gap' names rest, after = gap ++ ("throws".toList ++ (gap' ++ (names ++ ';' :: rest))) ∧
      IsRun isBlank gap ∧ IsRun isBlank gap' ∧ IsRun isThrowsChar names

def Closes (after : List Char) : Prop :=
  ∃ params rest, after = params ++ ')' :: rest ∧ '\n' ∉ params ∧ Ends rest

theorem isThrowsChar_of_isBlank {c : Char} (h : isBlank c = true) : isThrowsChar c = true := by
  simp [isThrowsChar, h]

theorem endsClause_iff {cs : List Char} : endsClause cs = true ↔
    ∃ gap names rest, cs = gap ++ (names ++ ';' :: rest) ∧ IsRun isBlank gap ∧
      IsRun isThrowsChar names := by
  unfold endsClause
  rw [Bool.and_eq_true, Bool.and_eq_true, decide_eq_true_eq, beq_iff_eq]
  constructor
  · rintro ⟨⟨hhead, hlen⟩, hend⟩
    obtain ⟨rest, hrest⟩ := List.head?_eq_some_iff.1 hend
    cases htake : cs.takeWhile isThrowsChar with
    | nil => simp [htake] at hlen
    | cons c names =>
      have hcs : cs = c :: (names ++ ';' :: rest) := by
        rw [← List.takeWhile_append_dropWhile (p := isThrowsChar) (l := cs), htake, hrest]
        rfl
      have hall : ∀ d ∈ c :: names, isThrowsChar d = true := by
        rw [← htake]
        intro d
        exact List.mem_takeWhile_imp
      have hblank : isBlank c = true := by
        rw [hcs] at hhead
        exact hhead
      refine ⟨[c], names, rest, hcs, ⟨List.cons_ne_nil _ _, by simpa using hblank⟩, ?_, ?_⟩
      · rintro rfl
        simp [htake] at hlen
      · intro d hd
        exact hall d (List.mem_cons_of_mem _ hd)
  · rintro ⟨gap, names, rest, rfl, hgap, hnames⟩
    have hrun : IsRun isThrowsChar (gap ++ names) := by
      refine ⟨by simp [hgap.ne_nil], ?_⟩
      intro c hc
      rcases List.mem_append.1 hc with hc | hc
      · exact isThrowsChar_of_isBlank (hgap.all c hc)
      · exact hnames.all c hc
    obtain ⟨htake, hdrop⟩ := hrun.span (';' :: rest) rfl
    obtain ⟨c, hc, hblank⟩ := hgap.head?_append (names ++ ';' :: rest)
    have hgapLength := List.length_pos_iff.2 hgap.ne_nil
    have hnamesLength := List.length_pos_iff.2 hnames.ne_nil
    rw [hc, ← List.append_assoc, htake, hdrop, List.length_append]
    exact ⟨⟨hblank, by omega⟩, rfl⟩

theorem endsDeclaration_iff : endsDeclaration after = true ↔ Ends after := by
  have hunfold : endsDeclaration after = (after.head? == some ';' || (after.head?.any isBlank &&
      "throws".toList.isPrefixOf (after.dropWhile isBlank) &&
      endsClause ((after.dropWhile isBlank).drop 6))) := rfl
  rw [hunfold, Bool.or_eq_true, Bool.and_eq_true, Bool.and_eq_true, beq_iff_eq,
    List.head?_eq_some_iff, List.isPrefixOf_iff_prefix]
  apply or_congr_right
  constructor
  · rintro ⟨⟨hhead, clause, hclause⟩, hends⟩
    rw [← hclause, List.drop_left' (by decide), endsClause_iff] at hends
    obtain ⟨gap, names, rest, rfl, hgap, hnames⟩ := hends
    refine ⟨after.takeWhile isBlank, gap, names, rest, ?_, isRun_takeWhile hhead, hgap, hnames⟩
    rw [hclause, List.takeWhile_append_dropWhile]
  · rintro ⟨gap, gap', names, rest, rfl, hgap, hgap', hnames⟩
    obtain ⟨c, hc, hblank⟩ :=
      hgap.head?_append ("throws".toList ++ (gap' ++ (names ++ ';' :: rest)))
    obtain ⟨-, hdrop⟩ := hgap.span ("throws".toList ++ (gap' ++ (names ++ ';' :: rest)))
      rfl
    rw [hc, hdrop, List.drop_left' (by decide)]
    exact ⟨⟨hblank, List.prefix_append _ _⟩,
      endsClause_iff.2 ⟨gap', names, rest, rfl, hgap', hnames⟩⟩

theorem closesParameters_iff : closesParameters after = true ↔ Closes after := by
  induction after with
  | nil =>
    constructor
    · rintro ⟨⟩
    · rintro ⟨params, rest, h, -⟩
      simp at h
  | cons c after ih =>
    rw [closesParameters, Bool.or_eq_true, Bool.and_eq_true, Bool.and_eq_true, ih,
      endsDeclaration_iff, beq_iff_eq, bne_iff_ne]
    constructor
    · rintro (⟨rfl, hends⟩ | ⟨hc, params, rest, rfl, hparams, hends⟩)
      · exact ⟨[], after, rfl, List.not_mem_nil, hends⟩
      · exact ⟨c :: params, rest, rfl, by simp [hparams, Ne.symm hc], hends⟩
    · rintro ⟨params, rest, h, hparams, hends⟩
      rcases List.cons_eq_append_iff.1 h with ⟨rfl, h⟩ | ⟨params, rfl, rfl⟩
      · obtain ⟨rfl, rfl⟩ := List.cons.inj h
        exact .inl ⟨rfl, hends⟩
      · obtain ⟨hc, hparams⟩ := not_or.1 (mt List.mem_cons.2 hparams)
        exact .inr ⟨Ne.symm hc, params, rest, rfl, hparams, hends⟩

/-! ## The first place -/

/-- A name is declared at a place of a text: it stands before the place, a character that ends
it stands there, and what must follow follows. -/
structure DeclaredAt (stop : Char) (Follows : List Char → Prop) (cs : List Char) (p : ℕ)
    (name : List Char) : Prop where
  ended : cs[p]? = some stop
  named : Names (cs.take p) name
  followed : Follows (cs.drop (p + 1))

/-- The name is declared at the place, and none before it. -/
structure FirstDeclaredAt (stop : Char) (Follows : List Char → Prop) (line : List Char) (p : ℕ)
    (name : List Char) : Prop extends DeclaredAt stop Follows line p name where
  first : ∀ q n, DeclaredAt stop Follows line q n → p ≤ q

variable {Follows : List Char → Prop} {p q : ℕ} {n : List Char}

theorem declaredAt_length_iff {c : Char} :
    DeclaredAt stop Follows (before ++ c :: after) before.length name ↔
      c = stop ∧ Names before name ∧ Follows after := by
  have hget : (before ++ c :: after)[before.length]? = some c := by simp
  have htake : (before ++ c :: after).take before.length = before := List.take_left
  have hdrop : (before ++ c :: after).drop (before.length + 1) = after := by
    rw [← List.drop_drop, List.drop_left, List.drop_one, List.tail_cons]
  constructor
  · rintro ⟨hc, hnamed, hfollowed⟩
    rw [hget, Option.some.injEq] at hc
    rw [htake] at hnamed
    rw [hdrop] at hfollowed
    exact ⟨hc, hnamed, hfollowed⟩
  · rintro ⟨rfl, hnamed, hfollowed⟩
    exact ⟨hget, htake.symm ▸ hnamed, hdrop.symm ▸ hfollowed⟩

theorem DeclaredAt.exists_split (h : DeclaredAt stop Follows line p name) :
    ∃ before after, line = before ++ stop :: after ∧ before.length = p ∧ Names before name ∧
      Follows after := by
  obtain ⟨hlt, hget⟩ := List.getElem?_eq_some_iff.1 h.ended
  refine ⟨line.take p, line.drop (p + 1), ?_, by rw [List.length_take]; omega, h.named,
    h.followed⟩
  rw [← hget, ← List.drop_eq_getElem_cons hlt, List.take_append_drop]

theorem FirstDeclaredAt.unique (h : FirstDeclaredAt stop Follows line p name)
    (h' : FirstDeclaredAt stop Follows line q n) : p = q ∧ name = n := by
  obtain rfl : p = q := le_antisymm (h.first q n h'.toDeclaredAt) (h'.first p name h.toDeclaredAt)
  exact ⟨rfl, h.named.unique h'.named⟩

structure FirstDeclaredFrom (stop : Char) (Follows : List Char → Prop) (cs : List Char)
    (start p : ℕ) (name : List Char) : Prop extends DeclaredAt stop Follows cs p name where
  le : start ≤ p
  first : ∀ q n, start ≤ q → DeclaredAt stop Follows cs q n → p ≤ q

theorem DeclaredAt.exists_firstDeclaredFrom_iff (h : DeclaredAt stop Follows line p n) :
    (∃ q, FirstDeclaredFrom stop Follows line p q name) ↔ n = name := by
  constructor
  · rintro ⟨q, hq⟩
    obtain rfl : q = p := le_antisymm (hq.first p n le_rfl h) hq.le
    exact h.named.unique hq.named
  · rintro rfl
    exact ⟨p, h, le_rfl, fun q m hle _ => hle⟩

theorem firstDeclaredFrom_succ_iff (h : ∀ m, ¬ DeclaredAt stop Follows line p m) :
    FirstDeclaredFrom stop Follows line (p + 1) q name ↔
      FirstDeclaredFrom stop Follows line p q name := by
  have hle {k : ℕ} {m : List Char} (hk : DeclaredAt stop Follows line k m) :
      p + 1 ≤ k ↔ p ≤ k := by
    have hne : p ≠ k := by
      rintro rfl
      exact h m hk
    omega
  constructor
  · rintro ⟨hq, hstart, hfirst⟩
    exact ⟨hq, (hle hq).1 hstart, fun k m hk hm => hfirst k m ((hle hm).2 hk) hm⟩
  · rintro ⟨hq, hstart, hfirst⟩
    exact ⟨hq, (hle hq).2 hstart, fun k m hk hm => hfirst k m ((hle hm).1 hk) hm⟩

/-- Reading on from a place finds the first declaration that is not before it. -/
theorem firstName?_eq_some_iff {tail : List Char → Bool} (before cs : List Char) :
    firstName? stop tail before.reverse cs = some name ↔
      ∃ p, FirstDeclaredFrom stop (tail · = true) (before ++ cs) before.length p name := by
  induction cs generalizing before with
  | nil =>
    constructor
    · rintro ⟨⟩
    · rintro ⟨p, hp⟩
      obtain ⟨hlt, -⟩ := List.getElem?_eq_some_iff.1 hp.ended
      rw [List.append_nil] at hlt
      exact absurd hp.le (Nat.not_le.2 hlt)
  | cons c cs ih =>
    by_cases hhere : c = stop ∧ (nameBefore? before.reverse).isSome ∧ tail cs
    · rw [firstName?, if_pos hhere]
      obtain ⟨rfl, hsome, htail⟩ := hhere
      obtain ⟨n, hn⟩ := Option.isSome_iff_exists.1 hsome
      have hdeclared : DeclaredAt c (tail · = true) (before ++ c :: cs) before.length n :=
        declaredAt_length_iff.2 ⟨rfl, nameBefore?_eq_some_iff.1 hn, htail⟩
      rw [hn, hdeclared.exists_firstDeclaredFrom_iff, Option.some.injEq]
    · have hnone (m : List Char) :
          ¬ DeclaredAt stop (tail · = true) (before ++ c :: cs) before.length m := by
        intro h
        obtain ⟨rfl, hnamed, htail⟩ := declaredAt_length_iff.1 h
        rw [← nameBefore?_eq_some_iff] at hnamed
        exact hhere ⟨rfl, by rw [hnamed]; rfl, htail⟩
      have hrest := ih (before ++ [c])
      rw [List.reverse_append, List.reverse_singleton, List.singleton_append,
        List.append_assoc, List.singleton_append, List.length_append, List.length_singleton]
        at hrest
      rw [firstName?, if_neg hhere, hrest]
      exact exists_congr fun p => firstDeclaredFrom_succ_iff hnone

theorem firstName?_nil_eq_some_iff {tail : List Char → Bool} :
    firstName? stop tail [] line = some name ↔
      ∃ p, FirstDeclaredAt stop (tail · = true) line p name := by
  have h : firstName? stop tail [].reverse line = some name ↔ _ := firstName?_eq_some_iff [] line
  rw [List.reverse_nil, List.nil_append] at h
  rw [h]
  apply exists_congr
  intro p
  constructor
  · rintro ⟨hdeclared, -, hfirst⟩
    exact ⟨hdeclared, fun q n => hfirst q n (Nat.zero_le _)⟩
  · rintro ⟨hdeclared, hfirst⟩
    exact ⟨hdeclared, Nat.zero_le _, fun q n _ => hfirst q n⟩

theorem DeclaredAt.exists_first (h : DeclaredAt stop Follows line p name) :
    ∃ q n, FirstDeclaredAt stop Follows line q n := by
  induction p using Nat.strongRecOn generalizing name with
  | _ p ih =>
    by_cases hearlier : ∃ q n, q < p ∧ DeclaredAt stop Follows line q n
    · obtain ⟨q, n, hlt, hq⟩ := hearlier
      exact ih q hlt hq
    · refine ⟨p, name, h, ?_⟩
      intro q n hq
      by_contra hlt
      exact hearlier ⟨q, n, Nat.lt_of_not_le hlt, hq⟩

/-- A list goes on with the name that is declared at the first of the places, or stays as it is
where there is none. -/
structure AddsFirst (At : ℕ → List Char → Prop) (old new : List String) : Prop where
  adds_iff : (∃ name, new = old ++ [name]) ↔ ∃ p name, At p name
  stays : (¬ ∃ p name, At p name) → new = old
  first : ∀ p name, At p name → (∀ q n, At q n → p ≤ q) → new = old ++ [String.ofList name]

theorem addsFirst_of_eq_some_iff {found : Option (List Char)} (old : List String)
    (h : ∀ name, found = some name ↔ ∃ p, FirstDeclaredAt stop Follows line p name) :
    AddsFirst (DeclaredAt stop Follows line) old (old ++ (found.map String.ofList).toList) where
  adds_iff := by
    cases hfound : found with
    | none =>
      constructor
      · rintro ⟨name, hname⟩
        simp at hname
      · rintro ⟨p, name, hp⟩
        obtain ⟨q, n, hq⟩ := hp.exists_first
        cases hfound.symm.trans ((h n).2 ⟨q, hq⟩)
    | some name =>
      obtain ⟨p, hp⟩ := (h name).1 hfound
      exact ⟨fun _ => ⟨p, name, hp.toDeclaredAt⟩, fun _ => ⟨_, rfl⟩⟩
  stays hnone := by
    cases hfound : found with
    | none => exact List.append_nil old
    | some name =>
      obtain ⟨p, hp⟩ := (h name).1 hfound
      exact absurd ⟨p, name, hp.toDeclaredAt⟩ hnone
  first p name hp hfirst := by
    rw [(h name).2 ⟨p, hp, hfirst⟩]
    rfl

end MemberIndex.Declaration
