import MemberIndex.FileTree.Change
import MemberIndex.Proofs.FileTree.Leads

/-! # Changes that succeed

What a change that came to a value has done: a path's last step was found, a file was
opened and written, an entry was moved.
-/

namespace MemberIndex

namespace Content

theorem bytes_append (c : Content) (more : List UInt8) :
    (c.append more).bytes = c.bytes ++ more := by
  unfold append
  split
  · rename_i hnil
    rw [hnil, List.append_nil]
  · rfl

theorem append_data (bytes more : List UInt8) :
    (data bytes).append more = .data (bytes ++ more) := by
  unfold append
  split
  · rename_i hnil
    rw [hnil, List.append_nil]
  · rfl

end Content

namespace Change

variable {α β : Type}

theorem run_bind (x : Change α) (f : α → Change β) (t : FileTree) :
    (x >>= f).run.run t = match x.run.run t with
      | (.ok a, t') => (f a).run.run t'
      | (.error e, t') => (.error e, t') := by
  cases h : x.run.run t with
  | mk a t' => cases a <;> simp [h, ExceptT.run_bind, StateT.run_bind] <;> rfl

theorem run_get_bind (f : FileTree → Change β) (t : FileTree) :
    ((get : Change FileTree) >>= f).run.run t = (f t).run.run t := by
  rw [run_bind]
  rfl

theorem run_tryCatch (x : Change α) (f : IoError → Change α) (t : FileTree) :
    (tryCatch x f).run.run t = match x.run.run t with
      | (.ok a, t') => (.ok a, t')
      | (.error e, t') => (f e).run.run t' := by
  change (ExceptT.tryCatch x f).run.run t = _
  unfold ExceptT.tryCatch
  rw [ExceptT.run_mk]
  change StateT.run (x.run >>= _) t = _
  rw [StateT.run_bind]
  cases h : x.run.run t with
  | mk a t' => cases a <;> rfl

variable {x : Change α} {t t' : FileTree}

theorem run_bind_cases {f : α → Change β} {r : Except IoError β}
    (h : (x >>= f).run.run t = (r, t')) :
    (∃ a t₁, x.run.run t = (.ok a, t₁) ∧ (f a).run.run t₁ = (r, t')) ∨
      ∃ e, r = .error e ∧ x.run.run t = (.error e, t') := by
  rw [run_bind] at h
  cases hx : x.run.run t with
  | mk y t₁ =>
    rw [hx] at h
    cases y with
    | ok a => exact .inl ⟨a, t₁, rfl, h⟩
    | error e =>
      cases h
      exact .inr ⟨e, rfl, rfl⟩

theorem run_bind_eq_ok {f : α → Change β} {b : β} (h : (x >>= f).run.run t = (.ok b, t')) :
    ∃ a t₁, x.run.run t = (.ok a, t₁) ∧ (f a).run.run t₁ = (.ok b, t') := by
  rcases run_bind_cases h with hboth | ⟨e, he, -⟩
  · exact hboth
  · cases he

theorem run_tryCatch_cases {f : IoError → Change α} {r : Except IoError α}
    (h : (tryCatch x f).run.run t = (r, t')) :
    x.run.run t = (r, t') ∨
      ∃ e t₁, x.run.run t = (.error e, t₁) ∧ (f e).run.run t₁ = (r, t') := by
  rw [run_tryCatch] at h
  cases hx : x.run.run t with
  | mk y t₁ =>
    rw [hx] at h
    cases y with
    | ok a => exact .inl h
    | error e => exact .inr ⟨e, t₁, rfl, h⟩

end Change

namespace FileTree

deriving instance DecidableEq for LastStep

variable {p q : Path} {t t' : FileTree}

/-- The last step of a path, found in a tree. -/
structure StepsTo (t : FileTree) (p : Path) (s : LastStep) : Prop where
  valid : checkPath p = .ok ()
  step : t.lastStep maxLinks (t.origin p) p.pieces = .ok (some s)

theorem StepsTo.keep {s : LastStep} (h : StepsTo t p s) (hk : Keeps t t')
    (hc : t'.current = t.current) : StepsTo t' p s := by
  obtain ⟨before, hsplit, hleads, hdir⟩ := lastStep_eq_some h.step
  refine ⟨h.valid, ?_⟩
  rw [origin_congr hc]
  exact lastStep_of_leads hsplit (hleads.keep hk hdir) (hk.isDirectoryAt hdir)

theorem StepsTo.unique {s d : LastStep} (hs : StepsTo t p s) (hd : StepsTo t p d) : s = d :=
  Option.some.inj (Except.ok.inj (hs.step.symm.trans hd.step))

theorem StepsTo.locate {s : LastStep} {e : Entry} (h : StepsTo t p s) (hn : IsName s.name)
    (he : t.entryAt? s.place = some e) (hlink : ∀ target, e ≠ .link target)
    (hdirectory : s.slashed = true → e = .directory) : t.locate true p = .ok s.place := by
  obtain ⟨before, hsplit, hleads, hdir⟩ := lastStep_eq_some h.step
  obtain ⟨rest, hpieces, hrest, -, hslashed⟩ := exists_splitLast?_eq_some hsplit
  have hstay : Leads t s.links s.place rest ⟨s.place, s.links⟩ := by
    cases hs : s.slashed with
    | false =>
      rw [hslashed hs]
      exact .nil
    | true =>
      rw [hdirectory hs] at he
      exact leads_of_idle (decide_eq_true he) fun piece hpiece => .inl (hrest piece hpiece)
  rw [locate_eq_ok_iff, hpieces]
  exact ⟨h.valid, s.links, hleads.append (.down hdir hn he hlink hstay)⟩

def lastStep? (t : FileTree) (p : Path) : Option LastStep :=
  match checkPath p, t.lastStep maxLinks (t.origin p) p.pieces with
  | .ok _, .ok s => s
  | _, _ => none

theorem stepsTo_iff {s : LastStep} : StepsTo t p s ↔ t.lastStep? p = some s := by
  unfold lastStep?
  constructor
  · rintro ⟨hvalid, hstep⟩
    simp only [hvalid, hstep]
  · intro h
    split at h
    · rename_i hvalid hstep
      exact ⟨hvalid, by rw [hstep, h]⟩
    · cases h

theorem attempt_run {α : Type} (e : Except IoError α) (t : FileTree) :
    (attempt e).run.run t = (e, t) := by
  cases e <;> rfl

theorem lastStepOf_run (p : Path) (t : FileTree) :
    (lastStepOf p).run.run t = ((do
      checkPath p
      liftErrno (t.lastStep maxLinks (t.origin p) p.pieces)), t) := by
  unfold lastStepOf
  rw [Change.run_bind]
  exact attempt_run _ t

theorem found_eq_ok {α : Type} {x : Except Errno α} {a : α}
    (h : (do checkPath p; liftErrno x) = .ok a) : checkPath p = .ok () ∧ x = .ok a := by
  cases hc : checkPath p with
  | error e =>
    rw [hc] at h
    cases h
  | ok u =>
    cases x with
    | error e =>
      rw [hc] at h
      cases h
    | ok a' =>
      rw [hc] at h
      cases h
      exact ⟨rfl, rfl⟩

theorem stepsTo_of_lastStepOf {s : LastStep}
    (h : (lastStepOf p).run.run t = (.ok (some s), t')) : t' = t ∧ StepsTo t p s := by
  rw [lastStepOf_run] at h
  obtain ⟨hs, rfl⟩ := Prod.mk.inj h
  obtain ⟨hc, hl⟩ := found_eq_ok hs
  exact ⟨rfl, hc, hl⟩

/-- A moved entry stands at the other place, and no more where it stood, unless these are two
names of it. -/
theorem move_run_eq_ok (h : (move p q).run.run t = (.ok (), t')) :
    ∃ s d e, StepsTo t p s ∧ StepsTo t q d ∧ t.entryAt? s.place = some e ∧ d.isNamed = true ∧
      d.name.length ≤ maxName ∧ s.slashed = false ∧ d.slashed = false ∧
      t' = if t.isSame s.place d.place then t else t.carry s.place d.place d.place_ne_nil := by
  unfold move at h
  obtain ⟨s, t₁, hs, h₁⟩ := Change.run_bind_eq_ok h
  obtain ⟨d, t₂, hd, h₂⟩ := Change.run_bind_eq_ok h₁
  cases s with
  | none => cases h₂
  | some s =>
    cases d with
    | none => cases h₂
    | some d =>
      obtain ⟨ht₁, hs⟩ := stepsTo_of_lastStepOf hs
      subst ht₁
      obtain ⟨ht₂, hd⟩ := stepsTo_of_lastStepOf hd
      subst ht₂
      rw [Change.run_get_bind] at h₂
      split at h₂
      · cases h₂
      · rename_i hnamed
        split at h₂
        · cases h₂
        · rename_i e he
          split at h₂
          · cases h₂
          split at h₂
          · cases h₂
          rename_i hlong hslashed
          simp only [Bool.or_eq_true, Bool.not_eq_true', not_or, Bool.not_eq_false,
            Bool.not_eq_true] at hnamed hslashed
          refine ⟨s, d, e, hs, hd, he, hnamed.2, Nat.not_lt.1 hlong, hslashed.1, hslashed.2, ?_⟩
          split at h₂
          · rename_i hsame
            cases h₂
            rw [if_pos hsame]
          split at h₂
          · cases h₂
          · rename_i hother _
            cases h₂
            rw [if_neg hother]

def IsPlainAt (t : FileTree) (l : Location) : Prop :=
  (∀ target, t.entryAt? l ≠ some (.link target)) ∧ ∀ d, t.entryAt? l ≠ some (.device d)

instance (t : FileTree) (l : Location) : Decidable (t.IsPlainAt l) :=
  match h : t.entryAt? l with
  | some (.link target) => .isFalse fun hp => hp.1 target h
  | some (.device d) => .isFalse fun hp => hp.2 d h
  | none | some .directory | some (.file _) => .isTrue (by simp [IsPlainAt, h])

/-- Nothing that a walk may go on through stands at a place. -/
def IsEndAt (t : FileTree) (l : Location) : Prop := ∀ e, t.entryAt? l = some e → isWay e = false

theorem isEndAt_of_none {l : Location} (h : t.entryAt? l = none) : t.IsEndAt l := by
  intro e he
  cases h.symm.trans he

theorem isEndAt_of_file {l : Location} {f : File} (h : t.entryAt? l = some (.file f)) :
    t.IsEndAt l := by
  intro e he
  cases h.symm.trans he
  rfl

theorem aim_eq_ok {links : Nat} {place : Location} {pieces : List (List UInt8)}
    {s : LastStep} {onward : Option (List UInt8)} (h : t.aim links place pieces = .ok (s, onward)) :
    t.lastStep links place pieces = .ok (some s) ∧ IsName s.name ∧ s.slashed = false ∧
      (∀ target, onward = some target → t.entryAt? s.place = some (.link target)) ∧
      (onward = none → t.IsEndAt s.place) := by
  unfold aim at h
  cases hs : t.lastStep links place pieces with
  | error e =>
    rw [hs] at h
    cases h
  | ok s' =>
    cases s' with
    | none =>
      rw [hs] at h
      cases h
    | some s' =>
      simp only [hs, bind, Except.bind] at h
      split at h
      · cases h
      · rename_i hnamed
        split at h
        · cases h
        · rename_i hshort
          simp only [Bool.or_eq_true, Bool.not_eq_true', not_or, Bool.not_eq_false,
            Bool.not_eq_true] at hnamed
          obtain ⟨hnamed, hslashed⟩ := hnamed
          have hn := isName_of_lastStep hs hnamed (Nat.not_lt.1 hshort)
          split at h
          · cases h
          · rename_i target he
            cases h
            refine ⟨rfl, hn, hslashed, ?_, nofun⟩
            rintro _ ⟨⟩
            exact he
          · rename_i hdirectory hlink
            cases h
            refine ⟨rfl, hn, hslashed, nofun, ?_⟩
            rintro - e he
            cases e with
            | directory => exact absurd he hdirectory
            | link target => exact absurd he (hlink target)
            | file | device => rfl

theorem aim_of_plain {links : Nat} {place : Location} {pieces : List (List UInt8)} {s : LastStep}
    {onward : Option (List UInt8)} (h : t.aim links place pieces = .ok (s, onward))
    (hplain : t.lastStep links place pieces = .ok (some s) → t.IsPlainAt s.place) :
    onward = none ∧ t.lastStep links place pieces = .ok (some s) ∧ s.slashed = false ∧
      (t.entryAt? s.place = none ∨ ∃ f, t.entryAt? s.place = some (.file f)) := by
  obtain ⟨hs, -, hslashed, hlink, hend⟩ := aim_eq_ok h
  obtain ⟨hnolink, hnodevice⟩ := hplain hs
  cases onward with
  | some target => exact absurd (hlink target rfl) (hnolink target)
  | none =>
    refine ⟨rfl, hs, hslashed, ?_⟩
    cases he : t.entryAt? s.place with
    | none => exact .inl rfl
    | some e =>
      have hway := hend rfl e he
      cases e with
      | directory | link => cases hway
      | file f => exact .inr ⟨f, rfl⟩
      | device d => exact absurd he (hnodevice d)

/-- A file is opened at the last step of its pieces, or where the link that stands there leads
to. -/
theorem target_cases {turns links : Nat} {place l : Location} {pieces : List (List UInt8)}
    (h : t.target turns links place pieces = .ok l) :
    (∃ s, t.aim links place pieces = .ok (s, none) ∧ l = s.place) ∨
      ∃ s target turns' n, t.aim links place pieces = .ok (s, some target) ∧
        turns = turns' + 1 ∧ s.links = n + 1 ∧
        t.target turns' n (if target.head? = some Path.slash then [] else s.directory)
          (Text.fields Path.slash target) = .ok l := by
  cases ha : t.aim links place pieces with
  | error e => cases turns <;> simp [target, ha, bind, Except.bind] at h
  | ok x =>
    obtain ⟨s, onward⟩ := x
    cases onward with
    | none =>
      refine .inl ⟨s, rfl, ?_⟩
      cases turns <;>
        simp only [target, ha, bind, Except.bind] at h <;>
        exact (Except.ok.inj h).symm
    | some onward =>
      cases turns with
      | zero =>
        simp only [target, ha, bind, Except.bind] at h
        cases h
      | succ turns =>
        simp only [target, ha, bind, Except.bind] at h
        cases hn : s.links with
        | zero =>
          rw [hn] at h
          cases h
        | succ n =>
          rw [hn] at h
          exact .inr ⟨s, onward, turns, n, rfl, rfl, hn, h⟩

theorem target_of_plain {turns links : Nat} {place l : Location} {pieces : List (List UInt8)}
    (h : t.target turns links place pieces = .ok l)
    (hplain : ∀ s, t.lastStep links place pieces = .ok (some s) → t.IsPlainAt s.place) :
    ∃ s, t.lastStep links place pieces = .ok (some s) ∧ l = s.place ∧ s.slashed = false ∧
      (t.entryAt? s.place = none ∨ ∃ f, t.entryAt? s.place = some (.file f)) := by
  rcases target_cases h with ⟨s, ha, rfl⟩ | ⟨s, target, _, _, ha, -⟩
  · obtain ⟨-, hs, hslashed, hentry⟩ := aim_of_plain ha (hplain s)
    exact ⟨s, hs, rfl, hslashed, hentry⟩
  · obtain ⟨honward, -⟩ := aim_of_plain ha (hplain s)
    cases honward

/-- A tree in which a file was written, under all of its names, or made where nothing stood. -/
structure Rewritten (t t' : FileTree) (l : Location) (f : File) : Prop where
  current : t'.current = t.current
  node?_eq : t'.node? = t.node?
  before : t.entryAt? l = none ∨ ∃ g, t.entryAt? l = some (.file g)
  entry : ∀ m, t'.entryAt? m = if t.isSame l m then some (.file f) else t.entryAt? m

section Rewritten

variable {k l m : Location} {f : File} {e : Entry}

theorem rewritten_put (hl : l ≠ []) (hnone : t.entryAt? l = none) :
    Rewritten t (t.put l (.file f)) l f := by
  refine ⟨rfl, node?_put_of_none hnone _, .inl hnone, ?_⟩
  intro m
  simp only [entryAt?_put t hl, isSame_of_entryAt?_eq_none hnone, decide_eq_true_eq]

theorem rewritten_rewrite {g : File} (h : t.entryAt? l = some (.file g)) :
    Rewritten t (t.rewrite l f) l f :=
  ⟨current_rewrite f, node?_rewrite f, .inr ⟨g, h⟩, entryAt?_rewrite h f⟩

theorem Rewritten.file (h : Rewritten t t' l f) : t'.entryAt? l = some (.file f) := by
  rw [h.entry, if_pos (isSame_iff.2 (.inl rfl))]

theorem Rewritten.isSame (h : Rewritten t t' l f) : t'.isSame k m = t.isSame k m := by
  rw [FileTree.isSame, h.node?_eq, FileTree.isSame]

theorem Rewritten.rewrite (h : Rewritten t t' l f) (g : File) :
    Rewritten t (t'.rewrite l g) l g := by
  refine ⟨(current_rewrite g).trans h.current, (node?_rewrite g).trans h.node?_eq, h.before, ?_⟩
  intro m
  rw [entryAt?_rewrite h.file, h.isSame, h.entry]
  split <;> rfl

theorem Rewritten.isEndAt (h : Rewritten t t' l f) (hm : t.isSame l m = true) : t.IsEndAt m := by
  have hl : t.IsEndAt l := by
    rcases h.before with hnone | ⟨g, hg⟩
    · exact isEndAt_of_none hnone
    · exact isEndAt_of_file hg
  intro e he
  exact hl e ((entryAt?_of_isSame hm).trans he)

theorem Rewritten.isWay_iff (h : Rewritten t t' l f) (he : isWay e = true) :
    t'.entryAt? m = some e ↔ t.entryAt? m = some e := by
  rw [h.entry]
  split
  · rename_i hm
    refine iff_of_false ?_ fun hmem => ?_
    · rintro ⟨⟩
      cases he
    · cases (h.isEndAt hm e hmem).symm.trans he
  · exact .rfl

theorem Rewritten.keeps (h : Rewritten t t' l f) : Keeps t t' :=
  fun _ _ he hm => (h.isWay_iff he).2 hm

theorem Rewritten.keeps_symm (h : Rewritten t t' l f) : Keeps t' t :=
  fun _ _ he hm => (h.isWay_iff he).1 hm

end Rewritten

/-- An opened file is made where nothing stands, and emptied unless it is added to. A device is
left as it is. -/
theorem openFile_cases {append : Bool} {l : Location}
    (h : (openFile p append).run.run t = (.ok l, t')) :
    checkPath p = .ok () ∧ t.target maxLinks maxLinks (t.origin p) p.pieces = .ok l ∧
      ((t.entryAt? l = none ∧ t' = t.put l (.file {})) ∨
        (∃ f, t.entryAt? l = some (.file f) ∧
          t' = if append then t else t.rewrite l { f with content := .data [] }) ∨
        ∃ e, t.entryAt? l = some e ∧ (∀ f, e ≠ .file f) ∧ t' = t) := by
  unfold openFile at h
  rw [Change.run_get_bind] at h
  obtain ⟨place, t₁, hplace, h₁⟩ := Change.run_bind_eq_ok h
  rw [attempt_run] at hplace
  obtain ⟨hfound, rfl⟩ := Prod.mk.inj hplace
  obtain ⟨hc, ht⟩ := found_eq_ok hfound
  cases he : t.entryAt? place with
  | none =>
    rw [he] at h₁
    cases h₁
    exact ⟨hc, ht, .inl ⟨he, rfl⟩⟩
  | some e =>
    rw [he] at h₁
    cases e with
    | file f =>
      cases append <;> cases h₁ <;> exact ⟨hc, ht, .inr (.inl ⟨f, he, rfl⟩)⟩
    | directory | link | device =>
      cases h₁
      exact ⟨hc, ht, .inr (.inr ⟨_, he, nofun, rfl⟩)⟩

theorem openFile_run_eq_ok {l : Location} (h : (openFile p false).run.run t = (.ok l, t'))
    (hplain : ∀ s, StepsTo t p s → t.IsPlainAt s.place) :
    ∃ s f, StepsTo t p s ∧ l = s.place ∧ s.slashed = false ∧ f.content = .data [] ∧
      Rewritten t t' s.place f := by
  obtain ⟨hc, ht, hopened⟩ := openFile_cases h
  obtain ⟨s, hs, rfl, hslashed, hentry⟩ := target_of_plain ht fun s hs => hplain s ⟨hc, hs⟩
  rcases hopened with ⟨hnone, rfl⟩ | ⟨f, hf, rfl⟩ | ⟨e, he, hfile, -⟩
  · exact ⟨s, _, ⟨hc, hs⟩, rfl, hslashed, rfl, rewritten_put s.place_ne_nil hnone⟩
  · exact ⟨s, _, ⟨hc, hs⟩, rfl, hslashed, rfl, rewritten_rewrite hf⟩
  · rcases hentry with hnone | ⟨f, hf⟩
    · cases hnone.symm.trans he
    · cases hf.symm.trans he
      exact absurd rfl (hfile f)

theorem writeAt_run_of_file {l : Location} {bytes : List UInt8} {f : File}
    (h : t.entryAt? l = some (.file f)) : (writeAt l bytes).run.run t =
      (.ok (), t.rewrite l { f with content := f.content.append bytes }) := by
  unfold writeAt
  rw [Change.run_get_bind, h]
  rfl

/-- A written file holds the bytes, under all of its names, and every other entry is what it
was. -/
theorem writeFile_run_eq_ok {bytes : List UInt8}
    (h : (writeFile p bytes).run.run t = (.ok (), t'))
    (hplain : ∀ s, StepsTo t p s → t.IsPlainAt s.place) :
    ∃ s f, StepsTo t p s ∧ s.slashed = false ∧ f.content = .data bytes ∧
      Rewritten t t' s.place f := by
  unfold writeFile at h
  obtain ⟨l, t₁, hopen, hwrite⟩ := Change.run_bind_eq_ok h
  obtain ⟨s, g, hs, rfl, hslashed, hcontent, hopened⟩ := openFile_run_eq_ok hopen hplain
  rw [writeAt_run_of_file hopened.file] at hwrite
  cases hwrite
  refine ⟨s, _, hs, hslashed, ?_, hopened.rewrite _⟩
  rw [hcontent, Content.append_data, List.nil_append]

end FileTree

end MemberIndex
