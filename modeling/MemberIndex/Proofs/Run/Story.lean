import Mathlib.Data.List.Forall2
import MemberIndex.Proofs.Disassembler.Hearing
import MemberIndex.Proofs.Run.History

/-! # The story of a task

The deeds of a finished task are told by its path, up to the record that it replaced. In
any run, whatever the order of its steps, the history holds the story of every task, and
nothing else.
-/

namespace MemberIndex

/-- What a task that ends well finds of an artifact. -/
structure Finding where
  identity : String
  members : Members
  exit : ToolEnd

namespace Workbench

variable (p : Workbench) (path : Path)

def heard : List String := ((p.tool.hearing? path).map (·.lines)).getD []

def failure? : Option TaskError :=
  match identity? p.root path, p.tool.hearing? path with
  | none, _ => some (.identity path)
  | some _, some ⟨_, .error e⟩ => some e
  | some _, _ => none

def finding? : Option Finding :=
  match identity? p.root path, p.tool.hearing? path with
  | some i, some ⟨ls, .ok exit⟩ => some ⟨i, Members.ofLines ls, exit⟩
  | _, _ => none

def block? : Option Block :=
  (identity? p.root path).map fun _ => ⟨Block.header path :: p.heard path⟩

/-- The deeds of a task before it comes out well or not. -/
def prelude : List Deed :=
  .tells (.processing path) :: ((p.block? path).map .submits).toList

def warnings (exit : ToolEnd) : List Deed :=
  if exit.status.success then [] else [.warns, .tells (.exited path exit)]

/-- The deeds of a whole task. -/
inductive Story : List Deed → Prop
  | failed {e : TaskError} (h : p.failure? path = some e) :
    Story (p.prelude path ++ [.tells (.failed path e), .fails (.of path e)])
  | recorded {x : Finding} (h : p.finding? path = some x) (replaced : Option Members) :
    Story (p.prelude path ++ [.records x.identity x.members replaced, .counts] ++
      warnings path x.exit ++
      if replaced.isSome then [.collides, .tells (.overwritten path x.identity)] else [])

/-- The deeds of a task up to a phase. -/
def Told : Phase → List Deed → Prop
  | .scheduled, ds => ds = []
  | .announced, ds => ds = [.tells (.processing path)]
  | .disassembled i result, ds =>
    ds = p.prelude path ∧ (∀ e, result = .error e → p.failure? path = some e) ∧
      ∀ m exit, result = .ok (m, exit) → p.finding? path = some ⟨i, m, exit⟩
  | .stored o, ds => ∃ m, p.finding? path = some ⟨o.identity, m, o.exit⟩ ∧
      ds = p.prelude path ++ [.records o.identity m o.replaced]
  | .counted o, ds => ∃ m, p.finding? path = some ⟨o.identity, m, o.exit⟩ ∧
      ds = p.prelude path ++ [.records o.identity m o.replaced, .counts]
  | .warned o, ds => ∃ m, p.finding? path = some ⟨o.identity, m, o.exit⟩ ∧
      o.exit.status.success = false ∧
      ds = p.prelude path ++ [.records o.identity m o.replaced, .counts] ++ [.warns]
  | .checked o, ds => ∃ m, p.finding? path = some ⟨o.identity, m, o.exit⟩ ∧
      ds = p.prelude path ++ [.records o.identity m o.replaced, .counts] ++ warnings path o.exit
  | .collided o, ds => ∃ m, p.finding? path = some ⟨o.identity, m, o.exit⟩ ∧
      o.replaced.isSome = true ∧
      ds = p.prelude path ++ [.records o.identity m o.replaced, .counts] ++
        warnings path o.exit ++ [.collides]
  | .refused e, ds => p.failure? path = some e ∧ ds = p.prelude path
  | .reported e, ds => p.failure? path = some e ∧
      ds = p.prelude path ++ [.tells (.failed path e)]
  | .finished, ds => p.Story path ds

variable {p path}

theorem prelude_of_stray (h : identity? p.root path = none) :
    p.prelude path = [.tells (.processing path)] := by
  simp [prelude, block?, h]

theorem prelude_of_identity {i : String} (hi : identity? p.root path = some i) {x : Hearing}
    (hx : p.tool.hearing? path = some x) :
    p.prelude path = [.tells (.processing path), .submits ⟨Block.header path :: x.lines⟩] := by
  simp [prelude, block?, heard, hi, hx]

theorem told_disassembled {i : String} {a : Attempt} (hi : identity? p.root path = some i)
    (ha : p.attempt path = .ok a) :
    p.Told path (.disassembled i a.result) [.tells (.processing path), .submits a.block] := by
  obtain ⟨⟨ls, ending⟩, hx, rfl⟩ := attempt_eq_ok ha
  refine ⟨(prelude_of_identity hi hx).symm, ?_, ?_⟩
  · intro e he
    cases ending <;> cases he
    simp [failure?, hi, hx]
  · intro m exit he
    cases ending <;> cases he
    simp [finding?, hi, hx]

theorem told_turn {r : Records} {phase phase' : Phase} {own ds : List Deed}
    (h : Turn p path r phase ds phase') (ht : p.Told path phase own) :
    p.Told path phase' (own ++ ds) := by
  cases h with
  | announce => simpa [Told] using ht
  | stray hi =>
    obtain rfl := ht
    exact ⟨by simp [failure?, hi], by simp [prelude_of_stray hi]⟩
  | disassemble hi ha =>
    obtain rfl := ht
    exact told_disassembled hi ha
  | refuse =>
    obtain ⟨rfl, he, -⟩ := ht
    exact ⟨he _ rfl, by simp⟩
  | record =>
    obtain ⟨rfl, -, hm⟩ := ht
    exact ⟨_, hm _ _ rfl, rfl⟩
  | count =>
    obtain ⟨m, hm, rfl⟩ := ht
    exact ⟨m, hm, by simp⟩
  | pass hs =>
    obtain ⟨m, hm, rfl⟩ := ht
    exact ⟨m, hm, by simp [warnings, hs]⟩
  | warn hs =>
    obtain ⟨m, hm, rfl⟩ := ht
    exact ⟨m, hm, hs, rfl⟩
  | tellExit =>
    obtain ⟨m, hm, hs, rfl⟩ := ht
    exact ⟨m, hm, by simp [warnings, hs]⟩
  | settle hr =>
    obtain ⟨m, hm, rfl⟩ := ht
    simpa [Told, hr] using Story.recorded hm none
  | collide hr =>
    obtain ⟨m, hm, rfl⟩ := ht
    exact ⟨m, hm, by simp [hr], rfl⟩
  | @tellOverwritten o =>
    obtain ⟨m, hm, hr, rfl⟩ := ht
    simpa [Told, hr] using Story.recorded hm o.replaced
  | tellFailure =>
    obtain ⟨he, rfl⟩ := ht
    exact ⟨he, rfl⟩
  | fail =>
    obtain ⟨he, rfl⟩ := ht
    simpa [Told] using Story.failed he

end Workbench

namespace History

theorem own_append_turn (t n : Nat) (h : History) (ds : List Deed) :
    own t (h ++ ds.map (n, ·)) = own t h ++ if n = t then ds else [] := by
  have : (ds.map (n, ·)).filter (fun x => decide (x.1 = t)) =
      if n = t then ds.map (n, ·) else [] := by
    by_cases hn : n = t <;> simp [List.filter_map, Function.comp_def, hn]
  rw [own, List.filter_append, List.map_append, this]
  split <;> simp [own, Function.comp_def]

/-- The deeds of a history are the deeds of its tasks, merged in some order. -/
theorem deeds_perm_own {n : Nat} {h : History} (hn : ∀ x ∈ h, x.1 < n) :
    h.deeds.Perm ((List.range n).flatMap fun t => own t h) := by
  have key : ∀ n,
      ((h.filter (·.1 < n)).map (·.2)).Perm ((List.range n).flatMap fun t => own t h) := by
    intro n
    induction n with
    | zero => simp
    | succ n ih =>
      have hlt : (h.filter (·.1 < n + 1)).filter (·.1 < n) = h.filter (·.1 < n) := by
        rw [List.filter_filter]
        congr 1; ext x; simp; omega
      have heq : (h.filter (·.1 < n + 1)).filter (fun x => !decide (x.1 < n)) =
          h.filter (·.1 = n) := by
        rw [List.filter_filter]
        congr 1; ext x
        by_cases hx : x.1 = n <;> simp [hx]; omega
      have hsplit := List.filter_append_perm (fun x => decide (x.1 < n)) (h.filter (·.1 < n + 1))
      rw [hlt, heq] at hsplit
      rw [List.range_succ, List.flatMap_append]
      refine (hsplit.symm.map _).trans ?_
      rw [List.map_append]
      exact ih.append (by simp [own])
  have hall : h.filter (·.1 < n) = h := List.filter_eq_self.2 (by simpa using hn)
  simpa [hall, deeds] using key n

end History

namespace Crew

open Workbench

variable {p : Workbench} {bench : Nat → Workbench} {paths : List Path} {s : Shared} {h : History}
  {d : Crew}

theorem getElem?_append_cons_of_ne {α : Type} {before after : List α} (a b : α) {t : Nat}
    (hn : before.length ≠ t) : (before ++ a :: after)[t]? = (before ++ b :: after)[t]? := by
  rcases Nat.lt_or_gt_of_ne hn with hlt | hlt
  · obtain ⟨k, rfl⟩ := Nat.exists_eq_add_of_lt hlt
    rw [Nat.add_assoc, List.getElem?_append_right (by omega), List.getElem?_append_right (by omega)]
    simp
  · rw [List.getElem?_append_left hlt, List.getElem?_append_left hlt]

/-- In every state that a run may come to, the history has told of each task what its phase
tells. -/
theorem RunsWith.told (hr : RunsWith bench (.init paths s) h d) :
    d.tasks.map (·.1) = paths ∧ (∀ x ∈ h, x.1 < paths.length) ∧
      ∀ t path phase, d.tasks[t]? = some (path, phase) → (bench t).Told path phase (h.own t) := by
  induction hr with
  | refl =>
    refine ⟨by simp [init, Function.comp_def], by simp, ?_⟩
    intro t path phase ht
    simp only [init, List.getElem?_map, Option.map_eq_some_iff, Prod.mk.injEq] at ht
    obtain ⟨_, -, rfl, rfl⟩ := ht
    rfl
  | @task h before after path phase phase' s ds _ ht ih =>
    obtain ⟨hp, hb, htold⟩ := ih
    refine ⟨by simpa using hp, ?_, ?_⟩
    · intro x hx
      rcases List.mem_append.1 hx with hx | hx
      · exact hb x hx
      · obtain ⟨_, _, rfl⟩ := List.mem_map.1 hx
        simp [← hp]
    · intro t q ph hq
      rw [History.own_append_turn]
      by_cases hn : before.length = t
      · subst hn
        simp only [List.getElem?_append_right (Nat.le_refl _), Nat.sub_self,
          List.getElem?_cons_zero, Option.some.injEq, Prod.mk.injEq] at hq
        obtain ⟨rfl, rfl⟩ := hq
        rw [if_pos rfl]
        exact told_turn ht (htold _ _ _ (by simp))
      · rw [if_neg hn, List.append_nil]
        refine htold t q ph ?_
        rw [← hq]
        exact getElem?_append_cons_of_ne _ _ hn
  | writer _ _ ih => exact ih

theorem Runs.told (hr : Runs p (.init paths s) h d) :
    d.tasks.map (·.1) = paths ∧ (∀ x ∈ h, x.1 < paths.length) ∧
      ∀ t path phase, d.tasks[t]? = some (path, phase) → p.Told path phase (h.own t) :=
  hr.runsWith.told

theorem RunsWith.story (hr : RunsWith bench (.init paths s) h d) (hd : d.IsDone) {t : Nat}
    {path : Path} (ht : paths[t]? = some path) : (bench t).Story path (h.own t) := by
  obtain ⟨hp, -, htold⟩ := hr.told
  rw [← hp, List.getElem?_map, Option.map_eq_some_iff] at ht
  obtain ⟨⟨path', phase⟩, htask, rfl⟩ := ht
  obtain rfl : phase = .finished := hd _ (List.mem_of_getElem? htask)
  exact htold t _ _ htask

theorem Runs.story (hr : Runs p (.init paths s) h d) (hd : d.IsDone) {t : Nat} {path : Path}
    (ht : paths[t]? = some path) : p.Story path (h.own t) :=
  hr.runsWith.story hd ht

theorem Runs.forall₂_story (hr : Runs p (.init paths s) h d) (hd : d.IsDone) :
    List.Forall₂ p.Story paths ((List.range paths.length).map (h.own ·)) := by
  apply List.forall₂_iff_get.2
  refine ⟨by simp, ?_⟩
  intro t ht ht'
  simpa using hr.story hd (List.getElem?_eq_getElem ht)

/-- The history of a finished run merges one story for each task. -/
theorem Runs.exists_stories (hr : Runs p (.init paths s) h d) (hd : d.IsDone) :
    ∃ stories, List.Forall₂ p.Story paths stories ∧ h.deeds.Perm stories.flatten := by
  refine ⟨_, hr.forall₂_story hd, ?_⟩
  rw [← List.flatMap_def]
  exact History.deeds_perm_own hr.told.2.1

end Crew

section Merged

variable {α β γ : Type} {R : α → List β → Prop} {as : List α} {stories : List (List β)}

theorem filterMap_flatten_of_forall₂ {f : β → Option γ} {g : α → Option γ}
    (h : List.Forall₂ R as stories) (hf : ∀ a bs, R a bs → bs.filterMap f = (g a).toList) :
    stories.flatten.filterMap f = as.filterMap g := by
  induction h with
  | nil => rfl
  | @cons a bs as stories hab _ ih =>
    rw [List.flatten_cons, List.filterMap_append, hf _ _ hab, ih, List.filterMap_cons]
    cases g a <;> rfl

theorem countP_flatten_of_forall₂ {f : β → Bool} {g : α → Bool}
    (h : List.Forall₂ R as stories) (hf : ∀ a bs, R a bs → bs.countP f = if g a then 1 else 0) :
    stories.flatten.countP f = as.countP g := by
  induction h with
  | nil => rfl
  | @cons a bs as stories hab _ ih =>
    rw [List.flatten_cons, List.countP_append, hf _ _ hab, ih, List.countP_cons, Nat.add_comm]

theorem countP_flatten_congr {f g : β → Bool} (h : List.Forall₂ R as stories)
    (hfg : ∀ a bs, R a bs → bs.countP f = bs.countP g) :
    stories.flatten.countP f = stories.flatten.countP g := by
  induction h with
  | nil => rfl
  | cons hab _ ih =>
    rw [List.flatten_cons, List.countP_append, List.countP_append, hfg _ _ hab, ih]

end Merged

end MemberIndex
