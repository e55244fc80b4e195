import MemberIndex.Proofs.Run.Sequential

/-! # The last write wins

Several tasks may record members for one identity. What stands in the end is what the last of
them has put, as a whole, and every other one of them is told once as a collision. One worker
takes the tasks in their order, so that of the artifacts of a discovery the greatest wins.
-/

namespace MemberIndex

theorem getLast?_eq_some_iff_of_rising {α β : Type} [Ord β] [Std.OrientedOrd β] {f : α → β}
    {as : List α} (h : as.Pairwise fun a b => compare (f a) (f b) = .lt) {a : α} :
    as.getLast? = some a ↔ a ∈ as ∧ ∀ b ∈ as, b = a ∨ compare (f b) (f a) = .lt := by
  constructor
  · intro hlast
    obtain ⟨before, rfl⟩ := List.getLast?_eq_some_iff.1 hlast
    refine ⟨by simp, ?_⟩
    intro b hb
    rcases List.mem_append.1 hb with hb | hb
    · exact .inr ((List.pairwise_append.1 h).2.2 b hb a (List.mem_singleton_self a))
    · exact .inl (List.mem_singleton.1 hb)
  · rintro ⟨ha, hgreatest⟩
    obtain ⟨before, z, rfl⟩ := List.eq_nil_or_concat as |>.resolve_left (List.ne_nil_of_mem ha)
    rw [List.concat_eq_append] at h ha hgreatest ⊢
    rw [List.getLast?_concat]
    rcases List.mem_append.1 ha with ha | ha
    · have hlt := (List.pairwise_append.1 h).2.2 a ha z (List.mem_singleton_self z)
      rcases hgreatest z (by simp) with rfl | hgt
      · rfl
      · exact absurd hlt (Std.OrientedCmp.not_lt_of_lt hgt)
    · rw [List.mem_singleton.1 ha]

namespace Deed

def puts (i : String) : Deed → Bool
  | records j _ _ => j = i
  | _ => false

def replaces (i : String) : Deed → Bool
  | records j _ replaced => j = i && replaced.isSome
  | _ => false

end Deed

def Event.overwrites (i : String) : Event → Bool
  | overwritten _ j => j = i
  | _ => false

namespace History

variable {h : History} {i : String} {t : Nat} {m : Members}

/-- The task at a place has put the members under the identity, and no task has put any
after it. -/
def LastPut (h : History) (i : String) (t : Nat) (m : Members) : Prop :=
  ∃ before replaced after, h = before ++ (t, .records i m replaced) :: after ∧
    ∀ x ∈ after, x.2.puts i = false

theorem lastPut_concat_iff (x : Nat × Deed) : LastPut (h ++ [x]) i t m ↔
    (∃ replaced, x = (t, .records i m replaced)) ∨ x.2.puts i = false ∧ h.LastPut i t m := by
  constructor
  · rintro ⟨before, replaced, after, heq, hafter⟩
    rcases List.eq_nil_or_concat after with rfl | ⟨after, y, rfl⟩
    · left
      exact ⟨replaced, (List.append_inj' heq rfl).2 |> List.singleton_inj.1⟩
    · right
      rw [List.concat_eq_append, ← List.cons_append, ← List.append_assoc] at heq
      obtain ⟨rfl, hxy⟩ := List.append_inj' heq rfl
      cases hxy
      refine ⟨hafter x (by simp), before, replaced, after, rfl, ?_⟩
      intro y hy
      exact hafter y (by simp [hy])
  · rintro (⟨replaced, rfl⟩ | ⟨hx, before, replaced, after, rfl, hafter⟩)
    · exact ⟨h, replaced, [], rfl, by simp⟩
    · refine ⟨before, replaced, after ++ [x], by simp, ?_⟩
      intro y hy
      rcases List.mem_append.1 hy with hy | hy
      · exact hafter y hy
      · rw [List.mem_singleton.1 hy]
        exact hx

theorem LastPut.mem (hl : h.LastPut i t m) : ∃ replaced, (t, .records i m replaced) ∈ h := by
  obtain ⟨before, replaced, after, rfl, -⟩ := hl
  exact ⟨replaced, by simp⟩

theorem getElem?_putAll_iff (h : History) (i : String) (m : Members) :
    ((∅ : Records).putAll (deeds h |>.filterMap Deed.row?))[i]? = some m ↔
      ∃ t, h.LastPut i t m := by
  induction h using List.reverseRecOn with
  | nil =>
    constructor
    · intro hm
      simp [deeds, Records.putAll] at hm
    · rintro ⟨t, hl⟩
      obtain ⟨replaced, hmem⟩ := hl.mem
      cases hmem
  | append_singleton h x ih =>
    obtain ⟨t, deed⟩ := x
    have hdeeds : deeds (h ++ [(t, deed)]) = deeds h ++ [deed] := deeds_append_turn h t [deed]
    simp only [lastPut_concat_iff, exists_or, exists_and_left]
    rw [hdeeds, List.filterMap_append, Records.putAll_append, ← ih]
    cases deed with
    | records j m' replaced =>
      change ((Records.putAll _ _).put j m').2[i]? = some m ↔ _
      rw [Records.getElem?_put]
      by_cases hj : j = i
      · subst hj
        simp [Deed.puts]
      · simp [Deed.puts, hj]
    | _ =>
      simp only [Prod.mk.injEq, reduceCtorEq, and_false, exists_false, false_or, Deed.puts,
        true_and]
      rfl

end History

namespace Workbench

variable {p : Workbench} {path : Path} {i : String} {m : Members} {paths : List Path}
  {ds : List Deed}

/-- The task of a path ends well: its path has the identity, and its attempt has come to the
members. -/
def Extracts (p : Workbench) (path : Path) (i : String) (m : Members) : Prop :=
  identity? p.root path = some i ∧ ∃ a exit, p.attempt path = .ok a ∧ a.result = .ok (m, exit)

/-- Of the tasks that end well with the identity, the one of the greatest path has come to the
members. -/
def Greatest (p : Workbench) (paths : List Path) (i : String) (m : Members) : Prop :=
  ∃ q ∈ paths, p.Extracts q i m ∧ ∀ q' ∈ paths, ∀ m', p.Extracts q' i m' →
    q' = q ∨ compare q'.sortKey q.sortKey = .lt

theorem extracts_iff (hanswered : (∃ i, identity? p.root path = some i) →
    ∃ a, p.attempt path = .ok a) :
    p.Extracts path i m ↔ ∃ exit, p.finding? path = some ⟨i, m, exit⟩ := by
  cases hi : identity? p.root path with
  | none => simp [Extracts, finding?, hi]
  | some j =>
    obtain ⟨a, ha⟩ := hanswered ⟨j, hi⟩
    obtain ⟨⟨ls, ending⟩, hx, rfl⟩ := attempt_eq_ok ha
    cases ending with
    | error e => simp [Extracts, finding?, hi, hx, ha, Except.map]
    | ok exit =>
      simp [Extracts, finding?, hi, hx, ha, Except.map]

theorem produces_iff :
    p.produces i path = true ↔ ∃ m exit, p.finding? path = some ⟨i, m, exit⟩ := by
  cases hx : p.finding? path with
  | none => simp [produces, hx]
  | some x =>
    obtain ⟨j, m, exit⟩ := x
    simp [produces, hx]

theorem getElem?_putAll_rows (p : Workbench) (i : String) (paths : List Path) :
    ((∅ : Records).putAll (paths.filterMap p.row?))[i]? =
      ((paths.filter (p.produces i)).getLast?.bind p.row?).map (·.2) := by
  induction paths using List.reverseRecOn with
  | nil => simp [Records.putAll]
  | append_singleton paths path ih =>
    rw [List.filterMap_append, Records.putAll_append, List.filter_append]
    cases hx : p.finding? path with
    | none =>
      have hrow : p.row? path = none := by simp [row?, hx]
      have hnot : p.produces i path = false := by simp [produces, hx]
      rw [List.filterMap_cons_none hrow, List.filter_cons_of_neg (by simp [hnot]),
        List.filter_nil, List.append_nil]
      exact ih
    | some x =>
      have hrow : p.row? path = some (x.identity, x.members) := by simp [row?, hx]
      rw [List.filterMap_cons_some hrow]
      change ((Records.putAll _ _).put x.identity x.members).2[i]? = _
      rw [Records.getElem?_put]
      by_cases hi : x.identity = i
      · have hproduces : p.produces i path = true := by simp [produces, hx, hi]
        rw [if_pos hi, List.filter_cons_of_pos hproduces, List.filter_nil, List.getLast?_concat,
          Option.bind_some, hrow]
        rfl
      · have hnot : p.produces i path = false := by simp [produces, hx, hi]
        rw [if_neg hi, List.filter_cons_of_neg (by simp [hnot]), List.filter_nil, List.append_nil]
        exact ih

theorem map_row?_iff (h : p.produces i path = true) :
    (p.row? path).map (·.2) = some m ↔ ∃ exit, p.finding? path = some ⟨i, m, exit⟩ := by
  obtain ⟨m', exit, hx⟩ := produces_iff.1 h
  simp [row?, hx]

theorem Story.overwrites_eq (h : p.Story path ds) (i : String) :
    ds.countP (fun x => x.event?.any (Event.overwrites i)) = ds.countP (Deed.replaces i) := by
  cases h with
  | @failed e he =>
    cases hb : p.block? path <;> simp [prelude, hb, Deed.replaces, Event.overwrites]
  | @recorded x hx replaced =>
    cases hb : p.block? path <;> cases replaced <;> cases hs : x.exit.status.success <;>
      simp [prelude, warnings, hb, hs, List.countP_cons, Deed.replaces, Event.overwrites]

end Workbench

namespace Crew

variable {p : Workbench} {workers : Nat} {paths : List Path} {s : Shared} {h : History}
  {c d : Crew} {i : String}

theorem Runs.countP_puts (hr : Runs p c h d) (i : String) :
    h.deeds.countP (Deed.replaces i) + (if d.shared.records[i]?.isSome then 1 else 0) =
      h.deeds.countP (Deed.puts i) + if c.shared.records[i]?.isSome then 1 else 0 := by
  induction hr with
  | refl => rfl
  | @task h before after path phase phase' s ds _ ht ih =>
    have hturn : ds.countP (Deed.replaces i) +
        (if (ds.foldl Deed.act s).records[i]?.isSome then 1 else 0) =
          ds.countP (Deed.puts i) + if s.records[i]?.isSome then 1 else 0 := by
      cases ht with
      | @record j m exit =>
        change _ + (if (s.records.put j m).2[i]?.isSome then 1 else 0) = _
        rw [Records.getElem?_put]
        by_cases hj : j = i
        · subst hj
          cases s.records[j]? <;> simp [Deed.replaces, Deed.puts]
        · simp [Deed.replaces, Deed.puts, hj]
      | _ => rfl
    rw [History.deeds_append_turn, List.countP_append, List.countP_append]
    change h.deeds.countP _ + (if s.records[i]?.isSome then 1 else 0) = _ at ih
    change _ + (if (ds.foldl Deed.act s).records[i]?.isSome then 1 else 0) = _
    omega
  | writer _ _ ih => exact ih

section

variable (hr : Runs p (.init paths s) h d) (hd : d.IsDone)
include hr hd

theorem Runs.countP_produces (i : String) :
    h.deeds.countP (Deed.puts i) = paths.countP (p.produces i) := by
  rw [← Workbench.countP_entries, ← (hr.entries hd).countP_eq, List.countP_filterMap]
  congr 1
  funext deed
  cases deed <;> rfl

/-- As many overwritten records of an identity are told as were replaced. -/
theorem Runs.countP_overwrites (i : String) : d.shared.events.countP (Event.overwrites i) =
    s.events.countP (Event.overwrites i) + h.deeds.countP (Deed.replaces i) := by
  have hevents : d.shared.events = s.events ++ h.deeds.filterMap Deed.event? := by
    rw [hr.shared_eq]
    rfl
  have htold : (h.deeds.filterMap Deed.event?).countP (Event.overwrites i) =
      h.deeds.countP fun x => x.event?.any (Event.overwrites i) := by
    rw [List.countP_filterMap]
    congr 1
    funext deed
    cases deed <;> rfl
  obtain ⟨stories, hs, hp⟩ := hr.exists_stories hd
  rw [hevents, List.countP_append, htold, hp.countP_eq, hp.countP_eq,
    countP_flatten_congr hs fun _ _ h => h.overwrites_eq i]

theorem Runs.isSome_record_iff (he : s.records = ∅) (i : String) :
    d.shared.records[i]?.isSome = true ↔ ∃ q ∈ paths, p.produces i q = true := by
  obtain ⟨entries, hp, hrecords⟩ := hr.exists_records_eq hd
  have hcount : entries.countP (·.1 = i) = paths.countP (p.produces i) := by
    rw [hp.countP_eq, Workbench.countP_entries]
  have hpos : (∃ m, (i, m) ∈ entries) ↔ 0 < entries.countP (·.1 = i) := by
    rw [List.countP_pos_iff]
    constructor
    · rintro ⟨m, hm⟩
      exact ⟨_, hm, by simp⟩
    · rintro ⟨⟨j, m⟩, hm, hj⟩
      obtain rfl := of_decide_eq_true hj
      exact ⟨m, hm⟩
  rw [← Std.ExtTreeMap.mem_iff_isSome_getElem?, hrecords, he, Records.mem_putAll_iff, hpos, hcount,
    List.countP_pos_iff]
  simp

theorem Runs.overwrites_eq (he : s.records = ∅) (i : String) :
    d.shared.events.countP (Event.overwrites i) =
      s.events.countP (Event.overwrites i) + (paths.countP (p.produces i) - 1) := by
  have hputs := hr.countP_puts i
  have hsome := hr.isSome_record_iff hd he i
  rw [← List.countP_pos_iff] at hsome
  rw [hr.countP_produces hd] at hputs
  have hnone : ((Crew.init paths s).shared.records[i]?).isSome = false := by
    change (s.records[i]?).isSome = false
    rw [he]
    simp
  rw [hr.countP_overwrites hd]
  rw [hnone] at hputs
  by_cases hfound : d.shared.records[i]?.isSome = true
  · simp only [hfound, if_true, Bool.false_eq_true, if_false] at hputs
    omega
  · have hzero := mt hsome.2 hfound
    simp only [hfound, Bool.false_eq_true, if_false] at hputs
    omega

theorem Runs.extracts_of_mem {t : Nat} {m : Members} {replaced : Option Members}
    (hmem : (t, .records i m replaced) ∈ h) :
    ∃ q, paths[t]? = some q ∧ p.Extracts q i m := by
  have hlt := hr.told.2.1 _ hmem
  have ht := List.getElem?_eq_getElem hlt
  refine ⟨_, ht, ?_⟩
  have hanswered := (reaches_iff_runs.2 ⟨h, hr⟩).answered hd (List.getElem_mem hlt)
  rw [Workbench.extracts_iff hanswered]
  have hrow : (i, m) ∈ (h.own t).filterMap Deed.row? :=
    List.mem_filterMap.2 ⟨_, History.mem_own_iff.2 hmem, rfl⟩
  have htold : p.Told paths[t] .finished (h.own t) := hr.story hd ht
  obtain ⟨x, hx, rfl, rfl, -⟩ := Workbench.finding?_of_told htold hrow
  exact ⟨x.exit, hx⟩

end

/-- Of paths that rise, the greatest that records an identity wins, if there is one worker. -/
theorem Works.getElem?_records (hw : Works p 1 (.init paths s) d) (hd : d.IsDone)
    (he : s.records = ∅) (hrise : paths.Pairwise fun q q' => compare q.sortKey q'.sortKey = .lt)
    (i : String) (m : Members) :
    d.shared.records[i]? = some m ↔ p.Greatest paths i m := by
  obtain ⟨h, hr, hin⟩ := hw.exists_runs
  have hrecords : d.shared.records = (∅ : Records).putAll (paths.filterMap p.row?) := by
    rw [hr.shared_eq, ← hr.entries_inOrder hd (hin rfl), ← he]
    rfl
  have hextracts {q : Path} (hq : q ∈ paths) (j : String) (n : Members) :
      p.Extracts q j n ↔ ∃ exit, p.finding? q = some ⟨j, n, exit⟩ :=
    Workbench.extracts_iff (hw.reaches.answered hd hq)
  have hproduces : (paths.filter (p.produces i)).Pairwise
      fun q q' => compare q.sortKey q'.sortKey = .lt := hrise.sublist List.filter_sublist
  rw [hrecords, Workbench.getElem?_putAll_rows, Option.map_bind, Option.bind_eq_some_iff]
  simp only [getLast?_eq_some_iff_of_rising hproduces, List.mem_filter, Function.comp_apply]
  constructor
  · rintro ⟨q, ⟨⟨hq, hproduced⟩, hgreatest⟩, hm⟩
    obtain ⟨exit, hx⟩ := (Workbench.map_row?_iff hproduced).1 hm
    refine ⟨q, hq, (hextracts hq i m).2 ⟨exit, hx⟩, ?_⟩
    intro q' hq' m' hm'
    obtain ⟨exit', hx'⟩ := (hextracts hq' i m').1 hm'
    exact hgreatest q' ⟨hq', Workbench.produces_iff.2 ⟨m', exit', hx'⟩⟩
  · rintro ⟨q, hq, hm, hgreatest⟩
    obtain ⟨exit, hx⟩ := (hextracts hq i m).1 hm
    have hproduced := Workbench.produces_iff.2 ⟨m, exit, hx⟩
    refine ⟨q, ⟨⟨hq, hproduced⟩, ?_⟩, (Workbench.map_row?_iff hproduced).2 ⟨exit, hx⟩⟩
    rintro q' ⟨hq', hproduced⟩
    obtain ⟨m', exit', hx'⟩ := Workbench.produces_iff.1 hproduced
    exact hgreatest q' hq' m' ((hextracts hq' i m').2 ⟨exit', hx'⟩)

/-- A run of any number of workers on an index without records, when all its tasks are finished.
Under an identity stands what the last of its tasks to put has extracted, as a whole, and an
identity has a record if a task with it has ended well. As many overwritten records are told as
tasks with the identity have ended well, less one. A run of one worker is the fold of its tasks,
each done at once; so over paths that rise, as those of a discovery do, the greatest of those
that end well wins. -/
theorem last_write_wins (he : s.records = ∅) (hw : Works p workers (.init paths s) d)
    (hd : d.IsDone) :
    (∃ h, Runs p (.init paths s) h d) ∧
      (∀ h, Runs p (.init paths s) h d → ∀ i m, d.shared.records[i]? = some m ↔
        ∃ t q, h.LastPut i t m ∧ paths[t]? = some q ∧ p.Extracts q i m) ∧
      (∀ q ∈ paths, ∀ i, p.produces i q = true ↔ ∃ m, p.Extracts q i m) ∧
      (∀ i, d.shared.records[i]?.isSome = true ↔ ∃ q ∈ paths, p.produces i q = true) ∧
      (∀ i, d.shared.events.countP (Event.overwrites i) =
        s.events.countP (Event.overwrites i) + (paths.countP (p.produces i) - 1)) ∧
      (workers = 1 → (∃ s', paths.foldlM p.serve s = .ok s' ∧ d.shared.Agrees s') ∧
        (paths.Pairwise (fun q q' => compare q.sortKey q'.sortKey = .lt) →
          ∀ i m, d.shared.records[i]? = some m ↔ p.Greatest paths i m)) ∧
      ∀ tool w (settings : Settings) clock t run inv, t.IsNamed →
        Run.WorksTo 1 tool w settings clock t run → run.outcome = .complete inv →
        ∃ found, discover t settings.root settings.extension = .ok found ∧
          ∀ i m, inv.records[i]? = some m ↔
            (⟨settings.root, tool, clock⟩ : Workbench).Greatest found.artifacts i m := by
  obtain ⟨h, hr, -⟩ := hw.exists_runs
  refine ⟨⟨h, hr⟩, ?_, ?_, hr.isSome_record_iff hd he, hr.overwrites_eq hd he, ?_, ?_⟩
  · intro h hr i m
    have hrecords : d.shared.records = (∅ : Records).putAll (h.deeds.filterMap Deed.row?) := by
      rw [hr.shared_eq, ← he]
      rfl
    rw [hrecords, History.getElem?_putAll_iff]
    constructor
    · rintro ⟨t, hlast⟩
      obtain ⟨replaced, hmem⟩ := hlast.mem
      obtain ⟨q, hq, hm⟩ := hr.extracts_of_mem hd hmem
      exact ⟨t, q, hlast, hq, hm⟩
    · rintro ⟨t, q, hlast, -, -⟩
      exact ⟨t, hlast⟩
  · intro q hq i
    rw [Workbench.produces_iff]
    simp only [Workbench.extracts_iff (hw.reaches.answered hd hq)]
  · rintro rfl
    exact ⟨hw.exists_foldlM hd, hw.getElem?_records hd he⟩
  · intro tool w settings clock t run inv ht h hrun
    cases h with
    | @completed r c hs hc hdone =>
      have hfound := (Run.start_eq_ok hs).2
      have hrise := (Discovery.discovers_of_discover hfound).sorted_artifacts ht
      cases hrun
      exact ⟨r.discovery, hfound, hc.getElem?_records hdone rfl hrise⟩

def picky : Workbench where
  root := .ofString "in"
  tool := ⟨"javap", none, fun q =>
    if 120 ∈ q.bytes then .error (.os .noEntry)
    else .ok { output := if q.bytes.count 47 = 1 then [112, 46, 113, 10] else [] }⟩

def contenders : List Path :=
  [.ofString "in/a/B.class", .ofString "in/a.B.class", .ofString "in/a.B.x"]

theorem exists_attempt_of_picky (q : Path) : ∃ a, picky.attempt q = .ok a := by
  apply Workbench.attempt_isOk_iff.2
  intro b hb
  simp only [picky] at hb
  split at hb <;> cases hb
  exact .inr ⟨_, rfl⟩

theorem last_write_wins_of_contenders :
    ∃ d, Works picky 1 (.init contenders {}) d ∧ d.IsDone ∧
      d.shared.records["a.B"]? = some (Members.ofLines ["p.q"]) ∧
      d.shared.events.countP (Event.overwrites "a.B") = 1 := by
  obtain ⟨d, hw, hd⟩ := Workbench.exists_works (fun q _ => exists_attempt_of_picky q) 1 {}
  obtain ⟨-, -, -, -, hevents, hone, -⟩ := last_write_wins rfl hw hd
  refine ⟨d, hw, hd, ?_, ?_⟩
  · have hanswered (q : Path) : (∃ i, identity? picky.root q = some i) →
        ∃ a, picky.attempt q = .ok a := fun _ => exists_attempt_of_picky q
    have hidentity : identity? picky.root (.ofString "in/a.B.class") = some "a.B" := by cbv
    have hheard : picky.tool.hearing? (.ofString "in/a.B.class") =
        some ⟨["p.q"], .ok ⟨.code 0, ""⟩⟩ := by cbv
    have hfails : picky.tool.start (.ofString "in/a.B.x") = .error (.os .noEntry) := by cbv
    refine ((hone rfl).2 (by decide) _ _).2 ⟨.ofString "in/a.B.class", by simp [contenders], ?_, ?_⟩
    · rw [Workbench.extracts_iff (hanswered _)]
      exact ⟨⟨.code 0, ""⟩, by simp only [Workbench.finding?, hidentity, hheard]⟩
    · intro q hq m hm
      rcases List.mem_cons.1 hq with rfl | hq
      · exact .inr (by decide)
      rcases List.mem_cons.1 hq with rfl | hq
      · exact .inl rfl
      · obtain rfl := List.mem_singleton.1 hq
        obtain ⟨-, a, exit, ha, hresult⟩ := hm
        simp only [Workbench.attempt, hfails] at ha
        cases ha
        cases hresult
  · rw [hevents]
    cbv

end Crew

end MemberIndex
