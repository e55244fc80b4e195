import MemberIndex.Proofs.FileTree.Parents
import MemberIndex.Proofs.Path.Holders

/-! # The entry at a path

What stands at a path itself, be it a link, in the directory that the path is taken in. In a
tree where every entry has its directory nothing stands below what is missing, so that a
directory that is made on the way to a path leaves this path as empty as it was.
-/

namespace MemberIndex.FileTree

open MemberIndex.Path (dot isIdle)

/-- The entry that stands at a path, be it a link. -/
def entryOf? (t : FileTree) (p : Path) : Option Entry :=
  match t.locate false p with
  | .ok l => t.entryAt? l
  | .error _ => none

/-- Every entry stands in a directory. -/
def IsRooted (t : FileTree) : Prop :=
  ∀ l e, t.entryAt? l = some e → t.isDirectoryAt l.dropLast = true

def endAt? (t : FileTree) (place : Location) (last : List UInt8) : Option Entry :=
  if !t.isDirectoryAt place then none
  else if isIdle last then t.entryAt? place
  else if last = [dot, dot] then t.entryAt? place.dropLast
  else if maxName < last.length then none
  else t.entryAt? (place ++ [last])

variable {p q : Path} {t t' : FileTree} {links : Nat} {place : Location}
  {before : List (List UInt8)} {last : List UInt8} {e : Entry}

section Walk

theorem walk_concat (t : FileTree) (links : Nat) (place : Location) (before : List (List UInt8))
    (last : List UInt8) : t.walk false links place (before ++ [last]) =
      (t.walk true links place before).bind fun mid =>
        t.walk false mid.links mid.place [last] := by
  -- on the links first: the pieces of a link's target come before those that are left
  induction links using Nat.strongRecOn generalizing place before with
  | _ links ihl =>
    induction before generalizing place with
    | nil =>
      rw [walk_nil]
      rfl
    | cons piece rest ih =>
      have hrest : rest ++ [last] ≠ [] := by simp
      rw [List.cons_append, walk_cons, walk_cons t true]
      split
      · rfl
      split
      · exact ih place
      split
      · exact ih place.dropLast
      split
      · rfl
      cases t.entryAt? (place ++ [piece]) with
      | none => rfl
      | some e =>
        cases e with
        | link target =>
          simp only [hrest, false_and, ↓reduceIte, Bool.not_true, Bool.false_eq_true, and_false]
          cases links with
          | zero => rfl
          | succ n =>
            have htarget := ihl n (Nat.lt_succ_self n)
            simp only [← List.append_assoc, htarget]
        | directory | file | device => exact ih (place ++ [piece])

theorem walk_singleton_iff : (∃ r, t.walk false links place [last] = .ok r ∧
    t.entryAt? r.place = some e) ↔ t.endAt? place last = some e := by
  have hidle : isIdle last = true ↔ last = [] ∨ last = [dot] := decide_eq_true_iff
  rw [walk_cons, endAt?]
  simp only [walk_nil, hidle]
  split
  · simp
  split
  · simp
  split
  · simp
  split
  · simp
  cases he : t.entryAt? (place ++ [last]) with
  | none => simp
  | some e' => cases e' <;> simp [he]

/-- What stands at a path is found in the directory that the pieces before the last one lead to. -/
theorem entryOf?_eq_some_iff (hp : p.pieces = before ++ [last]) : t.entryOf? p = some e ↔
    checkPath p = .ok () ∧ ∃ mid, Leads t maxLinks (t.origin p) before mid ∧
      t.endAt? mid.place last = some e := by
  have hwalk : t.entryOf? p = some e ↔ checkPath p = .ok () ∧
      ∃ r, t.walk false maxLinks (t.origin p) p.pieces = .ok r ∧ t.entryAt? r.place = some e := by
    unfold entryOf? locate
    cases checkPath p with
    | error _ => simp [bind, Except.bind]
    | ok _ =>
      cases t.walk false maxLinks (t.origin p) p.pieces <;>
        simp [bind, Except.bind, Except.map, liftErrno]
  rw [hwalk, hp, walk_concat, and_congr_right_iff]
  intro _
  constructor
  · rintro ⟨r, hr, he⟩
    cases hmid : t.walk true maxLinks (t.origin p) before with
    | error _ =>
      rw [hmid] at hr
      cases hr
    | ok mid =>
      rw [hmid] at hr
      exact ⟨mid, leads_of_walk hmid, walk_singleton_iff.1 ⟨r, hr, he⟩⟩
  · rintro ⟨mid, hmid, he⟩
    rw [walk_of_leads hmid]
    exact walk_singleton_iff.2 he

end Walk

section Keeps

theorem endAt?_eq_some (h : t.endAt? place last = some e) : t.isDirectoryAt place = true := by
  unfold endAt? at h
  split at h
  · cases h
  · rename_i hd
    simpa using hd

theorem endAt?_keep (hk : Keeps t t') (hup : last ≠ [dot, dot])
    (hlast : IsName last → t.entryAt? (place ++ [last]) = some e →
      t'.entryAt? (place ++ [last]) = some e)
    (h : t.endAt? place last = some e) : t'.endAt? place last = some e := by
  have hd := endAt?_eq_some h
  have hd' := hk.isDirectoryAt hd
  simp only [endAt?, hd, hd', hup, Bool.not_true, Bool.false_eq_true, ↓reduceIte] at h ⊢
  split at h
  · cases h.symm.trans (of_decide_eq_true hd)
    rename_i hidle
    rw [if_pos hidle]
    exact of_decide_eq_true hd'
  · rename_i hidle
    split at h
    · cases h
    · rename_i hshort
      obtain ⟨hnil, hdot⟩ := not_or.1 fun h => hidle (decide_eq_true h)
      rw [if_neg hidle, if_neg hshort]
      exact hlast ⟨⟨hnil, hdot, hup⟩, Nat.not_lt.1 hshort⟩ h

/-- What stands at a path stands there in a tree that keeps the ways and the entry at the path's
last step. -/
theorem entryOf?_keep (hup : [dot, dot] ∉ p.pieces) (hk : Keeps t t')
    (hc : t'.current = t.current)
    (hlast : ∀ d, StepsTo t p d → d.slashed = false → IsName d.name →
      t.entryAt? d.place = some e → t'.entryAt? d.place = some e)
    (h : t.entryOf? p = some e) : t'.entryOf? p = some e := by
  obtain ⟨before, last, hp⟩ := (List.eq_nil_or_concat' p.pieces).resolve_left Text.fields_ne_nil
  obtain ⟨hvalid, mid, hmid, he⟩ := (entryOf?_eq_some_iff hp).1 h
  have hd := endAt?_eq_some he
  have hne : last ≠ [dot, dot] := fun h => hup (by simp [hp, h])
  rw [entryOf?_eq_some_iff hp, origin_congr hc]
  refine ⟨hvalid, mid, hmid.keep hk hd, endAt?_keep hk hne (fun hn => ?_) he⟩
  have hsplit := hp ▸ splitLast?_append hn.some.1 before
  exact hlast ⟨mid.place, mid.links, last, false⟩ ⟨hvalid, lastStep_of_leads hsplit hmid hd⟩ rfl hn

theorem entryOf?_congr (hup : [dot, dot] ∉ p.pieces) (hk : Keeps t t') (hk' : Keeps t' t)
    (hc : t'.current = t.current)
    (hlast : ∀ d, StepsTo t p d → d.slashed = false → IsName d.name →
      t'.entryAt? d.place = t.entryAt? d.place) : t'.entryOf? p = t.entryOf? p := by
  apply Option.ext
  intro e
  constructor
  · apply entryOf?_keep hup hk' hc.symm
    intro d hd hs hn he
    exact (hlast d (hd.keep hk' hc.symm) hs hn).symm.trans he
  · apply entryOf?_keep hup hk hc
    intro d hd hs hn he
    exact (hlast d hd hs hn).trans he

end Keeps

section LastStep

variable {s : LastStep}

theorem endAt?_of_isName (hd : t.isDirectoryAt place = true) (hn : IsName last) :
    t.endAt? place last = t.entryAt? (place ++ [last]) := by
  obtain ⟨⟨hnil, hdot, hup⟩, hshort⟩ := hn
  have hidle : isIdle last = false := decide_eq_false (not_or.2 ⟨hnil, hdot⟩)
  rw [endAt?, if_neg (by simp [hd]), if_neg (by simp [hidle]), if_neg hup,
    if_neg (Nat.not_lt.2 hshort)]

theorem StepsTo.exists_pieces (h : StepsTo t p s) (hs : s.slashed = false) :
    ∃ before, p.pieces = before ++ [s.name] ∧
      Leads t maxLinks (t.origin p) before ⟨s.directory, s.links⟩ ∧
      t.isDirectoryAt s.directory = true :=
  exists_leads_of_lastStep h.step hs (keeps_refl t)

theorem StepsTo.entryOf? (h : StepsTo t p s) (hs : s.slashed = false) (hn : IsName s.name) :
    t.entryOf? p = t.entryAt? s.place := by
  obtain ⟨before, hp, hleads, hd⟩ := h.exists_pieces hs
  apply Option.ext
  intro e
  rw [entryOf?_eq_some_iff hp]
  constructor
  · rintro ⟨-, mid, hmid, he⟩
    cases hmid.unique hleads
    rwa [endAt?_of_isName hd hn] at he
  · intro he
    refine ⟨h.valid, _, hleads, ?_⟩
    rwa [endAt?_of_isName hd hn]

theorem StepsTo.locate_false (h : StepsTo t p s) (hs : s.slashed = false) (hn : IsName s.name)
    (he : t.entryAt? s.place = some e) : t.locate false p = .ok s.place := by
  obtain ⟨before, hp, hleads, hd⟩ := h.exists_pieces hs
  have hlast : t.walk false s.links s.directory [s.name] = .ok ⟨s.place, s.links⟩ := by
    obtain ⟨⟨hnil, hdot, hup⟩, hshort⟩ := hn
    rw [LastStep.place] at he ⊢
    rw [walk_cons, if_neg (by simp [hd]), if_neg (not_or.2 ⟨hnil, hdot⟩), if_neg hup,
      if_neg (Nat.not_lt.2 hshort), he]
    cases e with
    | link target => simp
    | directory | file | device => exact walk_nil ..
  rw [FileTree.locate, h.valid, hp, walk_concat, walk_of_leads hleads, Except.bind, hlast]
  rfl

theorem exists_stepsTo_of_entryOf? (hp : p.pieces = before ++ [last]) (hl : last ≠ [])
    (h : t.entryOf? p = some e) : ∃ d, StepsTo t p d := by
  obtain ⟨hvalid, mid, hmid, he⟩ := (entryOf?_eq_some_iff hp).1 h
  refine ⟨⟨mid.place, mid.links, last, false⟩, hvalid, ?_⟩
  exact lastStep_of_leads (hp ▸ splitLast?_append hl before) hmid (endAt?_eq_some he)

theorem exists_entryAt?_of_leads {piece : List UInt8} {rest : List (List UInt8)} {r : Reached}
    (h : Leads t links place (piece :: rest) r) (hn : IsName piece) :
    ∃ e, t.entryAt? (place ++ [piece]) = some e := by
  obtain ⟨⟨hnil, hdot, hup⟩, -⟩ := hn
  cases h with
  | skip _ hskip => exact absurd hskip (not_or.2 ⟨hnil, hdot⟩)
  | up => exact absurd rfl hup
  | down _ _ he => exact ⟨_, he⟩
  | link _ _ he => exact ⟨_, he⟩

theorem StepsTo.not_leads {more : List (List UInt8)} {r : Reached} (h : StepsTo t q s)
    (hn : IsName s.name) (hnone : t.entryAt? s.place = none) :
    ¬ Leads t maxLinks (t.origin q) (q.pieces ++ more) r := by
  intro hleads
  obtain ⟨before, hsplit, hbefore, -⟩ := lastStep_eq_some h.step
  obtain ⟨rest, hpieces, -⟩ := exists_splitLast?_eq_some hsplit
  rw [hpieces, List.append_assoc, leads_append_iff] at hleads
  obtain ⟨mid, hmid, hrest⟩ := hleads
  cases hmid.unique hbefore
  obtain ⟨e, he⟩ := exists_entryAt?_of_leads hrest hn
  cases hnone.symm.trans he

theorem StepsTo.not_isIdle (h : StepsTo t q s) (hn : IsName s.name) : ¬ q.IsIdle := by
  intro hidle
  obtain ⟨before, hsplit, -⟩ := lastStep_eq_some h.step
  obtain ⟨rest, hpieces, -⟩ := exists_splitLast?_eq_some hsplit
  obtain ⟨⟨hnil, hdot, -⟩, -⟩ := hn
  have hname := of_decide_eq_true (hidle s.name (by simp [hpieces]))
  exact hname.elim hnil hdot

end LastStep

section Rooted

theorem isRooted_iff : t.IsRooted ↔ ∀ x ∈ t.toList, t.isDirectoryAt x.1.dropLast = true := by
  constructor
  · intro h x hx
    exact h _ _ ((mem_toList_iff t _ _).1 hx).2
  · intro h l e he
    by_cases hl : l = []
    · rw [hl]
      rfl
    · exact h (l, e) ((mem_toList_iff t l e).2 ⟨hl, he⟩)

instance : Decidable t.IsRooted := decidable_of_iff' _ isRooted_iff

theorem IsRooted.put {l : Location} (h : t.IsRooted) (hl : l ≠ []) (hend : t.IsEndAt l)
    (hd : t.isDirectoryAt l.dropLast = true) (e : Entry) : (t.put l e).IsRooted := by
  have hkeeps := keeps_put hl hend e
  intro m e' he
  rw [entryAt?_put t hl] at he
  split at he
  · rename_i hm
    rw [← hm]
    exact hkeeps.isDirectoryAt hd
  · exact hkeeps.isDirectoryAt (h m e' he)

theorem isDirectoryAt_of_lastStep {s : LastStep} {pieces : List (List UInt8)}
    (h : t.lastStep links place pieces = .ok (some s)) :
    t.isDirectoryAt s.place.dropLast = true := by
  obtain ⟨-, -, -, hd⟩ := lastStep_eq_some h
  rwa [LastStep.place, List.dropLast_concat]

theorem IsRooted.make {s : LastStep} (h : t.IsRooted) (hs : StepsTo t q s)
    (hnone : t.entryAt? s.place = none) : (t.put s.place .directory).IsRooted :=
  h.put s.place_ne_nil (isEndAt_of_none hnone) (isDirectoryAt_of_lastStep hs.step) _

theorem IsRooted.entryAt?_concat (h : t.IsRooted) {l : Location} (hl : t.entryAt? l = none)
    (n : Name) : t.entryAt? (l ++ [n]) = none := by
  apply Option.eq_none_iff_forall_ne_some.2
  intro e he
  have hd := h _ _ he
  rw [List.dropLast_concat] at hd
  cases hl.symm.trans (of_decide_eq_true hd)

theorem leads_of_bare {pieces : List (List UInt8)} {r : Reached}
    (hbare : ∀ n, t.entryAt? (place ++ [n]) = none) (hup : [dot, dot] ∉ pieces)
    (h : Leads t links place pieces r) :
    (∀ piece ∈ pieces, isIdle piece = true) ∧ r.place = place := by
  induction h with
  | nil => exact ⟨nofun, rfl⟩
  | skip _ hskip _ ih =>
    obtain ⟨hrest, hr⟩ := ih hbare fun hmem => hup (List.mem_cons_of_mem _ hmem)
    exact ⟨List.forall_mem_cons.2 ⟨decide_eq_true hskip, hrest⟩, hr⟩
  | up => exact absurd List.mem_cons_self hup
  | down _ _ he => cases (hbare _).symm.trans he
  | link _ _ he => cases (hbare _).symm.trans he

end Rooted

section Making

variable {s : LastStep}

theorem StepsTo.origin_eq (h : StepsTo t q s) (hn : IsName s.name) (hq : q.GoesOn p) :
    t.origin p = t.origin q := by
  rw [origin, origin, hq.isAbsolute (h.not_isIdle hn)]

/-- A path has no last step behind a directory that is missing. -/
theorem not_stepsTo_of_missing (hs : StepsTo t q s) (hn : IsName s.name)
    (hnone : t.entryAt? s.place = none) (hq : q.GoesOn p) (d : LastStep) : ¬ StepsTo t p d := by
  intro hd
  obtain ⟨before, hsplit, hleads, -⟩ := lastStep_eq_some hd.step
  obtain ⟨rest, hpieces, hrest, -⟩ := exists_splitLast?_eq_some hsplit
  rw [hs.origin_eq hn hq] at hleads
  obtain ⟨more, hp, piece, hmem, hpiece⟩ := hq
  obtain ⟨c, rfl⟩ : q.pieces <+: before := by
    rcases List.append_eq_append_iff.1 (hpieces.symm.trans hp) with ⟨c, hc, hmore⟩ | ⟨c, hc, -⟩
    · cases c with
      | nil => exact ⟨[], by simp [hc]⟩
      | cons first c =>
        -- then all that the path goes on with are the slashes that end it
        have hnil := hrest piece (by simp [(List.cons.inj hmore).2, hmem])
        subst hnil
        cases hpiece
    · exact ⟨c, hc.symm⟩
  exact hs.not_leads hn hnone hleads

theorem entryOf?_of_missing (hs : StepsTo t q s) (hn : IsName s.name)
    (hnone : t.entryAt? s.place = none) (hq : q.GoesOn p) : t.entryOf? p = none := by
  obtain ⟨more, last, hp, -⟩ := hq.exists_concat
  apply Option.eq_none_iff_forall_ne_some.2
  intro e he
  obtain ⟨-, mid, hmid, -⟩ := (entryOf?_eq_some_iff hp).1 he
  rw [hs.origin_eq hn hq] at hmid
  exact hs.not_leads hn hnone hmid

theorem endAt?_of_bare (hbare : ∀ n, t.entryAt? (place ++ [n]) = none)
    (hidle : isIdle last = false) (hup : last ≠ [dot, dot]) : t.endAt? place last = none := by
  simp only [endAt?, hbare, hidle, hup, Bool.false_eq_true, ↓reduceIte, ite_self]

theorem entryOf?_of_made (hs : StepsTo t q s) (hn : IsName s.name)
    (hnone : t.entryAt? s.place = none) (hq : q.GoesOn p) (ht : t.IsRooted)
    (hup : [dot, dot] ∉ p.pieces) : (t.put s.place .directory).entryOf? p = none := by
  have hbare (n : Name) : (t.put s.place .directory).entryAt? (s.place ++ [n]) = none := by
    rw [entryAt?_put t s.place_ne_nil, if_neg (by simp), ht.entryAt?_concat hnone]
  have horigin : (t.put s.place .directory).origin p = (t.put s.place .directory).origin q :=
    hs.origin_eq hn hq
  obtain ⟨-, links, hleads⟩ := locate_eq_ok_iff.1 (locate_put hs hn hnone)
  obtain ⟨more, last, hp, piece, hmem, hpiece⟩ := hq.exists_concat
  apply Option.eq_none_iff_forall_ne_some.2
  intro e he
  obtain ⟨-, mid, hmid, hend⟩ := (entryOf?_eq_some_iff hp).1 he
  rw [horigin] at hmid
  obtain ⟨mid', hmid', hmore⟩ := hmid.split
  cases hmid'.unique hleads
  rw [hp] at hup
  -- what the path goes on with does not leave the new directory before its last piece
  obtain ⟨hidle, hplace⟩ := leads_of_bare hbare (fun h => hup (by simp [h])) hmore
  have hlast : isIdle last = false := by
    rcases List.mem_append.1 hmem with hmem | hmem
    · cases (hidle piece hmem).symm.trans hpiece
    · exact List.mem_singleton.1 hmem ▸ hpiece
  rw [hplace, endAt?_of_bare hbare hlast (fun h => hup (by simp [h]))] at hend
  cases hend

/-- A tree in which directories were made on the way to a path, none of them where the path
leads: if any was missing, the path comes to nothing, as before. -/
structure Approaches (t t' : FileTree) (p : Path) : Prop where
  rooted : t'.IsRooted
  same : t' = t ∨ t.entryOf? p = none ∧ (∀ d, ¬ StepsTo t p d) ∧ t'.entryOf? p = none

theorem Approaches.entryOf? (h : Approaches t t' p) : t'.entryOf? p = t.entryOf? p := by
  rcases h.same with rfl | ⟨hnone, -, hnone'⟩
  · rfl
  · rw [hnone, hnone']

theorem Approaches.trans {t'' : FileTree} (h : Approaches t t' p) (h' : Approaches t' t'' p) :
    Approaches t t'' p := by
  refine ⟨h'.rooted, ?_⟩
  rcases h.same with rfl | ⟨hnone, hsteps, hnone'⟩
  · exact h'.same
  · exact .inr ⟨hnone, hsteps, h'.entryOf?.trans hnone'⟩

theorem makeDirectory_approaches (hq : q.IsIdle ∨ q.GoesOn p) (hup : [dot, dot] ∉ p.pieces) :
    (makeDirectory q).Leaves fun t t' => t.IsRooted → Approaches t t' p := by
  intro t r t' h ht
  rcases makeDirectory_cases h with rfl | ⟨s, hs, hn, hnone, rfl⟩
  · exact ⟨ht, .inl rfl⟩
  · have hq := hq.resolve_left (hs.not_isIdle hn)
    exact ⟨ht.make hs hnone, .inr ⟨entryOf?_of_missing hs hn hnone hq,
      not_stepsTo_of_missing hs hn hnone hq, entryOf?_of_made hs hn hnone hq ht hup⟩⟩

theorem Made.approaches {ps : List Path} (h : Made ps t t')
    (hq : ∀ q ∈ ps, q.IsIdle ∨ q.GoesOn p) (hup : [dot, dot] ∉ p.pieces) (ht : t.IsRooted) :
    Approaches t t' p := by
  induction h with
  | refl => exact ⟨ht, .inl rfl⟩
  | tail _ hp ih =>
    exact ih.trans (makeDirectory_approaches (hq _ hp) hup _ _ _ rfl ih.rooted)

end Making

section Missing

variable {l : Location} {n : Nat}

theorem exists_endAt?_of_leads (h : Leads t links place [last] ⟨l, n⟩)
    (he : t.entryAt? l = some e) : ∃ e', t.endAt? place last = some e' := by
  cases h with
  | skip hd hp h =>
    cases h
    exact ⟨e, by simp [endAt?, hd, isIdle, hp, he]⟩
  | up hd h =>
    cases h
    have hidle : isIdle [dot, dot] = false := rfl
    exact ⟨e, by simp [endAt?, hd, hidle, he]⟩
  | down hd hn he' => exact ⟨_, (endAt?_of_isName hd hn).trans he'⟩
  | link hd hn he' => exact ⟨_, (endAt?_of_isName hd hn).trans he'⟩

theorem find?_of_entryOf?_eq_none (h : t.entryOf? p = none) : t.find? p = none := by
  obtain ⟨before, last, hp⟩ :=
    (List.eq_nil_or_concat' p.pieces).resolve_left Text.fields_ne_nil
  apply Option.eq_none_iff_forall_ne_some.2
  intro e he
  obtain ⟨l, hl, he⟩ := find?_eq_some_iff.1 he
  obtain ⟨hvalid, links, hleads⟩ := locate_eq_ok_iff.1 hl
  rw [hp] at hleads
  obtain ⟨mid, hmid, hlast⟩ := hleads.split
  obtain ⟨e', he'⟩ := exists_endAt?_of_leads hlast he
  cases h.symm.trans ((entryOf?_eq_some_iff hp).2 ⟨hvalid, mid, hmid, he'⟩)

/-- Making the directories that a path lies in leaves the path as empty as it was. -/
theorem find?_of_makeParents (ht : t.IsRooted) (hup : [dot, dot] ∉ p.pieces)
    (h : t.find? p = none) : ((makeParents p).run.run t).2.find? p = none := by
  cases hmade : (makeParents p).run.run t with
  | mk r t' =>
    have hmade := makeParents_made p _ _ _ hmade
    rcases (hmade.approaches (fun q => Path.goesOn_of_mem_holders) hup ht).same
      with hsame | ⟨-, -, hnone⟩
    · rwa [hsame]
    · exact find?_of_entryOf?_eq_none hnone

end Missing

end MemberIndex.FileTree
