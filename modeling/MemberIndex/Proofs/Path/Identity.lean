import Mathlib.Data.Set.List
import MemberIndex.Proofs.Path.Below
import MemberIndex.Proofs.Path.Relative

/-! # Identities by components

An identity may be put together from parts of paths, each read anew: what a path is below
the root, the parent of that, and its stem. It comes to what the components of the two paths
tell, and so to the same for all spellings that have these components.
-/

namespace MemberIndex

open MemberIndex.Path (Component Pads dot splitName)

namespace Path

section Stems

variable {n before after stem : Name}

/-- A name and what is left of it before its last dot, or all of it where no dot stands in it
or the last one begins it. -/
inductive IsStem : Name → Name → Prop
  | cut {before after : Name} (hb : before ≠ []) (ha : dot ∉ after) :
    IsStem (before ++ dot :: after) before
  | leading {after : Name} (ha : dot ∉ after) : IsStem (dot :: after) (dot :: after)
  | whole {n : Name} (h : dot ∉ n) : IsStem n n

theorem splitName_of_notMem (h : dot ∉ n) : splitName n = (n, none) := by
  have hdrop : n.reverse.dropWhile (· ≠ dot) = [] :=
    List.dropWhile_eq_nil_iff.2 fun b hb => by
      simpa using ne_of_mem_of_not_mem (List.mem_reverse.1 hb) h
  unfold splitName
  rw [hdrop]

theorem splitName_append_cons (ha : dot ∉ after) : splitName (before ++ dot :: after) =
    if before = [] then (dot :: after, none) else (before, some after) := by
  have hall (b : UInt8) (hb : b ∈ after.reverse) : (b ≠ dot : Bool) = true := by
    simpa using ne_of_mem_of_not_mem (List.mem_reverse.1 hb) ha
  have hstop : (dot :: before.reverse).dropWhile (· ≠ dot) = dot :: before.reverse := rfl
  have htake : (dot :: before.reverse).takeWhile (· ≠ dot) = [] := rfl
  unfold splitName
  rw [List.reverse_append, List.reverse_cons, List.append_assoc, List.singleton_append,
    List.dropWhile_append_of_pos hall, List.takeWhile_append_of_pos hall, hstop, htake,
    List.append_nil, List.reverse_reverse]
  cases before using List.reverseRecOn with
  | nil => rfl
  | append_singleton before b => simp

theorem isStem_iff : IsStem n stem ↔ stem = (splitName n).1 := by
  constructor
  · rintro (⟨hb, ha⟩ | ha | h)
    · rw [splitName_append_cons ha, if_neg hb]
    · rw [← List.nil_append (dot :: _), splitName_append_cons ha]
      rfl
    · rw [splitName_of_notMem h]
  · rintro rfl
    by_cases h : dot ∈ n
    · obtain ⟨as, bs, hn, hbs⟩ := List.eq_append_cons_of_mem (List.mem_reverse.2 h)
      obtain rfl : n = bs.reverse ++ dot :: as.reverse := by
        simpa using congrArg List.reverse hn
      have has : dot ∉ as.reverse := mt List.mem_reverse.1 hbs
      rw [splitName_append_cons has]
      split
      · rename_i hnil
        rw [hnil]
        exact .leading has
      · rename_i hne
        exact .cut hne has
    · rw [splitName_of_notMem h]
      exact .whole h

end Stems

end Path

namespace Identity

open MemberIndex.Path (IsStem)

variable {cs : List Component} {i : String}

def withoutHere : List Component → List Component
  | .here :: cs => cs
  | cs => cs

/-- Components that lead to nothing that has an identity. -/
def IsNameless (cs : List Component) : Prop :=
  cs = [] ∨ .root ∈ cs ∨ .up ∈ cs ∨ ∀ n, cs.getLast? ≠ some (.name n)

/-- Names of directories and the name of an artifact, with the identity they come to. -/
inductive Denotes : List Component → String → Prop
  | of {directories : List Name} {last stem : Name} (h : IsStem last stem) :
    Denotes ((directories ++ [last]).map .name)
      (".".intercalate (directories.map Text.Utf8.decode ++ [Text.Utf8.decode stem]))

theorem here_notMem_withoutHere (h : Component.here ∉ cs.tail) :
    Component.here ∉ withoutHere cs := by
  cases cs with
  | nil => exact List.not_mem_nil
  | cons c cs =>
    cases c with
    | here => exact h
    | root | up | name _ => exact List.not_mem_cons_of_ne_of_not_mem Component.noConfusion h

theorem ofComponents?_withoutHere (cs : List Component) :
    ofComponents? (withoutHere cs) = ofComponents? cs := by
  match cs with
  | [] | .root :: _ | .up :: _ | .name _ :: _ => rfl
  | [.here] => rfl
  | .here :: c :: cs =>
    rw [withoutHere, ofComponents?, ofComponents?, List.getLast?_cons_cons,
      List.dropLast_cons_of_ne_nil (List.cons_ne_nil c cs), segments?]

theorem segments?_eq_none (h : Component.root ∈ cs ∨ Component.up ∈ cs) : segments? cs = none := by
  induction cs with
  | nil => simp at h
  | cons c cs ih =>
    cases c with
    | root | up => rfl
    | here => exact ih (by simpa using h)
    | name n => rw [segments?, ih (by simpa using h), Option.map_none]

theorem ofComponents?_of_isNameless (h : IsNameless cs) : ofComponents? cs = none := by
  rw [ofComponents?]
  split
  · rename_i n hlast
    -- Behind a last name only what stands before it can fail
    obtain ⟨before, hcs⟩ := List.getLast?_eq_some_iff.1 hlast
    have hbefore : Component.root ∈ before ∨ Component.up ∈ before := by
      rcases h with hnil | hroot | hup | hno
      · simp [hnil] at hlast
      · exact .inl (by simpa [hcs] using hroot)
      · exact .inr (by simpa [hcs] using hup)
      · exact absurd hlast (hno n)
    rw [hcs, List.dropLast_concat, segments?_eq_none hbefore, Option.map_none]
  · rfl

theorem isNameless_or_names (h : Component.here ∉ cs) :
    IsNameless cs ∨ ∃ directories last, cs = (directories ++ [last]).map .name := by
  refine or_iff_not_imp_left.2 fun hnot => ?_
  obtain ⟨hnil, hroot, hup, -⟩ : cs ≠ [] ∧ Component.root ∉ cs ∧ Component.up ∉ cs ∧
      ¬ ∀ n, cs.getLast? ≠ some (.name n) := by
    simpa only [IsNameless, not_or] using hnot
  have hnames : cs ∈ Set.range (List.map Component.name) := by
    rw [Set.range_list_map]
    intro c hc
    cases c with
    | root => exact absurd hc hroot
    | here => exact absurd hc h
    | up => exact absurd hc hup
    | name n => exact ⟨n, rfl⟩
  obtain ⟨names, rfl⟩ := hnames
  rcases List.eq_nil_or_concat names with rfl | ⟨directories, last, rfl⟩
  · exact absurd rfl hnil
  · exact ⟨directories, last, by rw [List.concat_eq_append]⟩

theorem ofComponents?_eq_some_iff (h : Component.here ∉ cs) :
    ofComponents? cs = some i ↔ Denotes cs i := by
  constructor
  · intro hi
    rcases isNameless_or_names h with hnot | ⟨directories, last, rfl⟩
    · cases (ofComponents?_of_isNameless hnot).symm.trans hi
    · cases (ofComponents?_names directories last).symm.trans hi
      exact .of (Path.isStem_iff.2 rfl)
  · rintro ⟨hstem⟩
    rw [ofComponents?_names, Path.isStem_iff.1 hstem]

theorem ofComponents?_eq_none_iff (h : Component.here ∉ cs) :
    ofComponents? cs = none ↔ IsNameless cs := by
  refine ⟨fun hnone => ?_, ofComponents?_of_isNameless⟩
  refine (isNameless_or_names h).resolve_right ?_
  rintro ⟨directories, last, rfl⟩
  cases (ofComponents?_names directories last).symm.trans hnone

def directories? (relative : Path) : Option (List String) :=
  match relative.parent? with
  | none => some []
  | some parent => segments? parent.components

def ofParts? (root path : Path) : Option String :=
  (path.relativeTo? root).bind fun relative =>
    relative.stem?.bind fun stem =>
      (directories? relative).map fun directories =>
        ".".intercalate (directories ++ [Text.Utf8.decode stem])

theorem ofParts?_eq_identity? (root path : Path) : ofParts? root path = identity? root path := by
  rw [ofParts?, identity?, ← Path.map_components_relativeTo?, Option.bind_map]
  refine congrArg _ (funext fun relative => ?_)
  rw [Function.comp_apply, ofComponents?, Path.stem?, Path.fileName?]
  cases hlast : relative.components.getLast? with
  | none => rfl
  | some c =>
    cases c with
    | root | here | up => rfl
    | name n =>
      obtain ⟨parent, hparent⟩ := Path.exists_parent? hlast
      simp only [directories?, hparent, Path.components_of_parent? hparent, Option.map_some,
        Option.bind_some]

end Identity

section Components

variable {root path : Path} {i : String}

theorem here_notMem_rest {rest : List Component} (h : path.components = root.components ++ rest) :
    Component.here ∉ Identity.withoutHere rest := by
  refine Identity.here_notMem_withoutHere fun hmem => ?_
  refine path.here_notMem_tail_components ?_
  rw [h]
  cases hroot : root.components with
  | nil => exact hmem
  | cons c cs => exact List.mem_append_right cs (List.mem_of_mem_tail hmem)

theorem identity?_eq_some_iff : identity? root path = some i ↔ ∃ rest,
    path.components = root.components ++ rest ∧
      Identity.Denotes (Identity.withoutHere rest) i := by
  rw [identity?, Option.bind_eq_some_iff]
  refine exists_congr fun rest => ?_
  rw [Path.stripPrefix?_eq_some_iff]
  refine and_congr_right fun h => ?_
  rw [← Identity.ofComponents?_withoutHere, Identity.ofComponents?_eq_some_iff (here_notMem_rest h)]

theorem identity?_eq_none_iff : identity? root path = none ↔
    ¬ root.components <+: path.components ∨ ∃ rest, path.components = root.components ++ rest ∧
      Identity.IsNameless (Identity.withoutHere rest) := by
  rw [identity?]
  cases hstrip : path.stripPrefix? root with
  | none =>
    refine iff_of_true rfl (.inl ?_)
    rintro ⟨rest, hrest⟩
    cases hstrip.symm.trans (Path.stripPrefix?_eq_some_iff.2 hrest.symm)
  | some rest =>
    have hrest := Path.stripPrefix?_eq_some_iff.1 hstrip
    have hprefix : root.components <+: path.components := ⟨rest, hrest.symm⟩
    rw [Option.bind_some, ← Identity.ofComponents?_withoutHere,
      Identity.ofComponents?_eq_none_iff (here_notMem_rest hrest),
      or_iff_right (not_not_intro hprefix)]
    constructor
    · intro h
      exact ⟨rest, hrest, h⟩
    · rintro ⟨rest', hrest', h⟩
      rwa [List.append_cancel_left (hrest.symm.trans hrest')]

theorem identity?_congr {root' path' : Path} (hr : root.components = root'.components)
    (hp : path.components = path'.components) : identity? root path = identity? root' path' := by
  rw [identity?, identity?, Path.stripPrefix?, Path.stripPrefix?, hr, hp]

/-- An identity is told by the components of two paths. There is one where those of the root
begin those of the path and the rest, but for a dot that begins it, is names; and it is these
names as text, joined by dots, the last without what follows its last dot. So no slash or dot
that pads a path changes it. -/
theorem identities_by_components (root path : Path) :
    Identity.ofParts? root path = identity? root path ∧
      (∀ i, identity? root path = some i ↔ ∃ rest,
        path.components = root.components ++ rest ∧
          Identity.Denotes (Identity.withoutHere rest) i) ∧
      (identity? root path = none ↔ ¬ root.components <+: path.components ∨ ∃ rest,
        path.components = root.components ++ rest ∧
          Identity.IsNameless (Identity.withoutHere rest)) ∧
      ∀ root' path' : Path,
        (root.components = root'.components → path.components = path'.components →
          identity? root path = identity? root' path') ∧
        (Relation.EqvGen Pads root root' → Relation.EqvGen Pads path path' →
          identity? root path = identity? root' path') :=
  ⟨Identity.ofParts?_eq_identity? root path, fun _ => identity?_eq_some_iff,
    identity?_eq_none_iff, fun _ _ => ⟨identity?_congr, fun hr hp =>
      identity?_congr (Path.components_of_eqvGen hr) (Path.components_of_eqvGen hp)⟩⟩

section Samples

open Text.Utf8 (encode)
open MemberIndex.Path (slash)

theorem identity_of_padded_paths :
    identity? (.ofString "/w") ⟨encode "/w" ++ slash :: encode "a/B.x.c"⟩ = some "a.B.x" ∧
      identity? ⟨encode "/w" ++ [slash]⟩
        ⟨encode "/w" ++ slash :: dot :: slash :: encode "a/B.x.c"⟩ = some "a.B.x" ∧
      identity? (.ofString "/w/.") (.ofString "//w/a/B.x.c/.") = some "a.B.x" := by
  obtain ⟨-, hsome, -, hsame⟩ :=
    identities_by_components (.ofString "/w") ⟨encode "/w" ++ slash :: encode "a/B.x.c"⟩
  have hstem : Path.IsStem (encode "B.x" ++ dot :: encode "c") (encode "B.x") :=
    .cut (by decide) (by decide)
  have hrest : Path.components ⟨encode "/w" ++ slash :: encode "a/B.x.c"⟩ =
      (Path.ofString "/w").components ++
        [.name (encode "a"), .name (encode "B.x" ++ dot :: encode "c")] := by decide
  have hi := (hsome _).2 ⟨_, hrest, @Identity.Denotes.of [encode "a"] _ _ hstem⟩
  have htext : ".".intercalate ([encode "a"].map Text.Utf8.decode ++
      [Text.Utf8.decode (encode "B.x")]) = "a.B.x" := by decide
  rw [htext] at hi
  have hpads := (hsame _ _).2 (.rel _ _ (.trailing (by decide))) (.rel _ _ (.inner _ _))
  exact ⟨hi, hpads.symm.trans hi, ((hsame _ _).1 (by decide) (by decide)).symm.trans hi⟩

/-- A slash behind the empty path makes it the root, and only absolute paths are below that. -/
theorem exists_slash_that_matters :
    identity? ⟨[]⟩ (.ofString "a") = some "a" ∧
      identity? ⟨[] ++ [slash]⟩ (.ofString "a") = none := by
  constructor <;> decide

end Samples

end Components

end MemberIndex
