import Mathlib.Data.List.Forall2
import Mathlib.Tactic.NormNum
import MemberIndex.Proofs.Report.Spelling

/-! # Reports are read by their shape

Whatever text a document has, reading it settles whether the document is a report, and which
records it holds. Each reader is followed once, through every text of every value: it comes to
the one thing the value describes, or the value describes nothing and the reader fails.
-/

namespace MemberIndex.Report

/-- A reader comes to something that is as wanted, with a text left behind it, or it fails and
nothing is. -/
def Settles {α : Type} {s : List Char} (e : Except ReadError (Front α s)) (P : α → Prop)
    (rest : List Char) : Prop :=
  (∃ a, P a ∧ Reads e a rest) ∨ ((∀ a, ¬ P a) ∧ ∃ err, e = .error err)

namespace Settles

variable {α β γ : Type} {s t r r' : List Char} {e : Except ReadError (Front α s)} {P Q : α → Prop}
  {S : β → Prop}

theorem of_reads {a : α} (h : Reads e a r) (ha : P a) : Settles e P r := .inl ⟨a, ha, h⟩

theorem of_error {err : ReadError} (h : e = .error err) (hnone : ∀ a, ¬ P a) : Settles e P r :=
  .inr ⟨hnone, err, h⟩

theorem congr (h : Settles e P r) (hPQ : ∀ a, P a ↔ Q a) : Settles e Q r := by
  obtain rfl : P = Q := funext fun a => propext (hPQ a)
  exact h

theorem bind {f : Front α s → Except ReadError (Front β t)} (he : Settles e P r)
    (hf : ∀ a h, P a → Settles (f ⟨a, r, h⟩) S r') (hnone : (∀ a, ¬ P a) → ∀ b, ¬ S b) :
    Settles (e >>= f) S r' := by
  obtain ⟨a, ha, hlt, rfl⟩ | ⟨hno, err, rfl⟩ := he
  · exact hf a hlt ha
  · exact .of_error rfl (hnone hno)

theorem ok_bind {c : Except ReadError γ} {f : γ → Except ReadError (Front β t)} {x : γ}
    (hc : c = .ok x) (hf : Settles (f x) S r) : Settles (c >>= f) S r := by
  subst hc
  exact hf

theorem widen (he : Settles e P r) (h : s.length ≤ t.length) :
    Settles (e.map (·.widen (s := t) h)) P r := by
  obtain ⟨a, ha, hread⟩ | ⟨hno, err, rfl⟩ := he
  · exact .of_reads (hread.widen h) ha
  · exact .of_error rfl hno

end Settles

theorem Reads.bind {α β : Type} {s t r r' : List Char} {e : Except ReadError (Front α s)} {a : α}
    {f : Front α s → Except ReadError (Front β t)} {S : β → Prop} (he : Reads e a r)
    (hf : ∀ h, Settles (f ⟨a, r, h⟩) S r') : Settles (e >>= f) S r' := by
  obtain ⟨hlt, he⟩ := he
  exact .ok_bind he (hf hlt)

section Openings

variable {v : Value}

theorem Value.OpensWith.text (h : v.OpensWith '"') : ∃ t, v = .text t := by
  cases v with
  | text t => exact ⟨t, rfl⟩
  | boolean b => cases b <;> cases h
  | number => exact absurd h (by simp [OpensWith])
  | null | list | table => cases h

theorem Value.OpensWith.list (h : v.OpensWith '[') : ∃ vs, v = .list vs := by
  cases v with
  | list vs => exact ⟨vs, rfl⟩
  | boolean b => cases b <;> cases h
  | number => exact absurd h (by simp [OpensWith])
  | null | text | table => cases h

theorem Value.OpensWith.table (h : v.OpensWith '\x7b') : ∃ rows, v = .table rows := by
  cases v with
  | table rows => exact ⟨rows, rfl⟩
  | boolean b => cases b <;> cases h
  | number => exact absurd h (by simp [OpensWith])
  | null | text | list => cases h

end Openings

section Texts

variable {v : Value} {vs : List Value} {s t r : List Char} {first : Bool}

def Value.ofTexts (ts : List String) : Value := .list (ts.map .text)

theorem settles_text (hs : Blanks s t) (hv : Spells (.value v) t r) :
    Settles (readText s) (v = .text ·) r := by
  obtain ⟨c, q, rfl, hc⟩ := hv.head
  refine (hs.opens hc.plain.1).readMark.bind fun _ => ?_
  by_cases hquote : c = '"'
  · subst hquote
    obtain ⟨x, rfl⟩ := hc.text
    cases hv with
    | text hx =>
      refine .of_reads (hx.reads.map_widen String.ofList _) ?_
      rw [String.ofList_toList]
  · simp only [hquote, ↓reduceIte]
    refine .of_error rfl ?_
    rintro x rfl
    exact hquote hc

theorem settles_textItems (h : Spells (.items first vs) s r) :
    Settles (readTextItems first s) (vs = ·.map .text) r := by
  induction vs generalizing first s with
  | nil =>
    cases h with
    | itemsDone hs => exact .of_reads (readTextItems_end (hs.opens rfl)) rfl
  | cons v vs ih =>
    have hnone (h : (∀ x, v ≠ .text x) ∨ ∀ xs : List String, vs ≠ xs.map .text)
        (xs : List String) : v :: vs ≠ xs.map .text := by
      rintro heq
      cases xs with
      | nil => cases heq
      | cons x xs =>
        obtain ⟨hx, hxs⟩ := List.cons.inj heq
        exact h.elim (· x hx) (· xs hxs)
    rw [readTextItems]
    cases h with
    | item hs hv hrest =>
      cases hs with
      | first hb =>
        obtain ⟨c, q, rfl, hc⟩ := hv.head
        refine (hb.opens hc.plain.1).readMark.bind fun _ => ?_
        simp only [hc.plain.2, ↓reduceIte]
        refine (settles_text hb hv).bind (fun x _ hx => ?_) fun h => hnone (.inl h)
        refine (ih hrest).bind (fun xs _ hxs => ?_) fun h => hnone (.inr h)
        exact .of_reads ⟨_, rfl⟩ (by rw [hx, hxs, List.map_cons])
      | next hb hb' =>
        refine (hb.opens rfl).readMark.bind fun _ => ?_
        simp only [Char.reduceEq, Bool.false_eq_true, ↓reduceIte]
        refine (settles_text hb' hv).bind (fun x _ hx => ?_) fun h => hnone (.inl h)
        refine (ih hrest).bind (fun xs _ hxs => ?_) fun h => hnone (.inr h)
        exact .of_reads ⟨_, rfl⟩ (by rw [hx, hxs, List.map_cons])

theorem settles_texts (hs : Blanks s t) (hv : Spells (.value v) t r) :
    Settles (readTexts s) (v = .ofTexts ·) r := by
  obtain ⟨c, q, rfl, hc⟩ := hv.head
  refine (hs.opens hc.plain.1).readMark.bind fun _ => ?_
  by_cases hbracket : c = '['
  · subst hbracket
    obtain ⟨vs, rfl⟩ := hc.list
    cases hv with
    | list hvs =>
      exact ((settles_textItems hvs).widen _).congr fun ts => by simp [Value.ofTexts]
  · simp only [hbracket, ↓reduceIte]
    refine .of_error rfl ?_
    rintro ts rfl
    exact hbracket hc

end Texts

section Members

variable {v : Value} {vs : List Value} {rows : List (String × Value)} {s t r : List Char}
  {first : Bool} {m : Members}

theorem settles_beforeItem {β : Type} {S : β → Prop} {q x : List Char}
    {f : Option (Front Unit ('[' :: s)) → Except ReadError (Front β q)}
    (h : Spells (.items first vs) s r) (hnil : vs = [] → Settles (f none) S x)
    (hcons : ∀ v ws b t u h, vs = v :: ws → Blanks b t → Spells (.value v) t u →
      Spells (.items false ws) u r → Settles (f (some ⟨(), b, h⟩)) S x) :
    Settles (readBeforeItem first s >>= f) S x := by
  cases h with
  | itemsDone hs =>
    obtain ⟨hlt, hmark⟩ := (hs.opens rfl).readMark
    refine .ok_bind ?_ (hnil rfl)
    simp only [readBeforeItem, hmark, bind, Except.bind, ↓reduceIte, pure, Except.pure]
  | item hs hv hrest =>
    cases hs with
    | first hb =>
      obtain ⟨c, q, rfl, hc⟩ := hv.head
      obtain ⟨hlt, hmark⟩ := (hb.opens hc.plain.1).readMark
      refine .ok_bind ?_ (hcons _ _ _ _ _ (by simp) rfl hb hv hrest)
      simp only [readBeforeItem, hmark, hc.plain.2, bind, Except.bind, ↓reduceIte, pure,
        Except.pure]
    | next hb hb' =>
      obtain ⟨hlt, hmark⟩ := (hb.opens rfl).readMark
      refine .ok_bind ?_ (hcons _ _ _ _ _ (by simp; omega) rfl hb' hv hrest)
      simp only [readBeforeItem, hmark, Char.reduceEq, Bool.false_eq_true, bind, Except.bind,
        ↓reduceIte, pure, Except.pure]

def OneList (rows : List (String × Value)) (key : String) (ts : List String) : Prop :=
  rows.filter (·.1 = key) = [(key, .ofTexts ts)]

/-- A value that describes a record: a table with the three lists once each, whatever other
rows it has, or the list of the three. -/
inductive Describes : Value → Members → Prop
  | table {rows : List (String × Value)} {methods fields dependencies : List String} :
      OneList rows "methods" methods → OneList rows "fields" fields →
      OneList rows "dependencies" dependencies →
      Describes (.table rows) ⟨methods, fields, Std.ExtTreeSet.ofList dependencies⟩
  | list {methods fields dependencies : List String} :
      Describes (.list [.ofTexts methods, .ofTexts fields, .ofTexts dependencies])
        ⟨methods, fields, Std.ExtTreeSet.ofList dependencies⟩

theorem describes_list_iff : Describes (.list vs) m ↔ ∃ methods fields dependencies,
    vs = [.ofTexts methods, .ofTexts fields, .ofTexts dependencies] ∧
      m = ⟨methods, fields, Std.ExtTreeSet.ofList dependencies⟩ := by
  constructor
  · rintro ⟨⟩
    exact ⟨_, _, _, rfl, rfl⟩
  · rintro ⟨methods, fields, dependencies, rfl, rfl⟩
    exact .list

theorem settles_membersList (h : Spells (.items true vs) s r) :
    Settles (readMembersList s) (Describes (.list vs)) r := by
  refine Settles.congr ?_ fun m => describes_list_iff.symm
  -- Three times an item and its texts: the list may end too early, or the texts may be none.
  refine settles_beforeItem h ?_ fun v₁ vs₁ _ _ _ _ h₁ hb₁ hv₁ hrest₁ => ?_
  · rintro rfl
    exact .of_error rfl (by simp)
  subst h₁
  refine (settles_texts hb₁ hv₁).bind (fun methods _ hmethods => ?_) ?_
  swap
  · rintro hnone m ⟨ms, fs, ds, hvs, -⟩
    exact hnone ms (List.cons.inj hvs).1
  refine settles_beforeItem hrest₁ ?_ fun v₂ vs₂ _ _ _ _ h₂ hb₂ hv₂ hrest₂ => ?_
  · rintro rfl
    exact .of_error rfl (by simp)
  subst h₂
  refine (settles_texts hb₂ hv₂).bind (fun fields _ hfields => ?_) ?_
  swap
  · rintro hnone m ⟨ms, fs, ds, hvs, -⟩
    exact hnone fs (List.cons.inj (List.cons.inj hvs).2).1
  refine settles_beforeItem hrest₂ ?_ fun v₃ vs₃ _ _ _ _ h₃ hb₃ hv₃ hrest₃ => ?_
  · rintro rfl
    exact .of_error rfl (by simp)
  subst h₃
  refine (settles_texts hb₃ hv₃).bind (fun dependencies _ hdependencies => ?_) ?_
  swap
  · rintro hnone m ⟨ms, fs, ds, hvs, -⟩
    exact hnone ds (List.cons.inj (List.cons.inj (List.cons.inj hvs).2).2).1
  -- Behind the third nothing but the end may stand.
  cases hrest₃ with
  | itemsDone hs =>
    refine (hs.opens rfl).readMark.bind fun _ => ?_
    exact .of_reads ⟨_, rfl⟩ ⟨_, _, _, by rw [hmethods, hfields, hdependencies], rfl⟩
  | item hs =>
    cases hs with
    | next hb =>
      refine (hb.opens rfl).readMark.bind fun _ => ?_
      exact .of_error rfl (by simp)

end Members

section Drafts

variable {d d' : Draft} {rows rows' : List (String × Value)} {key : String} {v : Value}
  {ts us : List String} {m : Members}

theorem Value.ofTexts_inj : Value.ofTexts ts = Value.ofTexts us ↔ ts = us := by
  have htext : Function.Injective Value.text := fun _ _ => Value.text.inj
  rw [ofTexts, ofTexts, list.injEq, List.map_inj_right fun _ _ h => htext h]

def Draft.under (d : Draft) (key : String) : Option (List String) :=
  if key = "methods" then d.methods
  else if key = "fields" then d.fields
  else if key = "dependencies" then d.dependencies
  else none

theorem isListKey_iff : isListKey key.toList = true ↔
    key = "methods" ∨ key = "fields" ∨ key = "dependencies" := by
  simp only [isListKey, Bool.or_eq_true, beq_iff_eq, String.toList_inj, or_assoc]

theorem Draft.under_eq_none (d : Draft) (h : isListKey key.toList = false) :
    d.under key = none := by
  have hne : ¬ (key = "methods" ∨ key = "fields" ∨ key = "dependencies") := fun hkey =>
    Bool.false_ne_true (h.symm.trans (isListKey_iff.2 hkey))
  simp only [not_or] at hne
  rw [under, if_neg hne.1, if_neg hne.2.1, if_neg hne.2.2]

theorem Draft.has_eq (d : Draft) (key : String) : d.has key.toList = (d.under key).isSome := by
  have hinj (k : String) : (key.toList == k.toList) = decide (key = k) := by
    rw [Bool.eq_iff_iff, beq_iff_eq, decide_eq_true_eq, String.toList_inj]
  simp only [Draft.has, hinj, Draft.under]
  split_ifs with h₁ h₂ h₃
  · simp [h₁]
  · simp [h₂]
  · simp [h₃]
  · simp [h₁, h₂, h₃]

theorem Draft.under_set (hkey : isListKey key.toList = true) (d : Draft) (ts : List String)
    (k : String) : (d.set key.toList ts).under k = if k = key then some ts else d.under k := by
  obtain rfl | rfl | rfl := isListKey_iff.1 hkey
  · rw [Draft.set_methods, Draft.under]
    split_ifs <;> simp_all [Draft.under]
  · rw [Draft.set_fields, Draft.under]
    split_ifs <;> simp_all [Draft.under]
  · rw [Draft.set_dependencies, Draft.under]
    split_ifs <;> simp_all [Draft.under]

def Draft.standing (d : Draft) (rows : List (String × Value)) (key : String) : List Value :=
  ((d.under key).map .ofTexts).toList ++ (rows.filter (·.1 = key)).map (·.2)

theorem Draft.standing_cons_of_ne (d : Draft) (rows : List (String × Value)) {k : String}
    (hk : key ≠ k) : d.standing ((key, v) :: rows) k = d.standing rows k := by
  rw [standing, standing, List.filter_cons_of_neg (by simpa using hk)]

theorem Draft.standing_cons_self (d : Draft) (v : Value) (rows : List (String × Value))
    (key : String) : d.standing ((key, v) :: rows) key =
      ((d.under key).map .ofTexts).toList ++ v :: (rows.filter (·.1 = key)).map (·.2) := by
  rw [standing, List.filter_cons_of_pos (by simp), List.map_cons]

theorem Draft.standing_set (hkey : isListKey key.toList = true) (hd : d.under key = none)
    (k : String) :
    (d.set key.toList ts).standing rows k = d.standing ((key, .ofTexts ts) :: rows) k := by
  by_cases hk : k = key
  · subst hk
    simp [standing, under_set hkey, hd]
  · rw [standing_cons_of_ne d rows (Ne.symm hk), standing, under_set hkey, if_neg hk, standing]

/-- A draft, and the rows that are left of it, make up a record: what stands under each of its
keys is one list. -/
def Draft.Completes (d : Draft) (rows : List (String × Value)) (m : Members) : Prop :=
  ∃ lists : String → List String,
    (∀ key, isListKey key.toList = true → d.standing rows key = [.ofTexts (lists key)]) ∧
      m = ⟨lists "methods", lists "fields", Std.ExtTreeSet.ofList (lists "dependencies")⟩

theorem Draft.completes_congr
    (h : ∀ k, isListKey k.toList = true → d.standing rows k = d'.standing rows' k) :
    d.Completes rows m ↔ d'.Completes rows' m := by
  refine exists_congr fun lists => and_congr_left fun _ => forall₂_congr fun k hk => ?_
  rw [h k hk]

theorem Draft.completes_nil_iff : d.Completes [] m ↔ d.members? = some m := by
  have hstanding (key : String) (ts : List String) :
      d.standing [] key = [.ofTexts ts] ↔ d.under key = some ts := by
    cases hd : d.under key <;> simp [standing, hd, Value.ofTexts_inj]
  constructor
  · rintro ⟨lists, hlists, rfl⟩
    have hunder (key : String) (hkey : isListKey key.toList = true) :
        d.under key = some (lists key) := (hstanding _ _).1 (hlists key hkey)
    obtain ⟨methods, fields, dependencies⟩ := d
    obtain rfl : methods = some _ := hunder "methods" rfl
    obtain rfl : fields = some _ := hunder "fields" rfl
    obtain rfl : dependencies = some _ := hunder "dependencies" rfl
    rfl
  · intro h
    unfold members? at h
    split at h
    · rename_i methods fields dependencies
      obtain rfl := Option.some.inj h
      refine ⟨fun key => (Draft.under ⟨some methods, some fields, some dependencies⟩ key).getD [],
        fun key hkey => (hstanding _ _).2 ?_, rfl⟩
      obtain rfl | rfl | rfl := isListKey_iff.1 hkey <;> rfl
    · cases h

theorem Draft.completes_other (hkey : isListKey key.toList = false) :
    d.Completes ((key, v) :: rows) m ↔ d.Completes rows m := by
  refine completes_congr fun k hk => standing_cons_of_ne d rows ?_
  rintro rfl
  exact Bool.false_ne_true (hkey.symm.trans hk)

theorem Draft.completes_set (hkey : isListKey key.toList = true) (hd : d.under key = none) :
    d.Completes ((key, .ofTexts ts) :: rows) m ↔ (d.set key.toList ts).Completes rows m :=
  completes_congr fun k _ => (standing_set hkey hd k).symm

theorem Draft.not_completes_of_under (hkey : isListKey key.toList = true)
    (hd : (d.under key).isSome) : ¬ d.Completes ((key, v) :: rows) m := by
  rintro ⟨lists, hlists, -⟩
  obtain ⟨ts, hts⟩ := Option.isSome_iff_exists.1 hd
  have hone := hlists key hkey
  rw [standing_cons_self, hts] at hone
  exact absurd (List.cons.inj hone).2 (by simp)

theorem Draft.not_completes_of_ne (hkey : isListKey key.toList = true) (hd : d.under key = none)
    (hv : ∀ ts, v ≠ .ofTexts ts) : ¬ d.Completes ((key, v) :: rows) m := by
  rintro ⟨lists, hlists, -⟩
  have hone := hlists key hkey
  rw [standing_cons_self, hd] at hone
  exact hv _ (List.cons.inj hone).1

end Drafts

section Rows

variable {records : Records} {d : Draft} {rows rows' : List (String × Value)} {key : String}
  {v : Value} {s t u r : List Char} {first : Bool} {m : Members}

theorem reads_key (hs : SpellsLead first s ('"' :: t)) (hkey : SpellsChars key.toList t u) :
    Reads (readKey first s) (some key.toList) u := by
  obtain ⟨hlt, hchars⟩ := hkey.reads
  cases hs with
  | first hb =>
    obtain ⟨hlt', hmark⟩ := (hb.opens rfl).readMark
    simp only [readKey, hmark, hchars, bind, Except.bind, Except.map, Char.reduceEq, ↓reduceIte]
    exact ⟨_, rfl⟩
  | next hb hb' =>
    obtain ⟨hlt', hmark⟩ := (hb.opens rfl).readMark
    obtain ⟨hlt'', hmark'⟩ := (hb'.opens rfl).readMark
    simp only [readKey, hmark, hmark', hchars, bind, Except.bind, Except.map, Char.reduceEq,
      Bool.false_eq_true, ↓reduceIte]
    exact ⟨_, rfl⟩

theorem settles_membersRows (h : Spells (.rows first rows) s r) :
    Settles (readMembersRows d first s) (d.Completes rows) r := by
  induction rows generalizing d first s with
  | nil =>
    cases h with
    | rowsDone hs =>
      rw [readMembersRows]
      refine (readKey_end (hs.opens rfl)).bind fun _ => ?_
      cases hd : d.members? with
      | none =>
        refine .of_error rfl fun m hm => ?_
        cases hd.symm.trans (Draft.completes_nil_iff.1 hm)
      | some m => exact .of_reads ⟨_, rfl⟩ (Draft.completes_nil_iff.2 hd)
  | cons row rows ih =>
    cases h with
    | @row _ key v _ _ _ _ w x _ _ hs hkey hu hw hv hrest =>
      rw [readMembersRows]
      refine (reads_key hs hkey).bind fun _ => ?_
      by_cases hlist : isListKey key.toList = true
      · cases hd : d.under key with
        | some ts =>
          simp only [d.has_eq, hd, Option.isSome_some, ↓reduceIte]
          exact .of_error rfl fun m => Draft.not_completes_of_under hlist (by simp [hd])
        | none =>
          simp only [d.has_eq, hd, hlist, Option.isSome_none, Bool.false_eq_true, ↓reduceIte]
          refine (readColon_of_blanks hu).bind fun _ => ?_
          refine (settles_texts hw hv).bind (fun ts _ hts => ?_) fun hnone m =>
            Draft.not_completes_of_ne hlist hd hnone
          subst hts
          exact ((ih hrest).widen _).congr fun m => (Draft.completes_set hlist hd).symm
      · have hother : isListKey key.toList = false := Bool.eq_false_iff.2 hlist
        have hd : d.has key.toList = false := by rw [d.has_eq, d.under_eq_none hother]; rfl
        simp only [hd, hother, Bool.false_eq_true, ↓reduceIte]
        refine (readColon_of_blanks hu).bind fun _ => ?_
        refine (hv.skips w hw hrest.follows_rows).bind fun _ => ?_
        exact ((ih hrest).widen _).congr fun m => (Draft.completes_other hother).symm

theorem Draft.standing_empty (rows : List (String × Value)) (key : String) (ts : List String) :
    Draft.standing {} rows key = [.ofTexts ts] ↔ OneList rows key ts := by
  have hunder : Draft.under {} key = none := by
    unfold under
    split_ifs <;> rfl
  rw [standing, hunder, OneList, Option.map_none, Option.toList_none, List.nil_append,
    List.map_eq_singleton_iff]
  constructor
  · rintro ⟨⟨k, v⟩, hrow, rfl⟩
    obtain ⟨-, hk⟩ := List.mem_filter.1 (hrow ▸ List.mem_singleton_self _)
    obtain rfl := of_decide_eq_true hk
    exact hrow
  · intro hrow
    exact ⟨_, hrow, rfl⟩

theorem SameByKey.oneList_iff (h : SameByKey rows rows') (key : String) (ts : List String) :
    OneList rows' key ts ↔ OneList rows key ts := by
  rw [OneList, OneList, h key]

/-- A table describes a record where its rows, in whatever order, complete an empty draft. -/
theorem describes_table_iff (h : SameByKey rows rows') :
    Draft.Completes {} rows' m ↔ Describes (.table rows) m := by
  constructor
  · rintro ⟨lists, hlists, rfl⟩
    have hone (key : String) (hkey : isListKey key.toList = true) :
        OneList rows key (lists key) :=
      (h.oneList_iff _ _).1 ((Draft.standing_empty _ _ _).1 (hlists key hkey))
    exact .table (hone "methods" rfl) (hone "fields" rfl) (hone "dependencies" rfl)
  · rintro @⟨_, methods, fields, dependencies, hm, hf, hd⟩
    refine ⟨fun key => (Draft.under ⟨some methods, some fields, some dependencies⟩ key).getD [],
      fun key hkey => (Draft.standing_empty _ _ _).2 ((h.oneList_iff _ _).2 ?_), rfl⟩
    obtain rfl | rfl | rfl := isListKey_iff.1 hkey
    · exact hm
    · exact hf
    · exact hd

theorem OneList.unique {ts us : List String} (h : OneList rows key ts) (h' : OneList rows key us) :
    ts = us := by
  have hrow := h.symm.trans h'
  simpa [Value.ofTexts_inj] using hrow

theorem Describes.unique {n : Members} (h : Describes v m) (h' : Describes v n) : m = n := by
  cases h with
  | table hm hf hd =>
    cases h' with
    | table hm' hf' hd' => rw [hm.unique hm', hf.unique hf', hd.unique hd']
  | list =>
    obtain ⟨ms, fs, ds, hvs, rfl⟩ := describes_list_iff.1 h'
    simp only [List.cons.injEq, Value.ofTexts_inj] at hvs
    obtain ⟨rfl, rfl, rfl, -⟩ := hvs
    rfl

theorem settles_members (hs : Blanks s t) (hv : Spells (.value v) t r) :
    Settles (readMembers s) (Describes v) r := by
  obtain ⟨c, q, rfl, hc⟩ := hv.head
  refine (hs.opens hc.plain.1).readMark.bind fun _ => ?_
  by_cases hlist : c = '['
  · subst hlist
    obtain ⟨vs, rfl⟩ := hc.list
    cases hv with
    | list hvs => exact (settles_membersList hvs).widen _
  by_cases htable : c = '\x7b'
  · subst htable
    obtain ⟨rows, rfl⟩ := hc.table
    cases hv with
    | table hsame hrows =>
      exact ((settles_membersRows hrows).widen _).congr fun m => describes_table_iff hsame
  simp only [hlist, htable, ↓reduceIte]
  refine .of_error rfl ?_
  rintro m (_ | _)
  · exact htable hc
  · exact hlist hc

/-- Rows of a report, and the records that their values describe. -/
def DescribesEach (rows : List (String × Value)) (entries : List (String × Members)) : Prop :=
  List.Forall₂ (fun row e => row.1 = e.1 ∧ Describes row.2 e.2) rows entries

theorem settles_rows (h : Spells (.rows first rows) s r) :
    Settles (readRows records first s)
      (fun read => ∃ entries, DescribesEach rows entries ∧ read = records.putAll entries) r := by
  induction rows generalizing records first s with
  | nil =>
    cases h with
    | rowsDone hs =>
      rw [readRows]
      refine (readKey_end (hs.opens rfl)).bind fun _ => ?_
      exact .of_reads ⟨_, rfl⟩ ⟨[], .nil, rfl⟩
  | cons row rows ih =>
    cases h with
    | row hs hkey hu hw hv hrest =>
      rw [readRows]
      refine (reads_key hs hkey).bind fun _ => ?_
      refine (readColon_of_blanks hu).bind fun _ => ?_
      refine (settles_members hw hv).bind (fun m _ hm => ?_) ?_
      · refine ((ih hrest).widen _).congr fun read => ?_
        rw [String.ofList_toList]
        constructor
        · rintro ⟨entries, heach, rfl⟩
          exact ⟨(_, m) :: entries, .cons ⟨rfl, hm⟩ heach, rfl⟩
        · rintro ⟨_, ⟨⟩ | @⟨_, ⟨_, n⟩, _, entries, ⟨rfl, hn⟩, heach⟩, rfl⟩
          -- The entry of the row is the record that was read, as a value describes only one.
          obtain rfl := hm.unique hn
          exact ⟨entries, heach, rfl⟩
      · rintro hnone read ⟨_, ⟨⟩ | ⟨hrow, -⟩, -⟩
        exact hnone _ hrow.2

end Rows

section Reports

variable {rows rows' : List (String × Value)} {entries : List (String × Members)} {v : Value}
  {text : String}

/-- A document that is a report: a table whose every row holds a record. -/
def Value.IsReport : Value → Prop
  | .table rows => ∀ row ∈ rows, ∃ m, Describes row.2 m
  | _ => False

theorem exists_describesEach_iff :
    (∃ entries, DescribesEach rows entries) ↔ ∀ row ∈ rows, ∃ m, Describes row.2 m := by
  induction rows with
  | nil => exact ⟨fun _ => by simp, fun _ => ⟨[], .nil⟩⟩
  | cons row rows ih =>
    rw [List.forall_mem_cons, ← ih]
    constructor
    · rintro ⟨_, ⟨⟩ | ⟨hrow, heach⟩⟩
      exact ⟨⟨_, hrow.2⟩, _, heach⟩
    · rintro ⟨⟨m, hm⟩, entries, heach⟩
      exact ⟨(row.1, m) :: entries, .cons ⟨rfl, hm⟩ heach⟩

theorem SameByKey.mem_iff (h : SameByKey rows rows') (row : String × Value) :
    row ∈ rows ↔ row ∈ rows' := by
  have hmem (l : List (String × Value)) : row ∈ l ↔ row ∈ l.filter (·.1 = row.1) := by simp
  rw [hmem rows, hmem rows', h row.1]

theorem SameByKey.isReport_iff (h : SameByKey rows rows') :
    (Value.table rows).IsReport ↔ ∃ entries, DescribesEach rows' entries := by
  rw [exists_describesEach_iff]
  exact forall_congr' fun row => imp_congr_left (h.mem_iff row)

theorem Blanks.skipSpace_eq_nil {s : List Char} (h : Blanks s []) : skipSpace s = [] := by
  generalize hr : [] = r at h
  induction h with
  | none => exact hr ▸ rfl
  | more hb _ ih =>
    rw [skipSpace, List.dropWhile_cons_of_pos (by simpa [isSpace, or_assoc] using hb)]
    exact ih hr

/-- Reading a document's text comes to the records of its rows, or the document is no report. -/
theorem settles_load (h : SpellsDocument v text) :
    (∃ rows rows' entries, v = .table rows ∧ SameByKey rows rows' ∧ DescribesEach rows' entries ∧
      load text = .ok ((∅ : Records).putAll entries)) ∨
      (¬ v.IsReport ∧ ∃ err, load text = .error err) := by
  obtain ⟨s, r, hs, hv, hr⟩ := h
  obtain ⟨c, q, rfl, hc⟩ := hv.head
  obtain ⟨hlt, hmark⟩ := (hs.opens hc.plain.1).readMark
  by_cases htable : c = '\x7b'
  · subst htable
    obtain ⟨rows, rfl⟩ := hc.table
    cases hv with
    | table hsame hrows =>
      have hsettles : Settles (readRows ∅ true q) _ r := settles_rows hrows
      obtain ⟨_, ⟨entries, heach, rfl⟩, hlt', hread⟩ | ⟨hnone, err, hread⟩ := hsettles
      · refine .inl ⟨rows, _, entries, rfl, hsame, heach, ?_⟩
        simp only [load, hmark, hread, hr.skipSpace_eq_nil, bind, Except.bind, ↓reduceIte]
        rfl
      · refine .inr ⟨fun hreport => ?_, err, ?_⟩
        · obtain ⟨entries, heach⟩ := hsame.isReport_iff.1 hreport
          exact hnone _ ⟨entries, heach, rfl⟩
        · simp only [load, hmark, hread, bind, Except.bind, ↓reduceIte]
  · refine .inr ⟨fun hreport => ?_, wrongShape (c :: q), ?_⟩
    · cases v with
      | table rows => exact htable hc
      | _ => exact hreport
    · simp only [load, hmark, htable, bind, Except.bind, ↓reduceIte]
      rfl

theorem DescribesEach.getLast? (h : DescribesEach rows entries) :
    (rows.getLast? = none ∧ entries.getLast? = none) ∨ ∃ row e, rows.getLast? = some row ∧
      entries.getLast? = some e ∧ row.1 = e.1 ∧ Describes row.2 e.2 := by
  induction h with
  | nil => exact .inl ⟨rfl, rfl⟩
  | @cons row e rows entries hrow htail ih =>
    cases htail with
    | nil => exact .inr ⟨row, e, rfl, rfl, hrow⟩
    | cons => simpa only [List.getLast?_cons_cons] using ih

theorem DescribesEach.filter (h : DescribesEach rows entries) (i : String) :
    DescribesEach (rows.filter (·.1 = i)) (entries.filter (·.1 = i)) :=
  List.rel_filter (fun _ _ hrow => by simp [hrow.1]) h

theorem DescribesEach.getElem?_putAll_iff (h : DescribesEach rows entries) (i : String)
    (m : Members) : ((∅ : Records).putAll entries)[i]? = some m ↔
      ∃ w, (rows.filter (·.1 = i)).getLast? = some (i, w) ∧ Describes w m := by
  rw [Records.getElem?_putAll]
  obtain ⟨hrow, he⟩ | ⟨row, e, hrow, he, -, hdescribes⟩ := (h.filter i).getLast?
  · simp [hrow, he]
  · obtain ⟨-, hkey⟩ := List.mem_filter.1 (List.mem_of_getLast? hrow)
    have hkey : row.1 = i := of_decide_eq_true hkey
    rw [hrow, he]
    constructor
    · intro hm
      obtain rfl : e.2 = m := by simpa using hm
      exact ⟨row.2, by rw [← hkey], hdescribes⟩
    · rintro ⟨w, hw, hm⟩
      obtain rfl := Option.some.inj hw
      rw [hm.unique hdescribes]
      rfl

/-- Reports are read by their shape. Whatever text a document has, it is read exactly where the
document is a report, and each identity then has the record of the last row with its key. -/
theorem load_by_shape (h : SpellsDocument v text) :
    ((∃ r, load text = .ok r) ↔ v.IsReport) ∧
      ∀ r rows, load text = .ok r → v = .table rows → ∀ i m, r[i]? = some m ↔
        ∃ w, (rows.filter (·.1 = i)).getLast? = some (i, w) ∧ Describes w m := by
  obtain ⟨rows, rows', entries, rfl, hsame, heach, hload⟩ | ⟨hno, err, hload⟩ := settles_load h
  · refine ⟨⟨fun _ => hsame.isReport_iff.2 ⟨entries, heach⟩, fun _ => ⟨_, hload⟩⟩, ?_⟩
    rintro r rows hr ⟨⟩ i m
    obtain rfl := Except.ok.inj (hload.symm.trans hr)
    rw [hsame i]
    exact heach.getElem?_putAll_iff i m
  · refine ⟨⟨fun ⟨r, hr⟩ => ?_, fun hreport => absurd hreport hno⟩, fun r rows hr => ?_⟩
    · cases hload.symm.trans hr
    · cases hload.symm.trans hr

def twoForms : Value := .table
  [("K", .table [("x", .list [.number (3 / 2)]), ("fields", .ofTexts []), ("methods", .ofTexts []),
      ("dependencies", .ofTexts [])]),
    ("K", .list [.ofTexts ["f", "f"], .ofTexts [], .ofTexts []])]

def twoFormsText : String :=
  "\x7b\"K\":\x7b\"x\":[15e-1],\"fields\":[],\"method\\u0073\":[],\"dependencies\":[]\x7d,\n" ++
    "\"K\":[[\"f\",\"f\"],[],[]]\x7d"

theorem spells_twoForms : SpellsDocument twoForms twoFormsText := by
  have hvalue : Numeral.value ⟨['1', '5'], [], false, ['1']⟩ = 3 / 2 := by
    have hwhole : takeExponent ['1', '5'] = 15 := by decide
    have hexponent : takeExponent ['1'] = 1 := by decide
    simp only [Numeral.value, List.append_nil, hwhole, hexponent]
    norm_num
  have hnumeral (r : List Char) : SpellsNumeral ⟨['1', '5'], [], false, ['1']⟩
      ('1' :: '5' :: 'e' :: '-' :: '1' :: r) r :=
    .mk (s := 'e' :: '-' :: '1' :: r) ⟨by simp, by simp⟩ (by simp) .none
      (.minus (by simp) ⟨by simp, by simp⟩)
  have hnumber (r : List Char) :
      Spells (.value (.number (3 / 2))) ('1' :: '5' :: 'e' :: '-' :: '1' :: r) r :=
    hvalue ▸ .number (hnumeral r)
  have hdigits (r : List Char) :
      HexDigits (((0 * 16 + 0) * 16 + 7) * 16 + 3) ('0' :: '0' :: '7' :: '3' :: r) r :=
    .mk ⟨by decide, by decide⟩ ⟨by decide, by decide⟩ ⟨by decide, by decide⟩ ⟨by decide, by decide⟩
  have hescape (r : List Char) : SpellsEscape 's' ('u' :: '0' :: '0' :: '7' :: '3' :: r) r :=
    .unit (hdigits r)
  have hmethods (r : List Char) : SpellsChars ("method".toList ++ ['s'])
      ("method".toList ++ '\\' :: 'u' :: '0' :: '0' :: '7' :: '3' :: '"' :: r) r :=
    .plain_append (by simp) (.escape (hescape _) .closing)
  have hnone (r : List Char) : Spells (.value (.ofTexts [])) ('[' :: ']' :: r) r :=
    .list (.itemsDone .none)
  have htwo (r : List Char) : Spells (.value (.ofTexts ["f", "f"]))
      ('[' :: '"' :: 'f' :: '"' :: ',' :: '"' :: 'f' :: '"' :: ']' :: r) r :=
    .list (.item (.first .none) (.text (spells_plain "f".toList _ (by simp)))
      (.item (.next .none .none) (.text (spells_plain "f".toList _ (by simp)))
        (.itemsDone .none)))
  refine ⟨twoFormsText.toList, [], .none, ?_, .none⟩
  exact .table (fun _ => rfl)
    (.row (.first .none) (spells_plain "K".toList _ (by simp)) .none .none
      (.table (fun _ => rfl)
        (.row (.first .none) (spells_plain "x".toList _ (by simp)) .none .none
          (.list (.item (.first .none) (hnumber _) (.itemsDone .none)))
        (.row (.next .none .none) (spells_plain "fields".toList _ (by simp)) .none .none (hnone _)
        (.row (.next .none .none) (hmethods _) .none .none (hnone _)
        (.row (.next .none .none) (spells_plain "dependencies".toList _ (by simp)) .none .none
          (hnone _) (.rowsDone .none))))))
      (.row (.next .none (.more (by decide) .none)) (spells_plain "K".toList _ (by simp)) .none
        .none (.list (.item (.first .none) (htwo _) (.item (.next .none .none) (hnone _)
          (.item (.next .none .none) (hnone _) (.itemsDone .none))))) (.rowsDone .none)))

theorem load_by_shape_of_two_forms : SpellsDocument twoForms twoFormsText ∧
    ∃ r m, load twoFormsText = .ok r ∧ r["K"]? = some m ∧ m.methods = ["f", "f"] := by
  have hreport : twoForms.IsReport := by
    simp only [twoForms, Value.IsReport, List.forall_mem_cons]
    exact ⟨⟨_, .table rfl rfl rfl⟩, ⟨_, .list⟩, by simp⟩
  obtain ⟨hread, hrecords⟩ := load_by_shape spells_twoForms
  obtain ⟨r, hr⟩ := hread.2 hreport
  exact ⟨spells_twoForms, r, _, hr, (hrecords r _ hr rfl "K" _).2 ⟨_, rfl, .list⟩, rfl⟩

end Reports

end MemberIndex.Report
