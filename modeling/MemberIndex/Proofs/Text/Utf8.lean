import Mathlib.Tactic.SplitIfs
import MemberIndex.Text.Utf8

/-! # Decoding piece by piece

A byte below 128 closes whatever is open and stands for itself, and no other bytes make
such a character. What was encoded is decoded to itself.
-/

namespace MemberIndex.Text.Utf8

/-- An open character of which no continuation is below 128. -/
structure Partial.Valid (p : Partial) : Prop where
  low : 128 ≤ p.low.toNat
  high : p.high.toNat < 192
  bits : 128 ≤ (p.bits * 64 + p.low.toNat % 64) * Nat.pow 64 p.owed

/-- A character is not made of several bytes, or of none, if it is below 128. -/
def Stray (c : Char) : Prop := c.toNat = 0 ∨ 128 ≤ c.toNat

theorem stray_replacement : Stray replacement := by
  right
  decide

theorem toNat_ofNat {n : Nat} (h : n.isValidChar) : (Char.ofNat n).toNat = n := by
  unfold Char.ofNat
  rw [dif_pos h]
  rfl

theorem stray_ofNat {n : Nat} (h : 128 ≤ n) : Stray (Char.ofNat n) := by
  by_cases hn : n.isValidChar
  · right
    rwa [toNat_ofNat hn]
  · left
    unfold Char.ofNat
    rw [dif_neg hn]
    rfl

theorem valid_ofLead {b : UInt8} {p : Partial} (h : Partial.ofLead? b = some p) : p.Valid := by
  have hlt : b.toNat < 256 := b.toNat_lt
  unfold Partial.ofLead? at h
  simp only [UInt8.le_iff_toNat_le, ← UInt8.toNat_inj, UInt8.reduceToNat] at h
  split_ifs at h <;> cases h <;> constructor <;> simp <;> omega

theorem toNat_ofNat_byte (b : UInt8) (h : b < 0x80) : (Char.ofNat b.toNat).toNat = b.toNat := by
  have hlt : b.toNat < 128 := UInt8.lt_iff_toNat_lt.1 h
  exact toNat_ofNat (.inl (by omega))

theorem begin_spec (b : UInt8) :
    (∀ c ∈ (begin b).1, Stray c ∨ c.toNat = b.toNat) ∧ ∀ q ∈ (begin b).2, q.Valid := by
  unfold begin
  split
  · rename_i hb
    refine ⟨?_, by simp⟩
    intro c hc
    obtain rfl := List.mem_singleton.1 hc
    exact .inr (toNat_ofNat_byte b hb)
  · cases hp : Partial.ofLead? b with
    | some p =>
      refine ⟨by simp, ?_⟩
      intro q hq
      cases hq
      exact valid_ofLead hp
    | none =>
      refine ⟨?_, by simp⟩
      intro c hc
      obtain rfl := List.mem_singleton.1 hc
      exact .inl stray_replacement

theorem step_spec {p : Option Partial} (hp : ∀ q ∈ p, q.Valid) (b : UInt8) :
    (∀ c ∈ (step p b).1, Stray c ∨ c.toNat = b.toNat) ∧ ∀ q ∈ (step p b).2, q.Valid := by
  obtain ⟨hchars, hopen⟩ := begin_spec b
  cases p with
  | none => exact ⟨hchars, hopen⟩
  | some p =>
    obtain ⟨hl, hh, hbits⟩ := hp p rfl
    by_cases hb : p.low ≤ b ∧ b ≤ p.high
    · have hlb : p.low.toNat ≤ b.toNat := UInt8.le_iff_toNat_le.1 hb.1
      have hbh : b.toNat ≤ p.high.toNat := UInt8.le_iff_toNat_le.1 hb.2
      have hmore : p.bits * 64 + p.low.toNat % 64 ≤ p.bits * 64 + b.toNat % 64 := by omega
      cases ho : p.owed with
      | zero =>
        simp only [step, if_pos hb, ho]
        refine ⟨?_, by simp⟩
        intro c hc
        obtain rfl := List.mem_singleton.1 hc
        simp only [ho, Nat.pow_eq, Nat.pow_zero, Nat.mul_one] at hbits
        exact .inl (stray_ofNat (Nat.le_trans hbits hmore))
      | succ n =>
        simp only [step, if_pos hb, ho]
        refine ⟨by simp, ?_⟩
        intro q hq
        cases hq
        refine ⟨by simp, by simp, ?_⟩
        have hlow : (0x80 : UInt8).toNat % 64 = 0 := by decide
        rw [ho, Nat.pow_eq, Nat.pow_succ, Nat.mul_comm (64 ^ n), ← Nat.mul_assoc] at hbits
        simp only [hlow, Nat.add_zero]
        refine Nat.le_trans hbits ?_
        exact Nat.mul_le_mul_right _ (Nat.mul_le_mul_right _ hmore)
    · simp only [step, if_neg hb]
      refine ⟨?_, hopen⟩
      intro c hc
      rcases List.mem_cons.1 hc with rfl | hc
      · exact .inl stray_replacement
      · exact hchars c hc

theorem exists_decodeFrom_append {p : Option Partial} (hp : ∀ q ∈ p, q.Valid) (as : List UInt8) :
    ∃ cs q, (∀ r ∈ q, r.Valid) ∧ (∀ c ∈ cs, Stray c ∨ ∃ b ∈ as, c.toNat = b.toNat) ∧
      ∀ bs, decodeFrom p (as ++ bs) = cs ++ decodeFrom q bs := by
  induction as generalizing p with
  | nil => exact ⟨[], p, hp, by simp, fun _ => rfl⟩
  | cons a as ih =>
    obtain ⟨hchars, hopen⟩ := step_spec hp a
    obtain ⟨cs, q, hq, hcs, heq⟩ := ih hopen
    refine ⟨(step p a).1 ++ cs, q, hq, ?_, ?_⟩
    · intro c hc
      rcases List.mem_append.1 hc with hc | hc
      · exact (hchars c hc).imp_right fun h => ⟨a, List.mem_cons_self, h⟩
      · exact (hcs c hc).imp_right fun ⟨b, hb, h⟩ => ⟨b, List.mem_cons_of_mem _ hb, h⟩
    · intro bs
      rw [List.cons_append, decodeFrom, heq, List.append_assoc]

theorem decodeFrom_nil (p : Option Partial) :
    decodeFrom p [] = p.toList.map fun _ => replacement := by
  cases p <;> rfl

/-- A byte below 128 cuts what is decoded. -/
theorem decodeFrom_append_ascii (as bs : List UInt8) {b : UInt8} (hb : b < 0x80) :
    decodeFrom none (as ++ b :: bs) =
      decodeFrom none as ++ Char.ofNat b.toNat :: decodeFrom none bs := by
  obtain ⟨cs, q, hq, -, heq⟩ := exists_decodeFrom_append (p := none) (by simp) as
  have hlow : ∀ r ∈ q, 0x80 ≤ r.low := fun r hr => UInt8.le_iff_toNat_le.2 (hq r hr).low
  have hnil := heq []
  rw [List.append_nil, decodeFrom_nil] at hnil
  rw [heq, hnil, decodeFrom, step_ascii q hb hlow]
  simp

theorem exists_byte_of_mem {bytes : List UInt8} {c : Char} (h : c ∈ decodeFrom none bytes) :
    Stray c ∨ ∃ b ∈ bytes, c.toNat = b.toNat := by
  obtain ⟨cs, q, -, hcs, heq⟩ := exists_decodeFrom_append (p := none) (by simp) bytes
  have hnil := heq []
  rw [List.append_nil, decodeFrom_nil] at hnil
  rw [hnil] at h
  rcases List.mem_append.1 h with h | h
  · exact hcs c h
  · obtain ⟨_, -, rfl⟩ := List.mem_map.1 h
    exact .inl stray_replacement

theorem step_ne_nil (p : Option Partial) (b : UInt8) :
    (step p b).1 ++ (step p b).2.toList.map (fun _ => replacement) ≠ [] := by
  have hbegin : (begin b).1 ++ (begin b).2.toList.map (fun _ => replacement) ≠ [] := by
    unfold begin
    split
    · simp
    · cases Partial.ofLead? b <;> simp
  cases p with
  | none => exact hbegin
  | some p =>
    by_cases hb : p.low ≤ b ∧ b ≤ p.high
    · cases ho : p.owed <;> simp [step, hb, ho]
    · simp [step, hb]

theorem decodeFrom_eq_nil {p : Option Partial} {bytes : List UInt8}
    (h : decodeFrom p bytes = []) : p = none ∧ bytes = [] := by
  induction bytes generalizing p with
  | nil => cases p with
    | none => exact ⟨rfl, rfl⟩
    | some p => cases h
  | cons b bs ih =>
    rw [decodeFrom] at h
    obtain ⟨h₁, h₂⟩ := List.append_eq_nil_iff.1 h
    have hnone := (ih h₂).1
    exact absurd (by rw [h₁, hnone]; rfl) (step_ne_nil p b)

theorem exists_getLast_stray (bytes : List UInt8) {b : UInt8} (hb : 128 ≤ b.toNat) :
    ∃ c, (decodeFrom none (bytes ++ [b])).getLast? = some c ∧ Stray c := by
  obtain ⟨cs, q, hq, -, heq⟩ := exists_decodeFrom_append (p := none) (by simp) bytes
  obtain ⟨hchars, -⟩ := step_spec hq b
  have hne := step_ne_nil q b
  refine ⟨List.getLast _ hne, ?_, ?_⟩
  · rw [heq, decodeFrom, decodeFrom_nil, List.getLast?_append,
      List.getLast?_eq_some_getLast hne]
    rfl
  · rcases List.mem_append.1 (List.getLast_mem hne) with h | h
    · rcases hchars _ h with h | h
      · exact h
      · exact .inr (h ▸ hb)
    · obtain ⟨_, -, h⟩ := List.mem_map.1 h
      exact h ▸ stray_replacement

section Encode

variable {q : Partial} (bs : List UInt8)

theorem decodeFrom_lead {b : UInt8} (hb : 128 ≤ b.toNat) (h : Partial.ofLead? b = some q) :
    decodeFrom none (b :: bs) = decodeFrom (some q) bs := by
  have hlt : ¬ b < 0x80 := UInt8.not_lt.2 (UInt8.le_iff_toNat_le.2 hb)
  simp [decodeFrom, step, begin, hlt, h]

theorem toNat_continuation (n : Nat) : (UInt8.ofNat (n % 64 + 0x80)).toNat = n % 64 + 0x80 := by
  rw [UInt8.toNat_ofNat']
  omega

theorem decodeFrom_more {k : Nat} (n : Nat) (ho : q.owed = k + 1)
    (hl : q.low.toNat ≤ n % 64 + 0x80) (hh : n % 64 + 0x80 ≤ q.high.toNat) :
    decodeFrom (some q) (UInt8.ofNat (n % 64 + 0x80) :: bs) =
      decodeFrom (some ⟨q.bits * 64 + n % 64, k, 0x80, 0xBF⟩) bs := by
  have hb : q.low ≤ UInt8.ofNat (n % 64 + 0x80) ∧ UInt8.ofNat (n % 64 + 0x80) ≤ q.high := by
    simp only [UInt8.le_iff_toNat_le, toNat_continuation]
    exact ⟨hl, hh⟩
  have hmod : (n % 64 + 0x80) % 64 = n % 64 := by omega
  simp only [decodeFrom, step, if_pos hb, ho, toNat_continuation, hmod, List.nil_append]

theorem decodeFrom_last (n : Nat) (ho : q.owed = 0) (hl : q.low.toNat ≤ n % 64 + 0x80)
    (hh : n % 64 + 0x80 ≤ q.high.toNat) :
    decodeFrom (some q) (UInt8.ofNat (n % 64 + 0x80) :: bs) =
      Char.ofNat (q.bits * 64 + n % 64) :: decodeFrom none bs := by
  have hb : q.low ≤ UInt8.ofNat (n % 64 + 0x80) ∧ UInt8.ofNat (n % 64 + 0x80) ≤ q.high := by
    simp only [UInt8.le_iff_toNat_le, toNat_continuation]
    exact ⟨hl, hh⟩
  have hmod : (n % 64 + 0x80) % 64 = n % 64 := by omega
  simp only [decodeFrom, step, if_pos hb, ho, toNat_continuation, hmod, List.cons_append,
    List.nil_append]

theorem continuation_bounds (n : Nat) :
    (0x80 : UInt8).toNat ≤ n % 64 + 0x80 ∧ n % 64 + 0x80 ≤ (0xBF : UInt8).toNat := by
  simp only [UInt8.reduceToNat]
  omega

theorem ofLead_two {v : Nat} (hlow : 0x80 ≤ v) (hhigh : v ≤ 0x7FF) :
    Partial.ofLead? (UInt8.ofNat (v / 64 % 32 + 0xC0)) = some ⟨v / 64, 0, 0x80, 0xBF⟩ := by
  have hb : (UInt8.ofNat (v / 64 % 32 + 0xC0)).toNat = v / 64 + 0xC0 := by
    rw [UInt8.toNat_ofNat']
    omega
  have hmod : (v / 64 + 0xC0) % 32 = v / 64 := by omega
  unfold Partial.ofLead?
  simp only [UInt8.le_iff_toNat_le, UInt8.reduceToNat, hb]
  rw [if_pos (by omega), hmod]

theorem ofLead_three {v : Nat} (hlow : 0x800 ≤ v) (hhigh : v ≤ 0xFFFF) (hv : v.isValidChar) :
    ∃ q, Partial.ofLead? (UInt8.ofNat (v / 4096 % 16 + 0xE0)) = some q ∧ q.owed = 1 ∧
      q.bits = v / 4096 ∧ q.low.toNat ≤ v / 64 % 64 + 0x80 ∧ v / 64 % 64 + 0x80 ≤ q.high.toNat := by
  have hb : (UInt8.ofNat (v / 4096 % 16 + 0xE0)).toNat = v / 4096 + 0xE0 := by
    rw [UInt8.toNat_ofNat']
    omega
  have hv : v < 0xD800 ∨ 0xDFFF < v := hv.imp_right And.left
  unfold Partial.ofLead?
  simp only [UInt8.le_iff_toNat_le, ← UInt8.toNat_inj, UInt8.reduceToNat, hb]
  split_ifs <;>
    simp only [reduceCtorEq, false_and, true_and, exists_false, Option.some.injEq, exists_eq_left',
      UInt8.reduceToNat] <;>
    omega

theorem ofLead_four {v : Nat} (hlow : 0x10000 ≤ v) (hhigh : v ≤ 0x10FFFF) :
    ∃ q, Partial.ofLead? (UInt8.ofNat (v / 262144 % 8 + 0xF0)) = some q ∧ q.owed = 2 ∧
      q.bits = v / 262144 ∧ q.low.toNat ≤ v / 4096 % 64 + 0x80 ∧
      v / 4096 % 64 + 0x80 ≤ q.high.toNat := by
  have hb : (UInt8.ofNat (v / 262144 % 8 + 0xF0)).toNat = v / 262144 + 0xF0 := by
    rw [UInt8.toNat_ofNat']
    omega
  unfold Partial.ofLead?
  simp only [UInt8.le_iff_toNat_le, ← UInt8.toNat_inj, UInt8.reduceToNat, hb]
  split_ifs <;>
    simp only [reduceCtorEq, false_and, true_and, exists_false, Option.some.injEq, exists_eq_left',
      UInt8.reduceToNat] <;>
    omega

theorem decodeFrom_utf8EncodeChar (c : Char) :
    decodeFrom none (String.utf8EncodeChar c ++ bs) = c :: decodeFrom none bs := by
  have hvalid : c.toNat.isValidChar := c.valid
  have hmax : c.toNat ≤ 0x10FFFF := by rcases hvalid with h | h <;> omega
  have hc : Char.ofNat c.toNat = c := Char.ofNat_toNat c
  have hlead (n : Nat) (hn : n < 128) : 128 ≤ (UInt8.ofNat (n + 128)).toNat := by
    rw [UInt8.toNat_ofNat']
    omega
  by_cases h₁ : c.toNat ≤ 0x7F
  · have henc : String.utf8EncodeChar c = [UInt8.ofNat c.toNat] := if_pos h₁
    have hb : (UInt8.ofNat c.toNat).toNat = c.toNat := by
      rw [UInt8.toNat_ofNat']
      omega
    have hlt : UInt8.ofNat c.toNat < 0x80 := by
      simp only [UInt8.lt_iff_toNat_lt, hb, UInt8.reduceToNat]
      omega
    have hascii := decodeFrom_append_ascii [] bs hlt
    rw [hb, hc] at hascii
    rw [henc]
    exact hascii
  by_cases h₂ : c.toNat ≤ 0x7FF
  · have henc : String.utf8EncodeChar c = [UInt8.ofNat (c.toNat / 64 % 32 + 0xC0),
        UInt8.ofNat (c.toNat % 64 + 0x80)] := (if_neg h₁).trans (if_pos h₂)
    have hsum : c.toNat / 64 * 64 + c.toNat % 64 = c.toNat := by omega
    obtain ⟨hl, hh⟩ := continuation_bounds c.toNat
    rw [henc, List.cons_append, List.cons_append, List.nil_append,
      decodeFrom_lead _ (hlead (c.toNat / 64 % 32 + 64) (by omega)) (ofLead_two (by omega) h₂),
      decodeFrom_last _ _ rfl hl hh, hsum, hc]
  by_cases h₃ : c.toNat ≤ 0xFFFF
  · have henc : String.utf8EncodeChar c = [UInt8.ofNat (c.toNat / 4096 % 16 + 0xE0),
        UInt8.ofNat (c.toNat / 64 % 64 + 0x80), UInt8.ofNat (c.toNat % 64 + 0x80)] :=
      (if_neg h₁).trans ((if_neg h₂).trans (if_pos h₃))
    have hsum : (c.toNat / 4096 * 64 + c.toNat / 64 % 64) * 64 + c.toNat % 64 = c.toNat := by omega
    obtain ⟨q, hq, ho, hbits, hl, hh⟩ := ofLead_three (by omega) h₃ hvalid
    obtain ⟨hl', hh'⟩ := continuation_bounds c.toNat
    rw [henc, List.cons_append, List.cons_append, List.cons_append, List.nil_append,
      decodeFrom_lead _ (hlead (c.toNat / 4096 % 16 + 96) (by omega)) hq,
      decodeFrom_more _ _ ho hl hh, decodeFrom_last _ _ rfl hl' hh', hbits, hsum, hc]
  · have henc : String.utf8EncodeChar c = [UInt8.ofNat (c.toNat / 262144 % 8 + 0xF0),
        UInt8.ofNat (c.toNat / 4096 % 64 + 0x80), UInt8.ofNat (c.toNat / 64 % 64 + 0x80),
        UInt8.ofNat (c.toNat % 64 + 0x80)] :=
      (if_neg h₁).trans ((if_neg h₂).trans (if_neg h₃))
    have hsum : ((c.toNat / 262144 * 64 + c.toNat / 4096 % 64) * 64 + c.toNat / 64 % 64) * 64 +
        c.toNat % 64 = c.toNat := by omega
    obtain ⟨q, hq, ho, hbits, hl, hh⟩ := ofLead_four (by omega) hmax
    obtain ⟨hl', hh'⟩ := continuation_bounds (c.toNat / 64)
    obtain ⟨hl'', hh''⟩ := continuation_bounds c.toNat
    rw [henc, List.cons_append, List.cons_append, List.cons_append, List.cons_append,
      List.nil_append, decodeFrom_lead _ (hlead (c.toNat / 262144 % 8 + 112) (by omega)) hq,
      decodeFrom_more _ _ ho hl hh, decodeFrom_more _ _ rfl hl' hh',
      decodeFrom_last _ _ rfl hl'' hh'', hbits, hsum, hc]

end Encode

theorem decodeFrom_encode_append (s : String) (bs : List UInt8) :
    decodeFrom none (encode s ++ bs) = s.toList ++ decodeFrom none bs := by
  have key (cs : List Char) :
      decodeFrom none (cs.flatMap String.utf8EncodeChar ++ bs) = cs ++ decodeFrom none bs := by
    induction cs with
    | nil => rfl
    | cons c cs ih =>
      rw [List.flatMap_cons, List.append_assoc, decodeFrom_utf8EncodeChar, ih, List.cons_append]
  exact key s.toList

/-- What was encoded is decoded to itself. -/
theorem decode_encode (s : String) : decode (encode s) = s := by
  have h := decodeFrom_encode_append s []
  rw [List.append_nil, decodeFrom, List.append_nil] at h
  rw [decode, h, String.ofList_toList]

/-- An encoded text begins with another one where the text does. -/
theorem encode_prefix_iff {s s' : String} : encode s <+: encode s' ↔ s.toList <+: s'.toList := by
  constructor
  · rintro ⟨bs, h⟩
    refine ⟨decodeFrom none bs, ?_⟩
    rw [← decodeFrom_encode_append, h, ← String.toList_ofList (l := decodeFrom none (encode s'))]
    exact congrArg String.toList (decode_encode s')
  · rintro ⟨cs, h⟩
    refine ⟨cs.flatMap String.utf8EncodeChar, ?_⟩
    rw [encode, encode, ← h, List.flatMap_append]

end MemberIndex.Text.Utf8
