import Mathlib.Data.List.Basic
import Mathlib.Tactic.Ring

/-!
# UTF-8 with replacement

`decodeReplace` decodes octets as UTF-8; each maximal ill-formed part becomes
one U+FFFD.  An answer all in ASCII was given in ASCII (`ascii_of_decodeReplace`).
-/

namespace Utf8

def replacement : Char := '\uFFFD'

/-- Between characters, or inside one: `need` octets still owed, the next of them in `[lo, hi]`,
`acc` the code point so far. -/
inductive State where
  | start
  | within (need lo hi acc : Nat)

/-- The character of a code point. -/
def scalar (n : Nat) : Char := if n.isValidChar then Char.ofNat n else replacement

/-- An octet between characters: what it gives out and where it leads. -/
def first (b : Nat) : List Char × State :=
  if b < 0x80 then ([Char.ofNat b], .start)
  else if 0xC2 ≤ b ∧ b ≤ 0xDF then ([], .within 1 0x80 0xBF (b - 0xC0))
  else if b = 0xE0 then ([], .within 2 0xA0 0xBF 0)
  else if b = 0xED then ([], .within 2 0x80 0x9F 0xD)
  else if 0xE1 ≤ b ∧ b ≤ 0xEF then ([], .within 2 0x80 0xBF (b - 0xE0))
  else if b = 0xF0 then ([], .within 3 0x90 0xBF 0)
  else if 0xF1 ≤ b ∧ b ≤ 0xF3 then ([], .within 3 0x80 0xBF (b - 0xF0))
  else if b = 0xF4 then ([], .within 3 0x80 0x8F 4)
  else ([replacement], .start)

def decodeFrom : State → List UInt8 → List Char
  | .start, [] => []
  | .within _ _ _ _, [] => [replacement]
  | .start, b :: bs => (first b.toNat).1 ++ decodeFrom (first b.toNat).2 bs
  | .within need lo hi acc, b :: bs =>
    if lo ≤ b.toNat ∧ b.toNat ≤ hi then
      if need = 1 then scalar (acc * 64 + (b.toNat - 0x80)) :: decodeFrom .start bs
      else decodeFrom (.within (need - 1) 0x80 0xBF (acc * 64 + (b.toNat - 0x80))) bs
    else replacement :: ((first b.toNat).1 ++ decodeFrom (first b.toNat).2 bs)

/-- `bytes.decode(errors="replace")` -/
def decodeReplace (bs : List UInt8) : List Char := decodeFrom .start bs

/-! ## Lemmas -/

/-- Inside a character, whatever octets may still come make a code point of `0x80` or more. -/
def Wide : State → Prop
  | .start => True
  | .within need lo _ acc => 0 < need ∧ 0x80 ≤ lo ∧ 0x80 ≤ (acc * 64 + (lo - 0x80)) * 64 ^ (need - 1)

theorem toNat_ofNat {n : Nat} (h : n.isValidChar) : (Char.ofNat n).toNat = n := by
  unfold Char.ofNat
  rw [dif_pos h]
  unfold Char.ofNatAux Char.toNat
  simp

theorem wide_first (b : Nat) : Wide (first b).2 := by
  unfold first
  split_ifs <;> simp only [Wide] <;> omega

theorem scalar_ge {n : Nat} (h : 0x80 ≤ n) : 0x80 ≤ (scalar n).toNat := by
  unfold scalar
  split
  · next hv => rw [toNat_ofNat hv]; exact h
  · decide

/-- From inside a character the answer has a character that is not ASCII. -/
theorem exists_ge_of_within (bs : List UInt8) :
    ∀ need lo hi acc, Wide (.within need lo hi acc) →
      ∃ c ∈ decodeFrom (.within need lo hi acc) bs, 0x80 ≤ c.toNat := by
  induction bs with
  | nil => exact fun _ _ _ _ _ => ⟨replacement, by simp [decodeFrom], by decide⟩
  | cons b bs ih =>
    intro need lo hi acc hw
    obtain ⟨hn, hlo, hw⟩ := hw
    unfold decodeFrom
    split
    · next hb =>
      split
      · next h1 =>
        subst h1
        refine ⟨_, List.mem_cons_self, scalar_ge ?_⟩
        simp only [Nat.sub_self, Nat.pow_zero, Nat.mul_one] at hw
        omega
      · next h1 =>
        apply ih
        refine ⟨by omega, Nat.le_refl _, ?_⟩
        obtain ⟨k, rfl⟩ : ∃ k, need = k + 2 := ⟨need - 2, by omega⟩
        have hle : acc * 64 + (lo - 0x80) ≤ acc * 64 + (b.toNat - 0x80) := by omega
        have hmul := Nat.mul_le_mul_right (64 ^ (k + 1)) hle
        simp only [show k + 2 - 1 = k + 1 by omega] at hw ⊢
        calc 0x80 ≤ (acc * 64 + (lo - 0x80)) * 64 ^ (k + 1) := hw
          _ ≤ (acc * 64 + (b.toNat - 0x80)) * 64 ^ (k + 1) := hmul
          _ = ((acc * 64 + (b.toNat - 0x80)) * 64 + (0x80 - 0x80)) * 64 ^ (k + 1 - 1) := by
            simp only [Nat.sub_self, Nat.add_sub_cancel]
            ring
    · exact ⟨replacement, List.mem_cons_self, by decide⟩

/-- **An answer all in ASCII was given in ASCII.** -/
theorem ascii_of_decodeReplace (bs : List UInt8) (h : ∀ c ∈ decodeReplace bs, c.toNat < 0x80) :
    bs.map UInt8.toNat = (decodeReplace bs).map Char.toNat := by
  unfold decodeReplace at *
  induction bs with
  | nil => rfl
  | cons b bs ih =>
    unfold decodeFrom at h ⊢
    by_cases hb : b.toNat < 0x80
    · have hf : first b.toNat = ([Char.ofNat b.toNat], .start) := if_pos hb
      rw [hf] at h ⊢
      have hv : b.toNat.isValidChar := .inl (by omega)
      simp only [List.singleton_append, List.mem_cons, forall_eq_or_imp] at h
      simp only [List.singleton_append, List.map_cons, ih h.2, toNat_ofNat hv]
    · exfalso
      have hw := wide_first b.toNat
      cases hs : (first b.toNat).2 with
      | start =>
        have hr : (first b.toNat).1 = [replacement] := by
          unfold first at hs ⊢
          split_ifs at hs ⊢
          rfl
        have := h replacement (by rw [hr]; simp)
        exact absurd this (by decide)
      | within need lo hi acc =>
        rw [hs] at hw h
        obtain ⟨c, hc, hge⟩ := exists_ge_of_within bs need lo hi acc hw
        have := h c (List.mem_append_right _ hc)
        omega

end Utf8
