import Mathlib

namespace Words

/-!
# Lib — packed machine words

A 64-bit word seen as two 32-bit halves (`lo32`, `hi32`), and a 32-bit word seen as a bit field
below a flag or index field.  The `simp` lemmas compute the halves of a word built with shifts and
`|||`; `word_ext` says that the halves determine the word.

Counters that saturate instead of wrapping (`satAdd`, `satSub`, `satMul`) come with their values.
-/

/-- The low half of a 64-bit word (a truncating cast to 32 bits). -/
def lo32 (w : BitVec 64) : BitVec 32 := w.setWidth 32

/-- The high half of a 64-bit word. -/
def hi32 (w : BitVec 64) : BitVec 32 := (w >>> 32).setWidth 32

/-- The word with the given halves. -/
def pack32 (hi lo : BitVec 32) : BitVec 64 := (hi.setWidth 64 <<< 32) ||| lo.setWidth 64

@[simp] theorem lo32_pack32 (hi lo : BitVec 32) : lo32 (pack32 hi lo) = lo := by
  apply BitVec.eq_of_getLsbD_eq
  intro i h
  simp [lo32, pack32, h]

@[simp] theorem hi32_pack32 (hi lo : BitVec 32) : hi32 (pack32 hi lo) = hi := by
  apply BitVec.eq_of_getLsbD_eq
  intro i h
  have h64 : 32 + i < 64 := by omega
  have h64' : i < 64 := by omega
  simp [hi32, pack32, h, h64, h64']

/-- The halves determine the word. -/
theorem word_ext {w v : BitVec 64} (hlo : lo32 w = lo32 v) (hhi : hi32 w = hi32 v) : w = v := by
  apply BitVec.eq_of_getLsbD_eq
  intro i hi
  by_cases h : i < 32
  · have hbit := congrArg (fun x => BitVec.getLsbD x i) hlo
    simpa [lo32, h] using hbit
  · have hbit := congrArg (fun x => BitVec.getLsbD x (i - 32)) hhi
    have hi' : i - 32 < 32 := by omega
    have hadd : 32 + (i - 32) = i := by omega
    simpa [hi32, hi', hadd] using hbit

/-- A number below the word size whose word is zero is zero. -/
theorem ofNat_eq_zero {w n : Nat} (hn : n < 2 ^ w) (h : BitVec.ofNat w n = 0#w) : n = 0 := by
  have hnat := congrArg BitVec.toNat h
  rw [BitVec.toNat_ofNat, Nat.mod_eq_of_lt hn] at hnat
  exact hnat

/-! ### Saturating arithmetic -/

/-- The largest value of a 64-bit word. -/
def maxWord : Nat := 2 ^ 64 - 1

/-- The sum, or the largest word where it does not fit. -/
def satAdd (w v : BitVec 64) : BitVec 64 := BitVec.ofNat 64 (min (w.toNat + v.toNat) maxWord)

/-- The difference, or zero where it would be negative. -/
def satSub (w v : BitVec 64) : BitVec 64 := BitVec.ofNat 64 (w.toNat - v.toNat)

/-- The product, or the largest word where it does not fit. -/
def satMul (w v : BitVec 64) : BitVec 64 := BitVec.ofNat 64 (min (w.toNat * v.toNat) maxWord)

/-- A value that fits is stored as it is. -/
theorem toNat_ofNat_of_le {n : Nat} (h : n ≤ maxWord) : (BitVec.ofNat 64 n).toNat = n := by
  rw [BitVec.toNat_ofNat]
  apply Nat.mod_eq_of_lt
  unfold maxWord at h
  omega

@[simp] theorem satAdd_toNat (w v : BitVec 64) :
    (satAdd w v).toNat = min (w.toNat + v.toNat) maxWord :=
  toNat_ofNat_of_le (Nat.min_le_right _ _)

@[simp] theorem satSub_toNat (w v : BitVec 64) : (satSub w v).toNat = w.toNat - v.toNat := by
  apply toNat_ofNat_of_le
  have hw := w.isLt
  unfold maxWord
  omega

@[simp] theorem satMul_toNat (w v : BitVec 64) :
    (satMul w v).toNat = min (w.toNat * v.toNat) maxWord :=
  toNat_ofNat_of_le (Nat.min_le_right _ _)

end Words
