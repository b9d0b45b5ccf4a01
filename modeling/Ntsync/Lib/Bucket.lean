import Mathlib

namespace Tokens

open scoped BigOperators

/-!
# Lib — token buckets

A bucket holds at most `cap` tokens.  Tokens flow in at a rate: `rate d` of them in a period of
length `d`, where two periods in a row bring no more than the period they make up.  A use of the
bucket takes tokens out of it.

* `Bucket` carries its bound as a field, so a bucket that overflows cannot be built;
* `Bucket.Step` — one use: at most the tokens that are there after the refill are spent.  A bucket
  that refills more slowly than its rate also makes such steps;
* `window_le` — **the rate holds over every window**: what the uses `i..j` spend is at most a full
  bucket and the inflow between the first and the last of them.
-/

/-- A bucket with its last refill. -/
structure Bucket (cap : Nat) where
  level : Nat
  time : Nat
  level_le : level ≤ cap

/-- One use of a bucket: when, and how many tokens it spends. -/
structure Use where
  time : Nat
  spent : Nat

variable {cap : Nat} {rate : Nat → Nat}

/-- The bucket `b` is refilled at the use's time and what it spends is taken out: `b'`. -/
structure Step (rate : Nat → Nat) (b : Bucket cap) (u : Use) (b' : Bucket cap) : Prop where
  time_eq : b'.time = u.time
  time_le : b.time ≤ u.time
  /-- nothing but the old level and the inflow is spent -/
  refill : b'.level + u.spent ≤ b.level + rate (u.time - b.time)
  /-- no more than a full bucket is spent at once -/
  spent_le : b'.level + u.spent ≤ cap

/-- The rate over two periods in a row is at most the rate over both. -/
def Rate (rate : Nat → Nat) : Prop := ∀ d e, rate d + rate e ≤ rate (d + e)

/-- `n` tokens for each `unit` of time, rounded down, is a rate. -/
theorem rate_div (n unit : Nat) : Rate fun d => n * d / unit := by
  intro d e
  show n * d / unit + n * e / unit ≤ n * (d + e) / unit
  rw [Nat.mul_add]
  exact Nat.div_add_div_le_add_div

section Sequences

variable {b : Nat → Bucket cap} {u : Nat → Use}

/-- The use `k` is made of the bucket the uses before it left. -/
def Uses (rate : Nat → Nat) (b : Nat → Bucket cap) (u : Nat → Use) : Prop :=
  ∀ k, Step rate (b k) (u k) (b (k + 1))

/-- The times of a sequence of uses do not go back. -/
theorem Uses.time_mono (h : Uses rate b u) {i j : Nat} (hij : i ≤ j) :
    (u i).time ≤ (u j).time := by
  induction j, hij using Nat.le_induction with
  | base => exact le_refl _
  | succ j _ ih =>
    have hj := (h j).time_eq
    have hj' := (h (j + 1)).time_le
    omega

/-- Over a window the tokens spent and those left come from a full bucket and the inflow. -/
theorem Uses.window (hrate : Rate rate) (h : Uses rate b u) {i j : Nat} (hij : i ≤ j) :
    ∑ k ∈ Finset.Icc i j, (u k).spent + (b (j + 1)).level
      ≤ cap + rate ((u j).time - (u i).time) := by
  -- The window grows at its end; only its first use profits from what the bucket had saved.
  induction j, hij using Nat.le_induction with
  | base =>
    have hi := (h i).spent_le
    rw [Finset.Icc_self, Finset.sum_singleton]
    omega
  | succ j hij ih =>
    have hstep := (h (j + 1)).refill
    have htime := (h j).time_eq
    have hmono := h.time_mono hij
    have hnext : (u j).time ≤ (u (j + 1)).time := h.time_mono (Nat.le_succ j)
    have hsum := hrate ((u j).time - (u i).time) ((u (j + 1)).time - (u j).time)
    have hgap : (u j).time - (u i).time + ((u (j + 1)).time - (u j).time)
        = (u (j + 1)).time - (u i).time := by omega
    rw [hgap] at hsum
    rw [htime] at hstep
    rw [Finset.sum_Icc_succ_top (by omega)]
    omega

/-- **The rate holds over every window.** -/
theorem Uses.window_le (hrate : Rate rate) (h : Uses rate b u) {i j : Nat} (hij : i ≤ j) :
    ∑ k ∈ Finset.Icc i j, (u k).spent ≤ cap + rate ((u j).time - (u i).time) :=
  le_trans (Nat.le_add_right _ _) (h.window hrate hij)

end Sequences

end Tokens
