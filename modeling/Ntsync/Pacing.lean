import Mathlib
import Ntsync.Lib.Bucket
import Ntsync.Region

namespace Ntsync

open Words Tokens
open scoped BigOperators

/-!
# What a thread may spend on spinning

The thread-local accounts that decide whether a wait spins, as `core.rs` keeps them: the allowance
for the spin tail (`tail_budget`) and the adaptive spin credit (`spin_budget`,
`spin_credit_reward`, `spin_credit_penalize`).  The region is not involved; a wait only sees the
verdict (`Oracle.tail`, `Oracle.spin`).

* `tailStep_use` — a call of `tail_budget` is a use of a token bucket, also where its arithmetic
  saturates;
* `tail_budget_rate` — the rate holds over every window of calls;
* `probe_count`, `hits_count` — what the probe counter knows about the out-of-credit calls;
* `spin_respects_iff` — spinning keeps to `NTSYNC_SPIN_ITERS` unless this is below the smallest
  probe.
-/

/-! ### The spin tail's allowance -/

/-- `spin_tail_budget_ns`; `pct` is what `NTSYNC_SPIN_TAIL_BUDGET_PCT` parses to, if anything. -/
def spinTailBudgetNs (pct : Option U64) : U64 :=
  let p := pct.getD 15
  (if p ≤ 100 then p else 100) * 10000000

/-- `tail_budget_cap` -/
def tailBudgetCap (budget : U64) : U64 :=
  if budget / 100 ≤ 1 then 1 else budget / 100

/-- `TAIL_BUDGET`: the tokens, and when they were last refilled (0 before the first use). -/
structure TailBudget where
  tokens : U64 := 0
  last : U64 := 0

/-- The refill at the start of `tail_budget`. -/
def TailBudget.refill (budget now : U64) (s : TailBudget) : TailBudget :=
  if s.last = 0 then { tokens := tailBudgetCap budget, last := now }
  else
    let elapsed := satSub now s.last
    let filled := satAdd s.tokens (satMul elapsed budget / 1000000000)
    { tokens := if filled ≤ tailBudgetCap budget then filled else tailBudgetCap budget, last := now }

/-- A call of `tail_budget_take` (`charge`) or `tail_budget_can`, with the clock it reads. -/
structure TailCall where
  now : U64
  want : U64
  charge : Bool

/-- `tail_budget` -/
def tailBudget (budget : U64) (c : TailCall) (s : TailBudget) : Bool × TailBudget :=
  if budget = 0 then (true, s) -- unlimited
  else
    let s' := s.refill budget c.now
    let ok := decide (c.want ≤ s'.tokens)
    (ok, if ok && c.charge then { s' with tokens := s'.tokens - c.want } else s')

/-- What a call was granted to spin. -/
def tailGranted (budget : U64) (c : TailCall) (s : TailBudget) : Nat :=
  if (tailBudget budget c s).1 && c.charge then c.want.toNat else 0

/-- The account before call `k` of a thread. -/
def tailAt (budget : U64) (calls : Nat → TailCall) : Nat → TailBudget
  | 0 => {}
  | k + 1 => (tailBudget budget (calls k) (tailAt budget calls k)).2

/-- The budget is at most a second in a second. -/
theorem spinTailBudgetNs_le (pct : Option U64) : (spinTailBudgetNs pct).toNat ≤ 1000000000 := by
  unfold spinTailBudgetNs
  have hp : (if pct.getD 15 ≤ 100 then pct.getD 15 else 100).toNat ≤ 100 := by
    split
    · rename_i h
      exact h
    · decide
  have hten : (10000000 : U64).toNat = 10000000 := rfl
  rw [BitVec.toNat_mul, hten]
  exact le_trans (Nat.mod_le _ _) (by omega)

/-- The cap is a hundredth of the budget, at least 1. -/
theorem tailBudgetCap_toNat (budget : U64) :
    (tailBudgetCap budget).toNat = max (budget.toNat / 100) 1 := by
  unfold tailBudgetCap
  have hdiv : (budget / 100).toNat = budget.toNat / 100 := rfl
  split
  · rename_i h
    have h' : budget.toNat / 100 ≤ 1 := h
    rw [max_eq_right h']
    rfl
  · rename_i h
    have h' : ¬ budget.toNat / 100 ≤ 1 := h
    rw [hdiv]
    omega

/-- The inflow of a budget. -/
def tailRate (budget : U64) (d : Nat) : Nat := budget.toNat * d / 1000000000

/-- The refill is a rate. -/
theorem tailRate_rate (budget : U64) : Rate (tailRate budget) := rate_div _ _

namespace TailBudget

variable {budget now : U64} {s : TailBudget}

@[simp] theorem refill_last : (s.refill budget now).last = now := by
  unfold refill
  split <;> rfl

variable (budget now s) in
/-- A refill does not pass the cap. -/
theorem refill_tokens_le : (s.refill budget now).tokens.toNat ≤ (tailBudgetCap budget).toNat := by
  unfold refill
  split
  · exact le_refl _
  · show (if _ then _ else _ : U64).toNat ≤ _
    split
    · assumption
    · exact le_refl _

variable (budget now) in
/-- Saturation only loses tokens. -/
theorem refill_tokens (hlast : s.last ≠ 0) :
    (s.refill budget now).tokens.toNat
      ≤ s.tokens.toNat + tailRate budget (now.toNat - s.last.toNat) := by
  have hmul : min ((now.toNat - s.last.toNat) * budget.toNat) maxWord
      ≤ budget.toNat * (now.toNat - s.last.toNat) := by
    rw [Nat.mul_comm]
    exact Nat.min_le_left _ _
  have hdiv := Nat.div_le_div_right (c := 1000000000) hmul
  have hfilled : (satAdd s.tokens (satMul (satSub now s.last) budget / 1000000000)).toNat
      ≤ s.tokens.toNat + tailRate budget (now.toNat - s.last.toNat) := by
    rw [satAdd_toNat, BitVec.toNat_udiv, satMul_toNat, satSub_toNat]
    exact le_trans (Nat.min_le_left _ _) (Nat.add_le_add_left hdiv _)
  unfold refill
  rw [if_neg hlast]
  show (if _ then _ else _ : U64).toNat ≤ _
  split
  · exact hfilled
  · rename_i h
    have hcap := Nat.le_of_lt (BitVec.not_le.mp h)
    exact le_trans hcap hfilled

/-- The bucket behind the account: it is full before the first use. -/
def bucket (budget : U64) (s : TailBudget) : Bucket (tailBudgetCap budget).toNat where
  level := if s.last = 0 then (tailBudgetCap budget).toNat
    else min s.tokens.toNat (tailBudgetCap budget).toNat
  time := s.last.toNat
  level_le := by
    split
    · exact le_refl _
    · exact Nat.min_le_right _ _

end TailBudget

section Tail

variable {budget : U64} {c : TailCall} {s : TailBudget}

/-- A call refills the account and takes out what it grants. -/
theorem tailBudget_spec (hbudget : budget ≠ 0) :
    (tailBudget budget c s).2.last = c.now ∧
      (tailBudget budget c s).2.tokens.toNat + tailGranted budget c s
        = (s.refill budget c.now).tokens.toNat := by
  unfold tailGranted
  simp only [tailBudget, if_neg hbudget]
  by_cases hok : c.want ≤ (s.refill budget c.now).tokens
  · by_cases hcharge : c.charge = true
    · have hsub := BitVec.toNat_sub_of_le hok
      have hle : c.want.toNat ≤ (s.refill budget c.now).tokens.toNat := hok
      simp only [hok, hcharge, decide_true, Bool.and_self, if_true, TailBudget.refill_last, hsub]
      exact ⟨trivial, by omega⟩
    · simp [hok, hcharge]
  · simp [hok]

/-- A refused call, and one that does not charge, only refills. -/
theorem tailBudget_uncharged (hbudget : budget ≠ 0)
    (h : (tailBudget budget c s).1 = false ∨ c.charge = false) :
    (tailBudget budget c s).2 = s.refill budget c.now := by
  simp only [tailBudget, if_neg hbudget] at h ⊢
  have hno : (decide (c.want ≤ (s.refill budget c.now).tokens) && c.charge) = false := by
    rw [Bool.and_eq_false_iff]
    exact h
  rw [hno]
  rfl

/-- **A call of `tail_budget` is a use of the bucket.** -/
theorem tailStep_use (hbudget : budget ≠ 0) (hnow : c.now ≠ 0)
    (hle : s.last.toNat ≤ c.now.toNat) :
    Step (tailRate budget) (s.bucket budget) ⟨c.now.toNat, tailGranted budget c s⟩
      ((tailBudget budget c s).2.bucket budget) := by
  obtain ⟨hlast, htokens⟩ := tailBudget_spec (c := c) (s := s) hbudget
  have hcap := TailBudget.refill_tokens_le budget c.now s
  have hlevel : ((tailBudget budget c s).2.bucket budget).level
      = (tailBudget budget c s).2.tokens.toNat := by
    simp only [TailBudget.bucket, hlast, if_neg hnow]
    omega
  refine ⟨congrArg BitVec.toNat hlast, hle, ?_, ?_⟩
  · rw [hlevel, htokens]
    by_cases hfresh : s.last = 0
    · -- the first use: the bucket was full
      simp only [TailBudget.bucket, if_pos hfresh]
      omega
    · have hin := TailBudget.refill_tokens budget c.now hfresh
      simp only [TailBudget.bucket, if_neg hfresh]
      omega
  · rw [hlevel, htokens]
    exact hcap

end Tail

section TailRuns

variable {budget : U64} {calls : Nat → TailCall}

/-- Each call leaves its time in the bucket. -/
theorem tailAt_last (hbudget : budget ≠ 0) (k : Nat) :
    (tailAt budget calls (k + 1)).last = (calls k).now :=
  (tailBudget_spec hbudget).1

/-- The bucket never holds more than the cap. -/
theorem tailAt_tokens_le (hbudget : budget ≠ 0) (k : Nat) :
    (tailAt budget calls k).tokens.toNat ≤ (tailBudgetCap budget).toNat := by
  cases k with
  | zero => exact Nat.zero_le _
  | succ k =>
    have hspec := (tailBudget_spec (c := calls k) (s := tailAt budget calls k) hbudget).2
    have hcap := TailBudget.refill_tokens_le budget (calls k).now (tailAt budget calls k)
    show (tailBudget budget (calls k) (tailAt budget calls k)).2.tokens.toNat ≤ _
    omega

/-- A thread's calls are uses of one bucket. -/
theorem tailAt_uses (hbudget : budget ≠ 0) (hpos : ∀ k, 0 < (calls k).now.toNat)
    (hmono : ∀ k, (calls k).now.toNat ≤ (calls (k + 1)).now.toNat) :
    Uses (tailRate budget) (fun k => (tailAt budget calls k).bucket budget)
      (fun k => ⟨(calls k).now.toNat, tailGranted budget (calls k) (tailAt budget calls k)⟩) := by
  intro k
  have hnow : (calls k).now ≠ 0 := by
    intro h
    have hk := hpos k
    rw [h] at hk
    exact absurd hk (by decide)
  apply tailStep_use hbudget hnow
  cases k with
  | zero => exact Nat.zero_le _
  | succ k =>
    rw [tailAt_last hbudget]
    exact hmono k

/-- Over a window of calls no more is granted than a full bucket and the inflow. -/
theorem tailAt_window (hbudget : budget ≠ 0) (hpos : ∀ k, 0 < (calls k).now.toNat)
    (hmono : ∀ k, (calls k).now.toNat ≤ (calls (k + 1)).now.toNat) {i j : Nat} (hij : i ≤ j) :
    ∑ k ∈ Finset.Icc i j, tailGranted budget (calls k) (tailAt budget calls k)
      ≤ (tailBudgetCap budget).toNat
        + budget.toNat * ((calls j).now.toNat - (calls i).now.toNat) / 1000000000 :=
  (tailAt_uses hbudget hpos hmono).window_le (tailRate_rate _) hij

/-- **The allowance for the spin tail enforces its rate.**  Over every window of a thread's calls
    no more is granted than a full bucket and the inflow of the window; refused and non-charging
    calls only refill; the bucket never overflows. -/
theorem tail_budget_rate (pct : Option U64) (budget : U64) (calls : Nat → TailCall)
    (hconf : budget = spinTailBudgetNs pct) (hbudget : budget ≠ 0)
    (hpos : ∀ k, 0 < (calls k).now.toNat)
    (hmono : ∀ k, (calls k).now.toNat ≤ (calls (k + 1)).now.toNat) :
    (∀ i j, i ≤ j → ∑ k ∈ Finset.Icc i j, tailGranted budget (calls k) (tailAt budget calls k)
      ≤ (tailBudgetCap budget).toNat
        + budget.toNat * ((calls j).now.toNat - (calls i).now.toNat) / 1000000000) ∧
    (∀ k, (tailBudget budget (calls k) (tailAt budget calls k)).1 = false ∨
        (calls k).charge = false →
      tailAt budget calls (k + 1) = (tailAt budget calls k).refill budget (calls k).now) ∧
    (∀ k, (tailAt budget calls k).tokens.toNat ≤ (tailBudgetCap budget).toNat) ∧
    (tailBudgetCap budget).toNat ≤ 10000000 := by
  refine ⟨fun _ _ hij => tailAt_window hbudget hpos hmono hij,
    fun _ h => tailBudget_uncharged hbudget h, tailAt_tokens_le hbudget, ?_⟩
  have hle := spinTailBudgetNs_le pct
  rw [tailBudgetCap_toNat, hconf]
  omega

/-- A thread that asks for 150 us every millisecond, under the default budget. -/
theorem tail_budget_rate_pacing :
    let calls : Nat → TailCall := fun k => ⟨if k = 0 then 5 else 1000005, 150000, true⟩
    tailGranted 150000000 (calls 0) (tailAt 150000000 calls 0)
        + tailGranted 150000000 (calls 1) (tailAt 150000000 calls 1) = 300000 ∧
      ∑ k ∈ Finset.Icc 0 1, tailGranted 150000000 (calls k) (tailAt 150000000 calls k)
        ≤ (tailBudgetCap 150000000).toNat + (150000000 : U64).toNat * 1000000 / 1000000000 :=
  ⟨by decide, (tail_budget_rate none 150000000 _ rfl (by decide)
    (fun k => by dsimp only; split <;> decide)
    (fun k => by cases k with | zero => decide | succ k => exact le_refl _)).1 0 1 (by decide)⟩

end TailRuns

/-! ### Adaptive spinning -/

/-- `spin_max_iters`; `iters` is what `NTSYNC_SPIN_ITERS` parses to, if anything. -/
def spinMaxIters (iters : Option U32) : U32 :=
  let n := iters.getD 0
  if n ≤ 100000 then n else 100000

/-- `SPIN_CREDIT` and `SPIN_PROBE`. -/
structure SpinAccount where
  credit : Int := 1
  probe : U32 := 0

/-- `(max / 8).clamp(8, 64)` -/
def probeIters (max : U32) : U32 :=
  if max / 8 < 8 then 8 else if 64 < max / 8 then 64 else max / 8

/-- `spin_budget` -/
def spinBudget (max : U32) (s : SpinAccount) : U32 × SpinAccount :=
  if max = 0 then (0, s)
  else if 0 < s.credit then (max, s)
  else
    let n := s.probe + 1
    (if n.toNat % 8 = 0 then probeIters max else 0, { s with probe := n })

/-- `spin_credit_reward` -/
def SpinAccount.reward (s : SpinAccount) : SpinAccount := { s with credit := min (s.credit + 1) 16 }

/-- `spin_credit_penalize` -/
def SpinAccount.penalize (s : SpinAccount) : SpinAccount :=
  { s with credit := max (s.credit - 2) (-8) }

/-- How a spin ends: it wins, it runs out of iterations, or the waiter is found detached. -/
inductive SpinOutcome where
  | win
  | exhausted
  | neutral
  deriving DecidableEq, Repr

/-- The spin phase of one blocked wait; the outcome counts only if it spins at all. -/
def blockedWait (max : U32) (s : SpinAccount) (o : SpinOutcome) : SpinAccount :=
  let (spin, s') := spinBudget max s
  if 0 < spin then
    match o with
    | .win => s'.reward
    | .exhausted => s'.penalize
    | .neutral => s'
  else s'

/-- The account before blocked wait `k` of a thread. -/
def spinAt (max : U32) (os : Nat → SpinOutcome) : Nat → SpinAccount
  | 0 => {}
  | k + 1 => blockedWait max (spinAt max os k) (os k)

/-- What blocked wait `k` may spin. -/
def spinGranted (max : U32) (os : Nat → SpinOutcome) (k : Nat) : U32 :=
  (spinBudget max (spinAt max os k)).1

/-- Blocked wait `k` is out of credit. -/
abbrev OutOfCredit (max : U32) (os : Nat → SpinOutcome) (k : Nat) : Prop :=
  (spinAt max os k).credit ≤ 0

/-- Blocked wait `k` is out of credit and spins all the same: a probe. -/
abbrev Probes (max : U32) (os : Nat → SpinOutcome) (k : Nat) : Prop :=
  OutOfCredit max os k ∧ spinGranted max os k ≠ 0

/-- What the configuration `max` promises about every history of blocked waits. -/
structure SpinRespects (max : U32) : Prop where
  credit_range : ∀ os k, -8 ≤ (spinAt max os k).credit ∧ (spinAt max os k).credit ≤ 16
  granted_le : ∀ os k, spinGranted max os k ≤ max
  in_credit : ∀ os k, 0 < (spinAt max os k).credit → spinGranted max os k = max
  /-- of the 8 out-of-credit waits of a window, one is a probe -/
  one_probe : max ≠ 0 → ∀ os a n, Nat.count (fun k => OutOfCredit max os (a + k)) n = 8 →
    Nat.count (fun k => Probes max os (a + k)) n = 1

section Spin

variable {max : U32} {os : Nat → SpinOutcome} {s : SpinAccount}

/-- With credit a wait may spin to the maximum. -/
theorem spinBudget_in (hin : 0 < s.credit) : spinBudget max s = (max, s) := by
  unfold spinBudget
  split
  · rename_i h
    rw [h]
  · rfl

/-- Without credit it spins on every eighth call. -/
theorem spinBudget_out (hmax : max ≠ 0) (hout : s.credit ≤ 0) :
    spinBudget max s = (if (s.probe + 1).toNat % 8 = 0 then probeIters max else 0,
      { s with probe := s.probe + 1 }) := by
  unfold spinBudget
  rw [if_neg hmax, if_neg (not_lt.mpr hout)]

@[simp] theorem spinBudget_credit : (spinBudget max s).2.credit = s.credit := by
  unfold spinBudget
  split
  · rfl
  · split <;> rfl

@[simp] theorem reward_probe : s.reward.probe = s.probe := rfl
@[simp] theorem penalize_probe : s.penalize.probe = s.probe := rfl

variable (max s) in
/-- The credit moves by a reward, a penalty, or not at all. -/
theorem blockedWait_credit (o : SpinOutcome) :
    (blockedWait max s o).credit = s.credit ∨
      (blockedWait max s o).credit = min (s.credit + 1) 16 ∨
      (blockedWait max s o).credit = Max.max (s.credit - 2) (-8) := by
  have hkeep : (spinBudget max s).2.credit = s.credit := spinBudget_credit
  unfold blockedWait
  dsimp only
  split
  · cases o with
    | win => exact .inr (.inl (by rw [← hkeep]; rfl))
    | exhausted => exact .inr (.inr (by rw [← hkeep]; rfl))
    | neutral => exact .inl hkeep
  · exact .inl hkeep

variable (max s) in
/-- The outcome of a spin does not move the probe counter. -/
theorem blockedWait_probe (o : SpinOutcome) :
    (blockedWait max s o).probe = (spinBudget max s).2.probe := by
  unfold blockedWait
  dsimp only
  split
  · cases o <;> rfl
  · rfl

/-- The credit stays between its bounds. -/
theorem spinAt_credit_range (k : Nat) :
    -8 ≤ (spinAt max os k).credit ∧ (spinAt max os k).credit ≤ 16 := by
  induction k with
  | zero => exact ⟨by show (-8 : Int) ≤ 1; decide, by show (1 : Int) ≤ 16; decide⟩
  | succ k ih =>
    have hmove := blockedWait_credit max (spinAt max os k) (os k)
    show -8 ≤ (blockedWait max (spinAt max os k) (os k)).credit ∧
      (blockedWait max (spinAt max os k) (os k)).credit ≤ 16
    omega

/-- A probe spins. -/
theorem probeIters_pos : probeIters max ≠ 0 := by
  unfold probeIters
  split
  · decide
  · split
    · decide
    · rename_i h _
      intro h0
      rw [h0] at h
      exact h (by decide)

/-- A probe stays below a bound that is 0 or at least the smallest probe. -/
theorem probeIters_le (h : 8 ≤ max.toNat) : probeIters max ≤ max := by
  show (probeIters max).toNat ≤ max.toNat
  have hdiv : (max / 8).toNat = max.toNat / 8 := rfl
  unfold probeIters
  split
  · exact h
  · split
    · rename_i h64
      have h64' : 64 < max.toNat / 8 := h64
      show 64 ≤ max.toNat
      omega
    · rw [hdiv]
      omega

/-- The budget respects the maximum if this is 0 or at least 8. -/
theorem spinBudget_le (h : max = 0 ∨ 8 ≤ max.toNat) : (spinBudget max s).1 ≤ max := by
  unfold spinBudget
  split
  · exact Nat.zero_le _
  · split
    · exact BitVec.le_refl _
    · rename_i hmax _
      dsimp only
      split
      · exact probeIters_le (h.resolve_left hmax)
      · exact Nat.zero_le _

variable (os) in
/-- The probe counter counts the out-of-credit waits (up to wrap-around, which 8 divides). -/
theorem probe_count (hmax : max ≠ 0) (k : Nat) :
    (spinAt max os k).probe.toNat % 8 = Nat.count (OutOfCredit max os) k % 8 := by
  induction k with
  | zero => rfl
  | succ k ih =>
    have hprobe := blockedWait_probe max (spinAt max os k) (os k)
    rw [Nat.count_succ]
    show (blockedWait max (spinAt max os k) (os k)).probe.toNat % 8 = _
    rw [hprobe]
    by_cases hout : OutOfCredit max os k
    · rw [spinBudget_out hmax hout, if_pos hout]
      show ((spinAt max os k).probe + 1).toNat % 8 = _
      have hone : (1 : U32).toNat = 1 := rfl
      rw [BitVec.toNat_add, hone]
      omega
    · rw [spinBudget_in (not_le.mp hout), if_neg hout]
      exact ih

/-- An out-of-credit wait is a probe at every eighth count. -/
theorem probes_iff (hmax : max ≠ 0) {k : Nat} (hout : OutOfCredit max os k) :
    Probes max os k ↔ (Nat.count (OutOfCredit max os) k + 1) % 8 = 0 := by
  have hcount := probe_count os hmax k
  have hone : (1 : U32).toNat = 1 := rfl
  have hnext : ((spinAt max os k).probe + 1).toNat % 8
      = (Nat.count (OutOfCredit max os) k + 1) % 8 := by
    rw [BitVec.toNat_add, hone]
    omega
  have hgrant : spinGranted max os k
      = if ((spinAt max os k).probe + 1).toNat % 8 = 0 then probeIters max else 0 :=
    congrArg Prod.fst (spinBudget_out hmax hout)
  rw [hnext] at hgrant
  unfold Probes
  rw [hgrant]
  constructor
  · rintro ⟨-, hne⟩
    by_contra h
    exact hne (if_neg h)
  · intro h
    refine ⟨hout, ?_⟩
    rw [if_pos h]
    exact probeIters_pos

variable (os) in
/-- Of the out-of-credit waits every eighth is a probe. -/
theorem hits_count (hmax : max ≠ 0) (k : Nat) :
    Nat.count (Probes max os) k = Nat.count (OutOfCredit max os) k / 8 := by
  induction k with
  | zero => rw [Nat.count_zero, Nat.count_zero, Nat.zero_div]
  | succ k ih =>
    rw [Nat.count_succ, Nat.count_succ, ih]
    by_cases hout : OutOfCredit max os k
    · rw [if_pos hout]
      by_cases hhit : Probes max os k
      · have h8 := (probes_iff hmax hout).mp hhit
        rw [if_pos hhit]
        omega
      · have h8 := mt (probes_iff hmax hout).mpr hhit
        rw [if_neg hhit]
        omega
    · have hno : ¬ Probes max os k := fun h => hout h.1
      rw [if_neg hout, if_neg hno, Nat.add_zero, Nat.add_zero]

/-- Of eight calls out of credit one probes. -/
theorem spinAt_one_probe (hmax : max ≠ 0) {a n : Nat}
    (h : Nat.count (fun k => OutOfCredit max os (a + k)) n = 8) :
    Nat.count (fun k => Probes max os (a + k)) n = 1 := by
  have hout := Nat.count_add (p := OutOfCredit max os) a n
  have hhit := Nat.count_add (p := Probes max os) a n
  have ha := hits_count os hmax a
  have hn := hits_count os hmax (a + n)
  omega

/-- A history in which no spin pays off: one spin in credit, then out of credit for good. -/
theorem losing_credit (hmax : max ≠ 0) {k : Nat} (hk : k < 8) :
    spinAt max (fun _ => .exhausted) (k + 1) = ⟨-1, BitVec.ofNat 32 k⟩ := by
  induction k with
  | zero =>
    have hpos : 0 < max := (BitVec.pos_iff_ne_zero max).mpr hmax
    show blockedWait max {} .exhausted = _
    unfold blockedWait
    rw [spinBudget_in (by decide)]
    exact if_pos hpos
  | succ k ih =>
    have hprobe : (BitVec.ofNat 32 k + 1).toNat = k + 1 := by
      rw [BitVec.toNat_add, BitVec.toNat_ofNat]
      show (k % 2 ^ 32 + 1) % 2 ^ 32 = k + 1
      omega
    have hno : ¬ (BitVec.ofNat 32 k + 1).toNat % 8 = 0 := by
      rw [hprobe]
      omega
    rw [spinAt, ih (by omega)]
    unfold blockedWait
    rw [spinBudget_out hmax (show (-1 : Int) ≤ 0 by decide)]
    dsimp only
    rw [if_neg hno, if_neg (by decide), BitVec.ofNat_add]
    rfl

/-- After seven refusals the losing thread probes, whatever the configured bound. -/
theorem losing_probe (hmax : max ≠ 0) :
    spinGranted max (fun _ => .exhausted) 8 = probeIters max := by
  unfold spinGranted
  rw [losing_credit hmax (k := 7) (by decide), spinBudget_out hmax (by decide)]
  rfl

end Spin

/-- **Adaptive spinning respects its configuration iff the bound is 0 or at least the smallest
    probe.** -/
theorem spin_respects_iff (iters : Option U32) :
    SpinRespects (spinMaxIters iters) ↔ spinMaxIters iters = 0 ∨ 8 ≤ (spinMaxIters iters).toNat := by
  generalize spinMaxIters iters = max
  constructor
  · intro h
    by_contra hno
    obtain ⟨hmax, hsmall⟩ := not_or.mp hno
    have hle := h.granted_le (fun _ => .exhausted) 8
    rw [losing_probe hmax] at hle
    have hprobe : (8 : U32).toNat ≤ (probeIters max).toNat := by
      unfold probeIters
      split
      · exact le_refl _
      · split
        · decide
        · rename_i h8 _
          exact Nat.le_of_not_lt h8
    exact hsmall (le_trans hprobe hle)
  · intro h
    exact {
      credit_range := fun _ => spinAt_credit_range
      granted_le := fun _ _ => spinBudget_le h
      in_credit := fun _ _ hin => congrArg Prod.fst (spinBudget_in hin)
      one_probe := fun hmax _ _ _ => spinAt_one_probe hmax }

/-- With `NTSYNC_SPIN_ITERS=5` a thread that keeps losing probes with 8 iterations. -/
theorem probe_exceeds_spin_iters :
    ¬ SpinRespects (spinMaxIters (some 5)) ∧
      spinGranted (spinMaxIters (some 5)) (fun _ => .exhausted) 8 = 8 := by
  have hgrant : spinGranted (spinMaxIters (some 5)) (fun _ => .exhausted) 8 = 8 := by decide
  refine ⟨fun h => ?_, hgrant⟩
  have hle := h.granted_le (fun _ => .exhausted) 8
  rw [hgrant] at hle
  exact absurd hle (by decide)

end Ntsync
