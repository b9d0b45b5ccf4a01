import Mathlib
import Ntsync.Abi

namespace Ntsync

open Words

/-!
# Time conversions, and where they wrap

The unit conversions between an absolute timeout and the kernel: `timeout_to_duration` of the C layer,
the time that is left of a wait, the `timespec` that `futex_wait` passes, and the sweep interval.

* `Timespec w` — with a `time_t` and a `long` of `w` bits: 64, and 32 on armv7; `Timespec.nanos` is
  what it denotes;
* `now_toNat`, `timespec_nanos` — the two conversions through casts, with what they wrap to;
* `ConvertsExactly` — what the conversions are for, `Convertible` — the inputs they are good for;
* `converts_iff` — one iff the other.
-/

def nsPerSec : Nat := 1000000000

/-- `std::time::Duration`. -/
structure Duration where
  secs : U64
  nanos : Nat
  nanos_lt : nanos < nsPerSec

namespace Duration

/-- The nanoseconds of a duration. -/
def total (d : Duration) : Nat := d.secs.toNat * nsPerSec + d.nanos

def ofTotal (n : Nat) : Duration where
  secs := BitVec.ofNat 64 (n / nsPerSec)
  nanos := n % nsPerSec
  nanos_lt := Nat.mod_lt n (by decide)

/-- `Duration::from_nanos`. -/
def fromNanos (n : U64) : Duration := .ofTotal n.toNat

/-- A number of nanoseconds that fits is read back. -/
theorem total_ofTotal {n : Nat} (h : n < 2 ^ 64) : (ofTotal n).total = n := by
  have hsecs : n / nsPerSec < 2 ^ 64 := lt_of_le_of_lt (Nat.div_le_self ..) h
  rw [total, ofTotal, BitVec.toNat_ofNat, Nat.mod_eq_of_lt hsecs]
  exact Nat.div_add_mod' n nsPerSec

/-- So is every 64-bit number. -/
theorem total_fromNanos (n : U64) : (fromNanos n).total = n.toNat := total_ofTotal n.isLt

end Duration

/-- `struct timespec` with a `time_t` and a `long` of `w` bits. -/
structure Timespec (w : Nat) where
  tvSec : BitVec w
  tvNsec : BitVec w

/-- The nanoseconds it denotes. -/
def Timespec.nanos {w : Nat} (ts : Timespec w) : Int := ts.tvSec.toInt * nsPerSec + ts.tvNsec.toInt

/-- What `clock_gettime` gives: the seconds may be negative, the nanoseconds are in range. -/
structure Reading (w : Nat) extends Timespec w where
  nsec_nonneg : 0 ≤ tvNsec.toInt
  nsec_lt : tvNsec.toInt < nsPerSec

/-- The clock in `timeout_to_duration`: both casts extend the sign, and the product and the sum wrap
    (a debug build would panic). -/
def Timespec.now {w : Nat} (ts : Timespec w) : U64 :=
  ts.tvSec.signExtend 64 * 1000000000 + ts.tvNsec.signExtend 64

def waitRealtime : U32 := 0x1

/-- The clock that the flags of a wait choose. -/
def waitClock {w : Nat} (flags : U32) (realtime monotonic : Reading w) : Reading w :=
  if flags &&& waitRealtime ≠ 0 then realtime else monotonic

/-- `timeout_to_duration`, on the two clocks. -/
def Duration.ofTimeout {w : Nat} (timeout : U64) (flags : U32) (realtime monotonic : Reading w) :
    Option Duration :=
  if timeout.toNat = maxWord then none
  else some (.fromNanos (satSub timeout (waitClock flags realtime monotonic).now))

/-- The time left of a wait that began at `start`: `None` when its deadline has passed. -/
def Duration.remaining (start : Nat) (d : Duration) (now : Nat) : Option Duration :=
  let dl := start + d.total
  if dl ≤ now then none else some (.ofTotal (dl - now))

/-- The `timespec` that `futex_wait` passes: both fields are cast to `w` bits. -/
def Duration.timespec (w : Nat) (d : Duration) : Timespec w where
  tvSec := d.secs.setWidth w
  tvNsec := BitVec.ofNat w d.nanos

/-- `sweep_interval_ns`, for the value of `NTSYNC_SWEEP_INTERVAL_SEC` if it can be read.  The
    product wraps. -/
def sweepIntervalNs (secs : Option U64) : U64 := secs.getD 30 * 1000000000

section Conversions

variable {w : Nat}

/-- The clock value is what the reading denotes, modulo 2^64. -/
theorem Timespec.now_toNat (ts : Timespec w) : (ts.now.toNat : Int) = ts.nanos % 2 ^ 64 := by
  have hnow : ts.now = BitVec.ofInt 64 ts.nanos := by
    rw [Timespec.nanos, BitVec.ofInt_add, BitVec.ofInt_mul]
    rfl
  rw [hnow, BitVec.toNat_ofInt]
  exact Int.toNat_of_nonneg (Int.emod_nonneg _ (by decide))

/-- `tv_nsec` has room for the nanoseconds, also with 32 bits. -/
theorem nanos_toInt {n : Nat} (hw : w = 32 ∨ w = 64) (hn : n < nsPerSec) :
    (BitVec.ofNat w n).toInt = n := by
  unfold nsPerSec at hn
  rw [BitVec.toInt_ofNat', Int.bmod]
  rcases hw with rfl | rfl <;> omega

/-- The `timespec` is exact iff `tv_sec` has room for the seconds. -/
theorem Duration.timespec_nanos {d : Duration} (hw : w = 32 ∨ w = 64)
    (hd : d.secs.toNat < 2 ^ 63) :
    (d.timespec w).nanos = d.total ↔ w = 64 ∨ d.secs.toNat < 2 ^ 31 := by
  have hnanos := d.nanos_lt
  rw [Timespec.nanos, Duration.timespec, nanos_toInt hw hnanos, BitVec.toInt_setWidth, Int.bmod,
    Duration.total]
  unfold nsPerSec
  rcases hw with rfl | rfl <;> omega

/-- The seconds of a duration that fits. -/
theorem Duration.secs_of_lt {n : Nat} (hn : n < 2 ^ 64) :
    (Duration.ofTotal n).secs.toNat = n / nsPerSec := by
  have hsecs : n / nsPerSec < 2 ^ 64 := lt_of_le_of_lt (Nat.div_le_self ..) hn
  rw [Duration.ofTotal, BitVec.toNat_ofNat, Nat.mod_eq_of_lt hsecs]

end Conversions

/-! ### What the conversions are for -/

/-- The conversions of the timeout `timeout` and of the sweep interval `secs` are exact. -/
structure ConvertsExactly {w : Nat} (timeout : U64) (flags : U32) (realtime monotonic : Reading w)
    (secs : U64) : Prop where
  /-- the duration is `max(timeout - now, 0)` nanoseconds -/
  duration : ∃ d, Duration.ofTimeout timeout flags realtime monotonic = some d ∧
    (d.total : Int) = max (timeout.toNat - (waitClock flags realtime monotonic).nanos) 0
  /-- the kernel is asked for what is left of it, at whatever time -/
  timespec : ∀ d start now left, Duration.ofTimeout timeout flags realtime monotonic = some d →
    start ≤ now → Duration.remaining start d now = some left →
    (left.timespec w).nanos = start + d.total - now ∧ 0 ≤ (left.timespec w).tvSec.toInt
  /-- the interval is exact or saturated -/
  interval : (sweepIntervalNs (some secs)).toNat = secs.toNat * nsPerSec ∨
    (sweepIntervalNs (some secs)).toNat = maxWord
  /-- only 0 disables -/
  disabled : sweepIntervalNs (some secs) = 0 ↔ secs = 0
  monotone : ∀ less, less ≤ secs → sweepIntervalNs (some less) ≤ sweepIntervalNs (some secs)

/-- The clock fits 64 bits of nanoseconds, or what it wraps to is past the timeout as well; the
    remaining time fits `tv_sec`; and so does the interval 64 bits. -/
structure Convertible {w : Nat} (timeout : U64) (clock : Reading w) (secs : U64) : Prop where
  clock_nonneg : 0 ≤ clock.nanos
  clock_fits : clock.nanos < 2 ^ 64 ∨ timeout.toNat ≤ clock.nanos % 2 ^ 64
  time_fits : w = 64 ∨ timeout.toNat - clock.nanos < 2 ^ 31 * nsPerSec
  secs_fit : secs.toNat * nsPerSec < 2 ^ 64

section Exact

variable {w : Nat}

/-- The configured interval in nanoseconds, as the multiplication wraps. -/
theorem sweepIntervalNs_toNat (secs : U64) :
    (sweepIntervalNs (some secs)).toNat = secs.toNat * nsPerSec % 2 ^ 64 := by
  show (secs * 1000000000).toNat = _
  rw [BitVec.toNat_mul]
  rfl

/-- The configured interval, where the multiplication fits. -/
theorem sweepIntervalNs_of_fit {secs : U64} (h : secs.toNat * nsPerSec < 2 ^ 64) :
    (sweepIntervalNs (some secs)).toNat = secs.toNat * nsPerSec := by
  rw [sweepIntervalNs_toNat, Nat.mod_eq_of_lt h]

/-- A wrapped product is even, hence not the saturated one. -/
theorem interval_exact_iff (secs : U64) :
    ((sweepIntervalNs (some secs)).toNat = secs.toNat * nsPerSec ∨
      (sweepIntervalNs (some secs)).toNat = maxWord) ↔ secs.toNat * nsPerSec < 2 ^ 64 := by
  rw [sweepIntervalNs_toNat]
  unfold nsPerSec maxWord
  omega

/-- The duration of a finite timeout is what is left of it on its clock. -/
theorem ofTimeout_total {timeout : U64} (ht : timeout.toNat ≠ maxWord) (flags : U32)
    (realtime monotonic : Reading w) :
    ∃ d, Duration.ofTimeout timeout flags realtime monotonic = some d ∧ d.total < 2 ^ 64 ∧
      (d.total : Int) =
        max (timeout.toNat - (waitClock flags realtime monotonic).nanos % 2 ^ 64) 0 := by
  refine ⟨_, if_neg ht, ?_, ?_⟩
  · rw [Duration.total_fromNanos]
    exact BitVec.isLt _
  · rw [Duration.total_fromNanos, satSub_toNat, ← Timespec.now_toNat]
    omega

/-- What is left of a wait on a `timespec`: exact iff the whole duration has room in `tv_sec`. -/
theorem left_exact (hw : w = 32 ∨ w = 64) {d left : Duration} {start now : Nat}
    (hd : d.total < 2 ^ 64) (hroom : w = 64 ∨ d.total < 2 ^ 31 * nsPerSec) (hnow : start ≤ now)
    (hleft : Duration.remaining start d now = some left) :
    (left.timespec w).nanos = start + d.total - now ∧ 0 ≤ (left.timespec w).tvSec.toInt := by
  obtain ⟨hlt, rfl⟩ : ¬ start + d.total ≤ now ∧ Duration.ofTotal (start + d.total - now) = left := by
    simpa [Duration.remaining] using hleft
  have hle : start + d.total - now < 2 ^ 64 := by omega
  have hsecs := Duration.secs_of_lt hle
  unfold nsPerSec at hsecs hroom
  refine ⟨?_, ?_⟩
  · rw [(Duration.timespec_nanos hw (by omega)).mpr (by omega), Duration.total_ofTotal hle]
    omega
  · rw [Duration.timespec, BitVec.toInt_setWidth, Int.bmod]
    rcases hw with rfl | rfl <;> omega

/-- A `timespec` that is exact holds its seconds. -/
theorem fits_of_exact (hw : w = 32 ∨ w = 64) {n : Nat} (hn : n < 2 ^ 64)
    (h : ((Duration.ofTotal n).timespec w).nanos = n) : w = 64 ∨ n < 2 ^ 31 * nsPerSec := by
  have hsecs := Duration.secs_of_lt hn
  have htotal := Duration.total_ofTotal hn
  unfold nsPerSec at hsecs ⊢
  have hfits := (Duration.timespec_nanos hw (by omega)).mp (h.trans (by rw [htotal]))
  omega

/-- **The conversions are exact iff the inputs fit.** -/
theorem converts_iff (hw : w = 32 ∨ w = 64) {timeout : U64} (ht : timeout.toNat ≠ maxWord)
    (flags : U32) (realtime monotonic : Reading w) (secs : U64) :
    ConvertsExactly timeout flags realtime monotonic secs ↔
      Convertible timeout (waitClock flags realtime monotonic) secs := by
  obtain ⟨d, hd, hlt, htotal⟩ := ofTimeout_total ht flags realtime monotonic
  have hmax := timeout.isLt
  constructor
  · intro h
    obtain ⟨d', hd', hexact⟩ := h.duration
    obtain rfl : d = d' := Option.some.inj (hd.symm.trans hd')
    have hpos : 0 ≤ (waitClock flags realtime monotonic).nanos := by
      omega
    refine ⟨hpos, by omega, ?_, (interval_exact_iff secs).mp h.interval⟩
    by_contra hno
    rw [not_or] at hno
    have hlarge : 2 ^ 31 * nsPerSec ≤ d.total := by
      unfold nsPerSec at hno ⊢
      omega
    -- ask for the timespec right at the start
    have hleft : Duration.remaining 0 d 0 = some (.ofTotal d.total) := by
      unfold Duration.remaining
      rw [if_neg (by unfold nsPerSec at hlarge; omega), Nat.zero_add, Nat.sub_zero]
    have hnanos := (h.timespec d 0 0 _ hd (le_refl 0) hleft).1
    exact absurd (fits_of_exact hw hlt (by simpa using hnanos)) (by omega)
  · intro h
    have hsame : (d.total : Int) =
        max (timeout.toNat - (waitClock flags realtime monotonic).nanos) 0 := by
      rcases h.clock_fits with hfit | hpast
      · rw [htotal, Int.emod_eq_of_lt h.clock_nonneg hfit]
      · have := h.clock_nonneg
        omega
    have hroom : w = 64 ∨ d.total < 2 ^ 31 * nsPerSec := by
      have hfit := h.time_fits
      unfold nsPerSec at hfit ⊢
      omega
    refine ⟨⟨d, hd, hsame⟩, ?_, (interval_exact_iff secs).mpr h.secs_fit, ?_, ?_⟩
    · intro d' start now left hd' hnow hleft
      obtain rfl : d = d' := Option.some.inj (hd.symm.trans hd')
      exact left_exact hw hlt hroom hnow hleft
    · constructor
      · intro hzero
        have hns : secs.toNat * nsPerSec = 0 :=
          (sweepIntervalNs_of_fit h.secs_fit).symm.trans (congrArg BitVec.toNat hzero)
        exact BitVec.eq_of_toNat_eq ((Nat.mul_eq_zero.mp hns).resolve_right (by decide))
      · rintro rfl
        rfl
    · intro less hless
      have hle : less.toNat * nsPerSec ≤ secs.toNat * nsPerSec :=
        Nat.mul_le_mul_right _ (BitVec.le_def.mp hless)
      rw [BitVec.le_def, sweepIntervalNs_of_fit h.secs_fit,
        sweepIntervalNs_of_fit (lt_of_le_of_lt hle h.secs_fit)]
      exact hle

end Exact

/-- 20 ms on armv7, with the default sweep interval. -/
theorem converts_frame : ConvertsExactly (w := 32) 5020000000 0 ⟨⟨1700000000, 0⟩, by decide, by decide⟩
    ⟨⟨5, 0⟩, by decide, by decide⟩ 30 :=
  (converts_iff (.inl rfl) (by decide) 0 _ _ 30).mpr
    ⟨by decide, .inl (by decide), .inr (by decide), by decide⟩

/-- An interval of 2^55 seconds comes out as 0, which disables the sweeps; and on armv7 a wait of
    2^31 seconds is passed to the kernel as a negative time. -/
theorem conversions_wrap :
    ¬ ConvertsExactly (w := 64) 5020000000 0 ⟨⟨1700000000, 0⟩, by decide, by decide⟩
      ⟨⟨5, 0⟩, by decide, by decide⟩ 36028797018963968 ∧
    ¬ ConvertsExactly (w := 32) 2147483653000000000 0 ⟨⟨1700000000, 0⟩, by decide, by decide⟩
      ⟨⟨5, 0⟩, by decide, by decide⟩ 30 := by
  constructor
  · intro h
    exact absurd (h.disabled.mp (by decide +kernel)) (by decide +kernel)
  · intro h
    obtain ⟨d, hd, htotal⟩ := h.duration
    have hd₀ : d.total = 2147483648000000000 := Int.ofNat_inj.mp (htotal.trans (by decide +kernel))
    have hleft : Duration.remaining 0 d 0 = some (.ofTotal 2147483648000000000) := by
      unfold Duration.remaining
      rw [hd₀]
      rfl
    exact absurd (h.timespec d 0 0 _ hd (le_refl 0) hleft).2 (by decide +kernel)

/-! ### The C layer -/

/-- What the model of the C layer keeps of a timeout. -/
theorem timeoutToDuration_eq {w : Nat} (timeout : U64) (flags : U32) (realtime monotonic : Reading w) :
    timeoutToDuration timeout (waitClock flags realtime monotonic).now =
      match Duration.ofTimeout timeout flags realtime monotonic with
      | none => .never
      | some d => if d.total = 0 then .zero else .after := by
  unfold timeoutToDuration Duration.ofTimeout
  split
  · rfl
  · dsimp only
    rw [Duration.total_fromNanos, satSub_toNat]

end Ntsync
