import Mathlib
import Ntsync.Abi

namespace Ntsync

open Lts

/-!
# The region lock

`lock_guard` and the drop of its `RegionGuard` as a system of their own: any number of threads take the
robust mutex of the header, each with its signal mask, while `SIGUSR1` stops a thread that does not block
it and any thread may die at any step.  The mutex behaves as POSIX says: locking one whose owner died
answers `EOWNERDEAD`, and one that is then unlocked without `pthread_mutex_consistent` can never be taken
again.

* `guardStep` — the step function; what is done under the lock is one step of it;
* `GuardInv` — who owns the mutex, and the mask of a thread at every step of its call;
* `guard_holds` — `lock_guard` never fails, and its holder is never stopped by `SIGUSR1`;
* `guard_restores` — every call leaves the mask as it was and delivers the signal it has put off.
-/

/-! ### The system -/

def sigusr1 : Nat := 10
def enotrecoverable : Int := 131

/-- A `sigset_t`. -/
abbrev Sigset := Finset Nat

/-- Where a thread is between its call of `lock_guard` and the end of the drop.  `oldMask` is there
    if its process defers `SIGUSR1`. -/
inductive GuardPc where
  | idle
  /-- before `pthread_sigmask(SIG_BLOCK)` -/
  | mask
  /-- before `pthread_mutex_lock`, or `pthread_mutex_timedlock` in a debug run -/
  | lock (oldMask : Option Sigset)
  /-- before `pthread_mutex_consistent`, after `EOWNERDEAD` -/
  | consistent (oldMask : Option Sigset)
  /-- the guard exists -/
  | held (oldMask : Option Sigset)
  /-- in the drop, before `pthread_mutex_unlock` -/
  | unlock (oldMask : Option Sigset)
  /-- before `pthread_sigmask(SIG_SETMASK)`, with the result of the call -/
  | restore (oldMask : Sigset) (r : Except Int Unit)
  | done (r : Except Int Unit)
  | dead

namespace GuardPc

/-- Between `lock_guard` and the end of the drop. -/
def inCall : GuardPc → Bool
  | .idle | .done _ | .dead => false
  | _ => true

/-- Alive, and not in a call. -/
def outside : GuardPc → Bool
  | .idle | .done _ => true
  | _ => false

/-- Owns the mutex. -/
def owns : GuardPc → Bool
  | .consistent _ | .held _ | .unlock _ => true
  | _ => false

/-- Holds the guard, or is in its drop. -/
def guarded : GuardPc → Bool
  | .held _ | .unlock _ => true
  | _ => false

/-- The errno of a call that has failed. -/
def error? : GuardPc → Option Int
  | .restore _ (.error e) | .done (.error e) => some e
  | _ => none

end GuardPc

/-- The mutex, and each thread with its mask, whether a `SIGUSR1` is pending for it, and whether the
    handler of one has stopped it. -/
structure GuardSys (T : Type) where
  owner : Option T
  isConsistent : Bool
  recoverable : Bool
  mask : T → Sigset
  pending : T → Bool
  stopped : T → Bool
  pcs : T → GuardPc

inductive GuardAct (T : Type) where
  | call (t : T)
  /-- the next step of thread `t`; the lock may answer `EINTR` or `ETIMEDOUT` instead -/
  | tick (t : T) (err : Option Int)
  /-- `SIGUSR1` is sent to thread `t` -/
  | signal (t : T)
  /-- the handler that stopped thread `t` returns -/
  | resume (t : T)
  | die (t : T)

variable {T : Type} [DecidableEq T]

namespace GuardSys

def init (mask : T → Sigset) : GuardSys T where
  owner := none
  isConsistent := true
  recoverable := true
  mask := mask
  pending := fun _ => false
  stopped := fun _ => false
  pcs := fun _ => .idle

def goto (s : GuardSys T) (t : T) (pc : GuardPc) : GuardSys T :=
  { s with pcs := Function.update s.pcs t pc }

/-- A pending signal that is not blocked is delivered. -/
def deliver (s : GuardSys T) (t : T) : GuardSys T :=
  if s.pending t = true ∧ sigusr1 ∉ s.mask t then
    { s with
      stopped := Function.update s.stopped t true
      pending := Function.update s.pending t false }
  else s

/-- `pthread_sigmask` -/
def setMask (s : GuardSys T) (t : T) (m : Sigset) : GuardSys T :=
  { s with mask := Function.update s.mask t m }.deliver t

/-- `SIGUSR1` is blocked while its handler runs. -/
def signal (s : GuardSys T) (t : T) : GuardSys T :=
  if s.stopped t = true ∨ sigusr1 ∈ s.mask t then
    { s with pending := Function.update s.pending t true }
  else { s with stopped := Function.update s.stopped t true }

/-- What `pthread_mutex_lock` returns to thread `t`; `none`: it is still waiting. -/
def mutexLock (s : GuardSys T) (t : T) (err : Option Int) : Option (Int × GuardSys T) :=
  match err with
  | some e => if e = eintr ∨ e = etimedout then some (e, s) else none
  | none =>
    if s.recoverable = true then
      match s.owner with
      | some _ => none
      | none => some (if s.isConsistent = true then 0 else eownerdead, { s with owner := some t })
    else some (enotrecoverable, s)

/-- The kernel marks the mutex of a dead owner. -/
def kill (s : GuardSys T) (t : T) : GuardSys T :=
  { s with
    owner := if s.owner = some t then none else s.owner
    isConsistent := s.isConsistent && decide (s.owner ≠ some t) }.goto t .dead

end GuardSys

/-- The end of a failed `lock_guard`. -/
def afterFail (oldMask : Option Sigset) (e : Int) : GuardPc :=
  match oldMask with
  | some m => .restore m (.error e)
  | none => .done (.error e)

/-- The loop of `lock_guard`, after the lock has returned `ret`. -/
def afterLock (oldMask : Option Sigset) (ret : Int) : GuardPc :=
  if ret = 0 then .held oldMask
  else if ret = eownerdead then .consistent oldMask
  else if ret = etimedout then .lock oldMask
  else if ret ≠ eintr then afterFail oldMask (-ret)
  else .lock oldMask

/-- The end of the drop. -/
def afterUnlock (oldMask : Option Sigset) : GuardPc :=
  match oldMask with
  | some m => .restore m (.ok ())
  | none => .done (.ok ())

/-- One step of a thread inside its call. -/
def guardTick (s : GuardSys T) (t : T) (err : Option Int) : Option (GuardSys T) :=
  match s.pcs t with
  | .idle | .done _ | .dead => none
  | .mask => some ((s.setMask t (insert sigusr1 (s.mask t))).goto t (.lock (some (s.mask t))))
  | .lock oldMask =>
    (s.mutexLock t err).map fun x => x.2.goto t (afterLock oldMask x.1)
  | .consistent oldMask => some ({ s with isConsistent := true }.goto t (.held oldMask))
  | .held oldMask => some (s.goto t (.unlock oldMask))
  | .unlock oldMask =>
    some ({ s with owner := none, recoverable := s.recoverable && s.isConsistent }.goto t
      (afterUnlock oldMask))
  | .restore m r => some ((s.goto t (.done r)).setMask t m)

/-- **The step function.** `defers t` says whether the process of thread `t` defers `SIGUSR1`; the
    label of a step is its action. -/
def guardStep (defers : T → Bool) (s : GuardSys T) : GuardAct T → Option (GuardSys T × GuardAct T)
  | .call t =>
    if s.stopped t = true then none
    else match s.pcs t with
      | .idle | .done _ =>
        some (s.goto t (if defers t = true then .mask else .lock none), .call t)
      | _ => none
  | .tick t err =>
    if s.stopped t = true then none
    else (guardTick s t err).map (·, .tick t err)
  | .signal t => some (s.signal t, .signal t)
  | .resume t =>
    if s.stopped t = true then
      some ({ s with stopped := Function.update s.stopped t false }.deliver t, .resume t)
    else none
  | .die t => some (s.kill t, .die t)

/-! ### What a step can do -/

namespace GuardSys

variable {s : GuardSys T} {t u : T} {m : Sigset} {pc : GuardPc}

@[simp] theorem goto_pcs : (s.goto t pc).pcs u = if u = t then pc else s.pcs u :=
  Function.update_apply ..

@[simp] theorem deliver_pcs : (s.deliver t).pcs = s.pcs := by unfold deliver; split <;> rfl

@[simp] theorem deliver_mask : (s.deliver t).mask = s.mask := by unfold deliver; split <;> rfl

@[simp] theorem deliver_owner : (s.deliver t).owner = s.owner := by unfold deliver; split <;> rfl

@[simp] theorem deliver_isConsistent : (s.deliver t).isConsistent = s.isConsistent := by
  unfold deliver; split <;> rfl

@[simp] theorem deliver_recoverable : (s.deliver t).recoverable = s.recoverable := by
  unfold deliver; split <;> rfl

/-- A delivery stops its own thread only. -/
theorem deliver_stopped_of_ne (h : u ≠ t) : (s.deliver t).stopped u = s.stopped u := by
  unfold deliver
  split
  · exact Function.update_of_ne h _ _
  · rfl

/-- No signal gets through while it is blocked. -/
theorem deliver_blocked (h : sigusr1 ∈ s.mask t) : s.deliver t = s :=
  if_neg fun hd => hd.2 h

@[simp] theorem signal_pcs : (s.signal t).pcs = s.pcs := by unfold signal; split <;> rfl

@[simp] theorem signal_mask : (s.signal t).mask = s.mask := by unfold signal; split <;> rfl

@[simp] theorem signal_owner : (s.signal t).owner = s.owner := by unfold signal; split <;> rfl

@[simp] theorem signal_isConsistent : (s.signal t).isConsistent = s.isConsistent := by
  unfold signal; split <;> rfl

@[simp] theorem signal_recoverable : (s.signal t).recoverable = s.recoverable := by
  unfold signal; split <;> rfl

/-- A signal stops only the thread it is sent to, and only if that thread does not block it. -/
theorem signal_stopped (h : u = t → sigusr1 ∈ s.mask t) : (s.signal t).stopped u = s.stopped u := by
  unfold signal
  split
  · rfl
  · rename_i hn
    exact Function.update_of_ne (fun hu => hn (.inr (h hu))) _ _

end GuardSys

/-- The answers of a robust mutex. -/
inductive Answer (s : GuardSys T) (t : T) : Int → GuardSys T → Prop
  | eintr : Answer s t eintr s
  | etimedout : Answer s t etimedout s
  | notRecoverable (hr : s.recoverable = false) : Answer s t enotrecoverable s
  | acquired (ho : s.owner = none) (hc : s.isConsistent = true) :
      Answer s t 0 { s with owner := some t }
  | ownerDied (ho : s.owner = none) (hc : s.isConsistent = false) :
      Answer s t eownerdead { s with owner := some t }

/-- A step of the thread `t` that stands at the given point of its call. -/
inductive GuardGo (s : GuardSys T) (t : T) : GuardPc → GuardSys T → Prop
  | mask : GuardGo s t .mask
      ((s.setMask t (insert sigusr1 (s.mask t))).goto t (.lock (some (s.mask t))))
  | lock {o : Option Sigset} {ret : Int} {s₁ : GuardSys T} (ha : Answer s t ret s₁) :
      GuardGo s t (.lock o) (s₁.goto t (afterLock o ret))
  | consistent {o : Option Sigset} :
      GuardGo s t (.consistent o) ({ s with isConsistent := true }.goto t (.held o))
  | held {o : Option Sigset} : GuardGo s t (.held o) (s.goto t (.unlock o))
  | unlock {o : Option Sigset} : GuardGo s t (.unlock o)
      ({ s with owner := none, recoverable := s.recoverable && s.isConsistent }.goto t
        (afterUnlock o))
  | restore {m : Sigset} {r : Except Int Unit} :
      GuardGo s t (.restore m r) ((s.goto t (.done r)).setMask t m)

inductive GuardStep (defers : T → Bool) (s : GuardSys T) : GuardAct T → GuardSys T → Prop
  | call {t : T} (hs : s.stopped t = false) (hpc : s.pcs t = .idle ∨ ∃ r, s.pcs t = .done r) :
      GuardStep defers s (.call t) (s.goto t (if defers t = true then .mask else .lock none))
  | tick {t : T} {err : Option Int} {s' : GuardSys T} (hs : s.stopped t = false)
      (hg : GuardGo s t (s.pcs t) s') : GuardStep defers s (.tick t err) s'
  | signal {t : T} : GuardStep defers s (.signal t) (s.signal t)
  | resume {t : T} (hs : s.stopped t = true) : GuardStep defers s (.resume t)
      ({ s with stopped := Function.update s.stopped t false }.deliver t)
  | die {t : T} : GuardStep defers s (.die t) (s.kill t)

variable {defers : T → Bool} {mask₀ : T → Sigset} {s s' : GuardSys T} {t u : T}

omit [DecidableEq T] in
/-- What `pthread_mutex_lock` may answer. -/
theorem mutexLock_inv {err : Option Int} {ret : Int} (h : s.mutexLock t err = some (ret, s')) :
    Answer s t ret s' := by
  unfold GuardSys.mutexLock at h
  cases err with
  | some e =>
    simp only at h
    split at h <;> cases h
    rename_i he
    rcases he with rfl | rfl
    · exact .eintr
    · exact .etimedout
  | none =>
    simp only at h
    split at h
    · cases ho : s.owner with
      | some u => rw [ho] at h; cases h
      | none =>
        simp only [ho] at h
        cases h
        split
        · rename_i hc
          exact .acquired ho hc
        · rename_i hc
          exact .ownerDied ho (Bool.eq_false_iff.mpr hc)
    · rename_i hr
      cases h
      exact .notRecoverable (Bool.eq_false_iff.mpr hr)

/-- What a step of a guarded call is. -/
theorem guardTick_inv {err : Option Int} (h : guardTick s t err = some s') :
    GuardGo s t (s.pcs t) s' := by
  unfold guardTick at h
  split at h
  · cases h
  · cases h
  · cases h
  · rename_i hpc
    cases h
    rw [hpc]
    exact .mask
  · rename_i o hpc
    rw [hpc]
    obtain ⟨x, hl, he⟩ := Option.map_eq_some_iff.mp h
    cases he
    exact .lock (mutexLock_inv hl)
  all_goals
    rename_i hpc
    cases h
    rw [hpc]
  · exact .consistent
  · exact .held
  · exact .unlock
  · exact .restore

/-- **What a step of the system is.** -/
theorem guardStep_inv {a l : GuardAct T} (h : guardStep defers s a = some (s', l)) :
    l = a ∧ GuardStep defers s a s' := by
  cases a with
  | call t =>
    simp only [guardStep] at h
    split at h
    · cases h
    · rename_i hs
      have hs := Bool.eq_false_iff.mpr hs
      split at h <;> cases h <;> rename_i hpc
      · exact ⟨rfl, .call hs (.inl hpc)⟩
      · exact ⟨rfl, .call hs (.inr ⟨_, hpc⟩)⟩
  | tick t err =>
    simp only [guardStep] at h
    split at h
    · cases h
    · rename_i hs
      obtain ⟨s₁, ht, he⟩ := Option.map_eq_some_iff.mp h
      cases he
      exact ⟨rfl, .tick (Bool.eq_false_iff.mpr hs) (guardTick_inv ht)⟩
  | signal t => cases h; exact ⟨rfl, .signal⟩
  | resume t =>
    simp only [guardStep] at h
    split at h <;> cases h
    rename_i hs
    exact ⟨rfl, .resume hs⟩
  | die t => cases h; exact ⟨rfl, .die⟩

/-! ### Who owns the mutex -/

/-- The mutex belongs to the one thread that is between its lock and its unlock, whoever unlocks has
    made it consistent, and no call has failed. -/
structure GuardInv (s : GuardSys T) : Prop where
  recoverable : s.recoverable = true
  owner : ∀ t, s.owner = some t ↔ (s.pcs t).owns = true
  isConsistent : ∀ t, (s.pcs t).guarded = true → s.isConsistent = true
  error : ∀ t, (s.pcs t).error? = none

/-- A guard is an owned lock. -/
theorem GuardPc.guarded_owns {pc : GuardPc} (h : pc.guarded = true) : pc.owns = true := by
  cases pc with
  | held | unlock => rfl
  | _ => cases h

namespace GuardInv

omit [DecidableEq T] in
/-- A free lock has no owner. -/
theorem unowned (hi : GuardInv s) (ho : s.owner = none) (t : T) : (s.pcs t).owns = false :=
  Bool.eq_false_iff.mpr fun h => by cases ho.symm.trans ((hi.owner t).mpr h)

omit [DecidableEq T] in
/-- The invariant is about lock, consistency and program counters. -/
theorem congr (hi : GuardInv s) (ho : s'.owner = s.owner)
    (hc : s'.isConsistent = s.isConsistent) (hr : s'.recoverable = s.recoverable)
    (hp : s'.pcs = s.pcs) : GuardInv s' where
  recoverable := hr.trans hi.recoverable
  owner u := by rw [ho, hp]; exact hi.owner u
  isConsistent u hu := by rw [hp] at hu; rw [hc]; exact hi.isConsistent u hu
  error u := by rw [hp]; exact hi.error u

/-- A step that neither takes the mutex nor gives it back. -/
theorem goto (hi : GuardInv s) {pc : GuardPc} (hold : (s.pcs t).owns = pc.owns)
    (hg : pc.guarded = true → s.isConsistent = true) (he : pc.error? = none) :
    GuardInv (s.goto t pc) where
  recoverable := hi.recoverable
  owner u := by
    rw [GuardSys.goto_pcs, show (s.goto t pc).owner = s.owner from rfl, hi.owner u]
    split
    · rename_i h
      rw [h, hold]
    · exact Iff.rfl
  isConsistent u hu := by
    rw [GuardSys.goto_pcs] at hu
    split at hu
    · exact hg hu
    · exact hi.isConsistent u hu
  error u := by
    rw [GuardSys.goto_pcs]
    split
    · exact he
    · exact hi.error u

/-- A thread takes the free lock. -/
theorem take (hi : GuardInv s) (ho : s.owner = none) {pc : GuardPc} (hold : pc.owns = true)
    (hg : pc.guarded = true → s.isConsistent = true) (he : pc.error? = none) :
    GuardInv ({ s with owner := some t }.goto t pc) where
  recoverable := hi.recoverable
  owner u := by
    rw [GuardSys.goto_pcs]
    show some t = some u ↔ _
    split
    · rename_i h
      exact ⟨fun _ => hold, fun _ => congrArg some h.symm⟩
    · rename_i h
      rw [show ({ s with owner := some t } : GuardSys T).pcs u = s.pcs u from rfl, hi.unowned ho u]
      exact ⟨fun hu => absurd (Option.some.inj hu).symm h, fun hu => (by cases hu)⟩
  isConsistent u hu := by
    rw [GuardSys.goto_pcs] at hu
    split at hu
    · exact hg hu
    · exact hi.isConsistent u hu
  error u := by
    rw [GuardSys.goto_pcs]
    split
    · exact he
    · exact hi.error u

/-- The end of a thread's turn, by its unlock or its death: nobody owns the mutex if it did. -/
theorem give (hi : GuardInv s) {o : Option T} {c r : Bool} {pc : GuardPc} (hold : pc.owns = false)
    (ho : o = if s.owner = some t then none else s.owner)
    (hc : s.owner ≠ some t → c = s.isConsistent) (hr : r = true) (he : pc.error? = none) :
    GuardInv ({ s with owner := o, isConsistent := c, recoverable := r }.goto t pc) where
  recoverable := hr
  owner u := by
    rw [GuardSys.goto_pcs]
    show o = some u ↔ _
    split
    · rename_i h
      rw [hold, ho, h]
      refine ⟨fun hu => ?_, fun hu => (by cases hu)⟩
      split at hu
      · cases hu
      · contradiction
    · rename_i h
      show o = some u ↔ (s.pcs u).owns = true
      rw [ho, ← hi.owner u]
      split
      · rename_i hs
        rw [hs]
        exact ⟨fun hu => (by cases hu), fun hu => absurd (Option.some.inj hu).symm h⟩
      · exact Iff.rfl
  isConsistent u hu := by
    rw [GuardSys.goto_pcs] at hu
    split at hu
    · rw [GuardPc.guarded_owns hu] at hold
      cases hold
    · -- another thread with the guard owns the mutex
      rename_i h
      have hown : s.owner = some u := (hi.owner u).mpr (GuardPc.guarded_owns hu)
      have hne : s.owner ≠ some t := fun ht => h (Option.some.inj (hown.symm.trans ht))
      exact (hc hne).trans (hi.isConsistent u hu)
  error u := by
    rw [GuardSys.goto_pcs]
    split
    · exact he
    · exact hi.error u

/-- A change of a signal mask leaves the lock alone. -/
theorem setMask (hi : GuardInv s) (m : Sigset) : GuardInv (s.setMask t m) :=
  hi.congr GuardSys.deliver_owner GuardSys.deliver_isConsistent GuardSys.deliver_recoverable
    GuardSys.deliver_pcs

/-- A step of a guarded call keeps the invariant. -/
theorem go (hi : GuardInv s) {pc : GuardPc} (hpc : s.pcs t = pc) (hg : GuardGo s t pc s') :
    GuardInv s' := by
  have hcons : pc.guarded = true → s.isConsistent = true := fun h =>
    hi.isConsistent t (by rw [hpc]; exact h)
  have hown : pc.owns = true → s.owner = some t := fun h => (hi.owner t).mpr (by rw [hpc]; exact h)
  cases hg with
  -- signals that are pending may be delivered, which the invariant does not see
  | mask =>
    refine (hi.setMask _).goto ?_ (fun h => by cases h) rfl
    rw [GuardSys.setMask, GuardSys.deliver_pcs, hpc]
    rfl
  | lock ha =>
    cases ha with
    | eintr | etimedout =>
      refine hi.goto ?_ (fun h => by cases h) rfl
      rw [hpc]
      rfl
    | notRecoverable hr => cases hr.symm.trans hi.recoverable
    | acquired ho hc => exact hi.take ho rfl (fun _ => hc) rfl
    | ownerDied ho hc => exact hi.take ho rfl (fun h => by cases h) rfl
  -- from here on the holder vouches for the state
  | consistent =>
    have hi' : GuardInv { s with isConsistent := true } :=
      ⟨hi.recoverable, hi.owner, fun _ _ => rfl, hi.error⟩
    refine hi'.goto ?_ (fun _ => rfl) rfl
    rw [hpc]
    rfl
  | held =>
    refine hi.goto ?_ (fun _ => hcons rfl) rfl
    rw [hpc]
    rfl
  -- the holder has made the state consistent before it unlocks
  | @unlock o =>
    refine hi.give ?_ ?_ ?_ ?_ ?_
    · cases o <;> rfl
    · rw [if_pos (hown rfl)]
    · exact fun h => absurd (hown rfl) h
    · rw [hi.recoverable, hcons rfl, Bool.and_true]
    · cases o <;> rfl
  | @restore m r =>
    refine (hi.goto ?_ (fun h => by cases h) ?_).setMask m
    · rw [hpc]
      rfl
    · have he := hi.error t
      rw [hpc] at he
      cases r with
      | ok => rfl
      | error => cases he

/-- **Every step keeps the invariant**, deaths included. -/
theorem step (hi : GuardInv s) {a : GuardAct T} (hs : GuardStep defers s a s') : GuardInv s' := by
  cases hs with
  | @call t hs hpc =>
    have hout : (s.pcs t).owns = false := by rcases hpc with h | ⟨r, h⟩ <;> rw [h] <;> rfl
    split
    · exact hi.goto hout (fun h => by cases h) rfl
    · exact hi.goto hout (fun h => by cases h) rfl
  | tick hs hg => exact hi.go rfl hg
  | signal =>
    exact hi.congr GuardSys.signal_owner GuardSys.signal_isConsistent GuardSys.signal_recoverable
      GuardSys.signal_pcs
  | resume hs =>
    exact hi.congr GuardSys.deliver_owner GuardSys.deliver_isConsistent
      GuardSys.deliver_recoverable GuardSys.deliver_pcs
  | die =>
    refine hi.give rfl rfl (fun h => ?_) hi.recoverable rfl
    rw [decide_eq_true h, Bool.and_true]

omit [DecidableEq T] in
/-- It holds at the start. -/
theorem init : GuardInv (GuardSys.init mask₀) where
  recoverable := rfl
  owner t := ⟨fun h => (by cases h), fun h => (by cases h)⟩
  isConsistent t h := by cases h
  error t := rfl

end GuardInv

/-! ### The masks -/

/-- What `lock_guard` has done to the mask of a thread that had the mask `m₀`. -/
def Deferred (defers : Bool) (m₀ m : Sigset) (stopped : Bool) : Option Sigset → Prop
  | some old => defers = true ∧ old = m₀ ∧ m = insert sigusr1 m₀ ∧ stopped = false
  | none => defers = false ∧ m = m₀

/-- The mask of a thread that had the mask `m₀` before its call. -/
def GuardPc.MaskOk (defers : Bool) (m₀ m : Sigset) (stopped : Bool) : GuardPc → Prop
  | .idle | .done _ => m = m₀
  | .mask => defers = true ∧ m = m₀
  | .lock o | .consistent o | .held o | .unlock o => Deferred defers m₀ m stopped o
  | .restore old _ => Deferred defers m₀ m stopped (some old)
  | .dead => True

/-- Every thread has the mask it had at first, plus `SIGUSR1` while it is deferred. -/
def MaskInv (defers : T → Bool) (mask₀ : T → Sigset) (s : GuardSys T) : Prop :=
  ∀ t, (s.pcs t).MaskOk (defers t) (mask₀ t) (s.mask t) (s.stopped t)

/-- A failed lock restores the mask it has saved. -/
theorem afterFail_ok {d b : Bool} {m₀ m : Sigset} {o : Option Sigset} {e : Int}
    (h : Deferred d m₀ m b o) : (afterFail o e).MaskOk d m₀ m b := by
  cases o with
  | none => exact h.2
  | some old => exact h

/-- So does a release. -/
theorem afterUnlock_ok {d b : Bool} {m₀ m : Sigset} {o : Option Sigset}
    (h : Deferred d m₀ m b o) : (afterUnlock o).MaskOk d m₀ m b := by
  cases o with
  | none => exact h.2
  | some old => exact h

/-- Whoever has the guard of a process that defers `SIGUSR1` blocks it and runs. -/
theorem GuardPc.MaskOk.deferred {pc : GuardPc} {b : Bool} {m₀ m : Sigset} (hp : pc.owns = true)
    (h : pc.MaskOk true m₀ m b) : sigusr1 ∈ m ∧ b = false := by
  cases pc with
  | consistent o | held o | unlock o =>
    cases o with
    | none => cases h.1
    | some old =>
      obtain ⟨_, _, rfl, hb⟩ := h
      exact ⟨Finset.mem_insert_self _ _, hb⟩
  | _ => cases hp

/-- Only a deferring thread that blocks `SIGUSR1` is kept from being stopped. -/
theorem GuardPc.MaskOk.stop {pc : GuardPc} {d b b' : Bool} {m₀ m : Sigset}
    (h : pc.MaskOk d m₀ m b) (hb : sigusr1 ∈ m → b = false → b' = false) : pc.MaskOk d m₀ m b' := by
  have hdef : ∀ o, Deferred d m₀ m b o → Deferred d m₀ m b' o := fun o ho => by
    cases o with
    | none => exact ho
    | some old =>
      obtain ⟨hd, hold, hm, hs⟩ := ho
      exact ⟨hd, hold, hm, hb (hm ▸ Finset.mem_insert_self _ _) hs⟩
  cases pc with
  | lock o | consistent o | held o | unlock o => exact hdef o h
  | restore old r => exact hdef (some old) h
  | _ => exact h

namespace MaskInv

/-- A step of thread `t` that keeps its mask. -/
theorem goto (hi : MaskInv defers mask₀ s) {pc : GuardPc}
    (h : pc.MaskOk (defers t) (mask₀ t) (s.mask t) (s.stopped t)) :
    MaskInv defers mask₀ (s.goto t pc) := by
  intro u
  rw [GuardSys.goto_pcs]
  split
  · rename_i hu
    rw [hu]
    exact h
  · exact hi u

/-- The delivery of a signal to a thread. -/
theorem deliver (hi : MaskInv defers mask₀ s) : MaskInv defers mask₀ (s.deliver t) := by
  intro u
  rw [GuardSys.deliver_pcs, GuardSys.deliver_mask]
  refine (hi u).stop fun hm hb => ?_
  by_cases hu : u = t
  · subst hu
    rw [GuardSys.deliver_blocked hm, hb]
  · rw [GuardSys.deliver_stopped_of_ne hu, hb]

/-- A signal leaves the masks alone. -/
theorem signal (hi : MaskInv defers mask₀ s) : MaskInv defers mask₀ (s.signal t) := by
  intro u
  rw [GuardSys.signal_pcs, GuardSys.signal_mask]
  refine (hi u).stop fun hm hb => ?_
  rw [GuardSys.signal_stopped fun hu => hu ▸ hm, hb]

/-- A thread changes its own mask, and goes on. -/
theorem setMask_goto (hi : MaskInv defers mask₀ s) {m : Sigset} {pc : GuardPc}
    (h : pc.MaskOk (defers t) (mask₀ t) m (s.stopped t)) :
    MaskInv defers mask₀
      ({ s with mask := Function.update s.mask t m }.goto t pc) := by
  intro u
  rw [GuardSys.goto_pcs]
  show GuardPc.MaskOk _ _ (Function.update s.mask t m u) _ _
  split
  · rename_i hu
    rw [hu, Function.update_self]
    exact h
  · rename_i hu
    rw [Function.update_of_ne hu]
    exact hi u

/-- A step of a guarded call keeps the masks accounted for. -/
theorem go (hi : MaskInv defers mask₀ s) {pc : GuardPc} (hpc : s.pcs t = pc)
    (hs : s.stopped t = false) (hg : GuardGo s t pc s') : MaskInv defers mask₀ s' := by
  have ht := hi t
  rw [hpc] at ht
  cases hg with
  | mask =>
    have hm : s.setMask t (insert sigusr1 (s.mask t)) =
        { s with mask := Function.update s.mask t (insert sigusr1 (s.mask t)) } :=
      GuardSys.deliver_blocked (by
        show sigusr1 ∈ Function.update s.mask t _ t
        rw [Function.update_self]
        exact Finset.mem_insert_self _ _)
    rw [hm]
    refine hi.setMask_goto ?_
    obtain ⟨hd, hm₀⟩ := ht
    rw [hm₀]
    exact ⟨hd, rfl, rfl, hs⟩
  | lock ha =>
    cases ha with
    | eintr | etimedout => exact hi.goto ht
    | notRecoverable => exact hi.goto (afterFail_ok ht)
    | acquired | ownerDied => exact goto (s := { s with owner := some t }) hi ht
  | consistent => exact goto (s := { s with isConsistent := true }) hi ht
  | held => exact hi.goto ht
  | unlock =>
    exact goto (s := { s with owner := none, recoverable := s.recoverable && s.isConsistent }) hi
      (afterUnlock_ok ht)
  | @restore m r =>
    have hdone : (GuardPc.done r).MaskOk (defers t) (mask₀ t) m (s.stopped t) := ht.2.1
    exact (hi.setMask_goto hdone).deliver

/-- **Every step keeps the masks accounted for.** -/
theorem step (hi : MaskInv defers mask₀ s) {a : GuardAct T} (hs : GuardStep defers s a s') :
    MaskInv defers mask₀ s' := by
  cases hs with
  | @call t hs hpc =>
    have hm : s.mask t = mask₀ t := by
      have ht := hi t
      rcases hpc with h | ⟨r, h⟩ <;> rw [h] at ht <;> exact ht
    split
    · rename_i hd
      exact hi.goto ⟨hd, hm⟩
    · rename_i hd
      exact hi.goto ⟨Bool.eq_false_iff.mpr hd, hm⟩
  | tick hs hg => exact hi.go rfl hs hg
  | signal => exact hi.signal
  | @resume t hs =>
    have hi' : MaskInv defers mask₀ { s with stopped := Function.update s.stopped t false } :=
      fun u => (hi u).stop fun _ hb => by
        show Function.update s.stopped t false u = false
        rw [Function.update_apply]
        split
        · rfl
        · exact hb
    exact hi'.deliver
  | @die t =>
    exact goto (s := { s with
      owner := if s.owner = some t then none else s.owner
      isConsistent := s.isConsistent && decide (s.owner ≠ some t) }) hi trivial

omit [DecidableEq T] in
/-- At the start all masks are the first ones. -/
theorem init : MaskInv defers mask₀ (GuardSys.init mask₀) := fun _ => rfl

end MaskInv

/-! ### The signals -/

/-- Thread `t` was sent a `SIGUSR1` after the last return of its handler. -/
def signalled (t : T) : List (GuardAct T) → Bool
  | [] => false
  | .signal u :: h => decide (u = t) || signalled t h
  | .resume u :: h => decide (u ≠ t) && signalled t h
  | _ :: h => signalled t h

namespace GuardSys

/-- The `SIGUSR1` of thread `u` has stopped it, or is blocked and pending. -/
def Keeps (s : GuardSys T) (u : T) : Prop :=
  s.stopped u = true ∨ s.pending u = true ∧ sigusr1 ∈ s.mask u

/-- A delivery loses no signal. -/
theorem keeps_deliver (h : s.stopped u = true ∨ s.pending u = true ∧ (u ≠ t → sigusr1 ∈ s.mask u)) :
    (s.deliver t).Keeps u := by
  unfold deliver
  split
  · show Function.update s.stopped t true u = true ∨
      Function.update s.pending t false u = true ∧ sigusr1 ∈ s.mask u
    by_cases hu : u = t
    · rw [hu, Function.update_self]
      exact .inl rfl
    · rw [Function.update_of_ne hu, Function.update_of_ne hu]
      exact h.imp_right fun hp => ⟨hp.1, hp.2 hu⟩
  · rename_i hno
    refine h.imp_right fun hp => ⟨hp.1, ?_⟩
    by_cases hu : u = t
    · subst hu
      by_contra hm
      exact hno ⟨hp.1, hm⟩
    · exact hp.2 hu

/-- A change of mask loses no signal. -/
theorem keeps_setMask {m : Sigset} (h : s.Keeps u) : (s.setMask t m).Keeps u := by
  refine keeps_deliver (h.imp_right fun hp => ⟨hp.1, fun hu => ?_⟩)
  show sigusr1 ∈ Function.update s.mask t m u
  rw [Function.update_of_ne hu]
  exact hp.2

/-- A new signal loses none. -/
theorem keeps_signal (h : u ≠ t → s.Keeps u) : (s.signal t).Keeps u := by
  by_cases hu : u = t
  · subst hu
    unfold signal
    split
    · rename_i hb
      exact hb.imp_right fun hm => ⟨Function.update_self .., hm⟩
    · exact .inl (Function.update_self ..)
  · unfold signal
    split
    · exact (h hu).imp_right fun hp => ⟨(Function.update_of_ne hu ..).trans hp.1, hp.2⟩
    · exact (h hu).imp_left (Function.update_of_ne hu ..).trans

end GuardSys

/-- A step of a guarded call loses no signal. -/
theorem GuardGo.keeps {pc : GuardPc} (hg : GuardGo s t pc s') (h : s.Keeps u) : s'.Keeps u := by
  cases hg with
  | mask => exact GuardSys.keeps_setMask h
  | lock ha => cases ha <;> exact h
  | restore => exact GuardSys.keeps_setMask (s := s.goto t (.done _)) h
  | _ => exact h

/-- **No step loses a signal.** -/
theorem GuardStep.keeps {a : GuardAct T} {h : List (GuardAct T)} (hs : GuardStep defers s a s')
    (hi : signalled u h = true → s.Keeps u) (hsig : signalled u (a :: h) = true) : s'.Keeps u := by
  cases hs with
  | call => exact hi hsig
  | tick _ hg => exact hg.keeps (hi hsig)
  | @signal t =>
    refine GuardSys.keeps_signal fun hu => hi ?_
    rwa [signalled, decide_eq_false (Ne.symm hu), Bool.false_or] at hsig
  | @resume t =>
    obtain ⟨hu, hsig⟩ := Bool.and_eq_true_iff.mp hsig
    have hu : u ≠ t := Ne.symm (of_decide_eq_true hu)
    refine GuardSys.keeps_deliver ?_
    rw [show ({ s with stopped := Function.update s.stopped t false } : GuardSys T).stopped u =
      s.stopped u from Function.update_of_ne hu _ _]
    exact (hi hsig).imp_right fun hp => ⟨hp.1, fun _ => hp.2⟩
  | die => exact hi hsig

/-! ### The two properties -/

/-- A guarded call that need not wait for the lock can step. -/
theorem guardTick_isSome (hcall : (s.pcs t).inCall = true)
    (hfree : ∀ o, s.pcs t = .lock o → s.owner = none ∧ s.recoverable = true) :
    (guardTick s t none).isSome = true := by
  unfold guardTick
  generalize hpc : s.pcs t = pc at hcall
  cases pc with
  | idle | done | dead => cases hcall
  | lock o =>
    obtain ⟨ho, hr⟩ := hfree o hpc
    simp only [GuardSys.mutexLock, ho, hr, if_true, Option.map_some, Option.isSome_some]
  | _ => rfl

/-- **The lock can be relied on.** For any number of threads, signals and deaths, `lock_guard` never
    fails, whatever the mutex answers; one thread at most owns it, and it is consistent again before
    the guard exists.  Only the thread that owns the mutex keeps a running thread from the next step
    of its call, and where `SIGUSR1` is deferred that thread is never stopped by one and can make
    its own next step. -/
theorem guard_holds {h : List (GuardAct T)}
    (hr : Run (guardStep defers) (fun _ _ _ => True) (GuardSys.init mask₀) h s) :
    (∀ t, (s.pcs t).error? = none ∧ ∀ err ret s₁, s.mutexLock t err = some (ret, s₁) →
      ∀ e, lockGuard [ret] ≠ some (.error e)) ∧
    (∀ t u, (s.pcs t).owns = true → (s.pcs u).owns = true → t = u) ∧
    (∀ t, (s.pcs t).guarded = true → s.isConsistent = true ∧ s.recoverable = true) ∧
    (∀ t, (s.pcs t).inCall = true → (guardTick s t none).isSome = true ∨
      ∃ u, u ≠ t ∧ s.owner = some u ∧ (s.pcs u).owns = true) ∧
    ∀ t, defers t = true → (s.pcs t).owns = true →
      s.stopped t = false ∧ (guardTick s t none).isSome = true := by
  obtain ⟨hi, hm⟩ : GuardInv s ∧ MaskInv defers mask₀ s :=
    hr.state_invariant (I := fun s => GuardInv s ∧ MaskInv defers mask₀ s)
      ⟨GuardInv.init, MaskInv.init⟩ (fun s a s' l hi hs _ =>
        ⟨hi.1.step (guardStep_inv hs).2, hi.2.step (guardStep_inv hs).2⟩)
  refine ⟨fun t => ⟨hi.error t, fun err ret s₁ hl e => ?_⟩, fun t u ht hu => ?_,
    fun t ht => ⟨hi.isConsistent t ht, hi.recoverable⟩, fun t ht => ?_, fun t hd ht => ⟨?_, ?_⟩⟩
  · cases mutexLock_inv hl with
    | notRecoverable hr => cases hr.symm.trans hi.recoverable
    | _ => exact fun h => by cases h
  · exact Option.some.inj (((hi.owner t).mpr ht).symm.trans ((hi.owner u).mpr hu))
  · by_cases hlock : ∃ o, s.pcs t = .lock o
    · obtain ⟨o, hpc⟩ := hlock
      cases ho : s.owner with
      | none => exact .inl (guardTick_isSome ht fun _ _ => ⟨ho, hi.recoverable⟩)
      | some u =>
        have hown := (hi.owner u).mp ho
        refine .inr ⟨u, fun hu => ?_, rfl, hown⟩
        rw [hu, hpc] at hown
        cases hown
    · exact .inl (guardTick_isSome ht fun o ho => absurd ⟨o, ho⟩ hlock)
  · have hok := hm t
    rw [hd] at hok
    exact (hok.deferred ht).2
  · refine guardTick_isSome ?_ fun o ho => ?_
    · generalize s.pcs t = pc at ht
      cases pc with
      | consistent | held | unlock => rfl
      | _ => cases ht
    · rw [ho] at ht
      cases ht

/-- The holder dies, and the next one is sent a signal. -/
theorem guard_holds_ownerDied :
    ∃ h s, Run (guardStep fun _ => true) (fun _ _ _ => True) (GuardSys.init fun _ : Fin 2 => ∅) h s ∧
      ((s.pcs 0).outside = false ∧ (s.pcs 1).guarded = true ∧ s.pending 1 = true) ∧
      s.isConsistent = true ∧ s.stopped 1 = false := by
  obtain ⟨h, s, hr, hp⟩ := exists_run_of_exec (guardStep fun _ => true) (fun _ _ _ => True)
    (GuardSys.init fun _ : Fin 2 => ∅)
    [.call 0, .tick 0 none, .tick 0 none, .die 0, .call 1, .tick 1 none, .tick 1 none,
      .tick 1 none, .signal 1]
    (P := fun s => (s.pcs 0).outside = false ∧ (s.pcs 1).guarded = true ∧ s.pending 1 = true)
    (by decide)
  obtain ⟨_, _, hguard, _, hdefers⟩ := guard_holds hr
  exact ⟨h, s, hr, hp, (hguard 1 hp.2.1).1, (hdefers 1 rfl (GuardPc.guarded_owns hp.2.1)).1⟩

-- A holder that does not defer the signal can be stopped, and then nobody gets the lock.
example :
    (exec (guardStep fun _ => false) (fun _ _ _ => True) (GuardSys.init fun _ : Fin 2 => ∅) []
      [.call 0, .tick 0 none, .signal 0, .call 1]).any (fun x =>
        (x.1.pcs 0).guarded && (guardStep (fun _ => false) x.1 (.tick 0 none)).isNone &&
          (guardStep (fun _ => false) x.1 (.tick 1 none)).isNone) = true := by
  decide

/-- **Nothing is left behind.** Before and after each call a thread has the mask it had at first.  A
    `SIGUSR1` sent while it was blocked is not lost: unless the thread blocked the signal itself, it
    has been stopped by the time its call is over. -/
theorem guard_restores {h : List (GuardAct T)}
    (hr : Run (guardStep defers) (fun _ _ _ => True) (GuardSys.init mask₀) h s)
    (hout : (s.pcs t).outside = true) :
    s.mask t = mask₀ t ∧
    (signalled t h = true → sigusr1 ∉ mask₀ t → s.stopped t = true) := by
  obtain ⟨hm, hk⟩ : MaskInv defers mask₀ s ∧ (signalled t h = true → s.Keeps t) :=
    hr.invariant (I := fun h s => MaskInv defers mask₀ s ∧ (signalled t h = true → s.Keeps t))
      ⟨MaskInv.init, fun h => by cases h⟩ (fun h s a s' l hi hs _ => by
        obtain ⟨rfl, hstep⟩ := guardStep_inv hs
        exact ⟨hi.1.step hstep, hstep.keeps hi.2⟩)
  have hmask : s.mask t = mask₀ t := by
    have ht := hm t
    generalize s.pcs t = pc at ht hout
    cases pc with
    | idle | done => exact ht
    | _ => cases hout
  refine ⟨hmask, fun hsig hfree => ?_⟩
  rcases hk hsig with hs | ⟨_, hb⟩
  · exact hs
  · rw [hmask] at hb
    exact absurd hb hfree

/-- A signal that arrives inside the guard is delivered after it. -/
theorem guard_restores_putOff :
    ∃ h s, Run (guardStep fun _ => true) (fun _ _ _ => True) (GuardSys.init fun _ : Fin 1 => ∅) h s ∧
      signalled 0 h = true ∧ s.mask 0 = ∅ ∧ s.stopped 0 = true := by
  obtain ⟨h, s, hr, hout, hsig⟩ := exists_history_of_exec (guardStep fun _ => true)
    (fun _ _ _ => True) (GuardSys.init fun _ : Fin 1 => ∅)
    [.call 0, .tick 0 none, .tick 0 none, .signal 0, .tick 0 none, .tick 0 none, .tick 0 none]
    (P := fun h s => (s.pcs 0).outside = true ∧ signalled 0 h = true) (by decide)
  obtain ⟨hm, hs⟩ := guard_restores hr hout
  exact ⟨h, s, hr, hsig, hm, hs hsig (Finset.notMem_empty _)⟩

end Ntsync
