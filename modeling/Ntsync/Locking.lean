import Mathlib
import Ntsync.Steps

namespace Ntsync

open Words

/-!
# The region lock

`Pc.locked` says at which program counters a thread is inside a region-lock critical section.
`tick_lockStep` is the discipline every step follows: the lock is taken from outside and released
from inside a critical section, and whatever must not race (the waiter lists, the node pool, the
slot fields other than the state word, a pulse's stores) is only touched from inside.
`LockInv` is the resulting mutual exclusion, an invariant of every run.
-/

variable {T : Type}

/-- The instructions that only a lock holder performs. -/
def Instr.guarded : Instr → Bool
  | .silent | .lock | .unlock | .countCall => false
  | .word _ _ tag _ => decide (tag = .pulse)
  | _ => true

def SweepPc.locked (auto : Bool) : SweepPc → Bool
  | .probe .. => !auto
  | .relock .. => false
  | _ => true

def OpPc.locked : OpPc → Bool
  | .walk _ _ | .unlock _ => true
  | _ => false

def PulsePc.locked : PulsePc → Bool
  | .lock => false
  | _ => true

def AutoPc.locked : AutoPc → Bool
  | .gate | .lock => false
  | .recheck | .unlock => true
  | .run p => p.locked true

def WaitPc.locked : WaitPc → Bool
  | .pass .lock => false
  | .pass _ => true
  | .sweep _ _ p => p.locked
  | .detach (.detach _) | .detach .unlock => true
  | .clean _ .lock => false
  | .clean _ _ => true
  | _ => false

def CreatePc.locked : CreatePc → Bool
  | .lock => false
  | .sweep p => p.locked false
  | _ => true

def ClosePc.locked : ClosePc → Bool
  | .lock => false
  | _ => true

def HoldPc.locked : HoldPc → Bool
  | .lock => false
  | _ => true

def SweepCallPc.locked : SweepCallPc → Bool
  | .lock => false
  | .run p => p.locked false
  | .unlock _ => true

/-- The thread is inside a region-lock critical section. -/
def Pc.locked : Pc → Bool
  | .idle | .done _ _ | .panicked => false
  | .op _ _ p => p.locked
  | .pulse _ p => p.locked
  | .wait _ p => p.locked
  | .create _ p => p.locked
  | .close _ p => p.locked
  | .hold _ _ p => p.locked
  | .sweepDead p => p.locked

/-- What a step may do to the lock, given whether its thread holds it before and after. -/
def LockStep (sh : Shared T) (locked locked' : Bool) : Instr → Prop
  | .lock => sh.lock = none ∧ locked = false ∧ locked' = true
  | .unlock => locked = true ∧ locked' = false
  | ins => locked' = locked ∧ (ins.guarded = true → locked = true)

/-! ### Every step follows the discipline -/

section Discipline

variable {o : Oracle} {sh : Shared T} {pid : U32} {calls : U64} {ins : Instr} {pc' : Pc}

/-- A step that does nothing to the memory may be taken with the lock or without it. -/
theorem LockStep.silent {l l' : Bool} (h : l' = l) : LockStep sh l l' .silent :=
  ⟨h, fun hg => by cases hg⟩

/-- A walk runs inside a critical section and stays there. -/
theorem Walk.step_lockStep {r : Region} {i : Nat} {w : Walk} {q : Out Walk Unit}
    (h : w.step r i = some (ins, q)) : LockStep sh true true ins := by
  cases w with
  | start => cases h; exact .silent rfl
  | node idx =>
    cases idx <;> cases h
    · exact .silent rfl
    · exact ⟨rfl, fun _ => rfl⟩
  | bump word next =>
    cases word <;> cases h
    exact ⟨rfl, fun _ => rfl⟩

@[simp] theorem SweepPc.judge_locked (auto : Bool) (st : SweepSt) (judged : List (DeadCand × Bool))
    (rest : List DeadCand) : (SweepPc.judge auto st judged rest).locked auto = !auto := by
  cases rest <;> cases auto <;> rfl

/-- A sweep returns inside its critical section. -/
def Out.locked (auto : Bool) : Out SweepPc Nat → Bool
  | .more p => p.locked auto
  | .done _ => true

/-- A sweep takes the lock for each chunk and for its reap, and releases it in between. -/
theorem SweepPc.step_lockStep {auto : Bool} {p : SweepPc} {q : Out SweepPc Nat}
    (h : p.step auto sh = some (ins, q)) : LockStep sh (p.locked auto) (q.locked auto) ins := by
  cases SweepPc.step_inv h with
  | finished | chunkAuto | reaped | skip | probe => exact .silent rfl
  | chunk _ ha =>
    subst ha
    exact .silent (SweepPc.judge_locked _ _ _ _)
  | drop ha =>
    subst ha
    exact ⟨rfl, SweepPc.judge_locked _ _ _ _⟩
  | probeDead | probeAlive => exact .silent (SweepPc.judge_locked _ _ _ _)
  | relock hl => exact ⟨hl, rfl, rfl⟩
  | reapNode | reapSlot | reapFree | reapGen => exact ⟨rfl, fun _ => rfl⟩
  | walk hw | walked hw => exact Walk.step_lockStep hw

/-- A lock-free operation takes the lock for its wake walk only. -/
theorem OpGo.lockStep {h : U32} {op : Op} {p : OpPc} (hg : OpGo sh h op p ins pc') :
    LockStep sh p.locked pc'.locked ins := by
  cases hg with
  | @bad p hp => cases p <;> first | exact .silent rfl | cases hp
  | swap | swapQuiet => exact ⟨rfl, fun hg => by cases hg⟩
  | lock hl => exact ⟨hl, rfl, rfl⟩
  | walk hw | walked hw => exact Walk.step_lockStep hw
  | unlock => exact ⟨rfl, rfl⟩
  | _ => exact .silent rfl

/-- A pulse runs under the lock from its lookup to the end of its walk. -/
theorem PulseGo.lockStep {h : U32} {p : PulsePc} (hg : PulseGo sh h p ins pc') :
    LockStep sh p.locked pc'.locked ins := by
  cases hg with
  | lock hl => exact ⟨hl, rfl, rfl⟩
  | storeD | storeW => exact ⟨rfl, fun _ => rfl⟩
  | walk hw | walked hw => exact Walk.step_lockStep hw
  | unlock => exact ⟨rfl, rfl⟩
  | _ => exact .silent rfl

/-- Outside the critical sections `try_satisfy` stores are not guarded. -/
theorem satInstr_lockStep (a : WaitArgs) (w : Option SatWrite) (l : Bool) :
    LockStep sh l l (satInstr a w) := by
  cases w with
  | none => exact .silent rfl
  | some w => cases w <;> exact ⟨rfl, fun hg => by cases hg⟩

/-- Detaching a node, or finding it detached, stays in the critical section. -/
theorem detachInstr_lockStep (n : Nat) : LockStep sh true true (detachInstr sh n) := by
  unfold detachInstr
  split
  · exact ⟨rfl, fun _ => rfl⟩
  · exact .silent rfl

/-- The fast path runs without the lock. -/
theorem FastGo.lockStep {c : WaitCtx} {p : FastPc} (hg : FastGo sh c p ins pc') :
    LockStep sh false pc'.locked ins := by
  have hnext : ∀ i, (c.fastNext i).locked = false := by
    intro i
    unfold WaitCtx.fastNext
    split
    · rfl
    · split <;> rfl
  cases hg with
  | sat | win | failZero | fail => exact satInstr_lockStep _ _ _
  | @lookOther i | @seq i => exact .silent (hnext i)
  | _ => exact .silent rfl

/-- The locked pass holds the lock from its first step until it settles or goes to sleep. -/
theorem PassGo.lockStep {c : WaitCtx} {p : PassPc} (hg : PassGo o sh pid c p ins pc') :
    LockStep sh (WaitPc.pass p).locked pc'.locked ins := by
  have hafter : c.afterAlert.locked = true := by
    unfold WaitCtx.afterAlert
    split <;> rfl
  have hnext : ∀ i, (c.validateNext i).locked = true := by
    intro i
    unfold WaitCtx.validateNext
    split
    · rfl
    · split
      · rfl
      · exact hafter
  cases hg with
  | lock hl => exact ⟨hl, rfl, rfl⟩
  | @validateFirst i | @validate i => exact .silent (hnext i)
  | alertPanic => exact ⟨rfl, rfl⟩
  | alertClear => exact .silent hafter
  | alloc =>
    refine ⟨?_, fun _ => rfl⟩
    unfold WaitCtx.allocNext
    split <;> rfl
  | registerSkip =>
    refine .silent ?_
    unfold WaitCtx.registerNext
    split <;> rfl
  | register =>
    refine ⟨?_, fun _ => rfl⟩
    unfold WaitCtx.registerNext
    split <;> rfl
  | sat | win | fail => exact satInstr_lockStep _ _ _
  | unlock => exact ⟨rfl, rfl⟩
  | _ => exact .silent rfl

/-- An automatic sweep inside a wait follows the sweep. -/
theorem AutoGo.lockStep {c : WaitCtx} {seq : U32} {timedOut : Bool} {p : AutoPc}
    (hg : AutoGo o sh c seq timedOut p ins pc') : LockStep sh p.locked pc'.locked ins := by
  cases hg with
  | skip => cases timedOut <;> exact ⟨rfl, fun hg => by cases hg⟩
  | gate => exact ⟨rfl, fun hg => by cases hg⟩
  | lock hl => exact ⟨hl, rfl, rfl⟩
  | tooSoon => exact .silent rfl
  | claim => exact ⟨rfl, fun _ => rfl⟩
  | run hs | swept hs => exact SweepPc.step_lockStep hs
  | unlock => cases timedOut <;> exact ⟨rfl, rfl⟩

/-- A wait takes and releases the lock in its locked pass, its sweep and its clean-up. -/
theorem WaitGo.lockStep {c : WaitCtx} {p : WaitPc} (hg : WaitGo o sh pid c p ins pc') :
    LockStep sh p.locked pc'.locked ins := by
  cases hg with
  | fast hg => exact hg.lockStep
  | pass hg => exact hg.lockStep
  | noSpin | spinStart => exact .silent rfl
  | spin hg =>
    cases hg with
    | sat | win | fail => exact satInstr_lockStep _ _ _
    | _ => exact .silent rfl
  | sweep hg => exact hg.lockStep
  | sleep hg =>
    cases hg with
    | again | woken =>
      refine .silent ?_
      unfold afterFutex
      split <;> rfl
    | _ => exact .silent rfl
  | detach hg =>
    cases hg with
    | lock hl => exact ⟨hl, rfl, rfl⟩
    | detach | last => exact detachInstr_lockStep _
    | unlock => exact ⟨rfl, rfl⟩
    | _ => exact .silent rfl
  | clean hg =>
    cases hg with
    | lock hl => exact ⟨hl, rfl, rfl⟩
    | detach => exact detachInstr_lockStep _
    | free => exact ⟨rfl, fun _ => rfl⟩
    | unlock => exact ⟨rfl, rfl⟩
    | _ => exact .silent rfl

/-- A create holds the lock, its sweep apart, until its slot is published or it has given up. -/
theorem CreateGo.lockStep {k : Create} {p : CreatePc} (hg : CreateGo sh pid k p ins pc') :
    LockStep sh p.locked pc'.locked ins := by
  cases hg with
  | lock hl => exact ⟨hl, rfl, rfl⟩
  | take | write => exact ⟨rfl, fun _ => rfl⟩
  | run hs | retry hs | giveUp hs => exact SweepPc.step_lockStep hs
  | unlock => exact ⟨rfl, rfl⟩
  | _ => exact .silent rfl

/-- A close holds the lock until its wake walk is over. -/
theorem CloseGo.lockStep {h : U32} {p : ClosePc} (hg : CloseGo sh pid h p ins pc') :
    LockStep sh p.locked pc'.locked ins := by
  cases hg with
  | lock hl => exact ⟨hl, rfl, rfl⟩
  | write | free | gen => exact ⟨rfl, fun _ => rfl⟩
  | walk hw | walked hw => exact Walk.step_lockStep hw
  | unlock => exact ⟨rfl, rfl⟩
  | _ => exact .silent rfl

/-- A retain or release holds the lock while it edits the holder array. -/
theorem HoldGo.lockStep {add : Bool} {h : U32} {p : HoldPc} (hg : HoldGo sh pid add h p ins pc') :
    LockStep sh p.locked pc'.locked ins := by
  cases hg with
  | lock hl => exact ⟨hl, rfl, rfl⟩
  | write | markAdd | markRemove => exact ⟨rfl, fun _ => rfl⟩
  | unlock => exact ⟨rfl, rfl⟩
  | _ => exact .silent rfl

/-- A call of `sweep_dead` follows the sweep. -/
theorem SweepCallGo.lockStep {p : SweepCallPc} (hg : SweepCallGo sh p ins pc') :
    LockStep sh p.locked pc'.locked ins := by
  cases hg with
  | lock hl => exact ⟨hl, rfl, rfl⟩
  | run hs | swept hs => exact SweepPc.step_lockStep hs
  | unlock => exact ⟨rfl, rfl⟩

/-- **Lock discipline.** Every step of every call follows it. -/
theorem tick_lockStep {pc : Pc} (ht : tick o sh pid calls pc = some (ins, pc')) :
    LockStep sh pc.locked pc'.locked ins := by
  cases tick_inv ht with
  | op hg => exact hg.lockStep
  | pulse hg => exact hg.lockStep
  | wait hg => exact hg.lockStep
  | create hg => exact hg.lockStep
  | close hg => exact hg.lockStep
  | hold hg => exact hg.lockStep
  | sweepDead hg => exact hg.lockStep

end Discipline

/-- A call starts without the lock. -/
theorem Pc.start_locked (c : Call) : (Pc.start c).locked = false := by
  cases c <;> simp only [Pc.start] <;> (try split) <;> rfl

/-- A thread outside all calls does not hold the lock. -/
theorem Pc.locked_of_outside {pc : Pc} (h : pc.outside = true) : pc.locked = false := by
  cases pc <;> first | rfl | cases h

/-! ### Steps of the system -/

namespace Sys

variable [DecidableEq T]

/-- Thread `t` is at program counter `pc'` after performing `ins`. -/
def after (s : Sys T) (t : T) (ins : Instr) (pc' : Pc) : Sys T where
  toShared := ins.apply t (s.threads t).pid s.toShared
  threads := Function.update s.threads t
    { s.threads t with calls := ins.countCalls (s.threads t).calls, pc := pc' }

/-- Thread `t` has entered the call `c`. -/
def entered (s : Sys T) (t : T) (c : Call) : Sys T :=
  { s with threads := Function.update s.threads t { s.threads t with pc := .start c } }

/-- Process `pid` has died. -/
def died (s : Sys T) (pid : U32) : Sys T :=
  { s with
    dead := Function.update s.dead pid true
    lock := match s.lock with
      | some t => if (s.threads t).pid = pid then none else some t
      | none => none }

/-- **Inversion of a step.** -/
inductive Step (s : Sys T) : Action T → Sys T → Label T → Prop
  | call {t : T} {c : Call} : s.dead (s.threads t).pid = false →
      (s.threads t).pc.outside = true → Step s (.call t c) (s.entered t c) (.call t c)
  | tick {t : T} {o : Oracle} {ins : Instr} {pc' : Pc} : s.dead (s.threads t).pid = false →
      Ntsync.tick o s.toShared (s.threads t).pid (s.threads t).calls (s.threads t).pc =
        some (ins, pc') →
      Step s (.tick t o) (s.after t ins pc') (.instr t (s.threads t).pid ins)
  | die {pid : U32} : Step s (.die pid) (s.died pid) (.die pid)

/-- **What a step of the system is**: a call, a step of a thread, or the death of a process. -/
theorem step_inv {s s' : Sys T} {a : Action T} {l : Label T} (h : s.step a = some (s', l)) :
    Step s a s' l := by
  cases a with
  | call t c =>
    simp only [step] at h
    split at h
    · rename_i hc
      cases h
      exact .call hc.1 hc.2
    · cases h
  | tick t o =>
    simp only [step] at h
    split at h
    · cases h
    · rename_i hd
      split at h
      · cases h
      · rename_i ht
        cases h
        exact .tick (by simpa using hd) ht
  | die pid =>
    cases h
    exact .die

section After

variable (s : Sys T) (t u : T) (ins : Instr) (pc' : Pc) (c : Call) (pid : U32)

/-- A step of thread `t` changes no other thread. -/
theorem after_threads : (s.after t ins pc').threads u = if u = t then
    { s.threads t with calls := ins.countCalls (s.threads t).calls, pc := pc' }
    else s.threads u := by
  by_cases h : u = t
  · subst h; simp [after]
  · simp [after, h]

@[simp] theorem after_pid : ((s.after t ins pc').threads u).pid = (s.threads u).pid := by
  rw [after_threads]
  split
  · rename_i h; rw [h]
  · rfl

@[simp] theorem after_pc : ((s.after t ins pc').threads u).pc =
    if u = t then pc' else (s.threads u).pc := by
  rw [after_threads]
  split <;> rfl

@[simp] theorem after_dead : (s.after t ins pc').dead = s.dead := by
  show (ins.apply t (s.threads t).pid s.toShared).dead = s.dead
  cases ins with
  | allocNode => simp only [Instr.apply]; split <;> rfl
  | _ => rfl

@[simp] theorem entered_region : (s.entered t c).region = s.region := rfl
@[simp] theorem entered_lock : (s.entered t c).lock = s.lock := rfl
@[simp] theorem entered_dead : (s.entered t c).dead = s.dead := rfl

@[simp] theorem entered_pid : ((s.entered t c).threads u).pid = (s.threads u).pid := by
  by_cases h : u = t
  · subst h; simp [entered]
  · simp [entered, h]

@[simp] theorem entered_pc : ((s.entered t c).threads u).pc =
    if u = t then .start c else (s.threads u).pc := by
  by_cases h : u = t
  · subst h; simp [entered]
  · simp [entered, h]

omit [DecidableEq T] in
@[simp] theorem died_region : (s.died pid).region = s.region := rfl
omit [DecidableEq T] in
@[simp] theorem died_threads : (s.died pid).threads = s.threads := rfl

omit [DecidableEq T] in
@[simp] theorem died_dead {p : U32} : (s.died pid).dead p = (decide (p = pid) || s.dead p) := by
  by_cases h : p = pid
  · subst h; simp [died]
  · simp [died, h]

end After

/-! ### Mutual exclusion -/

/-- The lock is held by exactly the live thread that is inside a critical section. -/
def LockInv (s : Sys T) : Prop :=
  ∀ t, s.lock = some t ↔ (s.threads t).pc.locked = true ∧ s.dead (s.threads t).pid = false

omit [DecidableEq T] in
/-- **Mutual exclusion**: no two live threads are in critical sections. -/
theorem LockInv.unique {s : Sys T} (h : LockInv s) {t u : T}
    (ht : (s.threads t).pc.locked = true) (hta : s.dead (s.threads t).pid = false)
    (hu : (s.threads u).pc.locked = true) (hua : s.dead (s.threads u).pid = false) : t = u :=
  Option.some.inj (((h t).mpr ⟨ht, hta⟩).symm.trans ((h u).mpr ⟨hu, hua⟩))

/-- The lock after an instruction. -/
theorem after_lock (s : Sys T) (t : T) (ins : Instr) (pc' : Pc) :
    (s.after t ins pc').lock = match ins with
      | .lock => some t
      | .unlock => none
      | _ => s.lock := by
  show (ins.apply t (s.threads t).pid s.toShared).lock = _
  cases ins with
  | allocNode => simp only [Instr.apply]; split <;> rfl
  | _ => rfl

/-- **Mutual exclusion is kept by every step.** -/
theorem LockInv.step {s s' : Sys T} {a : Action T} {l : Label T} (hi : LockInv s)
    (h : s.step a = some (s', l)) : LockInv s' := by
  cases step_inv h with
  | @call t c ha hout =>
    intro u
    rw [entered_lock, hi u, entered_pc, entered_pid, entered_dead]
    by_cases hu : u = t
    · subst hu
      simp [Pc.start_locked, Pc.locked_of_outside hout]
    · simp [hu]
  | @tick t o ins pc' ha ht =>
    have hl := tick_lockStep ht
    intro u
    rw [after_lock, after_pc, after_pid, after_dead]
    have hut := hi u
    have htt := hi t
    by_cases hu : u = t
    · subst hu
      cases ins <;> simp_all [LockStep]
    · have hne : ¬ t = u := fun e => hu e.symm
      cases ins <;> simp_all [LockStep]
  | @die pid =>
    intro u
    have hut := hi u
    simp only [died]
    cases hl : s.lock with
    | none => simp_all [Function.update_apply]
    | some t =>
      by_cases hp : (s.threads t).pid = pid
      · by_cases hu : u = t
        · subst hu; simp_all
        · have hne : ¬ t = u := fun e => hu e.symm
          simp_all [Function.update_apply]
      · by_cases hu : u = t
        · subst hu; simp_all
        · have hne : ¬ t = u := fun e => hu e.symm
          simp_all [Function.update_apply]

end Sys

end Ntsync
