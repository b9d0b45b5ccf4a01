import Mathlib
import Ntsync.Objects
import Ntsync.Sweep

namespace Ntsync

open Words

/-!
# Where a thread is inside a call

The exported functions of `core.rs` as state machines.  A thread inside a call is at a program
counter (`Pc`); one step performs the next access to shared memory in program order and moves on.
The types below follow the source's functions: `OpPc` the lock-free signal and read operations,
`PulsePc` `event_pulse`, `WaitPc` the phases of `wait`, `CreatePc`, `ClosePc` and `HoldPc` the
table operations, `SweepPc` a sweep.  `Walk` is `wake_object`, which most of them run.

An `Instr` is the effect of one step on shared memory; it is also the label of the step.
-/

/-! ### Instructions -/

/-- Which operation stores a new state word. -/
inductive Tag where
  | op (o : Op)
  | pulse
  | acquire (owner : U32) (ownerDead : Bool)
  | rollback (owner : U32)
  deriving DecidableEq, Repr

/-- The effect of one step. -/
inductive Instr where
  /-- a load, a failed swap, or a step on local state -/
  | silent
  | lock
  | unlock
  /-- a successful swap (or a pulse's store) on the word of slot `i`, on behalf of handle `h` -/
  | word (h : U32) (i : Nat) (tag : Tag) (new : U64)
  /-- a pulse's store to the pulse counter -/
  | storeD (i : Nat) (v : U64)
  | allocNode
  | register (n i head : Nat)
  | detach (n : Nat)
  | freeNode (n : Nat)
  | bump (n : Nat)
  | takeSlot (i : Nat)
  | store (i : Nat) (w : SlotWrite)
  /-- `reap_dead_locked` marks slot `i` free -/
  | reap (i : Nat)
  /-- a `retain` of slot `i` has been recorded (`true`), a `release` of it begins (`false`) -/
  | hold (add : Bool) (i : Nat)
  /-- a sweep claims its interval -/
  | claim (now : U64)
  /-- the thread-local call counter of `auto_sweep_dead` -/
  | countCall

/-! ### Sub-machines under the region lock -/

/-- `wake_object`: before loading the list head, at a node to detach (`none`: the end), or before
    bumping the futex word of the detached node's waiter. -/
inductive Walk where
  | start
  | node (idx : Option Nat)
  | bump (word next : Option Nat)
  deriving DecidableEq, Repr

/-- One step of the wake walk over slot `i`.  A `NIL` wait word would be dereferenced outside the
    pool; there the walk is stuck. -/
def Walk.step (r : Region) (i : Nat) : Walk → Option (Instr × Out Walk Unit)
  | .start => some (.silent, .more (.node (r.slots i).waiterHead))
  | .node none => some (.silent, .done ())
  | .node (some n) => some (.detach n, .more (.bump (r.nodes n).waitWord (r.nodes n).objNext))
  | .bump (some w) next => some (.bump w, .more (.node next))
  | .bump none _ => none

/-- The cursor, the verdict memo and the count of a sweep. -/
structure SweepSt where
  scan : SweepScan
  cache : PidCache
  freed : Nat

def SweepSt.new (r : Region) : SweepSt where
  scan := .new r
  cache := .new
  freed := 0

/-- A sweep, holding the region lock on entry and on exit: collect a chunk; (automatic sweeps drop
    the lock;) probe the candidates' pids one by one; (take the lock again;) reap what was judged
    dead. -/
inductive SweepPc where
  | chunk (st : SweepSt)
  | drop (st : SweepSt) (cands : List DeadCand)
  | probe (st : SweepSt) (judged : List (DeadCand × Bool)) (c : DeadCand) (pids : List U32)
      (rest : List DeadCand)
  | relock (st : SweepSt) (judged : List (DeadCand × Bool))
  | reap (st : SweepSt) (judged : List (DeadCand × Bool))
  | reapFree (st : SweepSt) (n : Nat) (judged : List (DeadCand × Bool))
  | reapGen (st : SweepSt) (i : Nat) (judged : List (DeadCand × Bool))
  | reapWalk (st : SweepSt) (i : Nat) (w : Walk) (judged : List (DeadCand × Bool))

/-- The memory all processes share: the region, the robust lock, and which pids are dead. -/
structure Shared (T : Type) where
  region : Region
  lock : Option T
  dead : U32 → Bool

/-- Probing goes on with the next candidate, or (all judged) to the reap. -/
def SweepPc.judge (auto : Bool) (st : SweepSt) (judged : List (DeadCand × Bool)) :
    List DeadCand → SweepPc
  | [] => if auto then .relock st judged else .reap st judged
  | c :: rest => .probe st judged c c.pids rest

variable {T : Type}

/-- One step of a sweep; the result is the number of freed objects. -/
def SweepPc.step (auto : Bool) (sh : Shared T) : SweepPc → Option (Instr × Out SweepPc Nat)
  | .chunk st =>
    match st.scan.nextChunk sh.region with
    | (_, []) => some (.silent, .done st.freed)
    | (scan, c :: cands) =>
      let st' := { st with scan := scan }
      if auto then some (.silent, .more (.drop st' (c :: cands)))
      else some (.silent, .more (.judge auto st' [] (c :: cands)))
  | .drop st cands => if auto then some (.unlock, .more (.judge true st [] cands)) else none
  | .probe st judged c [] rest => some (.silent, .more (.judge auto st (judged ++ [(c, false)]) rest))
  | .probe st judged c (p :: pids) rest =>
    match st.cache.probe sh.dead p with
    | (true, cache) =>
      some (.silent, .more (.judge auto { st with cache := cache } (judged ++ [(c, true)]) rest))
    | (false, cache) => some (.silent, .more (.probe { st with cache := cache } judged c pids rest))
  | .relock st judged =>
    match sh.lock with
    | none => some (.lock, .more (.reap st judged))
    | some _ => none
  | .reap st [] => some (.silent, .more (.chunk st))
  | .reap st ((c, alive) :: judged) =>
    if alive then some (.silent, .more (.reap st judged))
    else if c.node then
      if c.nodeStands sh.region then some (.detach c.index, .more (.reapFree st c.index judged))
      else some (.silent, .more (.reap st judged))
    else if c.slotStands sh.region then some (.reap c.index, .more (.reapGen st c.index judged))
    else some (.silent, .more (.reap st judged))
  | .reapFree st n judged => some (.freeNode n, .more (.reap st judged))
  | .reapGen st i judged =>
    some (.store i (.generation ((sh.region.slots i).generation + 1)),
      .more (.reapWalk st i .start judged))
  | .reapWalk st i w judged =>
    match w.step sh.region i with
    | none => none
    | some (ins, .more w') => some (ins, .more (.reapWalk st i w' judged))
    | some (ins, .done ()) => some (ins, .more (.reap { st with freed := st.freed + 1 } judged))

/-! ### Signal operations -/

/-- A lock-free operation: the loads of `Region::slot` and of the type, the loop, and then
    `wake_waiters_if_any` before returning `r`. -/
inductive OpPc where
  | state
  | gen
  | typ
  | loop (c : Option U64)
  | peek (r : OpRet)
  | lockWake (r : OpRet)
  | walk (r : OpRet) (w : Walk)
  | unlock (r : OpRet)

/-- `event_pulse`. -/
inductive PulsePc where
  | lock
  | check
  | load
  | loadD (prev : U32)
  | storeD (prev : U32) (d : U64)
  | loadW (prev : U32)
  | storeW (prev : U32) (w : U64)
  | walk (prev : U32) (w : Walk)
  | unlock (r : OpRet)

/-! ### Waits -/

/-- Only three kinds of timeout can be told apart without a clock. -/
inductive Timeout where
  | never
  | zero
  | after
  deriving DecidableEq, Repr

inductive WaitOutcome where
  | signaled (index : Nat) (ownerDead : Bool)
  | timeout
  | invalid
  deriving DecidableEq, Repr

/-- A running wait: its arguments, the `entry_seqs` snapshot and the allocated nodes. -/
structure WaitCtx extends WaitArgs where
  timeout : Timeout
  seqs : Nat → U64
  nodes : List Nat

/-- The loads of a validated lookup. -/
inductive Look where
  | state
  | gen
  | typ
  deriving DecidableEq, Repr

/-- The lock-free fast path. -/
inductive FastPc where
  | look (i : Nat) (l : Look)
  | seq (i : Nat)
  | alert (l : Look)
  | unwrapState
  | unwrapGen
  | word
  | sat (p : Sat)

/-- One pass of the locked section. -/
inductive PassPc where
  | lock
  | validate (i : Nat)
  | validateAlert
  | alertTest
  | alloc
  | register (i : Nat)
  | sat (p : Sat)
  | sample
  | unlock (seq : U32)

/-- One round of the pre-sleep spin. -/
inductive SpinPc where
  | alertState
  | alertGen
  | word
  | peek (all : Bool) (i : Nat) (atD : Bool)
  | sat (p : Sat)
  | registered

/-- `auto_sweep_dead`. -/
inductive AutoPc where
  | gate
  | lock
  | recheck
  | run (p : SweepPc)
  | unlock

/-- The futex sleep, or the spin tail in its place. -/
inductive SleepPc where
  | choose
  | park
  | parked
  | tail

/-- After the sleep: detach the nodes that are still registered. -/
inductive DetachPc where
  | peek (k : Nat)
  | lock
  | detach (k : Nat)
  | unlock

/-- `waiter_cleanup` on the way out. -/
inductive CleanPc where
  | lock
  | detach (todo : List Nat)
  | free (todo : List Nat)
  | unlock

inductive WaitPc where
  | fast (p : FastPc)
  | pass (p : PassPc)
  | spinStart (seq : U32)
  | spin (left : Nat) (seq : U32) (p : SpinPc)
  | sweep (seq : U32) (timedOut : Bool) (p : AutoPc)
  | sleep (seq : U32) (p : SleepPc)
  | detach (p : DetachPc)
  | clean (r : WaitOutcome) (p : CleanPc)

/-! ### Table operations -/

/-- The three kinds of `create_*`. -/
inductive Create where
  | sem (count max : U32)
  | mutex (owner count : U32)
  | event (manual signaled : Bool)
  deriving DecidableEq, Repr

/-- `create_*`: `alloc_slot_or_sweep` and the stores of `slot_publish`. -/
inductive CreatePc where
  | lock
  | alloc (retry : Bool)
  | sweep (p : SweepPc)
  | write (h : U32) (ws : List SlotWrite)
  | unlock (r : Except Err U32)

/-- `close`: drop the holder entry, mark the slot free, bump its generation, wake its waiters. -/
inductive ClosePc where
  | lock
  | check
  | write (ws : List SlotWrite)
  | free
  | gen
  | walk (w : Walk)
  | unlock (r : Bool)

/-- `retain` and `release`. -/
inductive HoldPc where
  | lock
  | check
  | write (ws : List SlotWrite)
  | mark (ws : List SlotWrite)
  | unlock (r : Except Err Unit)

/-- `sweep_dead`. -/
inductive SweepCallPc where
  | lock
  | run (p : SweepPc)
  | unlock (freed : Nat)

/-! ### Calls -/

inductive Call where
  | op (h : U32) (o : Op)
  | pulse (h : U32)
  | wait (a : WaitArgs) (timeout : Timeout)
  | create (k : Create)
  | close (h : U32)
  | hold (add : Bool) (h : U32)
  | sweepDead

inductive Ret where
  | op (r : OpRet)
  | wait (r : WaitOutcome)
  | handle (r : Except Err U32)
  | bool (r : Bool)
  | unit (r : Except Err Unit)
  | num (n : Nat)

/-- Where a thread is: outside, back from a call, aborted by a panic, or inside a call. -/
inductive Pc where
  | idle
  | done (c : Call) (r : Ret)
  | panicked
  | op (h : U32) (o : Op) (p : OpPc)
  | pulse (h : U32) (p : PulsePc)
  | wait (c : WaitCtx) (p : WaitPc)
  | create (k : Create) (p : CreatePc)
  | close (h : U32) (p : ClosePc)
  | hold (add : Bool) (h : U32) (p : HoldPc)
  | sweepDead (p : SweepCallPc)

/-- The argument check of `create_*`. -/
def Create.valid : Create → Bool
  | .sem count max => decide (count.toNat ≤ max.toNat)
  | .mutex owner count =>
    decide ((owner = 0) = (count = 0)) && decide (count.toNat ≤ maxRecursion.toNat)
  | .event _ _ => true

def Create.objType : Create → ObjType
  | .sem _ _ => .sem
  | .mutex _ _ => .mutex
  | .event _ _ => .event

def Create.word : Create → U64
  | .sem count max => packSem count max
  | .mutex owner count => packMutex owner count false
  | .event manual signaled => packEvent signaled manual

/-- `owner == 0` is rejected before any access by `mutex_unlock` and `mutex_kill`. -/
def Op.valid : Op → Bool
  | .mutexUnlock owner | .mutexKill owner => decide (owner ≠ 0)
  | _ => true

/-- The argument checks of `wait`: an owner, 1 to 64 handles, no duplicate handle. -/
def WaitArgs.valid (a : WaitArgs) : Bool :=
  decide (a.owner ≠ 0) && decide (a.handles ≠ []) && decide (a.handles.length ≤ maxWaitCount) &&
    decide a.handles.Nodup

/-- Outside any call. -/
def Pc.outside : Pc → Bool
  | .idle | .done _ _ => true
  | _ => false

/-- Entering a call, up to its first access to shared memory. -/
def Pc.start : Call → Pc
  | .op h o => if o.valid then .op h o .state else .done (.op h o) (.op (.error .invalid))
  | .pulse h => .pulse h .lock
  | .wait a timeout =>
    if a.valid then
      .wait { a with timeout := timeout, seqs := fun _ => 0, nodes := [] } (.fast (.look 0 .state))
    else .done (.wait a timeout) (.wait .invalid)
  | .create k =>
    if k.valid then .create k .lock else .done (.create k) (.handle (.error .invalid))
  | .close h => if handleIndex h = 0 then .done (.close h) (.bool false) else .close h .lock
  | .hold add h =>
    if handleIndex h = 0 then .done (.hold add h) (.unit (.error .invalid)) else .hold add h .lock
  | .sweepDead => .sweepDead .lock

end Ntsync
