import Mathlib
import Ntsync.Lib.Lts
import Ntsync.Threads

namespace Ntsync

open Words

/-!
# The system of threads

Any number of threads of any number of processes run calls on one shared region.  A step of the
system (`Sys.step`) is one of: a thread enters a call; a thread inside a call performs its next
access to shared memory; a process dies.  The region lock excludes only other critical sections:
the lock-free accesses of other threads interleave with every step.

What the program reads from outside (the clock, the spin budget, the result of a futex sleep) is
an `Oracle` value given with each step.  Lock acquisitions succeed once the lock is free, and a
process that dies with the lock leaves it free for the next locker (a robust mutex).
-/

/-- What a step may read from the clock, the thread's spin credit and the kernel. -/
structure Oracle where
  /-- `monotonic_ns()` -/
  now : U64 := 0
  /-- `sweep_interval_ns()` -/
  interval : U64 := 0
  /-- the deadline has passed -/
  expired : Bool := false
  /-- `spin_budget()` -/
  spin : Nat := 0
  /-- the wait spins out its last stretch instead of parking -/
  tail : Bool := false
  /-- the errno of a futex sleep, 0 when woken -/
  errno : Nat := 0

variable {T : Type}

/-- Taking the region lock, if it is free. -/
def takeLock (sh : Shared T) (pc : Pc) : Option (Instr × Pc) :=
  match sh.lock with
  | none => some (.lock, pc)
  | some _ => none

/-! ### Signal operations -/

def opTick (sh : Shared T) (h : U32) (o : Op) : OpPc → Option (Instr × Pc)
  | .state =>
    if (sh.region.slots (handleIndex h)).state = .used then some (.silent, .op h o .gen)
    else some (.silent, .done (.op h o) (.op (.error .invalid)))
  | .gen =>
    if (sh.region.slots (handleIndex h)).generation = handleGen h then
      some (.silent, .op h o .typ)
    else some (.silent, .done (.op h o) (.op (.error .invalid)))
  | .typ =>
    if (sh.region.slots (handleIndex h)).objType = o.objType then
      some (.silent, .op h o (.loop none))
    else some (.silent, .done (.op h o) (.op (.error .invalid)))
  | .loop c =>
    match casStep (sh.region.slots (handleIndex h)).w0 o.pass c with
    | (none, .more c') => some (.silent, .op h o (.loop c'))
    | (none, .done (r, _)) => some (.silent, .done (.op h o) (.op r))
    | (some w, .more c') => some (.word h (handleIndex h) (.op o) w, .op h o (.loop c'))
    | (some w, .done (r, wake)) =>
      some (.word h (handleIndex h) (.op o) w,
        if wake then .op h o (.peek r) else .done (.op h o) (.op r))
  | .peek r =>
    if (sh.region.slots (handleIndex h)).waiterHead = none then
      some (.silent, .done (.op h o) (.op r))
    else some (.silent, .op h o (.lockWake r))
  | .lockWake r => takeLock sh (.op h o (.walk r .start))
  | .walk r w =>
    match w.step sh.region (handleIndex h) with
    | none => none
    | some (ins, .more w') => some (ins, .op h o (.walk r w'))
    | some (ins, .done ()) => some (ins, .op h o (.unlock r))
  | .unlock r => some (.unlock, .done (.op h o) (.op r))

def pulseTick (sh : Shared T) (h : U32) : PulsePc → Option (Instr × Pc)
  | .lock => takeLock sh (.pulse h .check)
  | .check =>
    match sh.region.slot h with
    | some i =>
      if (sh.region.slots i).objType = .event then some (.silent, .pulse h .load)
      else some (.silent, .pulse h (.unlock (.error .invalid)))
    | none => some (.silent, .pulse h (.unlock (.error .invalid)))
  | .load => some (.silent, .pulse h (.loadD (lo32 (sh.region.slots (handleIndex h)).w0)))
  | .loadD prev => some (.silent, .pulse h (.storeD prev (sh.region.slots (handleIndex h)).d))
  | .storeD prev d => some (.storeD (handleIndex h) (d + 1), .pulse h (.loadW prev))
  | .loadW prev => some (.silent, .pulse h (.storeW prev (sh.region.slots (handleIndex h)).w0))
  | .storeW prev w =>
    some (.word h (handleIndex h) .pulse (w &&& ~~~1), .pulse h (.walk prev .start))
  | .walk prev w =>
    match w.step sh.region (handleIndex h) with
    | none => none
    | some (ins, .more w') => some (ins, .pulse h (.walk prev w'))
    | some (ins, .done ()) => some (ins, .pulse h (.unlock (.ok (.num prev))))
  | .unlock r => some (.unlock, .done (.pulse h) (.op r))

/-! ### Waits -/

namespace WaitCtx

/-- Returning from the wait. -/
def ret (c : WaitCtx) (r : WaitOutcome) : Pc := .done (.wait c.toWaitArgs c.timeout) (.wait r)

/-- `n_nodes`: one node per handle, and one for the alert. -/
def nNodes (c : WaitCtx) : Nat := c.handles.length + if c.alert ≠ 0 then 1 else 0

/-- `nodes[k]`. -/
def node (c : WaitCtx) (k : Nat) : Nat := c.nodes.getD k 0

/-- The slot that `nodes[k]` is registered on. -/
def target (c : WaitCtx) (k : Nat) : Nat :=
  if k < c.handles.length then c.slotOf k else handleIndex c.alert

def setSeq (c : WaitCtx) (i : Nat) (d : U64) : WaitCtx :=
  { c with seqs := Function.update c.seqs i d }

/-- The wait's next step. -/
def goto (c : WaitCtx) (p : WaitPc) : Option (Instr × Pc) := some (.silent, .wait c p)

/-- The outcome of an alerted wait. -/
def alerted (c : WaitCtx) : WaitOutcome := .signaled c.handles.length false

/-- The fast path after position `i` was found valid. -/
def fastNext (c : WaitCtx) (i : Nat) : WaitPc :=
  if i + 1 < c.handles.length then .fast (.look (i + 1) .state)
  else if c.alert ≠ 0 then .fast (.alert .state)
  else .fast (.sat (.start c.all))

/-- The locked pass after the alert test. -/
def afterAlert (c : WaitCtx) : WaitPc := if c.nodes = [] then .pass .alloc else .pass (.register 0)

/-- The locked pass after position `i` was validated. -/
def validateNext (c : WaitCtx) (i : Nat) : WaitPc :=
  if i + 1 < c.handles.length then .pass (.validate (i + 1))
  else if c.alert ≠ 0 then .pass .validateAlert
  else c.afterAlert

/-- The first access of a spin round. -/
def spinFirst (c : WaitCtx) : SpinPc := if c.alert ≠ 0 then .alertState else .peek false 0 false

end WaitCtx

/-- The label of a store made by `try_satisfy`. -/
def SatWrite.instr (a : WaitArgs) : SatWrite → Instr
  | .acquire pos od new => .word (a.handle pos) (a.slotOf pos) (.acquire a.owner od) new
  | .rollback pos new => .word (a.handle pos) (a.slotOf pos) (.rollback a.owner) new

/-- The label of an access of `try_satisfy`. -/
def satInstr (a : WaitArgs) : Option SatWrite → Instr
  | none => .silent
  | some w => w.instr a

def fastTick (sh : Shared T) (c : WaitCtx) : FastPc → Option (Instr × Pc)
  | .look i .state =>
    if (sh.region.slots (c.slotOf i)).state = .used then c.goto (.fast (.look i .gen))
    else c.goto (.pass .lock)
  | .look i .gen =>
    if (sh.region.slots (c.slotOf i)).generation = handleGen (c.handle i) then
      c.goto (.fast (.look i .typ))
    else c.goto (.pass .lock)
  | .look i .typ =>
    match (sh.region.slots (c.slotOf i)).objType with
    | .event => c.goto (.fast (.seq i))
    | .sem | .mutex => (c.setSeq i 0).goto (c.fastNext i)
    | _ => c.goto (.pass .lock)
  | .seq i => (c.setSeq i (sh.region.slots (c.slotOf i)).d).goto (c.fastNext i)
  | .alert .state =>
    if (sh.region.slots (handleIndex c.alert)).state = .used then c.goto (.fast (.alert .gen))
    else c.goto (.pass .lock)
  | .alert .gen =>
    if (sh.region.slots (handleIndex c.alert)).generation = handleGen c.alert then
      c.goto (.fast (.alert .typ))
    else c.goto (.pass .lock)
  | .alert .typ =>
    if (sh.region.slots (handleIndex c.alert)).objType = .event then c.goto (.fast .unwrapState)
    else c.goto (.pass .lock)
  | .unwrapState =>
    if (sh.region.slots (handleIndex c.alert)).state = .used then c.goto (.fast .unwrapGen)
    else some (.silent, .panicked)
  | .unwrapGen =>
    if (sh.region.slots (handleIndex c.alert)).generation = handleGen c.alert then
      c.goto (.fast .word)
    else some (.silent, .panicked)
  | .word =>
    if lo32 (sh.region.slots (handleIndex c.alert)).w0 ≠ 0 then some (.silent, c.ret c.alerted)
    else c.goto (.fast (.sat (.start c.all)))
  | .sat p =>
    match p.step sh.region c.toWaitArgs c.seqs with
    | (w, .more p') => some (satInstr c.toWaitArgs w, .wait c (.fast (.sat p')))
    | (w, .done (some (i, od))) => some (satInstr c.toWaitArgs w, c.ret (.signaled i od))
    | (w, .done none) =>
      some (satInstr c.toWaitArgs w,
        if c.timeout = .zero then c.ret .timeout else .wait c (.pass .lock))

def passTick (o : Oracle) (sh : Shared T) (pid : U32) (c : WaitCtx) :
    PassPc → Option (Instr × Pc)
  | .lock => takeLock sh (.wait c (.pass (.validate 0)))
  | .validate i =>
    match sh.region.slot (c.handle i) with
    | none => c.goto (.clean .invalid (.detach c.nodes))
    | some j =>
      match (sh.region.slots j).objType with
      | .event =>
        -- the snapshot is taken on the first locked pass only
        (if c.nodes = [] then c.setSeq i (sh.region.slots j).d else c).goto (c.validateNext i)
      | .sem | .mutex => c.goto (c.validateNext i)
      | _ => c.goto (.clean .invalid (.detach c.nodes))
  | .validateAlert =>
    match sh.region.slot c.alert with
    | none => c.goto (.clean .invalid (.detach c.nodes))
    | some j =>
      if (sh.region.slots j).objType = .event then c.goto (.pass .alertTest)
      else c.goto (.clean .invalid (.detach c.nodes))
  | .alertTest =>
    match sh.region.slot c.alert with
    | none => some (.unlock, .panicked) -- unwinding drops the guard
    | some j =>
      if lo32 (sh.region.slots j).w0 ≠ 0 then c.goto (.clean c.alerted (.detach c.nodes))
      else c.goto c.afterAlert
  | .alloc =>
    match sh.region.nodeAlloc pid with
    | none => c.goto (.clean .invalid (.detach c.nodes))
    | some (n, _) =>
      let c' := { c with nodes := c.nodes ++ [n] }
      some (.allocNode,
        .wait c' (.pass (if c'.nodes.length < c'.nNodes then .alloc else .register 0)))
  | .register i =>
    let next : Pc := .wait c (.pass (if i + 1 < c.nNodes then .register (i + 1)
      else .sat (.start c.all)))
    if (sh.region.nodes (c.node i)).registered then some (.silent, next)
    else some (.register (c.node i) (c.target i) (c.node 0), next)
  | .sat p =>
    match p.step sh.region c.toWaitArgs c.seqs with
    | (w, .more p') => some (satInstr c.toWaitArgs w, .wait c (.pass (.sat p')))
    | (w, .done (some (i, od))) =>
      some (satInstr c.toWaitArgs w, .wait c (.clean (.signaled i od) (.detach c.nodes)))
    | (w, .done none) => some (satInstr c.toWaitArgs w, .wait c (.pass .sample))
  | .sample =>
    if c.timeout = .zero ∨ (c.timeout = .after ∧ o.expired) then
      c.goto (.clean .timeout (.detach c.nodes))
    else c.goto (.pass (.unlock (sh.region.nodes (c.node 0)).seq))
  | .unlock seq => some (.unlock, .wait c (.spinStart seq))

/-- The end of a spin round that did not win. -/
def spinNext (c : WaitCtx) (left : Nat) (seq : U32) : WaitPc :=
  if left ≤ 1 then .sweep seq false .gate else .spin (left - 1) seq c.spinFirst

def spinTick (sh : Shared T) (c : WaitCtx) (left : Nat) (seq : U32) :
    SpinPc → Option (Instr × Pc)
  | .alertState =>
    if (sh.region.slots (handleIndex c.alert)).state = .used then c.goto (.spin left seq .alertGen)
    else some (.silent, .panicked)
  | .alertGen =>
    if (sh.region.slots (handleIndex c.alert)).generation = handleGen c.alert then
      c.goto (.spin left seq .word)
    else some (.silent, .panicked)
  | .word =>
    if lo32 (sh.region.slots (handleIndex c.alert)).w0 ≠ 0 then c.goto (.clean c.alerted .lock)
    else c.goto (.spin left seq (.peek false 0 false))
  | .peek all i atD =>
    let s := sh.region.slots (c.slotOf i)
    if atD = false ∧ s.objType = .event ∧ lo32 s.w0 = 0 then c.goto (.spin left seq (.peek all i true))
    else
      let locked := if atD then decide (s.d ≠ c.seqs i) else isLocked s c.owner (c.seqs i)
      if locked then
        if all then
          if i + 1 < c.handles.length then c.goto (.spin left seq (.peek true (i + 1) false))
          else c.goto (.spin left seq (.sat (.start c.all)))
        else if c.all then c.goto (.spin left seq (.peek true 0 false))
        else c.goto (.spin left seq (.sat (.start c.all)))
      else if all = false ∧ i + 1 < c.handles.length then
        c.goto (.spin left seq (.peek false (i + 1) false))
      else c.goto (.spin left seq .registered)
  | .sat p =>
    match p.step sh.region c.toWaitArgs c.seqs with
    | (w, .more p') => some (satInstr c.toWaitArgs w, .wait c (.spin left seq (.sat p')))
    | (w, .done (some (i, od))) =>
      some (satInstr c.toWaitArgs w, .wait c (.clean (.signaled i od) .lock))
    | (w, .done none) => some (satInstr c.toWaitArgs w, .wait c (.spin left seq .registered))
  | .registered =>
    if (sh.region.nodes (c.node 0)).registered = false then c.goto (.sweep seq false .gate)
    else c.goto (spinNext c left seq)

/-- The sweep interval has not elapsed yet. -/
def sweepTooSoon (o : Oracle) (sh : Shared T) : Prop :=
  o.now.toNat - sh.region.sweepNs.toNat < o.interval.toNat

instance (o : Oracle) (sh : Shared T) : Decidable (sweepTooSoon o sh) :=
  inferInstanceAs (Decidable (_ < _))

def autoTick (o : Oracle) (sh : Shared T) (calls : U64) (c : WaitCtx) (seq : U32)
    (timedOut : Bool) : AutoPc → Option (Instr × Pc)
  | .gate =>
    if calls &&& 0xFF ≠ 0 ∨ o.interval = 0 ∨ sweepTooSoon o sh then
      some (.countCall, .wait c (finish timedOut))
    else some (.countCall, .wait c (.sweep seq timedOut .lock))
  | .lock => takeLock sh (.wait c (.sweep seq timedOut .recheck))
  | .recheck =>
    if sweepTooSoon o sh then c.goto (.sweep seq timedOut .unlock)
    else some (.claim o.now, .wait c (.sweep seq timedOut (.run (.chunk (.new sh.region)))))
  | .run p =>
    match p.step true sh with
    | none => none
    | some (ins, .more p') => some (ins, .wait c (.sweep seq timedOut (.run p')))
    | some (ins, .done _) => some (ins, .wait c (.sweep seq timedOut .unlock))
  | .unlock => some (.unlock, .wait c (finish timedOut))
where
  /-- Before the sleep the sweep leads into it, after a timed-out sleep to the detach phase. -/
  finish : Bool → WaitPc
    | false => .sleep seq .choose
    | true => .detach (.peek 0)

def etimedout : Int := 110
def eagain : Nat := 11

/-- `futex_wait` returns 0 or the negated errno. -/
def futexRet (errno : Nat) : Int := if errno = 0 then 0 else -(errno : Int)

/-- The `match` on the result of the futex sleep. -/
def afterFutex (seq : U32) (ret : Int) : WaitPc :=
  if ret = etimedout then .sweep seq true .gate else .detach (.peek 0)

def sleepTick (o : Oracle) (sh : Shared T) (c : WaitCtx) (seq : U32) :
    SleepPc → Option (Instr × Pc)
  | .choose =>
    if o.tail ∧ c.timeout ≠ .never then c.goto (.sleep seq .tail) else c.goto (.sleep seq .park)
  | .park =>
    if (sh.region.nodes (c.node 0)).seq = seq then c.goto (.sleep seq .parked)
    else c.goto (afterFutex seq (futexRet eagain))
  | .parked => c.goto (afterFutex seq (futexRet o.errno))
  | .tail =>
    if (sh.region.nodes (c.node 0)).seq ≠ seq ∨ o.expired then c.goto (.pass .lock)
    else c.goto (.sleep seq .tail)

/-- Detaching one node of the waiter. -/
def detachInstr (sh : Shared T) (n : Nat) : Instr :=
  if (sh.region.nodes n).registered then .detach n else .silent

def detachTick (sh : Shared T) (c : WaitCtx) : DetachPc → Option (Instr × Pc)
  | .peek k =>
    if (sh.region.nodes (c.node k)).registered then c.goto (.detach .lock)
    else if k + 1 < c.nodes.length then c.goto (.detach (.peek (k + 1)))
    else c.goto (.pass .lock)
  | .lock => takeLock sh (.wait c (.detach (.detach 0)))
  | .detach k =>
    some (detachInstr sh (c.node k),
      .wait c (.detach (if k + 1 < c.nodes.length then .detach (k + 1) else .unlock)))
  | .unlock => some (.unlock, .wait c (.pass .lock))

def cleanTick (sh : Shared T) (c : WaitCtx) (r : WaitOutcome) : CleanPc → Option (Instr × Pc)
  | .lock => takeLock sh (.wait c (.clean r (.detach c.nodes)))
  | .detach [] => c.goto (.clean r (.free c.nodes))
  | .detach (n :: todo) => some (detachInstr sh n, .wait c (.clean r (.detach todo)))
  | .free [] => c.goto (.clean r .unlock)
  | .free (n :: todo) => some (.freeNode n, .wait c (.clean r (.free todo)))
  | .unlock => some (.unlock, c.ret r)

def waitTick (o : Oracle) (sh : Shared T) (pid : U32) (calls : U64) (c : WaitCtx) :
    WaitPc → Option (Instr × Pc)
  | .fast p => fastTick sh c p
  | .pass p => passTick o sh pid c p
  | .spinStart seq =>
    if o.spin = 0 then c.goto (.sweep seq false .gate) else c.goto (.spin o.spin seq c.spinFirst)
  | .spin left seq p => spinTick sh c left seq p
  | .sweep seq timedOut p => autoTick o sh calls c seq timedOut p
  | .sleep seq p => sleepTick o sh c seq p
  | .detach p => detachTick sh c p
  | .clean r p => cleanTick sh c r p

/-! ### Table operations -/

def enomem : Int := 12

def createTick (sh : Shared T) (pid : U32) (k : Create) : CreatePc → Option (Instr × Pc)
  | .lock => takeLock sh (.create k (.alloc false))
  | .alloc retry =>
    match sh.region.freeSlot with
    | some i =>
      some (.takeSlot i, .create k (.write (mkHandle (sh.region.slots i).generation i)
        (slotPublish k.objType k.word pid)))
    | none =>
      if retry then some (.silent, .create k (.unlock (.error (.init enomem))))
      else some (.silent, .create k (.sweep (.chunk (.new sh.region))))
  | .sweep p =>
    match p.step false sh with
    | none => none
    | some (ins, .more p') => some (ins, .create k (.sweep p'))
    | some (ins, .done freed) =>
      some (ins, .create k (if 0 < freed then .alloc true else .unlock (.error (.init enomem))))
  | .write h [] => some (.silent, .create k (.unlock (.ok h)))
  | .write h (w :: ws) => some (.store (handleIndex h) w, .create k (.write h ws))
  | .unlock r => some (.unlock, .done (.create k) (.handle r))

def closeTick (sh : Shared T) (pid : U32) (h : U32) : ClosePc → Option (Instr × Pc)
  | .lock => takeLock sh (.close h .check)
  | .check =>
    match sh.region.slot h with
    | none => some (.silent, .close h (.unlock false))
    | some i =>
      some (.silent, .close h (.write ((sh.region.slots i).holderRemove pid)))
  | .write [] => some (.silent, .close h .free)
  | .write (w :: ws) => some (.store (handleIndex h) w, .close h (.write ws))
  | .free => some (.store (handleIndex h) (.state .free), .close h .gen)
  | .gen =>
    some (.store (handleIndex h) (.generation ((sh.region.slots (handleIndex h)).generation + 1)),
      .close h (.walk .start))
  | .walk w =>
    match w.step sh.region (handleIndex h) with
    | none => none
    | some (ins, .more w') => some (ins, .close h (.walk w'))
    | some (ins, .done ()) => some (ins, .close h (.unlock true))
  | .unlock r => some (.unlock, .done (.close h) (.bool r))

def holdTick (sh : Shared T) (pid : U32) (add : Bool) (h : U32) : HoldPc → Option (Instr × Pc)
  | .lock => takeLock sh (.hold add h .check)
  | .check =>
    match sh.region.slot h with
    | none => some (.silent, .hold add h (.unlock (.error .invalid)))
    | some i =>
      if add then some (.silent, .hold add h (.write ((sh.region.slots i).holderAdd pid)))
      else some (.silent, .hold add h (.mark ((sh.region.slots i).holderRemove pid)))
  | .write [] =>
    some (.silent, .hold add h (if add then .mark [] else .unlock (.ok ())))
  | .write (w :: ws) => some (.store (handleIndex h) w, .hold add h (.write ws))
  | .mark ws =>
    some (.hold add (handleIndex h), .hold add h (if add then .unlock (.ok ()) else .write ws))
  | .unlock r => some (.unlock, .done (.hold add h) (.unit r))

def sweepDeadTick (sh : Shared T) : SweepCallPc → Option (Instr × Pc)
  | .lock => takeLock sh (.sweepDead (.run (.chunk (.new sh.region))))
  | .run p =>
    match p.step false sh with
    | none => none
    | some (ins, .more p') => some (ins, .sweepDead (.run p'))
    | some (ins, .done freed) => some (ins, .sweepDead (.unlock freed))
  | .unlock freed => some (.unlock, .done .sweepDead (.num freed))

/-- The next step of a thread of process `pid` inside a call. -/
def tick (o : Oracle) (sh : Shared T) (pid : U32) (calls : U64) : Pc → Option (Instr × Pc)
  | .idle | .done _ _ | .panicked => none
  | .op h op p => opTick sh h op p
  | .pulse h p => pulseTick sh h p
  | .wait c p => waitTick o sh pid calls c p
  | .create k p => createTick sh pid k p
  | .close h p => closeTick sh pid h p
  | .hold add h p => holdTick sh pid add h p
  | .sweepDead p => sweepDeadTick sh p

/-! ### The system -/

/-- A thread: its process, the thread-local sweep gate, and where it is. -/
structure Thread where
  pid : U32
  calls : U64
  pc : Pc

structure Sys (T : Type) extends Shared T where
  threads : T → Thread

/-- The effect of an instruction of thread `t` of process `pid` on shared memory. -/
def Instr.apply (t : T) (pid : U32) (sh : Shared T) : Instr → Shared T
  | .silent | .hold _ _ | .countCall => sh
  | .lock => { sh with lock := some t }
  | .unlock => { sh with lock := none }
  | .word _ i _ new => { sh with region := sh.region.setSlot i fun s => { s with w0 := new } }
  | .storeD i v => { sh with region := sh.region.setSlot i fun s => { s with d := v } }
  | .allocNode =>
    match sh.region.nodeAlloc pid with
    | some (_, r) => { sh with region := r }
    | none => sh
  | .register n i head => { sh with region := sh.region.nodeRegister n i head }
  | .detach n => { sh with region := sh.region.nodeDetach n }
  | .freeNode n => { sh with region := sh.region.nodeFree n }
  | .bump n => { sh with region := sh.region.bumpSeq n }
  | .takeSlot i => { sh with region := sh.region.takeSlot i }
  | .store i w => { sh with region := sh.region.setSlot i w.apply }
  | .reap i => { sh with region := sh.region.setSlot i fun s => { s with state := .free } }
  | .claim now => { sh with region := { sh.region with sweepNs := now } }

/-- The effect of an instruction on the thread-local sweep gate. -/
def Instr.countCalls (calls : U64) : Instr → U64
  | .countCall => calls + 1
  | _ => calls

inductive Action (T : Type) where
  /-- thread `t` enters a call -/
  | call (t : T) (c : Call)
  /-- thread `t` performs its next access -/
  | tick (t : T) (o : Oracle)
  /-- process `pid` dies -/
  | die (pid : U32)

/-- What a step did, with the acting thread and its process. -/
inductive Label (T : Type) where
  | call (t : T) (c : Call)
  | instr (t : T) (pid : U32) (i : Instr)
  | die (pid : U32)

namespace Sys

variable [DecidableEq T]

/-- **The step function of the system.** -/
def step (s : Sys T) : Action T → Option (Sys T × Label T)
  | .call t c =>
    let th := s.threads t
    if s.dead th.pid = false ∧ th.pc.outside = true then
      some ({ s with threads := Function.update s.threads t { th with pc := .start c } }, .call t c)
    else none
  | .tick t o =>
    let th := s.threads t
    if s.dead th.pid then none
    else match tick o s.toShared th.pid th.calls th.pc with
      | none => none
      | some (ins, pc) =>
        some ({ toShared := ins.apply t th.pid s.toShared,
                threads := Function.update s.threads t
                  { th with calls := ins.countCalls th.calls, pc := pc } },
              .instr t th.pid ins)
  | .die pid =>
    some ({ s with
      dead := Function.update s.dead pid true
      lock := match s.lock with
        | some t => if (s.threads t).pid = pid then none else some t
        | none => none }, .die pid)

end Sys

/-- The step enters only calls that `p` allows, and nobody dies. -/
def Only (p : T → Call → Prop) : Label T → Prop
  | .call t c => p t c
  | .instr _ _ _ => True
  | .die _ => False

instance (p : T → Call → Prop) [∀ t c, Decidable (p t c)] :
    (l : Label T) → Decidable (Only p l)
  | .call t c => inferInstanceAs (Decidable (p t c))
  | .instr _ _ _ => inferInstanceAs (Decidable True)
  | .die _ => inferInstanceAs (Decidable False)

/-- The system at rest on a region: no call under way, nobody dead. -/
def Sys.rest (r : Region) (pid : T → U32) : Sys T where
  region := r
  lock := none
  dead := fun _ => false
  threads := fun t => { pid := pid t, calls := 0, pc := .idle }

/-- The region after process `pid` created `k` in slot `i`. -/
def Region.created (r : Region) (i : Nat) (k : Create) (pid : U32) : Region :=
  (r.takeSlot i).setSlot i fun s =>
    (slotPublish k.objType k.word pid).foldl (fun s w => w.apply s) s

end Ntsync
