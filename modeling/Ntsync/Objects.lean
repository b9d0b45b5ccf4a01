import Mathlib
import Ntsync.Region

namespace Ntsync

open Words

/-!
# Operations on an object's state word

Every lock-free operation of `core.rs` on an object is a compare-and-swap loop: load the word,
decide, and either return or try to swap in a new word.  `Pass` is one such decision, `casStep`
the loop around it; `sem_release`, `event_set`, `event_reset`, `mutex_unlock`, `mutex_kill`, the
`read_*` functions, `try_acquire` and `rollback_acquire` are given by their passes.

A sub-machine (`Acq`, `Undo`, `Sat`) is the local state of one of the source's functions between
two of its accesses to shared memory; its step function performs the next access and says whether
the function goes on (`Out.more`) or returns (`Out.done`).
-/

/-- A function that is still running in the local state `s`, or has returned `a`. -/
inductive Out (σ α : Type) where
  | more (s : σ)
  | done (a : α)

/-- What one pass of a compare-and-swap loop decides about the loaded word. -/
inductive Pass (α : Type) where
  | ret (a : α)
  | cas (new : U64) (a : α)

/-- One access of a compare-and-swap loop: with `none` it loads the word and decides, with
    `some w` it tries to swap.  The first component is the word it stored, if any. -/
def casStep {α : Type} (w0 : U64) (body : U64 → Pass α) :
    Option U64 → Option U64 × Out (Option U64) α
  | none =>
    match body w0 with
    | .ret a => (none, .done a)
    | .cas _ _ => (none, .more (some w0))
  | some w =>
    if w0 = w then
      match body w with
      | .cas new a => (some new, .done a)
      | .ret _ => (none, .more none)
    else (none, .more none)

/-! ### Signal and read operations -/

inductive Err where
  | invalid
  | perm
  | overflow
  | init (errno : Int)
  deriving DecidableEq, Repr

/-- The values the object operations return. -/
inductive Val where
  | unit
  | num (n : U32)
  | sem (count max : U32)
  | mutex (count owner : U32) (ownerDead : Bool)
  | event (manual signaled : Bool)
  deriving DecidableEq, Repr

abbrev OpRet := Except Err Val

/-- The lock-free operations on one object. -/
inductive Op where
  | semRelease (count : U32)
  | eventSet
  | eventReset
  | mutexUnlock (owner : U32)
  | mutexKill (owner : U32)
  | readSem
  | readMutex
  | readEvent
  deriving DecidableEq, Repr

/-- The object type an operation insists on. -/
def Op.objType : Op → ObjType
  | .semRelease _ | .readSem => .sem
  | .mutexUnlock _ | .mutexKill _ | .readMutex => .mutex
  | .eventSet | .eventReset | .readEvent => .event

/-- `sem_release`.  The flag of a pass says whether the waiters are woken after the swap. -/
def semRelease (count : U32) (w : U64) : Pass (OpRet × Bool) :=
  let cur := lo32 w
  let max := hi32 w
  -- `checked_add(count).filter(|s| s <= max)`
  if cur.toNat + count.toNat < 2 ^ 32 ∧ (cur + count).toNat ≤ max.toNat then
    .cas (packSem (cur + count) max) (.ok (.num cur), true)
  else .ret (.error .overflow, false)

/-- `event_set`. -/
def eventSet (w : U64) : Pass (OpRet × Bool) :=
  if lo32 w ≠ 0 then .ret (.ok (.num (lo32 w)), false)
  else .cas (w ||| 1) (.ok (.num 0), true)

/-- `event_reset`. -/
def eventReset (w : U64) : Pass (OpRet × Bool) :=
  if lo32 w = 0 then .ret (.ok (.num 0), false)
  else .cas (w &&& ~~~1) (.ok (.num (lo32 w)), false)

/-- `mutex_unlock` (the count wraps as a release build's `u32` does). -/
def mutexUnlock (owner : U32) (w : U64) : Pass (OpRet × Bool) :=
  let count := mutexCount w
  if lo32 w ≠ owner then .ret (.error .perm, false)
  else
    let freed := decide (count = 1)
    .cas (packMutex (if freed then 0 else owner) (count - 1) (mutexDead w)) (.ok (.num count), freed)

/-- `mutex_kill`. -/
def mutexKill (owner : U32) (w : U64) : Pass (OpRet × Bool) :=
  if lo32 w ≠ owner then .ret (.error .perm, false)
  else .cas (packMutex 0 0 true) (.ok .unit, true)

/-- One pass of an operation's loop; the reads return after one load. -/
def Op.pass : Op → U64 → Pass (OpRet × Bool)
  | .semRelease count, w => Ntsync.semRelease count w
  | .eventSet, w => Ntsync.eventSet w
  | .eventReset, w => Ntsync.eventReset w
  | .mutexUnlock owner, w => Ntsync.mutexUnlock owner w
  | .mutexKill owner, w => Ntsync.mutexKill owner w
  | .readSem, w => .ret (.ok (.sem (lo32 w) (hi32 w)), false)
  | .readMutex, w => .ret (.ok (.mutex (mutexCount w) (lo32 w) (mutexDead w)), false)
  | .readEvent, w => .ret (.ok (.event (decide (w >>> 32 ≠ 0)) (decide (lo32 w ≠ 0))), false)

/-! ### Acquiring and giving back -/

/-- `is_locked`: whether the object could be acquired, given the wait's owner and its snapshot of
    the pulse counter. -/
def isLocked (s : Slot) (owner : U32) (entrySeq : U64) : Bool :=
  match s.objType with
  | .sem => decide (0 < (lo32 s.w0).toNat)
  | .mutex =>
    (decide (lo32 s.w0 = 0) || decide (lo32 s.w0 = owner)) &&
      decide ((mutexCount s.w0).toNat < maxRecursion.toNat)
  | .event => decide (lo32 s.w0 ≠ 0) || decide (s.d ≠ entrySeq)
  | _ => false

/-- `try_acquire`, semaphore loop. -/
def acquireSem (w : U64) : Pass (Option Bool) :=
  if lo32 w = 0 then .ret none else .cas (packSem (lo32 w - 1) (hi32 w)) (some false)

/-- `try_acquire`, mutex loop. -/
def acquireMutex (owner : U32) (w : U64) : Pass (Option Bool) :=
  let count := mutexCount w
  if maxRecursion.toNat ≤ count.toNat then .ret none
  else if lo32 w = 0 then .cas (packMutex owner (count + 1) false) (some (mutexDead w))
  else if lo32 w = owner then .cas (packMutex owner (count + 1) (mutexDead w)) (some false)
  else .ret none

/-- `try_acquire`, auto-reset claim; `none` is the `break` to the pulse check. -/
def acquireAuto (w : U64) : Pass (Option Bool) :=
  if lo32 w = 0 then .ret none else .cas (w &&& ~~~1) (some false)

/-- Where `try_acquire` is: before reading `obj_type`, in one of its loops (before a load, or
    before the swap of a loaded word), before an event's first load, before the pulse check. -/
inductive Acq where
  | typ
  | sem (c : Option U64)
  | mutex (c : Option U64)
  | event
  | auto (c : Option U64)
  | pulse
  deriving DecidableEq, Repr

/-- One access of `try_acquire` to the slot: the word it stored, if any, and how it goes on.  The
    result is `some ownerDead` on success. -/
def Acq.step (s : Slot) (owner : U32) (entrySeq : U64) :
    Acq → Option U64 × Out Acq (Option Bool)
  | .typ =>
    match s.objType with
    | .sem => (none, .more (.sem none))
    | .mutex => (none, .more (.mutex none))
    | .event => (none, .more .event)
    | _ => (none, .done none)
  | .sem c =>
    match casStep s.w0 acquireSem c with
    | (w, .more c') => (w, .more (.sem c'))
    | (w, .done a) => (w, .done a)
  | .mutex c =>
    match casStep s.w0 (acquireMutex owner) c with
    | (w, .more c') => (w, .more (.mutex c'))
    | (w, .done a) => (w, .done a)
  | .event =>
    if lo32 s.w0 ≠ 0 then
      if s.w0 >>> 32 = 0 then (none, .more (.auto none)) else (none, .done (some false))
    else (none, .more .pulse)
  | .auto c =>
    match casStep s.w0 acquireAuto c with
    | (w, .more c') => (w, .more (.auto c'))
    | (w, .done (some od)) => (w, .done (some od))
    | (w, .done none) => (w, .more .pulse)
  | .pulse => (none, .done (if s.d ≠ entrySeq then some false else none))

/-- `rollback_acquire`, semaphore loop. -/
def rollbackSem (w : U64) : Pass Unit := .cas (packSem (lo32 w + 1) (hi32 w)) ()

/-- `rollback_acquire`, mutex loop. -/
def rollbackMutex (owner : U32) (ownerDeadWas : Bool) (w : U64) : Pass Unit :=
  let count := mutexCount w
  if count = 1 then .cas (packMutex 0 0 ownerDeadWas) ()
  else .cas (packMutex owner (count - 1) (mutexDead w)) ()

/-- `rollback_acquire`, event loop. -/
def rollbackEvent (w : U64) : Pass Unit :=
  if w >>> 32 = 0 ∧ lo32 w = 0 then .cas (w ||| 1) () else .ret ()

/-- Where `rollback_acquire` is. -/
inductive Undo where
  | typ
  | sem (c : Option U64)
  | mutex (c : Option U64)
  | event (c : Option U64)
  deriving DecidableEq, Repr

/-- One access of `rollback_acquire`. -/
def Undo.step (s : Slot) (owner : U32) (ownerDeadWas : Bool) : Undo → Option U64 × Out Undo Unit
  | .typ =>
    match s.objType with
    | .sem => (none, .more (.sem none))
    | .mutex => (none, .more (.mutex none))
    | .event => (none, .more (.event none))
    | _ => (none, .done ())
  | .sem c =>
    match casStep s.w0 rollbackSem c with
    | (w, .more c') => (w, .more (.sem c'))
    | (w, .done a) => (w, .done a)
  | .mutex c =>
    match casStep s.w0 (rollbackMutex owner ownerDeadWas) c with
    | (w, .more c') => (w, .more (.mutex c'))
    | (w, .done a) => (w, .done a)
  | .event c =>
    match casStep s.w0 rollbackEvent c with
    | (w, .more c') => (w, .more (.event c'))
    | (w, .done a) => (w, .done a)

/-! ### `try_satisfy` -/

/-- The arguments of a wait that `try_satisfy` reads. -/
structure WaitArgs where
  handles : List U32
  owner : U32
  all : Bool
  alert : U32

/-- `handles[i]`. -/
def WaitArgs.handle (a : WaitArgs) (i : Nat) : U32 := a.handles.getD i 0

/-- The slot index of `handles[i]`. -/
def WaitArgs.slotOf (a : WaitArgs) (i : Nat) : Nat := handleIndex (a.handle i)

/-- Where `try_satisfy` is: trying object `i` of a wait-any; trying object `i` of a wait-all that
    has acquired the listed positions (with what each acquire said about a dead owner); or giving
    acquired positions back, the first listed one being under way. -/
inductive Sat where
  | any (i : Nat) (a : Acq)
  | all (i : Nat) (acquired : List (Nat × Bool)) (ownerDead : Bool) (a : Acq)
  | undo (todo : List (Nat × Bool)) (u : Undo)
  deriving DecidableEq, Repr

/-- The entry of `try_satisfy`. -/
def Sat.start (all : Bool) : Sat := if all then .all 0 [] false .typ else .any 0 .typ

/-- A store to the word of the object at position `pos`: by the acquire, or by the rollback of an
    acquire that had said `ownerDead`. -/
inductive SatWrite where
  | acquire (pos : Nat) (ownerDead : Bool) (new : U64)
  | rollback (pos : Nat) (new : U64)

/-- One access of `try_satisfy`.  The result is `some (index, ownerDead)` when the wait is
    satisfied. -/
def Sat.step (r : Region) (a : WaitArgs) (seqs : Nat → U64) :
    Sat → Option SatWrite × Out Sat (Option (Nat × Bool))
  | .any i q =>
    match q.step (r.slots (a.slotOf i)) a.owner (seqs i) with
    | (_, .more q') => (none, .more (.any i q'))
    | (w, .done (some od)) => (w.map (SatWrite.acquire i od), .done (some (i, od)))
    | (_, .done none) =>
      if i + 1 < a.handles.length then (none, .more (.any (i + 1) .typ)) else (none, .done none)
  | .all i acquired od q =>
    match q.step (r.slots (a.slotOf i)) a.owner (seqs i) with
    | (_, .more q') => (none, .more (.all i acquired od q'))
    | (w, .done (some b)) =>
      (w.map (SatWrite.acquire i b),
        if i + 1 < a.handles.length then .more (.all (i + 1) (acquired ++ [(i, b)]) (od || b) .typ)
        else .done (some (0, od || b)))
    | (_, .done none) =>
      if acquired = [] then (none, .done none) else (none, .more (.undo acquired .typ))
  | .undo [] _ => (none, .done none)
  | .undo ((j, b) :: rest) u =>
    match u.step (r.slots (a.slotOf j)) a.owner b with
    | (_, .more u') => (none, .more (.undo ((j, b) :: rest) u'))
    | (w, .done ()) =>
      (w.map (SatWrite.rollback j),
        if rest = [] then .done none else .more (.undo rest .typ))

end Ntsync
