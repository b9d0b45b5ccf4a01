import Mathlib
import Ntsync.Region

namespace Ntsync

/-!
# The dead-process sweep: candidates and liveness verdicts

The data of `sweep_dead` and `auto_sweep_dead`: the scan over the node pool and the slot table
(`SweepScan::next_chunk`), the memo of liveness verdicts (`PidCache`), and the re-validation that
`reap_dead_locked` makes before it frees anything.
-/

def sweepChunk : Nat := 256
def pidCacheSize : Nat := 32

/-- A reaping candidate: what `next_chunk` saw of a node or a slot. -/
structure DeadCand where
  node : Bool
  index : Nat
  pid : U32
  generation : U32
  holders : Fin maxHolders → U32
  holdersLen : U32

/-- `DeadCand::node`. -/
def DeadCand.ofNode (index : Nat) (pid : U32) : DeadCand where
  node := true
  index := index
  pid := pid
  generation := 0
  holders := fun _ => 0
  holdersLen := 0

/-- The candidate for a slot. -/
def DeadCand.ofSlot (index : Nat) (s : Slot) : DeadCand where
  node := false
  index := index
  pid := s.pid
  generation := s.generation
  holders := s.holders
  holdersLen := s.holdersLen

/-! ### The scan -/

structure SweepScan where
  nodeHi : Nat
  slotHi : Nat
  nextNode : Nat
  nextSlot : Nat

/-- `SweepScan::new`: the ranges that were ever handed out. -/
def SweepScan.new (r : Region) : SweepScan where
  nodeHi := min r.nodeFresh nodeCount
  slotHi := if r.nextScan &&& scanWrapped ≠ 0 then slotCount else r.nextScan.toNat
  nextNode := 0
  nextSlot := 0

/-- The indices a scan has not examined yet. -/
def SweepScan.left (sc : SweepScan) : Nat := (sc.nodeHi - sc.nextNode) + (sc.slotHi - sc.nextSlot)

/-- The loop of `next_chunk`: nodes first, then slots, until the chunk is full. -/
def nextChunkLoop (r : Region) : Nat → SweepScan → List DeadCand → SweepScan × List DeadCand
  | 0, sc, out => (sc, out)
  | fuel + 1, sc, out =>
    if sweepChunk ≤ out.length then (sc, out)
    else if sc.nextNode < sc.nodeHi then
      let n := r.nodes sc.nextNode
      nextChunkLoop r fuel { sc with nextNode := sc.nextNode + 1 }
        (if n.registered then out ++ [.ofNode sc.nextNode n.pid] else out)
    else if sc.nextSlot < sc.slotHi then
      let s := r.slots sc.nextSlot
      nextChunkLoop r fuel { sc with nextSlot := sc.nextSlot + 1 }
        (if s.state = .used ∧ s.pid ≠ 0 then out ++ [.ofSlot sc.nextSlot s] else out)
    else (sc, out)

/-- `SweepScan::next_chunk`; every pass of the loop examines one index. -/
def SweepScan.nextChunk (r : Region) (sc : SweepScan) : SweepScan × List DeadCand :=
  nextChunkLoop r sc.left sc []

/-! ### Liveness -/

/-- `PidCache`: the pids with a remembered verdict (0 marks an empty entry). -/
structure PidCache where
  pid : Nat → U32
  alive : Nat → Bool
  next : Nat

def PidCache.new : PidCache where
  pid := fun _ => 0
  alive := fun _ => false
  next := 0

/-- The first entry for `p`. -/
def PidCache.find (c : PidCache) (p : U32) : Option Nat :=
  (List.range pidCacheSize).find? fun i => decide (c.pid i = p)

/-- `pid_alive`: `kill(pid, 0)`, answered by the set of dead pids. -/
def pidAlive (dead : U32 → Bool) (p : U32) : Bool := decide (p ≠ 0) && !dead p

/-- `PidCache::alive`: a remembered verdict, or a probe that is then remembered round-robin. -/
def PidCache.probe (dead : U32 → Bool) (c : PidCache) (p : U32) : Bool × PidCache :=
  if p = 0 then (false, c)
  else match c.find p with
    | some i => (c.alive i, c)
    | none =>
      let alive := pidAlive dead p
      (alive, { pid := Function.update c.pid c.next p, alive := Function.update c.alive c.next alive,
                next := (c.next + 1) % pidCacheSize })

/-- The pids `cand_alive` probes, in order: the creator, then the nonzero tracked holders. -/
def DeadCand.pids (c : DeadCand) : List U32 :=
  let len := min (c.holdersLen &&& ~~~holderOverflow).toNat maxHolders
  c.pid :: (((List.finRange maxHolders).take len).map c.holders).filter (fun p => decide (p ≠ 0))

/-! ### Re-validation under the lock -/

/-- The test of `reap_dead_locked` on a node candidate. -/
def DeadCand.nodeStands (c : DeadCand) (r : Region) : Bool :=
  (r.nodes c.index).registered && decide ((r.nodes c.index).pid = c.pid)

/-- The test of `reap_dead_locked` on a slot candidate. -/
def DeadCand.slotStands (c : DeadCand) (r : Region) : Bool :=
  let s := r.slots c.index
  decide (s.state = .used) && decide (s.pid = c.pid) && decide (s.generation = c.generation) &&
    decide (s.holdersLen = c.holdersLen) && decide (s.holders = c.holders) &&
    decide (s.holdersLen &&& holderOverflow = 0)

end Ntsync
