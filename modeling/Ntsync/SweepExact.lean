import Mathlib
import Ntsync.Nodes
import Ntsync.Cursor
import Ntsync.Waking

namespace Ntsync

open Words Lts Links

/-!
# An explicit sweep is exact

`sweep_dead` on a region nobody else changes, with verdicts that stay the same while it runs.  It
collects its candidates in chunks, and what it reaps of one chunk is what the next one is collected
from; still the whole sweep comes to one pass over the pool and one over the table.

* `SweepSteps` — a sweep on its own; `wake_steps`, `judge_steps`: a wake walk, and the verdicts of a
  chunk, whose memo never errs;
* `NodesReaped`, `SlotsReaped` — pool and table with the nodes below an index, and then the slots
  below an index, treated; `reap_nodes`, `reap_slots`: a chunk moves the index on;
* `sweep_steps` — the loop; `sweep_dead_exact` — what a sweep frees, detaches and leaves alone.
-/

variable {T : Type}

/-! ### A sweep on its own -/

/-- The shared memory with another region. -/
def Shared.on (sh : Shared T) (r : Region) : Shared T := { sh with region := r }

/-- A sweep under the lock gets from `p` on the region `r` to `p'` on `r'`, undisturbed. -/
inductive SweepSteps (t : T) (pid : U32) (sh : Shared T) :
    Region → SweepPc → Region → SweepPc → Prop
  | refl {r : Region} {p : SweepPc} : SweepSteps t pid sh r p r p
  | head {r q r' : Region} {p u p' : SweepPc} {i : Instr} :
      p.step false (sh.on r) = some (i, .more u) → i.apply t pid (sh.on r) = sh.on q →
      SweepSteps t pid sh q u r' p' → SweepSteps t pid sh r p r' p'

section Steps

variable {t : T} {pid : U32} {sh : Shared T} {r r' r'' : Region} {p p' p'' : SweepPc}

/-- Two stretches of a sweep are one. -/
theorem SweepSteps.trans (h : SweepSteps t pid sh r p r' p')
    (h' : SweepSteps t pid sh r' p' r'' p'') : SweepSteps t pid sh r p r'' p'' := by
  induction h with
  | refl => exact h'
  | head hs ha _ ih => exact .head hs ha (ih h')

/-- A step on local state. -/
theorem SweepSteps.silent {u : SweepPc} (hs : p.step false (sh.on r) = some (.silent, .more u))
    (h : SweepSteps t pid sh r u r' p') : SweepSteps t pid sh r p r' p' := .head hs rfl h

/-- A sweep inside a call. -/
theorem SweepSteps.alone (f : SweepPc → Pc)
    (hf : ∀ p p₁ ins r, p.step false (sh.on r) = some (ins, .more p₁) →
      (∀ calls, tick {} (sh.on r) pid calls (f p) = some (ins, f p₁)) ∧ ins ≠ .countCall)
    (h : SweepSteps t pid sh r p r' p') : Alone t pid (sh.on r) (f p) (sh.on r') (f p') := by
  induction h with
  | refl => exact .refl
  | head hs ha _ ih =>
    obtain ⟨ht, hc⟩ := hf _ _ _ _ hs
    refine .head ht hc ?_
    rw [ha]
    exact ih

end Steps

/-! ### The links under a sweep -/

section Links

variable {r : Region} {L : Nat → List Nat} {F : List Nat} {U : Nat → Prop} {i n : Nat}

/-- `node_detach` leaves all futex words alone. -/
theorem nodeDetach_seq (r : Region) (n m : Nat) :
    ((r.nodeDetach n).nodes m).seq = (r.nodes m).seq :=
  Region.nodeDetach_field WaitNode.seq (fun _ _ _ _ _ => rfl) r n m

/-- What is kept twice is kept. -/
theorem Kept.then {a b c : WaitNode} (h : Kept a b) (h' : Kept b c) : Kept a c := by
  refine ⟨h'.pid.trans h.pid, fun hc => ?_⟩
  obtain ⟨hb, hobj, hword⟩ := h'.back hc
  obtain ⟨ha, hobj', hword'⟩ := h.back hb
  exact ⟨ha, hobj.trans hobj', hword.trans hword'⟩

/-- What no step of a sweep changes: the cursor, the size of the pool, and the nodes' owners; and a
    node that is still registered is so where it was. -/
structure SweepFrame (r r' : Region) : Prop where
  nextScan : r'.nextScan = r.nextScan
  nodeFresh : r'.nodeFresh = r.nodeFresh
  kept : ∀ m, Kept (r.nodes m) (r'.nodes m)

namespace SweepFrame

variable {r' r'' : Region}

/-- No step, no change. -/
theorem refl (r : Region) : SweepFrame r r := ⟨rfl, rfl, fun _ => .refl _⟩

/-- Two frames are one. -/
theorem trans (h : SweepFrame r r') (h' : SweepFrame r' r'') : SweepFrame r r'' :=
  ⟨h'.nextScan.trans h.nextScan, h'.nodeFresh.trans h.nodeFresh,
    fun m => (h.kept m).then (h'.kept m)⟩

/-- A detach keeps the frame. -/
theorem detach (r : Region) (n : Nat) : SweepFrame r (r.nodeDetach n) := by
  refine ⟨nodeDetach_nextScan n, Region.nodeDetach_header.2, fun m => ?_⟩
  by_cases hm : m = n
  · subst hm
    obtain ⟨hreg, hpid⟩ := Region.nodeDetach_self (r := r) (n := m)
    refine ⟨hpid, fun h => ?_⟩
    rw [hreg] at h
    cases h
  · exact (Region.nodeDetach_other hm).2

/-- A free keeps the frame. -/
theorem free (r : Region) (n : Nat) : SweepFrame r (r.nodeFree n) := by
  refine ⟨rfl, rfl, fun m => ?_⟩
  show Kept _ ((r.setNode n fun x => { x with waiterNext := r.nodeFreeHead }).nodes m)
  rw [Region.setNode_nodes]
  split
  · rename_i h
    subst h
    exact ⟨rfl, fun h => ⟨h, rfl, rfl⟩⟩
  · exact .refl _

/-- A store to a slot keeps the frame. -/
theorem slot (r : Region) (i : Nat) (f : Slot → Slot) : SweepFrame r (r.setSlot i f) :=
  ⟨rfl, rfl, fun _ => .refl _⟩

end SweepFrame

/-! ### The wake walk of a reaped slot -/

/-- The waiters `l` were detached, and each of them had the futex word of its wait bumped. -/
structure Woken (r : Region) (l : List Nat) (r' : Region) : Prop where
  frame : SweepFrame r r'
  seq : ∀ m, (r'.nodes m).seq = (r.nodes m).seq +
    BitVec.ofNat 32 (l.countP fun n => decide ((r.nodes n).waitWord = some m))
  slots : ∀ j, SameButHead r r' j

/-- What `wake_object` does to the nodes. -/
theorem Woken.wakeAll (r : Region) (i : Nat) (l : List Nat) : Woken r l (r.wakeAll i l) where
  frame := by
    refine ⟨rfl, rfl, fun m => ?_⟩
    rw [Region.wakeAll_nodes]
    split
    · exact ⟨rfl, fun h => (by cases h)⟩
    · exact ⟨rfl, fun h => ⟨h, rfl, rfl⟩⟩
  seq m := by
    rw [Region.wakeAll_nodes]
    split <;> rfl
  slots j := by
    by_cases hj : j = i
    · exact ⟨none, if_pos hj⟩
    · exact .of_slots (if_neg hj)

/-- A wake walk writes the region only. -/
theorem Walk.step_on (t : T) (pid : U32) (sh : Shared T) {w : Walk} {ins : Instr}
    {q : Out Walk Unit} (h : w.step r i = some (ins, q)) :
    ins.apply t pid (sh.on r) = sh.on (ins.apply t pid (sh.on r)).region := by
  cases Walk.step_inv h <;> rfl

/-- A wake walk inside a sweep. -/
theorem SweepSteps.of_trace {t : T} {pid : U32} {sh : Shared T} {r' : Region} {st : SweepSt}
    {judged : List (DeadCand × Bool)} {k : Nat} {w : Walk} {log : List Instr}
    (h : Walk.trace t pid i k (sh.on r) w = some (log, sh.on r')) :
    SweepSteps t pid sh r (.reapWalk st i w judged)
      r' (.reap { st with freed := st.freed + 1 } judged) := by
  induction k generalizing r w log with
  | zero => cases h
  | succ k ih =>
    unfold Walk.trace at h
    split at h
    · cases h
    · rename_i ins w' hw
      obtain ⟨⟨log', sh'⟩, hp, heq⟩ := Option.map_eq_some_iff.mp h
      obtain ⟨-, rfl⟩ := Prod.mk.inj heq
      have happ : ins.apply t pid (sh.on r) = sh.on (ins.apply t pid (sh.on r)).region :=
        Walk.step_on t pid sh hw
      rw [happ] at hp
      have hstep : (SweepPc.reapWalk st i w judged).step false (sh.on r) =
          some (ins, .more (.reapWalk st i w' judged)) := by
        simp only [SweepPc.step, hw]
      exact .head hstep happ (ih hp)
    · rename_i ins hw
      have hstep : (SweepPc.reapWalk st i w judged).step false (sh.on r) =
          some (ins, .more (.reap { st with freed := st.freed + 1 } judged)) := by
        simp only [SweepPc.step, hw]
      refine .head hstep ?_ .refl
      exact congrArg Prod.snd (Option.some.inj h)

/-- The wake walk of a reaped slot, step by step. -/
theorem wake_steps (t : T) (pid : U32) (sh : Shared T) (st : SweepSt)
    (judged : List (DeadCand × Bool)) {l : List Nat} (h : ListsOk r L F U) (hi : U i)
    (hl : L i = l) :
    ∃ r', SweepSteps t pid sh r (.reapWalk st i (.node (r.slots i).waiterHead) judged)
        r' (.reap { st with freed := st.freed + 1 } judged) ∧
      ListsOk r' (Function.update L i []) F U ∧ Woken r l r' := by
  have h' : ListsOk (sh.on r).region L F U := h
  obtain ⟨log, htrace, _, _, hlists⟩ := h'.wake_trace t pid hi hl
  exact ⟨r.wakeAll i l, .of_trace (htrace _ (le_refl _)), hlists, .wakeAll r i l⟩

end Links

/-! ### Verdicts -/

/-- Every remembered verdict is the one the kernel would give. -/
def PidCache.Exact (dead : U32 → Bool) (c : PidCache) : Prop :=
  ∀ i, c.pid i ≠ 0 → c.alive i = pidAlive dead (c.pid i)

/-- An empty cache is exact. -/
theorem PidCache.exact_new (dead : U32 → Bool) : PidCache.new.Exact dead :=
  fun _ h => absurd rfl h

/-- The memo answers like the kernel, also after it has overwritten an older verdict. -/
theorem PidCache.Exact.probe {dead : U32 → Bool} {c : PidCache} (h : c.Exact dead) (p : U32) :
    (c.probe dead p).1 = pidAlive dead p ∧ (c.probe dead p).2.Exact dead := by
  unfold PidCache.probe
  split
  · rename_i h0
    subst h0
    exact ⟨rfl, h⟩
  · rename_i h0
    split
    · rename_i i hf
      have hi := List.find?_some hf
      rw [decide_eq_true_eq] at hi
      refine ⟨?_, h⟩
      rw [← hi]
      exact h i (by rw [hi]; exact h0)
    · refine ⟨rfl, fun i hi => ?_⟩
      by_cases hin : i = c.next
      · subst hin
        simp only [Function.update_self]
      · simp only [Function.update_of_ne hin] at hi ⊢
        exact h i hi

/-- `cand_alive`. -/
def DeadCand.alive (dead : U32 → Bool) (c : DeadCand) : Bool := c.pids.any (pidAlive dead)

section Verdicts

variable {t : T} {pid : U32} {sh : Shared T} {r : Region}

variable (t pid r) in
/-- The pids of one candidate, up to the first that is alive. -/
theorem probe_steps (c : DeadCand) (rest : List DeadCand) (judged : List (DeadCand × Bool))
    (pids : List U32) (st : SweepSt) (h : st.cache.Exact sh.dead) :
    ∃ cache : PidCache, cache.Exact sh.dead ∧
      SweepSteps t pid sh r (.probe st judged c pids rest) r (.judge false { st with cache := cache }
        (judged ++ [(c, pids.any (pidAlive sh.dead))]) rest) := by
  induction pids generalizing st with
  | nil => exact ⟨st.cache, h, .silent rfl .refl⟩
  | cons p pids ih =>
    obtain ⟨hverdict, hcache⟩ := h.probe p
    cases hp : st.cache.probe sh.dead p with
    | mk alive cache =>
      rw [hp] at hverdict hcache
      dsimp only at hverdict hcache
      have hp' : st.cache.probe (sh.on r).dead p = (alive, cache) := hp
      rw [List.any_cons, ← hverdict]
      cases alive with
      | true =>
        refine ⟨cache, hcache, .silent (u := .judge false { st with cache := cache }
          (judged ++ [(c, true)]) rest) ?_ .refl⟩
        simp only [SweepPc.step, hp']
      | false =>
        obtain ⟨cache', hcache', hsteps⟩ := ih { st with cache := cache } hcache
        refine ⟨cache', hcache', .silent (u := .probe { st with cache := cache } judged c pids rest)
          ?_ hsteps⟩
        simp only [SweepPc.step, hp']

variable (t pid r) in
/-- The verdicts of a chunk. -/
theorem judge_steps (cands : List DeadCand) (st : SweepSt) (judged : List (DeadCand × Bool))
    (h : st.cache.Exact sh.dead) :
    ∃ cache : PidCache, cache.Exact sh.dead ∧
      SweepSteps t pid sh r (.judge false st judged cands) r (.reap { st with cache := cache }
        (judged ++ cands.map fun c => (c, c.alive sh.dead))) := by
  induction cands generalizing st judged with
  | nil =>
    refine ⟨st.cache, h, ?_⟩
    rw [List.map_nil, List.append_nil]
    exact .refl
  | cons c cands ih =>
    obtain ⟨cache, hcache, hprobe⟩ := probe_steps t pid r c cands judged c.pids st h
    obtain ⟨cache', hcache', hrest⟩ := ih { st with cache := cache }
      (judged ++ [(c, c.alive sh.dead)]) hcache
    refine ⟨cache', hcache', hprobe.trans ?_⟩
    rw [List.append_assoc] at hrest
    exact hrest

end Verdicts

/-! ### The candidates -/

/-- The node candidates of `k` indices from `a` on. -/
def nodesFrom (r : Region) : Nat → Nat → List DeadCand
  | _, 0 => []
  | a, k + 1 =>
    (if (r.nodes a).registered then [.ofNode a (r.nodes a).pid] else []) ++ nodesFrom r (a + 1) k

/-- The slot candidates of `k` indices from `b` on. -/
def slotsFrom (r : Region) : Nat → Nat → List DeadCand
  | _, 0 => []
  | b, k + 1 =>
    (if (r.slots b).state = .used ∧ (r.slots b).pid ≠ 0 then [.ofSlot b (r.slots b)] else []) ++
      slotsFrom r (b + 1) k

/-- The scan after it has passed `k` nodes and `m` slots. -/
def SweepScan.skip (sc : SweepScan) (k m : Nat) : SweepScan :=
  { sc with nextNode := sc.nextNode + k, nextSlot := sc.nextSlot + m }

/-- A chunk: the candidates of the next `k` nodes and `m` slots, the nodes first, until the chunk is
    full or the scan is through. -/
structure Chunk (r : Region) (sc : SweepScan) (k m : Nat) (out : List DeadCand) : Prop where
  nodes : sc.nextNode + k ≤ sc.nodeHi
  slots : sc.nextSlot + m ≤ sc.slotHi
  order : m = 0 ∨ sc.nextNode + k = sc.nodeHi
  full : sweepChunk ≤ out.length ∨ sc.nextNode + k = sc.nodeHi ∧ sc.nextSlot + m = sc.slotHi

/-- A chunk covers some nodes and some slots, all of them from where the scan stands. -/
theorem nextChunkLoop_chunk {r : Region} (fuel : Nat) (sc : SweepScan) (out : List DeadCand)
    (hfuel : sc.left ≤ fuel) (hn : sc.nextNode ≤ sc.nodeHi) (hs : sc.nextSlot ≤ sc.slotHi) :
    ∃ k m, nextChunkLoop r fuel sc out = (sc.skip k m,
        out ++ (nodesFrom r sc.nextNode k ++ slotsFrom r sc.nextSlot m)) ∧
      Chunk r sc k m (out ++ (nodesFrom r sc.nextNode k ++ slotsFrom r sc.nextSlot m)) := by
  unfold SweepScan.left at hfuel
  induction fuel generalizing sc out with
  | zero =>
    refine ⟨0, 0, by simp [nextChunkLoop, SweepScan.skip, nodesFrom, slotsFrom], ?_⟩
    exact ⟨hn, hs, .inl rfl, .inr (by omega)⟩
  | succ fuel ih =>
    simp only [nextChunkLoop]
    split
    -- the chunk is full
    · rename_i hfull
      refine ⟨0, 0, by simp [SweepScan.skip, nodesFrom, slotsFrom], ?_⟩
      refine ⟨hn, hs, .inl rfl, .inl ?_⟩
      simpa [nodesFrom, slotsFrom] using hfull
    · split
      · -- the next node
        rename_i hlt
        obtain ⟨k, m, heq, hchunk⟩ := ih { sc with nextNode := sc.nextNode + 1 }
          (if (r.nodes sc.nextNode).registered then
            out ++ [.ofNode sc.nextNode (r.nodes sc.nextNode).pid] else out) (by
              show sc.nodeHi - (sc.nextNode + 1) + (sc.slotHi - sc.nextSlot) ≤ fuel
              omega) hlt hs
        have hlist : (if (r.nodes sc.nextNode).registered then
            out ++ [.ofNode sc.nextNode (r.nodes sc.nextNode).pid] else out) ++
            (nodesFrom r (sc.nextNode + 1) k ++ slotsFrom r sc.nextSlot m) =
            out ++ (nodesFrom r sc.nextNode (k + 1) ++ slotsFrom r sc.nextSlot m) := by
          rw [nodesFrom]
          split <;> simp
        dsimp only at heq hchunk
        rw [hlist] at heq hchunk
        have hadd : sc.nextNode + 1 + k = sc.nextNode + (k + 1) := by omega
        refine ⟨k + 1, m, ?_, ?_⟩
        · rw [heq]
          simp only [SweepScan.skip, hadd]
        · obtain ⟨hk, hm, hord, hfull⟩ := hchunk
          dsimp only at hk hm hord hfull
          rw [hadd] at hk hord hfull
          exact ⟨hk, hm, hord, hfull⟩
      -- the slots come only after the last node
      · rename_i hge
        have hend : sc.nextNode = sc.nodeHi := by omega
        split
        · -- the next slot
          rename_i hlt
          obtain ⟨k, m, heq, hchunk⟩ := ih { sc with nextSlot := sc.nextSlot + 1 }
            (if (r.slots sc.nextSlot).state = .used ∧ (r.slots sc.nextSlot).pid ≠ 0 then
              out ++ [.ofSlot sc.nextSlot (r.slots sc.nextSlot)] else out) (by
                show sc.nodeHi - sc.nextNode + (sc.slotHi - (sc.nextSlot + 1)) ≤ fuel
                omega) hn hlt
          have hk0 : k = 0 := by
            have hk := hchunk.nodes
            dsimp only at hk
            omega
          subst hk0
          have hlist : (if (r.slots sc.nextSlot).state = .used ∧ (r.slots sc.nextSlot).pid ≠ 0 then
              out ++ [.ofSlot sc.nextSlot (r.slots sc.nextSlot)] else out) ++
              (nodesFrom r sc.nextNode 0 ++ slotsFrom r (sc.nextSlot + 1) m) =
              out ++ (nodesFrom r sc.nextNode 0 ++ slotsFrom r sc.nextSlot (m + 1)) := by
            rw [slotsFrom, nodesFrom]
            split <;> simp
          dsimp only at heq hchunk
          rw [hlist] at heq hchunk
          have hadd : sc.nextSlot + 1 + m = sc.nextSlot + (m + 1) := by omega
          refine ⟨0, m + 1, ?_, ?_⟩
          · rw [heq]
            simp only [SweepScan.skip, hadd]
          · obtain ⟨hk, hm, _, hfull⟩ := hchunk
            dsimp only at hk hm hfull
            rw [hadd] at hm hfull
            exact ⟨hk, hm, .inr hend, hfull⟩
        · -- the scan is through
          rename_i hge'
          refine ⟨0, 0, by simp [SweepScan.skip, nodesFrom, slotsFrom], ?_⟩
          exact ⟨hn, hs, .inl rfl, .inr (by omega)⟩

/-- **`next_chunk`.** -/
theorem nextChunk_chunk {r : Region} {sc : SweepScan} (hn : sc.nextNode ≤ sc.nodeHi)
    (hs : sc.nextSlot ≤ sc.slotHi) :
    ∃ k m, sc.nextChunk r =
        (sc.skip k m, nodesFrom r sc.nextNode k ++ slotsFrom r sc.nextSlot m) ∧
      Chunk r sc k m (nodesFrom r sc.nextNode k ++ slotsFrom r sc.nextSlot m) := by
  have hloop := nextChunkLoop_chunk (r := r) sc.left sc [] (le_refl _) hn hs
  simp only [List.nil_append] at hloop
  exact hloop

/-- What the candidates of a range depend on. -/
theorem nodesFrom_congr {r r' : Region} {a : Nat} (k : Nat)
    (h : ∀ n, a ≤ n → (r'.nodes n).registered = (r.nodes n).registered ∧
      (r'.nodes n).pid = (r.nodes n).pid) : nodesFrom r' a k = nodesFrom r a k := by
  induction k generalizing a with
  | zero => rfl
  | succ k ih =>
    obtain ⟨hreg, hpid⟩ := h a (le_refl _)
    rw [nodesFrom, nodesFrom, hreg, hpid, ih fun n hn => h n (by omega)]

/-- The slot candidates depend on the slots that are left, and not on their list heads. -/
theorem slotsFrom_congr {r r' : Region} {b : Nat} (k : Nat)
    (h : ∀ i, b ≤ i → SameButHead r r' i) : slotsFrom r' b k = slotsFrom r b k := by
  induction k generalizing b with
  | zero => rfl
  | succ k ih =>
    obtain ⟨hd, he⟩ := h b (le_refl _)
    rw [slotsFrom, slotsFrom, he, ih fun n hn => h n (by omega)]
    rfl

/-! ### The nodes of dead processes -/

/-- A registered node of a dead process. -/
def WaitNode.stale (dead : U32 → Bool) (x : WaitNode) : Bool :=
  x.registered && !pidAlive dead x.pid

/-- The stale nodes below `a`. -/
def staleTo (dead : U32 → Bool) (r : Region) (a : Nat) : List Nat :=
  (List.range a).filter fun n => (r.nodes n).stale dead

/-- A waiter list without the stale nodes below `a`. -/
def liveFrom (dead : U32 → Bool) (r : Region) (a : Nat) (l : List Nat) : List Nat :=
  l.filter fun n => !((r.nodes n).stale dead && decide (n < a))

/-- In `r'` the stale nodes below `a` are off their lists and on the free list, in front of the
    nodes that were free before. -/
structure NodesReaped (dead : U32 → Bool) (r : Region) (L : Nat → List Nat) (F : List Nat)
    (U : Nat → Prop) (a : Nat) (r' : Region) : Prop where
  lists : ListsOk r' (fun i => liveFrom dead r a (L i)) ((staleTo dead r a).reverse ++ F) U
  frame : SweepFrame r r'
  seq : ∀ m, (r'.nodes m).seq = (r.nodes m).seq
  slots : ∀ i, SameButHead r r' i

section Nodes

variable {dead : U32 → Bool} {r r' : Region} {L : Nat → List Nat} {F : List Nat} {U : Nat → Prop}
  {a : Nat}

/-- At first no node has been reaped. -/
theorem NodesReaped.start (hl : ListsOk r L F U) : NodesReaped dead r L F U 0 r := by
  have hlive : (fun i => liveFrom dead r 0 (L i)) = L := by
    funext i
    simp [liveFrom]
  refine ⟨?_, .refl r, fun _ => rfl, fun _ => .refl _ _⟩
  rw [hlive]
  exact hl

/-- The nodes from `a` on are as they were. -/
theorem NodesReaped.untouched (hl : ListsOk r L F U) (h : NodesReaped dead r L F U a r') {m : Nat}
    (hm : a ≤ m) : (r'.nodes m).registered = (r.nodes m).registered := by
  cases hreg : (r.nodes m).registered with
  | true =>
    obtain ⟨i, hobj⟩ := hl.obj m hreg
    refine ((h.lists.mem i m).mp (List.mem_filter.mpr ⟨(hl.mem i m).mpr ⟨hreg, hobj⟩, ?_⟩)).1
    rw [decide_eq_false (Nat.not_lt.mpr hm), Bool.and_false]
    rfl
  | false =>
    by_contra hne
    have hback := ((h.frame.kept m).back (by simpa using hne)).1
    rw [hreg] at hback
    cases hback

/-- A node that is not stale is passed over. -/
theorem NodesReaped.keep (h : NodesReaped dead r L F U a r')
    (hs : (r.nodes a).stale dead = false) : NodesReaped dead r L F U (a + 1) r' := by
  have hlive (l : List Nat) : liveFrom dead r (a + 1) l = liveFrom dead r a l := by
    refine List.filter_congr fun n _ => ?_
    by_cases hn : n = a
    · rw [hn, hs]
      rfl
    · have hiff : n < a + 1 ↔ n < a := by omega
      rw [decide_eq_decide.mpr hiff]
  have hstale : staleTo dead r (a + 1) = staleTo dead r a := by
    rw [staleTo, List.range_succ, List.filter_append, List.filter_singleton, hs]
    exact List.append_nil _
  refine ⟨?_, h.frame, h.seq, h.slots⟩
  simp only [hlive, hstale]
  exact h.lists

/-- A stale node comes off its list and onto the free list. -/
theorem NodesReaped.reap (hl : ListsOk r L F U) (h : NodesReaped dead r L F U a r')
    (hs : (r.nodes a).stale dead = true) :
    NodesReaped dead r L F U (a + 1) ((r'.nodeDetach a).nodeFree a) := by
  have hreg₀ : (r.nodes a).registered = true := (Bool.and_eq_true_iff.mp hs).1
  have hreg : (r'.nodes a).registered = true := (h.untouched hl (le_refl _)).trans hreg₀
  obtain ⟨i, hobj⟩ := h.lists.obj a hreg
  have hdet := h.lists.detach hreg hobj
  have hself := (Region.nodeDetach_self (r := r') (n := a)).1
  have hbelow : a < (r'.nodeDetach a).nodeFresh := by
    rw [Region.nodeDetach_header.2]
    exact h.lists.below a hreg
  have hnotin : a ∉ (staleTo dead r a).reverse ++ F := fun hm => by
    have hfalse := (h.lists.freeOk a hm).2
    rw [hreg] at hfalse
    cases hfalse
  have hfree := hdet.nodeFree hself hbelow hnotin
  -- the lists without the node
  have hlive : (fun j => liveFrom dead r (a + 1) (L j)) =
      Function.update (fun j => liveFrom dead r a (L j)) i ((liveFrom dead r a (L i)).erase a) := by
    funext j
    have hsplit (l : List Nat) : liveFrom dead r (a + 1) l =
        (liveFrom dead r a l).filter fun n => decide (n ≠ a) := by
      rw [liveFrom, liveFrom, List.filter_filter]
      refine List.filter_congr fun n _ => ?_
      by_cases hn : n = a
      · subst hn
        simp [hs]
      · have hiff : n < a + 1 ↔ n < a := by omega
        simp [hn, hiff]
    by_cases hji : j = i
    · subst hji
      rw [Function.update_self, hsplit, (h.lists.nodup j).erase_eq_filter]
      exact List.filter_congr fun n _ => by by_cases hn : n = a <;> simp [hn]
    · rw [Function.update_of_ne hji, hsplit, List.filter_eq_self]
      intro n hn
      refine decide_eq_true fun e => hji ?_
      subst e
      exact Option.some.inj (((h.lists.mem j n).mp hn).2.symm.trans hobj)
  have hstale : (staleTo dead r (a + 1)).reverse ++ F = a :: ((staleTo dead r a).reverse ++ F) := by
    rw [staleTo, List.range_succ, List.filter_append, List.filter_singleton, hs]
    simp [staleTo]
  refine ⟨?_, h.frame.trans ((SweepFrame.detach r' a).trans (.free _ a)), fun m => ?_, fun j => ?_⟩
  · rw [hlive, hstale]
    exact hfree
  · have hseq : (((r'.nodeDetach a).nodeFree a).nodes m).seq = ((r'.nodeDetach a).nodes m).seq := by
      show (((r'.nodeDetach a).setNode a fun x =>
        { x with waiterNext := (r'.nodeDetach a).nodeFreeHead }).nodes m).seq = _
      rw [Region.setNode_nodes]
      split
      · rename_i hm
        rw [hm]
      · rfl
    rw [hseq, nodeDetach_seq, h.seq]
  · obtain ⟨hd, he⟩ := h.slots j
    obtain ⟨hd', he'⟩ := Region.nodeDetach_slot (r := r') (i := j) a
    refine ⟨hd', ?_⟩
    rw [show ((r'.nodeDetach a).nodeFree a).slots j = (r'.nodeDetach a).slots j from rfl, he', he]

/-- A node's candidate lives while its process does. -/
theorem DeadCand.ofNode_alive (a : Nat) (p : U32) :
    (DeadCand.ofNode a p).alive dead = pidAlive dead p := by
  simp [DeadCand.alive, DeadCand.pids, DeadCand.ofNode]

/-- **The node candidates of a chunk.** -/
theorem reap_nodes (t : T) (pid : U32) (sh : Shared T) (st : SweepSt)
    (rest : List (DeadCand × Bool)) (hl : ListsOk r L F U) (k : Nat)
    (h : NodesReaped sh.dead r L F U a r') :
    ∃ r'', SweepSteps t pid sh r'
        (.reap st ((nodesFrom r a k).map (fun c => (c, c.alive sh.dead)) ++ rest)) r''
        (.reap st rest) ∧ NodesReaped sh.dead r L F U (a + k) r'' := by
  induction k generalizing a r' with
  | zero => exact ⟨r', .refl, h⟩
  | succ k ih =>
    rw [show a + (k + 1) = a + 1 + k by omega, nodesFrom]
    cases hreg : (r.nodes a).registered with
    | false => exact ih (h.keep (by rw [WaitNode.stale, hreg]; rfl))
    | true =>
      have hreg' : (r'.nodes a).registered = true := (h.untouched hl (le_refl _)).trans hreg
      cases halive : pidAlive sh.dead (r.nodes a).pid with
      | true =>
        obtain ⟨r'', hsteps, hr''⟩ := ih (h.keep (by rw [WaitNode.stale, halive, Bool.not_true, Bool.and_false]))
        refine ⟨r'', .silent (u := .reap st ((nodesFrom r (a + 1) k).map
          (fun c => (c, c.alive sh.dead)) ++ rest)) ?_ hsteps, hr''⟩
        simp [SweepPc.step, DeadCand.ofNode_alive, halive]
      | false =>
        obtain ⟨r'', hsteps, hr''⟩ := ih (h.reap hl (by rw [WaitNode.stale, hreg, halive]; rfl))
        have hstands : (DeadCand.ofNode a (r.nodes a).pid).nodeStands (sh.on r').region = true := by
          show ((r'.nodes a).registered && decide ((r'.nodes a).pid = (r.nodes a).pid)) = true
          rw [hreg', (h.frame.kept a).pid, decide_eq_true rfl]
          rfl
        refine ⟨r'', .head (i := .detach a) (q := r'.nodeDetach a)
          (u := .reapFree st a ((nodesFrom r (a + 1) k).map
            (fun c => (c, c.alive sh.dead)) ++ rest)) ?_ rfl
          (.head (i := .freeNode a) rfl rfl hsteps), hr''⟩
        simp only [if_true, List.cons_append, List.nil_append, List.map_cons, SweepPc.step,
          DeadCand.ofNode_alive, halive, hstands]
        rfl

end Nodes

/-! ### The objects of dead processes -/

/-- An object that a sweep is to free: its creator and all its holders are dead, and no holder is
    untracked. -/
structure Slot.Reapable (dead : U32 → Bool) (s : Slot) : Prop where
  used : s.state = .used
  owned : s.pid ≠ 0
  creator : pidAlive dead s.pid = false
  tracked : s.holdersLen &&& holderOverflow = 0
  holders : ∀ k : Fin maxHolders, k.val < s.holderCap → pidAlive dead (s.holders k) = false

instance (dead : U32 → Bool) (s : Slot) : Decidable (s.Reapable dead) :=
  decidable_of_iff (s.state = .used ∧ s.pid ≠ 0 ∧ pidAlive dead s.pid = false ∧
    s.holdersLen &&& holderOverflow = 0 ∧
    ∀ k : Fin maxHolders, k.val < s.holderCap → pidAlive dead (s.holders k) = false)
    ⟨fun h => ⟨h.1, h.2.1, h.2.2.1, h.2.2.2.1, h.2.2.2.2⟩,
      fun h => ⟨h.used, h.owned, h.creator, h.tracked, h.holders⟩⟩

/-- The slot once its object is freed. -/
def Slot.freed (s : Slot) : Slot := { s with state := .free, generation := s.generation + 1 }

/-- The slot is among those below `b`, and its object is to be reaped. -/
def ReapedTo (dead : U32 → Bool) (r : Region) (b i : Nat) : Prop :=
  i < b ∧ (r.slots i).Reapable dead

instance (dead : U32 → Bool) (r : Region) (b i : Nat) : Decidable (ReapedTo dead r b i) :=
  inferInstanceAs (Decidable (_ ∧ _))

/-- In `r'` the reapable objects below `b`, `n` in number, are freed; their waiters are detached and
    woken. -/
structure SlotsReaped (dead : U32 → Bool) (r : Region) (L : Nat → List Nat) (F : List Nat)
    (U : Nat → Prop) (b : Nat) (r' : Region) (n : Nat) : Prop where
  lists : ListsOk r' (fun i => if ReapedTo dead r b i then [] else L i) F U
  frame : SweepFrame r r'
  slots : ∀ i, ∃ hd, r'.slots i =
    { (if ReapedTo dead r b i then (r.slots i).freed else r.slots i) with waiterHead := hd }
  woken : ∃ W : List Nat, W.Nodup ∧ (∀ m, m ∈ W ↔ ∃ i, ReapedTo dead r b i ∧ m ∈ L i) ∧
    ∀ m, (r'.nodes m).seq = (r.nodes m).seq +
      BitVec.ofNat 32 (W.countP fun x => decide ((r.nodes x).waitWord = some m))
  count : n = ((List.range b).filter fun i => decide ((r.slots i).Reapable dead)).length

section Slots

variable {dead : U32 → Bool} {r r' : Region} {L : Nat → List Nat} {F : List Nat} {U : Nat → Prop}
  {b n : Nat}

/-- At first no slot has been reaped. -/
theorem SlotsReaped.start (hl : ListsOk r L F U) : SlotsReaped dead r L F U 0 r 0 := by
  have hnone (i : Nat) : ¬ ReapedTo dead r 0 i := fun h => Nat.not_lt_zero _ h.1
  refine ⟨?_, .refl r, fun i => ⟨_, by rw [if_neg (hnone i)]⟩, ⟨[], List.nodup_nil, fun m => ?_,
    fun m => ?_⟩, rfl⟩
  · simp only [hnone, if_false]
    exact hl
  · exact ⟨(fun h => by cases h), fun ⟨i, hi, _⟩ => absurd hi (hnone i)⟩
  · rw [List.countP_nil, BitVec.add_zero]

/-- An object that is not to be reaped is passed over. -/
theorem SlotsReaped.keep (h : SlotsReaped dead r L F U b r' n)
    (hs : ¬ (r.slots b).Reapable dead) : SlotsReaped dead r L F U (b + 1) r' n := by
  have hiff (i : Nat) : ReapedTo dead r (b + 1) i ↔ ReapedTo dead r b i := by
    constructor
    · rintro ⟨hlt, hr⟩
      refine ⟨?_, hr⟩
      have hne : i ≠ b := by
        rintro rfl
        exact hs hr
      omega
    · rintro ⟨hlt, hr⟩
      exact ⟨by omega, hr⟩
  refine ⟨?_, h.frame, fun i => ?_, ?_, ?_⟩
  · simp only [hiff]
    exact h.lists
  · simp only [hiff]
    exact h.slots i
  · simp only [hiff]
    exact h.woken
  · rw [List.range_succ, List.filter_append, List.filter_singleton, decide_eq_false hs]
    simpa using h.count

/-- What `cand_alive` finds of an object. -/
theorem DeadCand.ofSlot_dead {s : Slot} {i : Nat} :
    (DeadCand.ofSlot i s).alive dead = false ↔ pidAlive dead s.pid = false ∧
      ∀ k : Fin maxHolders, k.val < s.holderCap → pidAlive dead (s.holders k) = false := by
  have hmem (k : Fin maxHolders) :
      k ∈ (List.finRange maxHolders).take s.holderCap ↔ k.val < s.holderCap := by
    rw [List.mem_take_iff_getElem]
    constructor
    · rintro ⟨j, hj, rfl⟩
      rw [List.getElem_finRange]
      exact Nat.lt_of_lt_of_le hj (Nat.min_le_left _ _)
    · intro hk
      exact ⟨k.val, by simp only [List.length_finRange]; omega, by simp⟩
  have hpids : (DeadCand.ofSlot i s).pids = s.pid ::
      (((List.finRange maxHolders).take s.holderCap).map s.holders).filter
        (fun p => decide (p ≠ 0)) := rfl
  rw [DeadCand.alive, hpids, List.any_cons, Bool.or_eq_false_iff]
  refine and_congr_right fun _ => ?_
  rw [List.any_eq_false]
  constructor
  · intro h k hk
    by_cases h0 : s.holders k = 0
    · rw [h0]
      rfl
    · refine Bool.not_eq_true _ ▸ h _ (List.mem_filter.mpr ⟨?_, decide_eq_true h0⟩)
      exact List.mem_map_of_mem ((hmem k).mpr hk)
  · intro h p hp
    obtain ⟨hm, _⟩ := List.mem_filter.mp hp
    obtain ⟨k, hk, rfl⟩ := List.mem_map.mp hm
    rw [h k ((hmem k).mp hk)]
    exact Bool.false_ne_true

/-- A reapable object is a candidate that is judged dead and stands the re-validation. -/
theorem Slot.Reapable.stands {i : Nat} (h : (r.slots i).Reapable dead)
    (hs : SameButHead r r' i) : (DeadCand.ofSlot i (r.slots i)).slotStands r' = true := by
  obtain ⟨hd, he⟩ := hs
  simp only [DeadCand.slotStands, DeadCand.ofSlot, he, h.used, h.tracked, decide_true, Bool.and_self]

/-- What `reap_dead_locked` does with the slot at `b`. -/
theorem SlotsReaped.reap (t : T) (pid : U32) (sh : Shared T) (st : SweepSt)
    (rest : List (DeadCand × Bool)) (hl : ListsOk r L F U)
    (hU : ∀ i, (r.slots i).state = .used → U i) (h : SlotsReaped dead r L F U b r' n)
    (hr : (r.slots b).Reapable dead) :
    ∃ r'', SweepSteps t pid sh r' (.reap st ((.ofSlot b (r.slots b), false) :: rest)) r''
        (.reap { st with freed := st.freed + 1 } rest) ∧
      SlotsReaped dead r L F U (b + 1) r'' (n + 1) := by
  have hnot : ¬ ReapedTo dead r b b := fun hb => Nat.lt_irrefl _ hb.1
  have hsame : SameButHead r r' b := by
    obtain ⟨hd, he⟩ := h.slots b
    rw [if_neg hnot] at he
    exact ⟨hd, he⟩
  -- the slot is marked free, and its generation bumped
  let r₁ := r'.setSlot b fun s => { s with state := .free }
  let r₂ := r₁.setSlot b fun s => { s with generation := (r₁.slots b).generation + 1 }
  have hslot₂ (i : Nat) : r₂.slots i = if i = b then (r'.slots b).freed else r'.slots i := by
    by_cases hi : i = b
    · subst hi
      simp [r₂, r₁, Slot.freed]
    · simp [r₂, r₁, hi]
  have hhead (i : Nat) : (r₂.slots i).waiterHead = (r'.slots i).waiterHead := by
    rw [hslot₂]
    split
    · rename_i hi
      rw [hi]
      rfl
    · rfl
  have hlists₂ : ListsOk r₂ (fun i => if ReapedTo dead r b i then [] else L i) F U :=
    h.lists.congr (fun _ => .refl _) hhead rfl rfl
  obtain ⟨r'', hsteps, hlists, hwoken⟩ := wake_steps t pid sh st rest hlists₂
    (hU b hr.used) (if_neg hnot)
  -- one more slot is treated
  have hother {i : Nat} (hi : i ≠ b) : ReapedTo dead r (b + 1) i ↔ ReapedTo dead r b i :=
    ⟨fun ⟨hlt, hr⟩ => ⟨by omega, hr⟩, fun ⟨hlt, hr⟩ => ⟨by omega, hr⟩⟩
  have hself : ReapedTo dead r (b + 1) b := ⟨Nat.lt_succ_self b, hr⟩
  refine ⟨r'', ?_, ?_, h.frame.trans (((SweepFrame.slot r' b _).trans (.slot r₁ b _)).trans
    hwoken.frame), fun i => ?_, ?_, ?_⟩
  · have hstep : (SweepPc.reap st ((.ofSlot b (r.slots b), false) :: rest)).step false (sh.on r') =
        some (.reap b, .more (.reapGen st b rest)) := by
      have hstands : (DeadCand.ofSlot b (r.slots b)).slotStands (sh.on r').region = true :=
        hr.stands hsame
      simp only [SweepPc.step, hstands]
      rfl
    refine .head hstep (q := r₁) rfl ?_
    refine .head (i := .store b (.generation ((r₁.slots b).generation + 1))) (q := r₂)
      (u := .reapWalk st b .start rest) rfl rfl ?_
    exact .silent (u := .reapWalk st b (.node (r₂.slots b).waiterHead) rest) rfl hsteps
  · have hL : (fun i => if ReapedTo dead r (b + 1) i then [] else L i) =
        Function.update (fun i => if ReapedTo dead r b i then [] else L i) b [] := by
      funext i
      by_cases hi : i = b
      · rw [hi, Function.update_self, if_pos hself]
      · rw [Function.update_of_ne hi]
        simp only [hother hi]
    rw [hL]
    exact hlists
  · obtain ⟨hd, he⟩ := hwoken.slots i
    refine ⟨hd, ?_⟩
    rw [he, hslot₂]
    by_cases hi : i = b
    · subst hi
      obtain ⟨hd', he'⟩ := hsame
      rw [if_pos rfl, if_pos hself, he']
      rfl
    · obtain ⟨hd', he'⟩ := h.slots i
      rw [if_neg hi, he']
      simp only [hother hi]
  · obtain ⟨W, hnd, hmem, hseq⟩ := h.woken
    have hin (m : Nat) (hm : m ∈ L b) : (r'.nodes m).registered = true :=
      ((h.lists.mem b m).mp (by rw [if_neg hnot]; exact hm)).1
    refine ⟨W ++ L b, List.nodup_append.mpr ⟨hnd, hl.nodup b, fun x hx y hy => ?_⟩, fun m => ?_,
      fun m => ?_⟩
    · rintro rfl
      obtain ⟨i, hi, hxi⟩ := (hmem x).mp hx
      rw [hl.slot_unique hxi hy] at hi
      exact hnot hi
    · rw [List.mem_append, hmem]
      constructor
      · rintro (⟨i, hi, hm⟩ | hm)
        · exact ⟨i, ⟨by have := hi.1; omega, hi.2⟩, hm⟩
        · exact ⟨b, hself, hm⟩
      · rintro ⟨i, hi, hm⟩
        by_cases hib : i = b
        · subst hib
          exact .inr hm
        · exact .inl ⟨i, (hother hib).mp hi, hm⟩
    · have hwords : ((L b).countP fun x => decide ((r₂.nodes x).waitWord = some m)) =
          (L b).countP fun x => decide ((r.nodes x).waitWord = some m) := by
        refine List.countP_congr fun x hx => ?_
        rw [show (r₂.nodes x).waitWord = (r'.nodes x).waitWord from rfl,
          ((h.frame.kept x).back (hin x hx)).2.2]
      rw [hwoken.seq, hwords, List.countP_append, BitVec.ofNat_add, ← BitVec.add_assoc, ← hseq]
      rfl
  · rw [List.range_succ, List.filter_append, List.filter_singleton, decide_eq_true hr,
      List.length_append, ← h.count]
    rfl

/-- **The slot candidates of a chunk.** -/
theorem reap_slots (t : T) (pid : U32) (sh : Shared T) (st : SweepSt) (hl : ListsOk r L F U)
    (hU : ∀ i, (r.slots i).state = .used → U i) (k : Nat)
    (h : SlotsReaped sh.dead r L F U b r' st.freed) :
    ∃ r'' n, SweepSteps t pid sh r'
        (.reap st ((slotsFrom r b k).map (fun c => (c, c.alive sh.dead)))) r''
        (.reap { st with freed := n } []) ∧ SlotsReaped sh.dead r L F U (b + k) r'' n := by
  induction k generalizing b r' st with
  | zero => exact ⟨r', st.freed, .refl, h⟩
  | succ k ih =>
    rw [show b + (k + 1) = b + 1 + k by omega, slotsFrom]
    split
    · rename_i hcand
      rw [List.singleton_append, List.map_cons]
      by_cases hr : (r.slots b).Reapable sh.dead
      · have hdead : (DeadCand.ofSlot b (r.slots b)).alive sh.dead = false :=
          DeadCand.ofSlot_dead.mpr ⟨hr.creator, hr.holders⟩
        obtain ⟨r₁, hsteps₁, hr₁⟩ := h.reap t pid sh st
          ((slotsFrom r (b + 1) k).map fun c => (c, c.alive sh.dead)) hl hU hr
        obtain ⟨r'', n, hsteps, hr''⟩ := ih { st with freed := st.freed + 1 } hr₁
        rw [hdead]
        exact ⟨r'', n, hsteps₁.trans hsteps, hr''⟩
      · obtain ⟨r'', n, hsteps, hr''⟩ := ih st (h.keep hr)
        refine ⟨r'', n, .silent (u := .reap st ((slotsFrom r (b + 1) k).map
          fun c => (c, c.alive sh.dead))) ?_ hsteps, hr''⟩
        cases halive : (DeadCand.ofSlot b (r.slots b)).alive sh.dead with
        | true => rfl
        | false =>
          -- the candidate is dead, but the re-validation finds an untracked holder
          obtain ⟨hcreator, hholders⟩ := DeadCand.ofSlot_dead.mp halive
          have hover : (r.slots b).holdersLen &&& holderOverflow ≠ 0 := fun h0 =>
            hr ⟨hcand.1, hcand.2, hcreator, h0, hholders⟩
          have hstands : (DeadCand.ofSlot b (r.slots b)).slotStands (sh.on r').region = false := by
            obtain ⟨hd, he⟩ := h.slots b
            rw [if_neg fun hb => Nat.lt_irrefl _ hb.1] at he
            show (DeadCand.ofSlot b (r.slots b)).slotStands r' = false
            simp only [DeadCand.slotStands, DeadCand.ofSlot, he, decide_eq_false hover, Bool.and_false]
          simp only [SweepPc.step, hstands]
          rfl
    · rename_i hcand
      exact ih st (h.keep fun hr => hcand ⟨hr.used, hr.owned⟩)

end Slots

/-! ### The loop -/

/-- How far a sweep has come: in the pool, or through the pool and in the table. -/
inductive SweptTo (dead : U32 → Bool) (r : Region) (L : Nat → List Nat) (F : List Nat)
    (U : Nat → Prop) (sc : SweepScan) : Region → Nat → Prop
  | nodes {r' : Region} : NodesReaped dead r L F U sc.nextNode r' → sc.nextSlot = 0 →
      SweptTo dead r L F U sc r' 0
  | slots {r₁ r' : Region} {n : Nat} : NodesReaped dead r L F U sc.nodeHi r₁ →
      sc.nextNode = sc.nodeHi →
      SlotsReaped dead r₁ (fun i => liveFrom dead r sc.nodeHi (L i))
        ((staleTo dead r sc.nodeHi).reverse ++ F) U sc.nextSlot r' n →
      SweptTo dead r L F U sc r' n

section Loop

variable {t : T} {pid : U32} {sh : Shared T} {r r' : Region} {L : Nat → List Nat} {F : List Nat}
  {U : Nat → Prop} {st : SweepSt}

/-- Two regions that agree with a third agree. -/
theorem SameButHead.symm_trans {r₀ r₁ r₂ : Region} {i : Nat} (h₁ : SameButHead r₀ r₁ i)
    (h₂ : SameButHead r₀ r₂ i) : SameButHead r₁ r₂ i := by
  obtain ⟨hd₁, he₁⟩ := h₁
  obtain ⟨hd₂, he₂⟩ := h₂
  exact ⟨hd₂, by rw [he₂, he₁]⟩

/-- The slots below which everything is reaped do not matter to the candidates above. -/
theorem SlotsReaped.above {dead : U32 → Bool} {b n : Nat} (h : SlotsReaped dead r L F U b r' n)
    (i : Nat) (hi : b ≤ i) : SameButHead r r' i := by
  obtain ⟨hd, he⟩ := h.slots i
  rw [if_neg fun hb => Nat.not_lt.mpr hi hb.1] at he
  exact ⟨hd, he⟩

/-- Nodes that are no candidates are passed over. -/
theorem NodesReaped.skip {dead : U32 → Bool} {a : Nat} (k : Nat)
    (h : NodesReaped dead r L F U a r') (hnone : nodesFrom r a k = []) :
    NodesReaped dead r L F U (a + k) r' := by
  induction k generalizing a with
  | zero => exact h
  | succ k ih =>
    rw [nodesFrom, List.append_eq_nil_iff] at hnone
    obtain ⟨hfirst, hrest⟩ := hnone
    rw [show a + (k + 1) = a + 1 + k by omega]
    refine ih (h.keep ?_) hrest
    cases hreg : (r.nodes a).registered with
    | true =>
      rw [if_pos hreg] at hfirst
      cases hfirst
    | false =>
      rw [WaitNode.stale, hreg]
      rfl

/-- Slots that are no candidates are passed over. -/
theorem SlotsReaped.skip {dead : U32 → Bool} {b n : Nat} (k : Nat)
    (h : SlotsReaped dead r L F U b r' n) (hnone : slotsFrom r b k = []) :
    SlotsReaped dead r L F U (b + k) r' n := by
  induction k generalizing b with
  | zero => exact h
  | succ k ih =>
    rw [slotsFrom, List.append_eq_nil_iff] at hnone
    obtain ⟨hfirst, hrest⟩ := hnone
    rw [show b + (k + 1) = b + 1 + k by omega]
    refine ih (h.keep fun hr => ?_) hrest
    rw [if_pos ⟨hr.used, hr.owned⟩] at hfirst
    cases hfirst

/-- The verdict on each candidate. -/
def verdicts (dead : U32 → Bool) (cands : List DeadCand) : List (DeadCand × Bool) :=
  cands.map fun c => (c, c.alive dead)

variable (t pid st) in
/-- **The reap of one chunk.** -/
theorem SweptTo.reap (hl : ListsOk r L F U) (hU : ∀ i, (r.slots i).state = .used → U i)
    {sc : SweepScan}
    (h : SweptTo sh.dead r L F U sc r' st.freed) {k m : Nat} {out : List DeadCand}
    (hchunk : Chunk r' sc k m out) :
    ∃ r'' n, SweepSteps t pid sh r'
        (.reap st (verdicts sh.dead (nodesFrom r' sc.nextNode k ++
          slotsFrom r' sc.nextSlot m))) r'' (.reap { st with freed := n } []) ∧
      SweptTo sh.dead r L F U (sc.skip k m) r'' n := by
  obtain ⟨scan, cache, freed⟩ := st
  dsimp only at h hchunk ⊢
  unfold verdicts
  rw [List.map_append]
  cases h with
  -- the scan is still in the pool: the nodes from here on are as the sweep found them
  | nodes hnodes hslot =>
    have hcands : nodesFrom r' sc.nextNode k = nodesFrom r sc.nextNode k :=
      nodesFrom_congr k fun n hn => ⟨hnodes.untouched hl hn, (hnodes.frame.kept n).pid⟩
    obtain ⟨r₁, hsteps₁, hr₁⟩ := reap_nodes t pid sh ⟨scan, cache, 0⟩
      ((slotsFrom r' sc.nextSlot m).map fun c => (c, c.alive sh.dead)) hl k hnodes
    rw [hcands]
    rcases hchunk.order with rfl | hend
    · refine ⟨r₁, 0, hsteps₁, .nodes hr₁ ?_⟩
      show sc.nextSlot + 0 = 0
      rw [hslot]
    · -- the pool is through, and the table follows
      rw [hend] at hr₁
      have hslots : slotsFrom r' sc.nextSlot m = slotsFrom r₁ sc.nextSlot m :=
        slotsFrom_congr m fun i _ => (hr₁.slots i).symm_trans (hnodes.slots i)
      have hU₁ (i : Nat) (hi : (r₁.slots i).state = .used) : U i := by
        obtain ⟨hd, he⟩ := hr₁.slots i
        rw [he] at hi
        exact hU i hi
      have hstart : SlotsReaped sh.dead r₁ (fun i => liveFrom sh.dead r sc.nodeHi (L i))
          ((staleTo sh.dead r sc.nodeHi).reverse ++ F) U sc.nextSlot r₁ 0 := by
        rw [hslot]
        exact .start hr₁.lists
      obtain ⟨r'', n, hsteps, hr''⟩ := reap_slots t pid sh ⟨scan, cache, 0⟩
        hr₁.lists hU₁ m hstart
      rw [hslots] at hsteps₁ ⊢
      exact ⟨r'', n, hsteps₁.trans hsteps, .slots hr₁ hend hr''⟩
  -- the scan is in the table
  | @slots r₁ _ _ hnodes hend hslots =>
    have hk : k = 0 := by
      have hle := hchunk.nodes
      omega
    subst hk
    have hcands : slotsFrom r' sc.nextSlot m = slotsFrom r₁ sc.nextSlot m :=
      slotsFrom_congr m fun i hi => hslots.above i hi
    have hU₁ (i : Nat) (hi : (r₁.slots i).state = .used) : U i := by
      obtain ⟨hd, he⟩ := hnodes.slots i
      rw [he] at hi
      exact hU i hi
    obtain ⟨r'', n, hsteps, hr''⟩ := reap_slots t pid sh ⟨scan, cache, freed⟩
      hnodes.lists hU₁ m hslots
    rw [hcands]
    exact ⟨r'', n, hsteps, .slots hnodes hend hr''⟩

/-- A chunk without candidates. -/
theorem SweptTo.skip {sc : SweepScan} {n k m : Nat} {out : List DeadCand} (hl : ListsOk r L F U)
    (h : SweptTo sh.dead r L F U sc r' n) (hchunk : Chunk r' sc k m out)
    (hnone : nodesFrom r' sc.nextNode k ++ slotsFrom r' sc.nextSlot m = []) :
    SweptTo sh.dead r L F U (sc.skip k m) r' n := by
  obtain ⟨hnoNode, hnoSlot⟩ := List.append_eq_nil_iff.mp hnone
  cases h with
  | nodes hnodes hslot =>
    rw [nodesFrom_congr k fun n hn => ⟨hnodes.untouched hl hn, (hnodes.frame.kept n).pid⟩] at hnoNode
    have hskip := hnodes.skip k hnoNode
    rcases hchunk.order with rfl | hend
    · refine .nodes hskip ?_
      show sc.nextSlot + 0 = 0
      rw [hslot]
    · rw [hend] at hskip
      have hstart : SlotsReaped sh.dead r' (fun i => liveFrom sh.dead r sc.nodeHi (L i))
          ((staleTo sh.dead r sc.nodeHi).reverse ++ F) U sc.nextSlot r' 0 := by
        rw [hslot]
        exact .start hskip.lists
      exact .slots hskip hend (hstart.skip m hnoSlot)
  | slots hnodes hend hslots =>
    have hk : k = 0 := by
      have hle := hchunk.nodes
      omega
    subst hk
    rw [slotsFrom_congr m fun i hi => hslots.above i hi] at hnoSlot
    exact .slots hnodes hend (hslots.skip m hnoSlot)

variable (t pid st) in
/-- **The whole sweep**, from any point of its loop on. -/
theorem sweep_steps (hl : ListsOk r L F U) (hU : ∀ i, (r.slots i).state = .used → U i)
    (h : SweptTo sh.dead r L F U st.scan r' st.freed) (hc : st.cache.Exact sh.dead)
    (hn : st.scan.nextNode ≤ st.scan.nodeHi) (hs : st.scan.nextSlot ≤ st.scan.slotHi) :
    ∃ r'' st' sc', SweepSteps t pid sh r' (.chunk st) r'' (.chunk st') ∧
      st'.scan.nextChunk r'' = (sc', []) ∧ SweptTo sh.dead r L F U sc' r'' st'.freed ∧
      sc'.nodeHi = st.scan.nodeHi ∧ sc'.slotHi = st.scan.slotHi ∧
      sc'.nextNode = sc'.nodeHi ∧ sc'.nextSlot = sc'.slotHi := by
  -- by induction on the indices the scan has not examined
  generalize hleft : st.scan.left = left
  induction left using Nat.strong_induction_on generalizing st r' with
  | _ left ih =>
    obtain ⟨k, m, hnext, hchunk⟩ := nextChunk_chunk (r := r') hn hs
    cases hout : nodesFrom r' st.scan.nextNode k ++ slotsFrom r' st.scan.nextSlot m with
    | nil =>
      rw [hout] at hnext
      have hend := hchunk.full.resolve_left (by rw [hout]; decide)
      exact ⟨r', st, _, .refl, hnext, h.skip hl hchunk hout, rfl, rfl, hend.1, hend.2⟩
    | cons c cands =>
      rw [hout] at hnext
      -- a chunk with a candidate has examined an index
      have hpos : 0 < k + m := by
        by_contra h0
        have hk0 : k = 0 := by omega
        have hm0 : m = 0 := by omega
        subst hk0 hm0
        cases hout
      obtain ⟨cache, hcache, hjudge⟩ := judge_steps t pid r' (c :: cands)
        { st with scan := st.scan.skip k m } [] hc
      obtain ⟨r₁, n, hreap, hr₁⟩ := SweptTo.reap t pid
        ⟨st.scan.skip k m, cache, st.freed⟩ hl hU h hchunk
      rw [hout] at hreap
      have hless : (st.scan.skip k m).left < left := by
        have hk := hchunk.nodes
        have hm := hchunk.slots
        rw [← hleft]
        show st.scan.nodeHi - (st.scan.nextNode + k) + (st.scan.slotHi - (st.scan.nextSlot + m)) <
          st.scan.nodeHi - st.scan.nextNode + (st.scan.slotHi - st.scan.nextSlot)
        omega
      obtain ⟨r'', st', sc', hsteps, hfin, hswept, hnh, hsh, hend⟩ := ih _ hless
        ⟨st.scan.skip k m, cache, n⟩ hr₁ hcache hchunk.nodes hchunk.slots rfl
      refine ⟨r'', st', sc', ?_, hfin, hswept, hnh, hsh, hend⟩
      have hchunkStep : (SweepPc.chunk st).step false (sh.on r') = some (.silent,
          .more (.judge false { st with scan := st.scan.skip k m } [] (c :: cands))) := by
        simp only [SweepPc.step, Shared.on, hnext, Bool.false_eq_true, if_false]
      refine .silent hchunkStep (hjudge.trans (hreap.trans ?_))
      exact .silent (u := .chunk ⟨st.scan.skip k m, cache, n⟩) rfl hsteps

end Loop

/-! ### Exactness -/

/-- The sweep frees slot `i`. -/
def Freed (dead : U32 → Bool) (r : Region) (i : Nat) : Prop :=
  i < slotCount ∧ (r.slots i).Reapable dead

instance (dead : U32 → Bool) (r : Region) (i : Nat) : Decidable (Freed dead r i) :=
  inferInstanceAs (Decidable (_ ∧ _))

/-- **An exact sweep** of the region `r` with the waiter lists `L` and the free list `F`, which
    frees `n` objects. -/
structure SweptExactly (dead : U32 → Bool) (r : Region) (L : Nat → List Nat) (F : List Nat)
    (U : Nat → Prop) (r' : Region) (n : Nat) : Prop where
  /-- The stale nodes are off every list and once on the free list; the list of a freed object is
      empty, and the live nodes of the others stay in order. -/
  lists : ListsOk r'
    (fun i => if Freed dead r i then [] else (L i).filter fun m => !(r.nodes m).stale dead)
    (((List.range r.nodeFresh).filter fun m => (r.nodes m).stale dead).reverse ++ F) U
  /-- A freed slot has a new generation; the others keep all but the head of their list. -/
  slots : ∀ i, ∃ hd, r'.slots i =
    { (if Freed dead r i then (r.slots i).freed else r.slots i) with waiterHead := hd }
  frame : SweepFrame r r'
  /-- The live nodes `W` on freed objects have the futex words of their waits bumped, the others
      keep theirs. -/
  woken : ∃ W : List Nat, W.Nodup ∧ (∀ m, m ∈ W ↔ (r.nodes m).stale dead = false ∧
      ∃ i, Freed dead r i ∧ m ∈ L i) ∧
    ∀ m, (r'.nodes m).seq = (r.nodes m).seq +
      BitVec.ofNat 32 (W.countP fun x => decide ((r.nodes x).waitWord = some m))
  count : n = ((List.range slotCount).filter fun i => decide ((r.slots i).Reapable dead)).length

section Exact

variable {dead : U32 → Bool} {r r' : Region} {L : Nat → List Nat} {F : List Nat} {U : Nat → Prop}
  {n : Nat}

/-- Whether a slot can be reaped does not depend on its list. -/
theorem Slot.Reapable.head {s : Slot} {hd : Option Nat} :
    Slot.Reapable dead { s with waiterHead := hd } ↔ s.Reapable dead :=
  ⟨fun h => ⟨h.used, h.owned, h.creator, h.tracked, h.holders⟩,
    fun h => ⟨h.used, h.owned, h.creator, h.tracked, h.holders⟩⟩

/-- Before the cursor wraps, `next_scan` is the cursor. -/
theorem Region.nextScan_unwrapped (h : ¬ r.wrapped) : r.nextScan.toNat = r.cursor := by
  have hzero : r.nextScan &&& scanWrapped = 0#32 := not_not.mp h
  have hself : r.nextScan = r.nextScan &&& ~~~scanWrapped := by
    have hsplit : r.nextScan = (r.nextScan &&& scanWrapped) ||| (r.nextScan &&& ~~~scanWrapped) := by
      have hall : (scanWrapped ||| ~~~scanWrapped : U32) = BitVec.allOnes 32 := by decide
      rw [← BitVec.and_or_distrib_left, hall, BitVec.and_allOnes]
    rw [hzero, BitVec.zero_or] at hsplit
    exact hsplit
  exact congrArg BitVec.toNat hself

/-- How far a scan goes: through the table once the cursor has wrapped, up to the cursor before. -/
theorem SweepScan.new_slotHi (r : Region) :
    (SweepScan.new r).slotHi = if r.wrapped then slotCount else r.cursor := by
  by_cases hw : r.wrapped
  · rw [if_pos hw]
    exact if_pos hw
  · rw [if_neg hw, ← Region.nextScan_unwrapped hw]
    exact if_neg hw

/-- **The scan range holds every reapable object.** -/
theorem CursorOk.range (h : CursorOk r) (i : Nat) :
    i < (SweepScan.new r).slotHi ∧ (r.slots i).Reapable dead ↔ Freed dead r i := by
  rw [SweepScan.new_slotHi]
  by_cases hw : r.wrapped
  · rw [if_pos hw]
    exact Iff.rfl
  · rw [if_neg hw]
    refine and_congr_left fun hr => ⟨fun hlt => Nat.lt_trans hlt h.lt, fun hlt => ?_⟩
    by_contra hge
    have h0 : i ≠ 0 := by
      rintro rfl
      exact hr.owned h.pid
    have hfree := h.free i hlt h0 (by rintro (hp | hp); exacts [hw hp, hge hp])
    rw [hr.used] at hfree
    cases hfree

/-- The indices above a bound do not count. -/
theorem filter_range_le {p : Nat → Bool} {a b : Nat} (hab : a ≤ b)
    (h : ∀ i, a ≤ i → i < b → p i = false) : (List.range b).filter p = (List.range a).filter p := by
  obtain ⟨d, rfl⟩ := Nat.exists_eq_add_of_le hab
  have hnil : ((List.range d).map (a + ·)).filter p = [] := by
    refine List.filter_eq_nil_iff.mpr fun i hi => ?_
    obtain ⟨j, hj, rfl⟩ := List.mem_map.mp hi
    have hlt := List.mem_range.mp hj
    rw [h _ (Nat.le_add_right a j) (by omega)]
    exact Bool.false_ne_true
  rw [List.range_add, List.filter_append, hnil, List.append_nil]

/-- What the two passes come to. -/
theorem SweptExactly.of_passes {r₁ : Region} (hl : ListsOk r L F U) (hc : CursorOk r)
    (h₁ : NodesReaped dead r L F U (SweepScan.new r).nodeHi r₁)
    (h₂ : SlotsReaped dead r₁ (fun i => liveFrom dead r (SweepScan.new r).nodeHi (L i))
      ((staleTo dead r (SweepScan.new r).nodeHi).reverse ++ F) U (SweepScan.new r).slotHi r' n) :
    SweptExactly dead r L F U r' n := by
  have hfresh : (SweepScan.new r).nodeHi = r.nodeFresh := Nat.min_eq_left hl.bound
  have hslot (i : Nat) : (r₁.slots i).Reapable dead ↔ (r.slots i).Reapable dead := by
    obtain ⟨hd, he⟩ := h₁.slots i
    rw [he]
    exact Slot.Reapable.head
  have hfreed (i : Nat) : ReapedTo dead r₁ (SweepScan.new r).slotHi i ↔ Freed dead r i := by
    rw [← hc.range i, ReapedTo, hslot]
  -- every listed node is below the end of the scan
  have hlive (i : Nat) : liveFrom dead r (SweepScan.new r).nodeHi (L i) =
      (L i).filter fun m => !(r.nodes m).stale dead := by
    refine List.filter_congr fun m hm => ?_
    have hlt : m < (SweepScan.new r).nodeHi := by
      rw [hfresh]
      exact hl.below m ((hl.mem i m).mp hm).1
    rw [decide_eq_true hlt, Bool.and_true]
  refine ⟨?_, fun i => ?_, h₁.frame.trans h₂.frame, ?_, ?_⟩
  · have hlists := h₂.lists
    simp only [hfreed, hlive] at hlists
    rw [staleTo, hfresh] at hlists
    exact hlists
  · obtain ⟨hd, he⟩ := h₁.slots i
    obtain ⟨hd', he'⟩ := h₂.slots i
    refine ⟨hd', ?_⟩
    rw [he', he]
    simp only [hfreed]
    split <;> rfl
  · obtain ⟨W, hnd, hmem, hseq⟩ := h₂.woken
    -- the first pass has kept the wait word of every node still listed
    have hin (m : Nat) (hm : m ∈ W) : (r₁.nodes m).waitWord = (r.nodes m).waitWord := by
      obtain ⟨i, _, hmi⟩ := (hmem m).mp hm
      exact ((h₁.frame.kept m).back ((h₁.lists.mem i m).mp hmi).1).2.2
    refine ⟨W, hnd, fun m => ?_, fun m => ?_⟩
    · rw [hmem]
      simp only [hfreed, hlive, List.mem_filter, Bool.not_eq_true']
      constructor
      · rintro ⟨i, hi, hm, hs⟩
        exact ⟨hs, i, hi, hm⟩
      · rintro ⟨hs, i, hi, hm⟩
        exact ⟨i, hi, hm, hs⟩
    · rw [hseq, h₁.seq]
      refine congrArg (fun k => (r.nodes m).seq + BitVec.ofNat 32 k) ?_
      exact List.countP_congr fun x hx => by rw [hin x hx]
  · rw [h₂.count]
    simp only [hslot]
    refine congrArg List.length (filter_range_le ?_ fun i hi hlt => ?_).symm
    · rw [SweepScan.new_slotHi]
      split
      · exact le_refl _
      · exact hc.lt.le
    · refine decide_eq_false fun hr => ?_
      exact Nat.not_lt.mpr hi ((hc.range i).mpr ⟨hlt, hr⟩).1

/-- What a freed slot and one that is kept have in common. -/
theorem SweptExactly.not_reapable (h : SweptExactly dead r L F U r' n) {i : Nat}
    (hi : i < slotCount) : ¬ (r'.slots i).Reapable dead := by
  obtain ⟨hd, he⟩ := h.slots i
  rw [he, Slot.Reapable.head]
  split
  · intro hr
    cases hr.used
  · rename_i hnot
    exact fun hr => hnot ⟨hi, hr⟩

/-- A sweep takes no slot into use. -/
theorem SweptExactly.used (h : SweptExactly dead r L F U r' n) {i : Nat}
    (hu : (r'.slots i).state = .used) : (r.slots i).state = .used := by
  obtain ⟨hd, he⟩ := h.slots i
  rw [he] at hu
  split at hu
  · cases hu
  · exact hu

/-- A sweep leaves the table in order. -/
theorem SweptExactly.cursorOk (h : SweptExactly dead r L F U r' n) (hc : CursorOk r) :
    CursorOk r' := by
  have hscan := h.frame.nextScan
  obtain ⟨hd, he⟩ := h.slots 0
  rw [if_neg fun hf => hf.2.owned hc.pid] at he
  refine ⟨?_, fun i hi h0 hp => ?_, ?_, ?_, ?_⟩
  · rw [Region.cursor, hscan]
    exact hc.lt
  · have hfree := hc.free i hi h0 fun hpass => hp ((Region.passed_congr hscan).mpr hpass)
    cases hs : (r'.slots i).state with
    | free => rfl
    | used =>
      rw [h.used hs] at hfree
      cases hfree
  · rw [he]
    exact hc.used
  · rw [he]
    exact hc.reserved
  · rw [he]
    exact hc.pid

end Exact

/-! ### The call -/

section Call

variable {t : T} {pid : U32} {sh : Shared T} {r : Region} {L : Nat → List Nat} {F : List Nat}
  {U : Nat → Prop}

/-- A thread's own steps lead to one end. -/
theorem Alone.unique {sh₁ sh₂ : Shared T} {pc pc₁ pc₂ : Pc} (h : Alone t pid sh pc sh₁ pc₁)
    (h' : Alone t pid sh pc sh₂ pc₂) (ho : pc₁.outside = true) (ho' : pc₂.outside = true) :
    sh₁ = sh₂ ∧ pc₁ = pc₂ := by
  induction h with
  | refl =>
    cases h' with
    | refl => exact ⟨rfl, rfl⟩
    | head ht _ _ =>
      rw [(tick_inv (ht 0)).inside] at ho
      cases ho
  | head ht _ _ ih =>
    cases h' with
    | refl =>
      rw [(tick_inv (ht 0)).inside] at ho'
      cases ho'
    | head ht' _ hrest =>
      have heq := (ht 0).symm.trans (ht' 0)
      cases heq
      exact ih hrest ho

/-- Undisturbed, the call takes the shared memory from `sh` to `sh'` and returns `x`. -/
structure Returns (t : T) (pid : U32) (sh : Shared T) (c : Call) (sh' : Shared T) (x : Ret) :
    Prop where
  run : Alone t pid sh (.start c) sh' (.done c x)
  only : ∀ sh'' pc, Alone t pid sh (.start c) sh'' pc → pc.outside = true →
    sh'' = sh' ∧ pc = .done c x

/-- A call that ends when it runs alone returns. -/
theorem Alone.returns {c : Call} {sh' : Shared T} {x : Ret}
    (h : Alone t pid sh (.start c) sh' (.done c x)) : Returns t pid sh c sh' x :=
  ⟨h, fun _ _ h' ho => h'.unique h ho rfl⟩

variable (t pid sh) in
/-- The loop of a sweep, from its start on. -/
theorem sweep_loop (hl : ListsOk r L F U) (hU : ∀ i, (r.slots i).state = .used → U i)
    (hc : CursorOk r) :
    ∃ r' n p, SweepSteps t pid sh r (.chunk (.new r)) r' p ∧
      p.step false (sh.on r') = some (.silent, .done n) ∧ SweptExactly sh.dead r L F U r' n := by
  obtain ⟨r', st, sc, hsteps, hfin, hswept, hnh, hsh, hn, hs⟩ := sweep_steps t pid (.new r) hl hU
    (SweptTo.nodes (.start hl : NodesReaped sh.dead r L F U 0 r) rfl) (PidCache.exact_new _)
    (Nat.zero_le _) (Nat.zero_le _)
  refine ⟨r', st.freed, .chunk st, hsteps, ?_, ?_⟩
  · simp only [SweepPc.step, Shared.on, hfin]
  · have hnh' : sc.nodeHi = (SweepScan.new r).nodeHi := hnh
    have hsh' : sc.slotHi = (SweepScan.new r).slotHi := hsh
    generalize hfreed : st.freed = n at hswept
    cases hswept with
    | nodes hnodes hslot =>
      rw [hn, hnh'] at hnodes
      refine .of_passes hl hc hnodes ?_
      rw [← hsh', ← hs, hslot]
      exact .start hnodes.lists
    | slots hnodes _ hslots =>
      rw [hnh'] at hnodes hslots
      rw [hs, hsh'] at hslots
      exact .of_passes hl hc hnodes hslots

variable (t pid) in
/-- **`sweep_dead`** undisturbed. -/
theorem sweep_dead_returns (hl : ListsOk r L F U) (hU : ∀ i, (r.slots i).state = .used → U i)
    (hc : CursorOk r) (dead : U32 → Bool) :
    ∃ r' n, SweptExactly dead r L F U r' n ∧
      Returns t pid ⟨r, none, dead⟩ .sweepDead ⟨r', none, dead⟩ (.num n) := by
  obtain ⟨r', n, p, hsteps, hdone, hexact⟩ := sweep_loop t pid ⟨r, some t, dead⟩ hl
    hU hc
  refine ⟨r', n, hexact, Alone.returns ?_⟩
  have hrun := hsteps.alone (fun p => .sweepDead (.run p)) fun p p₁ ins r hs => by
    refine ⟨fun _ => ?_, ?_⟩
    · show sweepDeadTick _ (.run p) = _
      rw [sweepDeadTick, hs]
    · rintro rfl
      cases SweepPc.step_sweeps hs
  refine .head (i := .lock) (q := .sweepDead (.run (.chunk (.new r)))) (fun _ => rfl)
    (by simp) (hrun.trans ?_)
  refine .head (i := .silent) (q := .sweepDead (.unlock n)) (fun _ => ?_) (by simp) ?_
  · show sweepDeadTick _ (.run p) = _
    rw [sweepDeadTick, hdone]
  · exact .head (i := .unlock) (fun _ => rfl) (by simp) .refl

end Call

/-- **An explicit sweep is exact.** In every state that processes reach without dying inside a
    critical section, while the lock is free and whatever the liveness function, `sweep_dead`
    undisturbed frees, detaches and wakes exactly what it should, and a second sweep frees
    nothing. -/
theorem sweep_dead_exact [DecidableEq T] {pid : T → U32} (hpid : ∀ t, pid t ≠ 0)
    {h : List (Label T)} {s : Sys T}
    (hr : Run Sys.step (fun s l _ => DiesOutside s l) (Sys.rest Region.init pid) h s) (t : T)
    (dead : U32 → Bool) :
    ∃ L F U r' n, ListsOk s.region L F U ∧ SweptExactly dead s.region L F U r' n ∧
      Returns t (pid t) ⟨s.region, none, dead⟩ .sweepDead ⟨r', none, dead⟩ (.num n) ∧
      ∃ r'', Returns t (pid t) ⟨r', none, dead⟩ .sweepDead ⟨r'', none, dead⟩ (.num 0) := by
  have hi : NodesInv s := hr.state_invariant (.of_init hpid)
    fun s a s' l hi hs hd => hi.step hs hd.clean
  obtain ⟨L, F, U, hp⟩ := hi.pool
  have hc := (CursorInv.of_run hr).ok
  obtain ⟨r', n, hexact, hret⟩ := sweep_dead_returns t (pid t) hp.lists hp.used hc dead
  obtain ⟨r'', n', hexact', hret'⟩ := sweep_dead_returns t (pid t) hexact.lists
    (fun i hu => hp.used i (hexact.used hu)) (hexact.cursorOk hc) dead
  -- nothing reapable is left
  obtain rfl : n' = 0 := by
    rw [hexact'.count, List.length_eq_zero_iff, List.filter_eq_nil_iff]
    intro i hi
    rw [decide_eq_false (hexact.not_reapable (List.mem_range.mp hi))]
    exact Bool.false_ne_true
  exact ⟨L, F, U, r', n, hp.lists, hexact, hret, r'', hret'⟩

/-- The event of process 7, which died in its wait, is freed; the wait of process 8 is woken. -/
theorem sweep_dead_exact_twoWaiters :
    ∃ h s, Run Sys.step (fun s l _ => DiesOutside s l) (Sys.rest Region.init twoWaitersPid) h s ∧
      (s.region.nodes 0).stale s.dead = true ∧ (s.region.nodes 1).stale s.dead = false ∧
      Freed s.dead s.region 1 ∧
      ∃ L F U r' n, ListsOk s.region L F U ∧ SweptExactly s.dead s.region L F U r' n ∧
        Returns (1 : Fin 2) (twoWaitersPid 1) ⟨s.region, none, s.dead⟩ .sweepDead ⟨r', none, s.dead⟩
          (.num n) ∧
        ∃ r'', Returns (1 : Fin 2) (twoWaitersPid 1) ⟨r', none, s.dead⟩ .sweepDead ⟨r'', none, s.dead⟩
          (.num 0) := by
  obtain ⟨h, s, hr, h₁, h₂, h₃⟩ := exists_run_of_exec Sys.step
    (fun s l _ => DiesOutside s l) (Sys.rest Region.init twoWaitersPid)
    (P := fun s => (s.region.nodes 0).stale s.dead = true ∧
      (s.region.nodes 1).stale s.dead = false ∧ Freed s.dead s.region 1)
    twoWaiters (by decide +kernel)
  exact ⟨h, s, hr, h₁, h₂, h₃, sweep_dead_exact (by decide) hr 1 s.dead⟩

end Ntsync
