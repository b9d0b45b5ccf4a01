import Mathlib
import Ntsync.Orphans
import Ntsync.SweepExact

namespace Ntsync

open Words

/-!
# The scan of a sweep visits every index once

`next_chunk` walks two cursors, over the node pool and then over the slot table, and returns
whenever it has 256 candidates.  Between two calls the region changes in any way at all.

* `SweepScan.examined` — the indices one call looks at, in order; `SweepScan.indices` — those the
  scan has still before it;
* `nextChunkLoop_spec` — a call splits the indices before it, and returns the candidates among those
  it looked at;
* `scan_visits_once` — all calls of a scan together, and the sweep loops that make them.
-/

/-- What the loop of `next_chunk` looks at: nodes (`true`) and slots (`false`). -/
def nextChunkLog (r : Region) : Nat → SweepScan → List DeadCand → List (Bool × Nat)
  | 0, _, _ => []
  | fuel + 1, sc, out =>
    if sweepChunk ≤ out.length then []
    else if sc.nextNode < sc.nodeHi then
      let n := r.nodes sc.nextNode
      (true, sc.nextNode) :: nextChunkLog r fuel { sc with nextNode := sc.nextNode + 1 }
        (if n.registered then out ++ [.ofNode sc.nextNode n.pid] else out)
    else if sc.nextSlot < sc.slotHi then
      let s := r.slots sc.nextSlot
      (false, sc.nextSlot) :: nextChunkLog r fuel { sc with nextSlot := sc.nextSlot + 1 }
        (if s.state = .used ∧ s.pid ≠ 0 then out ++ [.ofSlot sc.nextSlot s] else out)
    else []

/-- The indices a call of `next_chunk` looks at, in order. -/
def SweepScan.examined (r : Region) (sc : SweepScan) : List (Bool × Nat) :=
  nextChunkLog r sc.left sc []

/-- The indices before the scan: first the nodes, then the slots. -/
def SweepScan.indices (sc : SweepScan) : List (Bool × Nat) :=
  (List.range' sc.nextNode (sc.nodeHi - sc.nextNode)).map (true, ·) ++
    (List.range' sc.nextSlot (sc.slotHi - sc.nextSlot)).map (false, ·)

/-- The candidate that an index gives: a registered node, or a used slot with an owner. -/
def Region.candidate (r : Region) : Bool × Nat → Option DeadCand
  | (true, n) => if (r.nodes n).registered then some (.ofNode n (r.nodes n).pid) else none
  | (false, i) =>
    if (r.slots i).state = .used ∧ (r.slots i).pid ≠ 0 then some (.ofSlot i (r.slots i)) else none

section Loop

variable {r : Region} {sc : SweepScan}

/-- A scan has as many indices left as it counts. -/
theorem SweepScan.indices_length : sc.indices.length = sc.left := by
  simp [indices, left]

/-- The next index is a node while there is one. -/
theorem SweepScan.indices_node (h : sc.nextNode < sc.nodeHi) :
    sc.indices = (true, sc.nextNode) :: { sc with nextNode := sc.nextNode + 1 }.indices := by
  unfold indices
  rw [show sc.nodeHi - sc.nextNode = sc.nodeHi - (sc.nextNode + 1) + 1 by omega, List.range'_succ]
  rfl

/-- After the nodes come the slots. -/
theorem SweepScan.indices_slot (h : ¬ sc.nextNode < sc.nodeHi) (hs : sc.nextSlot < sc.slotHi) :
    sc.indices = (false, sc.nextSlot) :: { sc with nextSlot := sc.nextSlot + 1 }.indices := by
  unfold indices
  rw [show sc.nodeHi - sc.nextNode = 0 by omega,
    show sc.slotHi - sc.nextSlot = sc.slotHi - (sc.nextSlot + 1) + 1 by omega, List.range'_succ]
  rfl

/-- A scan at its end has no index left. -/
theorem SweepScan.indices_nil (h : ¬ sc.nextNode < sc.nodeHi) (hs : ¬ sc.nextSlot < sc.slotHi) :
    sc.indices = [] := by
  unfold indices
  rw [show sc.nodeHi - sc.nextNode = 0 by omega, show sc.slotHi - sc.nextSlot = 0 by omega]
  rfl

/-- One candidate more still fits into a chunk that is not full. -/
theorem offer_length_le {out : List DeadCand} {P : Prop} [Decidable P] (c : DeadCand)
    (h : out.length < sweepChunk) :
    (if P then out ++ [c] else out).length ≤ sweepChunk := by
  split
  · rw [List.length_append, List.length_singleton]
    exact h
  · exact le_of_lt h

/-- **One call.** It looks at the first of the indices before the scan, adds the candidates among
    them, and stops when the chunk is full or nothing is left. -/
theorem nextChunkLoop_spec (fuel : Nat) (out : List DeadCand) (hfuel : sc.left ≤ fuel)
    (hout : out.length ≤ sweepChunk) :
    sc.indices = nextChunkLog r fuel sc out ++ (nextChunkLoop r fuel sc out).1.indices ∧
    (nextChunkLoop r fuel sc out).2 =
      out ++ (nextChunkLog r fuel sc out).filterMap r.candidate ∧
    (nextChunkLoop r fuel sc out).2.length ≤ sweepChunk ∧
    ((nextChunkLoop r fuel sc out).2.length < sweepChunk →
      (nextChunkLoop r fuel sc out).1.indices = []) := by
  -- by induction on the fuel, which bounds the indices before the scan
  induction fuel generalizing sc out with
  | zero =>
    have hnil : sc.indices = [] := by
      rw [← List.length_eq_zero_iff, SweepScan.indices_length]
      omega
    exact ⟨by simp [nextChunkLog, nextChunkLoop], by simp [nextChunkLog, nextChunkLoop], hout,
      fun _ => hnil⟩
  | succ fuel ih =>
    simp only [nextChunkLog, nextChunkLoop]
    unfold SweepScan.left at hfuel
    split
    · -- the chunk is full
      rename_i hfull
      refine ⟨by simp, by simp, hout, fun hlt => ?_⟩
      dsimp only at hlt
      omega
    · rename_i hroom
      split
      · rename_i hn
        obtain ⟨hidx, hcand, hlen, hend⟩ := @ih { sc with nextNode := sc.nextNode + 1 }
          (if (r.nodes sc.nextNode).registered then
            out ++ [.ofNode sc.nextNode (r.nodes sc.nextNode).pid] else out) (by
              show sc.nodeHi - (sc.nextNode + 1) + (sc.slotHi - sc.nextSlot) ≤ fuel
              omega) (offer_length_le _ (by omega))
        refine ⟨?_, ?_, hlen, hend⟩
        · rw [SweepScan.indices_node hn, hidx]
          rfl
        · rw [hcand]
          by_cases hreg : (r.nodes sc.nextNode).registered = true
          · have hsome : r.candidate (true, sc.nextNode) = some (.ofNode sc.nextNode (r.nodes sc.nextNode).pid) := if_pos hreg
            rw [if_pos hreg, List.append_assoc, List.filterMap_cons_some hsome]
            rfl
          · have hnone : r.candidate (true, sc.nextNode) = none := if_neg hreg
            rw [if_neg hreg, List.filterMap_cons_none hnone]
      · rename_i hn
        split
        · rename_i hs
          obtain ⟨hidx, hcand, hlen, hend⟩ := @ih { sc with nextSlot := sc.nextSlot + 1 }
            (if (r.slots sc.nextSlot).state = .used ∧ (r.slots sc.nextSlot).pid ≠ 0 then
              out ++ [.ofSlot sc.nextSlot (r.slots sc.nextSlot)] else out) (by
                show sc.nodeHi - sc.nextNode + (sc.slotHi - (sc.nextSlot + 1)) ≤ fuel
                omega) (offer_length_le _ (by omega))
          refine ⟨?_, ?_, hlen, hend⟩
          · rw [SweepScan.indices_slot hn hs, hidx]
            rfl
          · rw [hcand]
            by_cases hused : (r.slots sc.nextSlot).state = .used ∧ (r.slots sc.nextSlot).pid ≠ 0
            · have hsome : r.candidate (false, sc.nextSlot) = some (.ofSlot sc.nextSlot (r.slots sc.nextSlot)) := if_pos hused
              rw [if_pos hused, List.append_assoc, List.filterMap_cons_some hsome]
              rfl
            · have hnone : r.candidate (false, sc.nextSlot) = none := if_neg hused
              rw [if_neg hused, List.filterMap_cons_none hnone]
        · rename_i hs
          exact ⟨by simp, by simp, hout, fun _ => SweepScan.indices_nil hn hs⟩

end Loop

/-! ### A whole scan -/

/-- The scan begun on `r₀` after `n` calls of `next_chunk`, the `k`-th of them on `rs k`. -/
def scanAt (r₀ : Region) (rs : Nat → Region) : Nat → SweepScan
  | 0 => .new r₀
  | n + 1 => ((scanAt r₀ rs n).nextChunk (rs n)).1

/-- The chunk that call `n` returns. -/
def chunkAt (r₀ : Region) (rs : Nat → Region) (n : Nat) : List DeadCand :=
  ((scanAt r₀ rs n).nextChunk (rs n)).2

/-- The indices that call `n` looks at. -/
def examinedAt (r₀ : Region) (rs : Nat → Region) (n : Nat) : List (Bool × Nat) :=
  (scanAt r₀ rs n).examined (rs n)

section Scan

variable {r₀ : Region} {rs : Nat → Region} {n : Nat}

/-- A scan starts with all nodes handed out and all slots used so far. -/
theorem SweepScan.new_indices (r : Region) : (SweepScan.new r).indices =
    (List.range (SweepScan.new r).nodeHi).map (true, ·) ++
      (List.range (SweepScan.new r).slotHi).map (false, ·) := by
  simp [indices, new, List.range_eq_range']

/-- A chunk takes the first of the indices that are left. -/
theorem scanAt_succ (r₀ : Region) (rs : Nat → Region) (n : Nat) :
    (scanAt r₀ rs n).indices = examinedAt r₀ rs n ++ (scanAt r₀ rs (n + 1)).indices :=
  (nextChunkLoop_spec _ [] (le_refl _) (Nat.zero_le _)).1

/-- A chunk collects the candidates among them. -/
theorem chunkAt_eq (r₀ : Region) (rs : Nat → Region) (n : Nat) :
    chunkAt r₀ rs n = (examinedAt r₀ rs n).filterMap (rs n).candidate :=
  (nextChunkLoop_spec _ [] (le_refl _) (Nat.zero_le _)).2.1

/-- A chunk has at most `sweepChunk` candidates. -/
theorem chunkAt_length_le (r₀ : Region) (rs : Nat → Region) (n : Nat) :
    (chunkAt r₀ rs n).length ≤ sweepChunk :=
  (nextChunkLoop_spec _ [] (le_refl _) (Nat.zero_le _)).2.2.1

/-- A chunk that is not full ends the scan. -/
theorem scanAt_exhausted (h : (chunkAt r₀ rs n).length < sweepChunk) :
    (scanAt r₀ rs (n + 1)).indices = [] :=
  (nextChunkLoop_spec _ [] (le_refl _) (Nat.zero_le _)).2.2.2 h

/-- The calls so far have looked at the first indices, in order. -/
theorem examined_prefix (r₀ : Region) (rs : Nat → Region) (n : Nat) :
    (List.range n).flatMap (examinedAt r₀ rs) ++ (scanAt r₀ rs n).indices =
      (SweepScan.new r₀).indices := by
  induction n with
  | zero => rfl
  | succ n ih =>
    rw [List.range_succ, List.flatMap_append, List.flatMap_singleton, List.append_assoc,
      ← scanAt_succ]
    exact ih

/-- A scan with nothing before it stays so, and returns empty chunks. -/
theorem exhausted_stays (h : (scanAt r₀ rs n).indices = []) (k : Nat) :
    (scanAt r₀ rs (n + k)).indices = [] ∧ chunkAt r₀ rs (n + k) = [] := by
  have hk : (scanAt r₀ rs (n + k)).indices = [] := by
    induction k with
    | zero => exact h
    | succ k ih =>
      have hsplit := scanAt_succ r₀ rs (n + k)
      rw [ih] at hsplit
      exact (List.append_eq_nil_iff.mp hsplit.symm).2
  refine ⟨hk, ?_⟩
  have hsplit := scanAt_succ r₀ rs (n + k)
  rw [hk] at hsplit
  rw [chunkAt_eq, (List.append_eq_nil_iff.mp hsplit.symm).1]
  rfl

/-- Each call that returns a candidate has looked at an index. -/
theorem calls_bounded (h : ∀ k < n, chunkAt r₀ rs k ≠ []) :
    n + (scanAt r₀ rs n).indices.length ≤ (SweepScan.new r₀).indices.length := by
  induction n with
  | zero =>
    rw [Nat.zero_add]
    exact le_refl _
  | succ n ih =>
    have hle := ih fun k hk => h k (Nat.lt_succ_of_lt hk)
    have hne := h n (Nat.lt_succ_self n)
    have hpos : 0 < (examinedAt r₀ rs n).length := by
      rw [List.length_pos_iff]
      intro hnil
      rw [chunkAt_eq, hnil] at hne
      exact hne rfl
    rw [scanAt_succ, List.length_append] at hle
    omega

/-- The first empty chunk ends the scan. -/
theorem exists_last (r₀ : Region) (rs : Nat → Region) :
    ∃ N ≤ (SweepScan.new r₀).indices.length, (∀ n, chunkAt r₀ rs n = [] ↔ N ≤ n) ∧
      (scanAt r₀ rs (N + 1)).indices = [] := by
  have hex : ∃ n, chunkAt r₀ rs n = [] := by
    by_contra hno
    rw [not_exists] at hno
    have hb := calls_bounded (n := (SweepScan.new r₀).indices.length + 1) fun k _ => hno k
    omega
  have hlast : (scanAt r₀ rs (Nat.find hex + 1)).indices = [] :=
    scanAt_exhausted (by rw [Nat.find_spec hex]; decide)
  refine ⟨Nat.find hex, ?_, fun n => ⟨fun hn => Nat.find_min' hex hn, fun hn => ?_⟩, hlast⟩
  · have hb := calls_bounded (n := Nat.find hex) fun k hk => Nat.find_min hex hk
    omega
  · rcases Nat.lt_or_eq_of_le hn with hlt | rfl
    · obtain ⟨k, rfl⟩ := Nat.exists_eq_add_of_lt hlt
      rw [show Nat.find hex + k + 1 = Nat.find hex + 1 + k by omega]
      exact (exhausted_stays hlast k).2
    · exact Nat.find_spec hex

end Scan

/-! ### The sweep loops -/

section Loops

variable {T : Type} {auto : Bool} {r₀ : Region} {rs : Nat → Region} {n : Nat} {p : SweepPc}

/-- A sweep begun on `r₀` that has called `next_chunk` `n` times, the `k`-th time on `rs k`.  What
    the other threads do to the memory between its steps is arbitrary. -/
inductive Sweeping (T : Type) (auto : Bool) (r₀ : Region) (rs : Nat → Region) :
    Nat → SweepPc → Prop
  | start : Sweeping T auto r₀ rs 0 (.chunk (.new r₀))
  | chunk {n : Nat} {st : SweepSt} {sh : Shared T} {ins : Instr} {p' : SweepPc} :
      Sweeping T auto r₀ rs n (.chunk st) → sh.region = rs n →
      SweepPc.step auto sh (.chunk st) = some (ins, .more p') → Sweeping T auto r₀ rs (n + 1) p'
  | work {n : Nat} {p p' : SweepPc} {sh : Shared T} {ins : Instr} : Sweeping T auto r₀ rs n p →
      (∀ st, p ≠ .chunk st) → p.step auto sh = some (ins, .more p') → Sweeping T auto r₀ rs n p'

/-- A call of the sweep on `rs n`: it ends the sweep when the chunk is empty, and else moves the
    cursors on. -/
theorem SweepPc.chunk_step {st : SweepSt} {sh : Shared T} (hst : st.scan = scanAt r₀ rs n)
    (hr : sh.region = rs n) :
    ((∃ ins freed, SweepPc.step auto sh (.chunk st) = some (ins, .done freed)) ↔
      chunkAt r₀ rs n = []) ∧
    ∀ ins p', SweepPc.step auto sh (.chunk st) = some (ins, .more p') →
      p'.st.scan = scanAt r₀ rs (n + 1) ∧ chunkAt r₀ rs n ≠ [] := by
  have hcall : st.scan.nextChunk sh.region = (scanAt r₀ rs (n + 1), chunkAt r₀ rs n) := by
    rw [hst, hr]
    rfl
  simp only [SweepPc.step, hcall]
  cases chunkAt r₀ rs n with
  | nil => simp
  | cons c cands => cases auto <;> simp <;> rfl

/-- The work between two calls leaves the cursors alone. -/
theorem SweepPc.work_scan {sh : Shared T} {ins : Instr} {p' : SweepPc}
    (hp : ∀ st, p ≠ .chunk st) (h : p.step auto sh = some (ins, .more p')) :
    p'.st.scan = p.st.scan := by
  generalize hq : Out.more p' = q at h
  cases SweepPc.step_inv h with
  | finished | chunkAuto | chunk => exact absurd rfl (hp _)
  | drop | probeDead | probeAlive =>
    cases hq
    rw [SweepPc.judge_st]
    rfl
  | walked | probe | relock | reaped | skip | reapNode | reapSlot | reapFree | reapGen | walk =>
    cases hq
    rfl

/-- The cursors of a sweep are where its calls have moved them, and every call so far has returned a
    candidate. -/
theorem Sweeping.scan (h : Sweeping T auto r₀ rs n p) :
    p.st.scan = scanAt r₀ rs n ∧ ∀ k < n, chunkAt r₀ rs k ≠ [] := by
  induction h with
  | start => exact ⟨rfl, fun k hk => absurd hk (Nat.not_lt_zero k)⟩
  | @chunk n st sh ins p' _ hr hstep ih =>
    obtain ⟨hscan, hne⟩ := (SweepPc.chunk_step ih.1 hr).2 ins p' hstep
    refine ⟨hscan, fun k hk => ?_⟩
    rcases Nat.lt_succ_iff_lt_or_eq.mp hk with hlt | rfl
    · exact ih.2 k hlt
    · exact hne
  | work _ hp hstep ih => exact ⟨(SweepPc.work_scan hp hstep).trans ih.1, ih.2⟩

end Loops

/-- **Chunked scanning visits everything once.**  Whatever the region holds at each call, there is a
    number `N` of calls that return candidates: the calls from then on return none, and together
    they have looked at each node below `node_hi`, then at each slot below `slot_hi`, once and in
    order. Each chunk has at most 256 candidates, those among what the call looked at, and an empty
    one leaves nothing before the scan.  The sweep loops make at most `N` calls before they end, and
    end at the next one only. -/
theorem scan_visits_once (T : Type) (auto : Bool) (r₀ : Region) (rs : Nat → Region) :
    ∃ N ≤ (SweepScan.new r₀).nodeHi + (SweepScan.new r₀).slotHi,
      (∀ n, chunkAt r₀ rs n = [] ↔ N ≤ n) ∧
      (List.range (N + 1)).flatMap (examinedAt r₀ rs) =
        (List.range (SweepScan.new r₀).nodeHi).map (true, ·) ++
          (List.range (SweepScan.new r₀).slotHi).map (false, ·) ∧
      (∀ n, chunkAt r₀ rs n = (examinedAt r₀ rs n).filterMap (rs n).candidate ∧
        (chunkAt r₀ rs n).length ≤ 256 ∧
        (chunkAt r₀ rs n = [] → (scanAt r₀ rs (n + 1)).indices = [])) ∧
      ∀ n p, Sweeping T auto r₀ rs n p → n ≤ N ∧ ∀ st (sh : Shared T), p = .chunk st →
        sh.region = rs n →
        ((∃ ins freed, p.step auto sh = some (ins, .done freed)) ↔ n = N) := by
  obtain ⟨N, hN, hempty, hdone⟩ := exists_last r₀ rs
  refine ⟨N, ?_, hempty, ?_, fun n => ⟨chunkAt_eq r₀ rs n, chunkAt_length_le r₀ rs n, fun hn =>
    scanAt_exhausted (by rw [hn]; decide)⟩, ?_⟩
  · rw [SweepScan.new_indices] at hN
    simpa using hN
  · have hall := examined_prefix r₀ rs (N + 1)
    rwa [hdone, List.append_nil, SweepScan.new_indices] at hall
  · intro n p hp
    obtain ⟨hscan, hne⟩ := hp.scan
    have hle : n ≤ N := by
      by_contra hlt
      exact hne N (not_le.mp hlt) ((hempty N).mpr (le_refl N))
    refine ⟨hle, ?_⟩
    rintro st sh rfl hr
    exact (SweepPc.chunk_step hscan hr).1.trans ((hempty n).trans ⟨hle.antisymm, ge_of_eq⟩)

end Ntsync
