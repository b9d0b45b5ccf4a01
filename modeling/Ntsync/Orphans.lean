import Mathlib
import Ntsync.Nodes

namespace Ntsync

open Words Lts Links

/-!
# Nodes of dead processes

What becomes of the nodes of a wait whose process dies.  A sweep recognises them by their
`registered` flag and gives them back; a node that a wake walk had detached before is on no list,
and nobody looks for it.

* `Sys.Orphan` — a registered node of a dead process;
* `SweepPc.Covers` — a `sweep_dead` under way still has every orphan before it, or has judged it
  dead;
* `AccountInv` — every node ever handed out is free, owned by a live thread, or an orphan;
* `nodes_accounted` — after a `sweep_dead` every node is free or owned by a live wait, in runs that
  meet `NodesSafe`;
* `detached_node_leaks` — the run of a waiter that is woken and killed.
-/

variable {T : Type}

/-! ### The scan finds every registered node -/

/-- The node `n` stands in the scan range, or among the candidates. -/
def Found (r : Region) (n : Nat) (sc : SweepScan) (out : List DeadCand) : Prop :=
  sc.nextNode ≤ n ∨ .ofNode n (r.nodes n).pid ∈ out

/-- A pass of the scan loses no registered node. -/
theorem nextChunkLoop_found {r : Region} {n fuel : Nat} {sc sc' : SweepScan}
    {out out' : List DeadCand} (hreg : (r.nodes n).registered = true)
    (h : nextChunkLoop r fuel sc out = (sc', out')) (hf : Found r n sc out) :
    Found r n sc' out' := by
  induction fuel generalizing sc out with
  | zero =>
    cases h
    exact hf
  | succ fuel ih =>
    simp only [nextChunkLoop] at h
    split at h
    · cases h
      exact hf
    · split at h
      · refine ih h ?_
        rcases hf with hf | hf
        · rcases Nat.eq_or_lt_of_le hf with he | hlt
          · rw [he, if_pos hreg]
            exact .inr (List.mem_append_right _ (List.mem_singleton_self _))
          · exact .inl hlt
        · refine .inr ?_
          split
          · exact List.mem_append_left _ hf
          · exact hf
      · split at h
        · refine ih h ?_
          rcases hf with hf | hf
          · exact .inl hf
          · refine .inr ?_
            split
            · exact List.mem_append_left _ hf
            · exact hf
        · cases h
          exact hf

/-- The scan range does not change, and an empty chunk means that all nodes were examined. -/
theorem nextChunkLoop_end {r : Region} {fuel : Nat} {sc sc' : SweepScan} {out out' : List DeadCand}
    (h : nextChunkLoop r fuel sc out = (sc', out')) (hfuel : sc.left ≤ fuel) :
    sc'.nodeHi = sc.nodeHi ∧ (out' = [] → sc'.nodeHi ≤ sc'.nextNode) := by
  -- a candidate that was found stays found
  have hgrow : ∀ {fuel sc sc'} {out out' : List DeadCand}, out ≠ [] →
      nextChunkLoop r fuel sc out = (sc', out') → out' ≠ [] := by
    intro fuel
    induction fuel with
    | zero =>
      intro sc sc' out out' hne h
      cases h
      exact hne
    | succ fuel ih =>
      intro sc sc' out out' hne h
      simp only [nextChunkLoop] at h
      split at h
      · cases h
        exact hne
      · split at h
        · refine ih ?_ h
          split
          · simp
          · exact hne
        · split at h
          · refine ih ?_ h
            split
            · simp
            · exact hne
          · cases h
            exact hne
  induction fuel generalizing sc out with
  | zero =>
    cases h
    refine ⟨rfl, fun _ => ?_⟩
    unfold SweepScan.left at hfuel
    omega
  | succ fuel ih =>
    simp only [nextChunkLoop] at h
    split at h
    · rename_i hfull
      cases h
      refine ⟨rfl, fun he => ?_⟩
      rw [he] at hfull
      cases hfull
    · split at h
      -- the bounds shrink by the index that was scanned
      · obtain ⟨h₁, h₂⟩ := ih h (by unfold SweepScan.left at hfuel ⊢; dsimp only; omega)
        exact ⟨h₁, h₂⟩
      · split at h
        · obtain ⟨h₁, h₂⟩ := ih h (by unfold SweepScan.left at hfuel ⊢; dsimp only; omega)
          exact ⟨h₁, h₂⟩
        · cases h
          exact ⟨rfl, fun _ => by omega⟩

/-! ### A sweep under way -/

/-- A registered node of a dead process. -/
def Sys.Orphan (s : Sys T) (n : Nat) : Prop :=
  (s.region.nodes n).registered = true ∧ s.dead (s.region.nodes n).pid = true

/-- The cursor, memo and count of a sweep. -/
def SweepPc.st : SweepPc → SweepSt
  | .chunk st | .drop st _ | .probe st _ _ _ _ | .relock st _ | .reap st _ | .reapFree st _ _
  | .reapGen st _ _ | .reapWalk st _ _ _ => st

/-- Node `n` has been judged dead and awaits its reap. -/
def Condemned (r : Region) (n : Nat) (judged : List (DeadCand × Bool)) : Prop :=
  (.ofNode n (r.nodes n).pid, false) ∈ judged

/-- Node `n` is still before the sweep. -/
def SweepPc.Pending (r : Region) (n : Nat) : SweepPc → Prop
  | .chunk st => st.scan.nextNode ≤ n
  | .drop st cands => Found r n st.scan cands
  | .probe st judged c pids rest => Found r n st.scan rest ∨ Condemned r n judged ∨
    (c = .ofNode n (r.nodes n).pid ∧ ∀ p ∈ pids, p = (r.nodes n).pid)
  | .relock st judged | .reap st judged | .reapFree st _ judged | .reapGen st _ judged
  | .reapWalk st _ _ judged => st.scan.nextNode ≤ n ∨ Condemned r n judged

/-- Every orphan is still before the sweep, which remembers none of them as alive. -/
structure SweepPc.Covers (s : Sys T) (p : SweepPc) : Prop where
  range : ∀ n, s.Orphan n → n < p.st.scan.nodeHi
  memo : ∀ n i, s.Orphan n → p.st.cache.pid i = (s.region.nodes n).pid → p.st.cache.alive i = false
  pending : ∀ n, s.Orphan n → p.Pending s.region n

/-- The memo of a sweep says of a dead process that it is dead. -/
theorem PidCache.probe_dead {dead : U32 → Bool} {c c' : PidCache} {p q : U32} {b : Bool}
    (hp : c.probe dead p = (b, c')) (hq : dead q = true)
    (h : ∀ i, c.pid i = q → c.alive i = false) :
    (∀ i, c'.pid i = q → c'.alive i = false) ∧ (p = q → b = false) := by
  unfold PidCache.probe at hp
  split at hp
  · cases hp
    exact ⟨h, fun _ => rfl⟩
  · split at hp
    · rename_i i hf
      cases hp
      refine ⟨h, fun hpq => h i ?_⟩
      have hi := List.find?_some hf
      rw [decide_eq_true_eq] at hi
      rw [hi, hpq]
    · cases hp
      have hverdict : p = q → pidAlive dead p = false := by
        rintro rfl
        rw [pidAlive, hq, Bool.not_true, Bool.and_false]
      refine ⟨fun i hi => ?_, hverdict⟩
      by_cases hin : i = c.next
      · subst hin
        simp only [Function.update_self] at hi ⊢
        exact hverdict hi
      · simp only [Function.update_of_ne hin] at hi ⊢
        exact h i hi

/-- A node stands for one process. -/
theorem DeadCand.ofNode_pids (n : Nat) (p : U32) : (DeadCand.ofNode n p).pids = [p] := by
  simp [DeadCand.pids, DeadCand.ofNode]

/-- Going on to the next candidate. -/
theorem SweepPc.pending_judge {r : Region} {n : Nat} {st : SweepSt}
    {judged : List (DeadCand × Bool)} {rest : List DeadCand}
    (h : Found r n st.scan rest ∨ Condemned r n judged) :
    (SweepPc.judge false st judged rest).Pending r n := by
  cases rest with
  | nil =>
    rcases h with (h | h) | h
    · exact .inl h
    · cases h
    · exact .inr h
  | cons c rest =>
    rcases h with (h | h) | h
    · exact .inl (.inl h)
    · rcases List.mem_cons.mp h with rfl | h
      · refine .inr (.inr ⟨rfl, fun p hp => ?_⟩)
        rw [DeadCand.ofNode_pids, List.mem_singleton] at hp
        exact hp
      · exact .inl (.inr h)
    · exact .inr (.inl h)

/-- Judging changes nothing but the verdicts. -/
theorem SweepPc.judge_st (auto : Bool) (st : SweepSt) (judged : List (DeadCand × Bool))
    (rest : List DeadCand) : (SweepPc.judge auto st judged rest).st = st := by
  cases rest <;> cases auto <;> rfl

section Covering

variable {s s' : Sys T} {p p' : SweepPc} {ins : Instr}

/-- A step of the sweep, as long as no orphan turns up and none is detached but by the reap. -/
theorem SweepPc.Covers.step {t : T} (hc : p.Covers s)
    (hstep : p.step false s.toShared = some (ins, .more p')) (hs' : s'.toShared = ins.apply t (s.threads t).pid s.toShared)
    (hback : ∀ n, s'.Orphan n → s.Orphan n ∧ (s'.region.nodes n).pid = (s.region.nodes n).pid) :
    p'.Covers s' := by
  -- what an orphan of the new state inherits
  have hpend : ∀ n, s'.Orphan n → p.Pending s.region n := fun n hn => hc.pending n (hback n hn).1
  have hrange : p'.st.scan.nodeHi = p.st.scan.nodeHi →
      ∀ n, s'.Orphan n → n < p'.st.scan.nodeHi := by
    intro he n hn
    rw [he]
    exact hc.range n (hback n hn).1
  have hmemo : p'.st.cache = p.st.cache → ∀ n i, s'.Orphan n →
      p'.st.cache.pid i = (s'.region.nodes n).pid → p'.st.cache.alive i = false := by
    intro he n i hn hp
    rw [he] at hp ⊢
    rw [(hback n hn).2] at hp
    exact hc.memo n i (hback n hn).1 hp
  have hfound : ∀ n sc out, s'.Orphan n → Found s.region n sc out → Found s'.region n sc out := by
    intro n sc out hn hf
    rw [Found, (hback n hn).2]
    exact hf
  have hcond : ∀ n judged, s'.Orphan n → Condemned s.region n judged →
      Condemned s'.region n judged := by
    intro n judged hn hf
    rw [Condemned, (hback n hn).2]
    exact hf
  have hg := SweepPc.step_inv hstep
  generalize hout : Out.more p' = out at hg
  cases hg with
  | finished => cases hout
  | chunkAuto _ ha | drop ha => cases ha
  | @chunk st scan cands hch _ =>
    cases hout
    obtain ⟨hhi, _⟩ := nextChunkLoop_end hch (le_refl _)
    refine ⟨hrange ?_, hmemo ?_, fun n hn => SweepPc.pending_judge (.inl (hfound n _ _ hn ?_))⟩
    · rw [SweepPc.judge_st]
      exact hhi
    · rw [SweepPc.judge_st]
      rfl
    · exact nextChunkLoop_found (hback n hn).1.1 hch (.inl (hpend n hn))
  | @probeDead st judged c rest =>
    cases hout
    refine ⟨hrange ?_, hmemo ?_, fun n hn => SweepPc.pending_judge ?_⟩
    · rw [SweepPc.judge_st]
      rfl
    · rw [SweepPc.judge_st]
      rfl
    · rcases hpend n hn with h | h | ⟨rfl, _⟩
      · exact .inl (hfound n _ _ hn h)
      · exact .inr (List.mem_append_left _ (hcond n _ hn h))
      · refine .inr (List.mem_append_right _ ?_)
        rw [(hback n hn).2]
        exact List.mem_singleton_self _
  | @probeAlive st judged c q pids rest cache hp =>
    cases hout
    have hprobe : ∀ n, s'.Orphan n → _ := fun n hn =>
      PidCache.probe_dead hp (hback n hn).1.2 fun i => hc.memo n i (hback n hn).1
    refine ⟨hrange ?_, fun n i hn hi => ?_, fun n hn => SweepPc.pending_judge ?_⟩
    · rw [SweepPc.judge_st]
      rfl
    · rw [SweepPc.judge_st] at hi ⊢
      rw [(hback n hn).2] at hi
      exact (hprobe n hn).1 i hi
    · rcases hpend n hn with h | h | ⟨_, hpids⟩
      · exact .inl (hfound n _ _ hn h)
      · exact .inr (List.mem_append_left _ (hcond n _ hn h))
      · -- the verdict on an orphan is never "alive"
        exact absurd ((hprobe n hn).2 (hpids q (List.mem_cons_self ..))) (by decide)
  | @probe st judged c q pids rest cache hp =>
    cases hout
    have hprobe : ∀ n, s'.Orphan n → _ := fun n hn =>
      PidCache.probe_dead hp (hback n hn).1.2 fun i => hc.memo n i (hback n hn).1
    refine ⟨hrange rfl, fun n i hn hi => ?_, fun n hn => ?_⟩
    · rw [(hback n hn).2] at hi
      exact (hprobe n hn).1 i hi
    · rcases hpend n hn with h | h | ⟨rfl, hpids⟩
      · exact .inl (hfound n _ _ hn h)
      · exact .inr (.inl (hcond n _ hn h))
      · refine .inr (.inr ⟨by rw [(hback n hn).2], fun p hp => ?_⟩)
        rw [(hback n hn).2]
        exact hpids p (List.mem_cons_of_mem _ hp)
  | relock =>
    cases hout
    refine ⟨hrange rfl, hmemo rfl, fun n hn => ?_⟩
    rcases hpend n hn with h | h
    · exact .inl h
    · exact .inr (hcond n _ hn h)
  | reaped =>
    cases hout
    refine ⟨hrange rfl, hmemo rfl, fun n hn => ?_⟩
    rcases hpend n hn with h | h
    · exact h
    · cases h
  | @skip st x judged =>
    cases hout
    refine ⟨hrange rfl, hmemo rfl, fun n hn => ?_⟩
    rcases hpend n hn with h | h
    · exact .inl h
    · rcases List.mem_cons.mp h with rfl | h
      · -- a condemned orphan is never skipped
        have hstands : (DeadCand.ofNode n (s.region.nodes n).pid).nodeStands s.region = true := by
          rw [DeadCand.nodeStands, Bool.and_eq_true]
          exact ⟨(hback n hn).1.1, decide_eq_true rfl⟩
        have hnode : (DeadCand.ofNode n (s.region.nodes n).pid).node = true := rfl
        simp only [SweepPc.step, hstands, hnode, Bool.false_eq_true, if_false, if_true] at hstep
        cases hstep
      · exact .inr (hcond n _ hn h)
  | @reapNode st c judged hnode hstands =>
    cases hout
    refine ⟨hrange rfl, hmemo rfl, fun n hn => ?_⟩
    rcases hpend n hn with h | h
    · exact .inl h
    · rcases List.mem_cons.mp h with he | h
      · -- the node just detached is no orphan
        obtain rfl : DeadCand.ofNode n (s.region.nodes n).pid = c := (Prod.mk.inj he).1
        have hreg : (s'.region.nodes n).registered = true := hn.1
        rw [hs'] at hreg
        have hself := (Region.nodeDetach_self (r := s.region) (n := n)).1
        exact absurd (hself.symm.trans hreg) (by decide)
      · exact .inr (hcond n _ hn h)
  | reapSlot hnode _ =>
    cases hout
    refine ⟨hrange rfl, hmemo rfl, fun n hn => ?_⟩
    rcases hpend n hn with h | h
    · exact .inl h
    · rcases List.mem_cons.mp h with he | h
      · rw [← (Prod.mk.inj he).1] at hnode
        cases hnode
      · exact .inr (hcond n _ hn h)
  | reapFree | reapGen | walk | walked =>
    cases hout
    refine ⟨hrange rfl, hmemo rfl, fun n hn => ?_⟩
    rcases hpend n hn with h | h
    · exact .inl h
    · exact .inr (hcond n _ hn h)

end Covering

/-! ### Accounting -/

namespace Sys

/-- The node is on the free list. -/
def OnFree (s : Sys T) (n : Nat) : Prop :=
  ∃ F, Path (fun m => (s.region.nodes m).waiterNext) s.region.nodeFreeHead F ∧ n ∈ F

/-- The node belongs to a live thread. -/
def Held (s : Sys T) (n : Nat) : Prop :=
  ∃ t, s.dead (s.threads t).pid = false ∧ n ∈ (s.threads t).pc.owned

end Sys

/-- The node a wake walk detaches next. -/
def Pc.wakes? (pc : Pc) : Option Nat :=
  match pc.walk? with
  | some (_, .node idx) => idx
  | _ => none

def Pc.panics : Pc → Bool
  | .panicked => true
  | _ => false

/-- A `sweep_dead` that holds the lock. -/
def Pc.sweepsDead : Pc → Bool
  | .sweepDead .lock => false
  | .sweepDead _ => true
  | _ => false

/-- A process dies outside the critical sections, with every node of its waits registered and none
    of them while a `sweep_dead` is under way; wake walks detach no node of a dead process; no wait
    panics. -/
def NodesSafe (s : Sys T) (l : Label T) (s' : Sys T) : Prop :=
  match l with
  | .die pid => ∀ t, (s.threads t).pid = pid → s.dead pid = false →
    (s.threads t).pc.locked = false ∧
    (∀ n ∈ (s.threads t).pc.waitNodes, (s.region.nodes n).registered = true) ∧
    ((s.threads t).pc.waitNodes ≠ [] →
      ∀ u, (s.threads u).pc.sweepsDead = true → s.dead (s.threads u).pid = true)
  | .instr t _ _ => ((s.threads t).pc.wakes?.all fun n => !s.dead (s.region.nodes n).pid) = true ∧
    (s'.threads t).pc.panics = false
  | .call _ _ => True

/-- Every node that was ever handed out is accounted for, and a `sweep_dead` misses no orphan. -/
structure AccountInv (s : Sys T) : Prop where
  nodes : NodesInv s
  account : ∀ n < s.region.nodeFresh, s.OnFree n ∨ s.Held n ∨ s.Orphan n
  covers : ∀ t p, s.dead (s.threads t).pid = false → (s.threads t).pc = .sweepDead (.run p) →
    p.locked false = true ∧ p.Covers s
  swept : ∀ t m, s.dead (s.threads t).pid = false → (s.threads t).pc = .sweepDead (.unlock m) →
    ∀ n, ¬ s.Orphan n

/-- The invariant holds of a fresh region. -/
theorem AccountInv.of_init {pid : T → U32} (hpid : ∀ t, pid t ≠ 0) :
    AccountInv (Sys.rest Region.init pid) :=
  ⟨.of_init hpid, fun n hn => absurd hn (Nat.not_lt_zero n), fun _ _ _ h => (by cases h),
    fun _ _ _ h => (by cases h)⟩

/-- Only allocation, registration and detaching change who owns a node or whether it is
    registered. -/
theorem Instr.entry_same {sh : Shared T} {pid : U32} {ins : Instr} {t : T} {n : Nat}
    (ha : ins ≠ .allocNode) (hr : ∀ m i w, ins ≠ .register m i w) (hd : ∀ m, ins ≠ .detach m) :
    ((ins.apply t pid sh).region.nodes n).registered = (sh.region.nodes n).registered ∧
      ((ins.apply t pid sh).region.nodes n).pid = (sh.region.nodes n).pid := by
  cases ins with
  | allocNode => exact absurd rfl ha
  | register m i w => exact absurd rfl (hr m i w)
  | detach m => exact absurd rfl (hd m)
  | freeNode m =>
    simp only [Instr.apply, Region.nodeFree, Region.setNode_nodes]
    split
    · rename_i hm
      rw [hm]
      exact ⟨rfl, rfl⟩
    · exact ⟨rfl, rfl⟩
  | bump m =>
    simp only [Instr.apply, Region.bumpSeq, Region.setNode_nodes]
    split
    · rename_i hm
      rw [hm]
      exact ⟨rfl, rfl⟩
    · exact ⟨rfl, rfl⟩
  | _ => exact ⟨rfl, rfl⟩

section AccountStep

variable [DecidableEq T] {s s' : Sys T} {L : Nat → List Nat} {F : List Nat} {U : Nat → Prop} {t : T}
  {o : Oracle} {ins : Instr} {pc' : Pc} {n : Nat}

/-- An access makes no orphan. -/
theorem PoolInv.orphan_back (hi : PoolInv s L F U) (ha : s.dead (s.threads t).pid = false)
    (hpool : PoolGo s.region (s.threads t).pid (s.threads t).pc ins pc')
    (hn : (s.after t ins pc').Orphan n) :
    s.Orphan n ∧ ((s.after t ins pc').region.nodes n).pid = (s.region.nodes n).pid := by
  obtain ⟨hreg, hdead⟩ := hn
  rw [Sys.after_dead] at hdead
  have hkept : (∀ m r, ins = .allocNode → s.region.nodeAlloc (s.threads t).pid = some (m, r) →
      n ≠ m) → (∀ i w, ins ≠ .register n i w) → s.Orphan n ∧
        ((s.after t ins pc').region.nodes n).pid = (s.region.nodes n).pid := by
    intro h₁ h₂
    have hk : Kept (s.region.nodes n) ((s.after t ins pc').region.nodes n) := Instr.kept h₁ h₂
    rw [hk.pid] at hdead
    exact ⟨⟨(hk.back hreg).1, hdead⟩, hk.pid⟩
  generalize hpc : (s.threads t).pc = pc at hpool
  cases hpool with
  | @alloc c m r hm =>
    refine hkept (fun m' r' _ hm' => ?_) (fun i w he => by cases he)
    rw [hm] at hm'
    cases hm'
    rintro rfl
    obtain ⟨F', _, hal⟩ := hi.lists.alloc hm
    have hr : (s.after t .allocNode (.wait (c.addNode n) (.pass (c.addNode n).allocNext))).region =
        r := by
      show (Instr.allocNode.apply t (s.threads t).pid s.toShared).region = r
      simp only [Instr.apply, hm]
    rw [hr, hal.node] at hreg
    cases hreg
  | @register c k hk =>
    by_cases hnk : n = c.node k
    · -- a node is registered by its owner, who is alive
      obtain ⟨hlen, hklt, _⟩ := (hi.knows t ha).nodes c _ hpc
      have hmem : c.node k ∈ c.nodes := WaitCtx.node_mem (by rw [hlen]; exact hklt)
      have howner := hi.owner t ha (c.node k) (by rw [hpc]; exact hmem)
      have hpid : ((s.after t (.register (c.node k) (c.target k) (c.node 0))
          (.wait c (.pass (c.registerNext k)))).region.nodes (c.node k)).pid =
          (s.region.nodes (c.node k)).pid := Region.nodeRegister_self.2.2.2
      rw [hnk, hpid, howner, ha] at hdead
      cases hdead
    · exact hkept (fun _ _ he => by cases he) (fun i w he => by cases he; exact hnk rfl)
  | wake | detach | reap | free | reapFree | take =>
    exact hkept (fun _ _ he => by cases he) (fun i w he => by cases he)
  | other hl =>
    refine hkept (fun _ _ he => ?_) (fun i w he => ?_) <;> subst he <;> cases hl

/-- An orphan stays one until a wake walk detaches it or a sweep takes it. -/
theorem PoolInv.orphan_stays (hi : PoolInv s L F U) (ha : s.dead (s.threads t).pid = false)
    (hpool : PoolGo s.region (s.threads t).pid (s.threads t).pc ins pc') (hn : s.Orphan n)
    (hwake : (s.threads t).pc.wakes? ≠ some n) (hown : n ∉ pc'.owned) :
    (s.after t ins pc').Orphan n := by
  have hsame : ((s.after t ins pc').region.nodes n).registered = (s.region.nodes n).registered ∧
      ((s.after t ins pc').region.nodes n).pid = (s.region.nodes n).pid →
      (s.after t ins pc').Orphan n := by
    rintro ⟨h₁, h₂⟩
    refine ⟨h₁.trans hn.1, ?_⟩
    rw [Sys.after_dead, h₂]
    exact hn.2
  -- no live wait owns an orphan
  have hnot : n ∉ (s.threads t).pc.waitNodes := by
    intro hm
    have hdead := hn.2
    rw [hi.owner t ha n hm, ha] at hdead
    cases hdead
  generalize hpc : (s.threads t).pc = pc at hpool
  cases hpool with
  | @alloc c m r hm =>
    obtain ⟨F', _, hal⟩ := hi.lists.alloc hm
    have hr : (s.after t .allocNode (.wait (c.addNode m) (.pass (c.addNode m).allocNext))).region =
        r := by
      show (Instr.allocNode.apply t (s.threads t).pid s.toShared).region = r
      simp only [Instr.apply, hm]
    have hnm : n ≠ m := by
      rintro rfl
      refine hown (List.mem_append_left _ ?_)
      show n ∈ c.nodes ++ [n]
      exact List.mem_append_right _ (List.mem_singleton_self n)
    refine hsame ?_
    rw [hr, hal.others n hnm]
    exact ⟨rfl, rfl⟩
  | @register c k hk =>
    have hnk : n ≠ c.node k := by
      rintro rfl
      rw [hn.1] at hk
      cases hk
    exact hsame ⟨(Region.nodeRegister_other hnk).1, (Region.nodeRegister_other hnk).2.pid⟩
  | @wake _ _ i m hw _ _ =>
    have hnm : n ≠ m := by
      rintro rfl
      refine hwake ?_
      rw [Pc.wakes?, hpc, hw]
    exact hsame ⟨(Region.nodeDetach_other hnm).1, (Region.nodeDetach_other hnm).2.pid⟩
  | @detach c p p' m hreg hcase _ =>
    have hmem : m ∈ (s.threads t).pc.waitNodes := by
      rw [hpc]
      have hok := (hi.knows t ha).nodes c p hpc
      rcases hcase with ⟨k, rfl, rfl, _⟩ | ⟨out, todo, rfl, rfl⟩
      · exact WaitCtx.node_mem hok.2
      · exact hok.1 m (List.mem_cons_self ..)
    have hnm : n ≠ m := by
      rintro rfl
      exact hnot hmem
    exact hsame ⟨(Region.nodeDetach_other hnm).1, (Region.nodeDetach_other hnm).2.pid⟩
  | @reap _ _ auto st x judged _ _ _ hsw' _ =>
    have hnx : n ≠ x.index := by
      rintro rfl
      refine hown (List.mem_append_right _ ?_)
      rw [Pc.reaped_sweep hsw']
      exact List.mem_singleton_self _
    exact hsame ⟨(Region.nodeDetach_other hnx).1, (Region.nodeDetach_other hnx).2.pid⟩
  | free | reapFree | take =>
    exact hsame (Instr.entry_same (fun he => by cases he) (fun _ _ _ he => by cases he)
      (fun _ he => by cases he))
  | other hl =>
    refine hsame (Instr.entry_same (fun he => ?_) (fun _ _ _ he => ?_) (fun _ he => ?_)) <;>
      subst he <;> cases hl

omit [DecidableEq T] in
/-- A sweep that holds the lock is not disturbed by others. -/
theorem SweepPc.Covers.congr {p : SweepPc} (hc : p.Covers s)
    (hnodes : s'.region.nodes = s.region.nodes) (hback : ∀ n, s'.Orphan n → s.Orphan n) :
    p.Covers s' where
  range n hn := hc.range n (hback n hn)
  memo n i hn hp := by
    rw [hnodes] at hp
    exact hc.memo n i (hback n hn) hp
  pending n hn := by
    have h := hc.pending n (hback n hn)
    cases p <;> simp only [SweepPc.Pending, Found, Condemned, hnodes] at h ⊢ <;> exact h

omit [DecidableEq T] in
/-- A new sweep has everything before it. -/
theorem SweepPc.covers_new (hi : PoolInv s L F U) : (SweepPc.chunk (.new s.region)).Covers s where
  range n hn := by
    have hlt := hi.lists.below n hn.1
    have hle := hi.lists.bound
    show n < min s.region.nodeFresh nodeCount
    omega
  memo n i _ _ := rfl
  pending n _ := Nat.zero_le n

omit [DecidableEq T] in
/-- A sweep that finds no candidate has no orphan left. -/
theorem SweepPc.Covers.finished {p : SweepPc} {m : Nat} (hc : p.Covers s)
    (hstep : p.step false s.toShared = some (ins, .done m)) :
    ins = .silent ∧ ∀ n, ¬ s.Orphan n := by
  have hg := SweepPc.step_inv hstep
  generalize hout : Out.done m = out at hg
  cases hg with
  | @finished st scan hch =>
    refine ⟨rfl, fun n hn => ?_⟩
    obtain ⟨hhi, hend⟩ := nextChunkLoop_end hch (le_refl _)
    rcases nextChunkLoop_found hn.1 hch (.inl (hc.pending n hn)) with h | h
    · have hlt : n < st.scan.nodeHi := hc.range n hn
      have := hend rfl
      omega
    · cases h
  | _ => cases hout

omit [DecidableEq T] in
/-- A `sweep_dead` keeps the lock. -/
theorem SweepPc.locked_step {sh : Shared T} {p p' : SweepPc}
    (hstep : p.step false sh = some (ins, .more p')) : p'.locked false = true := by
  have hg := SweepPc.step_inv hstep
  generalize hout : Out.more p' = out at hg
  cases hg with
  | finished => cases hout
  | chunkAuto _ ha | drop ha => cases ha
  | chunk | probeDead | probeAlive =>
    cases hout
    exact SweepPc.judge_locked _ _ _ _
  | _ =>
    cases hout
    rfl

/-- The accounts after an access. -/
theorem AccountInv.tick (hi : AccountInv s) (ha : s.dead (s.threads t).pid = false)
    (ht : tick o s.toShared (s.threads t).pid (s.threads t).calls (s.threads t).pc =
      some (ins, pc'))
    (hok : NodesSafe s (.instr t (s.threads t).pid ins) (s.after t ins pc'))
    (hnodes : NodesInv (s.after t ins pc')) : AccountInv (s.after t ins pc') := by
  have hni := hi.nodes
  obtain ⟨L, F, U, hp⟩ := hni.pool
  obtain ⟨L', F', U', hp', hcons⟩ := hp.tick hni.table hni.shape hni.sweeps hni.pids ha ht
  obtain ⟨hwake, hpanic⟩ := hok
  rw [Sys.after_pc, if_pos rfl] at hpanic
  have hg := tick_inv ht
  have hback : ∀ n, (s.after t ins pc').Orphan n → s.Orphan n ∧
      ((s.after t ins pc').region.nodes n).pid = (s.region.nodes n).pid :=
    fun n hn => hp.orphan_back ha hg.pool hn
  -- while somebody else sweeps, nobody touches the nodes
  have hothers : ∀ u, u ≠ t → s.dead (s.threads u).pid = false →
      (s.threads u).pc.locked = true → (s.after t ins pc').region.nodes = s.region.nodes :=
    fun u hut hua hlk => (Instr.unguarded_links _ _ _ (hni.table.lock.others ha ht hut hua hlk)).1
  refine ⟨hnodes, fun n hn => ?_, fun u p hua hpc => ?_, fun u m hua hpc n hn => ?_⟩
  · have hne : pc' ≠ .panicked := by
      rintro rfl
      cases hpanic
    have hmine : n ∈ pc'.owned → (s.after t ins pc').Held n := fun h =>
      ⟨t, by rw [Sys.after_dead, Sys.after_pid]; exact ha, by rw [Sys.after_pc, if_pos rfl]; exact h⟩
    rcases hcons hne n hn with h | h | ⟨hlt, hF, hown⟩
    · exact .inl ⟨F', hp'.lists.free, h⟩
    · rw [Sys.after_pc, if_pos rfl] at h
      exact .inr (.inl (hmine h))
    · rcases hi.account n hlt with ⟨F₁, hF₁, hmem⟩ | ⟨u, hua, hu⟩ | horph
      · rw [hF₁.unique hp.lists.free] at hmem
        exact absurd hmem hF
      · have hut : u ≠ t := by
          rintro rfl
          exact hown hu
        exact .inr (.inl ⟨u, by rw [Sys.after_dead, Sys.after_pid]; exact hua,
          by rw [Sys.after_pc, if_neg hut]; exact hu⟩)
      · by_cases hm : n ∈ pc'.owned
        · exact .inr (.inl (hmine hm))
        · refine .inr (.inr (hp.orphan_stays ha hg.pool horph (fun hw => ?_) hm))
          rw [hw] at hwake
          simp [horph.2] at hwake
  · rw [Sys.after_dead, Sys.after_pid] at hua
    rw [Sys.after_pc] at hpc
    by_cases hut : u = t
    · subst hut
      rw [if_pos rfl] at hpc
      subst hpc
      generalize hpc : (s.threads u).pc = pc at hg
      cases hg with
      | sweepDead hg =>
        cases hg with
        | lock =>
          exact ⟨rfl, (SweepPc.covers_new hp).congr rfl fun n hn => (hback n hn).1⟩
        | run hs => exact ⟨SweepPc.locked_step hs, (hi.covers u _ ha hpc).2.step hs rfl hback⟩
      | op hg => cases hg
      | pulse hg => cases hg
      | wait hg => rcases hg.args with h | h <;> cases h
      | create hg => cases hg
      | close hg => cases hg
      | hold hg => cases hg
    · rw [if_neg hut] at hpc
      obtain ⟨hlk, hc⟩ := hi.covers u p hua hpc
      have hlocked : (s.threads u).pc.locked = true := by rw [hpc]; exact hlk
      exact ⟨hlk, hc.congr (hothers u hut hua hlocked) fun n hn => (hback n hn).1⟩
  · rw [Sys.after_dead, Sys.after_pid] at hua
    rw [Sys.after_pc] at hpc
    by_cases hut : u = t
    · subst hut
      rw [if_pos rfl] at hpc
      subst hpc
      generalize hpc : (s.threads u).pc = pc at hg
      cases hg with
      | sweepDead hg =>
        cases hg with
        | swept hs => exact ((hi.covers u _ ha hpc).2.finished hs).2 n (hback n hn).1
      | op hg => cases hg
      | pulse hg => cases hg
      | wait hg => rcases hg.args with h | h <;> cases h
      | create hg => cases hg
      | close hg => cases hg
      | hold hg => cases hg
    · rw [if_neg hut] at hpc
      exact hi.swept u m hua hpc n (hback n hn).1

omit [DecidableEq T] in
/-- Who dies with a `sweep_dead` under way has no registered nodes. -/
theorem AccountInv.orphan_died {pid : U32} {u : T} (hi : AccountInv s)
    (hok : NodesSafe s (.die pid) (s.died pid)) (hua : s.dead (s.threads u).pid = false)
    (hu : (s.threads u).pc.sweepsDead = true) (hn : (s.died pid).Orphan n) : s.Orphan n := by
  obtain ⟨hreg, hdead⟩ := hn
  rw [Sys.died_dead, Bool.or_eq_true] at hdead
  refine ⟨hreg, ?_⟩
  rcases hdead with he | hdead
  · obtain ⟨L, F, U, hp⟩ := hi.nodes.pool
    have he' : (s.region.nodes n).pid = pid := of_decide_eq_true he
    rcases hi.account n (hp.lists.below n hreg) with ⟨F₁, hF₁, hmem⟩ | ⟨v, hva, hv⟩ | horph
    · rw [hF₁.unique hp.lists.free] at hmem
      have hun := (hp.lists.freeOk n hmem).2
      exact absurd (hun.symm.trans hreg) (by decide)
    · rcases List.mem_append.mp hv with hv | hv
      · have hvp := (hp.owner v hva n hv).symm.trans he'
        have hlate := (hok v hvp (hvp ▸ hva)).2.2 (List.ne_nil_of_mem hv) u hu
        rw [hua] at hlate
        cases hlate
      · have hun := (hp.knows v hva).reaped n hv
        exact absurd (hun.symm.trans hreg) (by decide)
    · exact horph.2
  · exact hdead

/-- **The accounts are kept by every allowed step.** -/
theorem AccountInv.step {a : Action T} {l : Label T} (hi : AccountInv s)
    (h : s.step a = some (s', l)) (hok : NodesSafe s l s') : AccountInv s' := by
  -- a thread that frees a slot holds the lock, and nobody dies there
  have hclean : CleanDeath s l := by
    cases l with
    | die pid =>
      intro t i ht hd hf
      have hlk := Pc.locked_of_frees hf
      rw [(hok t ht hd).1] at hlk
      cases hlk
    | _ => trivial
  have hnodes := hi.nodes.step h hclean
  cases Sys.step_inv h with
  | @call t c ha hout =>
    have hpcs : ∀ u q, ((s.entered t c).threads u).pc = .sweepDead q → q ≠ .lock →
        (s.threads u).pc = .sweepDead q := by
      intro u q hpc hq
      rw [Sys.entered_pc] at hpc
      split at hpc
      · cases c <;> simp only [Pc.start] at hpc <;> (try split at hpc) <;> cases hpc
        exact absurd rfl hq
      · exact hpc
    refine ⟨hnodes, fun n hn => ?_, fun u p hua hpc => ?_, fun u m hua hpc => ?_⟩
    -- a call starts without nodes of its own
    · rcases hi.account n hn with h | ⟨u, hua, hu⟩ | h
      · exact .inl h
      · refine .inr (.inl ⟨u, by rw [Sys.entered_dead, Sys.entered_pid]; exact hua, ?_⟩)
        rw [Sys.entered_pc]
        split
        · rename_i hut
          rw [hut, Pc.owned_of_outside hout] at hu
          cases hu
        · exact hu
      · exact .inr (.inr h)
    · rw [Sys.entered_dead, Sys.entered_pid] at hua
      obtain ⟨hlk, hc⟩ := hi.covers u p hua (hpcs u _ hpc (fun he => by cases he))
      exact ⟨hlk, hc.congr rfl fun n hn => hn⟩
    · rw [Sys.entered_dead, Sys.entered_pid] at hua
      exact hi.swept u m hua (hpcs u _ hpc (fun he => by cases he))
  | tick ha ht => exact hi.tick ha ht hok hnodes
  | @die pid =>
    have hlive : ∀ u, (s.died pid).dead ((s.died pid).threads u).pid = false →
        s.dead (s.threads u).pid = false := by
      intro u hua
      rw [Sys.died_dead, Sys.died_threads, Bool.or_eq_false_iff] at hua
      exact hua.2
    refine ⟨hnodes, fun n hn => ?_, fun u p hua hpc => ?_, fun u m hua hpc n hn => ?_⟩
    · rcases hi.account n hn with h | ⟨u, hua, hu⟩ | ⟨hreg, hd⟩
      · exact .inl h
      · by_cases hup : (s.threads u).pid = pid
        · obtain ⟨hlk, hregs, _⟩ := hok u hup (hup ▸ hua)
          -- a dead waiter leaves registered nodes, with its pid, for the sweep to find
          rcases List.mem_append.mp hu with hu | hu
          · obtain ⟨L, F, U, hp⟩ := hi.nodes.pool
            refine .inr (.inr ⟨hregs n hu, ?_⟩)
            rw [Sys.died_dead]
            show (decide ((s.region.nodes n).pid = pid) || _) = true
            rw [hp.owner u hua n hu, hup, decide_eq_true rfl, Bool.true_or]
          · rw [Pc.locked_of_reaped (List.ne_nil_of_mem hu)] at hlk
            cases hlk
        · refine .inr (.inl ⟨u, ?_, hu⟩)
          rw [Sys.died_dead, Sys.died_threads, hua, Bool.or_false]
          exact decide_eq_false hup
      · refine .inr (.inr ⟨hreg, ?_⟩)
        rw [Sys.died_dead]
        show (_ || s.dead (s.region.nodes n).pid) = true
        rw [hd, Bool.or_true]
    · obtain ⟨hlk, hc⟩ := hi.covers u p (hlive u hua) hpc
      -- while this sweep is under way, no death orphans a node
      refine ⟨hlk, hc.congr rfl fun n hn => hi.orphan_died hok (hlive u hua) ?_ hn⟩
      rw [show (s.threads u).pc = _ from hpc]
      rfl
    · refine hi.swept u m (hlive u hua) hpc n (hi.orphan_died hok (hlive u hua) ?_ hn)
      rw [show (s.threads u).pc = _ from hpc]
      rfl

end AccountStep

/-! ### After a sweep -/

/-- Every node that was ever handed out is on the free list or belongs to an unfinished wait of a
    live process. -/
def Accounted (s : Sys T) : Prop :=
  ∀ n < s.region.nodeFresh, s.OnFree n ∨
    ∃ t, s.dead (s.threads t).pid = false ∧ n ∈ (s.threads t).pc.waitNodes

/-- **Dead waiters' nodes come back.** When a `sweep_dead` returns, every node is free or owned by a
    live wait, provided that processes died with all nodes of their waits registered and none while
    the sweep was under way, and that no wake walk detached a dead process's node. -/
theorem nodes_accounted [DecidableEq T] {pid : T → U32} (hpid : ∀ t, pid t ≠ 0)
    {h : List (Label T)} {s s' : Sys T} {t : T} {o : Oracle} {l : Label T} {m : Nat}
    (hr : Run Sys.step NodesSafe (Sys.rest Region.init pid) h s)
    (hpc : (s.threads t).pc = .sweepDead (.unlock m)) (hs : s.step (.tick t o) = some (s', l)) :
    Accounted s' := by
  have hi : AccountInv s := hr.state_invariant (.of_init hpid)
    fun s a s' l hi hs hok => hi.step hs hok
  have hstep := Sys.step_inv hs
  generalize ha : Action.tick t o = a at hstep
  cases hstep with
  | call | die => cases ha
  | @tick t' o' ins pc' hlive ht =>
    cases ha
    have hg := tick_inv ht
    -- the last step of the sweep only drops the lock
    obtain ⟨rfl, rfl⟩ : ins = .unlock ∧ pc' = .done .sweepDead (.num m) := by
      rw [hpc] at hg
      cases hg with
      | sweepDead hg =>
        cases hg
        exact ⟨rfl, rfl⟩
    have hsafe : NodesSafe s (.instr t (s.threads t).pid .unlock)
        (s.after t .unlock (.done .sweepDead (.num m))) := by
      constructor
      · rw [hpc]
        rfl
      · rw [Sys.after_pc, if_pos rfl]
        rfl
    have hi' := hi.step hs hsafe
    obtain ⟨L, F, U, hp⟩ := hi.nodes.pool
    intro n hn
    rcases hi'.account n hn with hfree | ⟨u, hua, hu⟩ | horph
    · exact .inl hfree
    · rcases List.mem_append.mp hu with hu | hu
      · exact .inr ⟨u, hua, hu⟩
      · -- nobody is in the middle of a reap: the lock is free
        have hlk := (hi'.nodes.table.lock u).mpr
          ⟨Pc.locked_of_reaped (List.ne_nil_of_mem hu), hua⟩
        rw [Sys.after_lock] at hlk
        cases hlk
    · exact absurd (hp.orphan_back hlive hg.pool horph).1 (hi.swept t m hlive hpc n)

instance [Fintype T] (s : Sys T) : (l : Label T) → (s' : Sys T) → Decidable (NodesSafe s l s')
  | .die pid, _ => inferInstanceAs (Decidable (∀ t, (s.threads t).pid = pid → s.dead pid = false →
      (s.threads t).pc.locked = false ∧
      (∀ n ∈ (s.threads t).pc.waitNodes, (s.region.nodes n).registered = true) ∧
      ((s.threads t).pc.waitNodes ≠ [] →
        ∀ u, (s.threads u).pc.sweepsDead = true → s.dead (s.threads u).pid = true)))
  | .instr t _ _, s' => inferInstanceAs (Decidable
      (((s.threads t).pc.wakes?.all fun n => !s.dead (s.region.nodes n).pid) = true ∧
        (s'.threads t).pc.panics = false))
  | .call _ _, _ => inferInstanceAs (Decidable True)

/-- The thread is about to return from its `sweep_dead`. -/
def Pc.sweptUp : Pc → Bool
  | .sweepDead (.unlock _) => true
  | _ => false

/-- Where a `sweep_dead` is done. -/
theorem Pc.sweptUp_iff {pc : Pc} : pc.sweptUp = true ↔ ∃ m, pc = .sweepDead (.unlock m) := by
  constructor
  · intro h
    unfold Pc.sweptUp at h
    split at h
    · exact ⟨_, rfl⟩
    · cases h
  · rintro ⟨m, rfl⟩
    rfl

/-- Process 8 creates an event, process 7 falls asleep on it and is killed, and process 8 sweeps. -/
def killedAsleep : List (Action (Fin 2)) :=
  .call 1 (.create (.event false false)) :: List.replicate 18 (.tick 1 {}) ++
  .call 0 (.wait ⟨[1], 5, false, 0⟩ .never) :: List.replicate 20 (.tick 0 {}) ++
  [.die 7, .call 1 .sweepDead] ++ List.replicate 10 (.tick 1 {})

/-- The node of a waiter that was killed asleep comes back. -/
theorem nodes_accounted_killedAsleep :
    ∃ h s s' l, Run Sys.step NodesSafe (Sys.rest Region.init twoWaitersPid) h s ∧
      (s.threads 1).pc.sweptUp = true ∧ s.dead 7 = true ∧ s.region.nodeFresh = 1 ∧
      s.step (.tick 1 {}) = some (s', l) ∧ Accounted s' := by
  obtain ⟨h, s, hr, h₁, h₂, h₃, h₄⟩ := exists_run_of_exec Sys.step
    NodesSafe (Sys.rest Region.init twoWaitersPid)
    (P := fun s => (s.threads 1).pc.sweptUp = true ∧ s.dead 7 = true ∧ s.region.nodeFresh = 1 ∧
      (s.step (.tick 1 {})).isSome = true) killedAsleep (by decide +kernel)
  obtain ⟨⟨s', l⟩, hs⟩ := Option.isSome_iff_exists.mp h₄
  obtain ⟨m, hpc⟩ := Pc.sweptUp_iff.mp h₁
  exact ⟨h, s, s', l, hr, h₁, h₂, h₃, hs, nodes_accounted (by decide) hr hpc hs⟩

/-- As before, but process 8 sets the event before process 7 is killed: its node is detached, and
    the sweep no longer sees it. -/
def killedAwake : List (Action (Fin 2)) :=
  .call 1 (.create (.event false false)) :: List.replicate 18 (.tick 1 {}) ++
  .call 0 (.wait ⟨[1], 5, false, 0⟩ .never) :: List.replicate 20 (.tick 0 {}) ++
  .call 1 (.op 1 .eventSet) :: List.replicate 12 (.tick 1 {}) ++
  [.die 7, .call 1 .sweepDead] ++ List.replicate 6 (.tick 1 {})

/-- **A woken waiter that is killed loses its nodes** for good. -/
theorem detached_node_leaks :
    ∃ h s s' l, Run Sys.step (fun s l _ => DiesOutside s l) (Sys.rest Region.init twoWaitersPid) h s ∧
      (s.threads 1).pc.sweptUp = true ∧ s.step (.tick 1 {}) = some (s', l) ∧ ¬ Accounted s' := by
  obtain ⟨h, s, hr, h₁, h₂⟩ := exists_run_of_exec Sys.step
    (fun s l _ => DiesOutside s l) (Sys.rest Region.init twoWaitersPid)
    (P := fun s => (s.threads 1).pc.sweptUp = true ∧ (s.step (.tick 1 {})).any (fun x =>
      decide (x.1.region.nodeFresh = 1 ∧ x.1.region.nodeFreeHead = none ∧
        x.1.dead (x.1.threads 0).pid = true ∧ (x.1.threads 1).pc.waitNodes = [])) = true)
    killedAwake (by decide +kernel)
  rw [Option.any_eq_true] at h₂
  obtain ⟨⟨s', l⟩, hs, hx⟩ := h₂
  obtain ⟨hfresh, hhead, hdead, hnil⟩ := of_decide_eq_true hx
  refine ⟨h, s, s', l, hr, h₁, hs, fun hacc => ?_⟩
  rcases hacc 0 (by rw [hfresh]; exact Nat.zero_lt_one) with ⟨F, hF, hmem⟩ | ⟨t, hlive, hmem⟩
  · rw [hhead] at hF
    cases F with
    | nil => cases hmem
    | cons n F => cases hF.1
  · match t with
    | 0 =>
      rw [hdead] at hlive
      cases hlive
    | 1 =>
      rw [hnil] at hmem
      cases hmem

end Ntsync
