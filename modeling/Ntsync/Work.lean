import Mathlib
import Ntsync.Nodes
import Ntsync.Scan

namespace Ntsync

open Words

/-!
# What is left to do

A number for every program counter that bounds the steps a thread still has to make on its own, to the
end of its critical section or of its call.

* `Region.waiting` — the registered nodes; a wake walk takes one off its list in every second step;
* `casWork` — two steps for a loop that has to load again, one for a swap that will succeed;
* `Pc.work` — the measure.  It is 0 where a wait may block;
* `PcGo.work` — **a step of the thread takes one from its measure**;
* `Pc.work_le` — a step of another thread leaves it as it is, or adds 2 when it stores a state word.
-/

/-! ### Registered nodes -/

/-- The number of registered nodes. -/
def Region.waiting (r : Region) : Nat :=
  ((Finset.range nodeCount).filter fun n => (r.nodes n).registered = true).card

section Waiting

variable {r r' : Region} {n : Nat}

/-- No more nodes wait than there are. -/
theorem Region.waiting_le (r : Region) : r.waiting ≤ nodeCount :=
  (Finset.card_filter_le _ _).trans (Finset.card_range nodeCount).le

/-- How many wait depends on the registrations only. -/
theorem Region.waiting_congr (h : ∀ n, (r'.nodes n).registered = (r.nodes n).registered) :
    r'.waiting = r.waiting := by
  unfold waiting
  simp only [h]

/-- Detaching a registered node leaves one less. -/
theorem Region.waiting_detach (hn : (r.nodes n).registered = true) (hlt : n < nodeCount) :
    (r.nodeDetach n).waiting + 1 = r.waiting := by
  have herase : (Finset.range nodeCount).filter (fun m => ((r.nodeDetach n).nodes m).registered = true) =
      ((Finset.range nodeCount).filter fun m => (r.nodes m).registered = true).erase n := by
    ext m
    rw [Finset.mem_erase, Finset.mem_filter, Finset.mem_filter]
    by_cases hm : m = n
    · subst hm
      simp [Region.nodeDetach_self.1]
    · rw [(Region.nodeDetach_other hm).1]
      simp [hm]
  have hmem : n ∈ (Finset.range nodeCount).filter fun m => (r.nodes m).registered = true :=
    Finset.mem_filter.mpr ⟨Finset.mem_range.mpr hlt, hn⟩
  unfold waiting
  rw [herase]
  exact Finset.card_erase_add_one hmem

end Waiting

/-! ### Compare-and-swap loops -/

/-- The pass tries to swap. -/
def Pass.swaps {α : Type} : Pass α → Bool
  | .ret _ => false
  | .cas _ _ => true

/-- The accesses a loop still makes if nobody else stores the word: a load and a swap, or the swap
    alone. -/
def casWork {α : Type} (w0 : U64) (body : U64 → Pass α) : Option U64 → Nat
  | none => 2
  | some w => if w0 = w ∧ (body w).swaps = true then 1 else 3

section Cas

variable {α : Type} {w0 w0' : U64} {body : U64 → Pass α} {c c' : Option U64} {w : Option U64} {d : Nat}

/-- A CAS loop has a step to make. -/
theorem casWork_pos : 1 ≤ casWork w0 body c := by
  cases c with
  | none => exact Nat.le_succ 1
  | some w =>
    simp only [casWork]
    split <;> omega

/-- An undisturbed CAS loop ends in three steps. -/
theorem casWork_le : casWork w0 body c ≤ 3 := by
  cases c with
  | none => exact Nat.le_succ 2
  | some w =>
    simp only [casWork]
    split <;> omega

/-- Another store costs the loop one more round. -/
theorem casWork_store (hd : w0' = w0 ∨ 2 ≤ d) : casWork w0' body c ≤ casWork w0 body c + d := by
  rcases hd with rfl | hd
  · exact Nat.le_add_right _ _
  · exact casWork_le.trans (Nat.add_le_add casWork_pos hd)

/-- A step of a CAS loop is one less to make. -/
theorem casStep_work (h : casStep w0 body c = (w, .more c')) :
    casWork w0 body c' + 1 ≤ casWork w0 body c := by
  unfold casStep at h
  cases c with
  | none =>
    cases hb : body w0 with
    | ret a =>
      simp only [hb] at h
      cases h
    | cas new a =>
      simp only [hb] at h
      cases h
      simp [casWork, hb, Pass.swaps]
  | some v =>
    dsimp only at h
    split at h
    · cases hb : body v with
      | ret a =>
        simp only [hb] at h
        cases h
        simp [casWork, hb, Pass.swaps]
      | cas new a =>
        simp only [hb] at h
        cases h
    · rename_i hne
      cases h
      simp [casWork, hne]

end Cas

/-! ### `try_acquire`, `rollback_acquire`, `try_satisfy` -/

def Acq.work (s : Slot) (owner : U32) : Acq → Nat
  | .typ => 6
  | .sem c => casWork s.w0 acquireSem c
  | .mutex c => casWork s.w0 (acquireMutex owner) c
  | .event => 5
  | .auto c => casWork s.w0 acquireAuto c + 1
  | .pulse => 1

def Undo.work (s : Slot) (owner : U32) (od : Bool) : Undo → Nat
  | .typ => 4
  | .sem c => casWork s.w0 rollbackSem c
  | .mutex c => casWork s.w0 (rollbackMutex owner od) c
  | .event c => casWork s.w0 rollbackEvent c

/-- An object costs at most 7 accesses to acquire and 5 to give back. -/
def Sat.work (r : Region) (a : WaitArgs) : Sat → Nat
  | .any i q => q.work (r.slots (a.slotOf i)) a.owner + 7 * (a.handles.length - i)
  | .all i acquired _ q => q.work (r.slots (a.slotOf i)) a.owner + 7 * (a.handles.length - i) +
      5 * (acquired.length + (a.handles.length - i)) + 5
  | .undo [] _ => 1
  | .undo ((j, b) :: rest) u => u.work (r.slots (a.slotOf j)) a.owner b + 5 * rest.length

/-- The accesses of a whole `try_satisfy`. -/
def WaitArgs.satWork (a : WaitArgs) : Nat := 12 * a.handles.length + 11

section Attempts

variable {s s' : Slot} {owner : U32} {seq : U64} {od : Bool} {d : Nat}

/-- An acquire has a step to make. -/
theorem Acq.work_pos (q : Acq) (s : Slot) (owner : U32) : 1 ≤ q.work s owner := by
  cases q <;> simp only [Acq.work] <;> first | exact casWork_pos | omega

/-- A rollback has a step to make. -/
theorem Undo.work_pos (u : Undo) (s : Slot) (owner : U32) (od : Bool) : 1 ≤ u.work s owner od := by
  cases u <;> simp only [Undo.work] <;> first | exact casWork_pos | omega

/-- A store by another thread costs an acquire at most one more try. -/
theorem Acq.work_store (q : Acq) (owner : U32) (hd : s'.w0 = s.w0 ∨ 2 ≤ d) :
    q.work s' owner ≤ q.work s owner + d := by
  cases q with
  | sem | mutex => exact casWork_store hd
  | auto c =>
    have hc : casWork s'.w0 acquireAuto c ≤ casWork s.w0 acquireAuto c + d := casWork_store hd
    simp only [Acq.work]
    omega
  | _ => exact Nat.le_add_right _ _

/-- It costs a rollback at most one more try. -/
theorem Undo.work_store (u : Undo) (owner : U32) (od : Bool) (hd : s'.w0 = s.w0 ∨ 2 ≤ d) :
    u.work s' owner od ≤ u.work s owner od + d := by
  cases u with
  | sem | mutex | event => exact casWork_store hd
  | typ => exact Nat.le_add_right _ _

/-- A step of an acquire is one less to make. -/
theorem Acq.step_work {q q' : Acq} {w : Option U64} (h : q.step s owner seq = (w, .more q')) :
    q'.work s owner + 1 ≤ q.work s owner := by
  cases q with
  | typ =>
    simp only [Acq.step] at h
    split at h <;> cases h <;> simp [Acq.work, casWork]
  | sem c =>
    simp only [Acq.step] at h
    split at h <;> cases h
    exact casStep_work (by assumption)
  | mutex c =>
    simp only [Acq.step] at h
    split at h <;> cases h
    exact casStep_work (by assumption)
  | event =>
    simp only [Acq.step] at h
    split at h
    · split at h <;> cases h
      simp [Acq.work, casWork]
    · cases h
      simp [Acq.work]
  | auto c =>
    simp only [Acq.step] at h
    split at h <;> cases h
    · exact Nat.succ_le_succ (casStep_work (by assumption))
    · exact Nat.succ_le_succ casWork_pos
  | pulse => cases h

/-- A step of a rollback is one less to make. -/
theorem Undo.step_work {u u' : Undo} {w : Option U64} (h : u.step s owner od = (w, .more u')) :
    u'.work s owner od + 1 ≤ u.work s owner od := by
  cases u with
  | typ =>
    simp only [Undo.step] at h
    split at h <;> cases h <;> simp [Undo.work, casWork]
  | sem c =>
    simp only [Undo.step] at h
    split at h <;> cases h
    exact casStep_work (by assumption)
  | mutex c =>
    simp only [Undo.step] at h
    split at h <;> cases h
    exact casStep_work (by assumption)
  | event c =>
    simp only [Undo.step] at h
    split at h <;> cases h
    exact casStep_work (by assumption)

variable {r r' : Region} {a : WaitArgs} {seqs : Nat → U64}

/-- An attempt has a step to make. -/
theorem Sat.work_pos (p : Sat) : 1 ≤ p.work r a := by
  cases p with
  | any i q => exact (q.work_pos _ _).trans (Nat.le_add_right _ _)
  | all i acquired od q =>
    simp only [Sat.work]
    omega
  | undo todo u =>
    cases todo with
    | nil => exact le_refl 1
    | cons x rest => exact (u.work_pos _ _ _).trans (Nat.le_add_right _ _)

/-- The work of a whole attempt. -/
theorem Sat.start_work : (Sat.start a.all).work r a ≤ a.satWork := by
  unfold Sat.start WaitArgs.satWork
  split <;> simp only [Sat.work, Acq.work, List.length_nil] <;> omega

/-- A store by another thread costs an attempt at most one more try. -/
theorem Sat.work_store (p : Sat) (hd : (∀ i, (r'.slots i).w0 = (r.slots i).w0) ∨ 2 ≤ d) :
    p.work r' a ≤ p.work r a + d := by
  have hslot : ∀ i, (r'.slots i).w0 = (r.slots i).w0 ∨ 2 ≤ d := fun i => hd.imp_left fun h => h i
  cases p with
  | any i q =>
    have hq := q.work_store a.owner (hslot (a.slotOf i))
    simp only [Sat.work]
    omega
  | all i acquired od q =>
    have hq := q.work_store a.owner (hslot (a.slotOf i))
    simp only [Sat.work]
    omega
  | undo todo u =>
    cases todo with
    | nil => exact Nat.le_add_right _ _
    | cons x rest =>
      have hu := u.work_store a.owner x.2 (hslot (a.slotOf x.1))
      simp only [Sat.work]
      omega

/-- **An access of `try_satisfy`.** After a store it goes on at the next object. -/
theorem SatStep.work {p p' : Sat} {w : Option SatWrite} (h : SatStep r a seqs p w (.more p'))
    (hr : w = none → r' = r) : p'.work r' a + 1 ≤ p.work r a := by
  cases h with
  | anyMore hq =>
    rw [hr rfl]
    have := Acq.step_work hq
    simp only [Sat.work]
    omega
  | @anyNext k q _ hq hlt =>
    have := q.work_pos (r.slots (a.slotOf k)) a.owner
    simp only [Sat.work, Acq.work]
    omega
  | allMore hq =>
    rw [hr rfl]
    have := Acq.step_work hq
    simp only [Sat.work]
    omega
  | @allTake k acquired od b q _ hq hlt =>
    have := q.work_pos (r.slots (a.slotOf k)) a.owner
    simp only [Sat.work, Acq.work, List.length_append, List.length_singleton]
    omega
  | @allUndo k acquired od q _ hq hne =>
    have := q.work_pos (r.slots (a.slotOf k)) a.owner
    cases acquired with
    | nil => exact absurd rfl hne
    | cons x rest =>
      simp only [Sat.work, Undo.work, List.length_cons]
      omega
  | undoMore hu =>
    rw [hr rfl]
    have := Undo.step_work hu
    simp only [Sat.work]
    omega
  | @undoNext k b rest u _ hu hne =>
    have := u.work_pos (r.slots (a.slotOf k)) a.owner b
    cases rest with
    | nil => exact absurd rfl hne
    | cons x rest =>
      simp only [Sat.work, Undo.work, List.length_cons]
      omega

end Attempts

/-! ### Walks and sweeps -/

/-- A walk's steps besides two for every node. -/
def Walk.work : Walk → Nat
  | .start | .bump _ _ => 2
  | .node _ => 1

/-- What a sweep without pauses still has to do for the indices it has not examined. -/
def SweepSt.scanWork (auto : Bool) (st : SweepSt) : Nat := if auto then 0 else 20 * st.scan.left

/-- The steps of a sweep to the end of its critical section. -/
def SweepPc.work (auto : Bool) (r : Region) : SweepPc → Nat
  | .chunk st => st.scanWork auto + 2 * r.waiting + 2
  | .drop _ _ => 1
  | .probe st judged _ pids rest =>
    if auto then 0
    else st.scanWork auto + 2 * r.waiting + 5 * judged.length + pids.length + 16 * rest.length + 9
  | .relock _ _ => 0
  | .reap st judged => st.scanWork auto + 2 * r.waiting + 5 * judged.length + 3
  | .reapFree st _ judged => st.scanWork auto + 2 * r.waiting + 5 * judged.length + 4
  | .reapGen st _ judged => st.scanWork auto + 2 * r.waiting + 5 * judged.length + 6
  | .reapWalk st _ w judged => st.scanWork auto + 2 * r.waiting + 5 * judged.length + 3 + w.work

/-- A sweep over a full table. -/
def sweepWork : Nat := 20 * (nodeCount + slotCount) + 2 * nodeCount + 2

/-- A candidate stands for at most nine processes. -/
theorem DeadCand.pids_length (c : DeadCand) : c.pids.length ≤ 9 := by
  unfold pids
  rw [List.length_cons]
  refine Nat.succ_le_succ ((List.length_filter_le _ _).trans ?_)
  rw [List.length_map, List.length_take, List.length_finRange]
  exact Nat.min_le_right _ _

/-- A chunk holds no more candidates than the indices it examined. -/
theorem nextChunk_left {r : Region} {sc sc' : SweepScan} {cands : List DeadCand}
    (h : sc.nextChunk r = (sc', cands)) :
    sc'.left + cands.length ≤ sc.left ∧ cands.length ≤ sweepChunk := by
  obtain ⟨hidx, hcands, hlen, _⟩ := @nextChunkLoop_spec r sc sc.left [] (le_refl _) (Nat.zero_le _)
  have hres : nextChunkLoop r sc.left sc [] = (sc', cands) := h
  rw [hres] at hidx hcands hlen
  dsimp only at hidx hcands hlen
  refine ⟨?_, hlen⟩
  have hleft := congrArg List.length hidx
  rw [List.length_append, SweepScan.indices_length, SweepScan.indices_length] at hleft
  have hfew := List.length_filterMap_le r.candidate (nextChunkLog r sc.left sc [])
  rw [List.nil_append] at hcands
  rw [← hcands] at hfew
  omega

section Sweeps

variable {T : Type} {sh : Shared T} {ins : Instr} {i : Nat}

/-- A step of a walk whose nodes are registered. -/
theorem Walk.step_work (t : T) (pid : U32) {w w' : Walk} (h : w.step sh.region i = some (ins, .more w'))
    (hbelow : ∀ n, (sh.region.nodes n).registered = true → n < nodeCount)
    (hreg : ∀ n, w = .node (some n) → (sh.region.nodes n).registered = true) :
    w'.work + 2 * (ins.apply t pid sh).region.waiting + 1 ≤ w.work + 2 * sh.region.waiting := by
  cases w with
  | start =>
    cases h
    simp only [Walk.work, Instr.apply]
    omega
  | node idx =>
    cases idx with
    | none => cases h
    | some n =>
      cases h
      have hn := hreg n rfl
      -- one registered node fewer pays for the detach and the bump
      have hless := Region.waiting_detach hn (hbelow n hn)
      simp only [Walk.work, Instr.apply]
      omega
  | bump word next =>
    cases word with
    | none => cases h
    | some w =>
      cases h
      have hsame : (sh.region.bumpSeq w).waiting = sh.region.waiting := by
        refine Region.waiting_congr fun n => ?_
        rw [Region.bumpSeq, Region.setNode_nodes]
        split
        · rename_i hn
          rw [hn]
        · rfl
      simp only [Walk.work, Instr.apply, hsame]
      omega

/-- A walk ends at the end of its list. -/
theorem Walk.step_done {w : Walk} (h : w.step sh.region i = some (ins, .done ())) :
    w = .node none ∧ ins = .silent := by
  cases w with
  | start => cases h
  | node idx =>
    cases idx <;> cases h
    exact ⟨rfl, rfl⟩
  | bump word next => cases word <;> cases h

/-- A store to a slot changes no registration. -/
theorem Region.waiting_setSlot (r : Region) (i : Nat) (f : Slot → Slot) :
    (r.setSlot i f).waiting = r.waiting :=
  Region.waiting_congr fun _ => rfl

/-- What is left of a sweep at a probe. -/
theorem SweepPc.probe_work {st : SweepSt} {judged : List (DeadCand × Bool)} {c : DeadCand}
    {pids : List U32} {rest : List DeadCand} {r : Region} :
    (SweepPc.probe st judged c pids rest).work false r =
      st.scanWork false + 2 * r.waiting + 5 * judged.length + pids.length + 16 * rest.length + 9 := rfl

/-- An automatic sweep probes outside its critical sections. -/
theorem SweepPc.judge_auto {st : SweepSt} {judged : List (DeadCand × Bool)} {rest : List DeadCand}
    {r : Region} : (SweepPc.judge true st judged rest).work true r = 0 := by
  cases rest <;> rfl

/-- What the sweep does after its candidates are judged. -/
theorem SweepPc.judge_work (st : SweepSt) (judged : List (DeadCand × Bool)) (rest : List DeadCand)
    (r : Region) : (SweepPc.judge false st judged rest).work false r ≤
      st.scanWork false + 2 * r.waiting + 5 * judged.length + 16 * rest.length + 3 := by
  cases rest with
  | nil =>
    simp only [SweepPc.judge, SweepPc.work, Bool.false_eq_true, if_false]
    omega
  | cons c rest =>
    have hp := c.pids_length
    simp only [SweepPc.judge, SweepPc.work, List.length_cons, Bool.false_eq_true, if_false]
    omega

/-- **A step of a sweep.** -/
theorem SweepPc.step_work (t : T) (pid : U32) {auto : Bool} {p p' : SweepPc}
    (h : p.step auto sh = some (ins, .more p'))
    (hpos : 0 < p.work auto sh.region)
    (hbelow : ∀ n, (sh.region.nodes n).registered = true → n < nodeCount)
    (hwalk : ∀ i n, p.walk? = some (i, .node (some n)) → (sh.region.nodes n).registered = true) :
    p'.work auto (ins.apply t pid sh).region + 1 ≤ p.work auto sh.region := by
  cases p with
  | chunk st =>
    simp only [SweepPc.step] at h
    split at h
    · cases h
    · rename_i scan c cands hc
      -- the chunk was paid for by the scan
      obtain ⟨hleft, _⟩ := nextChunk_left hc
      rw [List.length_cons] at hleft
      cases auto with
      | true =>
        cases h
        simp only [SweepPc.work]
        omega
      | false =>
        cases h
        have hp := c.pids_length
        simp only [SweepPc.work, SweepPc.judge, Instr.apply, SweepSt.scanWork, List.length_nil,
          Bool.false_eq_true, if_false]
        omega
  | drop st cands =>
    cases auto with
    | true =>
      cases h
      exact Nat.succ_le_succ SweepPc.judge_auto.le
    | false => cases h
  | probe st judged c pids rest =>
    cases auto with
    | true => exact absurd hpos (Nat.lt_irrefl 0)
    | false =>
      cases SweepPc.step_inv h with
      | probeDead =>
        have hj := SweepPc.judge_work st (judged ++ [(c, false)]) rest sh.region
        rw [List.length_append, List.length_singleton] at hj
        rw [SweepPc.probe_work, List.length_nil]
        simp only [Instr.apply]
        omega
      | @probeAlive _ _ _ p pids _ cache =>
        have hj := SweepPc.judge_work { st with cache := cache } (judged ++ [(c, true)]) rest sh.region
        rw [List.length_append, List.length_singleton] at hj
        have hsame : ({ st with cache := cache } : SweepSt).scanWork false = st.scanWork false := rfl
        rw [SweepPc.probe_work, List.length_cons]
        simp only [Instr.apply]
        omega
      | @probe _ _ _ p pids _ cache =>
        have hsame : ({ st with cache := cache } : SweepSt).scanWork false = st.scanWork false := rfl
        rw [SweepPc.probe_work, SweepPc.probe_work, List.length_cons]
        simp only [Instr.apply]
        omega
  -- outside the critical section there is no work to count
  | relock => exact absurd hpos (Nat.lt_irrefl 0)
  | reap st judged =>
    cases SweepPc.step_inv h with
    | reaped =>
      simp only [SweepPc.work, Instr.apply, List.length_nil]
      omega
    | skip =>
      simp only [SweepPc.work, Instr.apply, List.length_cons]
      omega
    | @reapNode _ c judged hn hs =>
      have hreg : (sh.region.nodes c.index).registered = true := by
        simp only [DeadCand.nodeStands, Bool.and_eq_true] at hs
        exact hs.1
      have hless := Region.waiting_detach hreg (hbelow _ hreg)
      simp only [SweepPc.work, Instr.apply, List.length_cons]
      omega
    | reapSlot =>
      simp only [SweepPc.work, Instr.apply, Region.waiting_setSlot, List.length_cons]
      omega
  | reapFree st n judged =>
    cases SweepPc.step_inv h with
    | reapFree =>
      have hsame : (sh.region.nodeFree n).waiting = sh.region.waiting := by
        refine Region.waiting_congr fun m => ?_
        simp only [Region.nodeFree, Region.setNode_nodes]
        split
        · rename_i hm
          rw [hm]
        · rfl
      simp only [SweepPc.work, Instr.apply, hsame]
      omega
  | reapGen st i judged =>
    cases SweepPc.step_inv h with
    | reapGen =>
      simp only [SweepPc.work, Instr.apply, Region.waiting_setSlot, Walk.work]
      omega
  | reapWalk st i w judged =>
    cases SweepPc.step_inv h with
    | walk hw =>
      have hstep := Walk.step_work t pid hw hbelow fun n hn => hwalk i n (by rw [hn]; rfl)
      simp only [SweepPc.work]
      omega
    | walked hw =>
      obtain ⟨rfl, rfl⟩ := Walk.step_done hw
      simp only [SweepPc.work, Walk.work, Instr.apply, SweepSt.scanWork]
      omega

/-- A sweep returns from its last chunk. -/
theorem SweepPc.step_done {auto : Bool} {p : SweepPc} {n : Nat}
    (h : p.step auto sh = some (ins, .done n)) : (∃ st, p = .chunk st) ∧ ins = .silent := by
  cases SweepPc.step_inv h with
  | finished => exact ⟨⟨_, rfl⟩, rfl⟩

end Sweeps

/-! ### Calls -/

def OpPc.work (r : Region) (h : U32) (o : Op) : OpPc → Nat
  | .state => 2 * nodeCount + 11
  | .gen => 2 * nodeCount + 10
  | .typ => 2 * nodeCount + 9
  | .loop c => casWork (r.slots (handleIndex h)).w0 o.pass c + 2 * nodeCount + 5
  | .peek _ => 2 * nodeCount + 5
  | .lockWake _ => 2 * nodeCount + 4
  | .walk _ w => w.work + 2 * r.waiting + 1
  | .unlock _ => 1

def PulsePc.work (r : Region) : PulsePc → Nat
  | .lock => 2 * nodeCount + 10
  | .check => 2 * r.waiting + 9
  | .load => 2 * r.waiting + 8
  | .loadD _ => 2 * r.waiting + 7
  | .storeD _ _ => 2 * r.waiting + 6
  | .loadW _ => 2 * r.waiting + 5
  | .storeW _ _ => 2 * r.waiting + 4
  | .walk _ w => w.work + 2 * r.waiting + 1
  | .unlock _ => 1

namespace WaitCtx

/-- The locked pass after its lookups. -/
def passWork (c : WaitCtx) : Nat :=
  3 * (c.nNodes - c.nodes.length) + c.nNodes + c.satWork + 2 * c.nodes.length + 10

/-- The locked pass and the cleanup. -/
def lockWork (c : WaitCtx) : Nat := c.handles.length + c.passWork + 4

end WaitCtx

def FastPc.work (r : Region) (c : WaitCtx) : FastPc → Nat
  | .look i .state => 5 * (c.handles.length - i) + c.satWork + c.lockWork + 10
  | .look i .gen => 5 * (c.handles.length - i) + c.satWork + c.lockWork + 9
  | .look i .typ => 5 * (c.handles.length - i) + c.satWork + c.lockWork + 8
  | .seq i => 5 * (c.handles.length - i) + c.satWork + c.lockWork + 7
  | .alert .state => c.satWork + c.lockWork + 6
  | .alert .gen => c.satWork + c.lockWork + 5
  | .alert .typ => c.satWork + c.lockWork + 4
  | .unwrapState => c.satWork + 3
  | .unwrapGen => c.satWork + 2
  | .word => c.satWork + 1
  | .sat p => p.work r c.toWaitArgs

def PassPc.work (r : Region) (c : WaitCtx) : PassPc → Nat
  | .lock => if c.timeout = .zero then c.lockWork else 0
  | .validate i => (c.handles.length - i) + c.passWork + 3
  | .validateAlert => c.passWork + 2
  | .alertTest => c.passWork + 1
  | .alloc => c.passWork
  | .register i => (c.nNodes - i) + c.satWork + 2 * c.nodes.length + 6
  | .sat p => p.work r c.toWaitArgs + 2 * c.nodes.length + 5
  | .sample => 2 * c.nodes.length + 4
  | .unlock _ => 1

def AutoPc.work (r : Region) : AutoPc → Nat
  | .gate | .lock => 0
  | .recheck => 2 * r.waiting + 6
  | .run p => if p.locked true then p.work true r + 1 else 0
  | .unlock => 1

def DetachPc.work (c : WaitCtx) : DetachPc → Nat
  | .peek _ | .lock => 0
  | .detach k => (c.nodes.length - k) + 2
  | .unlock => 1

def CleanPc.work (c : WaitCtx) : CleanPc → Nat
  | .lock => 0
  | .detach todo => todo.length + c.nodes.length + 3
  | .free todo => todo.length + 2
  | .unlock => 1

/-- A wait may block, unless it has a zero timeout; outside its critical sections nothing is
    promised. -/
def WaitPc.work (r : Region) (c : WaitCtx) : WaitPc → Nat
  | .fast p => if c.timeout = .zero then p.work r c else 0
  | .pass p => p.work r c
  | .spinStart _ | .spin _ _ _ | .sleep _ _ => 0
  | .sweep _ _ p => p.work r
  | .detach p => p.work c
  | .clean _ p => p.work c

def CreatePc.work (r : Region) : CreatePc → Nat
  | .lock => sweepWork + 23
  | .alloc retry => if retry then 20 else sweepWork + 22
  | .sweep p => p.work false r + 21
  | .write _ ws => ws.length + 2
  | .unlock _ => 1

def ClosePc.work (r : Region) : ClosePc → Nat
  | .lock => 2 * nodeCount + 11
  | .check => 2 * r.waiting + 10
  | .write ws => 2 * r.waiting + 6 + ws.length
  | .free => 2 * r.waiting + 5
  | .gen => 2 * r.waiting + 4
  | .walk w => w.work + 2 * r.waiting + 1
  | .unlock _ => 1

def HoldPc.work (add : Bool) : HoldPc → Nat
  | .lock => 9
  | .check => 8
  | .write ws => if add then ws.length + 3 else ws.length + 2
  | .mark ws => if add then 2 else ws.length + 3
  | .unlock _ => 1

def SweepCallPc.work (r : Region) : SweepCallPc → Nat
  | .lock => sweepWork + 3
  | .run p => p.work false r + 2
  | .unlock _ => 1

/-- The steps a thread still makes on its own, to the end of its critical section or, in a call that
    does not block, of the call. -/
def Pc.work (r : Region) : Pc → Nat
  | .idle | .done _ _ | .panicked => 0
  | .op h o p => p.work r h o
  | .pulse _ p => p.work r
  | .wait c p => p.work r c
  | .create _ p => p.work r
  | .close _ p => p.work r
  | .hold add _ p => p.work add
  | .sweepDead p => p.work r

/-- The sweep is at one of the steps that drop the lock and take it again. -/
def SweepPc.pauses : SweepPc → Bool
  | .drop _ _ | .relock _ _ => true
  | _ => false

/-- The phases of a wait with a zero timeout. -/
def WaitPc.polling : WaitPc → Bool
  | .pass (.unlock _) | .clean _ .lock => false
  | .fast _ | .pass _ | .clean _ _ => true
  | _ => false

/-- What the steps of a thread rest on. -/
structure Pc.Steady (r : Region) (pc : Pc) : Prop where
  below : ∀ n, (r.nodes n).registered = true → n < nodeCount
  walk : ∀ i n, pc.walk? = some (i, .node (some n)) → (r.nodes n).registered = true
  range : (SweepScan.new r).left ≤ nodeCount + slotCount
  sweep : ∀ p, pc.sweep? = some (false, p) → p.pauses = false
  poll : ∀ c p, pc = .wait c p → c.timeout = .zero → p.polling = true

section OwnStep

variable {T : Type} {t : T} {pid : U32} {sh : Shared T} {calls : U64} {o : Oracle} {ins : Instr}
  {pc pc' : Pc}

/-- A sweep under the lock has a step to make. -/
theorem SweepPc.work_pos {p : SweepPc} {r : Region} (hp : p.pauses = false) : 0 < p.work false r := by
  cases p with
  | drop | relock => cases hp
  | probe => exact Nat.succ_pos _
  | _ =>
    simp only [SweepPc.work]
    omega

/-- The work of a whole sweep. -/
theorem SweepPc.start_work (hr : (SweepScan.new sh.region).left ≤ nodeCount + slotCount) :
    (SweepPc.chunk (.new sh.region)).work false sh.region ≤ sweepWork := by
  have hw := sh.region.waiting_le
  simp only [SweepPc.work, SweepSt.scanWork, SweepSt.new, sweepWork, Bool.false_eq_true, if_false]
  omega

/-- **A step of an operation.** -/
theorem opTick_work {h : U32} {op : Op} {p : OpPc} (ht : opTick sh h op p = some (ins, pc'))
    (hs : (Pc.op h op p).Steady sh.region) :
    pc'.work (ins.apply t pid sh).region + 1 ≤ p.work sh.region h op := by
  have hw := sh.region.waiting_le
  cases p with
  | loop c =>
    have hpos : 1 ≤ casWork (sh.region.slots (handleIndex h)).w0 op.pass c := casWork_pos
    simp only [opTick] at ht
    split at ht <;> rename_i hc <;> cases ht
    · have hcas := casStep_work hc
      simp only [Pc.work, OpPc.work, Instr.apply]
      omega
    · simp only [Pc.work, OpPc.work]
      omega
    · cases casStep_more hc
    · rename_i wake
      cases wake <;> simp only [Pc.work, OpPc.work, Bool.false_eq_true, if_false, if_true] <;> omega
  | walk r w =>
    cases opTick_inv ht with
    | bad hl => cases hl
    | walk hstep =>
      have := Walk.step_work t pid hstep hs.below fun n hn => hs.walk _ n (by rw [hn]; rfl)
      simp only [Pc.work, OpPc.work]
      omega
    | walked hstep =>
      obtain ⟨rfl, rfl⟩ := Walk.step_done hstep
      simp only [Pc.work, OpPc.work, Walk.work]
      omega
  | state | gen | typ | peek | lockWake | unlock =>
    cases opTick_inv ht <;> simp only [Pc.work, OpPc.work, Walk.work, casWork, Instr.apply] <;> omega

/-- **A step of a pulse.** -/
theorem PulseGo.work {h : U32} {p : PulsePc} (hg : PulseGo sh h p ins pc')
    (hs : (Pc.pulse h p).Steady sh.region) :
    pc'.work (ins.apply t pid sh).region + 1 ≤ p.work sh.region := by
  have hw := sh.region.waiting_le
  cases hg with
  | walk hstep =>
    have := Walk.step_work t pid hstep hs.below fun n hn => hs.walk _ n (by rw [hn]; rfl)
    simp only [Pc.work, PulsePc.work]
    omega
  | walked hstep =>
    obtain ⟨rfl, rfl⟩ := Walk.step_done hstep
    simp only [Pc.work, PulsePc.work, Walk.work]
    omega
  | _ =>
    simp only [Pc.work, PulsePc.work, Walk.work, Instr.apply, Region.waiting_setSlot]
    omega

/-- A release makes at most three stores. -/
theorem holderRemove_length (s : Slot) (pid : U32) : (s.holderRemove pid).length ≤ 3 := by
  unfold Slot.holderRemove
  split
  · exact Nat.zero_le 3
  · exact le_refl 3

/-- A retain makes at most two stores. -/
theorem holderAdd_length (s : Slot) (pid : U32) : (s.holderAdd pid).length ≤ 2 := by
  unfold Slot.holderAdd
  split
  · exact Nat.zero_le 2
  · split
    · exact le_refl 2
    · exact Nat.le_succ 1

/-- **A step of a `create_*`.** -/
theorem CreateGo.work {k : Create} {p : CreatePc} (hg : CreateGo sh pid k p ins pc')
    (hs : (Pc.create k p).Steady sh.region) :
    pc'.work (ins.apply t pid sh).region + 1 ≤ p.work sh.region := by
  cases hg with
  | lock =>
    simp [Pc.work, CreatePc.work]
  | @take retry =>
    have hlen : (slotPublish k.objType k.word pid).length = 14 := by
      simp [slotPublish, maxHolders]
    cases retry <;> simp only [Pc.work, CreatePc.work, hlen, Bool.false_eq_true, if_false, if_true] <;>
      omega
  | @full retry =>
    cases retry <;> simp only [Pc.work, CreatePc.work, Bool.false_eq_true, if_false, if_true] <;> omega
  | sweep =>
    have := SweepPc.start_work hs.range
    simp only [Pc.work, CreatePc.work, Instr.apply, Bool.false_eq_true, if_false]
    omega
  | run hstep =>
    have := SweepPc.step_work t pid hstep (SweepPc.work_pos (hs.sweep _ rfl)) hs.below
      fun i n hn => hs.walk i n hn
    simp only [Pc.work, CreatePc.work]
    omega
  | retry | giveUp =>
    simp only [Pc.work, CreatePc.work, if_true]
    omega
  | _ =>
    simp only [Pc.work, CreatePc.work, List.length_nil, List.length_cons]
    omega

/-- **A step of a `close`.** -/
theorem CloseGo.work {h : U32} {p : ClosePc} (hg : CloseGo sh pid h p ins pc')
    (hs : (Pc.close h p).Steady sh.region) :
    pc'.work (ins.apply t pid sh).region + 1 ≤ p.work sh.region := by
  have hw := sh.region.waiting_le
  cases hg with
  | walk hstep =>
    have := Walk.step_work t pid hstep hs.below fun n hn => hs.walk _ n (by rw [hn]; rfl)
    simp only [Pc.work, ClosePc.work]
    omega
  | walked hstep =>
    obtain ⟨rfl, rfl⟩ := Walk.step_done hstep
    simp only [Pc.work, ClosePc.work, Walk.work]
    omega
  | @check i =>
    have := holderRemove_length (sh.region.slots i) pid
    simp only [Pc.work, ClosePc.work, Instr.apply]
    omega
  | _ =>
    simp only [Pc.work, ClosePc.work, Walk.work, Instr.apply, Region.waiting_setSlot, List.length_nil,
      List.length_cons]
    omega

/-- **A step of a `retain` or `release`.** -/
theorem HoldGo.work {add : Bool} {h : U32} {p : HoldPc} (hg : HoldGo sh pid add h p ins pc') :
    pc'.work (ins.apply t pid sh).region + 1 ≤ p.work add := by
  cases hg with
  | @checkAdd i _ ha =>
    have := holderAdd_length (sh.region.slots i) pid
    subst ha
    simp only [Pc.work, HoldPc.work, if_true]
    omega
  | @checkRemove i _ ha =>
    have := holderRemove_length (sh.region.slots i) pid
    subst ha
    simp only [Pc.work, HoldPc.work, Bool.false_eq_true, if_false]
    omega
  | writtenAdd ha | writtenRemove ha | markAdd ha | markRemove ha =>
    subst ha
    simp [Pc.work, HoldPc.work]
  | write =>
    cases add <;> simp [Pc.work, HoldPc.work]
  | _ => simp [Pc.work, HoldPc.work]

/-- **A step of a `sweep_dead`.** -/
theorem SweepCallGo.work {p : SweepCallPc} (hg : SweepCallGo sh p ins pc')
    (hs : (Pc.sweepDead p).Steady sh.region) :
    pc'.work (ins.apply t pid sh).region + 1 ≤ p.work sh.region := by
  cases hg with
  | lock =>
    have := SweepPc.start_work hs.range
    simp only [Pc.work, SweepCallPc.work, Instr.apply]
    omega
  | run hstep =>
    have := SweepPc.step_work t pid hstep (SweepPc.work_pos (hs.sweep _ rfl)) hs.below
      fun i n hn => hs.walk i n hn
    simp only [Pc.work, SweepCallPc.work]
    omega
  | swept =>
    simp only [Pc.work, SweepCallPc.work]
    omega
  | unlock => exact le_refl 1

/-! #### Waits -/

variable {c : WaitCtx} {r : Region}

/-- The snapshot does not matter. -/
theorem WaitCtx.setSeq_work (p : WaitPc) (i : Nat) (d : U64) :
    p.work r (c.setSeq i d) = p.work r c := by
  cases p with
  | fast p =>
    cases p with
    | look i l => cases l <;> rfl
    | alert l => cases l <;> rfl
    | _ => rfl
  | pass p => cases p <;> rfl
  | detach p => cases p <;> rfl
  | clean o p => cases p <;> rfl
  | _ => rfl

/-- A poll goes on to its next handle, its alert or its attempt. -/
theorem WaitCtx.fastNext_work (hz : c.timeout = .zero) (i : Nat) : (c.fastNext i).work r c + 1 ≤
    5 * (c.handles.length - i) + c.satWork + c.lockWork + 7 := by
  have hsat := Sat.start_work (r := r) (a := c.toWaitArgs)
  unfold fastNext
  split
  · simp only [WaitPc.work, FastPc.work, hz, if_true]
    omega
  · split <;> simp only [WaitPc.work, FastPc.work, hz, if_true] <;> omega

/-- What is left of a pass after the alert test. -/
theorem WaitCtx.afterAlert_work : c.afterAlert.work r c ≤ c.passWork := by
  unfold afterAlert
  split
  · exact le_refl _
  · simp only [WaitPc.work, PassPc.work, passWork]
    omega

/-- What is left of a pass after one more validation. -/
theorem WaitCtx.validateNext_work (i : Nat) : (c.validateNext i).work r c + 1 ≤
    (c.handles.length - i) + c.passWork + 3 := by
  have hafter := c.afterAlert_work (r := r)
  unfold validateNext
  split
  · simp only [WaitPc.work, PassPc.work]
    omega
  · split
    · simp only [WaitPc.work, PassPc.work]
      omega
    · omega

/-- What is left of a pass after one more registration. -/
theorem WaitCtx.registerNext_work (i : Nat) : (c.registerNext i).work r c + 1 ≤
    (c.nNodes - i) + c.satWork + 2 * c.nodes.length + 6 := by
  have hsat := Sat.start_work (r := r) (a := c.toWaitArgs)
  unfold registerNext
  split <;> simp only [PassPc.work] <;> omega

/-- What is left of a pass after one more node. -/
theorem WaitCtx.allocNext_work (n : Nat) :
    (c.addNode n).allocNext.work r (c.addNode n) + 1 ≤ c.passWork := by
  have hlen : (c.addNode n).nodes.length = c.nodes.length + 1 := by
    simp [addNode]
  have hnodes : (c.addNode n).nNodes = c.nNodes := rfl
  have hsat : (c.addNode n).satWork = c.satWork := rfl
  unfold allocNext
  split
  · simp only [PassPc.work, passWork, hlen, hnodes, hsat] at *
    omega
  · simp only [PassPc.work, passWork, hlen, hnodes, hsat]
    omega

/-- The store of an attempt, if it made one. -/
theorem satInstr_none (t : T) (pid : U32) (sh : Shared T) (a : WaitArgs) (w : Option SatWrite)
    (h : w = none) : ((satInstr a w).apply t pid sh).region = sh.region := by
  rw [h]
  rfl

/-- **A step of the fast path of a poll.** -/
theorem FastGo.work {p : FastPc} (hg : FastGo sh c p ins pc') (hz : c.timeout = .zero) :
    pc'.work (ins.apply t pid sh).region + 1 ≤ p.work sh.region c := by
  cases hg with
  | @lookOther i =>
    have := c.fastNext_work (r := sh.region) hz i
    simp only [Pc.work, FastPc.work, Instr.apply, WaitCtx.setSeq_work]
    omega
  | @seq i =>
    have := c.fastNext_work (r := sh.region) hz i
    simp only [Pc.work, FastPc.work, Instr.apply, WaitCtx.setSeq_work]
    omega
  | @lookBad i l | @alertBad l =>
    cases l <;> simp only [Pc.work, WaitPc.work, FastPc.work, PassPc.work, hz, if_true] <;> omega
  | start =>
    have := Sat.start_work (r := sh.region) (a := c.toWaitArgs)
    simp only [Pc.work, WaitPc.work, FastPc.work, Instr.apply, hz, if_true]
    omega
  | sat hstep =>
    have := hstep.work (satInstr_none t pid sh c.toWaitArgs _)
    simp only [Pc.work, WaitPc.work, FastPc.work, hz, if_true]
    exact this
  | @win p | @failZero p =>
    exact p.work_pos
  | fail _ hne => exact absurd hz hne
  | _ =>
    simp only [Pc.work, WaitPc.work, FastPc.work, WaitCtx.ret, hz, if_true]
    omega

/-- **A step of the locked pass.** -/
theorem PassGo.work {p : PassPc} (hg : PassGo o sh pid c p ins pc')
    (hpos : 0 < p.work sh.region c) :
    pc'.work (ins.apply t pid sh).region + 1 ≤ p.work sh.region c := by
  cases hg with
  | lock =>
    have hz : c.timeout = .zero := by
      by_contra hne
      simp [PassPc.work, hne] at hpos
    simp only [Pc.work, WaitPc.work, PassPc.work, WaitCtx.lockWork, hz, if_true]
    omega
  | @validateFirst i =>
    have := c.validateNext_work (r := sh.region) i
    simp only [Pc.work, PassPc.work, Instr.apply, WaitCtx.setSeq_work]
    omega
  | @validate i =>
    have := c.validateNext_work (r := sh.region) i
    simp only [Pc.work, PassPc.work, Instr.apply]
    omega
  | alertClear =>
    have := c.afterAlert_work (r := sh.region)
    simp only [Pc.work, PassPc.work, Instr.apply]
    omega
  | alloc =>
    exact c.allocNext_work _
  | registerSkip | register =>
    exact c.registerNext_work _
  | sat hstep =>
    have := hstep.work (satInstr_none t pid sh c.toWaitArgs _)
    simp only [Pc.work, WaitPc.work, PassPc.work]
    omega
  | @win p | @fail p =>
    have := p.work_pos (r := sh.region) (a := c.toWaitArgs)
    simp only [Pc.work, WaitPc.work, PassPc.work, CleanPc.work]
    omega
  | _ =>
    simp only [Pc.work, WaitPc.work, PassPc.work, CleanPc.work, WaitCtx.passWork]
    omega

/-- **A step of an automatic sweep** inside a critical section. -/
theorem AutoGo.work {seq : U32} {timedOut : Bool} {p : AutoPc}
    (hg : AutoGo o sh c seq timedOut p ins pc')
    (hs : (Pc.wait c (.sweep seq timedOut p)).Steady sh.region) (hpos : 0 < p.work sh.region) :
    pc'.work (ins.apply t pid sh).region + 1 ≤ p.work sh.region := by
  cases hg with
  | @skip | @gate | lock => exact absurd hpos (Nat.lt_irrefl 0)
  | tooSoon =>
    simp only [Pc.work, WaitPc.work, AutoPc.work]
    omega
  | claim =>
    have hsame : ({ sh.region with sweepNs := o.now } : Region).waiting = sh.region.waiting := rfl
    simp only [Pc.work, WaitPc.work, AutoPc.work, Instr.apply, SweepPc.locked, SweepPc.work,
      SweepSt.scanWork, hsame, if_true]
    omega
  | @run p p' _ hstep =>
    have hl : p.locked true = true := by
      by_contra hne
      simp [AutoPc.work, hne] at hpos
    have hwork : 0 < p.work true sh.region := by
      cases p <;> simp only [SweepPc.work, SweepSt.scanWork] <;> first | omega | cases hl
    have := SweepPc.step_work t pid hstep hwork hs.below fun i n hn => hs.walk i n hn
    simp only [Pc.work, WaitPc.work, AutoPc.work, hl, if_true]
    split <;> omega
  | swept hstep =>
    obtain ⟨⟨st, rfl⟩, rfl⟩ := SweepPc.step_done hstep
    simp only [Pc.work, WaitPc.work, AutoPc.work, SweepPc.locked, if_true]
    simp only [SweepPc.work]
    omega
  | unlock =>
    cases timedOut <;> exact le_refl 1

/-- **A step of a wait** where it does not block. -/
theorem WaitGo.work {p : WaitPc} (hg : WaitGo o sh pid c p ins pc')
    (hs : (Pc.wait c p).Steady sh.region) (hpos : 0 < p.work sh.region c) :
    pc'.work (ins.apply t pid sh).region + 1 ≤ p.work sh.region c := by
  cases hg with
  | @fast p _ _ hg =>
    have hz : c.timeout = .zero := by
      by_contra hne
      simp [WaitPc.work, hne] at hpos
    simp only [WaitPc.work, hz, if_true]
    exact hg.work hz
  | pass hg => exact hg.work hpos
  | sweep hg => exact hg.work hs hpos
  | detach hg =>
    cases hg with
    | found | next | none | lock => exact absurd hpos (Nat.lt_irrefl 0)
    | unlock =>
      -- a wait with a zero timeout does not come here
      have hz : ¬ c.timeout = .zero := fun hz => by cases hs.poll c _ rfl hz
      simp [Pc.work, WaitPc.work, PassPc.work, DetachPc.work, hz]
    | _ =>
      simp only [Pc.work, WaitPc.work, DetachPc.work]
      omega
  | clean hg =>
    cases hg with
    | lock => exact absurd hpos (Nat.lt_irrefl 0)
    | _ =>
      simp only [Pc.work, WaitPc.work, CleanPc.work, WaitCtx.ret, List.length_nil, List.length_cons]
      omega
  | _ => exact absurd hpos (Nat.lt_irrefl 0)

/-- **A step of a thread takes one from what is left to do.** -/
theorem tick_work (ht : tick o sh pid calls pc = some (ins, pc')) (hs : pc.Steady sh.region)
    (hpos : 0 < pc.work sh.region) :
    pc'.work (ins.apply t pid sh).region + 1 ≤ pc.work sh.region := by
  cases pc with
  | idle | done | panicked => cases ht
  | op h op p => exact opTick_work ht hs
  | pulse h p => exact (pulseTick_inv ht).work hs
  | wait c p => exact (waitTick_inv ht).work hs hpos
  | create k p => exact (createTick_inv ht).work hs
  | close h p => exact (closeTick_inv ht).work hs
  | hold add h p => exact (holdTick_inv ht).work
  | sweepDead p => exact (sweepDeadTick_inv ht).work hs

end OwnStep

/-! ### Steps of other threads -/

section Others

variable {r r' : Region} {d : Nat} {c : WaitCtx}

/-- The work of a sweep depends on the length of the list it walks over, and on nothing else of the
    region. -/
theorem SweepPc.work_congr (auto : Bool) (p : SweepPc)
    (hw : p.locked auto = true → r'.waiting = r.waiting) : p.work auto r' = p.work auto r := by
  cases p with
  | drop | relock => simp only [SweepPc.work]
  | probe =>
    cases auto with
    | true => simp only [SweepPc.work, if_true]
    | false => simp only [SweepPc.work, hw rfl]
  | _ => simp only [SweepPc.work, hw rfl]

/-- A store by another thread costs the fast path at most one more try. -/
theorem FastPc.work_le (p : FastPc) (hd : (∀ i, (r'.slots i).w0 = (r.slots i).w0) ∨ 2 ≤ d) :
    p.work r' c ≤ p.work r c + d := by
  cases p with
  | sat q => exact q.work_store hd
  | look i l => cases l <;> exact Nat.le_add_right _ _
  | alert l => cases l <;> exact Nat.le_add_right _ _
  | _ => exact Nat.le_add_right _ _

/-- It costs the locked pass at most one more try. -/
theorem PassPc.work_le (p : PassPc) (hd : (∀ i, (r'.slots i).w0 = (r.slots i).w0) ∨ 2 ≤ d) :
    p.work r' c ≤ p.work r c + d := by
  cases p with
  | sat q =>
    have hq := q.work_store (a := c.toWaitArgs) hd
    simp only [PassPc.work]
    omega
  | _ => exact Nat.le_add_right _ _

/-- It costs a wait at most one more try. -/
theorem WaitPc.work_le (p : WaitPc) (hw : p.locked = true → r'.waiting = r.waiting)
    (hd : (∀ i, (r'.slots i).w0 = (r.slots i).w0) ∨ 2 ≤ d) : p.work r' c ≤ p.work r c + d := by
  cases p with
  | fast p =>
    simp only [WaitPc.work]
    split
    · exact p.work_le hd
    · exact Nat.zero_le _
  | pass p => exact p.work_le hd
  | sweep seq timedOut p =>
    cases p with
    | recheck =>
      simp only [WaitPc.work, AutoPc.work, hw rfl]
      exact Nat.le_add_right _ _
    | run p =>
      simp only [WaitPc.work, AutoPc.work, p.work_congr true hw]
      exact Nat.le_add_right _ _
    | _ => exact Nat.le_add_right _ _
  | _ => exact Nat.le_add_right _ _

/-- **What another thread does** costs at most one more round of a compare-and-swap loop. -/
theorem Pc.work_le (pc : Pc) (hw : pc.locked = true → r'.waiting = r.waiting)
    (hd : (∀ i, (r'.slots i).w0 = (r.slots i).w0) ∨ 2 ≤ d) : pc.work r' ≤ pc.work r + d := by
  cases pc with
  | op h o p =>
    cases p with
    | loop c =>
      have hc : casWork (r'.slots (handleIndex h)).w0 o.pass c ≤
          casWork (r.slots (handleIndex h)).w0 o.pass c + d :=
        casWork_store (hd.imp_left fun h => h _)
      simp only [Pc.work, OpPc.work]
      omega
    | walk x w =>
      simp only [Pc.work, OpPc.work, hw rfl]
      exact Nat.le_add_right _ _
    | _ => exact Nat.le_add_right _ _
  | pulse h p =>
    cases p with
    | lock | unlock => exact Nat.le_add_right _ _
    | _ =>
      simp only [Pc.work, PulsePc.work, hw rfl]
      exact Nat.le_add_right _ _
  | wait c p => exact p.work_le hw hd
  | create k p =>
    cases p with
    | sweep p =>
      simp only [Pc.work, CreatePc.work, p.work_congr false hw]
      exact Nat.le_add_right _ _
    | _ => exact Nat.le_add_right _ _
  | close h p =>
    cases p with
    | lock | unlock => exact Nat.le_add_right _ _
    | _ =>
      simp only [Pc.work, ClosePc.work, hw rfl]
      exact Nat.le_add_right _ _
  | sweepDead p =>
    cases p with
    | run p =>
      simp only [Pc.work, SweepCallPc.work, p.work_congr false hw]
      exact Nat.le_add_right _ _
    | _ => exact Nat.le_add_right _ _
  | _ => exact Nat.le_add_right _ _

end Others

end Ntsync
