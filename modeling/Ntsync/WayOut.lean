import Mathlib
import Ntsync.Orphans
import Ntsync.Progress
import Ntsync.Trust

namespace Ntsync

open Words

/-!
# The way out of a wait

A wait one of whose handles is dead is refused: wherever it stands, it comes to the lookups of its next
locked pass, fails there, and returns `Invalid`.  On its way it may detach its nodes and run an
automatic sweep.

* `WaitPc.wayOut` — how many steps that takes at most.  It is 0 where the wait is convinced that all of
  its handles are alive, and nowhere else;
* `WaitGo.wayOut` — a step of the wait takes one from it, unless the wait polls a futex word that has
  not changed;
* `Pc.wayOut_congr` — the steps of other threads leave it as it is.
-/

/-! ### Sweeps on the way -/

/-- What an automatic sweep spends at most for each index: the probes and the reap of a candidate,
    and a walk over the whole pool. -/
def indexWork : Nat := 2 * nodeCount + 20

/-- The steps of an automatic sweep to the end of its chunk. -/
def SweepPc.chunkOut (r : Region) : SweepPc → Nat
  | .drop _ cands => 2 * nodeCount + 16 * cands.length + 5
  | .probe _ judged _ pids rest =>
    2 * nodeCount + 5 * judged.length + pids.length + 16 * rest.length + 10
  | .relock _ judged => 2 * nodeCount + 5 * judged.length + 4
  | p => p.work true r

/-- The steps of an automatic sweep to its end. -/
def SweepPc.wayOut (r : Region) (p : SweepPc) : Nat :=
  indexWork * p.st.scan.left + p.chunkOut r

/-- An automatic sweep over a full pool and a full table. -/
def autoOut : Nat := indexWork * (nodeCount + slotCount) + 2 * nodeCount + 2

section Sweeps

variable {T : Type} {sh : Shared T} {ins : Instr}

/-- A sweep that starts has at most a full pool and a full table before it. -/
theorem SweepPc.start_wayOut (hr : (SweepScan.new sh.region).left ≤ nodeCount + slotCount) (r : Region) :
    (SweepPc.chunk (.new sh.region)).wayOut r ≤ autoOut := by
  have hw := r.waiting_le
  have hmul := Nat.mul_le_mul_left indexWork hr
  show indexWork * (SweepScan.new sh.region).left + (0 + 2 * r.waiting + 2) ≤ _
  unfold autoOut
  omega

/-- What an automatic sweep does after its candidates are judged. -/
theorem SweepPc.judge_wayOut (st : SweepSt) (judged : List (DeadCand × Bool)) (rest : List DeadCand)
    (r : Region) : (SweepPc.judge true st judged rest).wayOut r ≤
      indexWork * st.scan.left + 2 * nodeCount + 5 * judged.length + 16 * rest.length + 4 := by
  cases rest with
  | nil =>
    show indexWork * st.scan.left + (2 * nodeCount + 5 * judged.length + 4) ≤ _
    rw [List.length_nil]
    omega
  | cons c rest =>
    have hp := c.pids_length
    show indexWork * st.scan.left +
      (2 * nodeCount + 5 * judged.length + c.pids.length + 16 * rest.length + 10) ≤ _
    rw [List.length_cons]
    omega

/-- **A step of an automatic sweep.** -/
theorem SweepPc.step_wayOut (t : T) (pid : U32) {p p' : SweepPc}
    (h : p.step true sh = some (ins, .more p'))
    (hbelow : ∀ n, (sh.region.nodes n).registered = true → n < nodeCount)
    (hwalk : ∀ i n, p.walk? = some (i, .node (some n)) → (sh.region.nodes n).registered = true) :
    p'.wayOut (ins.apply t pid sh).region + 1 ≤ p.wayOut sh.region := by
  -- inside its critical sections the sweep is measured as before
  have hsame : p'.st.scan = p.st.scan → 0 < p.work true sh.region →
      p.chunkOut sh.region = p.work true sh.region →
      p'.chunkOut (ins.apply t pid sh).region = p'.work true (ins.apply t pid sh).region →
      p'.wayOut (ins.apply t pid sh).region + 1 ≤ p.wayOut sh.region := by
    intro hst hpos hp hp'
    have hstep := SweepPc.step_work t pid h hpos hbelow hwalk
    unfold SweepPc.wayOut
    rw [hst, hp, hp']
    omega
  cases SweepPc.step_inv h with
  | @chunkAuto st scan cands hc =>
    -- a chunk was paid for by the indices it examined
    obtain ⟨hleft, _⟩ := nextChunk_left hc
    have hne : cands ≠ [] := by
      rintro rfl
      simp only [SweepPc.step, hc] at h
      cases h
    have hlen := List.length_pos_of_ne_nil hne
    have hmul : indexWork * (scan.left + cands.length) ≤ indexWork * st.scan.left :=
      Nat.mul_le_mul_left _ hleft
    have hcands : 2 * nodeCount + 20 * cands.length ≤ indexWork * cands.length := by
      have hone : 2 * nodeCount * 1 ≤ 2 * nodeCount * cands.length := Nat.mul_le_mul_left _ hlen
      rw [indexWork, Nat.add_mul]
      omega
    rw [Nat.mul_add] at hmul
    show indexWork * scan.left + (2 * nodeCount + 16 * cands.length + 5) + 1 ≤
      indexWork * st.scan.left + (0 + 2 * sh.region.waiting + 2)
    omega
  | chunk _ ha => cases ha
  | @drop st cands =>
    have hj := SweepPc.judge_wayOut st [] cands (Instr.unlock.apply t pid sh).region
    rw [List.length_nil] at hj
    show _ ≤ indexWork * st.scan.left + (2 * nodeCount + 16 * cands.length + 5)
    omega
  | @probeDead st judged c rest =>
    have hj := SweepPc.judge_wayOut st (judged ++ [(c, false)]) rest sh.region
    rw [List.length_append, List.length_singleton] at hj
    show _ ≤ indexWork * st.scan.left +
      (2 * nodeCount + 5 * judged.length + 0 + 16 * rest.length + 10)
    simp only [Instr.apply]
    omega
  | @probeAlive st judged c p pids rest cache =>
    have hj := SweepPc.judge_wayOut { st with cache := cache } (judged ++ [(c, true)]) rest sh.region
    have hscan : ({ st with cache := cache } : SweepSt).scan = st.scan := rfl
    rw [List.length_append, List.length_singleton, hscan] at hj
    show _ ≤ indexWork * st.scan.left +
      (2 * nodeCount + 5 * judged.length + (pids.length + 1) + 16 * rest.length + 10)
    simp only [Instr.apply]
    omega
  | @probe st judged c p pids rest cache =>
    show indexWork * st.scan.left +
        (2 * nodeCount + 5 * judged.length + pids.length + 16 * rest.length + 10) + 1 ≤
      indexWork * st.scan.left +
        (2 * nodeCount + 5 * judged.length + (pids.length + 1) + 16 * rest.length + 10)
    omega
  | @relock st judged =>
    have hw := (Instr.lock.apply t pid sh).region.waiting_le
    show indexWork * st.scan.left +
        (0 + 2 * (Instr.lock.apply t pid sh).region.waiting + 5 * judged.length + 3) + 1 ≤
      indexWork * st.scan.left + (2 * nodeCount + 5 * judged.length + 4)
    omega
  | _ =>
    refine hsame rfl ?_ rfl rfl
    simp only [SweepPc.work]
    omega

end Sweeps

/-! ### The wait -/

namespace WaitCtx

/-- From the start of a locked pass that is refused to the return. -/
def passOut (c : WaitCtx) : Nat := c.handles.length + 2 * c.nodes.length + 6

/-- From the end of a sleep. -/
def detachOut (c : WaitCtx) : Nat := c.passOut + 2 * c.nodes.length + 4

/-- From the choice between spinning and parking. -/
def sleepOut (c : WaitCtx) : Nat := c.detachOut + autoOut + 8

end WaitCtx

def Look.wayOut : Look → Nat
  | .state => 3
  | .gen => 2
  | .typ => 1

def FastPc.wayOut (c : WaitCtx) : FastPc → Nat
  | .look i l => c.passOut + 4 * (c.handles.length - i) + 4 + l.wayOut
  | .seq i => c.passOut + 4 * (c.handles.length - i) + 4
  | .alert l => c.passOut + l.wayOut
  | _ => 0

def PassPc.wayOut (c : WaitCtx) : PassPc → Nat
  | .lock => c.passOut
  | .validate i => (c.handles.length - i) + 2 * c.nodes.length + 5
  | .validateAlert => 2 * c.nodes.length + 4
  | _ => 0

/-- An automatic sweep, and then `rest`. -/
def AutoPc.wayOut (r : Region) (rest : Nat) : AutoPc → Nat
  | .gate => rest + autoOut + 5
  | .lock => rest + autoOut + 4
  | .recheck => rest + autoOut + 3
  | .run p => rest + p.wayOut r + 2
  | .unlock => rest + 1

def SleepPc.wayOut (c : WaitCtx) : SleepPc → Nat
  | .choose => c.sleepOut
  | .park => c.detachOut + autoOut + 7
  | .parked => c.detachOut + autoOut + 6
  | .tail => c.passOut + 1

def DetachPc.wayOut (c : WaitCtx) : DetachPc → Nat
  | .peek k => c.passOut + (c.nodes.length - k) + c.nodes.length + 4
  | .lock => c.passOut + c.nodes.length + 3
  | p => c.passOut + p.work c

def CleanPc.wayOut (c : WaitCtx) : CleanPc → Nat
  | .lock => 2 * c.nodes.length + 4
  | p => p.work c

/-- The steps of a wait to its return with `Invalid`, when its next locked pass refuses it. -/
def WaitPc.wayOut (r : Region) (c : WaitCtx) : WaitPc → Nat
  | .fast p => p.wayOut c
  | .pass p => p.wayOut c
  | .spinStart _ | .spin _ _ _ => 0
  | .sweep _ timedOut p => p.wayOut r (if timedOut then c.detachOut else c.sleepOut)
  | .sleep _ p => p.wayOut c
  | .detach p => p.wayOut c
  | .clean _ p => p.wayOut c

def Pc.wayOut (r : Region) : Pc → Nat
  | .wait c p => p.wayOut r c
  | _ => 0

section Waits

variable {T : Type} {t : T} {o : Oracle} {sh : Shared T} {pid : U32} {ins : Instr} {pc' : Pc}
  {c : WaitCtx} {p : WaitPc} {r r' : Region}

/-- Only a convinced wait does not know that it has a way to go. -/
theorem WaitPc.wayOut_pos (h : p.convinced = false) : 0 < p.wayOut r c := by
  have hpass : 0 < c.passOut := Nat.succ_pos _
  have hdetach : 0 < c.detachOut := Nat.succ_pos _
  cases p with
  | fast q =>
    cases q with
    | look | seq | alert =>
      simp only [WaitPc.wayOut, FastPc.wayOut]
      omega
    | _ => cases h
  | pass q =>
    cases q with
    | lock => exact hpass
    | validate | validateAlert => exact Nat.succ_pos _
    | _ => cases h
  | spinStart | spin => cases h
  | sweep seq timedOut q =>
    cases q <;> simp only [WaitPc.wayOut, AutoPc.wayOut] <;> omega
  | sleep seq q =>
    cases q <;> exact Nat.succ_pos _
  | detach q =>
    cases q <;> simp only [WaitPc.wayOut, DetachPc.wayOut] <;> omega
  | clean o q =>
    cases q <;> exact Nat.succ_pos _

/-- The fast path goes on to its next handle, or to the alert, or to its first locked pass. -/
theorem WaitCtx.fastNext_wayOut (i : Nat) : (c.fastNext i).wayOut r c + 1 ≤
    c.passOut + 4 * (c.handles.length - i) + 4 := by
  unfold fastNext
  split
  · simp only [WaitPc.wayOut, FastPc.wayOut, Look.wayOut]
    omega
  · split <;> simp only [WaitPc.wayOut, FastPc.wayOut, Look.wayOut] <;> omega

/-- The validation goes on to the next handle. -/
theorem WaitCtx.validateNext_wayOut (i : Nat) : (c.validateNext i).wayOut r c + 1 ≤
    (c.handles.length - i) + 2 * c.nodes.length + 5 := by
  unfold validateNext
  split
  · simp only [WaitPc.wayOut, PassPc.wayOut]
    omega
  · split
    · simp only [WaitPc.wayOut, PassPc.wayOut]
      omega
    · unfold afterAlert
      split <;> exact Nat.le_add_left 1 _

/-- The snapshot does not matter. -/
theorem WaitCtx.setSeq_wayOut (p : WaitPc) (i : Nat) (d : U64) :
    p.wayOut r (c.setSeq i d) = p.wayOut r c := by
  cases p with
  | fast p => cases p <;> rfl
  | pass p => cases p <;> rfl
  | sleep seq p => cases p <;> rfl
  | detach p => cases p <;> rfl
  | clean o p => cases p <;> rfl
  | _ => rfl

/-- A step of the fast path is one less to go. -/
theorem FastGo.wayOut {p : FastPc} (hg : FastGo sh c p ins pc') (hpos : 0 < p.wayOut c) :
    pc'.wayOut (ins.apply t pid sh).region + 1 ≤ p.wayOut c := by
  cases hg with
  | @lookOther i | @seq i =>
    have hnext := c.fastNext_wayOut (r := sh.region) i
    simp only [Pc.wayOut, WaitCtx.setSeq_wayOut, FastPc.wayOut, Look.wayOut, Instr.apply]
    omega
  | @lookBad i l | @alertBad l =>
    cases l <;> simp only [Pc.wayOut, WaitPc.wayOut, FastPc.wayOut, PassPc.wayOut, Look.wayOut] <;> omega
  | lookState | lookGen | lookEvent | alertState | alertGen | alertTyp =>
    simp only [Pc.wayOut, WaitPc.wayOut, FastPc.wayOut, Look.wayOut]
    omega
  | _ => exact absurd hpos (Nat.lt_irrefl 0)

/-- A step of the locked pass is one less to go, up to the lookup that refuses it. -/
theorem PassGo.wayOut {p : PassPc} (hg : PassGo o sh pid c p ins pc') (hpos : 0 < p.wayOut c) :
    pc'.wayOut (ins.apply t pid sh).region + 1 ≤ p.wayOut c := by
  cases hg with
  | lock =>
    simp only [Pc.wayOut, WaitPc.wayOut, PassPc.wayOut, WaitCtx.passOut]
    omega
  | @validateFirst i | @validate i =>
    have hnext := c.validateNext_wayOut (r := sh.region) i
    simp only [Pc.wayOut, WaitCtx.setSeq_wayOut, PassPc.wayOut, Instr.apply]
    omega
  | validateBad | validateAlertBad =>
    simp only [Pc.wayOut, WaitPc.wayOut, PassPc.wayOut, CleanPc.wayOut, CleanPc.work]
    omega
  | validateAlert =>
    -- the lookups have succeeded
    exact Nat.succ_le_succ (Nat.zero_le _)
  | _ => exact absurd hpos (Nat.lt_irrefl 0)

/-- A step of an automatic sweep is one less to go. -/
theorem AutoGo.wayOut {seq : U32} {timedOut : Bool} {p : AutoPc}
    (hg : AutoGo o sh c seq timedOut p ins pc')
    (hs : (Pc.wait c (.sweep seq timedOut p)).Steady sh.region) :
    pc'.wayOut (ins.apply t pid sh).region + 1 ≤
      p.wayOut sh.region (if timedOut then c.detachOut else c.sleepOut) := by
  have hfinish : ∀ r : Region, (Pc.wait c (autoTick.finish seq timedOut)).wayOut r ≤
      if timedOut then c.detachOut else c.sleepOut := by
    intro r
    cases timedOut with
    | true =>
      simp only [autoTick.finish, Pc.wayOut, WaitPc.wayOut, DetachPc.wayOut, WaitCtx.detachOut, if_true]
      omega
    | false => exact le_refl c.sleepOut
  cases hg with
  | skip | unlock =>
    have hf := hfinish sh.region
    simp only [AutoPc.wayOut, Instr.apply]
    omega
  | claim =>
    have hstart := SweepPc.start_wayOut hs.range ((Instr.claim o.now).apply t pid sh).region
    simp only [Pc.wayOut, WaitPc.wayOut, AutoPc.wayOut]
    omega
  | run hstep =>
    have hrun := SweepPc.step_wayOut t pid hstep hs.below fun i n hn => hs.walk i n hn
    simp only [Pc.wayOut, WaitPc.wayOut, AutoPc.wayOut]
    omega
  | _ =>
    simp only [Pc.wayOut, WaitPc.wayOut, AutoPc.wayOut]
    omega

/-- A step around the futex wait is one less to go. -/
theorem SleepGo.wayOut {seq : U32} {p : SleepPc} (hg : SleepGo o sh c seq p ins pc')
    (htail : pc' ≠ .wait c (.sleep seq .tail) ∨ p ≠ .tail) :
    pc'.wayOut (ins.apply t pid sh).region + 1 ≤ p.wayOut c := by
  have hafter : ∀ (r : Region) (n : Int),
      (Pc.wait c (afterFutex seq n)).wayOut r + 1 ≤ c.detachOut + autoOut + 6 := by
    intro r n
    unfold afterFutex
    split
    · simp only [Pc.wayOut, WaitPc.wayOut, AutoPc.wayOut, if_true]
      omega
    · simp only [Pc.wayOut, WaitPc.wayOut, DetachPc.wayOut, WaitCtx.detachOut]
      omega
  cases hg with
  | again | woken =>
    have ha := hafter sh.region
    simp only [SleepPc.wayOut, Instr.apply]
    exact (ha _).trans (by omega)
  | tailMore => exact absurd rfl (htail.resolve_left (fun h => h rfl))
  | _ =>
    simp only [Pc.wayOut, WaitPc.wayOut, SleepPc.wayOut, PassPc.wayOut, WaitCtx.sleepOut,
      WaitCtx.detachOut]
    omega

/-- A step of the detach after a sleep is one less to go. -/
theorem DetachGo.wayOut {p : DetachPc} (hg : DetachGo sh c p ins pc') (r : Region) :
    pc'.wayOut r + 1 ≤ p.wayOut c := by
  cases hg <;>
    simp only [Pc.wayOut, WaitPc.wayOut, DetachPc.wayOut, DetachPc.work, PassPc.wayOut] <;> omega

/-- A step of the clean-up is one less to go. -/
theorem CleanGo.wayOut {x : WaitOutcome} {p : CleanPc} (hg : CleanGo sh c x p ins pc') (r : Region) :
    pc'.wayOut r + 1 ≤ p.wayOut c := by
  cases hg <;>
    simp only [Pc.wayOut, WaitPc.wayOut, CleanPc.wayOut, CleanPc.work, WaitCtx.ret, List.length_nil,
      List.length_cons] <;> omega

/-- **A step of the wait itself.** -/
theorem WaitGo.wayOut (hg : WaitGo o sh pid c p ins pc') (hs : (Pc.wait c p).Steady sh.region)
    (hpos : 0 < p.wayOut sh.region c)
    (htail : ∀ seq, p = .sleep seq .tail → pc' ≠ .wait c p) :
    pc'.wayOut (ins.apply t pid sh).region + 1 ≤ p.wayOut sh.region c := by
  cases hg with
  | fast hg => exact hg.wayOut hpos
  | pass hg => exact hg.wayOut hpos
  | noSpin | spinStart | spin => exact absurd hpos (Nat.lt_irrefl 0)
  | sweep hg => exact hg.wayOut hs
  | @sleep seq q _ _ hg =>
    refine hg.wayOut ?_
    by_cases hq : q = .tail
    · subst hq
      exact .inl (htail seq rfl)
    · exact .inr hq
  | detach hg => exact hg.wayOut _
  | clean hg => exact hg.wayOut _

/-! ### Steps of other threads -/

/-- The way out of a sweep depends on the length of the list it walks over, and on nothing else of
    the region. -/
theorem SweepPc.wayOut_congr (p : SweepPc)
    (hw : p.locked true = true → r'.waiting = r.waiting) : p.wayOut r' = p.wayOut r := by
  have hchunk : p.chunkOut r' = p.chunkOut r := by
    cases p with
    | drop | probe | relock => rfl
    | _ => exact SweepPc.work_congr true _ hw
  unfold SweepPc.wayOut
  rw [hchunk]

/-- **What others do does not make the way longer**: only the lock holder's counts the waiters. -/
theorem Pc.wayOut_congr (pc : Pc) (hw : pc.locked = true → r'.waiting = r.waiting) :
    pc.wayOut r' = pc.wayOut r := by
  cases pc with
  | wait c p =>
    cases p with
    | sweep seq timedOut q =>
      cases q with
      | run p =>
        have hrun := p.wayOut_congr hw
        simp only [Pc.wayOut, WaitPc.wayOut, AutoPc.wayOut, hrun]
      | _ => rfl
    | _ => rfl
  | _ => rfl

end Waits

end Ntsync
