import Mathlib
import Ntsync.Lib.Amortized
import Ntsync.Work
import Ntsync.Live
import Ntsync.SweepExact

namespace Ntsync

open Words Lts

/-!
# Critical sections end, calls return, nobody is stuck

What the measure of `Work` says about whole runs.

* `Pc.Tame` — the sizes of a thread's own data, and the phases it keeps out of; with the lists and the
  pool (`NodesInv`) it makes every thread `Steady`;
* `critical_sections_end` — a critical section takes a bounded number of steps;
* `calls_return` — so does every call that does not block;
* `no_deadlock` — a thread in a call can make its next step, or it waits for a lock holder that can.
-/

variable {T : Type}

/-! ### A thread's own data -/

/-- The candidates of the chunk at hand. -/
def SweepPc.size : SweepPc → Nat
  | .chunk _ => 0
  | .drop _ cands => cands.length
  | .probe _ judged _ _ rest => judged.length + (rest.length + 1)
  | .relock _ judged | .reap _ judged | .reapFree _ _ judged | .reapGen _ _ judged
  | .reapWalk _ _ _ judged => judged.length

/-- Sizes and phases of a call. -/
structure Pc.Tame (pc : Pc) : Prop where
  size : ∀ auto p, pc.sweep? = some (auto, p) → p.size ≤ sweepChunk
  pauses : ∀ p, pc.sweep? = some (false, p) → p.pauses = false
  poll : ∀ c p, pc = .wait c p → c.timeout = .zero → p.polling = true
  nodes : ∀ c p, pc = .wait c p → c.nodes.length ≤ c.nNodes

section Tame

variable {o : Oracle} {sh : Shared T} {pid : U32} {calls : U64} {ins : Instr} {pc pc' : Pc}
  {c c' : WaitCtx} {p p' : WaitPc}

/-- Judging loses no candidate. -/
theorem SweepPc.judge_size (auto : Bool) (st : SweepSt) (judged : List (DeadCand × Bool))
    (rest : List DeadCand) :
    (SweepPc.judge auto st judged rest).size = judged.length + rest.length := by
  cases rest with
  | nil => cases auto <;> rfl
  | cons => rfl

/-- A sweep holds at most one chunk of candidates. -/
theorem SweepGo.size {auto : Bool} {p p' : SweepPc} (hg : SweepGo auto sh p ins (.more p'))
    (h : p.size ≤ sweepChunk) : p'.size ≤ sweepChunk := by
  cases hg with
  | chunkAuto hc => exact (nextChunk_left hc).2
  | chunk hc =>
    rw [SweepPc.judge_size, List.length_nil, Nat.zero_add]
    exact (nextChunk_left hc).2
  | drop =>
    rw [SweepPc.judge_size, List.length_nil, Nat.zero_add]
    exact h
  | probeDead | probeAlive =>
    rw [SweepPc.judge_size, List.length_append, List.length_singleton, Nat.add_assoc, Nat.add_comm 1]
    exact h
  | reaped => exact Nat.zero_le _
  | skip | reapNode | reapSlot => exact (Nat.le_succ _).trans h
  | probe | relock | reapFree | reapGen | walk | walked => exact h

/-- A sweep that keeps the lock does not pause. -/
theorem SweepGo.pauses {p p' : SweepPc} (hg : SweepGo false sh p ins (.more p')) :
    p'.pauses = false := by
  have hjudge : ∀ st judged rest, (SweepPc.judge false st judged rest).pauses = false := by
    intro st judged rest
    cases rest <;> rfl
  generalize hq : Out.more p' = q at hg
  cases hg with
  | chunkAuto _ ha | drop ha => cases ha
  | finished => cases hq
  | chunk | probeDead | probeAlive =>
    cases hq
    exact hjudge _ _ _
  | _ =>
    cases hq
    rfl

/-- A wait with a zero timeout does not come to its sleep. -/
theorem waitTick_polling (ht : waitTick o sh pid calls c p = some (ins, .wait c' p'))
    (hp : c.timeout = .zero → p.polling = true) (hz : c'.timeout = .zero) : p'.polling = true := by
  have hg := waitTick_inv ht
  have hfast : ∀ i, (c.fastNext i).polling = true := by
    intro i
    unfold WaitCtx.fastNext
    split
    · rfl
    · split <;> rfl
  have hafter : c.afterAlert.polling = true := by
    unfold WaitCtx.afterAlert
    split <;> rfl
  have hvalidate : ∀ i, (c.validateNext i).polling = true := by
    intro i
    unfold WaitCtx.validateNext
    split
    · rfl
    · split
      · rfl
      · exact hafter
  have hregister : ∀ i, (WaitPc.pass (c.registerNext i)).polling = true := by
    intro i
    unfold WaitCtx.registerNext
    split <;> rfl
  generalize hpc : Pc.wait c' p' = pc' at hg ht
  cases hg with
  | fast hg =>
    cases hg with
    | lookOther | seq =>
      cases hpc
      exact hfast _
    | _ => cases hpc <;> rfl
  | pass hg =>
    cases hg with
    | validateFirst | validate =>
      cases hpc
      exact hvalidate _
    | alertClear =>
      cases hpc
      exact hafter
    | alloc =>
      cases hpc
      unfold WaitCtx.allocNext
      split <;> rfl
    | registerSkip | register =>
      cases hpc
      exact hregister _
    -- a zero timeout has expired by the end of the pass
    | sample =>
      cases hpc
      simp [waitTick, passTick, WaitCtx.goto, hz] at ht
    | unlock =>
      cases hpc
      cases hp hz
    | _ => cases hpc <;> rfl
  | clean hg =>
    cases hg with
    | lock =>
      cases hpc
      rfl
    | _ => cases hpc <;> rfl
  | @noSpin seq | @spinStart seq =>
    cases hpc
    cases hp hz
  | spin hg =>
    cases hg <;> cases hpc <;> cases hp hz
  | sweep hg =>
    cases hg <;> cases hpc <;> cases hp hz
  | sleep hg =>
    cases hg <;> cases hpc <;> cases hp hz
  | detach hg =>
    cases hg <;> cases hpc <;> cases hp hz

/-- An allocation adds one node. -/
theorem WaitGo.nodes_le (hg : WaitGo o sh pid c p ins (.wait c' p'))
    (halloc : p = .pass .alloc → c.nodes.length < c.nNodes) (hn : c.nodes.length ≤ c.nNodes) :
    c'.nodes.length ≤ c'.nNodes := by
  have hargs : c'.toWaitArgs = c.toWaitArgs := hg.sameArgs rfl
  have hsame : c'.nNodes = c.nNodes := by
    rw [WaitCtx.nNodes, WaitCtx.nNodes, hargs]
  rw [hsame]
  by_cases hne : ins = .allocNode
  · subst hne
    generalize hpc : Pc.wait c' p' = pc' at hg
    cases (PcGo.wait hg).pool with
    | alloc =>
      cases hpc
      rw [WaitCtx.addNode, List.length_append, List.length_singleton]
      exact halloc rfl
    | other hl => cases hl
  · rw [hg.nodes_eq hne]
    exact hn

/-- **A step keeps a call tame.** -/
theorem Pc.Tame.tick (hT : pc.Tame) (ht : tick o sh pid calls pc = some (ins, pc'))
    (halloc : ∀ c, pc = .wait c (.pass .alloc) → c.nodes.length < c.nNodes) : pc'.Tame := by
  have hg := tick_inv ht
  have hsweep : ∀ auto p', pc'.sweep? = some (auto, p') →
      (∃ r, p' = .chunk (.new r)) ∨ ∃ p, pc.sweep? = some (auto, p) ∧ SweepGo auto sh p ins (.more p') := by
    intro auto p' hp'
    cases hsw : pc.sweep? with
    | none =>
      rcases hg.noSweep hsw with hn | ⟨auto', hn⟩ <;> rw [hn] at hp' <;> cases hp'
      exact .inl ⟨_, rfl⟩
    | some x =>
      obtain ⟨auto', p⟩ := x
      obtain ⟨q, hs, hf⟩ := hg.sweep hsw
      cases q with
      | more q =>
        rw [show pc'.sweep? = some (auto', q) from hf] at hp'
        cases hp'
        exact .inr ⟨p, rfl, hs⟩
      | done n =>
        rw [show pc'.sweep? = none from hf] at hp'
        cases hp'
  have hwait : ∀ c' p', pc' = .wait c' p' → ∃ c p, pc = .wait c p := by
    rintro c' p' rfl
    obtain ⟨c, p, hpc, _⟩ := hg.of_wait
    exact ⟨c, p, hpc⟩
  refine ⟨fun auto p' hp' => ?_, fun p' hp' => ?_, fun c' p' hp' => ?_, fun c' p' hp' => ?_⟩
  · rcases hsweep auto p' hp' with ⟨r, rfl⟩ | ⟨p, hp, hs⟩
    · exact Nat.zero_le _
    · exact hs.size (hT.size auto p hp)
  · rcases hsweep false p' hp' with ⟨r, rfl⟩ | ⟨p, hp, hs⟩
    · rfl
    · exact hs.pauses
  · obtain ⟨c, p, rfl⟩ := hwait c' p' hp'
    subst hp'
    exact waitTick_polling ht (hT.poll c p rfl)
  · obtain ⟨c, p, rfl⟩ := hwait c' p' hp'
    subst hp'
    exact (waitTick_inv ht).nodes_le (fun hp => halloc c (by rw [hp])) (hT.nodes c p rfl)

/-- A call that neither waits nor sweeps. -/
theorem Pc.Tame.plain (hs : pc.sweep? = none) (hw : ∀ c p, pc ≠ .wait c p) : pc.Tame where
  size auto p hp := by
    rw [hs] at hp
    cases hp
  pauses p hp := by
    rw [hs] at hp
    cases hp
  poll c p hp := absurd hp (hw c p)
  nodes c p hp := absurd hp (hw c p)

/-- A call starts tame. -/
theorem Pc.start_tame (cl : Call) : (Pc.start cl).Tame := by
  cases cl with
  | wait a timeout =>
    simp only [Pc.start]
    split
    · refine ⟨fun _ _ h => (by cases h), fun _ h => (by cases h), fun _ _ h _ => ?_, fun _ _ h => ?_⟩
      · cases h
        rfl
      · cases h
        exact Nat.zero_le _
    · exact .plain rfl fun _ _ h => by cases h
  | op | create | close | hold =>
    simp only [Pc.start]
    split <;> exact .plain rfl fun _ _ h => by cases h
  | pulse | sweepDead => exact .plain rfl fun _ _ h => by cases h

end Tame

/-! ### The next step -/

/-- The thread is about to take the region lock. -/
def Pc.wantsLock : Pc → Bool
  | .op _ _ (.lockWake _) | .pulse _ .lock | .wait _ (.pass .lock) | .wait _ (.sweep _ _ .lock)
  | .wait _ (.sweep _ _ (.run (.relock _ _))) | .wait _ (.detach .lock) | .wait _ (.clean _ .lock)
  | .create _ .lock | .close _ .lock | .hold _ _ .lock | .sweepDead .lock => true
  | _ => false

section Next

variable {sh : Shared T} {pc : Pc}

/-- A free lock can be taken. -/
theorem takeLock_isSome {q : Pc} (h : sh.lock = none) : (takeLock sh q).isSome = true := by
  unfold takeLock
  rw [h]
  rfl

/-- A walk can step as long as it has a word to bump. -/
theorem Walk.exists_step (r : Region) (i : Nat) (w : Walk)
    (hw : ∀ word next, w = .bump word next → word.isSome = true) :
    ∃ ins q, w.step r i = some (ins, q) := by
  cases w with
  | start => exact ⟨_, _, rfl⟩
  | node idx => cases idx <;> exact ⟨_, _, rfl⟩
  | bump word next =>
    obtain ⟨x, hx⟩ := Option.isSome_iff_exists.mp (hw word next rfl)
    rw [hx]
    exact ⟨_, _, rfl⟩

/-- A sweep can step, once it has the lock where it needs it. -/
theorem SweepPc.exists_step (auto : Bool) (sh : Shared T) (p : SweepPc)
    (hp : p.pauses = true → auto = true) (hlock : ∀ st judged, p = .relock st judged → sh.lock = none)
    (hw : ∀ i word next, p.walk? = some (i, .bump word next) → word.isSome = true) :
    ∃ ins q, p.step auto sh = some (ins, q) := by
  cases p with
  | chunk st =>
    simp only [SweepPc.step]
    split
    · exact ⟨_, _, rfl⟩
    · split <;> exact ⟨_, _, rfl⟩
  | drop st cands =>
    rw [hp rfl]
    exact ⟨_, _, rfl⟩
  | probe st judged c pids rest =>
    cases pids with
    | nil => exact ⟨_, _, rfl⟩
    | cons p pids =>
      simp only [SweepPc.step]
      split <;> exact ⟨_, _, rfl⟩
  | relock st judged =>
    simp only [SweepPc.step, hlock st judged rfl]
    exact ⟨_, _, rfl⟩
  | reap st judged =>
    cases judged with
    | nil => exact ⟨_, _, rfl⟩
    | cons x judged =>
      simp only [SweepPc.step]
      repeat' split
      all_goals exact ⟨_, _, rfl⟩
  | reapFree | reapGen => exact ⟨_, _, rfl⟩
  | reapWalk st i w judged =>
    obtain ⟨ins, q, hq⟩ := w.exists_step sh.region i fun word next h => hw i word next (by rw [h]; rfl)
    simp only [SweepPc.step, hq]
    cases q <;> exact ⟨_, _, rfl⟩

/-- A wait can step, once it has the lock where it needs it. -/
theorem waitTick_isSome (o : Oracle) (sh : Shared T) (pid : U32) (calls : U64) (c : WaitCtx) (p : WaitPc)
    (hlock : (Pc.wait c p).wantsLock = true → sh.lock = none)
    (hword : ∀ i word next, (Pc.wait c p).walk? = some (i, .bump word next) → word.isSome = true) :
    (tick o sh pid calls (.wait c p)).isSome = true := by
  cases p with
  | fast p =>
    cases p with
    | look i l => cases l <;> simp only [tick, waitTick, fastTick] <;> split <;> rfl
    | alert l => cases l <;> simp only [tick, waitTick, fastTick] <;> split <;> rfl
    | seq i => rfl
    | _ =>
      simp only [tick, waitTick, fastTick]
      split <;> rfl
  | pass p =>
    cases p with
    -- only the lock can keep a thread waiting
    | lock => exact takeLock_isSome (hlock rfl)
    | unlock seq => rfl
    | _ =>
      simp only [tick, waitTick, passTick]
      repeat' split
      all_goals rfl
  | spinStart seq =>
    simp only [tick, waitTick]
    split <;> rfl
  | spin left seq p =>
    cases p <;> simp only [tick, waitTick, spinTick] <;> repeat' split
    all_goals rfl
  | sweep seq timedOut p =>
    cases p with
    | lock => exact takeLock_isSome (hlock rfl)
    | run p =>
      -- the walk of a reap needs a head to bump
      obtain ⟨ins, q, hq⟩ := p.exists_step true sh (fun _ => rfl)
        (fun st judged h => hlock (by rw [h]; rfl)) hword
      simp only [tick, waitTick, autoTick, hq]
      cases q <;> rfl
    | unlock => rfl
    | _ =>
      simp only [tick, waitTick, autoTick]
      split <;> rfl
  | sleep seq p =>
    -- a parked thread may return from its sleep at any time
    cases p with
    | parked => rfl
    | _ =>
      simp only [tick, waitTick, sleepTick]
      split <;> rfl
  | detach p =>
    cases p with
    | lock => exact takeLock_isSome (hlock rfl)
    | peek k =>
      simp only [tick, waitTick, detachTick]
      split
      · rfl
      · split <;> rfl
    | _ => rfl
  | clean r p =>
    cases p with
    | lock => exact takeLock_isSome (hlock rfl)
    | detach todo => cases todo <;> rfl
    | free todo => cases todo <;> rfl
    | unlock => rfl

/-- **The next step of a thread**: it has one, unless it waits for the lock. -/
theorem tick_isSome (o : Oracle) (sh : Shared T) (pid : U32) (calls : U64)
    (hin : pc.outside = false) (hnp : pc ≠ .panicked)
    (hlock : pc.wantsLock = true → sh.lock = none)
    (hpause : ∀ p, pc.sweep? = some (false, p) → p.pauses = false)
    (hword : ∀ i word next, pc.walk? = some (i, .bump word next) → word.isSome = true) :
    (tick o sh pid calls pc).isSome = true := by
  cases pc with
  | idle | done => cases hin
  | panicked => exact absurd rfl hnp
  | op h op p =>
    cases p with
    -- only the lock and a walk can hold a step up
    | lockWake r => exact takeLock_isSome (hlock rfl)
    | walk r w =>
      obtain ⟨ins, q, hq⟩ := w.exists_step sh.region (handleIndex h)
        fun word next hw => hword _ word next (by rw [hw]; rfl)
      simp only [tick, opTick, hq]
      cases q <;> rfl
    | unlock r => rfl
    | _ =>
      simp only [tick, opTick]
      split <;> rfl
  | pulse h p =>
    cases p with
    | lock => exact takeLock_isSome (hlock rfl)
    | check =>
      simp only [tick, pulseTick]
      split
      · split <;> rfl
      · rfl
    | walk prev w =>
      obtain ⟨ins, q, hq⟩ := w.exists_step sh.region (handleIndex h)
        fun word next hw => hword _ word next (by rw [hw]; rfl)
      simp only [tick, pulseTick, hq]
      cases q <;> rfl
    | _ => rfl
  | close h p =>
    cases p with
    | lock => exact takeLock_isSome (hlock rfl)
    | check =>
      simp only [tick, closeTick]
      split <;> rfl
    | write ws => cases ws <;> rfl
    | walk w =>
      obtain ⟨ins, q, hq⟩ := w.exists_step sh.region (handleIndex h)
        fun word next hw => hword _ word next (by rw [hw]; rfl)
      simp only [tick, closeTick, hq]
      cases q <;> rfl
    | _ => rfl
  | hold add h p =>
    cases p with
    | lock => exact takeLock_isSome (hlock rfl)
    | check =>
      simp only [tick, holdTick]
      split
      · rfl
      · split <;> rfl
    | write ws => cases ws <;> rfl
    | _ => rfl
  | create k p =>
    cases p with
    | lock => exact takeLock_isSome (hlock rfl)
    | alloc retry =>
      simp only [tick, createTick]
      split
      · rfl
      · split <;> rfl
    | sweep p =>
      have hp := hpause p rfl
      obtain ⟨ins, q, hq⟩ := p.exists_step false sh (fun h => by rw [hp] at h; cases h)
        (fun st judged h => by rw [h] at hp; cases hp) hword
      simp only [tick, createTick, hq]
      cases q <;> rfl
    | write h ws => cases ws <;> rfl
    | unlock r => rfl
  | sweepDead p =>
    cases p with
    | lock => exact takeLock_isSome (hlock rfl)
    | run p =>
      have hp := hpause p rfl
      obtain ⟨ins, q, hq⟩ := p.exists_step false sh (fun h => by rw [hp] at h; cases h)
        (fun st judged h => by rw [h] at hp; cases hp) hword
      simp only [tick, sweepDeadTick, hq]
      cases q <;> rfl
    | unlock n => rfl
  | wait c p => exact waitTick_isSome o sh pid calls c p hlock hword

end Next

/-! ### Threads that may not stop -/

/-- The call a thread is inside of. -/
def Pc.call? : Pc → Option Call
  | .idle | .done _ _ | .panicked => none
  | .op h o _ => some (.op h o)
  | .pulse h _ => some (.pulse h)
  | .wait c _ => some (.wait c.toWaitArgs c.timeout)
  | .create k _ => some (.create k)
  | .close h _ => some (.close h)
  | .hold add h _ => some (.hold add h)
  | .sweepDead _ => some .sweepDead

/-- Only a wait with a timeout other than zero blocks. -/
def Call.blocks : Call → Bool
  | .wait _ timeout => decide (timeout ≠ .zero)
  | _ => false

/-- The steps of a call that does not block, when nobody interferes. -/
def Call.work : Call → Nat
  | .op _ _ | .close _ => 2 * nodeCount + 11
  | .pulse _ => 2 * nodeCount + 10
  | .wait a _ => 30 * a.handles.length + 4 * (a.handles.length + if a.alert ≠ 0 then 1 else 0) + 46
  | .create _ => sweepWork + 23
  | .hold _ _ => 9
  | .sweepDead => sweepWork + 3

/-- The steps of a critical section, when nobody interferes. -/
def sectionWork : Nat := sweepWork + 22

section Bounds

variable {o : Oracle} {sh : Shared T} {pid : U32} {ins : Instr} {pc pc' : Pc} {c : WaitCtx}
  {p : WaitPc} {r : Region}

/-- A wait goes on with its own call or leaves it. -/
theorem WaitGo.call (hg : WaitGo o sh pid c p ins pc') :
    pc'.call? = none ∨ pc'.call? = some (.wait c.toWaitArgs c.timeout) := by
  cases hg with
  | fast hg => cases hg <;> first | exact .inr rfl | exact .inl rfl
  | pass hg => cases hg <;> first | exact .inr rfl | exact .inl rfl
  | noSpin | spinStart => exact .inr rfl
  | spin hg => cases hg <;> first | exact .inr rfl | exact .inl rfl
  | sweep hg => cases hg <;> exact .inr rfl
  | sleep hg => cases hg <;> exact .inr rfl
  | detach hg => cases hg <;> exact .inr rfl
  | clean hg => cases hg <;> first | exact .inr rfl | exact .inl rfl

/-- A call goes on or returns; it never becomes another call. -/
theorem PcGo.call (hg : PcGo sh pid o pc ins pc') : pc'.call? = none ∨ pc'.call? = pc.call? := by
  cases hg with
  | op hg => cases hg <;> first | exact .inr rfl | exact .inl rfl
  | pulse hg => cases hg <;> first | exact .inr rfl | exact .inl rfl
  | wait hg => exact hg.call
  | create hg => cases hg <;> first | exact .inr rfl | exact .inl rfl
  | close hg => cases hg <;> first | exact .inr rfl | exact .inl rfl
  | hold hg => cases hg <;> first | exact .inr rfl | exact .inl rfl
  | sweepDead hg => cases hg <;> first | exact .inr rfl | exact .inl rfl

/-- A call begins with the work of the whole call. -/
theorem Pc.start_work {cl c : Call} (h : (Pc.start cl).call? = some c) (hb : c.blocks = false) :
    (Pc.start cl).work r ≤ c.work := by
  cases cl with
  | op hd op =>
    simp only [Pc.start] at h ⊢
    split at h <;> cases h
    rename_i hv
    rw [if_pos hv]
    exact le_refl _
  | pulse hd =>
    cases h
    exact le_refl _
  | wait a timeout =>
    simp only [Pc.start] at h ⊢
    split at h <;> cases h
    rename_i hv
    have hz : timeout = .zero := by simpa [Call.blocks] using hb
    rw [if_pos hv]
    simp only [Pc.work, WaitPc.work, FastPc.work, WaitCtx.lockWork, WaitCtx.passWork, WaitCtx.nNodes,
      WaitArgs.satWork, Call.work, hz, if_true, List.length_nil]
    omega
  | create k =>
    simp only [Pc.start] at h ⊢
    split at h <;> cases h
    rename_i hv
    rw [if_pos hv]
    exact le_refl _
  | close hd =>
    simp only [Pc.start] at h ⊢
    split at h <;> cases h
    rename_i hv
    rw [if_neg hv]
    exact le_refl _
  | hold add hd =>
    simp only [Pc.start] at h ⊢
    split at h <;> cases h
    rename_i hv
    rw [if_neg hv]
    exact le_refl _
  | sweepDead =>
    cases h
    exact le_refl _

/-- A wait has something left to do inside a critical section, and when it polls. -/
theorem WaitPc.work_pos {c : WaitCtx} {p : WaitPc} (hs : (Pc.wait c p).Steady r)
    (hz : p.locked = true ∨ c.timeout = .zero) : 0 < (Pc.wait c p).work r := by
  cases p with
  | fast p =>
    have hz' : c.timeout = .zero := hz.resolve_left (by simp [WaitPc.locked])
    simp only [Pc.work, WaitPc.work, hz', if_true]
    cases p with
    | look i l => cases l <;> exact Nat.succ_pos _
    | alert l => cases l <;> exact Nat.succ_pos _
    | sat q => exact q.work_pos
    | _ => exact Nat.succ_pos _
  | pass p =>
    cases p with
    | lock =>
      have hz' : c.timeout = .zero := hz.resolve_left (by simp [WaitPc.locked])
      simp only [Pc.work, WaitPc.work, PassPc.work, hz', if_true]
      exact Nat.succ_pos _
    | _ => exact Nat.succ_pos _
  -- what comes after the pass is no part of a poll
  | sweep seq timedOut p =>
    have hl : p.locked = true := by
      rcases hz with hl | hz
      · exact hl
      · cases hs.poll c _ rfl hz
    cases p with
    | gate | lock => cases hl
    | run p =>
      simp only [Pc.work, WaitPc.work, AutoPc.work]
      rw [if_pos (show p.locked true = true from hl)]
      exact Nat.succ_pos _
    | _ => exact Nat.succ_pos _
  | detach p =>
    have hl : (WaitPc.detach p).locked = true := by
      rcases hz with hl | hz
      · exact hl
      · cases hs.poll c _ rfl hz
    cases p with
    | peek | lock => cases hl
    | _ => exact Nat.succ_pos _
  | clean out p =>
    have hl : ¬ p = .lock := by
      rintro rfl
      rcases hz with hl | hz
      · cases hl
      · cases hs.poll c _ rfl hz
    cases p with
    | lock => exact absurd rfl hl
    | _ => exact Nat.succ_pos _
  | spinStart | spin | sleep =>
    rcases hz with hl | hz
    · cases hl
    · cases hs.poll c _ rfl hz

/-- A thread has something left to do inside a critical section, and inside a call that does not
    block. -/
theorem Pc.work_pos (hs : pc.Steady r)
    (h : pc.locked = true ∨ ∃ c, pc.call? = some c ∧ c.blocks = false) : 0 < pc.work r := by
  cases pc with
  | idle | done | panicked =>
    rcases h with h | ⟨c, hc, _⟩
    · cases h
    · cases hc
  | op hd op p =>
    cases p <;> simp only [Pc.work, OpPc.work] <;> omega
  | pulse hd p =>
    cases p <;> simp only [Pc.work, PulsePc.work] <;> omega
  | create k p =>
    cases p with
    | alloc retry => cases retry <;> exact Nat.succ_pos _
    | _ =>
      simp only [Pc.work, CreatePc.work]
      omega
  | close hd p =>
    cases p <;> simp only [Pc.work, ClosePc.work] <;> omega
  | hold add hd p =>
    cases p <;> cases add <;> exact Nat.succ_pos _
  | sweepDead p =>
    cases p <;> simp only [Pc.work, SweepCallPc.work] <;> omega
  | wait c p =>
    refine WaitPc.work_pos hs (h.imp_right fun h => ?_)
    obtain ⟨_, hc, hb⟩ := h
    cases hc
    simpa [Call.blocks] using hb

/-- A wait that takes the lock has the work of a critical section before it. -/
theorem WaitGo.lock_work {c : WaitCtx} {p : WaitPc} (hg : WaitGo o sh pid c p ins pc')
    (hl : (Pc.wait c p).locked = false) (hl' : pc'.locked = true) (hT : (Pc.wait c p).Tame)
    (hsh : (Pc.wait c p).Shape) : pc'.work sh.region ≤ sectionWork := by
  have hw := sh.region.waiting_le
  have hcount : nodeCount = 8192 ∧ slotCount = 16384 := ⟨rfl, rfl⟩
  unfold sectionWork
  have hlen : c.handles.length ≤ 64 := (WaitArgs.valid_iff.mp hsh.1).2.2.1
  have hnodes : c.nodes.length ≤ c.nNodes := hT.nodes c p rfl
  have hfew : c.nNodes ≤ 65 := by
    unfold WaitCtx.nNodes
    split <;> omega
  cases hg with
  | fast hg =>
    cases hg with
    | lookOther | seq =>
      have hnext : (c.fastNext _).locked = true := hl'
      unfold WaitCtx.fastNext at hnext
      split at hnext
      · cases hnext
      · split at hnext <;> cases hnext
    | _ => cases hl'
  | pass hg =>
    cases hg with
    | lock =>
      simp only [Pc.work, WaitPc.work, PassPc.work, WaitCtx.passWork, WaitArgs.satWork, sweepWork]
      omega
    | _ => cases hl
  | noSpin | spinStart => cases hl'
  | spin hg => cases hg <;> cases hl'
  | @sweep seq timedOut q _ _ hg =>
    cases hg with
    | lock =>
      simp only [Pc.work, WaitPc.work, AutoPc.work, sweepWork]
      omega
    | run hs =>
      cases SweepPc.step_inv hs with
      -- an automatic sweep takes the lock again with one chunk judged
      | @relock st judged =>
        have hj : judged.length ≤ 256 := hT.size true _ rfl
        simp only [Pc.work, WaitPc.work, AutoPc.work, SweepPc.locked, SweepPc.work,
          SweepSt.scanWork, sweepWork, if_true]
        omega
      | probeDead | probeAlive =>
        have hj : (SweepPc.judge true _ _ _).locked true = true := hl'
        rw [SweepPc.judge_locked] at hj
        cases hj
      | _ => first | (cases hl; done) | cases hl'
    | swept hs =>
      cases SweepPc.step_inv hs with
      | finished => cases hl
    | skip => cases timedOut <;> cases hl'
    | _ => first | (cases hl; done) | cases hl'
  | sleep hg =>
    cases hg with
    | again | woken =>
      unfold afterFutex at hl'
      split at hl' <;> cases hl'
    | _ => cases hl'
  | detach hg =>
    cases hg with
    | lock =>
      simp only [Pc.work, WaitPc.work, DetachPc.work, sweepWork]
      omega
    | _ => first | (cases hl; done) | cases hl'
  | clean hg =>
    cases hg with
    | lock =>
      simp only [Pc.work, WaitPc.work, CleanPc.work, sweepWork]
      omega
    | _ => cases hl

/-- A critical section begins with the work of a critical section. -/
theorem PcGo.lock_work (hg : PcGo sh pid o pc ins pc') (hl : pc.locked = false)
    (hl' : pc'.locked = true) (hT : pc.Tame) (hsh : pc.Shape)
    (hr : (SweepScan.new sh.region).left ≤ nodeCount + slotCount) :
    pc'.work sh.region ≤ sectionWork := by
  have hw := sh.region.waiting_le
  have hsweep := SweepPc.start_work hr
  have hcount : nodeCount = 8192 ∧ slotCount = 16384 := ⟨rfl, rfl⟩
  unfold sectionWork
  cases hg with
  | op hg =>
    cases hg with
    | lock =>
      simp only [Pc.work, OpPc.work, Walk.work, sweepWork]
      omega
    | _ => first | (cases hl; done) | cases hl'
  | pulse hg =>
    cases hg with
    | lock =>
      simp only [Pc.work, PulsePc.work, sweepWork]
      omega
    | _ => cases hl
  | create hg =>
    cases hg with
    | lock => exact le_refl _
    | run hs =>
      cases SweepPc.step_inv hs with
      | probeDead | probeAlive | probe => cases hl
      -- the sweep inside a create does not drop the lock
      | relock => cases hT.pauses _ rfl
      | _ => cases hl
    | retry hs | giveUp hs =>
      cases SweepPc.step_inv hs with
      | finished => cases hl
    | _ => cases hl
  | close hg =>
    cases hg with
    | lock =>
      simp only [Pc.work, ClosePc.work, sweepWork]
      omega
    | _ => cases hl
  | hold hg =>
    cases hg with
    | lock =>
      simp only [Pc.work, HoldPc.work]
      omega
    | _ => cases hl
  | sweepDead hg =>
    cases hg with
    | lock =>
      simp only [Pc.work, SweepCallPc.work]
      omega
    | run hs =>
      cases SweepPc.step_inv hs with
      | relock => cases hT.pauses _ rfl
      | _ => cases hl
    | swept hs =>
      cases SweepPc.step_inv hs with
      | finished => cases hl
    | unlock => cases hl
  | wait hg => exact hg.lock_work hl hl' hT hsh

end Bounds

/-! ### Every run -/

/-- Step labels, as seen from thread `t`. -/
def Label.isStep [DecidableEq T] (t : T) : Label T → Bool
  | .instr u _ _ => decide (u = t)
  | _ => false

def Label.begins [DecidableEq T] (t : T) : Label T → Bool
  | .call u _ => decide (u = t)
  | _ => false

def Label.locks [DecidableEq T] (t : T) : Label T → Bool
  | .instr u _ .lock => decide (u = t)
  | _ => false

/-- The instruction stores a state word. -/
def Instr.storesWord : Instr → Bool
  | .word _ _ _ _ | .store _ (.w0 _) => true
  | _ => false

/-- Another thread stores a state word. -/
def Label.disturbs [DecidableEq T] (t : T) : Label T → Bool
  | .instr u _ ins => decide (u ≠ t) && ins.storesWord
  | _ => false

/-- An instruction that stores no word leaves all words alone. -/
theorem Instr.word_kept {ins : Instr} (t : T) (pid : U32) (sh : Shared T)
    (h : ins.storesWord = false) (i : Nat) :
    ((ins.apply t pid sh).region.slots i).w0 = (sh.region.slots i).w0 := by
  obtain ⟨hd, hr⟩ := Instr.apply_slot t pid sh ins i
  rw [hr]
  cases ins with
  | word => cases h
  | storeD j v | reap j =>
    simp only [Instr.slotAfter]
    split <;> rfl
  | store j w =>
    simp only [Instr.slotAfter]
    split
    · cases w <;> first | rfl | cases h
    · rfl
  | _ => rfl

/-- The scan of a sweep covers at most the pool and the table. -/
theorem CursorOk.scan_left {r : Region} (h : CursorOk r) :
    (SweepScan.new r).left ≤ nodeCount + slotCount := by
  have hslot : (SweepScan.new r).slotHi ≤ slotCount := by
    rw [SweepScan.new_slotHi]
    split
    · exact le_refl _
    · exact h.lt.le
  have hnode : (SweepScan.new r).nodeHi ≤ nodeCount := Nat.min_le_right _ _
  exact Nat.add_le_add ((Nat.sub_le _ _).trans hnode) ((Nat.sub_le _ _).trans hslot)

/-- Who has the lock does not want it. -/
theorem Pc.locked_not_wants {pc : Pc} (h : pc.locked = true) : pc.wantsLock = false := by
  unfold Pc.wantsLock
  split <;> first | rfl | cases h

/-- What every run keeps in which nobody dies with a close half done. -/
structure ProgressInv (s : Sys T) : Prop where
  nodes : NodesInv s
  cursor : CursorOk s.region
  tame : ∀ t, (s.threads t).pc.Tame

section Runs

variable [DecidableEq T] {s s' : Sys T} {a : Action T} {l : Label T} {t : T} {h : List (Label T)}

/-- **The invariant of all runs with clean deaths.** -/
theorem ProgressInv.of_run {pid : T → U32} (hpid : ∀ t, pid t ≠ 0)
    (hr : Run Sys.step (fun s l _ => CleanDeath s l) (Sys.rest Region.init pid) h s) :
    ProgressInv s := by
  have hi : NodesInv s ∧ ∀ t, (s.threads t).pc.Tame := by
    refine hr.state_invariant (I := fun s => NodesInv s ∧ ∀ t, (s.threads t).pc.Tame)
      ⟨.of_init hpid, fun _ => .plain rfl fun _ _ h => by cases h⟩ fun s a s' l hi hs hd => ?_
    refine ⟨hi.1.step hs hd, fun u => ?_⟩
    cases Sys.step_inv hs with
    | @call t c =>
      rw [Sys.entered_pc]
      split
      · exact Pc.start_tame c
      · exact hi.2 u
    | @tick t o ins pc' ha ht =>
      rw [Sys.after_pc]
      split
      · -- an allocating wait has room for one more node
        refine (hi.2 t).tick ht fun c hc => ?_
        obtain ⟨L, F, U, hp⟩ := hi.1.pool
        exact ((hp.knows t ha).nodes c _ hc).1
      · exact hi.2 u
    | die => exact hi.2 u
  exact ⟨hi.1, (CursorInv.of_run hr).ok, hi.2⟩

omit [DecidableEq T] in
/-- A live thread has what its next step needs. -/
theorem ProgressInv.steady (hi : ProgressInv s) (ha : s.dead (s.threads t).pid = false) :
    (s.threads t).pc.Steady s.region := by
  obtain ⟨L, F, U, hp⟩ := hi.nodes.pool
  exact ⟨fun n hn => (hp.lists.below n hn).trans_le hp.lists.bound,
    fun i n hw => (hp.walk_head ha hw).2.1, hi.cursor.scan_left, (hi.tame t).pauses, (hi.tame t).poll⟩

/-- A live thread inside a call that does not want the lock, or may have it, can make its next step.
    -/
theorem ProgressInv.next (hi : ProgressInv s) (ha : s.dead (s.threads t).pid = false)
    (hin : (s.threads t).pc.outside = false) (hnp : (s.threads t).pc ≠ .panicked)
    (hlock : (s.threads t).pc.wantsLock = true → s.lock = none) (o : Oracle) :
    (s.step (.tick t o)).isSome = true := by
  obtain ⟨L, F, U, hp⟩ := hi.nodes.pool
  have hsome := tick_isSome o s.toShared (s.threads t).pid (s.threads t).calls hin hnp hlock
    (hi.tame t).pauses fun i word next hw => ((hp.knows t ha).walk i _ hw).1
  obtain ⟨x, hx⟩ := Option.isSome_iff_exists.mp hsome
  simp only [Sys.step, ha, hx, Bool.false_eq_true, if_false]
  rfl

/-- The lock holder can make its next step. -/
theorem ProgressInv.holder (hi : ProgressInv s) (hl : s.lock = some t) (o : Oracle) :
    (s.step (.tick t o)).isSome = true := by
  obtain ⟨hlk, ha⟩ := (hi.nodes.table.lock t).mp hl
  refine hi.next ha ?_ ?_ ?_ o
  · by_contra hout
    rw [Bool.not_eq_false] at hout
    rw [Pc.locked_of_outside hout] at hlk
    cases hlk
  · intro hp
    rw [hp] at hlk
    cases hlk
  · intro hw
    rw [Pc.locked_not_wants hlk] at hw
    cases hw

/-- While a live thread holds the lock, nobody else touches the registered nodes. -/
theorem NodesInv.waiting_others {u : T} {o : Oracle} {ins : Instr} {pc' : Pc} (hi : NodesInv s)
    (ha : s.dead (s.threads t).pid = false) (hl : (s.threads t).pc.locked = true)
    (hua : s.dead (s.threads u).pid = false) (hut : t ≠ u)
    (ht : tick o s.toShared (s.threads u).pid (s.threads u).calls (s.threads u).pc =
      some (ins, pc')) :
    (s.after u ins pc').region.waiting = s.region.waiting := by
  have hung : ins.guarded = false := by
    by_contra hg
    rw [Bool.not_eq_false] at hg
    exact hut (Sys.LockInv.unique hi.table.lock hl ha (tick_locked ht hg) hua)
  have hnodes := (Instr.unguarded_links s.toShared (s.threads u).pid u hung).1
  refine Region.waiting_congr fun n => ?_
  show ((ins.apply u (s.threads u).pid s.toShared).region.nodes n).registered = _
  rw [hnodes]

/-- **One step of the system** and the work of a live thread. -/
theorem ProgressInv.step_work (hi : ProgressInv s) (hs : s.step a = some (s', l))
    (ha : s.dead (s.threads t).pid = false) (hb : l.begins t = false)
    (hpos : 0 < (s.threads t).pc.work s.region) :
    (s'.threads t).pc.work s'.region + (if l.isStep t then 1 else 0) ≤
      (s.threads t).pc.work s.region + if l.disturbs t then 2 else 0 := by
  cases Sys.step_inv hs with
  | @call u c =>
    have hut : ¬ t = u := fun e => by
      rw [e] at hb
      simp [Label.begins] at hb
    rw [Sys.entered_pc, if_neg hut]
    exact le_refl _
  | @tick u o ins pc' hua ht =>
    rw [Sys.after_pc]
    by_cases hut : t = u
    · subst hut
      have hwork := tick_work (t := t) ht (hi.steady ha) hpos
      simp only [Label.isStep, Label.disturbs, decide_true, if_true, ne_eq, not_true, decide_false,
        Bool.false_and, Bool.false_eq_true, if_false]
      exact hwork
    · rw [if_neg hut]
      have hne : ¬ u = t := fun e => hut e.symm
      have hstep : (Label.instr u (s.threads u).pid ins).isStep t = false := decide_eq_false hne
      have hdist : (Label.instr u (s.threads u).pid ins).disturbs t = ins.storesWord := by
        simp [Label.disturbs, hne]
      rw [hstep, hdist]
      refine (s.threads t).pc.work_le (fun hl => hi.nodes.waiting_others ha hl hua hut ht) ?_
      -- a stored word may send a compare-and-swap loop round once more
      cases hw : ins.storesWord with
      | true => exact .inr (le_refl 2)
      | false => exact .inl fun i => Instr.word_kept u _ _ hw i
  | die => exact le_refl _

/-- Only a thread that takes the lock comes to hold it. -/
theorem ProgressInv.held_before (hs : s.step a = some (s', l)) (hl : s'.lock = some t)
    (hne : l.locks t = false) : s.lock = some t := by
  cases Sys.step_inv hs with
  | call => exact hl
  | @tick u o ins pc' _ ht =>
    rw [Sys.after_lock] at hl
    cases ins with
    | lock =>
      cases hl
      simp [Label.locks] at hne
    | unlock => cases hl
    | _ => exact hl
  | @die pid =>
    -- a death only releases
    have hdied : (s.died pid).lock = some t := hl
    unfold Sys.died at hdied
    cases hlk : s.lock with
    | none =>
      simp only [hlk] at hdied
      cases hdied
    | some u =>
      simp only [hlk] at hdied
      split at hdied
      · cases hdied
      · exact hdied

/-- **Critical sections end.** In every state that any number of processes reach by any calls, with
    nobody dying inside a critical section, the lock holder can make its next step, and it has made
    a bounded number of steps since it took the lock: two more for each word that others stored
    meanwhile. -/
theorem critical_sections_end {pid : T → U32} (hpid : ∀ t, pid t ≠ 0)
    (hr : Run Sys.step (fun s l _ => DiesOutside s l) (Sys.rest Region.init pid) h s)
    (hl : s.lock = some t) :
    (∀ o, (s.step (.tick t o)).isSome = true) ∧
      (since (Label.locks t) h).countP (Label.isStep t) <
        sectionWork + 2 * (since (Label.locks t) h).countP (Label.disturbs t) := by
  have hi := ProgressInv.of_run hpid (hr.mono fun _ _ _ hd => hd.clean)
  refine ⟨hi.holder hl, ?_⟩
  -- the holder is alive, and has work left
  have hpos : ∀ s : Sys T, ProgressInv s → s.lock = some t → s.dead (s.threads t).pid = false ∧
      0 < (s.threads t).pc.work s.region := by
    intro s hi hl
    obtain ⟨hlk, ha⟩ := (hi.nodes.table.lock t).mp hl
    exact ⟨ha, Pc.work_pos (hi.steady ha) (.inl hlk)⟩
  have hbound := Run.amortized (fun s : Sys T => s.lock = some t) (Label.locks t) (Label.isStep t)
    (Label.disturbs t) (fun s => (s.threads t).pc.work s.region) sectionWork 2 (fun hn => by cases hn)
    (fun h s a s' l hr hs _ _ hst => ?_) (fun h s a s' l hr hs _ hact hne => ?_) hr hl
  · have := (hpos s hi hl).2
    omega
  · -- it takes the lock
    have hi := ProgressInv.of_run hpid (hr.mono fun _ _ _ hd => hd.clean)
    cases Sys.step_inv hs with
    | call | die => cases hst
    | @tick u o ins pc' ha ht =>
      cases ins with
      | lock =>
        have hut : u = t := of_decide_eq_true hst
        subst hut
        obtain ⟨_, hl, hl'⟩ := tick_lockStep ht
        have hwork := (tick_inv ht).lock_work hl hl' (hi.tame u) (hi.nodes.shape u)
          hi.cursor.scan_left
        rw [Sys.after_pc, if_pos rfl]
        exact hwork
      | _ => cases hst
  · -- it holds the lock already
    have hi := ProgressInv.of_run hpid (hr.mono fun _ _ _ hd => hd.clean)
    have hlock := ProgressInv.held_before hs hact hne
    obtain ⟨ha, hw⟩ := hpos s hi hlock
    refine ⟨hlock, hi.step_work hs ha ?_ hw⟩
    cases Sys.step_inv hs with
    | @call u c _ hout =>
      -- the holder is in a call, so it makes none
      refine decide_eq_false fun hut => ?_
      have hlk := ((hi.nodes.table.lock t).mp hlock).1
      rw [← hut, Pc.locked_of_outside hout] at hlk
      cases hlk
    | _ => rfl

/-- Process 7 creates a semaphore of count 0 and waits for it; while it holds the lock in its first
    locked pass, process 8 releases the semaphore and wants the lock to wake the waiters. -/
def releaseInPass : List (Action (Fin 2)) :=
  .call 0 (.create (.sem 0 5)) :: List.replicate 18 (.tick 0 {}) ++
  .call 0 (.wait ⟨[1], 5, false, 0⟩ .never) :: List.replicate 9 (.tick 0 {}) ++
  .call 1 (.op 1 (.semRelease 1)) :: List.replicate 6 (.tick 1 {}) ++ [.tick 0 {}]

/-- A release in the middle of a locked pass disturbs it once. -/
theorem critical_sections_end_releaseInPass :
    ∃ h s, Run Sys.step (fun s l _ => DiesOutside s l) (Sys.rest Region.init twoWaitersPid) h s ∧
      s.lock = some 0 ∧ (since (Label.locks 0) h).countP (Label.disturbs 0) = 1 ∧
      (∀ o, (s.step (.tick 0 o)).isSome = true) ∧
      (since (Label.locks 0) h).countP (Label.isStep 0) < sectionWork + 2 := by
  obtain ⟨h, s, hr, hl, hd⟩ := exists_history_of_exec Sys.step
    (fun s l _ => DiesOutside s l) (Sys.rest Region.init twoWaitersPid)
    (P := fun h s => s.lock = some 0 ∧ (since (Label.locks 0) h).countP (Label.disturbs 0) = 1)
    releaseInPass (by decide +kernel)
  obtain ⟨hnext, hlt⟩ := critical_sections_end (by decide) hr hl
  rw [hd] at hlt
  exact ⟨h, s, hr, hl, hd, hnext, hlt⟩

/-- A live thread that is in a call was in it before the step, unless it has just entered it. -/
theorem call_before {c : Call} (hs : s.step a = some (s', l)) (hne : l.begins t = false)
    (ha : s'.dead (s'.threads t).pid = false) (hc : (s'.threads t).pc.call? = some c) :
    s.dead (s.threads t).pid = false ∧ (s.threads t).pc.call? = some c := by
  cases Sys.step_inv hs with
  | @call u cl _ hout =>
    have hut : ¬ t = u := fun e => by
      rw [e] at hne
      simp [Label.begins] at hne
    rw [Sys.entered_pc, if_neg hut] at hc
    rw [Sys.entered_pid] at ha
    exact ⟨ha, hc⟩
  | @tick u o ins pc' _ ht =>
    rw [Sys.after_pid, Sys.after_dead] at ha
    rw [Sys.after_pc] at hc
    refine ⟨ha, ?_⟩
    split at hc
    · rename_i hut
      rw [hut]
      rcases (tick_inv ht).call with hn | hsame
      · rw [hn] at hc
        cases hc
      · rw [← hsame]
        exact hc
    · exact hc
  | die =>
    rw [Sys.died_dead, Bool.or_eq_false_iff] at ha
    exact ⟨ha.2, hc⟩

/-- **Calls return.** A call that does not block (anything but a wait, and a wait with a zero
    timeout) takes a bounded number of steps, whatever state it is called in: two more for each word
    that others stored since it began. -/
theorem calls_return {pid : T → U32} (hpid : ∀ t, pid t ≠ 0)
    (hr : Run Sys.step (fun s l _ => DiesOutside s l) (Sys.rest Region.init pid) h s) {c : Call}
    (ha : s.dead (s.threads t).pid = false) (hc : (s.threads t).pc.call? = some c)
    (hb : c.blocks = false) :
    (since (Label.begins t) h).countP (Label.isStep t) <
      c.work + 2 * (since (Label.begins t) h).countP (Label.disturbs t) := by
  have hpos : ∀ s : Sys T, ProgressInv s → s.dead (s.threads t).pid = false →
      (s.threads t).pc.call? = some c → 0 < (s.threads t).pc.work s.region := fun s hi ha hc =>
    Pc.work_pos (hi.steady ha) (.inr ⟨c, hc, hb⟩)
  have hbound := Run.amortized
    (fun s : Sys T => s.dead (s.threads t).pid = false ∧ (s.threads t).pc.call? = some c)
    (Label.begins t) (Label.isStep t) (Label.disturbs t)
    (fun s => (s.threads t).pc.work s.region) c.work 2 (fun hn => by cases hn.2)
    (fun h s a s' l hr hs _ hact hst => ?_) (fun h s a s' l hr hs _ hact hne => ?_) hr ⟨ha, hc⟩
  · have := hpos s (ProgressInv.of_run hpid (hr.mono fun _ _ _ hd => hd.clean)) ha hc
    omega
  · -- it begins
    cases Sys.step_inv hs with
    | @call u cl _ hout =>
      have hut : u = t := of_decide_eq_true hst
      subst hut
      have hcall := hact.2
      rw [Sys.entered_pc, if_pos rfl] at hcall ⊢
      exact Pc.start_work hcall hb
    | _ => cases hst
  · -- it goes on
    have hi := ProgressInv.of_run hpid (hr.mono fun _ _ _ hd => hd.clean)
    have hbefore := call_before hs hne hact.1 hact.2
    exact ⟨hbefore, hi.step_work hs hbefore.1 hne (hpos s hi hbefore.1 hbefore.2)⟩

/-- The thread is inside the operation `op` on the handle `hd`. -/
def Pc.inOp (hd : U32) (op : Op) : Pc → Bool
  | .op h o _ => decide (h = hd ∧ o = op)
  | _ => false

/-- A thread inside an operation is in the operation's call. -/
theorem Pc.call_of_inOp {pc : Pc} {hd : U32} {op : Op} (h : pc.inOp hd op = true) :
    pc.call? = some (.op hd op) := by
  cases pc with
  | op h' o p =>
    obtain ⟨rfl, rfl⟩ := of_decide_eq_true h
    rfl
  | _ => cases h

/-- Process 8 is inside its release, which it has begun six steps ago. -/
theorem calls_return_releaseInPass :
    ∃ h s, Run Sys.step (fun s l _ => DiesOutside s l) (Sys.rest Region.init twoWaitersPid) h s ∧
      (since (Label.begins 1) h).countP (Label.isStep 1) = 6 ∧
      (since (Label.begins 1) h).countP (Label.isStep 1) < (2 * nodeCount + 11) +
        2 * (since (Label.begins 1) h).countP (Label.disturbs 1) := by
  obtain ⟨h, s, hr, ha, hc, hn⟩ := exists_history_of_exec Sys.step
    (fun s l _ => DiesOutside s l) (Sys.rest Region.init twoWaitersPid)
    (P := fun h s => s.dead (s.threads 1).pid = false ∧
      (s.threads 1).pc.inOp 1 (.semRelease 1) = true ∧
      (since (Label.begins 1) h).countP (Label.isStep 1) = 6)
    releaseInPass (by decide +kernel)
  exact ⟨h, s, hr, hn, calls_return (by decide) hr ha (Pc.call_of_inOp hc) rfl⟩

/-- **No deadlock.** A live thread in a call can make its next step, or it wants the lock of a live
    thread that can make its own. -/
theorem no_deadlock {pid : T → U32} (hpid : ∀ t, pid t ≠ 0)
    (hr : Run Sys.step (fun s l _ => DiesOutside s l) (Sys.rest Region.init pid) h s) (t : T)
    (ha : s.dead (s.threads t).pid = false) (hin : (s.threads t).pc.outside = false)
    (hnp : (s.threads t).pc ≠ .panicked) :
    (∀ o, (s.step (.tick t o)).isSome = true) ∨
      (s.threads t).pc.wantsLock = true ∧ ∃ u, s.lock = some u ∧ u ≠ t ∧
        s.dead (s.threads u).pid = false ∧ ∀ o, (s.step (.tick u o)).isSome = true := by
  have hi := ProgressInv.of_run hpid (hr.mono fun _ _ _ hd => hd.clean)
  by_cases hw : (s.threads t).pc.wantsLock = true
  · cases hl : s.lock with
    | none => exact .inl (hi.next ha hin hnp fun _ => hl)
    | some u =>
      -- a robust lock belongs to somebody alive
      obtain ⟨hlk, hua⟩ := (hi.nodes.table.lock u).mp hl
      refine .inr ⟨hw, u, rfl, ?_, hua, hi.holder hl⟩
      rintro rfl
      rw [Pc.locked_not_wants hlk] at hw
      cases hw
  · exact .inl (hi.next ha hin hnp fun h => absurd h hw)

/-- Thread 1 waits for the lock, and thread 0, which holds it, can step. -/
theorem no_deadlock_releaseInPass :
    ∃ h s, Run Sys.step (fun s l _ => DiesOutside s l) (Sys.rest Region.init twoWaitersPid) h s ∧
      (s.step (.tick 1 {})).isSome = false ∧
      ∃ u, s.lock = some u ∧ u ≠ 1 ∧ s.dead (s.threads u).pid = false ∧
        ∀ o, (s.step (.tick u o)).isSome = true := by
  obtain ⟨h, s, hr, ha, hin, hw, hno⟩ := exists_run_of_exec Sys.step
    (fun s l _ => DiesOutside s l) (Sys.rest Region.init twoWaitersPid)
    (P := fun s => s.dead (s.threads 1).pid = false ∧ (s.threads 1).pc.outside = false ∧
      (s.threads 1).pc.wantsLock = true ∧ (s.step (.tick 1 {})).isSome = false)
    releaseInPass (by decide +kernel)
  refine ⟨h, s, hr, hno, ?_⟩
  rcases no_deadlock (by decide) hr 1 ha hin (fun hp => by rw [hp] at hw; cases hw) with hall | ⟨_, hu⟩
  · rw [hall {}] at hno
    cases hno
  · exact hu

end Runs

end Ntsync
