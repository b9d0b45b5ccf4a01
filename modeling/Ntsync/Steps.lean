import Mathlib
import Ntsync.Satisfy

namespace Ntsync

open Words

/-!
# The transitions of a wait

`WaitGo` lists every transition of a wait with its guard, and `waitTick_inv` says that the list is
complete.  The invariants of the later modules take the step function of a wait apart only through
this list.  Where only the phase matters (the reads of the pre-sleep spin) the list is coarser than
the step function.
-/

variable {T : Type}

/-- The spin round is not inside `try_satisfy`. -/
def SpinPc.plain : SpinPc → Bool
  | .sat _ => false
  | _ => true

section Transitions

variable (o : Oracle) (sh : Shared T) (pid : U32) (c : WaitCtx)

/-- The transitions of the fast path. -/
inductive FastGo : FastPc → Instr → Pc → Prop
  | lookState {i : Nat} : (sh.region.slots (c.slotOf i)).state = .used →
      FastGo (.look i .state) .silent (.wait c (.fast (.look i .gen)))
  | lookGen {i : Nat} : (sh.region.slots (c.slotOf i)).generation = handleGen (c.handle i) →
      FastGo (.look i .gen) .silent (.wait c (.fast (.look i .typ)))
  | lookEvent {i : Nat} : (sh.region.slots (c.slotOf i)).objType = .event →
      FastGo (.look i .typ) .silent (.wait c (.fast (.seq i)))
  | lookOther {i : Nat} : (sh.region.slots (c.slotOf i)).objType = .sem ∨
        (sh.region.slots (c.slotOf i)).objType = .mutex →
      FastGo (.look i .typ) .silent (.wait (c.setSeq i 0) (c.fastNext i))
  | lookBad {i : Nat} {l : Look} : FastGo (.look i l) .silent (.wait c (.pass .lock))
  | seq {i : Nat} : FastGo (.seq i) .silent
      (.wait (c.setSeq i (sh.region.slots (c.slotOf i)).d) (c.fastNext i))
  | alertState : (sh.region.slots (handleIndex c.alert)).state = .used →
      FastGo (.alert .state) .silent (.wait c (.fast (.alert .gen)))
  | alertGen : (sh.region.slots (handleIndex c.alert)).generation = handleGen c.alert →
      FastGo (.alert .gen) .silent (.wait c (.fast (.alert .typ)))
  | alertTyp : (sh.region.slots (handleIndex c.alert)).objType = .event →
      FastGo (.alert .typ) .silent (.wait c (.fast .unwrapState))
  | alertBad {l : Look} : FastGo (.alert l) .silent (.wait c (.pass .lock))
  | unwrapState : (sh.region.slots (handleIndex c.alert)).state = .used →
      FastGo .unwrapState .silent (.wait c (.fast .unwrapGen))
  | unwrapStateBad : (sh.region.slots (handleIndex c.alert)).state ≠ .used →
      FastGo .unwrapState .silent .panicked
  | unwrapGen : (sh.region.slots (handleIndex c.alert)).generation = handleGen c.alert →
      FastGo .unwrapGen .silent (.wait c (.fast .word))
  | unwrapGenBad : (sh.region.slots (handleIndex c.alert)).generation ≠ handleGen c.alert →
      FastGo .unwrapGen .silent .panicked
  | alerted : lo32 (sh.region.slots (handleIndex c.alert)).w0 ≠ 0 →
      FastGo .word .silent (c.ret c.alerted)
  | start : lo32 (sh.region.slots (handleIndex c.alert)).w0 = 0 →
      FastGo .word .silent (.wait c (.fast (.sat (.start c.all))))
  | sat {p p' : Sat} {w : Option SatWrite} :
      SatStep sh.region c.toWaitArgs c.seqs p w (.more p') →
      FastGo (.sat p) (satInstr c.toWaitArgs w) (.wait c (.fast (.sat p')))
  | win {p : Sat} {w : Option SatWrite} {k : Nat} {od : Bool} :
      SatStep sh.region c.toWaitArgs c.seqs p w (.done (some (k, od))) →
      FastGo (.sat p) (satInstr c.toWaitArgs w) (c.ret (.signaled k od))
  | failZero {p : Sat} {w : Option SatWrite} :
      SatStep sh.region c.toWaitArgs c.seqs p w (.done none) → c.timeout = .zero →
      FastGo (.sat p) (satInstr c.toWaitArgs w) (c.ret .timeout)
  | fail {p : Sat} {w : Option SatWrite} :
      SatStep sh.region c.toWaitArgs c.seqs p w (.done none) → c.timeout ≠ .zero →
      FastGo (.sat p) (satInstr c.toWaitArgs w) (.wait c (.pass .lock))

/-- Where the locked pass goes after registering node `i`. -/
def WaitCtx.registerNext (c : WaitCtx) (i : Nat) : PassPc :=
  if i + 1 < c.nNodes then .register (i + 1) else .sat (.start c.all)

/-- The wait with one more node. -/
def WaitCtx.addNode (c : WaitCtx) (n : Nat) : WaitCtx := { c with nodes := c.nodes ++ [n] }

/-- Where the locked pass goes after a node was allocated. -/
def WaitCtx.allocNext (c : WaitCtx) : PassPc :=
  if c.nodes.length < c.nNodes then .alloc else .register 0

/-- The transitions of the locked pass. -/
inductive PassGo : PassPc → Instr → Pc → Prop
  | lock : sh.lock = none → PassGo .lock .lock (.wait c (.pass (.validate 0)))
  | validateFirst {i j : Nat} : sh.region.slot (c.handle i) = some j →
      (sh.region.slots j).objType = .event → c.nodes = [] →
      PassGo (.validate i) .silent (.wait (c.setSeq i (sh.region.slots j).d) (c.validateNext i))
  | validate {i j : Nat} : sh.region.slot (c.handle i) = some j →
      (sh.region.slots j).objType = .sem ∨ (sh.region.slots j).objType = .mutex ∨
        (sh.region.slots j).objType = .event ∧ c.nodes ≠ [] →
      PassGo (.validate i) .silent (.wait c (c.validateNext i))
  | validateBad {i : Nat} :
      PassGo (.validate i) .silent (.wait c (.clean .invalid (.detach c.nodes)))
  | validateAlert {j : Nat} : sh.region.slot c.alert = some j →
      (sh.region.slots j).objType = .event →
      PassGo .validateAlert .silent (.wait c (.pass .alertTest))
  | validateAlertBad :
      PassGo .validateAlert .silent (.wait c (.clean .invalid (.detach c.nodes)))
  | alertPanic : sh.region.slot c.alert = none → PassGo .alertTest .unlock .panicked
  | alertSet {j : Nat} : sh.region.slot c.alert = some j → lo32 (sh.region.slots j).w0 ≠ 0 →
      PassGo .alertTest .silent (.wait c (.clean c.alerted (.detach c.nodes)))
  | alertClear {j : Nat} : sh.region.slot c.alert = some j → lo32 (sh.region.slots j).w0 = 0 →
      PassGo .alertTest .silent (.wait c c.afterAlert)
  | allocFail : sh.region.nodeAlloc pid = none →
      PassGo .alloc .silent (.wait c (.clean .invalid (.detach c.nodes)))
  | alloc {n : Nat} {r : Region} : sh.region.nodeAlloc pid = some (n, r) →
      PassGo .alloc .allocNode (.wait (c.addNode n) (.pass (c.addNode n).allocNext))
  | registerSkip {i : Nat} : (sh.region.nodes (c.node i)).registered = true →
      PassGo (.register i) .silent (.wait c (.pass (c.registerNext i)))
  | register {i : Nat} : (sh.region.nodes (c.node i)).registered = false →
      PassGo (.register i) (.register (c.node i) (c.target i) (c.node 0))
        (.wait c (.pass (c.registerNext i)))
  | sat {p p' : Sat} {w : Option SatWrite} :
      SatStep sh.region c.toWaitArgs c.seqs p w (.more p') →
      PassGo (.sat p) (satInstr c.toWaitArgs w) (.wait c (.pass (.sat p')))
  | win {p : Sat} {w : Option SatWrite} {k : Nat} {od : Bool} :
      SatStep sh.region c.toWaitArgs c.seqs p w (.done (some (k, od))) →
      PassGo (.sat p) (satInstr c.toWaitArgs w)
        (.wait c (.clean (.signaled k od) (.detach c.nodes)))
  | fail {p : Sat} {w : Option SatWrite} :
      SatStep sh.region c.toWaitArgs c.seqs p w (.done none) →
      PassGo (.sat p) (satInstr c.toWaitArgs w) (.wait c (.pass .sample))
  | expired : c.timeout = .zero ∨ (c.timeout = .after ∧ o.expired) →
      PassGo .sample .silent (.wait c (.clean .timeout (.detach c.nodes)))
  | sample : PassGo .sample .silent (.wait c (.pass (.unlock (sh.region.nodes (c.node 0)).seq)))
  | unlock {seq : U32} : PassGo (.unlock seq) .unlock (.wait c (.spinStart seq))

/-- The transitions of the pre-sleep spin. -/
inductive SpinGo (left : Nat) (seq : U32) : SpinPc → Instr → Pc → Prop
  | move {p p' : SpinPc} : p.plain = true → (p'.plain = true ∨ p' = .sat (.start c.all)) →
      SpinGo left seq p .silent (.wait c (.spin left seq p'))
  | alertStateBad : (sh.region.slots (handleIndex c.alert)).state ≠ .used →
      SpinGo left seq .alertState .silent .panicked
  | alertGenBad : (sh.region.slots (handleIndex c.alert)).generation ≠ handleGen c.alert →
      SpinGo left seq .alertGen .silent .panicked
  | alerted : lo32 (sh.region.slots (handleIndex c.alert)).w0 ≠ 0 →
      SpinGo left seq .word .silent (.wait c (.clean c.alerted .lock))
  | sat {p p' : Sat} {w : Option SatWrite} :
      SatStep sh.region c.toWaitArgs c.seqs p w (.more p') →
      SpinGo left seq (.sat p) (satInstr c.toWaitArgs w) (.wait c (.spin left seq (.sat p')))
  | win {p : Sat} {w : Option SatWrite} {k : Nat} {od : Bool} :
      SatStep sh.region c.toWaitArgs c.seqs p w (.done (some (k, od))) →
      SpinGo left seq (.sat p) (satInstr c.toWaitArgs w)
        (.wait c (.clean (.signaled k od) .lock))
  | fail {p : Sat} {w : Option SatWrite} :
      SatStep sh.region c.toWaitArgs c.seqs p w (.done none) →
      SpinGo left seq (.sat p) (satInstr c.toWaitArgs w) (.wait c (.spin left seq .registered))
  | woken : (sh.region.nodes (c.node 0)).registered = false →
      SpinGo left seq .registered .silent (.wait c (.sweep seq false .gate))
  | exhausted : SpinGo left seq .registered .silent (.wait c (.sweep seq false .gate))
  | round : SpinGo left seq .registered .silent (.wait c (.spin (left - 1) seq c.spinFirst))

/-- The transitions of `auto_sweep_dead` inside a wait. -/
inductive AutoGo (seq : U32) (timedOut : Bool) : AutoPc → Instr → Pc → Prop
  | skip : AutoGo seq timedOut .gate .countCall (.wait c (autoTick.finish seq timedOut))
  | gate : AutoGo seq timedOut .gate .countCall (.wait c (.sweep seq timedOut .lock))
  | lock : sh.lock = none →
      AutoGo seq timedOut .lock .lock (.wait c (.sweep seq timedOut .recheck))
  | tooSoon : AutoGo seq timedOut .recheck .silent (.wait c (.sweep seq timedOut .unlock))
  | claim : AutoGo seq timedOut .recheck (.claim o.now)
      (.wait c (.sweep seq timedOut (.run (.chunk (.new sh.region)))))
  | run {p p' : SweepPc} {ins : Instr} : p.step true sh = some (ins, .more p') →
      AutoGo seq timedOut (.run p) ins (.wait c (.sweep seq timedOut (.run p')))
  | swept {p : SweepPc} {ins : Instr} {n : Nat} : p.step true sh = some (ins, .done n) →
      AutoGo seq timedOut (.run p) ins (.wait c (.sweep seq timedOut .unlock))
  | unlock : AutoGo seq timedOut .unlock .unlock (.wait c (autoTick.finish seq timedOut))

/-- The transitions of the sleep. -/
inductive SleepGo (seq : U32) : SleepPc → Instr → Pc → Prop
  | tail : SleepGo seq .choose .silent (.wait c (.sleep seq .tail))
  | park : SleepGo seq .choose .silent (.wait c (.sleep seq .park))
  | parked : (sh.region.nodes (c.node 0)).seq = seq →
      SleepGo seq .park .silent (.wait c (.sleep seq .parked))
  | again : (sh.region.nodes (c.node 0)).seq ≠ seq →
      SleepGo seq .park .silent (.wait c (afterFutex seq (futexRet eagain)))
  | woken : SleepGo seq .parked .silent (.wait c (afterFutex seq (futexRet o.errno)))
  | tailDone : SleepGo seq .tail .silent (.wait c (.pass .lock))
  | tailMore : SleepGo seq .tail .silent (.wait c (.sleep seq .tail))

/-- The transitions after the sleep. -/
inductive DetachGo : DetachPc → Instr → Pc → Prop
  | found {k : Nat} : (sh.region.nodes (c.node k)).registered = true →
      DetachGo (.peek k) .silent (.wait c (.detach .lock))
  | next {k : Nat} : (sh.region.nodes (c.node k)).registered = false →
      k + 1 < c.nodes.length → DetachGo (.peek k) .silent (.wait c (.detach (.peek (k + 1))))
  | none {k : Nat} : (sh.region.nodes (c.node k)).registered = false →
      ¬ k + 1 < c.nodes.length → DetachGo (.peek k) .silent (.wait c (.pass .lock))
  | lock : sh.lock = Option.none → DetachGo .lock .lock (.wait c (.detach (.detach 0)))
  | detach {k : Nat} : k + 1 < c.nodes.length → DetachGo (.detach k) (detachInstr sh (c.node k))
      (.wait c (.detach (.detach (k + 1))))
  | last {k : Nat} : ¬ k + 1 < c.nodes.length →
      DetachGo (.detach k) (detachInstr sh (c.node k)) (.wait c (.detach .unlock))
  | unlock : DetachGo .unlock .unlock (.wait c (.pass .lock))

/-- The transitions of the cleanup. -/
inductive CleanGo (r : WaitOutcome) : CleanPc → Instr → Pc → Prop
  | lock : sh.lock = none → CleanGo r .lock .lock (.wait c (.clean r (.detach c.nodes)))
  | detached : CleanGo r (.detach []) .silent (.wait c (.clean r (.free c.nodes)))
  | detach {n : Nat} {todo : List Nat} :
      CleanGo r (.detach (n :: todo)) (detachInstr sh n) (.wait c (.clean r (.detach todo)))
  | freed : CleanGo r (.free []) .silent (.wait c (.clean r .unlock))
  | free {n : Nat} {todo : List Nat} :
      CleanGo r (.free (n :: todo)) (.freeNode n) (.wait c (.clean r (.free todo)))
  | unlock : CleanGo r .unlock .unlock (c.ret r)

/-- The transitions of a wait. -/
inductive WaitGo : WaitPc → Instr → Pc → Prop
  | fast {p : FastPc} {ins : Instr} {pc' : Pc} : FastGo sh c p ins pc' →
      WaitGo (.fast p) ins pc'
  | pass {p : PassPc} {ins : Instr} {pc' : Pc} : PassGo o sh pid c p ins pc' →
      WaitGo (.pass p) ins pc'
  | noSpin {seq : U32} : WaitGo (.spinStart seq) .silent (.wait c (.sweep seq false .gate))
  | spinStart {seq : U32} :
      WaitGo (.spinStart seq) .silent (.wait c (.spin o.spin seq c.spinFirst))
  | spin {left : Nat} {seq : U32} {p : SpinPc} {ins : Instr} {pc' : Pc} :
      SpinGo sh c left seq p ins pc' → WaitGo (.spin left seq p) ins pc'
  | sweep {seq : U32} {timedOut : Bool} {p : AutoPc} {ins : Instr} {pc' : Pc} :
      AutoGo o sh c seq timedOut p ins pc' → WaitGo (.sweep seq timedOut p) ins pc'
  | sleep {seq : U32} {p : SleepPc} {ins : Instr} {pc' : Pc} :
      SleepGo o sh c seq p ins pc' → WaitGo (.sleep seq p) ins pc'
  | detach {p : DetachPc} {ins : Instr} {pc' : Pc} : DetachGo sh c p ins pc' →
      WaitGo (.detach p) ins pc'
  | clean {r : WaitOutcome} {p : CleanPc} {ins : Instr} {pc' : Pc} : CleanGo sh c r p ins pc' →
      WaitGo (.clean r p) ins pc'

end Transitions

section Inversion

variable {o : Oracle} {sh : Shared T} {pid : U32} {calls : U64} {c : WaitCtx} {ins : Instr}
  {pc' : Pc}

/-- Taking the lock needs it free. -/
theorem takeLock_inv {pc : Pc} (h : takeLock sh pc = some (ins, pc')) :
    sh.lock = none ∧ ins = .lock ∧ pc' = pc := by
  unfold takeLock at h
  split at h <;> cases h
  exact ⟨by assumption, rfl, rfl⟩

/-- What a step of the fast path is. -/
theorem fastTick_inv {p : FastPc} (ht : fastTick sh c p = some (ins, pc')) :
    FastGo sh c p ins pc' := by
  cases p with
  -- each of the loads of `Region::slot` and the load of the type may turn the wait away
  | look i l =>
    cases l with
    | state =>
      simp only [fastTick, WaitCtx.goto] at ht
      split at ht <;> cases ht
      · exact .lookState (by assumption)
      · exact .lookBad
    | gen =>
      simp only [fastTick, WaitCtx.goto] at ht
      split at ht <;> cases ht
      · exact .lookGen (by assumption)
      · exact .lookBad
    | typ =>
      simp only [fastTick, WaitCtx.goto] at ht
      split at ht <;> cases ht
      · exact .lookEvent (by assumption)
      · exact .lookOther (.inl (by assumption))
      · exact .lookOther (.inr (by assumption))
      · exact .lookBad
  | seq i =>
    cases ht
    exact .seq
  | alert l =>
    cases l with
    | state =>
      simp only [fastTick, WaitCtx.goto] at ht
      split at ht <;> cases ht
      · exact .alertState (by assumption)
      · exact .alertBad
    | gen =>
      simp only [fastTick, WaitCtx.goto] at ht
      split at ht <;> cases ht
      · exact .alertGen (by assumption)
      · exact .alertBad
    | typ =>
      simp only [fastTick, WaitCtx.goto] at ht
      split at ht <;> cases ht
      · exact .alertTyp (by assumption)
      · exact .alertBad
  -- the second look-up of the alert is the one under `unwrap`
  | unwrapState =>
    simp only [fastTick, WaitCtx.goto] at ht
    split at ht <;> cases ht
    · exact .unwrapState (by assumption)
    · exact .unwrapStateBad (by assumption)
  | unwrapGen =>
    simp only [fastTick, WaitCtx.goto] at ht
    split at ht <;> cases ht
    · exact .unwrapGen (by assumption)
    · exact .unwrapGenBad (by assumption)
  | word =>
    simp only [fastTick, WaitCtx.goto] at ht
    split at ht <;> cases ht
    · exact .alerted (by assumption)
    · rename_i hw
      exact .start (not_not.mp hw)
  | sat p =>
    simp only [fastTick] at ht
    split at ht <;> rename_i hs <;> cases ht
    · exact .sat (Sat.step_inv hs)
    · exact .win (Sat.step_inv hs)
    -- a failed attempt returns at once on a zero timeout
    · split
      · exact .failZero (Sat.step_inv hs) (by assumption)
      · exact .fail (Sat.step_inv hs) (by assumption)

/-- What a step of the locked pass is. -/
theorem passTick_inv {p : PassPc} (ht : passTick o sh pid c p = some (ins, pc')) :
    PassGo o sh pid c p ins pc' := by
  cases p with
  | lock =>
    obtain ⟨hl, rfl, rfl⟩ := takeLock_inv ht
    exact .lock hl
  | validate i =>
    simp only [passTick, WaitCtx.goto] at ht
    split at ht
    · cases ht
      exact .validateBad
    · rename_i hj
      -- the snapshot of an event's counter is taken on the first pass only
      split at ht <;> rename_i hty
      · split at ht <;> rename_i hn <;> cases ht
        · exact .validateFirst hj hty hn
        · exact .validate hj (.inr (.inr ⟨hty, hn⟩))
      · cases ht
        exact .validate hj (.inl hty)
      · cases ht
        exact .validate hj (.inr (.inl hty))
      · cases ht
        exact .validateBad
  | validateAlert =>
    simp only [passTick, WaitCtx.goto] at ht
    split at ht
    · cases ht
      exact .validateAlertBad
    · rename_i hj
      split at ht <;> cases ht
      · exact .validateAlert hj (by assumption)
      · exact .validateAlertBad
  | alertTest =>
    -- the alert is looked up once more, and here a failure is a panic
    simp only [passTick, WaitCtx.goto] at ht
    split at ht
    · cases ht
      exact .alertPanic (by assumption)
    · rename_i hj
      split at ht <;> rename_i hw <;> cases ht
      · exact .alertSet hj hw
      · exact .alertClear hj (not_not.mp hw)
  | alloc =>
    simp only [passTick, WaitCtx.goto] at ht
    split at ht <;> rename_i hn <;> cases ht
    · exact .allocFail hn
    · exact .alloc hn
  | register i =>
    simp only [passTick] at ht
    split at ht <;> rename_i hreg <;> cases ht
    · exact .registerSkip hreg
    · exact .register (by simpa using hreg)
  | sat p =>
    simp only [passTick] at ht
    split at ht <;> rename_i hs <;> cases ht
    · exact .sat (Sat.step_inv hs)
    · exact .win (Sat.step_inv hs)
    · exact .fail (Sat.step_inv hs)
  | sample =>
    simp only [passTick, WaitCtx.goto] at ht
    split at ht <;> cases ht
    · exact .expired (by assumption)
    · exact .sample
  | unlock seq =>
    cases ht
    exact .unlock

/-- What a step of the spin loop is. -/
theorem spinTick_inv {left : Nat} {seq : U32} {p : SpinPc}
    (ht : spinTick sh c left seq p = some (ins, pc')) : SpinGo sh c left seq p ins pc' := by
  cases p with
  | alertState =>
    simp only [spinTick, WaitCtx.goto] at ht
    split at ht <;> cases ht
    · exact .move rfl (.inl rfl)
    · exact .alertStateBad (by assumption)
  | alertGen =>
    simp only [spinTick, WaitCtx.goto] at ht
    split at ht <;> cases ht
    · exact .move rfl (.inl rfl)
    · exact .alertGenBad (by assumption)
  | word =>
    simp only [spinTick, WaitCtx.goto] at ht
    split at ht <;> cases ht
    · exact .alerted (by assumption)
    · exact .move rfl (.inl rfl)
  | peek all i atD =>
    simp only [spinTick, WaitCtx.goto] at ht
    repeat' split at ht
    all_goals
      cases ht
      first | exact .move rfl (.inl rfl) | exact .move rfl (.inr rfl)
  | sat p =>
    simp only [spinTick] at ht
    split at ht <;> rename_i hs <;> cases ht
    · exact .sat (Sat.step_inv hs)
    · exact .win (Sat.step_inv hs)
    · exact .fail (Sat.step_inv hs)
  | registered =>
    simp only [spinTick, WaitCtx.goto, spinNext] at ht
    split at ht
    · cases ht
      exact .woken (by assumption)
    · split at ht <;> cases ht
      · exact .exhausted
      · exact .round

/-- What a step of an automatic sweep is. -/
theorem autoTick_inv {seq : U32} {timedOut : Bool} {p : AutoPc}
    (ht : autoTick o sh calls c seq timedOut p = some (ins, pc')) :
    AutoGo o sh c seq timedOut p ins pc' := by
  cases p with
  | gate =>
    simp only [autoTick] at ht
    split at ht <;> cases ht
    · exact .skip
    · exact .gate
  | lock =>
    obtain ⟨hl, rfl, rfl⟩ := takeLock_inv ht
    exact .lock hl
  | recheck =>
    simp only [autoTick, WaitCtx.goto] at ht
    split at ht <;> cases ht
    · exact .tooSoon
    · exact .claim
  | run p =>
    simp only [autoTick] at ht
    split at ht <;> rename_i hs <;> cases ht
    · exact .run hs
    · exact .swept hs
  | unlock =>
    cases ht
    exact .unlock

/-- **The list of transitions is complete.** -/
theorem waitTick_inv {p : WaitPc} (ht : waitTick o sh pid calls c p = some (ins, pc')) :
    WaitGo o sh pid c p ins pc' := by
  cases p with
  | fast p => exact .fast (fastTick_inv ht)
  | pass p => exact .pass (passTick_inv ht)
  | spinStart seq =>
    simp only [waitTick, WaitCtx.goto] at ht
    split at ht <;> cases ht
    · exact .noSpin
    · exact .spinStart
  | spin left seq p => exact .spin (spinTick_inv ht)
  | sweep seq timedOut p => exact .sweep (autoTick_inv ht)
  | sleep seq p =>
    refine .sleep ?_
    cases p with
    -- the tail of a timeout may be spun away instead of slept
    | choose =>
      simp only [waitTick, sleepTick, WaitCtx.goto] at ht
      split at ht <;> cases ht
      · exact .tail
      · exact .park
    | park =>
      simp only [waitTick, sleepTick, WaitCtx.goto] at ht
      split at ht <;> cases ht
      · exact .parked (by assumption)
      · exact .again (by assumption)
    | parked =>
      cases ht
      exact .woken
    | tail =>
      simp only [waitTick, sleepTick, WaitCtx.goto] at ht
      split at ht <;> cases ht
      · exact .tailDone
      · exact .tailMore
  | detach p =>
    refine .detach ?_
    -- the peek goes over all nodes before it takes the lock
    cases p with
    | peek k =>
      simp only [waitTick, detachTick, WaitCtx.goto] at ht
      split at ht
      · cases ht
        exact .found (by assumption)
      · rename_i hreg
        split at ht <;> rename_i hk <;> cases ht
        · exact .next (by simpa using hreg) hk
        · exact .none (by simpa using hreg) hk
    | lock =>
      obtain ⟨hl, rfl, rfl⟩ := takeLock_inv ht
      exact .lock hl
    | detach k =>
      cases ht
      split
      · exact .detach (by assumption)
      · exact .last (by assumption)
    | unlock =>
      cases ht
      exact .unlock
  | clean r p =>
    refine .clean ?_
    cases p with
    | lock =>
      obtain ⟨hl, rfl, rfl⟩ := takeLock_inv ht
      exact .lock hl
    | detach todo =>
      cases todo <;> cases ht
      · exact .detached
      · exact .detach
    | free todo =>
      cases todo <;> cases ht
      · exact .freed
      · exact .free
    | unlock =>
      cases ht
      exact .unlock

end Inversion

/-! ### Sweeps -/

section SweepTransitions

variable (auto : Bool) (sh : Shared T)

/-- The transitions of a sweep. -/
inductive SweepGo : SweepPc → Instr → Out SweepPc Nat → Prop
  | finished {st : SweepSt} {scan : SweepScan} : st.scan.nextChunk sh.region = (scan, []) →
      SweepGo (.chunk st) .silent (.done st.freed)
  | chunkAuto {st : SweepSt} {scan : SweepScan} {cands : List DeadCand} :
      st.scan.nextChunk sh.region = (scan, cands) → auto = true →
      SweepGo (.chunk st) .silent (.more (.drop { st with scan := scan } cands))
  | chunk {st : SweepSt} {scan : SweepScan} {cands : List DeadCand} :
      st.scan.nextChunk sh.region = (scan, cands) → auto = false →
      SweepGo (.chunk st) .silent (.more (.judge auto { st with scan := scan } [] cands))
  | drop {st : SweepSt} {cands : List DeadCand} : auto = true →
      SweepGo (.drop st cands) .unlock (.more (.judge auto st [] cands))
  | probeDead {st : SweepSt} {judged : List (DeadCand × Bool)} {c : DeadCand}
      {rest : List DeadCand} :
      SweepGo (.probe st judged c [] rest) .silent
        (.more (.judge auto st (judged ++ [(c, false)]) rest))
  | probeAlive {st : SweepSt} {judged : List (DeadCand × Bool)} {c : DeadCand} {p : U32}
      {pids : List U32} {rest : List DeadCand} {cache : PidCache} :
      st.cache.probe sh.dead p = (true, cache) →
      SweepGo (.probe st judged c (p :: pids) rest) .silent
        (.more (.judge auto { st with cache := cache } (judged ++ [(c, true)]) rest))
  | probe {st : SweepSt} {judged : List (DeadCand × Bool)} {c : DeadCand} {p : U32}
      {pids : List U32} {rest : List DeadCand} {cache : PidCache} :
      st.cache.probe sh.dead p = (false, cache) →
      SweepGo (.probe st judged c (p :: pids) rest) .silent
        (.more (.probe { st with cache := cache } judged c pids rest))
  | relock {st : SweepSt} {judged : List (DeadCand × Bool)} : sh.lock = none →
      SweepGo (.relock st judged) .lock (.more (.reap st judged))
  | reaped {st : SweepSt} : SweepGo (.reap st []) .silent (.more (.chunk st))
  | skip {st : SweepSt} {x : DeadCand × Bool} {judged : List (DeadCand × Bool)} :
      SweepGo (.reap st (x :: judged)) .silent (.more (.reap st judged))
  | reapNode {st : SweepSt} {c : DeadCand} {judged : List (DeadCand × Bool)} : c.node = true →
      c.nodeStands sh.region = true →
      SweepGo (.reap st ((c, false) :: judged)) (.detach c.index)
        (.more (.reapFree st c.index judged))
  | reapSlot {st : SweepSt} {c : DeadCand} {judged : List (DeadCand × Bool)} : c.node = false →
      c.slotStands sh.region = true →
      SweepGo (.reap st ((c, false) :: judged)) (.reap c.index)
        (.more (.reapGen st c.index judged))
  | reapFree {st : SweepSt} {n : Nat} {judged : List (DeadCand × Bool)} :
      SweepGo (.reapFree st n judged) (.freeNode n) (.more (.reap st judged))
  | reapGen {st : SweepSt} {i : Nat} {judged : List (DeadCand × Bool)} :
      SweepGo (.reapGen st i judged)
        (.store i (.generation ((sh.region.slots i).generation + 1)))
        (.more (.reapWalk st i .start judged))
  | walk {st : SweepSt} {i : Nat} {w w' : Walk} {judged : List (DeadCand × Bool)} {ins : Instr} :
      w.step sh.region i = some (ins, .more w') →
      SweepGo (.reapWalk st i w judged) ins (.more (.reapWalk st i w' judged))
  | walked {st : SweepSt} {i : Nat} {w : Walk} {judged : List (DeadCand × Bool)} {ins : Instr} :
      w.step sh.region i = some (ins, .done ()) →
      SweepGo (.reapWalk st i w judged) ins (.more (.reap { st with freed := st.freed + 1 } judged))

variable {auto sh}

/-- What a step of a sweep is. -/
theorem SweepPc.step_inv {p : SweepPc} {ins : Instr} {q : Out SweepPc Nat}
    (h : p.step auto sh = some (ins, q)) : SweepGo auto sh p ins q := by
  cases p with
  | chunk st =>
    simp only [SweepPc.step] at h
    split at h <;> rename_i hc
    · cases h
      -- nothing left is the end of the sweep
      exact .finished hc
    · split at h <;> rename_i ha <;> cases h
      · exact .chunkAuto hc ha
      · exact .chunk hc (by simpa using ha)
  | drop st cands =>
    simp only [SweepPc.step] at h
    split at h <;> rename_i ha <;> cases h
    subst ha
    exact .drop rfl
  | probe st judged c pids rest =>
    cases pids with
    | nil =>
      cases h
      exact .probeDead
    | cons p pids =>
      simp only [SweepPc.step] at h
      split at h <;> rename_i hp <;> cases h
      · exact .probeAlive hp
      · exact .probe hp
  | relock st judged =>
    simp only [SweepPc.step] at h
    split at h <;> cases h
    exact .relock (by assumption)
  | reap st judged =>
    cases judged with
    | nil =>
      cases h
      exact .reaped
    | cons x judged =>
      obtain ⟨c, alive⟩ := x
      -- a candidate found dead is looked at once more under the lock
      simp only [SweepPc.step] at h
      split at h
      · cases h
        exact .skip
      · rename_i ha
        obtain rfl : alive = false := by simpa using ha
        split at h <;> rename_i hn <;> split at h <;> rename_i hs <;> cases h
        · exact .reapNode hn hs
        · exact .skip
        · exact .reapSlot (by simpa using hn) hs
        · exact .skip
  | reapFree st n judged =>
    cases h
    exact .reapFree
  | reapGen st i judged =>
    cases h
    exact .reapGen
  | reapWalk st i w judged =>
    simp only [SweepPc.step] at h
    split at h <;> rename_i hw <;> cases h
    · exact .walk hw
    · exact .walked hw

end SweepTransitions

/-! ### The other calls -/

/-- The operation is still looking its handle up. -/
def OpPc.looking : OpPc → Bool
  | .state | .gen | .typ => true
  | _ => false

section CallTransitions

variable (sh : Shared T) (pid : U32)

/-- The transitions of a lock-free operation. -/
inductive OpGo (h : U32) (o : Op) : OpPc → Instr → Pc → Prop
  | state : (sh.region.slots (handleIndex h)).state = .used →
      OpGo h o .state .silent (.op h o .gen)
  | gen : (sh.region.slots (handleIndex h)).generation = handleGen h →
      OpGo h o .gen .silent (.op h o .typ)
  | typ : (sh.region.slots (handleIndex h)).objType = o.objType →
      OpGo h o .typ .silent (.op h o (.loop none))
  | bad {p : OpPc} : p.looking = true →
      OpGo h o p .silent (.done (.op h o) (.op (.error .invalid)))
  | retry {cas cas' : Option U64} : OpGo h o (.loop cas) .silent (.op h o (.loop cas'))
  | ret {cas : Option U64} {r : OpRet} {wake : Bool} :
      o.pass (sh.region.slots (handleIndex h)).w0 = .ret (r, wake) →
      OpGo h o (.loop cas) .silent (.done (.op h o) (.op r))
  | swap {cas : Option U64} {new : U64} {r : OpRet} :
      o.pass (sh.region.slots (handleIndex h)).w0 = .cas new (r, true) →
      OpGo h o (.loop cas) (.word h (handleIndex h) (.op o) new) (.op h o (.peek r))
  | swapQuiet {cas : Option U64} {new : U64} {r : OpRet} :
      o.pass (sh.region.slots (handleIndex h)).w0 = .cas new (r, false) →
      OpGo h o (.loop cas) (.word h (handleIndex h) (.op o) new) (.done (.op h o) (.op r))
  | peekNone {r : OpRet} : (sh.region.slots (handleIndex h)).waiterHead = none →
      OpGo h o (.peek r) .silent (.done (.op h o) (.op r))
  | peek {r : OpRet} : (sh.region.slots (handleIndex h)).waiterHead ≠ none →
      OpGo h o (.peek r) .silent (.op h o (.lockWake r))
  | lock {r : OpRet} : sh.lock = none → OpGo h o (.lockWake r) .lock (.op h o (.walk r .start))
  | walk {r : OpRet} {w w' : Walk} {ins : Instr} :
      w.step sh.region (handleIndex h) = some (ins, .more w') →
      OpGo h o (.walk r w) ins (.op h o (.walk r w'))
  | walked {r : OpRet} {w : Walk} {ins : Instr} :
      w.step sh.region (handleIndex h) = some (ins, .done ()) →
      OpGo h o (.walk r w) ins (.op h o (.unlock r))
  | unlock {r : OpRet} : OpGo h o (.unlock r) .unlock (.done (.op h o) (.op r))

/-- The transitions of a pulse. -/
inductive PulseGo (h : U32) : PulsePc → Instr → Pc → Prop
  | lock : sh.lock = none → PulseGo h .lock .lock (.pulse h .check)
  | check {i : Nat} : sh.region.slot h = some i → (sh.region.slots i).objType = .event →
      PulseGo h .check .silent (.pulse h .load)
  | bad : PulseGo h .check .silent (.pulse h (.unlock (.error .invalid)))
  | load : PulseGo h .load .silent (.pulse h (.loadD (lo32 (sh.region.slots (handleIndex h)).w0)))
  | loadD {prev : U32} : PulseGo h (.loadD prev) .silent
      (.pulse h (.storeD prev (sh.region.slots (handleIndex h)).d))
  | storeD {prev : U32} {d : U64} :
      PulseGo h (.storeD prev d) (.storeD (handleIndex h) (d + 1)) (.pulse h (.loadW prev))
  | loadW {prev : U32} : PulseGo h (.loadW prev) .silent
      (.pulse h (.storeW prev (sh.region.slots (handleIndex h)).w0))
  | storeW {prev : U32} {w : U64} :
      PulseGo h (.storeW prev w) (.word h (handleIndex h) .pulse (w &&& ~~~1))
        (.pulse h (.walk prev .start))
  | walk {prev : U32} {w w' : Walk} {ins : Instr} :
      w.step sh.region (handleIndex h) = some (ins, .more w') →
      PulseGo h (.walk prev w) ins (.pulse h (.walk prev w'))
  | walked {prev : U32} {w : Walk} {ins : Instr} :
      w.step sh.region (handleIndex h) = some (ins, .done ()) →
      PulseGo h (.walk prev w) ins (.pulse h (.unlock (.ok (.num prev))))
  | unlock {r : OpRet} : PulseGo h (.unlock r) .unlock (.done (.pulse h) (.op r))

/-- The transitions of a `create_*`. -/
inductive CreateGo (k : Create) : CreatePc → Instr → Pc → Prop
  | lock : sh.lock = none → CreateGo k .lock .lock (.create k (.alloc false))
  | take {retry : Bool} {i : Nat} : sh.region.freeSlot = some i →
      CreateGo k (.alloc retry) (.takeSlot i)
        (.create k (.write (mkHandle (sh.region.slots i).generation i)
          (slotPublish k.objType k.word pid)))
  | full {retry : Bool} : sh.region.freeSlot = none →
      CreateGo k (.alloc retry) .silent (.create k (.unlock (.error (.init enomem))))
  | sweep : sh.region.freeSlot = none →
      CreateGo k (.alloc false) .silent (.create k (.sweep (.chunk (.new sh.region))))
  | run {p p' : SweepPc} {ins : Instr} : p.step false sh = some (ins, .more p') →
      CreateGo k (.sweep p) ins (.create k (.sweep p'))
  | retry {p : SweepPc} {ins : Instr} {n : Nat} : p.step false sh = some (ins, .done n) →
      CreateGo k (.sweep p) ins (.create k (.alloc true))
  | giveUp {p : SweepPc} {ins : Instr} {n : Nat} : p.step false sh = some (ins, .done n) →
      CreateGo k (.sweep p) ins (.create k (.unlock (.error (.init enomem))))
  | written {h : U32} : CreateGo k (.write h []) .silent (.create k (.unlock (.ok h)))
  | write {h : U32} {w : SlotWrite} {ws : List SlotWrite} :
      CreateGo k (.write h (w :: ws)) (.store (handleIndex h) w) (.create k (.write h ws))
  | unlock {r : Except Err U32} :
      CreateGo k (.unlock r) .unlock (.done (.create k) (.handle r))

/-- The transitions of a `close`. -/
inductive CloseGo (h : U32) : ClosePc → Instr → Pc → Prop
  | lock : sh.lock = none → CloseGo h .lock .lock (.close h .check)
  | bad : sh.region.slot h = none → CloseGo h .check .silent (.close h (.unlock false))
  | check {i : Nat} : sh.region.slot h = some i → CloseGo h .check .silent
      (.close h (.write ((sh.region.slots i).holderRemove pid)))
  | written : CloseGo h (.write []) .silent (.close h .free)
  | write {w : SlotWrite} {ws : List SlotWrite} :
      CloseGo h (.write (w :: ws)) (.store (handleIndex h) w) (.close h (.write ws))
  | free : CloseGo h .free (.store (handleIndex h) (.state .free)) (.close h .gen)
  | gen : CloseGo h .gen (.store (handleIndex h)
        (.generation ((sh.region.slots (handleIndex h)).generation + 1)))
      (.close h (.walk .start))
  | walk {w w' : Walk} {ins : Instr} : w.step sh.region (handleIndex h) = some (ins, .more w') →
      CloseGo h (.walk w) ins (.close h (.walk w'))
  | walked {w : Walk} {ins : Instr} : w.step sh.region (handleIndex h) = some (ins, .done ()) →
      CloseGo h (.walk w) ins (.close h (.unlock true))
  | unlock {r : Bool} : CloseGo h (.unlock r) .unlock (.done (.close h) (.bool r))

/-- The transitions of a `retain` or `release`. -/
inductive HoldGo (add : Bool) (h : U32) : HoldPc → Instr → Pc → Prop
  | lock : sh.lock = none → HoldGo add h .lock .lock (.hold add h .check)
  | bad : sh.region.slot h = none →
      HoldGo add h .check .silent (.hold add h (.unlock (.error .invalid)))
  | checkAdd {i : Nat} : sh.region.slot h = some i → add = true → HoldGo add h .check .silent
      (.hold add h (.write ((sh.region.slots i).holderAdd pid)))
  | checkRemove {i : Nat} : sh.region.slot h = some i → add = false →
      HoldGo add h .check .silent (.hold add h (.mark ((sh.region.slots i).holderRemove pid)))
  | writtenAdd : add = true → HoldGo add h (.write []) .silent (.hold add h (.mark []))
  | writtenRemove : add = false →
      HoldGo add h (.write []) .silent (.hold add h (.unlock (.ok ())))
  | write {w : SlotWrite} {ws : List SlotWrite} :
      HoldGo add h (.write (w :: ws)) (.store (handleIndex h) w) (.hold add h (.write ws))
  | markAdd {ws : List SlotWrite} : add = true →
      HoldGo add h (.mark ws) (.hold true (handleIndex h)) (.hold add h (.unlock (.ok ())))
  | markRemove {ws : List SlotWrite} : add = false →
      HoldGo add h (.mark ws) (.hold false (handleIndex h)) (.hold add h (.write ws))
  | unlock {r : Except Err Unit} :
      HoldGo add h (.unlock r) .unlock (.done (.hold add h) (.unit r))

/-- The transitions of a `sweep_dead`. -/
inductive SweepCallGo : SweepCallPc → Instr → Pc → Prop
  | lock : sh.lock = none →
      SweepCallGo .lock .lock (.sweepDead (.run (.chunk (.new sh.region))))
  | run {p p' : SweepPc} {ins : Instr} : p.step false sh = some (ins, .more p') →
      SweepCallGo (.run p) ins (.sweepDead (.run p'))
  | swept {p : SweepPc} {ins : Instr} {n : Nat} : p.step false sh = some (ins, .done n) →
      SweepCallGo (.run p) ins (.sweepDead (.unlock n))
  | unlock {n : Nat} : SweepCallGo (.unlock n) .unlock (.done .sweepDead (.num n))

/-- The transitions of a thread inside a call. -/
inductive PcGo (o : Oracle) : Pc → Instr → Pc → Prop
  | op {h : U32} {op : Op} {p : OpPc} {ins : Instr} {pc' : Pc} :
      OpGo sh h op p ins pc' → PcGo o (.op h op p) ins pc'
  | pulse {h : U32} {p : PulsePc} {ins : Instr} {pc' : Pc} :
      PulseGo sh h p ins pc' → PcGo o (.pulse h p) ins pc'
  | wait {c : WaitCtx} {p : WaitPc} {ins : Instr} {pc' : Pc} :
      WaitGo o sh pid c p ins pc' → PcGo o (.wait c p) ins pc'
  | create {k : Create} {p : CreatePc} {ins : Instr} {pc' : Pc} :
      CreateGo sh pid k p ins pc' → PcGo o (.create k p) ins pc'
  | close {h : U32} {p : ClosePc} {ins : Instr} {pc' : Pc} :
      CloseGo sh pid h p ins pc' → PcGo o (.close h p) ins pc'
  | hold {add : Bool} {h : U32} {p : HoldPc} {ins : Instr} {pc' : Pc} :
      HoldGo sh pid add h p ins pc' → PcGo o (.hold add h p) ins pc'
  | sweepDead {p : SweepCallPc} {ins : Instr} {pc' : Pc} :
      SweepCallGo sh p ins pc' → PcGo o (.sweepDead p) ins pc'

end CallTransitions

section CallInversion

variable {o : Oracle} {sh : Shared T} {pid : U32} {calls : U64} {ins : Instr} {pc pc' : Pc}

/-- What a step of a lock-free operation is. -/
theorem opTick_inv {h : U32} {op : Op} {p : OpPc} (ht : opTick sh h op p = some (ins, pc')) :
    OpGo sh h op p ins pc' := by
  cases p with
  | state =>
    simp only [opTick] at ht
    split at ht <;> cases ht
    · exact .state (by assumption)
    · exact .bad rfl
  | gen =>
    simp only [opTick] at ht
    split at ht <;> cases ht
    · exact .gen (by assumption)
    · exact .bad rfl
  | typ =>
    simp only [opTick] at ht
    split at ht <;> cases ht
    · exact .typ (by assumption)
    · exact .bad rfl
  | loop cas =>
    simp only [opTick] at ht
    split at ht <;> rename_i hc <;> cases ht
    -- a pass that stores nothing returns, one that stores goes on to the waiters when it has to
    · exact .retry
    · rcases casStep_done hc with ⟨_, hb⟩ | ⟨new, hw, _⟩
      · exact .ret hb
      · cases hw
    · cases casStep_more hc
    · rename_i wake
      rcases casStep_done hc with ⟨hw, _⟩ | ⟨new, hw, hb⟩
      · cases hw
      · cases hw
        cases wake
        · exact .swapQuiet hb
        · exact .swap hb
  | peek r =>
    simp only [opTick] at ht
    split at ht <;> cases ht
    · exact .peekNone (by assumption)
    · exact .peek (by assumption)
  | lockWake r =>
    obtain ⟨hl, rfl, rfl⟩ := takeLock_inv ht
    exact .lock hl
  | walk r w =>
    simp only [opTick] at ht
    split at ht <;> rename_i hw <;> cases ht
    · exact .walk hw
    · exact .walked hw
  | unlock r =>
    cases ht
    exact .unlock

/-- What a step of a pulse is. -/
theorem pulseTick_inv {h : U32} {p : PulsePc} (ht : pulseTick sh h p = some (ins, pc')) :
    PulseGo sh h p ins pc' := by
  cases p with
  | lock =>
    obtain ⟨hl, rfl, rfl⟩ := takeLock_inv ht
    exact .lock hl
  | check =>
    simp only [pulseTick] at ht
    split at ht
    · rename_i hi
      split at ht <;> cases ht
      · exact .check hi (by assumption)
      · exact .bad
    · cases ht
      exact .bad
  | load => cases ht; exact .load
  | loadD prev => cases ht; exact .loadD
  | storeD prev d => cases ht; exact .storeD
  | loadW prev => cases ht; exact .loadW
  | storeW prev w => cases ht; exact .storeW
  | walk prev w =>
    simp only [pulseTick] at ht
    split at ht <;> rename_i hw <;> cases ht
    · exact .walk hw
    · exact .walked hw
  | unlock r => cases ht; exact .unlock

/-- What a step of a create is. -/
theorem createTick_inv {k : Create} {p : CreatePc}
    (ht : createTick sh pid k p = some (ins, pc')) : CreateGo sh pid k p ins pc' := by
  cases p with
  | lock =>
    obtain ⟨hl, rfl, rfl⟩ := takeLock_inv ht
    exact .lock hl
  | alloc retry =>
    simp only [createTick] at ht
    split at ht <;> rename_i hf
    · cases ht
      exact .take hf
    · split at ht <;> rename_i hr <;> cases ht
      · exact .full hf
      · obtain rfl : retry = false := by simpa using hr
        exact .sweep hf
  | sweep p =>
    simp only [createTick] at ht
    split at ht <;> rename_i hs <;> cases ht
    · exact .run hs
    · split
      · exact .retry hs
      · exact .giveUp hs
  | write h ws =>
    cases ws <;> cases ht
    · exact .written
    · exact .write
  | unlock r => cases ht; exact .unlock

/-- What a step of a close is. -/
theorem closeTick_inv {h : U32} {p : ClosePc} (ht : closeTick sh pid h p = some (ins, pc')) :
    CloseGo sh pid h p ins pc' := by
  cases p with
  | lock =>
    obtain ⟨hl, rfl, rfl⟩ := takeLock_inv ht
    exact .lock hl
  | check =>
    simp only [closeTick] at ht
    split at ht <;> rename_i hs <;> cases ht
    · exact .bad hs
    · exact .check hs
  | write ws =>
    cases ws <;> cases ht
    · exact .written
    · exact .write
  | free => cases ht; exact .free
  | gen => cases ht; exact .gen
  | walk w =>
    simp only [closeTick] at ht
    split at ht <;> rename_i hw <;> cases ht
    · exact .walk hw
    · exact .walked hw
  | unlock r => cases ht; exact .unlock

/-- What a step of a retain or release is. -/
theorem holdTick_inv {add : Bool} {h : U32} {p : HoldPc}
    (ht : holdTick sh pid add h p = some (ins, pc')) : HoldGo sh pid add h p ins pc' := by
  cases p with
  | lock =>
    obtain ⟨hl, rfl, rfl⟩ := takeLock_inv ht
    exact .lock hl
  | check =>
    simp only [holdTick] at ht
    split at ht <;> rename_i hs
    · cases ht
      exact .bad hs
    · split at ht <;> rename_i ha <;> cases ht
      · exact .checkAdd hs ha
      · exact .checkRemove hs (by simpa using ha)
  | write ws =>
    cases ws <;> cases ht
    · cases add
      · exact .writtenRemove rfl
      · exact .writtenAdd rfl
    · exact .write
  | mark ws =>
    cases ht
    cases add
    · exact .markRemove rfl
    · exact .markAdd rfl
  | unlock r => cases ht; exact .unlock

/-- What a step of `sweep_dead` is. -/
theorem sweepDeadTick_inv {p : SweepCallPc} (ht : sweepDeadTick sh p = some (ins, pc')) :
    SweepCallGo sh p ins pc' := by
  cases p with
  | lock =>
    obtain ⟨hl, rfl, rfl⟩ := takeLock_inv ht
    exact .lock hl
  | run p =>
    simp only [sweepDeadTick] at ht
    split at ht <;> rename_i hs <;> cases ht
    · exact .run hs
    · exact .swept hs
  | unlock n => cases ht; exact .unlock

/-- **Every step of a call is a listed transition.** -/
theorem tick_inv (ht : tick o sh pid calls pc = some (ins, pc')) : PcGo sh pid o pc ins pc' := by
  cases pc with
  | idle | done | panicked => cases ht
  | op h op p => exact .op (opTick_inv ht)
  | pulse h p => exact .pulse (pulseTick_inv ht)
  | wait c p => exact .wait (waitTick_inv ht)
  | create k p => exact .create (createTick_inv ht)
  | close h p => exact .close (closeTick_inv ht)
  | hold add h p => exact .hold (holdTick_inv ht)
  | sweepDead p => exact .sweepDead (sweepDeadTick_inv ht)

end CallInversion

/-! ### The run of `try_satisfy` inside a wait -/

/-- How a wait goes on after a step of `try_satisfy`. -/
def FollowsSat (c : WaitCtx) (pc' : Pc) : Out Sat (Option (Nat × Bool)) → Prop
  | .more p => pc'.sat? = some (c, p)
  | .done (some (k, od)) => pc'.sat? = none ∧ pc'.report = some (.signaled k od)
  | .done none => pc'.sat? = none ∧ (pc'.report = none ∨ pc'.report = some .timeout)

/-- How a wait goes on after a step outside `try_satisfy`: at most a new run of `try_satisfy`
    begins, and an outcome is kept or settled without any acquisition. -/
structure FollowsPlain (c : WaitCtx) (p : WaitPc) (pc' : Pc) : Prop where
  sat : pc'.sat? = none ∨ ∃ c', pc'.sat? = some (c', .start c.all) ∧ c'.toWaitArgs = c.toWaitArgs
  args : pc' = .panicked ∨ pc'.args? = some c.toWaitArgs
  report : pc'.report = (Pc.wait c p).report ∨ pc'.report = some .invalid ∨
    pc'.report = some .timeout ∨ pc'.report = some c.alerted

section SatView

variable {o : Oracle} {sh : Shared T} {pid : U32} {calls : U64} {ins : Instr} {pc pc' : Pc}
  {c : WaitCtx}

/-- **A step of a running `try_satisfy`.** -/
theorem WaitGo.sat {p : Sat} {q : WaitPc} (h : WaitGo o sh pid c q ins pc')
    (hp : q.sat? = some p) :
    ∃ w out, SatStep sh.region c.toWaitArgs c.seqs p w out ∧ ins = satInstr c.toWaitArgs w ∧
      pc'.args? = some c.toWaitArgs ∧ FollowsSat c pc' out := by
  unfold WaitPc.sat? at hp
  split at hp <;> cases hp
  · cases h with
    | fast h =>
      cases h with
      | sat hs => exact ⟨_, _, hs, rfl, rfl, rfl⟩
      | win hs => exact ⟨_, _, hs, rfl, rfl, rfl, rfl⟩
      | failZero hs => exact ⟨_, _, hs, rfl, rfl, rfl, .inr rfl⟩
      | fail hs => exact ⟨_, _, hs, rfl, rfl, rfl, .inl rfl⟩
  · cases h with
    | pass h =>
      cases h with
      | sat hs => exact ⟨_, _, hs, rfl, rfl, rfl⟩
      | win hs => exact ⟨_, _, hs, rfl, rfl, rfl, rfl⟩
      | fail hs => exact ⟨_, _, hs, rfl, rfl, rfl, .inl rfl⟩
  · cases h with
    | spin h =>
      cases h with
      | move hp => cases hp
      | sat hs => exact ⟨_, _, hs, rfl, rfl, rfl⟩
      | win hs => exact ⟨_, _, hs, rfl, rfl, rfl, rfl⟩
      | fail hs => exact ⟨_, _, hs, rfl, rfl, rfl, .inl rfl⟩

/-- The fast path goes on without an attempt under way, or with a new one. -/
theorem WaitCtx.fastNext_plain (c c' : WaitCtx) (p : FastPc) (i : Nat)
    (h : c'.toWaitArgs = c.toWaitArgs) : FollowsPlain c (.fast p) (.wait c' (c.fastNext i)) := by
  refine ⟨?_, .inr (by rw [Pc.args?, h]), .inl ?_⟩
  · unfold WaitCtx.fastNext
    split
    · exact .inl rfl
    · split
      · exact .inl rfl
      · exact .inr ⟨c', rfl, h⟩
  · unfold WaitCtx.fastNext
    split
    · rfl
    · split <;> rfl

/-- So does the locked pass after the alert test. -/
theorem WaitCtx.afterAlert_plain (c c' : WaitCtx) (p : PassPc)
    (h : c'.toWaitArgs = c.toWaitArgs) : FollowsPlain c (.pass p) (.wait c' c.afterAlert) := by
  unfold WaitCtx.afterAlert
  split <;> exact ⟨.inl rfl, .inr (by rw [Pc.args?, h]), .inl rfl⟩

/-- So does the validation. -/
theorem WaitCtx.validateNext_plain (c c' : WaitCtx) (p : PassPc) (i : Nat)
    (h : c'.toWaitArgs = c.toWaitArgs) :
    FollowsPlain c (.pass p) (.wait c' (c.validateNext i)) := by
  unfold WaitCtx.validateNext
  split
  · exact ⟨.inl rfl, .inr (by rw [Pc.args?, h]), .inl rfl⟩
  · split
    · exact ⟨.inl rfl, .inr (by rw [Pc.args?, h]), .inl rfl⟩
    · exact c.afterAlert_plain c' p h

/-- **A step of a wait outside `try_satisfy`.** -/
theorem WaitGo.plain {q : WaitPc} (h : WaitGo o sh pid c q ins pc') (hq : q.sat? = none) :
    FollowsPlain c q pc' := by
  cases h with
  | fast h =>
    cases h with
    | sat | win | failZero | fail => cases hq
    -- the next object, the alert or the attempt
    | lookOther => exact c.fastNext_plain (c.setSeq _ _) _ _ rfl
    | seq => exact c.fastNext_plain (c.setSeq _ _) _ _ rfl
    | start => exact ⟨.inr ⟨c, rfl, rfl⟩, .inr rfl, .inl rfl⟩
    | alerted => exact ⟨.inl rfl, .inr rfl, .inr (.inr (.inr rfl))⟩
    | unwrapStateBad | unwrapGenBad => exact ⟨.inl rfl, .inl rfl, .inl rfl⟩
    | _ => exact ⟨.inl rfl, .inr rfl, .inl rfl⟩
  | pass h =>
    cases h with
    | sat | win | fail => cases hq
    -- the next object, the alert's check or the allocation
    | validateFirst => exact c.validateNext_plain (c.setSeq _ _) _ _ rfl
    | validate => exact c.validateNext_plain c _ _ rfl
    | alertClear => exact c.afterAlert_plain c _ rfl
    | validateBad | validateAlertBad | allocFail =>
      exact ⟨.inl rfl, .inr rfl, .inr (.inl rfl)⟩
    | alertSet => exact ⟨.inl rfl, .inr rfl, .inr (.inr (.inr rfl))⟩
    | alertPanic => exact ⟨.inl rfl, .inl rfl, .inl rfl⟩
    | alloc =>
      unfold WaitCtx.allocNext
      split <;> exact ⟨.inl rfl, .inr rfl, .inl rfl⟩
    | registerSkip | register =>
      unfold WaitCtx.registerNext
      split
      · exact ⟨.inl rfl, .inr rfl, .inl rfl⟩
      · exact ⟨.inr ⟨c, rfl, rfl⟩, .inr rfl, .inl rfl⟩
    | expired => exact ⟨.inl rfl, .inr rfl, .inr (.inr (.inl rfl))⟩
    | lock | validateAlert | sample | unlock => exact ⟨.inl rfl, .inr rfl, .inl rfl⟩
  | noSpin => exact ⟨.inl rfl, .inr rfl, .inl rfl⟩
  | spinStart =>
    unfold WaitCtx.spinFirst
    split <;> exact ⟨.inl rfl, .inr rfl, .inl rfl⟩
  | spin h =>
    cases h with
    | sat | win | fail => cases hq
    | @move p p' _ hp' =>
      -- the round starts with an attempt where no alert is given
      rcases hp' with hp' | rfl
      · cases p' <;> first | exact ⟨.inl rfl, .inr rfl, .inl rfl⟩ | cases hp'
      · exact ⟨.inr ⟨c, rfl, rfl⟩, .inr rfl, .inl rfl⟩
    | alertStateBad | alertGenBad => exact ⟨.inl rfl, .inl rfl, .inl rfl⟩
    | alerted => exact ⟨.inl rfl, .inr rfl, .inr (.inr (.inr rfl))⟩
    | woken | exhausted => exact ⟨.inl rfl, .inr rfl, .inl rfl⟩
    | round =>
      unfold WaitCtx.spinFirst
      split <;> exact ⟨.inl rfl, .inr rfl, .inl rfl⟩
  -- after a timeout the sweep leads to the detach phase, before the sleep into it
  | @sweep seq timedOut p ins pc' h =>
    cases h with
    | skip | unlock => cases timedOut <;> exact ⟨.inl rfl, .inr rfl, .inl rfl⟩
    | _ => exact ⟨.inl rfl, .inr rfl, .inl rfl⟩
  | sleep h =>
    cases h with
    | again | woken =>
      unfold afterFutex
      split <;> exact ⟨.inl rfl, .inr rfl, .inl rfl⟩
    | _ => exact ⟨.inl rfl, .inr rfl, .inl rfl⟩
  | detach h => cases h <;> exact ⟨.inl rfl, .inr rfl, .inl rfl⟩
  | clean h => cases h <;> exact ⟨.inl rfl, .inr rfl, .inl rfl⟩

/-- A wait goes on, returns or panics; it never becomes another call. -/
theorem WaitGo.args {q : WaitPc} (h : WaitGo o sh pid c q ins pc') :
    pc' = .panicked ∨ pc'.args? = some c.toWaitArgs := by
  cases hq : q.sat? with
  | some p =>
    obtain ⟨_, _, _, _, ha, _⟩ := h.sat hq
    exact .inr ha
  | none => exact (h.plain hq).args

end SatView

end Ntsync
