import Mathlib
import Ntsync.Locking

namespace Ntsync

open Words Lts

/-!
# Timed-out sleeps

`futex_wait` returns the negated errno, and `wait` compares its result with the positive `ETIMEDOUT`.
So the branch for a timed-out sleep, with its opportunistic sweep, is never taken.

* `Pc.gate?` — the thread is about to call `auto_sweep_dead`, before its sleep (`false`) or in the
  timeout branch (`true`);
* `PcGo.gate` — the calls before a sleep are the only ones;
* `TimeoutsSweep` — what the timeout branch is for, as a property of a history;
* `timeouts_sweep_iff` — a history has it iff no futex sleep in it timed out.
-/

variable {T : Type}

/-- The thread is about to call `auto_sweep_dead`: before its sleep, or in the timeout branch. -/
def Pc.gate? : Pc → Option Bool
  | .wait _ (.sweep _ timedOut .gate) => some timedOut
  | _ => none

/-- The thread is in its futex sleep. -/
def Pc.parked : Pc → Bool
  | .wait _ (.sleep _ .parked) => true
  | _ => false

/-- The loop of `wait` is about to take the region lock. -/
def Pc.relocks : Pc → Bool
  | .wait _ (.detach .lock) | .wait _ (.pass .lock) | .wait _ (.clean _ .lock) => true
  | _ => false

/-- A step of a run with its action. -/
abbrev Moment (T : Type) := Trans (Sys T) (Action T)

section Moments

variable [DecidableEq T] (t : T)

/-- The step is one of thread `t`. -/
def Moment.acts (x : Moment T) : Bool :=
  match x.label with
  | .tick u _ => decide (u = t)
  | _ => false

/-- The futex sleep of `t` ends with `ETIMEDOUT`. -/
def Moment.timedOut (x : Moment T) : Bool :=
  match x.label with
  | .tick u o => decide (u = t) && (x.before.threads t).pc.parked && decide ((o.errno : Int) = etimedout)
  | _ => false

/-- Thread `t` comes to a call of `auto_sweep_dead`. -/
def Moment.reaches (timedOut : Bool) (x : Moment T) : Bool :=
  x.acts t && decide ((x.after.threads t).pc.gate? = some timedOut)

/-- Thread `t` calls `auto_sweep_dead`. -/
def Moment.invokes (x : Moment T) : Bool := x.acts t && (x.before.threads t).pc.gate?.isSome

/-- Thread `t` takes the region lock in the loop. -/
def Moment.locks (x : Moment T) : Bool := x.acts t && (x.before.threads t).pc.relocks

/-- The timeout branch does what it is for: a timed-out sleep of `t` is followed, before the loop
    takes the lock again, by a call from that branch; `auto_sweep_dead` is called once for each pass
    that reaches the sleep stage and once for each timed-out sleep; and nothing else leads to the
    branch. -/
structure TimeoutsSweep (h : List (Moment T)) (s : Sys T) : Prop where
  followed : ∀ later x earlier, h = later ++ x :: earlier → x.timedOut t = true →
    ∀ after y between, later = after ++ y :: between → y.locks t = true →
      ∃ z ∈ between, z.acts t = true ∧ (z.before.threads t).pc.gate? = some true
  count : h.countP (·.invokes t) + (if (s.threads t).pc.gate?.isSome then 1 else 0) =
    h.countP (·.reaches t false) + h.countP (·.timedOut t)
  only : ∀ x ∈ h, x.reaches t true = true → x.timedOut t = true

end Moments

/-! ### The calls before a sleep are the only ones -/

section Gate

variable {o : Oracle} {sh : Shared T} {pid : U32} {ins : Instr} {pc pc' : Pc}

/-- A call starts in front of the gate. -/
theorem Pc.start_gate (c : Call) : (Pc.start c).gate? = none := by
  cases c <;> simp only [Pc.start] <;> (try split) <;> rfl

/-- Outside of all calls there is no gate. -/
theorem Pc.gate_of_outside (h : pc.outside = true) : pc.gate? = none := by
  cases pc <;> first | rfl | cases h

/-- The result of `futex_wait` is not positive. -/
theorem afterFutex_eq (seq : U32) (errno : Nat) :
    afterFutex seq (futexRet errno) = .detach (.peek 0) := by
  have hneg : futexRet errno ≠ etimedout := by
    unfold futexRet etimedout
    split <;> omega
  exact if_neg hneg

/-- A call is reached from the spin, or where there is none. -/
theorem WaitGo.gate {c : WaitCtx} {p : WaitPc} (hg : WaitGo o sh pid c p ins pc') :
    pc'.gate? = none ∨ pc'.gate? = some false ∧ (Pc.wait c p).gate? = none := by
  cases hg with
  | fast hg =>
    left
    cases hg with
    | lookOther | seq =>
      unfold WaitCtx.fastNext
      split
      · rfl
      · split <;> rfl
    | _ => rfl
  | pass hg =>
    left
    cases hg with
    | validateFirst | validate =>
      unfold WaitCtx.validateNext
      split
      · rfl
      · split
        · rfl
        · unfold WaitCtx.afterAlert
          split <;> rfl
    | alertClear =>
      unfold WaitCtx.afterAlert
      split <;> rfl
    | _ => rfl
  | noSpin => exact .inr ⟨rfl, rfl⟩
  | spinStart => exact .inl rfl
  | spin hg =>
    cases hg with
    | woken | exhausted => exact .inr ⟨rfl, rfl⟩
    | _ => exact .inl rfl
  | @sweep seq timedOut p ins pc' hg =>
    left
    cases hg with
    | skip | unlock => cases timedOut <;> rfl
    | _ => rfl
  | sleep hg =>
    left
    cases hg with
    | again | woken =>
      -- the timeout branch is not reached
      rw [afterFutex_eq]
      rfl
    | _ => rfl
  | detach hg => cases hg <;> exact .inl rfl
  | clean hg => cases hg <;> exact .inl rfl

/-- Only a wait before its sleep comes to the gate. -/
theorem PcGo.gate (hg : PcGo sh pid o pc ins pc') :
    pc'.gate? = none ∨ pc'.gate? = some false ∧ pc.gate? = none := by
  cases hg with
  | wait hg => exact hg.gate
  | op hg => cases hg <;> exact .inl rfl
  | pulse hg => cases hg <;> exact .inl rfl
  | create hg => cases hg <;> exact .inl rfl
  | close hg => cases hg <;> exact .inl rfl
  | hold hg => cases hg <;> exact .inl rfl
  | sweepDead hg => cases hg <;> exact .inl rfl

end Gate

/-! ### Histories -/

section Histories

variable [DecidableEq T] {t : T} {s s' : Sys T} {a : Action T} {l : Label T}

/-- The calls of `auto_sweep_dead` so far are the passes that have reached the sleep stage, but for
    one that is still to come; the timeout branch has not been reached. -/
structure GateCount (t : T) (h : List (Moment T)) (s : Sys T) : Prop where
  count : h.countP (·.invokes t) + (if (s.threads t).pc.gate?.isSome then 1 else 0) =
    h.countP (·.reaches t false)
  never : ∀ x ∈ h, x.reaches t true = false

/-- A step of another thread, a death or a call leaves thread `t` away from the gate, or where it
    was. -/
theorem step_gate (hs : s.step a = some (s', l)) :
    (Moment.acts t ⟨s, a, s'⟩ = true ∧ ((s'.threads t).pc.gate? = none ∨
      (s'.threads t).pc.gate? = some false ∧ (s.threads t).pc.gate? = none)) ∨
    (Moment.acts t ⟨s, a, s'⟩ = false ∧
      (s'.threads t).pc.gate? = (s.threads t).pc.gate?) := by
  cases Sys.step_inv hs with
  | @call u c _ hout =>
    refine .inr ⟨rfl, ?_⟩
    rw [Sys.entered_pc]
    split
    · rename_i hu
      rw [hu, Pc.start_gate, Pc.gate_of_outside hout]
    · rfl
  | @tick u o ins pc' _ ht =>
    unfold Moment.acts
    rw [Sys.after_pc]
    by_cases hu : t = u
    · subst hu
      rw [if_pos rfl]
      exact .inl ⟨decide_eq_true rfl, (tick_inv ht).gate⟩
    · rw [if_neg hu]
      exact .inr ⟨decide_eq_false (Ne.symm hu), rfl⟩
  | die => exact .inr ⟨rfl, rfl⟩

/-- **Every step keeps the count of the gates.** -/
theorem GateCount.step {h : List (Moment T)} (hc : GateCount t h s) (hs : s.step a = some (s', l)) :
    GateCount t (⟨s, a, s'⟩ :: h) s' := by
  have hcount := hc.count
  have hreach (b : Bool) : Moment.reaches t b ⟨s, a, s'⟩ =
      (Moment.acts t ⟨s, a, s'⟩ && decide ((s'.threads t).pc.gate? = some b)) := rfl
  have hinvoke : Moment.invokes t ⟨s, a, s'⟩ =
      (Moment.acts t ⟨s, a, s'⟩ && (s.threads t).pc.gate?.isSome) := rfl
  rcases step_gate (t := t) hs with ⟨hacts, hgate⟩ | ⟨hacts, hsame⟩
  · rw [hacts, Bool.true_and] at hinvoke
    refine ⟨?_, List.forall_mem_cons.mpr ⟨?_, hc.never⟩⟩
    · rw [List.countP_cons, List.countP_cons, hinvoke, hreach, hacts]
      rcases hgate with hnone | ⟨hsome, hnone⟩
      · rw [hnone]
        simpa using hcount
      · -- the thread comes to the gate before its sleep
        rw [hsome, hnone]
        rw [hnone] at hcount
        simpa using hcount
    · rw [hreach, hacts]
      rcases hgate with hnone | ⟨hsome, _⟩
      · rw [hnone]
        rfl
      · rw [hsome]
        rfl
  · rw [hacts, Bool.false_and] at hinvoke
    refine ⟨?_, List.forall_mem_cons.mpr ⟨?_, hc.never⟩⟩
    · rw [List.countP_cons, List.countP_cons, hinvoke, hreach, hacts, hsame]
      simpa using hcount
    · rw [hreach, hacts]
      rfl

/-- **The code meets its purpose iff no futex sleep times out.** -/
theorem timeouts_sweep_iff {r : Region} {pid : T → U32} {h : List (Moment T)}
    (hr : Run (logged Sys.step) (fun _ _ _ => True) (Sys.rest r pid) h s) (t : T) :
    TimeoutsSweep t h s ↔ ∀ x ∈ h, x.timedOut t = false := by
  have hcount : GateCount t h s := by
    refine hr.invariant ⟨rfl, fun x hx => (by cases hx)⟩ fun h s a s' x hc hs _ => ?_
    obtain ⟨l, hs', rfl⟩ := logged_eq_some.mp hs
    exact hc.step hs'
  constructor
  · intro hp x hx
    have hzero : h.countP (·.timedOut t) = 0 := by
      have := hp.count.symm.trans hcount.count
      omega
    simpa using List.countP_eq_zero.mp hzero x hx
  · intro hnone
    refine ⟨?_, ?_, fun x hx hreach => ?_⟩
    · intro later x earlier hh hx
      have hfalse := hnone x (by rw [hh]; exact List.mem_append_right _ (List.mem_cons_self ..))
      rw [hx] at hfalse
      cases hfalse
    · have hzero : h.countP (·.timedOut t) = 0 :=
        List.countP_eq_zero.mpr fun x hx => by simp [hnone x hx]
      rw [hzero]
      exact hcount.count
    · rw [hcount.never x hx] at hreach
      cases hreach

end Histories

/-- A thread creates an event and waits for it; its futex sleep ends with `errno`, and it goes on to
    take the lock. -/
def sleepOnce (errno : Nat) : List (Action (Fin 1)) :=
  .call 0 (.create (.event false false)) :: List.replicate 18 (.tick 0 {}) ++
  .call 0 (.wait ⟨[1], 5, false, 0⟩ .after) :: List.replicate 20 (.tick 0 {}) ++
  .tick 0 { errno := errno } :: List.replicate 2 (.tick 0 {})

/-- A sleep that was interrupted needs no sweep. -/
theorem timeouts_sweep_interrupted :
    ∃ h s, Run (logged Sys.step) (fun _ _ _ => True) (Sys.rest Region.init fun _ => 7) h s ∧
      h.countP (Moment.invokes (0 : Fin 1)) = 1 ∧ TimeoutsSweep (0 : Fin 1) h s := by
  obtain ⟨h, s, hr, hinvokes, hnone⟩ := exists_history_of_exec (logged Sys.step)
    (fun _ _ _ => True) (Sys.rest Region.init fun _ => 7)
    (P := fun h _ => h.countP (Moment.invokes (0 : Fin 1)) = 1 ∧
      h.all (fun x => !Moment.timedOut (0 : Fin 1) x) = true)
    (sleepOnce 4) (by decide +kernel)
  refine ⟨h, s, hr, hinvokes, (timeouts_sweep_iff hr 0).mpr fun x hx => ?_⟩
  simpa using List.all_eq_true.mp hnone x hx

/-- A sleep times out, and the loop takes the lock without another call of `auto_sweep_dead`. -/
theorem timeout_unswept :
    ∃ h s, Run (logged Sys.step) (fun _ _ _ => True) (Sys.rest Region.init fun _ => 7) h s ∧
      s.lock = some 0 ∧ ¬ TimeoutsSweep (0 : Fin 1) h s := by
  obtain ⟨h, s, hr, hlock, hcount⟩ := exists_history_of_exec (logged Sys.step)
    (fun _ _ _ => True) (Sys.rest Region.init fun _ => 7)
    (P := fun h s => s.lock = some 0 ∧
      h.countP (Moment.invokes (0 : Fin 1)) + (if (s.threads 0).pc.gate?.isSome then 1 else 0) ≠
        h.countP (Moment.reaches (0 : Fin 1) false) + h.countP (Moment.timedOut (0 : Fin 1)))
    (sleepOnce 110) (by decide +kernel)
  exact ⟨h, s, hr, hlock, fun hp => hcount hp.count⟩

end Ntsync
