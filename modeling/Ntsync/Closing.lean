import Mathlib
import Ntsync.Stale
import Ntsync.Recycling
import Ntsync.WayOut

namespace Ntsync

open Words Lts

/-!
# Closing under a wait

What becomes of a wait when one of its handles or its alert is closed or reaped.

* `ClosesSafely` — no slot is freed under a wait that trusts it, and nobody dies with a close or a wake
  walk half done;
* `slot_stays_dead` — the closed handle does not come back;
* `Refused.step` — the wait does not settle on anything but `Invalid` any more;
* `Roused.step` — once the wake walk is over, the wait is awake and does not fall asleep again;
* `wait_never_panics` — so it returns `Invalid`, and no wait panics.
-/

variable {T : Type}

/-- The step frees no slot under a wait that trusts it, and kills no process that has a close or a
    wake walk half done. -/
def ClosesSafely (s : Sys T) (l : Label T) : Prop := Spares Pc.trusts s l ∧ ClosesWhole s l

instance [Fintype T] (s : Sys T) (l : Label T) : Decidable (ClosesSafely s l) :=
  inferInstanceAs (Decidable (_ ∧ _))

/-- A slot that is free with its old generation is still to be emptied of waiters. -/
theorem Pc.frees_of_unbumped {pc : Pc} {i : Nat} (h : pc.unbumped? = some i) : pc.frees? = some i := by
  rcases Pc.unbumped_cases h with ⟨hd, rfl, rfl⟩ | ⟨auto, st, judged, hsw⟩
  · rfl
  · unfold Pc.frees?
    split
    · cases hsw
    · cases hsw
    · rw [hsw]
      rfl

/-- A close that is not cut short bumps the generation. -/
theorem ClosesWhole.freesWhole {s : Sys T} {l : Label T} (h : ClosesWhole s l) : FreesWhole s l := by
  cases l with
  | die p =>
    intro t ht ha
    cases hu : (s.threads t).pc.unbumped? with
    | none => rfl
    | some i =>
      have hf := Pc.frees_of_unbumped hu
      rw [(h t ht ha).1] at hf
      cases hf
  | _ => trivial

/-- An alert that is going to be looked up again is trusted. -/
theorem Pc.trusts_of_usesAlert {pc : Pc} {i : Nat} (h : pc.usesAlert i = true) :
    pc.trusts i = true := by
  cases pc with
  | wait c p =>
    simp only [Pc.usesAlert, Bool.and_eq_true] at h
    simp only [Pc.trusts, Pc.trustsAlert, h.1, WaitPc.trusts_of_uses h.2, Bool.and_self, Bool.or_true]
  | _ => cases h

/-- A step that spares what the waits trust spares their alerts. -/
theorem ClosesSafely.alerts {s : Sys T} {l : Label T} (h : ClosesSafely s l) :
    Spares Pc.usesAlert s l := by
  intro i hi u hua hlk
  by_contra hne
  rw [Bool.not_eq_false] at hne
  have ht := Pc.trusts_of_usesAlert hne
  rw [h.1 i hi u hua hlk] at ht
  cases ht

/-! ### The state of such a run -/

/-- What a run keeps that closes safely. -/
structure ClosingInv (h : List (Label T)) (s : Sys T) : Prop where
  entry : EntryInv s
  trust : TrustInv s
  alert : AlertInv s
  freed : FreedInv h s
  generation : GenerationInv h s
  progress : ProgressInv s

section Runs

variable [DecidableEq T] {h h₁ h₂ : List (Label T)} {s s' s₁ s₂ : Sys T} {a : Action T} {l : Label T}
  {t : T} {c : WaitCtx} {p : WaitPc} {hd : U32} {x : WaitArgs} {timeout : Timeout}

/-- **The invariant of the runs that close safely.** -/
theorem ClosingInv.of_run {pid : T → U32} (hpid : ∀ t, pid t ≠ 0)
    (hr : Run Sys.step (fun s l _ => ClosesSafely s l) (Sys.rest Region.init pid) h s) :
    ClosingInv h s := by
  have hidle : (Sys.rest Region.init pid).Idle := fun _ => rfl
  have hstate : EntryInv s ∧ TrustInv s ∧ AlertInv s := by
    refine hr.state_invariant (I := fun s => EntryInv s ∧ TrustInv s ∧ AlertInv s)
      ⟨.of_init hpid, .of_idle hidle, .of_idle hidle rfl⟩ fun s a s' l hi hs hok => ?_
    exact ⟨hi.1.step hs hok.2, hi.2.1.step hi.2.2.table hs hok.1, hi.2.2.step hs hok.alerts⟩
  exact ⟨hstate.1, hstate.2.1, hstate.2.2,
    (FreedInv.of_run (hr.mono fun _ _ _ hok => hok.2.freesWhole)).1,
    .of_run (hr.mono fun _ _ _ _ => trivial), .of_run hpid (hr.mono fun _ _ _ hok => hok.2.clean)⟩

omit [DecidableEq T] in
/-- **A closed handle stays dead** until its slot has been freed `2 ^ 32` times. -/
theorem slot_stays_dead (hi₁ : ClosingInv h₁ s₁) (hi₂ : ClosingInv (h₂ ++ h₁) s₂)
    (hres : s₁.region.slot hd = some (handleIndex hd)) (hfreed : 0 < freed (handleIndex hd) h₂)
    (hwrap : freed (handleIndex hd) h₂ < 2 ^ 32) : s₂.region.slot hd = none := by
  by_contra hne
  obtain ⟨j, hj⟩ := Option.ne_none_iff_exists'.mp hne
  obtain ⟨_, hused₁, hgen₁⟩ := Region.slot_eq_some.mp hres
  obtain ⟨rfl, hused₂, hgen₂⟩ := Region.slot_eq_some.mp hj
  -- both generations count the frees
  rw [hi₁.generation.counts, ← hi₁.freed.of_used hi₁.alert.table hused₁] at hgen₁
  rw [hi₂.generation.counts, ← hi₂.freed.of_used hi₂.alert.table hused₂, ← hgen₁, freed_append,
    BitVec.ofNat_add] at hgen₂
  exact hfreed.ne' (ofNat_eq_zero hwrap (add_eq_right.mp hgen₂))

/-! ### Refused waits -/

/-- The thread is in the call and has not settled on anything but `Invalid`, or it has returned
    `Invalid` from it. -/
def Refused (t : T) (c : Call) (s : Sys T) : Prop :=
  (s.threads t).pc.call? = some c ∧
      ((s.threads t).pc.report = none ∨ (s.threads t).pc.report = some .invalid) ∨
    (s.threads t).pc = .done c (.wait .invalid)

/-- A thread inside a wait is at one of the wait's program counters. -/
theorem Pc.wait_of_call {pc : Pc} (h : pc.call? = some (.wait x timeout)) :
    ∃ c p, pc = .wait c p ∧ c.toWaitArgs = x ∧ c.timeout = timeout := by
  cases pc with
  | wait c p =>
    cases h
    exact ⟨c, p, rfl, rfl, rfl⟩
  | _ => cases h

/-- A sweep is inside of a call that has not settled. -/
theorem Pc.of_sweep {pc : Pc} {x : Bool × SweepPc} (h : pc.sweep? = some x) :
    pc.call? ≠ none ∧ pc.report = none := by
  unfold Pc.sweep? at h
  split at h
  · exact ⟨by simp [Pc.call?], rfl⟩
  · exact ⟨by simp [Pc.call?], rfl⟩
  · exact ⟨by simp [Pc.call?], rfl⟩
  · cases h

omit [DecidableEq T] in
/-- How a wait is left. -/
theorem WaitGo.leaves {o : Oracle} {sh : Shared T} {pid : U32} {ins : Instr} {pc' : Pc}
    (hg : WaitGo o sh pid c p ins pc') (h : pc'.call? = none) :
    pc' = .panicked ∨ ∃ r, pc' = c.ret r := by
  cases hg with
  | fast hg => cases hg <;> first | (cases h; done) | exact .inl rfl | exact .inr ⟨_, rfl⟩
  | pass hg => cases hg <;> first | (cases h; done) | exact .inl rfl
  | noSpin | spinStart => cases h
  | spin hg => cases hg <;> first | (cases h; done) | exact .inl rfl
  | sweep hg => cases hg <;> cases h
  | sleep hg => cases hg <;> cases h
  | detach hg => cases hg <;> cases h
  | clean hg => cases hg <;> first | (cases h; done) | exact .inr ⟨_, rfl⟩

/-- **A wait with a dead handle settles on nothing but `Invalid`.** -/
theorem Refused.step (hr : Refused t (.wait x timeout) s) (hi : TrustInv s) (hal' : AlertInv s')
    (hs : s.step a = some (s', l)) (hne : l.begins t = false) (hn : x.Names hd)
    (hdead : s.region.slot hd = none) : Refused t (.wait x timeout) s' := by
  -- the wait settles on another outcome only while all of its handles resolve
  have hsettle : ∀ c p, (s.threads t).pc = .wait c p → c.toWaitArgs = x →
      (s.threads t).pc.report = none → ∀ r, (s'.threads t).pc.report = some r → r = .invalid := by
    intro c p hpc hargs hrep r hr'
    by_contra hinv
    have hres := hi.settles hs hpc hrep hr' hinv hd (hargs ▸ hn)
    rw [hdead] at hres
    cases hres
  cases Sys.step_inv hs with
  | @call u cl _ _ =>
    have hut : ¬ t = u := fun e => by
      rw [e] at hne
      simp [Label.begins] at hne
    unfold Refused
    rw [Sys.entered_pc, if_neg hut]
    exact hr
  | @tick u o ins pc' ha ht =>
    by_cases hut : t = u
    · subst hut
      rcases hr with ⟨hcall, hrep⟩ | hdone
      · obtain ⟨c, p, hpc, hargs, htime⟩ := Pc.wait_of_call hcall
        have hg := tick_inv ht
        have hpc' : ((s.after t ins pc').threads t).pc = pc' := by rw [Sys.after_pc, if_pos rfl]
        have hreport : ∀ r, pc'.report = some r → r = .invalid := by
          intro r hr'
          -- it keeps what it has settled on, and can only settle on `Invalid`
          rcases hrep with hnone | hinv
          · exact hsettle c p hpc hargs hnone r (by rw [hpc']; exact hr')
          · rw [hg.report hinv] at hr'
            exact (Option.some.inj hr').symm
        unfold Refused
        rw [hpc']
        rcases hg.call with hout | hsame
        · have hgo := hg
          rw [hpc] at hgo
          cases hgo with
          | wait hgo =>
            rcases hgo.leaves hout with rfl | ⟨r, rfl⟩
            · -- nobody panics
              have hok := hal'.ok t
              rw [hpc'] at hok
              exact hok.elim
            · obtain rfl := hreport r rfl
              exact .inr (by rw [WaitCtx.ret, hargs, htime])
        · refine .inl ⟨hsame.trans hcall, ?_⟩
          cases hr' : pc'.report with
          | none => exact .inl rfl
          | some r => exact .inr (by rw [hreport r hr'])
      · rw [hdone] at ht
        cases ht
    · unfold Refused
      rw [Sys.after_pc, if_neg hut]
      exact hr
  | die => exact hr

/-- The step that frees a slot decides no wait. -/
theorem Refused.of_free {i : Nat} (hs : s.step a = some (s', l)) (hf : l.frees = some i)
    (hpc : (s.threads t).pc = .wait c p) (hrep : (s.threads t).pc.report = none) :
    Refused t (.wait c.toWaitArgs c.timeout) s' := by
  cases Sys.step_inv hs with
  | call | die => cases hf
  | @tick u o ins pc' ha ht =>
    refine .inl ?_
    rw [Sys.after_pc]
    by_cases hut : t = u
    · subst hut
      rw [if_pos rfl]
      have hg := tick_inv ht
      -- a wait frees a slot in the reap of its automatic sweep
      obtain ⟨x, hsw⟩ : ∃ x, pc'.sweep? = some x := by
        cases ins with
        | store j w =>
          rcases hg.store with ⟨_, _, _, h, _⟩ | ⟨_, _, h, _⟩ | ⟨_, h, _⟩ | ⟨_, h, _⟩ | ⟨_, _, _, h, _⟩ |
            ⟨_, _, _, _, rfl, _⟩
          all_goals first | (rw [hpc] at h; cases h) | cases hf
        | reap j =>
          obtain ⟨_, _, _, _, _, _, _, _, hsw⟩ := hg.reap
          exact ⟨_, hsw⟩
        | _ => cases hf
      obtain ⟨hin, hrep'⟩ := Pc.of_sweep hsw
      exact ⟨(hg.call.resolve_left hin).trans (by rw [hpc]; rfl), .inl hrep'⟩
    · rw [if_neg hut]
      exact ⟨by rw [hpc]; rfl, .inl hrep⟩

/-! ### Woken waits -/

/-- Each handle of a wait, its alert included, has a node. -/
theorem WaitCtx.exists_target (c : WaitCtx) (hn : c.Names hd) :
    ∃ k < c.nNodes, c.handleAt k = hd := by
  rcases hn with hmem | ⟨hne, rfl⟩
  · obtain ⟨k, hk, rfl⟩ := List.mem_iff_getElem.mp hmem
    refine ⟨k, Nat.lt_add_right _ hk, ?_⟩
    rw [WaitCtx.handleAt, if_pos hk, WaitArgs.handle, List.getD_eq_getElem _ _ hk]
  · refine ⟨c.handles.length, ?_, ?_⟩
    · rw [WaitCtx.nNodes, if_pos hne]
      exact Nat.lt_succ_self _
    · rw [WaitCtx.handleAt, if_neg (Nat.lt_irrefl _)]

/-- The wait does not sleep on its futex word: a node of its was taken off its list, and the word
    has been bumped since the wait sampled it. -/
def Roused (t : T) (s : Sys T) : Prop :=
  ∀ c p seq, s.dead (s.threads t).pid = false → (s.threads t).pc = .wait c p →
    p.sampled? = some seq → (s.region.nodes (c.node 0)).seq ≠ seq ∧
      ∃ n ∈ c.nodes, (s.region.nodes n).registered = false

omit [DecidableEq T] in
/-- When the region lock is free, no wait with a dead handle sleeps. -/
theorem EntryInv.roused (hi : EntryInv s) (hlock : s.lock = none)
    (hdead : s.region.slot hd = none)
    (hn : ∀ c p, (s.threads t).pc = .wait c p → c.Names hd) : Roused t s := by
  intro c p seq ha hpc hs
  obtain ⟨k, hk, rfl⟩ := c.exists_target (hn c p hpc)
  refine ⟨fun hseq => ?_, c.node k, ?_, ?_⟩
  · have hres := hi.no_stale_sleeper hlock ha hpc hs hseq hk
    rw [hdead] at hres
    cases hres
  · obtain ⟨_, _, _, hlen⟩ := hi.nodes.sleeper ha hpc hs
    exact WaitCtx.node_mem (hlen ▸ hk)
  · obtain ⟨_, _, _, hlen⟩ := hi.nodes.sleeper ha hpc hs
    have hkn : k < c.nodes.length := hlen ▸ hk
    cases hreg : (s.region.nodes (c.node k)).registered with
    | false => rfl
    | true =>
      have hown : c.node k ∈ p.owned c := by
        rw [WaitPc.owned_sampled hs]
        exact WaitCtx.node_mem hkn
      have hres := hi.resolves hlock ha hpc hkn hown hreg
      rw [hdead] at hres
      cases hres

/-- **A wait that was roused stays awake**, whatever anybody does. -/
theorem Roused.step (hro : Roused t s) (hi : EntryInv s) (htr : TrustInv s)
    (hs : s.step a = some (s', l)) (hdead : s.region.slot hd = none)
    (hn : ∀ c p, (s.threads t).pc = .wait c p → c.Names hd) (hne : l.begins t = false) :
    Roused t s' := by
  intro c p seq ha' hpc hsamp
  cases Sys.step_inv hs with
  | @call u cl _ _ =>
    have hut : ¬ t = u := fun e => by
      rw [e] at hne
      simp [Label.begins] at hne
    rw [Sys.entered_dead, Sys.entered_pid] at ha'
    rw [Sys.entered_pc, if_neg hut] at hpc
    exact hro c p seq ha' hpc hsamp
  | @tick u o ins pc' ha ht =>
    rw [Sys.after_dead, Sys.after_pid] at ha'
    rw [Sys.after_pc] at hpc
    -- it has had the sample before the step
    obtain ⟨p₀, hpc₀, hs₀⟩ : ∃ p₀, (s.threads t).pc = .wait c p₀ ∧ p₀.sampled? = some seq := by
      by_cases hut : t = u
      · subst hut
        rw [if_pos rfl] at hpc
        subst hpc
        obtain ⟨c₀, p₀, hpc₀, hg, _⟩ := (tick_inv ht).of_wait
        obtain ⟨rfl, _, hs₀ | ⟨rfl, rfl, rfl⟩⟩ := hg.sampled hsamp
        · exact ⟨p₀, hpc₀, hs₀⟩
        · -- a pass that is refused takes no sample
          have hres := htr.resolves ha hpc₀ rfl (hn _ _ hpc₀)
          rw [hdead] at hres
          cases hres
      · rw [if_neg hut] at hpc
        exact ⟨p, hpc, hsamp⟩
    obtain ⟨hseq, n, hmem, hreg⟩ := hro c p₀ seq ha' hpc₀ hs₀
    refine ⟨?_, n, hmem, ?_⟩
    · by_cases hbump : ins = .bump (c.node 0)
      · subst hbump
        obtain ⟨i, next, hw⟩ := (tick_inv ht).bump
        have haway := hi.counts.bumped_away (by decide) hi.nodes ha' hpc₀ hs₀
          ⟨u, ha, Pc.bumps_of_walk hw⟩ hmem hreg
        have hnode : (s.after u (.bump (c.node 0)) pc').region.nodes (c.node 0) = _ :=
          Region.bumpSeq_nodes (c.node 0) (c.node 0)
        rw [hnode, if_pos rfl]
        exact haway
      · rw [show ((s.after u ins pc').region.nodes (c.node 0)).seq = _ from Instr.seq_kept hbump]
        exact hseq
    · cases hreg' : ((s.after u ins pc').region.nodes n).registered with
      | false => rfl
      | true =>
        rcases Instr.registered_now hreg' with ⟨h, _⟩ | ⟨i, w, rfl⟩
        · rw [hreg] at h
          cases h
        · exact absurd hmem (hi.nodes.registers_sleeper ha ht ha' hpc₀ hs₀).1
  | die =>
    rw [Sys.died_dead, Sys.died_threads, Bool.or_eq_false_iff] at ha'
    exact hro c p seq ha'.2 hpc hsamp

/-! ### The way out -/

/-- **One step of the system** and the way out of a wait with a dead handle. -/
theorem ProgressInv.wayOut_step (hi : ProgressInv s) (htr : TrustInv s) (hro : Roused t s)
    (hr : Refused t (.wait x timeout) s) (hs : s.step a = some (s', l))
    (hdead : s.region.slot hd = none) (hn : x.Names hd) (hne : l.begins t = false)
    (ha : s.dead (s.threads t).pid = false) :
    (s'.threads t).pc.wayOut s'.region + (if l.isStep t then 1 else 0) ≤
      (s.threads t).pc.wayOut s.region := by
  cases Sys.step_inv hs with
  | @call u cl _ _ =>
    have hut : ¬ t = u := fun e => by
      rw [e] at hne
      simp [Label.begins] at hne
    rw [Sys.entered_pc, if_neg hut]
    exact le_refl _
  | @tick u o ins pc' hua ht =>
    rw [Sys.after_pc]
    by_cases hut : t = u
    · subst hut
      obtain ⟨c, p, hpc, hargs, _⟩ : ∃ c p, (s.threads t).pc = .wait c p ∧ c.toWaitArgs = x ∧
          c.timeout = timeout := by
        rcases hr with ⟨hcall, _⟩ | hdone
        · exact Pc.wait_of_call hcall
        · rw [hdone] at ht
          cases ht
      have hsteady := hi.steady ha
      rw [hpc] at ht hsteady ⊢
      -- the wait is not convinced of a dead handle
      have hconv : p.convinced = false := by
        by_contra hcon
        rw [Bool.not_eq_false] at hcon
        have hres := htr.resolves ha hpc hcon (hargs ▸ hn)
        rw [hdead] at hres
        cases hres
      have htail : ∀ seq, p = .sleep seq .tail → pc' ≠ .wait c p := by
        rintro seq rfl rfl
        have hseq := (hro c _ seq ha hpc rfl).1
        simp only [tick, waitTick, sleepTick, WaitCtx.goto] at ht
        rw [if_pos (.inl hseq)] at ht
        cases ht
      have hstep : (Label.instr t (s.threads t).pid ins).isStep t = true := decide_eq_true rfl
      rw [if_pos rfl, if_pos hstep]
      cases tick_inv ht with
      | wait hg =>
        exact hg.wayOut hsteady (WaitPc.wayOut_pos hconv) htail
    · have hstep : (Label.instr u (s.threads u).pid ins).isStep t = false :=
        decide_eq_false fun e => hut e.symm
      rw [if_neg hut, if_neg (by rw [hstep]; exact Bool.false_ne_true)]
      exact ((s.threads t).pc.wayOut_congr fun hl => hi.nodes.waiting_others ha hl hua hut ht).le
  | die => exact le_refl _

/-! ### The runs after a close -/

/-- The runs that close safely and in which thread `t` enters no other call. -/
abbrev WaitingRun (t : T) (s : Sys T) (h : List (Label T)) (s' : Sys T) : Prop :=
  Run Sys.step (fun s l _ => ClosesSafely s l ∧ l.begins t = false) s h s'

/-- The step frees the slot of `hd`, which resolves, under the wait `c` of thread `t`, which has not
    settled on its outcome. -/
structure ClosedUnder (t : T) (c : WaitCtx) (hd : U32) (s : Sys T) (l : Label T) : Prop where
  waits : ∃ p, (s.threads t).pc = .wait c p
  undecided : (s.threads t).pc.report = none
  names : c.Names hd
  resolves : s.region.slot hd = some (handleIndex hd)
  frees : l.frees = some (handleIndex hd)

omit [DecidableEq T] in
/-- A refused wait was given the dead handle. -/
theorem Refused.names (hr : Refused t (.wait x timeout) s) (hn : x.Names hd) (c : WaitCtx) (p : WaitPc)
    (hpc : (s.threads t).pc = .wait c p) : c.Names hd := by
  rcases hr with ⟨hcall, _⟩ | hdone
  · rw [hpc] at hcall
    cases hcall
    exact hn
  · rw [hpc] at hdone
    cases hdone

omit [DecidableEq T] in
/-- The number of frees grows. -/
theorem freed_le_cons (i : Nat) (l : Label T) (h : List (Label T)) : freed i h ≤ freed i (l :: h) := by
  cases hl : l.frees with
  | none => exact (freed_cons_none h hl).ge
  | some j =>
    rw [freed_cons_some h hl]
    exact Nat.le_add_right _ _

/-- What holds since a close under a wait, `h` being the history since that step and `l` the step.
    -/
structure SinceClose (t : T) (c : WaitCtx) (hd : U32) (h₁ : List (Label T)) (l : Label T)
    (h : List (Label T)) (s : Sys T) : Prop where
  inv : ClosingInv (h ++ l :: h₁) s
  dead : s.region.slot hd = none
  refused : Refused t (.wait c.toWaitArgs c.timeout) s

section Closed

variable {pid : T → U32}

/-- **From the step that frees the slot on**, the handle is dead and the wait refused. -/
theorem SinceClose.of_run (hpid : ∀ t, pid t ≠ 0)
    (hr₁ : Run Sys.step (fun s l _ => ClosesSafely s l) (Sys.rest Region.init pid) h₁ s₁)
    (hs : s₁.step a = some (s₂, l)) (hok : ClosesSafely s₁ l) (hc : ClosedUnder t c hd s₁ l)
    (hr : WaitingRun t s₂ h s) (hwrap : freed (handleIndex hd) (h ++ [l]) < 2 ^ 32) :
    SinceClose t c hd h₁ l h s := by
  have hdead : ∀ {h s}, WaitingRun t s₂ h s → freed (handleIndex hd) (h ++ [l]) < 2 ^ 32 →
      ClosingInv (h ++ l :: h₁) s ∧ s.region.slot hd = none := by
    intro h s hr hwrap
    have hi : ClosingInv (h ++ l :: h₁) s :=
      .of_run hpid ((hr₁.snoc hs hok).trans (hr.mono fun _ _ _ hok => hok.1))
    have hi' : ClosingInv ((h ++ [l]) ++ h₁) s := by
      rw [List.append_assoc]
      exact hi
    refine ⟨hi, slot_stays_dead (.of_run hpid hr₁) hi' hc.resolves ?_ hwrap⟩
    rw [freed_append, freed_cons_some [] hc.frees, if_pos rfl]
    omega
  obtain ⟨p, hpc⟩ := hc.waits
  induction hr with
  | nil =>
    obtain ⟨hi, hno⟩ := hdead .nil hwrap
    exact ⟨hi, hno, .of_free hs hc.frees hpc hc.undecided⟩
  | snoc hr hst hok ih =>
    have hbefore := ih ((freed_le_cons _ _ _).trans_lt hwrap)
    obtain ⟨hi, hno⟩ := hdead (hr.snoc hst hok) hwrap
    exact ⟨hi, hno, hbefore.refused.step hbefore.inv.trust hi.alert hst hok.2 hc.names hbefore.dead⟩

end Closed

/-- Thread `t` comes out of the call with `Invalid`: in every run from `s` that frees slot `i` fewer
    than `k` times, it takes a bounded number of steps, does not sleep, and until it has returned it
    can make its next step whenever no other thread holds the region lock. -/
def ComesOut (t : T) (cl : Call) (i k : Nat) (s : Sys T) : Prop :=
  ∃ n, ∀ h s', WaitingRun t s h s' → freed i h < k →
    h.countP (Label.isStep t) ≤ n ∧
    (s'.dead (s'.threads t).pid = false → s'.asleep t = false ∧
      ((s'.threads t).pc = .done cl (.wait .invalid) ∨
        (s'.lock = none ∨ s'.lock = some t → ∀ o, (s'.step (.tick t o)).isSome = true)))

omit [DecidableEq T] in
/-- A thread that is roused is not asleep. -/
theorem Roused.not_asleep (hro : Roused t s) (ha : s.dead (s.threads t).pid = false) :
    s.asleep t = false := by
  by_contra hne
  rw [Bool.not_eq_false] at hne
  obtain ⟨c, seq, hpc, hseq⟩ := Sys.parked_of_asleep hne
  exact (hro c _ seq ha hpc rfl).1 hseq

/-- A refused wait has returned, or it can make its next step unless it waits for the lock. -/
theorem SinceClose.next (hi : SinceClose t c hd h₁ l h s) (ha : s.dead (s.threads t).pid = false) :
    (s.threads t).pc = .done (.wait c.toWaitArgs c.timeout) (.wait .invalid) ∨
      (s.lock = none ∨ s.lock = some t → ∀ o, (s.step (.tick t o)).isSome = true) := by
  rcases hi.refused with ⟨hcall, _⟩ | hdone
  · obtain ⟨c', p, hpc, _⟩ := Pc.wait_of_call hcall
    refine .inr fun hlock o => ?_
    rcases hlock with hfree | hown
    · exact hi.inv.progress.next ha (by rw [hpc]; rfl) (by rw [hpc]; simp) (fun _ => hfree) o
    · exact hi.inv.progress.holder hown o
  · exact .inl hdone

/-- The dead make no steps and stay dead. -/
theorem Sys.dead_stays (hs : s.step a = some (s', l)) (ha : s.dead (s.threads t).pid = true) :
    l.isStep t = false ∧ s'.dead (s'.threads t).pid = true := by
  cases Sys.step_inv hs with
  | call =>
    rw [Sys.entered_dead, Sys.entered_pid]
    exact ⟨rfl, ha⟩
  | @tick u o ins pc' hua _ =>
    rw [Sys.after_dead, Sys.after_pid]
    refine ⟨decide_eq_false fun hut => ?_, ha⟩
    rw [hut, ha] at hua
    cases hua
  | die =>
    rw [Sys.died_dead, Sys.died_threads, ha, Bool.or_true]
    exact ⟨rfl, rfl⟩

/-- A step of the way out, alive or dead. -/
theorem SinceClose.count (hi : SinceClose t c hd h₁ l h s) (hro : Roused t s) (hn : c.Names hd)
    {l' : Label T} (hs : s.step a = some (s', l')) (hne : l'.begins t = false) {n k : Nat}
    (hle : k ≤ n) (hway : s.dead (s.threads t).pid = false →
      (s.threads t).pc.wayOut s.region + k ≤ n) :
    k + (if l'.isStep t then 1 else 0) ≤ n ∧ (s'.dead (s'.threads t).pid = false →
      (s'.threads t).pc.wayOut s'.region + (k + if l'.isStep t then 1 else 0) ≤ n) := by
  cases ha : s.dead (s.threads t).pid with
  | false =>
    have hstep := hi.inv.progress.wayOut_step hi.inv.trust hro hi.refused hs hi.dead hn hne ha
    have hbefore := hway ha
    exact ⟨by omega, fun _ => by omega⟩
  | true =>
    obtain ⟨hno, ha'⟩ := Sys.dead_stays hs ha
    rw [hno, ha']
    exact ⟨hle, fun h => by cases h⟩

section Comes

variable {pid : T → U32} {h₀ : List (Label T)} {s₀ : Sys T}

/-- **Once the lock is free, the wait comes out.** -/
theorem ComesOut.of_close (hpid : ∀ t, pid t ≠ 0)
    (hr₁ : Run Sys.step (fun s l _ => ClosesSafely s l) (Sys.rest Region.init pid) h₁ s₁)
    (hs : s₁.step a = some (s₂, l)) (hok : ClosesSafely s₁ l) (hc : ClosedUnder t c hd s₁ l)
    (hr₀ : WaitingRun t s₂ h₀ s₀) (hwrap : freed (handleIndex hd) (h₀ ++ [l]) < 2 ^ 32)
    (hlock : s₀.lock = none) :
    ComesOut t (.wait c.toWaitArgs c.timeout) (handleIndex hd)
      (2 ^ 32 - freed (handleIndex hd) (h₀ ++ [l])) s₀ := by
  have hsince : ∀ {h s}, WaitingRun t s₀ h s →
      freed (handleIndex hd) h < 2 ^ 32 - freed (handleIndex hd) (h₀ ++ [l]) →
      SinceClose t c hd h₁ l (h ++ h₀) s := by
    intro h s hr hlt
    refine .of_run hpid hr₁ hs hok hc (hr₀.trans hr) ?_
    rw [List.append_assoc, freed_append]
    omega
  have hrun : ∀ {h s}, WaitingRun t s₀ h s →
      freed (handleIndex hd) h < 2 ^ 32 - freed (handleIndex hd) (h₀ ++ [l]) →
      Roused t s ∧ h.countP (Label.isStep t) ≤ (s₀.threads t).pc.wayOut s₀.region ∧
        (s.dead (s.threads t).pid = false → (s.threads t).pc.wayOut s.region +
          h.countP (Label.isStep t) ≤ (s₀.threads t).pc.wayOut s₀.region) := by
    intro h s hr
    induction hr with
    | nil =>
      intro hlt
      have hi := hsince .nil hlt
      exact ⟨hi.inv.entry.roused hlock hi.dead (hi.refused.names hc.names), Nat.zero_le _,
        fun _ => le_refl _⟩
    | snoc hr hst hok ih =>
      intro hlt
      have hlt' := (freed_le_cons _ _ _).trans_lt hlt
      obtain ⟨hro, hle, hway⟩ := ih hlt'
      have hi := hsince hr hlt'
      rw [List.countP_cons]
      exact ⟨hro.step hi.inv.entry hi.inv.trust hst hi.dead (hi.refused.names hc.names) hok.2,
        hi.count hro hc.names hst hok.2 hle hway⟩
  refine ⟨(s₀.threads t).pc.wayOut s₀.region, fun h s hr hlt => ?_⟩
  obtain ⟨hro, hle, _⟩ := hrun hr hlt
  exact ⟨hle, fun ha => ⟨hro.not_asleep ha, (hsince hr hlt).next ha⟩⟩

end Comes

/-- **A wait never panics**, in any run in which no alert is freed while a wait outside the region lock
    has looked it up and is going to look it up again.

    And **a concurrently closed alert or object makes the wait return `Invalid`**, in runs that close
    safely.  A wait settles on anything else only while all that it was given resolves.  From the step
    on that frees one of its handles, in a close or a reap, it settles on nothing but `Invalid`, wherever
    it stands; and as soon as the region lock is free, it is awake and on its way to its return. -/
theorem wait_never_panics {pid : T → U32} (hpid : ∀ t, pid t ≠ 0) :
    (∀ s₀ : Sys T, s₀.Idle → s₀.lock = none →
      ∀ h s, Run Sys.step (fun s l _ => Spares Pc.usesAlert s l) s₀ h s →
        ∀ t, (s.threads t).pc ≠ .panicked) ∧
    ∀ h₁ s₁, Run Sys.step (fun s l _ => ClosesSafely s l) (Sys.rest Region.init pid) h₁ s₁ →
      ∀ a s₂ l, s₁.step a = some (s₂, l) → ClosesSafely s₁ l → ∀ t c hd,
        (∀ p r, (s₁.threads t).pc = .wait c p → (s₁.threads t).pc.report = none →
          (s₂.threads t).pc.report = some r → r ≠ .invalid → c.Names hd →
          s₁.region.slot hd = some (handleIndex hd)) ∧
        (ClosedUnder t c hd s₁ l → ∀ h s, WaitingRun t s₂ h s →
          freed (handleIndex hd) (h ++ [l]) < 2 ^ 32 →
          Refused t (.wait c.toWaitArgs c.timeout) s ∧
          (s.lock = none → ComesOut t (.wait c.toWaitArgs c.timeout) (handleIndex hd)
            (2 ^ 32 - freed (handleIndex hd) (h ++ [l])) s)) := by
  refine ⟨fun s₀ hidle hlock h s hr t hpc => ?_, fun h₁ s₁ hr₁ a s₂ l hs hok t c hd =>
    ⟨fun p r hpc hrep hr hne hn => ?_, fun hc h s hr hwrap => ⟨?_, fun hlock => ?_⟩⟩⟩
  · have hinv : AlertInv s := hr.state_invariant (.of_idle hidle hlock)
      fun s a s' l hi hs hok => hi.step hs hok
    have hokay := hinv.ok t
    rw [hpc] at hokay
    exact hokay
  · exact (ClosingInv.of_run hpid hr₁).trust.settles hs hpc hrep hr hne hd hn
  · exact (SinceClose.of_run hpid hr₁ hs hok hc hr hwrap).refused
  · exact .of_close hpid hr₁ hs hok hc hr hwrap hlock

end Runs

/-! ### An event that is closed under its waiter -/

/-- Process 8 creates an event, process 7 waits for it and parks; then process 8 calls `close`, up
    to the store that frees the slot. -/
def closeParked : List (Action (Fin 2)) :=
  .call 1 (.create (.event true false)) :: List.replicate 18 (.tick 1 {}) ++
  .call 0 (.wait ⟨[1], 5, false, 0⟩ .never) :: List.replicate 20 (.tick 0 {}) ++
  .call 1 (.close 1) :: List.replicate 3 (.tick 1 {})

abbrev parkedWait : Sys (Fin 2) × List (Label (Fin 2)) :=
  reach Sys.step (fun s l _ => ClosesSafely s l) twoProcesses closeParked

/-- The wait at a program counter. -/
def Pc.wait? : Pc → Option (WaitCtx × WaitPc)
  | .wait c p => some (c, p)
  | _ => none

/-- The program counter of a wait, from its parts. -/
theorem Pc.eq_of_wait {pc : Pc} {x : WaitCtx × WaitPc} (h : pc.wait? = some x) :
    pc = .wait x.1 x.2 := by
  unfold Pc.wait? at h
  split at h <;> cases h
  rfl

/-- The waiter sleeps before the close and is awake after it, with nothing but `Invalid` to return.
    -/
theorem wait_never_panics_closeParked :
    ∃ a s₂ l h s, parkedWait.1.step a = some (s₂, l) ∧ WaitingRun 0 s₂ h s ∧
      parkedWait.1.asleep 0 = true ∧ s.asleep 0 = false ∧
      ∃ cl, Refused 0 cl s ∧ ComesOut 0 cl 1 (2 ^ 32 - 1) s := by
  have hrun₁ : Run Sys.step (fun s l _ => ClosesSafely s l) twoProcesses parkedWait.2 parkedWait.1 :=
    run_reach (by decide +kernel)
  obtain ⟨s₂, l, h, s, hs, hl, hr, hp⟩ := exists_step_run_of_exec Sys.step
    (fun s l _ => ClosesSafely s l ∧ l.begins 0 = false) (s := parkedWait.1) (a := .tick 1 {})
    (Q := fun _ l => ClosesSafely parkedWait.1 l ∧ l.frees = some 1)
    (P := fun h s => s.lock = none ∧ s.dead (s.threads 0).pid = false ∧ freed 1 h = 0)
    (List.replicate 6 (.tick 1 {})) (by decide +kernel)
  have hwait : ((parkedWait.1.threads 0).pc.wait?).any (fun x => decide (1 ∈ x.1.handles)) = true := by
    decide +kernel
  obtain ⟨x, hx, hmem⟩ := Option.any_eq_true _ _ |>.mp hwait
  have hc : ClosedUnder 0 x.1 1 parkedWait.1 l :=
    ⟨⟨x.2, Pc.eq_of_wait hx⟩, by decide +kernel, .inl (of_decide_eq_true hmem), by decide +kernel, hl.2⟩
  have hfreed : freed (handleIndex 1) (h ++ [l]) = 1 := by
    rw [freed_append, freed_cons_some [] hl.2, show handleIndex 1 = 1 from rfl, hp.2.2]
    rfl
  obtain ⟨hrefused, hout⟩ := ((wait_never_panics (by decide)).2 _ _ hrun₁ _ _ _ hs hl.1 0 x.1 1).2 hc h s
    hr (by rw [hfreed]; decide)
  have hcomes := hout hp.1
  rw [hfreed] at hcomes
  obtain ⟨n, hn⟩ := hcomes
  have hawake := ((hn [] s .nil (by decide)).2 hp.2.1).1
  exact ⟨_, s₂, l, h, s, hs, hr, by decide +kernel, hawake, _, hrefused, n, hn⟩

instance : (pc : Pc) → Decidable (pc = .panicked)
  | .panicked => isTrue rfl
  | .idle | .done _ _ | .op _ _ _ | .pulse _ _ | .wait _ _ | .create _ _ | .close _ _
  | .hold _ _ _ | .sweepDead _ => isFalse (nomatch ·)

/-- Process 7 waits for the second object, with the first as its alert; process 8 closes the alert
    between its validation on the fast path and the lookup that follows. -/
def closeAlert : List (Action (Fin 2)) :=
  .call 1 (.create (.event true false)) :: List.replicate 18 (.tick 1 {}) ++
  .call 1 (.create (.sem 0 1)) :: List.replicate 18 (.tick 1 {}) ++
  .call 0 (.wait ⟨[2], 5, false, 1⟩ .never) :: List.replicate 6 (.tick 0 {}) ++
  .call 1 (.close 1) :: List.replicate 4 (.tick 1 {}) ++ [.tick 0 {}]

/-- Process 7 waits for a semaphore with a token; process 8 closes it after the lookups of the fast
    path. -/
def closeObject : List (Action (Fin 2)) :=
  .call 1 (.create (.sem 1 1)) :: List.replicate 18 (.tick 1 {}) ++
  .call 0 (.wait ⟨[1], 5, false, 0⟩ .never) :: List.replicate 3 (.tick 0 {}) ++
  .call 1 (.close 1) :: List.replicate 8 (.tick 1 {})

/-- **A wait outruns a close**: it panics on the closed alert, and it takes the token of the closed
    semaphore and returns it. -/
theorem wait_outruns_close :
    (∃ h s, Run Sys.step (fun _ _ _ => True) twoProcesses h s ∧ (s.threads 0).pc = .panicked) ∧
    ∃ h₁ s₁ h₂ s₂, Run Sys.step (fun _ _ _ => True) twoProcesses h₁ s₁ ∧
      (s₁.threads 0).pc.report = none ∧ (s₁.threads 0).pc.outside = false ∧
      (s₁.threads 1).pc.outside = true ∧ s₁.region.slot 1 = none ∧
      Run Sys.step (fun _ _ _ => True) s₁ h₂ s₂ ∧
      (s₂.threads 0).pc.outside = true ∧ (s₂.threads 0).pc.report = some (.signaled 0 false) := by
  refine ⟨exists_run_of_exec _ _ _ (P := fun s : Sys (Fin 2) => (s.threads 0).pc = .panicked)
    closeAlert (by decide +kernel), ?_⟩
  have hrun₁ : Run Sys.step (fun _ _ _ => True) twoProcesses
      (reach Sys.step (fun _ _ _ => True) twoProcesses closeObject).2
      (reach Sys.step (fun _ _ _ => True) twoProcesses closeObject).1 := run_reach (by decide +kernel)
  obtain ⟨h₂, s₂, hr₂, hout, hrep⟩ := exists_run_of_exec Sys.step (fun _ _ _ => True)
    (reach Sys.step (fun _ _ _ => True) twoProcesses closeObject).1
    (P := fun s : Sys (Fin 2) => (s.threads 0).pc.outside = true ∧
      (s.threads 0).pc.report = some (.signaled 0 false))
    (List.replicate 3 (.tick 0 {})) (by decide +kernel)
  exact ⟨_, _, h₂, s₂, hrun₁, by decide +kernel, by decide +kernel, by decide +kernel, by decide +kernel,
    hr₂, hout, hrep⟩

end Ntsync
