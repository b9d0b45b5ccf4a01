import Mathlib
import Ntsync.Effects
import Ntsync.Open

namespace Ntsync

open Words Lts

/-!
# How often the automatic sweep runs

Every thread calls `auto_sweep_dead` on its way into a sleep.  Two gates keep the passes rare: a
thread-local counter lets only every 256th call of a thread read the clock at all, and the stamp
`sweep_ns` of the region, checked once without the lock and once under it, is claimed before the
scan.  Both hold over every run, with all calls of all threads interleaved and processes dying.

* `Sys.stepAt` — the system when all processes agree on the sweep interval;
* `ClaimsApart` — the claims so far lie an interval apart, and the stamp is the newest of them;
* `GateInv` — what a thread's counter knows about its calls since its last claim;
* `auto_sweep_rate` — the two rates.
-/

variable {T : Type}

/-- The clock and the kernel answer as `o` says, the sweep interval is `I`. -/
def Oracle.every (I : U64) (o : Oracle) : Oracle := { o with interval := I }

/-- All processes read the sweep interval `I`. -/
def Action.every (I : U64) : Action T → Action T
  | .tick t o => .tick t (o.every I)
  | a => a

/-- A step of the system in which every process uses the sweep interval `I`. -/
def Sys.stepAt [DecidableEq T] (I : U64) (s : Sys T) (a : Action T) : Option (Sys T × Label T) :=
  s.step (a.every I)

/-- The claim of a sweep pass, by any thread. -/
def Label.claim? : Label T → Option U64
  | .instr _ _ (.claim now) => some now
  | _ => none

/-- The claim times of a history, newest first. -/
def claimTimes (h : List (Label T)) : List U64 := h.filterMap Label.claim?

/-- A call of `auto_sweep_dead` by thread `t`. -/
def Label.counts [DecidableEq T] (t : T) : Label T → Bool
  | .instr u _ .countCall => decide (u = t)
  | _ => false

/-! ### Steps of the gate -/

section Gates

variable {o : Oracle} {sh : Shared T} {pid : U32} {calls : U64} {pc pc' : Pc} {ins : Instr}

/-- Past the counter gate, before the claim. -/
def Pc.gated : Pc → Bool
  | .wait _ (.sweep _ _ .lock) | .wait _ (.sweep _ _ .recheck) => true
  | _ => false

/-- A call starts in front of the gate. -/
theorem Pc.start_gated (c : Call) : (Pc.start c).gated = false := by
  cases c <;> simp only [Pc.start] <;> (try split) <;> rfl

/-- Outside of all calls nobody is behind the gate. -/
theorem Pc.gated_of_outside {pc : Pc} (h : pc.outside = true) : pc.gated = false := by
  cases pc <;> first | rfl | cases h

/-- The instructions of the two gates. -/
def Instr.paces : Instr → Bool
  | .claim _ | .countCall => true
  | _ => false

/-- Only `auto_sweep_dead` moves towards a claim. -/
theorem WaitGo.sweep_of_gated {c : WaitCtx} {p : WaitPc} (hg : WaitGo o sh pid c p ins pc')
    (h : pc'.gated = true) : ∃ seq timedOut q, p = .sweep seq timedOut q := by
  cases hg with
  | sweep => exact ⟨_, _, _, rfl⟩
  | fast hg =>
    exfalso
    cases hg with
    | lookOther | seq =>
      unfold WaitCtx.fastNext at h
      split at h
      · cases h
      · split at h <;> cases h
    | _ => cases h
  | pass hg =>
    exfalso
    cases hg with
    | validateFirst | validate =>
      unfold WaitCtx.validateNext at h
      split at h
      · cases h
      · split at h
        · cases h
        · unfold WaitCtx.afterAlert at h
          split at h <;> cases h
    | alertClear =>
      unfold WaitCtx.afterAlert at h
      split at h <;> cases h
    | _ => cases h
  | noSpin | spinStart => cases h
  | spin hg => cases hg <;> cases h
  | sleep hg =>
    exfalso
    cases hg with
    | again | woken =>
      unfold afterFutex at h
      split at h <;> cases h
    | _ => cases h
  | detach hg => cases hg <;> cases h
  | clean hg => cases hg <;> cases h

/-- Behind the gate there are only automatic sweeps. -/
theorem PcGo.sweep_of_gated (hg : PcGo sh pid o pc ins pc') (h : pc'.gated = true) :
    ∃ c seq timedOut q, pc = .wait c (.sweep seq timedOut q) := by
  cases hg with
  | wait hg =>
    obtain ⟨seq, timedOut, q, rfl⟩ := hg.sweep_of_gated h
    exact ⟨_, seq, timedOut, q, rfl⟩
  | op hg => cases hg <;> cases h
  | pulse hg => cases hg <;> cases h
  | create hg => cases hg <;> cases h
  | close hg => cases hg <;> cases h
  | hold hg => cases hg <;> cases h
  | sweepDead hg => cases hg <;> cases h

/-- An attempt to acquire paces nothing. -/
theorem satInstr_paces (a : WaitArgs) (w : Option SatWrite) : (satInstr a w).paces = false := by
  cases w with
  | none => rfl
  | some w => cases w <;> rfl

/-- A detach paces nothing. -/
theorem detachInstr_paces (n : Nat) : (detachInstr sh n).paces = false := by
  unfold detachInstr
  split <;> rfl

/-- A sweep proper paces nothing. -/
theorem Instr.paces_of_sweeps {ins : Instr} (h : ins.sweeps = true) : ins.paces = false := by
  cases ins <;> first | rfl | cases h

/-- Only the automatic sweep of a wait counts calls or claims the interval. -/
theorem WaitGo.sweep_of_paces {c : WaitCtx} {p : WaitPc} (hg : WaitGo o sh pid c p ins pc')
    (h : ins.paces = true) : ∃ seq timedOut q, p = .sweep seq timedOut q := by
  cases hg with
  | sweep => exact ⟨_, _, _, rfl⟩
  | fast hg =>
    exfalso
    cases hg with
    | sat | win | failZero | fail => rw [satInstr_paces] at h; cases h
    | _ => cases h
  | pass hg =>
    exfalso
    cases hg with
    | sat | win | fail => rw [satInstr_paces] at h; cases h
    | _ => cases h
  | noSpin | spinStart => cases h
  | spin hg =>
    exfalso
    cases hg with
    | sat | win | fail => rw [satInstr_paces] at h; cases h
    | _ => cases h
  | sleep hg => cases hg <;> cases h
  | detach hg =>
    exfalso
    cases hg with
    | detach | last => rw [detachInstr_paces] at h; cases h
    | _ => cases h
  | clean hg =>
    exfalso
    cases hg with
    | detach => rw [detachInstr_paces] at h; cases h
    | _ => cases h

/-- The same of all calls. -/
theorem PcGo.sweep_of_paces (hg : PcGo sh pid o pc ins pc') (h : ins.paces = true) :
    ∃ c seq timedOut q, pc = .wait c (.sweep seq timedOut q) := by
  have hwalk {w : Walk} {i : Nat} {q : Out Walk Unit} (hw : w.step sh.region i = some (ins, q)) :
      False := by
    rw [Instr.paces_of_sweeps (Instr.sweeps_of_walks (Walk.step_walks hw))] at h
    cases h
  have hsweep {p : SweepPc} {q : Out SweepPc Nat} (hs : p.step false sh = some (ins, q)) :
      False := by
    rw [Instr.paces_of_sweeps (SweepPc.step_sweeps hs)] at h
    cases h
  cases hg with
  | wait hg =>
    obtain ⟨seq, timedOut, q, rfl⟩ := hg.sweep_of_paces h
    exact ⟨_, seq, timedOut, q, rfl⟩
  | op hg =>
    cases hg with
    | walk hw | walked hw => exact (hwalk hw).elim
    | _ => cases h
  | pulse hg =>
    cases hg with
    | walk hw | walked hw => exact (hwalk hw).elim
    | _ => cases h
  | create hg =>
    cases hg with
    | run hs | retry hs | giveUp hs => exact (hsweep hs).elim
    | _ => cases h
  | close hg =>
    cases hg with
    | walk hw | walked hw => exact (hwalk hw).elim
    | _ => cases h
  | hold hg => cases hg <;> cases h
  | sweepDead hg =>
    cases hg with
    | run hs | swept hs => exact (hsweep hs).elim
    | _ => cases h

/-- Towards a claim a thread passes the counter gate, and then only takes the lock. -/
theorem tick_gated (ht : tick o sh pid calls pc = some (ins, pc')) (h : pc'.gated = true) :
    pc.gated = true ∧ ins = .lock ∨ ins = .countCall ∧ calls &&& 0xFF = 0 := by
  obtain ⟨c, seq, timedOut, q, rfl⟩ := (tick_inv ht).sweep_of_gated h
  replace ht : autoTick o sh calls c seq timedOut q = some (ins, pc') := ht
  cases q with
  | gate =>
    simp only [autoTick] at ht
    split at ht <;> cases ht
    · cases timedOut <;> cases h
    · rename_i hopen
      obtain ⟨hcalls, -⟩ := not_or.mp hopen
      exact .inr ⟨rfl, not_not.mp hcalls⟩
  | lock =>
    obtain ⟨-, rfl, -⟩ := takeLock_inv ht
    exact .inl ⟨rfl, rfl⟩
  | recheck =>
    simp only [autoTick, WaitCtx.goto] at ht
    split at ht <;> cases ht <;> cases h
  | run p =>
    simp only [autoTick] at ht
    split at ht <;> cases ht <;> cases h
  | unlock => cases ht; cases timedOut <;> cases h

/-- A claim is made past the gate, when the interval has elapsed since the stamp. -/
theorem tick_claim {now : U64} (ht : tick o sh pid calls pc = some (.claim now, pc')) :
    pc.gated = true ∧ pc'.gated = false ∧
      (o.interval ≠ 0 → sh.region.sweepNs.toNat + o.interval.toNat ≤ now.toNat) := by
  obtain ⟨c, seq, timedOut, q, rfl⟩ := (tick_inv ht).sweep_of_paces rfl
  replace ht : autoTick o sh calls c seq timedOut q = some (.claim now, pc') := ht
  cases q with
  | gate =>
    simp only [autoTick] at ht
    split at ht <;> cases ht
  | lock =>
    obtain ⟨-, hins, -⟩ := takeLock_inv ht
    cases hins
  | recheck =>
    simp only [autoTick, WaitCtx.goto] at ht
    split at ht
    · cases ht
    · rename_i hlate
      cases ht
      refine ⟨rfl, rfl, fun hne => ?_⟩
      have hpos : 0 < o.interval.toNat := (BitVec.toNat_pos _).mpr ((BitVec.pos_iff_ne_zero _).mpr hne)
      unfold sweepTooSoon at hlate
      omega
  | run p =>
    simp only [autoTick] at ht
    split at ht <;> rename_i hs <;> cases ht <;> cases SweepPc.step_sweeps hs
  | unlock => cases ht

end Gates

/-! ### The stamp -/

section Stamp

variable {r r' : Region}

/-- `node_alloc` leaves the sweep stamp alone. -/
theorem nodeAlloc_sweepNs {pid : U32} {n : Nat} (h : r.nodeAlloc pid = some (n, r')) :
    r'.sweepNs = r.sweepNs := by
  unfold Region.nodeAlloc at h
  cases hhead : r.nodeFreeHead with
  | some head =>
    simp only [hhead] at h
    cases h
    rfl
  | none =>
    simp only [hhead] at h
    split at h <;> rename_i htaken <;> split at htaken <;> cases htaken <;> cases h
    rfl

/-- `node_detach` leaves the sweep stamp alone. -/
theorem nodeDetach_sweepNs (n : Nat) : (r.nodeDetach n).sweepNs = r.sweepNs :=
  (r.nodeDetach_rest n).2.2.2

/-- `node_register` leaves the sweep stamp alone. -/
theorem nodeRegister_sweepNs (n i head : Nat) :
    (r.nodeRegister n i head).sweepNs = r.sweepNs := by
  unfold Region.nodeRegister
  simp only [Region.setSlot_sweepNs]
  split <;> rfl

/-- Only a claim writes the stamp. -/
theorem apply_sweepNs {sh : Shared T} {pid : U32} {ins : Instr} (t : T)
    (hc : ∀ now, ins ≠ .claim now) :
    (ins.apply t pid sh).region.sweepNs = sh.region.sweepNs := by
  cases ins with
  | claim now => exact absurd rfl (hc now)
  | allocNode =>
    simp only [Instr.apply]
    split
    · rename_i halloc
      exact nodeAlloc_sweepNs halloc
    · rfl
  | detach n => exact nodeDetach_sweepNs n
  | register n i head => exact nodeRegister_sweepNs n i head
  | _ => rfl

end Stamp

/-! ### The two rates -/

/-- The claims so far lie at least `I` apart, and the newest of them is the stamp. -/
structure ClaimsApart (I : U64) (h : List (Label T)) (s : Sys T) : Prop where
  apart : (claimTimes h).Pairwise fun newer older => older.toNat + I.toNat ≤ newer.toNat
  stamp : ∀ now, (claimTimes h).head? = some now → s.region.sweepNs = now

/-- The calls of `auto_sweep_dead` a thread has made since its last claim, if it made one. -/
def callsSince [DecidableEq T] (t : T) : List (Label T) → Option Nat
  | [] => none
  | .instr u _ (.claim _) :: h => if u = t then some 0 else callsSince t h
  | l :: h => if l.counts t then (callsSince t h).map (· + 1) else callsSince t h

/-- The counter of thread `t` counts its calls: past the gate it stands at 1 (modulo 256), and so
    it did at the last claim. -/
structure GateInv [DecidableEq T] (t : T) (h : List (Label T)) (s : Sys T) : Prop where
  gated : (s.threads t).pc.gated = true →
    (s.threads t).calls.toNat % 256 = 1 ∧ callsSince t h ≠ some 0
  since : ∀ n, callsSince t h = some n → (s.threads t).calls.toNat % 256 = (n + 1) % 256

section Runs

variable [DecidableEq T] {I : U64} {s₀ s s' : Sys T} {h : List (Label T)}

/-- What a step of a thread does to the stamp. -/
theorem Sys.stepAt_inv {a : Action T} {l : Label T} (hs : s.stepAt I a = some (s', l)) :
    (∃ t, ∃ o : Oracle, ∃ ins pc', s' = s.after t ins pc' ∧ l = .instr t (s.threads t).pid ins ∧
      tick (o.every I) s.toShared (s.threads t).pid (s.threads t).calls (s.threads t).pc
        = some (ins, pc')) ∨
    (∃ t c, s' = s.entered t c ∧ l = .call t c ∧ (s.threads t).pc.outside = true) ∨
    ∃ pid, s' = s.died pid ∧ l = .die pid := by
  cases a with
  | call t c =>
    cases Sys.step_inv hs with
    | call _ hout => exact .inr (.inl ⟨t, c, rfl, rfl, hout⟩)
  | tick t o =>
    cases Sys.step_inv hs with
    | tick _ ht => exact .inl ⟨t, o, _, _, rfl, rfl, ht⟩
  | die pid =>
    cases Sys.step_inv hs with
    | die => exact .inr (.inr ⟨pid, rfl, rfl⟩)

omit [DecidableEq T] in
/-- A step without a claim keeps the claims apart. -/
theorem ClaimsApart.keep {l : Label T} (hi : ClaimsApart I h s) (hl : l.claim? = none)
    (hstamp : s'.region.sweepNs = s.region.sweepNs) : ClaimsApart I (l :: h) s' := by
  have hclaims : claimTimes (l :: h) = claimTimes h := List.filterMap_cons_none hl
  constructor
  · rw [hclaims]
    exact hi.apart
  · rw [hclaims, hstamp]
    exact hi.stamp

/-- A claim comes an interval after the newest one, hence after all of them. -/
theorem ClaimsApart.step {a : Action T} {l : Label T} (hI : I ≠ 0) (hi : ClaimsApart I h s)
    (hs : s.stepAt I a = some (s', l)) : ClaimsApart I (l :: h) s' := by
  rcases Sys.stepAt_inv hs with ⟨t, o, ins, pc', rfl, rfl, ht⟩ | ⟨t, c, rfl, rfl, -⟩ | ⟨p, rfl, rfl⟩
  · by_cases hc : ∃ now, ins = .claim now
    · obtain ⟨now, rfl⟩ := hc
      have hlate : s.region.sweepNs.toNat + I.toNat ≤ now.toNat := (tick_claim ht).2.2 hI
      refine ⟨List.pairwise_cons.mpr ⟨fun old hold => ?_, hi.apart⟩, ?_⟩
      · show old.toNat + I.toNat ≤ now.toNat
        cases hh : claimTimes h with
        | nil =>
          have hold' : old ∈ claimTimes h := hold
          rw [hh] at hold'
          cases hold'
        | cons newest older =>
          have hold' : old ∈ claimTimes h := hold
          have hapart := hi.apart
          have hstamp : s.region.sweepNs = newest := hi.stamp newest (by rw [hh]; rfl)
          rw [hh] at hold' hapart
          rcases List.mem_cons.mp hold' with rfl | hold'
          · rw [← hstamp]
            exact hlate
          · have hnewest := (List.pairwise_cons.mp hapart).1 old hold'
            rw [← hstamp] at hnewest
            omega
      · intro now' hnow
        exact Option.some.inj hnow
    · have hno : ∀ now, ins ≠ .claim now := fun now h' => hc ⟨now, h'⟩
      refine hi.keep ?_ (apply_sweepNs t hno)
      cases ins <;> first | rfl | exact absurd rfl (hno _)
  · exact hi.keep rfl rfl
  · exact hi.keep rfl rfl

/-- A step that is neither a claim nor a call of thread `t` leaves its account alone. -/
theorem callsSince_cons {t : T} {l : Label T} (h : List (Label T))
    (hl : ∀ p ins, l = .instr t p ins → ins.paces = false) :
    callsSince t (l :: h) = callsSince t h := by
  cases l with
  | call | die => rfl
  | instr u p ins =>
    by_cases hu : u = t
    · subst hu
      have hins := hl p ins rfl
      cases ins <;> first | rfl | cases hins
    · cases ins <;> simp [callsSince, Label.counts, hu]

/-- A step that does not pace keeps the gate. -/
theorem GateInv.keep {t : T} {l : Label T} (hi : GateInv t h s)
    (hl : ∀ p ins, l = .instr t p ins → ins.paces = false)
    (hcalls : (s'.threads t).calls = (s.threads t).calls)
    (hgated : (s'.threads t).pc.gated = true → (s.threads t).pc.gated = true) :
    GateInv t (l :: h) s' := by
  constructor
  · intro hg
    rw [hcalls, callsSince_cons h hl]
    exact hi.gated (hgated hg)
  · rw [hcalls, callsSince_cons h hl]
    exact hi.since

/-- **Every step keeps the gate.** -/
theorem GateInv.step {t : T} {a : Action T} {l : Label T} (hi : GateInv t h s)
    (hs : s.stepAt I a = some (s', l)) : GateInv t (l :: h) s' := by
  rcases Sys.stepAt_inv hs with ⟨u, o, ins, pc', rfl, rfl, ht⟩ | ⟨u, c, rfl, rfl, -⟩ | ⟨p, rfl, rfl⟩
  · by_cases hu : u = t
    · subst hu
      have hafter : ((s.after u ins pc').threads u).calls
          = ins.countCalls (s.threads u).calls := by
        rw [Sys.after_threads, if_pos rfl]
      have hpc : ((s.after u ins pc').threads u).pc = pc' := by
        rw [Sys.after_pc, if_pos rfl]
      cases hins : ins.paces with
      | false =>
        refine hi.keep (fun p ins' he => by cases he; exact hins) ?_ ?_
        · rw [hafter]
          cases ins <;> first | rfl | cases hins
        · rw [hpc]
          intro hg
          rcases tick_gated ht hg with ⟨hg', -⟩ | ⟨rfl, -⟩
          · exact hg'
          · cases hins
      | true =>
        cases ins with
        | claim now =>
          -- the counter stands where the gate left it
          obtain ⟨hg, hg', -⟩ := tick_claim ht
          have hsince : callsSince u (.instr u (s.threads u).pid (.claim now) :: h) = some 0 :=
            if_pos rfl
          constructor
          · rw [hpc, hg']
            exact fun hf => by cases hf
          · intro n hn
            rw [hsince] at hn
            cases hn
            rw [hafter]
            exact (hi.gated hg).1
        | countCall =>
          have hsince : callsSince u (.instr u (s.threads u).pid .countCall :: h)
              = (callsSince u h).map (· + 1) := by
            simp [callsSince, Label.counts]
          have hadd : ((s.threads u).calls + 1).toNat % 256
              = ((s.threads u).calls.toNat + 1) % 256 := by
            rw [BitVec.toNat_add]
            show ((s.threads u).calls.toNat + 1) % 2 ^ 64 % 256 = _
            omega
          constructor
          · rw [hpc, hafter, hsince]
            intro hg
            rcases tick_gated ht hg with ⟨-, hlock⟩ | ⟨-, hopen⟩
            · cases hlock
            · have hmod : (s.threads u).calls.toNat % 256 = 0 := by
                have hand := congrArg BitVec.toNat hopen
                rw [BitVec.toNat_and] at hand
                have hmask := Nat.and_two_pow_sub_one_eq_mod (s.threads u).calls.toNat 8
                exact hmask.symm.trans hand
              refine ⟨?_, ?_⟩
              · show ((s.threads u).calls + 1).toNat % 256 = 1
                omega
              · cases callsSince u h <;> simp
          · intro n hn
            rw [hsince] at hn
            obtain ⟨m, hm, rfl⟩ := Option.map_eq_some_iff.mp hn
            have hprev := hi.since m hm
            rw [hafter]
            show ((s.threads u).calls + 1).toNat % 256 = _
            omega
        | _ => cases hins
    · have hthread : (s.after u ins pc').threads t = s.threads t := by
        rw [Sys.after_threads, if_neg (Ne.symm hu)]
      refine hi.keep (fun p ins' he => ?_) (by rw [hthread]) (by rw [hthread]; exact id)
      cases he
      exact absurd rfl hu
  · refine hi.keep (fun p ins he => by cases he) ?_ ?_
    · unfold Sys.entered
      by_cases hu : t = u
      · subst hu
        simp
      · simp [hu]
    · rw [Sys.entered_pc]
      split
      · rw [Pc.start_gated]
        exact fun hf => by cases hf
      · exact id
  · exact hi.keep (fun p ins he => by cases he) rfl id

/-- The calls since the last claim of a history are among those since any claim in it. -/
theorem callsSince_le {t : T} {p : U32} {a : U64} (h₁ h₀ : List (Label T)) :
    ∃ n, callsSince t (h₁ ++ .instr t p (.claim a) :: h₀) = some n ∧
      n ≤ h₁.countP (Label.counts t) := by
  induction h₁ with
  | nil => exact ⟨0, if_pos rfl, Nat.zero_le _⟩
  | cons l h₁ ih =>
    obtain ⟨n, hn, hle⟩ := ih
    rw [List.cons_append]
    by_cases hpace : ∀ q ins, l = .instr t q ins → ins.paces = false
    · refine ⟨n, by rw [callsSince_cons _ hpace]; exact hn, le_trans hle ?_⟩
      exact (List.sublist_cons_self l h₁).countP_le
    · push Not at hpace
      obtain ⟨q, ins, rfl, hins⟩ := hpace
      cases ins with
      | claim b => exact ⟨0, if_pos rfl, Nat.zero_le _⟩
      | countCall =>
        refine ⟨n + 1, ?_, ?_⟩
        · simp [callsSince, Label.counts, hn]
        · rw [List.countP_cons_of_pos (by simp [Label.counts])]
          omega
      | _ => exact absurd rfl hins

/-- Between two claims of thread `t` lie 256 of its calls. -/
def CallsApart (t : T) (h : List (Label T)) : Prop :=
  ∀ h₂ h₁ h₀ p q a b,
    h = h₂ ++ .instr t p (.claim b) :: (h₁ ++ .instr t q (.claim a) :: h₀) →
    256 ≤ h₁.countP (Label.counts t)

/-- **Every step keeps the counted calls apart.** -/
theorem CallsApart.step {t : T} {a : Action T} {l : Label T} (hi : GateInv t h s)
    (hc : CallsApart t h) (hs : s.stepAt I a = some (s', l)) : CallsApart t (l :: h) := by
  intro h₂ h₁ h₀ p q a b he
  cases h₂ with
  | cons l' h₂ =>
    injection he with _ he
    exact hc h₂ h₁ h₀ p q a b he
  | nil =>
    injection he with hl he
    subst hl
    rcases Sys.stepAt_inv hs with ⟨u, o, ins, pc', rfl, hl, ht⟩ | ⟨_, _, _, hl, _⟩ | ⟨_, _, hl⟩
    · cases hl
      obtain ⟨hmod, hne⟩ := hi.gated (tick_claim ht).1
      obtain ⟨n, hn, hle⟩ := callsSince_le (t := t) (p := q) (a := a) h₁ h₀
      rw [← he] at hn
      have hsince := hi.since n hn
      have hpos : n ≠ 0 := fun h0 => hne (by rw [hn, h0])
      omega
    · cases hl
    · cases hl

/-- **The automatic sweep is rate limited.**  In every run from an idle system in which all
    processes use the sweep interval `I ≠ 0`, any two claims lie at least `I` apart, and between two
    claims of one thread it calls `auto_sweep_dead` at least 256 times.  (The clock readings are
    arbitrary, so they may also be nondecreasing.) -/
theorem auto_sweep_rate (hI : I ≠ 0) (hidle : s₀.Idle)
    (hr : Run (Sys.stepAt I) (fun _ _ _ => True) s₀ h s) :
    ((claimTimes h).Pairwise fun newer older => older.toNat + I.toNat ≤ newer.toNat) ∧
      ∀ t, CallsApart t h := by
  have hclaims : ClaimsApart I h s := hr.invariant
    ⟨List.Pairwise.nil, fun now hnow => by cases hnow⟩ (fun _ _ _ _ _ hi hs _ => hi.step hI hs)
  refine ⟨hclaims.apart, fun t => ?_⟩
  have hstart : GateInv t [] s₀ := by
    refine ⟨fun hg => ?_, fun n hn => by cases hn⟩
    rw [Pc.gated_of_outside (hidle t)] at hg
    cases hg
  have hgate : GateInv t h s ∧ CallsApart t h := hr.invariant
    (I := fun h s => GateInv t h s ∧ CallsApart t h)
    ⟨hstart, fun h₂ _ _ _ _ _ _ he => by cases h₂ <;> cases he⟩
    (fun _ _ _ _ _ hi hs _ => ⟨hi.1.step hs, .step hi.1 hi.2 hs⟩)
  exact hgate.2

end Runs

/-- An unsignaled event in slot 1. -/
abbrev sweepRegion : Region := Region.init.created 1 (.event true false) 7

/-- Thread `t` waits for the event until it has claimed a sweep at `now` and begun to scan. -/
def claimsAt (t : Fin 2) (now : U64) : List (Action (Fin 2)) :=
  .call t (.wait { handles := [1], owner := 9, all := false, alert := 0 } .never) ::
    List.replicate 22 (.tick t { now := now })

/-- Two threads sweep, 30 seconds apart. -/
theorem auto_sweep_rate_two :
    ∃ h s, Run (Sys.stepAt 30000000000) (fun _ _ _ => True)
        (Sys.rest (T := Fin 2) sweepRegion fun _ => 7) h s ∧
      claimTimes h = [60000000007, 30000000000] ∧
      ((claimTimes h).Pairwise fun newer older => older.toNat + 30000000000 ≤ newer.toNat) ∧
      ∀ t, CallsApart t h := by
  obtain ⟨h, s, hr, hclaims⟩ := exists_history_of_exec (Sys.stepAt 30000000000)
    (fun _ _ _ => True) (Sys.rest (T := Fin 2) sweepRegion fun _ => 7)
    (P := fun h _ => claimTimes h = [60000000007, 30000000000])
    (claimsAt 0 30000000000 ++ claimsAt 1 60000000007) (by decide +kernel)
  exact ⟨h, s, hr, hclaims, auto_sweep_rate (by decide) (fun _ => rfl) hr⟩

end Ntsync
