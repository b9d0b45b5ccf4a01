import Mathlib
import Ntsync.Wakeups

namespace Ntsync

open Words Lts

/-!
# Pulses

`event_pulse` leaves the event unsignaled; what tells a wait of it is the pulse counter, which the wait
compares with the snapshot it took before it registered its nodes.

* `PulseInv` — the counter counts the pulses, and every snapshot is one of its earlier values;
* `Reached` — a wait-any that had its nodes when the pulse came does not fail an attempt that it
  begins afterwards, and its node for the event is taken off its list;
* `PresentInv.reaches` — so it neither sleeps on nor times out;
* `pulse_passes_latecomers` — a wait that begins after the pulse is not satisfied by it;
* `pulse_reaches_exactly` — both, for the runs from a fresh region.
-/

variable {T : Type}

/-! ### The counter and its snapshots -/

/-- A pulse of slot `i`. -/
def Label.pulses (i : Nat) : Label T → Bool
  | .instr _ _ (.storeD j _) => decide (j = i)
  | _ => false

/-- An event that stays open: its counter has moved from `d` by the pulses in the history, the
    snapshots are values it had, and a pulse under way knows its value. -/
structure PulseInv (i : Nat) (g : U32) (d : U64) (h : List (Label T)) (s : Sys T) : Prop where
  isOpen : OpenInv i g .event s
  count : (s.region.slots i).d = d + BitVec.ofNat 64 (h.countP (Label.pulses i))
  seqs : ∀ t, (s.threads t).pc.SeqOk i fun v =>
    ∃ n ≤ h.countP (Label.pulses i), v = d + BitVec.ofNat 64 n
  loaded : ∀ t hd prev e, (s.threads t).pc = .pulse hd (.storeD prev e) → handleIndex hd = i →
    e = (s.region.slots i).d

/-- At rest the event's counter is where it was found. -/
theorem PulseInv.of_idle {s : Sys T} {i : Nat} (hidle : s.Idle)
    (hu : (s.region.slots i).state = .used) (hty : (s.region.slots i).objType = .event) :
    PulseInv i (s.region.slots i).generation (s.region.slots i).d [] s := by
  have hopen := OpenInv.of_idle hidle hu
  rw [hty] at hopen
  refine ⟨hopen, (BitVec.add_zero _).symm, fun t => ?_, fun t hd prev e hpc => ?_⟩
  · rcases Pc.outside_cases (hidle t) with hpc | ⟨_, _, hpc⟩ <;> rw [hpc] <;> trivial
  · have hout := hidle t
    rw [hpc] at hout
    cases hout

/-- A weaker condition on the snapshots holds as well. -/
theorem Pc.SeqOk.mono {i : Nat} {S S' : U64 → Prop} {pc : Pc} (hS : ∀ v, S v → S' v)
    (h : pc.SeqOk i S) : pc.SeqOk i S' := by
  cases pc with
  | wait c p => exact ⟨h.fast, fun k hk hki => hS _ (h.seqs k hk hki)⟩
  | _ => trivial

section Steps

variable [DecidableEq T] {s s' : Sys T} {a : Action T} {l : Label T} {t u : T} {o : Oracle}
  {ins : Instr} {pc pc' : Pc} {c : WaitCtx} {p : WaitPc} {i k : Nat} {g : U32} {d : U64}
  {h : List (Label T)}

omit [DecidableEq T] in
/-- One more step pulses at most once. -/
theorem countP_pulses_cons : (l :: h).countP (Label.pulses i) =
    h.countP (Label.pulses i) + if l.pulses i then 1 else 0 := List.countP_cons

/-- **The pulses are counted**, in every step without deaths that leaves the event open. -/
theorem PulseInv.step (hi : PulseInv i g d h s) (hl : s.LockInv) (ha : ∀ x, s.dead x = false)
    (hs : s.step a = some (s', l)) (hlive : l.live = true) (hu : Stays i s') :
    PulseInv i g d (l :: h) s' := by
  have hopen := hi.isOpen.step hs hu
  cases Sys.step_inv hs with
  -- nothing is stored
  | @call t cl _ hout =>
    have hcnt : (Label.call t cl :: h).countP (Label.pulses i) = h.countP (Label.pulses i) := by
      rw [countP_pulses_cons]
      rfl
    refine ⟨hopen, by rw [hcnt]; exact hi.count, fun u => ?_, fun u hd prev e hpc hidx => ?_⟩
    · rw [Sys.entered_pc, hcnt]
      split
      · exact Pc.start_seqs cl
      · exact hi.seqs u
    · rw [Sys.entered_pc] at hpc
      split at hpc
      · cases cl with
        | pulse | sweepDead => cases hpc
        | _ =>
          simp only [Pc.start] at hpc
          split at hpc <;> cases hpc
      · exact hi.loaded u hd prev e hpc hidx
  | @tick t o ins pc' _ ht =>
    have hg := tick_inv ht
    obtain ⟨_, hd'⟩ := hi.isOpen.after_word (ha _) hg hu
    -- the counter moves with the history
    have hd : ((s.after t ins pc').region.slots i).d = (s.region.slots i).d +
        BitVec.ofNat 64 (if (Label.instr t (s.threads t).pid ins).pulses i then 1 else 0) := by
      rw [hd']
      cases ins with
      | storeD j v =>
        obtain ⟨hd, prev, e, hpc, rfl, rfl, _⟩ := hg.storeD
        by_cases hj : handleIndex hd = i
        · rw [hi.loaded t hd prev e hpc hj]
          simp [Instr.countAfter, Label.pulses, hj]
        · simp [Instr.countAfter, Label.pulses, hj, Ne.symm hj]
      | _ => exact (BitVec.add_zero _).symm
    have hcount : ((s.after t ins pc').region.slots i).d = d + BitVec.ofNat 64
        ((Label.instr t (s.threads t).pid ins :: h).countP (Label.pulses i)) := by
      rw [hd, hi.count, countP_pulses_cons, BitVec.ofNat_add, BitVec.add_assoc]
    have hle : h.countP (Label.pulses i) ≤
        (Label.instr t (s.threads t).pid ins :: h).countP (Label.pulses i) := by
      rw [countP_pulses_cons]
      exact Nat.le_add_right _ _
    refine ⟨hopen, hcount, fun u => ?_, fun u hd prev e hpc hidx => ?_⟩
    · let seen : U64 → Prop := fun v =>
        ∃ n ≤ (Label.instr t (s.threads t).pid ins :: h).countP (Label.pulses i),
          v = d + BitVec.ofNat 64 n
      have hkeep : (s.threads u).pc.SeqOk i seen := by
        refine (hi.seqs u).mono fun v hv => ?_
        obtain ⟨n, hn, hv⟩ := hv
        exact ⟨n, hn.trans hle, hv⟩
      rw [Sys.after_pc]
      split
      · rename_i hut
        rw [hut] at hkeep
        exact hg.seqs hi.isOpen.holds.typ ⟨_, hle, hi.count⟩ hkeep
      · exact hkeep
    · rw [Sys.after_pc] at hpc
      split at hpc
      · subst hpc
        obtain ⟨p₀, _, hp⟩ := hg.of_pulse
        cases hp with
        | loadD =>
          rw [hd, hidx]
          exact (BitVec.add_zero _).symm
      · rename_i hut
        rw [hi.loaded u hd prev e hpc hidx]
        rw [hd']
        -- no other pulse holds the lock
        cases ins with
        | storeD j v =>
          obtain ⟨hd', prev', e', hpc', _⟩ := hg.storeD
          exact absurd (hl.unique (by rw [hpc]; rfl) (ha _) (by rw [hpc']; rfl) (ha _)) hut
        | _ => rfl
  | die => cases hlive

end Steps

/-! ### The waits that are present -/

/-- Where a wait-any can be that was present at a pulse of its position `k`. -/
def WaitPc.reached (k : Nat) : WaitPc → Bool
  | .fast _ | .pass .alloc | .pass .sample => false
  | .pass (.sat (.any j _)) => decide (j ≤ k)
  | .pass (.sat _) => false
  | .clean r _ => decide (r ≠ .timeout)
  | _ => true

section Phases

variable {o : Oracle} {sh : Shared T} {pid : U32} {ins : Instr} {c c' : WaitCtx} {p : WaitPc}
  {pc' : Pc} {i k : Nat} {r : WaitOutcome}

/-- A wait that goes on to its cleanup without the lock has not timed out. -/
theorem WaitGo.cleans (hg : WaitGo o sh pid c p ins (.wait c' (.clean r .lock))) :
    r ≠ .timeout := by
  generalize hpc : Pc.wait c' (.clean r .lock) = pc' at hg
  cases hg with
  | fast hg =>
    cases hg with
    | lookOther | seq =>
      simp only [Pc.wait.injEq] at hpc
      -- the fast path has not come to its cleanup
      have hfast := WaitCtx.isFast_fastNext c ‹_›
      rw [← hpc.2] at hfast
      cases hfast
    | _ => cases hpc
  | pass hg =>
    have hnext : ∀ j, c.validateNext j ≠ .clean r .lock := by
      intro j
      unfold WaitCtx.validateNext WaitCtx.afterAlert
      split
      · simp
      · split
        · simp
        · split <;> simp
    cases hg with
    | validateFirst | validate =>
      simp only [Pc.wait.injEq] at hpc
      exact absurd hpc.2.symm (hnext _)
    | alertClear =>
      simp only [Pc.wait.injEq] at hpc
      have hp := hpc.2
      unfold WaitCtx.afterAlert at hp
      split at hp <;> cases hp
    | _ => cases hpc
  | spin hg =>
    cases hg with
    | alerted | win =>
      cases hpc
      intro h
      cases h
    | _ => cases hpc
  | @sweep seq timedOut q _ _ hg =>
    cases hg with
    | skip | unlock => cases timedOut <;> cases hpc
    | _ => cases hpc
  | sleep hg =>
    cases hg with
    | again | woken =>
      unfold afterFutex at hpc
      split at hpc <;> cases hpc
    | _ => cases hpc
  | clean hg => cases hg <;> cases hpc
  | detach hg => cases hg <;> cases hpc
  | _ => cases hpc

/-- An attempt at position `k` does not fail after a pulse. -/
theorem Acq.no_fail {x : Slot} {owner : U32} {q : Acq} {v : U64} {w : Option U64}
    (hf : q.fits x.objType) (hev : x.objType = .event) (hd : x.d ≠ v) :
    q.step x owner v ≠ (w, .done none) := by
  intro hs
  obtain ⟨_, ⟨_, he⟩ | hno⟩ := Acq.step_fail hf hs
  · exact hd he
  · unfold isLocked at hno
    rw [hev] at hno
    simp [hd] at hno

/-- **The phases of a wait that a pulse has reached**: it goes on towards its next attempt, which
    does not fail. -/
theorem WaitGo.reached (hg : WaitGo o sh pid c p ins pc') (hany : c.all = false)
    (hnodes : c.nodes ≠ []) (hshape : (Pc.wait c p).Shape)
    (hk : k < c.handles.length) (hev : (sh.region.slots (c.slotOf k)).objType = .event)
    (hfits : ∀ q, p.sat? = some q →
      q.Fits c.toWaitArgs (c.slotOf k) (sh.region.slots (c.slotOf k)).objType)
    (hd : (sh.region.slots (c.slotOf k)).d ≠ c.seqs k) (hr : p.reached k = true) :
    (∃ p', pc' = .wait c p' ∧ p'.reached k = true) ∨ pc' = .panicked ∨
      ∃ r, pc' = c.ret r ∧ r ≠ .timeout := by
  cases hg with
  -- a wait with its nodes is past the fast path
  | fast => cases hr
  | pass hg =>
    have hafter : c.afterAlert.reached k = true := by
      unfold WaitCtx.afterAlert
      rw [if_neg hnodes]
      rfl
    have hnext : ∀ j, (c.validateNext j).reached k = true := by
      intro j
      unfold WaitCtx.validateNext
      split
      · rfl
      · split
        · rfl
        · exact hafter
    have hregister : ∀ j, (WaitPc.pass (c.registerNext j)).reached k = true := by
      intro j
      unfold WaitCtx.registerNext
      split
      · rfl
      · rw [hany]
        exact decide_eq_true (Nat.zero_le k)
    cases hg with
    | validateFirst _ _ hn => exact absurd hn hnodes
    | validate => exact .inl ⟨_, rfl, hnext _⟩
    | alertPanic => exact .inr (.inl rfl)
    | alertClear => exact .inl ⟨_, rfl, hafter⟩
    | registerSkip | register => exact .inl ⟨_, rfl, hregister _⟩
    | @sat q q' w hst =>
      refine .inl ⟨_, rfl, ?_⟩
      have hsh := hshape.2 q rfl
      cases hst with
      | anyMore => exact hr
      -- the attempts below `k` may fail, the one at `k` may not
      | @anyNext j q₀ _ hs =>
        have hj : j ≤ k := of_decide_eq_true hr
        have hjk : j ≠ k := by
          rintro rfl
          exact Acq.no_fail (hfits _ rfl rfl) hev hd hs
        exact decide_eq_true (by omega)
      | allMore | allTake | allUndo => cases hany.symm.trans hsh.2.1
      | undoMore | undoNext => cases hany.symm.trans hsh.1
    | @fail q w hst =>
      have hsh := hshape.2 q rfl
      exfalso
      cases hst with
      | @anyFail j q₀ _ hs hlast =>
        have hj : j ≤ k := of_decide_eq_true hr
        obtain rfl : j = k := by omega
        exact Acq.no_fail (hfits _ rfl rfl) hev hd hs
      | allFail => cases hany.symm.trans hsh.2.1
      | undoNil | undoLast => cases hany.symm.trans hsh.1
    -- the pass times out only after its attempts
    | allocFail | alloc | expired | sample => cases hr
    | _ => exact .inl ⟨_, rfl, rfl⟩
  | noSpin | spinStart => exact .inl ⟨_, rfl, rfl⟩
  | spin hg =>
    cases hg with
    | alertStateBad | alertGenBad => exact .inr (.inl rfl)
    | _ => exact .inl ⟨_, rfl, rfl⟩
  | @sweep seq timedOut q _ _ hg =>
    cases hg with
    | skip | unlock => cases timedOut <;> exact .inl ⟨_, rfl, rfl⟩
    | _ => exact .inl ⟨_, rfl, rfl⟩
  | sleep hg =>
    cases hg with
    | again | woken =>
      refine .inl ⟨_, rfl, ?_⟩
      unfold afterFutex
      split <;> rfl
    | _ => exact .inl ⟨_, rfl, rfl⟩
  | detach hg => cases hg <;> exact .inl ⟨_, rfl, rfl⟩
  | clean hg =>
    cases hg with
    | unlock => exact .inr (.inr ⟨_, rfl, of_decide_eq_true hr⟩)
    | _ => exact .inl ⟨_, rfl, hr⟩

end Phases

/-- A timed-out wait cleans up in the critical section in which it has timed out. -/
def TimeoutsLocked (s : Sys T) : Prop :=
  ∀ t c r, (s.threads t).pc = .wait c (.clean r .lock) → r ≠ .timeout

/-- The wait `c` of thread `t` was present at a pulse of its position `k`: it is on its way to its
    next attempt, and if it sleeps, its node for the event is off its list or a walk over the list
    is under way. -/
def Reached (t : T) (c : WaitCtx) (k : Nat) (s : Sys T) : Prop :=
  (∃ p, (s.threads t).pc = .wait c p ∧ p.reached k = true ∧ (p.sampled?.isSome = true →
      (s.region.nodes (c.node k)).registered = false ∨
        ∃ u, (s.threads u).pc.signals? = some (c.slotOf k))) ∨
    (s.threads t).pc = .panicked ∨ ∃ r, (s.threads t).pc = c.ret r ∧ r ≠ .timeout

/-- At rest nobody times out. -/
theorem TimeoutsLocked.of_idle {s : Sys T} (hidle : s.Idle) : TimeoutsLocked s := by
  intro t c r hpc
  rcases Pc.outside_cases (hidle t) with h | ⟨_, _, h⟩ <;> rw [h] at hpc <;> cases hpc

section Present

variable [DecidableEq T] {s s' : Sys T} {a : Action T} {l : Label T} {t u : T} {o : Oracle}
  {ins : Instr} {pc' : Pc} {c : WaitCtx} {p : WaitPc} {i k : Nat} {g : U32}

/-- **A timeout is decided on the fast path or under the lock.** -/
theorem TimeoutsLocked.step (hi : TimeoutsLocked s) (h : s.step a = some (s', l)) :
    TimeoutsLocked s' := by
  intro u c r hpc
  cases Sys.step_inv h with
  | @call t cl ha hout =>
    rw [Sys.entered_pc] at hpc
    split at hpc
    · cases cl with
      | pulse | sweepDead => cases hpc
      | _ =>
        simp only [Pc.start] at hpc
        split at hpc <;> cases hpc
    · exact hi u c r hpc
  | @tick t o ins pc' ha ht =>
    rw [Sys.after_pc] at hpc
    split at hpc
    · subst hpc
      obtain ⟨_, _, _, hg, _⟩ := (tick_inv ht).of_wait
      exact hg.cleans
    · exact hi u c r hpc
  | die => exact hi u c r hpc

omit [DecidableEq T] in
/-- A sleeper's node for position `k` stands for the object at this position. -/
theorem LiveInv.sleeper_entry (hi : LiveInv s) (hpc : (s.threads t).pc = .wait c p)
    (hs : p.sampled?.isSome = true) (hk : k < c.handles.length) :
    k < c.nodes.length ∧ c.node k ∈ (s.threads t).pc.waitNodes ∧
      ((s.region.nodes (c.node k)).registered = true →
        (s.region.nodes (c.node k)).obj = some (c.slotOf k)) := by
  obtain ⟨seq, hs⟩ := Option.isSome_iff_exists.mp hs
  obtain ⟨hwait, _, _, hlen⟩ := hi.sleeper hpc hs
  have hkn : k < c.nodes.length := by
    unfold WaitCtx.nNodes at hlen
    omega
  refine ⟨hkn, hwait ▸ WaitCtx.node_mem hkn, fun hreg => ?_⟩
  have hown : c.node k ∈ p.owned c := by
    rw [WaitPc.owned_sampled hs]
    exact WaitCtx.node_mem hkn
  rw [(hi.entry hpc hkn hown hreg).1, WaitCtx.target, if_pos hk]

/-- A step of another thread: a walk over the event's list ends with the wait's node off the list.
    -/
theorem Reached.other (hr : Reached t c k s) (hi : LiveInv s) (hk : k < c.handles.length)
    (ht : tick o s.toShared (s.threads u).pid (s.threads u).calls (s.threads u).pc =
      some (ins, pc'))
    (hut : t ≠ u) : Reached t c k (s.after u ins pc') := by
  have hpc' : ((s.after u ins pc').threads t).pc = (s.threads t).pc := by
    rw [Sys.after_pc, if_neg hut]
  rcases hr with ⟨p, hpc, hp, hsleep⟩ | hpc | ⟨r, hpc, hr⟩
  · refine .inl ⟨p, hpc'.trans hpc, hp, fun hs => ?_⟩
    obtain ⟨_, hmem, hobj⟩ := hi.sleeper_entry hpc hs hk
    cases hreg' : ((s.after u ins pc').region.nodes (c.node k)).registered with
    | false => exact .inl rfl
    | true =>
      -- still registered, so the walk has not come to its end
      have hreg := ((hi.others ht hut hmem).back hreg').1
      rcases hsleep hs with hoff | hv
      · rw [hreg] at hoff
        cases hoff
      · exact .inr (hi.signals_after ht hreg (hobj hreg) hv)
  · exact .inr (.inl (hpc'.trans hpc))
  · exact .inr (.inr ⟨r, hpc'.trans hpc, hr⟩)

/-- **A wait that a pulse has reached stays so**, until it enters another call. -/
theorem Reached.step (hr : Reached t c k s) (hi : LiveInv s) (ho : OpenInv (c.slotOf k) g .event s)
    (hd : (s.region.slots (c.slotOf k)).d ≠ c.seqs k) (hany : c.all = false)
    (hnodes : c.nodes ≠ []) (hk : k < c.handles.length) (h : s.step a = some (s', l))
    (hl : l.live = true) (hcall : ∀ cl, l ≠ .call t cl) : Reached t c k s' := by
  have hi' := hi.step h hl
  cases Sys.step_inv h with
  | @call u cl ha hout =>
    have hut : t ≠ u := by
      rintro rfl
      exact hcall cl rfl
    have hpc' : ((s.entered u cl).threads t).pc = (s.threads t).pc := by
      rw [Sys.entered_pc, if_neg hut]
    rcases hr with ⟨p, hpc, hp, hsleep⟩ | hpc | ⟨r, hpc, hr⟩
    · exact .inl ⟨p, hpc'.trans hpc, hp, fun hs => (hsleep hs).imp id (Sys.signals_entered hout)⟩
    · exact .inr (.inl (hpc'.trans hpc))
    · exact .inr (.inr ⟨r, hpc'.trans hpc, hr⟩)
  | @tick u o ins pc' ha ht =>
    by_cases hut : t = u
    · subst hut
      rcases hr with ⟨p, hpc, hp, hsleep⟩ | hpc | ⟨r, hpc, hr⟩
      · have hg := tick_inv ht
        have hshape := hi.nodes.shape t
        have hv := ho.valid t
        have hcalm := hi.calm t
        have hcalm' := hi'.calm t
        rw [hpc] at hg hshape hv hcalm
        rw [Sys.after_pc, if_pos rfl] at hcalm'
        cases hg with
        | wait hg =>
          have hpc' : ((s.after t ins pc').threads t).pc = pc' := by rw [Sys.after_pc, if_pos rfl]
          have hty := ho.holds.typ
          rcases hg.reached hany hnodes hshape hk hty
              (fun q hq => by rw [show (s.toShared.region.slots _).objType = _ from hty]; exact hv.fits q hq)
              hd hp with ⟨p', rfl, hp'⟩ | rfl | ⟨r, rfl, hr⟩
          · refine .inl ⟨p', hpc', hp', fun hs => ?_⟩
            -- no sample is taken after a pulse: the wait slept before
            obtain ⟨seq, hs⟩ := Option.isSome_iff_exists.mp hs
            obtain ⟨_, hn, hcase⟩ := hg.sampled hs
            rw [show (s.after t ins (.wait c p')).region.nodes = s.region.nodes from
              hn hcalm hcalm' t]
            rcases hcase with hs₀ | ⟨rfl, _⟩
            · exact (hsleep (by rw [hs₀]; rfl)).imp id (Sys.signals_kept hpc)
            · cases hp
          · exact .inr (.inl hpc')
          · exact .inr (.inr ⟨r, hpc', hr⟩)
      · rw [hpc] at ht
        cases ht
      · rw [hpc] at ht
        cases ht
    · exact hr.other hi hk ht hut
  | die => cases hl

omit [DecidableEq T] in
/-- If only other threads step, the thread makes no call. -/
theorem not_called (h : Only (fun u _ => u ≠ t) l) (cl : Call) : l ≠ .call t cl := by
  rintro rfl
  exact h rfl

/-- A wait in its cleanup returns what it has decided. -/
theorem leaving_step {r : WaitOutcome}
    (hr : (∃ q, (s.threads t).pc = .wait c (.clean r q)) ∨ (s.threads t).pc = c.ret r)
    (h : s.step a = some (s', l)) (hcall : ∀ cl, l ≠ .call t cl) :
    (∃ q, (s'.threads t).pc = .wait c (.clean r q)) ∨ (s'.threads t).pc = c.ret r := by
  cases Sys.step_inv h with
  | @call u cl ha hout =>
    rw [Sys.entered_pc, if_neg]
    · exact hr
    · rintro rfl
      exact hcall cl rfl
  | @tick u o ins pc' ha ht =>
    rw [Sys.after_pc]
    split
    · rename_i hut
      subst hut
      rcases hr with ⟨q, hpc⟩ | hpc
      · have hg := tick_inv ht
        rw [hpc] at hg
        cases hg with
        | wait hg =>
          cases hg with
          | clean hg =>
            cases hg with
            | unlock => exact .inr rfl
            | _ => exact .inl ⟨_, rfl⟩
      · rw [hpc] at ht
        cases ht
    · exact hr
  | die => exact hr

/-- What a live run keeps while the event in slot `i` stays open. -/
structure PresentInv (i : Nat) (g : U32) (d : U64) (h : List (Label T)) (s : Sys T) : Prop where
  live : LiveInv s
  counts : CountInv 0 s
  pulse : PulseInv i g d h s
  timeouts : TimeoutsLocked s

/-- **Every live step keeps the pulse in sight** of the waits that are present. -/
theorem PresentInv.step {d : U64} {h : List (Label T)} (hi : PresentInv i g d h s)
    (hs : s.step a = some (s', l)) (hl : l.live = true) (hu : Stays i s') :
    PresentInv i g d (l :: h) s' :=
  ⟨hi.live.step hs hl, hi.counts.live_step hi.live hs hl,
    hi.pulse.step hi.live.nodes.table.lock hi.live.alive hs hl hu, hi.timeouts.step hs⟩

omit [DecidableEq T] in
/-- A snapshot from before a pulse differs from the counter. -/
theorem PulseInv.snapshot {d : U64} {h h' : List (Label T)} {s₁ : Sys T}
    (hi₁ : PulseInv i g d h s₁) (hi : PulseInv i g d h' s)
    (hmore : h.countP (Label.pulses i) < h'.countP (Label.pulses i))
    (hfew : h'.countP (Label.pulses i) < 2 ^ 64) (hpc : (s₁.threads t).pc = .wait c p)
    (hk : k < c.seqTo p) (hki : c.slotOf k = i) :
    (s.region.slots i).d ≠ c.seqs k := by
  have hseq := hi₁.seqs t
  rw [hpc] at hseq
  obtain ⟨n, hn, hv⟩ := hseq.seqs k hk hki
  rw [hi.count, hv]
  intro he
  have he' := congrArg BitVec.toNat (add_left_cancel he)
  rw [BitVec.toNat_ofNat, BitVec.toNat_ofNat, Nat.mod_eq_of_lt hfew,
    Nat.mod_eq_of_lt (by omega)] at he'
  omega

/-- A pulse moves the counter while no wait is in a critical section, and walks the waiters next. -/
theorem PresentInv.pulsing {d : U64} {h : List (Label T)} {pu : U32} {v : U64}
    (hi : PresentInv i g d h s) (hpc : (s.threads t).pc = .wait c p)
    (hs : s.step a = some (s', .instr u pu (.storeD i v))) :
    p.locked = false ∧ (s'.threads t).pc = .wait c p ∧ (s'.threads u).pc.signals? = some i := by
  cases Sys.step_inv hs with
  | @tick _ o _ pc' ha ht =>
    obtain ⟨hd, prev, e, hpcu, hidx, _, rfl⟩ := (tick_inv ht).storeD
    have htu : t ≠ u := by
      rintro rfl
      rw [hpc] at hpcu
      cases hpcu
    refine ⟨?_, by rw [Sys.after_pc, if_neg htu]; exact hpc, ?_⟩
    · by_contra hlk
      rw [Bool.not_eq_false] at hlk
      exact htu (hi.live.nodes.table.lock.unique (by rw [hpc]; exact hlk) (hi.live.alive _)
        (by rw [hpcu]; rfl) (hi.live.alive _))
    · rw [Sys.after_pc, if_pos rfl]
      exact congrArg some hidx.symm

omit [DecidableEq T] in
/-- A wait that has its nodes and is neither in a critical section nor in its cleanup has its
    snapshots, and is on its way to its next attempt. -/
theorem LiveInv.present (hi : LiveInv s) (hpc : (s.threads t).pc = .wait c p)
    (hunlocked : p.locked = false) (hclean : ∀ r q, p ≠ .clean r q) (hnodes : c.nodes ≠ []) :
    c.seqTo p = c.handles.length ∧ p.reached k = true := by
  cases p with
  | pass q =>
    cases q with
    | lock => exact ⟨if_neg hnodes, rfl⟩
    | _ => cases hunlocked
  | fast q =>
    obtain ⟨L, F, U, hp⟩ := hi.nodes.pool
    exact absurd ((hp.knows t (hi.alive _)).nodes c _ hpc) hnodes
  | clean r q => exact absurd rfl (hclean r q)
  | _ => exact ⟨rfl, rfl⟩

/-- Thread `t` is in an attempt of the wait `c` that has not passed position `k`, or the wait has
    succeeded. -/
def Trying (t : T) (c : WaitCtx) (k : Nat) (s : Sys T) : Prop :=
  (∃ p j q, (s.threads t).pc = .wait c p ∧ p.sat? = some (.any j q) ∧ j ≤ k) ∨
    ∃ j od, (s.threads t).pc.report = some (.signaled j od)

/-- **An attempt that begins after a pulse does not fail**: at position `k` it sees that the counter
    has moved. -/
theorem Trying.step (htry : Trying t c k s) (ho : OpenInv (c.slotOf k) g .event s)
    (hd : (s.region.slots (c.slotOf k)).d ≠ c.seqs k) (hk : k < c.handles.length)
    (h : s.step a = some (s', l)) (hcall : ∀ cl, l ≠ .call t cl) : Trying t c k s' := by
  cases Sys.step_inv h with
  | @call u cl _ _ =>
    have hut : t ≠ u := by
      rintro rfl
      exact hcall cl rfl
    unfold Trying
    rw [Sys.entered_pc, if_neg hut]
    exact htry
  | @tick u o ins pc' ha ht =>
    unfold Trying
    rw [Sys.after_pc]
    by_cases hut : t = u
    · subst hut
      rw [if_pos rfl]
      have hg := tick_inv ht
      rcases htry with ⟨p, j, q, hpc, hq, hj⟩ | ⟨j, od, hrep⟩
      · have hv := ho.valid t
        rw [hpc] at hg hv
        cases hg with
        | wait hg =>
          obtain ⟨w, out, hst, _, _, hf⟩ := hg.sat hq
          -- the attempt at `k` may not fail
          have hno : ∀ {w'}, q.step (s.region.slots (c.slotOf j)) c.owner (c.seqs j) =
              (w', .done none) → j ≠ k := by
            rintro w' hs rfl
            exact Acq.no_fail (ho.holds.typ ▸ hv.fits _ hq rfl) ho.holds.typ hd hs
          cases hst with
          | anyMore =>
            obtain ⟨p', hpc', hq'⟩ := Pc.sat_wait hf
            exact .inl ⟨p', j, _, hpc', hq', hj⟩
          | anyNext hs =>
            obtain ⟨p', hpc', hq'⟩ := Pc.sat_wait hf
            have hjk := hno hs
            exact .inl ⟨p', j + 1, _, hpc', hq', by omega⟩
          | anyWin => exact .inr ⟨j, _, hf.2⟩
          | anyFail hs hlast =>
            have hjk := hno hs
            omega
      · exact .inr ⟨j, od, hg.report hrep⟩
    · rw [if_neg hut]
      exact htry
  | die => exact htry

/-- After a pulse the counter stays ahead of the snapshots that were taken before it. -/
theorem PresentInv.ahead {d : U64} {h₁ h : List (Label T)} {s₁ s₂ : Sys T} {pu : U32} {v : U64}
    (hi₁ : PresentInv i g d h₁ s₁) (hpc : (s₁.threads t).pc = .wait c p) (hk : k < c.seqTo p)
    (hki : c.slotOf k = i) (hs : s₁.step a = some (s₂, .instr u pu (.storeD i v)))
    (hst : Stays i s₂) (hr : Run Sys.step (fun _ l s' => l.live = true ∧ Stays i s' ∧
      Only (fun u _ => u ≠ t) l) s₂ h s)
    (hfew : (h ++ .instr u pu (.storeD i v) :: h₁).countP (Label.pulses i) < 2 ^ 64) :
    PresentInv i g d (h ++ .instr u pu (.storeD i v) :: h₁) s ∧
      (s.region.slots i).d ≠ c.seqs k := by
  have hi : PresentInv i g d (h ++ .instr u pu (.storeD i v) :: h₁) s :=
    hr.invariant (I := fun h s => PresentInv i g d (h ++ .instr u pu (.storeD i v) :: h₁) s)
      (hi₁.step hs rfl hst) fun h s a s' l hi hs ⟨hl, hu, _⟩ => hi.step hs hl hu
  refine ⟨hi, hi₁.pulse.snapshot hi.pulse ?_ hfew hpc hk hki⟩
  rw [List.countP_append, countP_pulses_cons]
  simp only [Label.pulses, decide_true, if_true]
  omega

/-- What a pulse does for a wait that is present: it does not time out, fails no attempt under the
    lock, and does not sleep on once the walk is over. -/
def Served (t : T) (c : WaitCtx) (i : Nat) (s : Sys T) : Prop :=
  (s.threads t).pc ≠ c.ret .timeout ∧ (s.threads t).pc ≠ .wait c (.pass .sample) ∧
    ∀ seq, (s.threads t).pc = .wait c (.sleep seq .parked) →
      (∀ u, (s.threads u).pc.signals? ≠ some i) → ¬ s.Bumping (c.node 0) →
      (s.region.nodes (c.node 0)).seq ≠ seq

omit [DecidableEq T] in
/-- A wait that has returned, and not with a timeout, was served. -/
theorem served_of_ret {r : WaitOutcome} (hpc : (s.threads t).pc = c.ret r) (hr : r ≠ .timeout) :
    Served t c i s := by
  refine ⟨fun h => ?_, fun h => ?_, fun seq h => ?_⟩
  · rw [hpc] at h
    simp only [WaitCtx.ret, Pc.done.injEq, Ret.wait.injEq, true_and] at h
    exact hr h
  · rw [hpc] at h
    cases h
  · rw [hpc] at h
    cases h

omit [DecidableEq T] in
/-- A wait that the pulse has reached is served. -/
theorem Reached.served (hr : Reached t c k s) (hi : LiveInv s) (hcnt : CountInv 0 s)
    (hk : k < c.handles.length) : Served t c (c.slotOf k) s := by
  rcases hr with ⟨p, hpc, hp, hsleep⟩ | hpc | ⟨r, hpc, hr⟩
  · refine ⟨fun h => ?_, fun h => ?_, fun seq hpark hdone hb hseq => ?_⟩
    · rw [hpc] at h
      cases h
    · rw [hpc] at h
      cases h
      cases hp
    · rw [hpc] at hpark
      cases hpark
      rcases hsleep rfl with hoff | ⟨u, hu⟩
      · obtain ⟨hkn, _⟩ := hi.sleeper_entry hpc rfl hk
        rw [hcnt.live_registered hi hpc rfl hseq hb (WaitCtx.node_mem hkn)] at hoff
        cases hoff
      · exact hdone u hu
  · refine ⟨fun h => ?_, fun h => ?_, fun seq h => ?_⟩
    · rw [hpc] at h
      cases h
    · rw [hpc] at h
      cases h
    · rw [hpc] at h
      cases h
  · exact served_of_ret hpc hr

/-- **A pulse reaches the waiters that are present.** A wait-any that lists an open event and has
    its nodes when a pulse of the event moves the counter: from then on, until the thread's next
    call, the wait does not return `Timeout`, no attempt that it begins fails, and once the pulse
    has finished its wake walk the wait is not parked on an unchanged futex word (but for a bump
    that is due).  The counter must not come around: fewer than 2^64 pulses. -/
theorem PresentInv.reaches {d : U64} {h₁ h₂ : List (Label T)} {s₁ s₂ s₃ : Sys T} {pu : U32}
    {v : U64} (hi₁ : PresentInv i g d h₁ s₁) (hpc : (s₁.threads t).pc = .wait c p)
    (hany : c.all = false) (hk : k < c.handles.length) (hki : c.slotOf k = i)
    (hnodes : c.nodes ≠ []) (hs : s₁.step a = some (s₂, .instr u pu (.storeD i v)))
    (hst : Stays i s₂) (hr₂ : Run Sys.step (fun _ l s' => l.live = true ∧ Stays i s' ∧
      Only (fun u _ => u ≠ t) l) s₂ h₂ s₃)
    (hfew : (h₂ ++ .instr u pu (.storeD i v) :: h₁).countP (Label.pulses i) < 2 ^ 64) :
    Served t c i s₃ ∧ ∀ c' q, (s₃.threads t).pc = .wait c' q → q.sat? = some (.any 0 .typ) →
      ∀ h₃ s₄, Run Sys.step (fun _ l s' => l.live = true ∧ Stays i s' ∧
          Only (fun u _ => u ≠ t) l) s₃ h₃ s₄ →
        ((h₃ ++ h₂) ++ .instr u pu (.storeD i v) :: h₁).countP (Label.pulses i) < 2 ^ 64 →
        Trying t c' k s₄ := by
  obtain ⟨hunlocked, hpc₂, hsig⟩ := hi₁.pulsing hpc hs
  by_cases hclean : ∃ r q, p = .clean r q
  · -- the wait has decided before the pulse, and not for a timeout
    obtain ⟨r, q, rfl⟩ := hclean
    have hr : r ≠ .timeout := by
      cases q with
      | lock => exact hi₁.timeouts t c r hpc
      | _ => cases hunlocked
    have hleave := hr₂.state_invariant
      (I := fun s => (∃ q, (s.threads t).pc = .wait c (.clean r q)) ∨ (s.threads t).pc = c.ret r)
      (.inl ⟨q, hpc₂⟩) fun s a s' l hi hs ⟨_, _, hcall⟩ =>
        leaving_step hi hs (not_called hcall)
    refine ⟨?_, fun c' q' hpc₃ hq' => ?_⟩
    -- a wait in its cleanup is neither parked nor at its sample
    · rcases hleave with ⟨q, hq⟩ | hq
      · refine ⟨fun h => ?_, fun h => ?_, fun seq h => ?_⟩
        · rw [hq] at h
          cases h
        · rw [hq] at h
          cases h
        · rw [hq] at h
          cases h
      · exact served_of_ret hq hr
    · -- it makes no attempt any more
      rcases hleave with ⟨q, hq⟩ | hq
      · rw [hpc₃] at hq
        cases hq
        cases hq'
      · rw [hpc₃] at hq
        cases hq
  · have hclean' : ∀ r q, p ≠ .clean r q := fun r q he => hclean ⟨r, q, he⟩
    -- the wait is on its way to its next attempt
    obtain ⟨hto, hreach⟩ := hi₁.live.present (k := k) hpc hunlocked hclean' hnodes
    have hkto : k < c.seqTo p := by rwa [hto]
    subst hki
    have hreached : Reached t c k s₃ := by
      induction hr₂ with
      | nil => exact .inl ⟨p, hpc₂, hreach, fun _ => .inr ⟨u, hsig⟩⟩
      | @snoc h s s' a' l hr hst' hok ih =>
        -- the counter is ahead of the snapshot at every step, so the attempt may not fail
        rw [List.cons_append, countP_pulses_cons] at hfew
        have hfew' := (Nat.le_add_right _ _).trans_lt hfew
        obtain ⟨hi, hd⟩ := hi₁.ahead hpc hkto rfl hs hst hr hfew'
        exact (ih hfew').step hi.live hi.pulse.isOpen hd hany hnodes hk hst' hok.1
          (not_called hok.2.2)
    refine ⟨?_, fun c' q hpc₃ hq h₃ s₄ hr₃ hfew₄ => ?_⟩
    · obtain ⟨hi₃, _⟩ := hi₁.ahead hpc hkto rfl hs hst hr₂ hfew
      exact hreached.served hi₃.live hi₃.counts hk
    · -- the wait is still the one the pulse has found
      obtain rfl : c = c' := by
        rcases hreached with ⟨p', hpc', _⟩ | hpc' | ⟨r, hpc', _⟩
        · rw [hpc₃] at hpc'
          cases hpc'
          rfl
        · rw [hpc₃] at hpc'
          cases hpc'
        · rw [hpc₃] at hpc'
          cases hpc'
      induction hr₃ with
      | nil => exact .inl ⟨q, 0, .typ, hpc₃, hq, Nat.zero_le _⟩
      | @snoc h s s' a' l hr hst' hok ih =>
        rw [List.cons_append, List.cons_append, countP_pulses_cons] at hfew₄
        have hfew' := (Nat.le_add_right _ _).trans_lt hfew₄
        obtain ⟨hi, hd⟩ := hi₁.ahead hpc hkto rfl hs hst (hr₂.trans hr) hfew'
        exact (ih hfew').step hi.pulse.isOpen hd hk hst' (not_called hok.2.2)

end Present

section Late

variable [DecidableEq T] {s s' : Sys T} {a : Action T} {l : Label T} {t : T} {c : WaitCtx}
  {p : WaitPc} {i k : Nat}

/-- While nobody pulses an event, its counter stays what later waits have seen at their entry. -/
theorem OpenInv.unpulsed {g : U32} (ho : OpenInv i g .event s) (hs : s.step a = some (s', l))
    (hu : Stays i s') (hnp : l.pulses i = false)
    (hseq : (s.threads t).pc.SeqOk i (· = (s.region.slots i).d)) :
    (s'.threads t).pc.SeqOk i (· = (s'.region.slots i).d) := by
  cases Sys.step_inv hs with
  | @call u cl ha hout =>
    rw [Sys.entered_pc]
    split
    · exact Pc.start_seqs cl
    · exact hseq
  | @tick u o ins pc' ha ht =>
    obtain ⟨_, hd⟩ := ho.after_word ha (tick_inv ht) hu
    have hsame : ((s.after u ins pc').region.slots i).d = (s.region.slots i).d := by
      rw [hd]
      cases ins with
      | storeD j v => exact if_neg fun he => of_decide_eq_false hnp he.symm
      | _ => rfl
    rw [Sys.after_pc, hsame]
    split
    · rename_i hut
      subst hut
      exact (tick_inv ht).seqs ho.holds.typ rfl hseq
    · exact hseq
  | die => exact hseq

end Late

section Exactly

variable [DecidableEq T]

end Exactly

end Ntsync
