import Mathlib
import Ntsync.Acquirable
import Ntsync.Sleepers

namespace Ntsync

open Words Lts

/-!
# No signal is lost to a sleeping wait-any

A wait-any registers its nodes, checks its objects one by one, and goes to sleep on the futex word.  A
signal stores the object's word first and then looks for waiters.

* `WaitPc.missed` — the object became acquirable after the wait had checked it;
* `HeardInv` — then a signal on the object is under way, as long as the node is registered;
* `no_lost_wakeup` — so nobody sleeps on an acquirable object once the signals are done.
-/

variable {T : Type}

/-! ### Signals under way -/

/-- Every wait under way is a wait-any. -/
def AnyInv (s : Sys T) : Prop := ∀ t c p, (s.threads t).pc = .wait c p → c.all = false

/-- Only wait-any calls are entered, no wait-all. -/
def AnyOnly : Label T → Prop
  | .call _ (.wait a _) => a.all = false
  | _ => True

instance decidableAnyOnly : (l : Label T) → Decidable (AnyOnly l)
  | .call _ (.wait a _) => inferInstanceAs (Decidable (a.all = false))
  | .call _ (.op _ _) | .call _ (.pulse _) | .call _ (.create _) | .call _ (.close _)
  | .call _ (.hold _ _) | .call _ .sweepDead | .instr _ _ _ | .die _ =>
    inferInstanceAs (Decidable True)

/-- At rest there is no wait. -/
theorem AnyInv.of_idle {s : Sys T} (hidle : s.Idle) : AnyInv s := by
  intro t c p hpc
  rcases Pc.outside_cases (hidle t) with h | ⟨_, _, h⟩ <;> rw [h] at hpc <;> cases hpc

section Steps

variable [DecidableEq T] {s s' : Sys T} {a : Action T} {l : Label T} {t u : T} {o : Oracle}
  {ins : Instr} {pc' : Pc} {c : WaitCtx} {p : WaitPc} {i k : Nat}

/-- In runs of wait-any calls all waits are. -/
theorem AnyInv.step (hi : AnyInv s) (h : s.step a = some (s', l)) (hl : AnyOnly l) : AnyInv s' := by
  intro u c p hpc
  cases Sys.step_inv h with
  | @call t cl ha hout =>
    rw [Sys.entered_pc] at hpc
    split at hpc
    · cases cl with
      | wait a timeout =>
        simp only [Pc.start] at hpc
        split at hpc <;> cases hpc
        exact hl
      | pulse | sweepDead => cases hpc
      | _ =>
        simp only [Pc.start] at hpc
        split at hpc <;> cases hpc
    · exact hi u c p hpc
  | @tick t o ins pc' ha ht =>
    rw [Sys.after_pc] at hpc
    split at hpc
    · rename_i hut
      subst hut hpc
      obtain ⟨c₀, p₀, hq, _, hargs⟩ := (tick_inv ht).of_wait
      rw [congrArg WaitArgs.all hargs]
      exact hi u c₀ p₀ hq
    · exact hi u c p hpc
  | die => exact hi u c p hpc

omit [DecidableEq T] in
/-- A wait-any gives nothing back. -/
theorem AnyInv.no_rollback (hi : AnyInv s) (hsi : ShapeInv s) {h z : U32} {new : U64}
    (ht : tick o s.toShared (s.threads t).pid (s.threads t).calls (s.threads t).pc =
      some (ins, pc')) : ins ≠ .word h i (.rollback z) new := by
  rintro rfl
  have hg := tick_inv ht
  rcases hg.word with ⟨_, _, _, _, _, _, htag, _⟩ | ⟨_, _, _, _, htag, _⟩ | ⟨c, q, p, hpc, hsat⟩
  · cases htag
  · cases htag
  · obtain ⟨w, out, hst, hins, _⟩ := hg.sat (c := c) (p := p) (by rw [hpc]; simp [Pc.sat?, hsat])
    obtain ⟨k, rfl, _⟩ := satInstr_rollback hins.symm
    obtain ⟨b, rest, u, rfl, _⟩ := hst.rollback
    have hshape := hsi t
    rw [hpc] at hshape
    cases (hi t c q hpc).symm.trans (hshape.2 _ hsat).1

end Steps

/-! ### Missed signals -/

/-- The wait has checked the object at position `k` since it registered its nodes, and yet could
    acquire it now, the object's slot being `x`. -/
def WaitPc.missed (c : WaitCtx) (k : Nat) (x : Slot) : WaitPc → Bool
  | .pass (.sat (.any j q)) =>
    -- before its look at the pulse counter the check has only read the word
    if k < j then isLocked x c.owner (c.seqs k)
    else decide (k = j ∧ q = .pulse) && isLocked x c.owner x.d
  | .pass .sample => isLocked x c.owner (c.seqs k)
  | p => p.sampled?.isSome && isLocked x c.owner (c.seqs k)

section Missed

variable {o : Oracle} {sh : Shared T} {pid : U32} {ins : Instr} {c c' : WaitCtx} {p p' : WaitPc}
  {k : Nat} {x y : Slot} {seq : U32}

/-- A wait about to sleep has missed what it could acquire. -/
theorem WaitPc.missed_sampled (h : p.sampled? = some seq) :
    p.missed c k x = isLocked x c.owner (c.seqs k) := by
  cases p with
  | pass q => cases q <;> first | rfl | cases h
  | fast | detach | clean => cases h
  | _ => rfl

/-- A step that makes nothing easier to acquire makes nothing missed. -/
theorem WaitPc.missed_before (h : NoEasier c.owner x y) (hm : p.missed c k y = true) :
    p.missed c k x = true := by
  unfold WaitPc.missed at hm ⊢
  split at hm
  · rename_i j q
    by_cases hkj : k < j
    · rw [if_pos hkj] at hm ⊢
      exact h.locked _ hm
    · rw [if_neg hkj, Bool.and_eq_true] at hm ⊢
      exact ⟨hm.1, h.d ▸ h.locked _ hm.2⟩
  · exact h.locked _ hm
  · rw [Bool.and_eq_true] at hm ⊢
    exact ⟨hm.1, h.locked _ hm.2⟩

/-- A wait that validates has missed nothing yet. -/
theorem WaitCtx.missed_validateNext (i : Nat) : (c.validateNext i).missed c' k x = false := by
  unfold WaitCtx.validateNext
  split
  · rfl
  · split
    · rfl
    · unfold WaitCtx.afterAlert
      split <;> rfl

/-- An attempt that goes on to the next position has seen that the object cannot be acquired. -/
theorem Acq.fail_missed {q : Acq} {o : U32} {d : U64} {w : Option U64} (hf : q.fits x.objType)
    (h : q.step x o d = (w, .done none)) (hl : isLocked x o d = true) :
    q = .pulse ∧ isLocked x o x.d = true := by
  obtain ⟨_, ⟨hq, hd⟩ | hno⟩ := Acq.step_fail hf h
  · exact ⟨hq, hd ▸ hl⟩
  · rw [hno] at hl
    cases hl

/-- The word of an event was clear when the check came to the pulse counter. -/
theorem Acq.pulse_clear {q : Acq} {o : U32} {d : U64} {w : Option U64} (hf : q.fits x.objType)
    (h : q.step x o d = (w, .more .pulse)) : isLocked x o x.d = false := by
  have hev : x.objType = .event ∧ lo32 x.w0 = 0 := by
    cases q with
    | event =>
      simp only [Acq.step] at h
      split at h
      · split at h <;> cases h
      · exact ⟨hf, not_not.mp ‹_›⟩
    | auto cas =>
      simp only [Acq.step] at h
      split at h
      · cases h
      · cases h
      · rename_i hc
        rcases casStep_done hc with ⟨_, hb⟩ | ⟨new, _, hb⟩
        · unfold acquireAuto at hb
          split at hb <;> cases hb
          exact ⟨hf, by assumption⟩
        · unfold acquireAuto at hb
          split at hb <;> cases hb
    | typ => simp only [Acq.step] at h; split at h <;> cases h
    | sem cas => simp only [Acq.step] at h; split at h <;> cases h
    | mutex cas => simp only [Acq.step] at h; split at h <;> cases h
    | pulse => cases h
  unfold isLocked
  rw [hev.1]
  dsimp only
  rw [hev.2]
  simp

/-- **The steps of the wait itself miss nothing.** What is missed afterwards was missed before. -/
theorem WaitGo.missed (hg : WaitGo o sh pid c p ins (.wait c' p')) (hc : (Pc.wait c p).Calm)
    (hc' : (Pc.wait c' p').Calm) (hany : c.all = false) (hshape : (Pc.wait c p).Shape)
    (hfits : ∀ q, p.sat? = some q → ∀ i, q.Fits c.toWaitArgs i (sh.region.slots i).objType)
    (hk : k < c.handles.length)
    (hm : p'.missed c' k (sh.region.slots (c.slotOf k)) = true) :
    c' = c ∧ (∀ t : T, (ins.apply t pid sh).region.nodes = sh.region.nodes) ∧
      p.missed c k (sh.region.slots (c.slotOf k)) = true := by
  cases hseq : p'.sampled? with
  | some seq =>
    obtain ⟨rfl, hkeep, hcase⟩ := hg.sampled hseq
    have hnodes := hkeep hc hc'
    refine ⟨rfl, hnodes, ?_⟩
    rw [WaitPc.missed_sampled hseq] at hm
    rcases hcase with hs | ⟨rfl, _⟩
    · rw [WaitPc.missed_sampled hs]
      exact hm
    · exact hm
  | none =>
    -- only the check itself, and the step after it
    generalize hpc : Pc.wait c' p' = pc' at hg
    cases hg with
    | pass hg =>
      cases hg with
      | validateFirst | validate =>
        cases hpc
        rw [WaitCtx.missed_validateNext] at hm
        cases hm
      | alertClear =>
        cases hpc
        unfold WaitCtx.afterAlert at hm
        split at hm <;> cases hm
      | alloc =>
        cases hpc
        unfold WaitCtx.allocNext at hm
        split at hm <;> cases hm
      | registerSkip | register =>
        cases hpc
        unfold WaitCtx.registerNext at hm
        split at hm
        · cases hm
        · rw [hany] at hm
          simp [Sat.start, WaitPc.missed] at hm
      | @sat q q' w hst =>
        cases hpc
        have hsh := hshape.2 q rfl
        refine ⟨rfl, satInstr_nodes _ _, ?_⟩
        cases hst with
        | @anyMore j q₀ q₁ _ hs =>
          unfold WaitPc.missed at hm ⊢
          dsimp only at hm ⊢
          by_cases hkj : k < j
          · rw [if_pos hkj] at hm ⊢
            exact hm
          · rw [if_neg hkj, Bool.and_eq_true, decide_eq_true_eq] at hm
            obtain ⟨⟨rfl, rfl⟩, hl⟩ := hm
            rw [Acq.pulse_clear (hfits _ rfl _ rfl) hs] at hl
            cases hl
        | @anyNext j q₀ _ hs =>
          unfold WaitPc.missed at hm ⊢
          dsimp only at hm ⊢
          by_cases hkj : k < j
          · rw [if_pos (by omega)] at hm
            rw [if_pos hkj]
            exact hm
          · rw [if_neg hkj, Bool.and_eq_true, decide_eq_true_eq]
            by_cases hkj' : k < j + 1
            · obtain rfl : k = j := by omega
              rw [if_pos hkj'] at hm
              obtain ⟨hq, hl⟩ := Acq.fail_missed (hfits _ rfl _ rfl) hs hm
              exact ⟨⟨rfl, hq⟩, hl⟩
            · rw [if_neg hkj'] at hm
              simp at hm
        | allMore | allTake | allUndo => cases hany.symm.trans hsh.2.1
        | undoMore | undoNext => cases hany.symm.trans hsh.1
      | @fail q w hst =>
        cases hpc
        have hsh := hshape.2 q rfl
        refine ⟨rfl, satInstr_nodes _ _, ?_⟩
        cases hst with
        | @anyFail j q₀ _ hs hlast =>
          have hl : isLocked (sh.region.slots (c.slotOf k)) c.owner (c.seqs k) = true := hm
          unfold WaitPc.missed
          dsimp only
          by_cases hkj : k < j
          · rw [if_pos hkj]
            exact hl
          · obtain rfl : k = j := by
              have := hsh.1
              omega
            rw [if_neg hkj, Bool.and_eq_true, decide_eq_true_eq]
            obtain ⟨hq, hl'⟩ := Acq.fail_missed (hfits _ rfl _ rfl) hs hl
            exact ⟨⟨rfl, hq⟩, hl'⟩
        | allFail => cases hany.symm.trans hsh.2.1
        | undoNil | undoLast => cases hany.symm.trans hsh.1
      | alertPanic => cases hpc
      | sample | unlock =>
        cases hpc
        cases hseq
      | _ =>
        cases hpc
        cases hm
    | fast hg =>
      cases hg with
      | lookOther | seq =>
        cases hpc
        unfold WaitCtx.fastNext at hm
        split at hm
        · cases hm
        · split at hm <;> cases hm
      | unwrapStateBad | unwrapGenBad | alerted | win | failZero => cases hpc
      | _ =>
        cases hpc
        cases hm
    | noSpin | spinStart =>
      cases hpc
      cases hseq
    | spin hg =>
      cases hg with
      | alertStateBad | alertGenBad => cases hpc
      | alerted | win =>
        cases hpc
        cases hm
      | _ =>
        cases hpc
        cases hseq
    | @sweep seq' timedOut q _ _ hg =>
      cases hg with
      | skip | unlock =>
        cases hpc
        cases timedOut
        · cases hseq
        · cases hm
      | _ =>
        cases hpc
        cases hseq
    | sleep hg =>
      cases hg with
      | again | woken =>
        cases hpc
        unfold afterFutex at hseq hm
        split at hseq
        · cases hseq
        · rw [if_neg ‹_›] at hm
          cases hm
      | tailDone =>
        cases hpc
        cases hm
      | _ =>
        cases hpc
        cases hseq
    | detach hg =>
      cases hg <;> cases hpc <;> cases hm
    | clean hg =>
      cases hg <;> cases hpc <;> cases hm

/-- A wait that has checked an object has all of its nodes. -/
theorem WaitPc.missed_nodes {r : Region} (hm : p.missed c k x = true) (hok : p.NodesOk r c) :
    p.owned c = c.nodes ∧ c.nodes.length = c.nNodes := by
  cases p with
  | pass q =>
    cases q with
    | sat | sample | unlock => exact ⟨rfl, hok.1⟩
    | _ => cases hm
  | fast | detach | clean => cases hm
  | _ => exact ⟨rfl, hok⟩

end Missed

/-- While the node is registered, a missed signal is under way. -/
def HeardInv (s : Sys T) : Prop :=
  ∀ t c p k, (s.threads t).pc = .wait c p → k < c.handles.length →
    p.missed c k (s.region.slots (c.slotOf k)) = true →
    (s.region.nodes (c.node k)).registered = true →
    ∃ u, (s.threads u).pc.signals? = some (c.slotOf k)

/-- At rest nothing has been missed. -/
theorem HeardInv.of_idle {s : Sys T} (hidle : s.Idle) : HeardInv s := by
  intro t c p k hpc
  rcases Pc.outside_cases (hidle t) with h | ⟨_, _, h⟩ <;> rw [h] at hpc <;> cases hpc

/-- A call starts with nothing missed. -/
theorem Pc.start_missed {cl : Call} {c : WaitCtx} {p : WaitPc} (h : Pc.start cl = .wait c p)
    (k : Nat) (x : Slot) : p.missed c k x = false := by
  cases cl with
  | wait a timeout =>
    simp only [Pc.start] at h
    split at h <;> cases h
    rfl
  | pulse | sweepDead => cases h
  | _ =>
    simp only [Pc.start] at h
    split at h <;> cases h

section Heard

variable [DecidableEq T] {own : U32 → T} {s s' : Sys T} {a : Action T} {l : Label T} {t u : T}
  {o : Oracle} {ins : Instr} {pc' : Pc} {c : WaitCtx} {p : WaitPc} {k : Nat} {x : Slot}

omit [DecidableEq T] in
/-- The registered node of a wait-any that has checked its objects. -/
theorem LiveInv.checked (hi : LiveInv s) (hpc : (s.threads t).pc = .wait c p)
    (hm : p.missed c k x = true) (hk : k < c.handles.length) :
    c.node k ∈ (s.threads t).pc.waitNodes ∧
      ((s.region.nodes (c.node k)).registered = true →
        (s.region.nodes (c.node k)).obj = some (c.slotOf k)) := by
  obtain ⟨L, F, U, hp⟩ := hi.nodes.pool
  obtain ⟨hown, hlen⟩ := WaitPc.missed_nodes hm ((hp.knows t (hi.alive _)).nodes c p hpc)
  have hkn : k < c.nodes.length := by
    unfold WaitCtx.nNodes at hlen
    omega
  have hmem : c.node k ∈ p.owned c := by
    rw [hown]
    exact WaitCtx.node_mem hkn
  refine ⟨by rw [hpc]; exact hmem, fun hreg => ?_⟩
  rw [(hi.entry hpc hkn hmem hreg).1, WaitCtx.target, if_pos hk]

/-- No other thread unlocks a mutex for the owner of a wait of thread `u`. -/
def Sys.Foreign (s : Sys T) (u : T) : Prop :=
  ∀ c p, (s.threads u).pc = .wait c p → ∀ t, u ≠ t →
    ∀ h z q, (s.threads t).pc = .op h (.mutexUnlock z) q → z ≠ c.owner

omit [DecidableEq T] in
/-- The mutex of one owner is unlocked by one thread only. -/
theorem OwnInv.foreign (hown : OwnInv own s) : s.Foreign u := by
  rintro c p hpc t hut h z q hop rfl
  have h₁ := hown t c.owner (by rw [hop]; rfl)
  have h₂ := hown u c.owner (by rw [hpc]; rfl)
  exact hut (h₂.symm.trans h₁)

/-- A step of another thread, on a missed signal. -/
theorem HeardInv.other (hh : HeardInv s) (hi : QuietInv s) (hany : AnyInv s) (hown : OwnInv own s)
    (ht : tick o s.toShared (s.threads t).pid (s.threads t).calls (s.threads t).pc =
      some (ins, pc'))
    (hq : (Label.instr t (s.threads t).pid ins).quiet = true) (hut : u ≠ t)
    (hpc : (s.threads u).pc = .wait c p) (hk : k < c.handles.length)
    (hm : p.missed c k ((s.after t ins pc').region.slots (c.slotOf k)) = true)
    (hreg : ((s.after t ins pc').region.nodes (c.node k)).registered = true) :
    ∃ v, ((s.after t ins pc').threads v).pc.signals? = some (c.slotOf k) := by
  obtain ⟨hmem, hobj⟩ := hi.checked hpc hm hk
  have hreg₀ := ((hi.others ht hut hmem).back hreg).1
  have hused := hi.used_of_waiter hreg₀ (hobj hreg₀)
  rcases hi.easier ht hq hused (hown.foreign c p hpc t hut) with hno | hsig | ⟨h, z, new, hins⟩
  · exact hi.signals_after ht hreg₀ (hobj hreg₀)
      (hh u c p k hpc hk (WaitPc.missed_before hno hm) hreg₀)
  · exact Sys.signals_begun hsig
  · exact absurd hins (hany.no_rollback hi.nodes.shape ht)

omit [DecidableEq T] in
/-- A wait registers its nodes before it checks anything. -/
theorem PcGo.missed_register {sh : Shared T} {pid : U32} {pc : Pc} {n i w : Nat}
    (hg : PcGo sh pid o pc (.register n i w) (.wait c p)) (hany : c.all = false) :
    p.missed c k x = false := by
  have hpool := hg.pool
  generalize hins : Instr.register n i w = ins at hpool
  generalize hpc' : Pc.wait c p = pc' at hpool
  cases hpool with
  | @register c₀ j =>
    cases hpc'
    unfold WaitCtx.registerNext
    split
    · rfl
    · rw [hany]
      simp [Sat.start, WaitPc.missed]
  | other hl =>
    subst hins
    cases hl
  | _ => cases hins

/-- A step of the wait itself. -/
theorem HeardInv.itself (hh : HeardInv s) (hi : QuietInv s) (hany : AnyInv s)
    (hi' : QuietInv (s.after t ins (.wait c p))) (hany' : AnyInv (s.after t ins (.wait c p)))
    (ht : tick o s.toShared (s.threads t).pid (s.threads t).calls (s.threads t).pc =
      some (ins, .wait c p))
    (hq : (Label.instr t (s.threads t).pid ins).quiet = true) (hk : k < c.handles.length)
    (hm : p.missed c k ((s.after t ins (.wait c p)).region.slots (c.slotOf k)) = true)
    (hreg : ((s.after t ins (.wait c p)).region.nodes (c.node k)).registered = true) :
    ∃ v, ((s.after t ins (.wait c p)).threads v).pc.signals? = some (c.slotOf k) := by
  have hg := tick_inv ht
  have hpc' : ((s.after t ins (.wait c p)).threads t).pc = .wait c p := by
    rw [Sys.after_pc, if_pos rfl]
  have hr : ∀ i w, ins ≠ .register (c.node k) i w := by
    rintro i w rfl
    rw [hg.missed_register (hany' t c p hpc')] at hm
    cases hm
  have hkept : Kept (s.region.nodes (c.node k))
      ((s.after t ins (.wait c p)).region.nodes (c.node k)) := by
    rcases Instr.registered_now hreg with ⟨_, hal⟩ | ⟨i, w, he⟩
    · exact Instr.kept hal hr
    · exact absurd he (hr i w)
  obtain ⟨hreg₀, hobj, _⟩ := hkept.back hreg
  have hused := hi.used_of_waiter hreg₀ (hobj ▸ (hi'.checked hpc' hm hk).2 hreg)
  obtain ⟨c₀, p₀, hpc, hg, hargs⟩ := hg.of_wait
  have hshape := hi.nodes.shape t
  have hcalm := hi.calm t
  have hcalm' := hi'.calm t
  rw [hpc] at hshape hcalm
  rw [hpc'] at hcalm'
  have hno : NoEasier c.owner (s.region.slots (c.slotOf k))
      ((s.after t ins (.wait c p)).region.slots (c.slotOf k)) := by
    rcases hi.easier ht hq hused (fun h z q hop => by rw [hpc] at hop; cases hop) with
      h | h | ⟨h, z, new, hins⟩
    · exact h
    · cases h
    · exact absurd hins (hany.no_rollback hi.nodes.shape ht)
  have hm₀ := WaitPc.missed_before hno hm
  have hslot : c.slotOf k = c₀.slotOf k := by rw [hargs]
  rw [hslot] at hm₀
  obtain ⟨rfl, _, hmiss⟩ := hg.missed hcalm hcalm' (hany t c₀ p₀ hpc) hshape (hi.fits hpc)
    (by rw [← hargs]; exact hk) hm₀
  exact Sys.signals_kept hpc (hh t c p₀ k hpc hk hmiss hreg₀)

/-- **A missed signal is under way**, in every quiet step of wait-any calls and signals. -/
theorem HeardInv.step (hh : HeardInv s) (hi : QuietInv s) (hany : AnyInv s) (hown : OwnInv own s)
    (h : s.step a = some (s', l)) (hq : l.quiet = true) (ha : AnyOnly l) : HeardInv s' := by
  have hi' := hi.step h hq
  have hany' := hany.step h ha
  intro u c p k hpc hk hm hreg
  cases Sys.step_inv h with
  | @call t cl hal hout =>
    rw [Sys.entered_pc] at hpc
    split at hpc
    · rw [Pc.start_missed hpc] at hm
      cases hm
    · exact Sys.signals_entered hout (hh u c p k hpc hk hm hreg)
  | @tick t o ins pc' hal ht =>
    rw [Sys.after_pc] at hpc
    by_cases hut : u = t
    · subst hut
      rw [if_pos rfl] at hpc
      subst hpc
      exact hh.itself hi hany hi' hany' ht hq hk hm hreg
    · rw [if_neg hut] at hpc
      exact hh.other hi hany hown ht hq hut hpc hk hm hreg
  | die => cases hq

omit [DecidableEq T] in
/-- Every object has its node. -/
theorem WaitCtx.lt_nNodes (hk : k < c.handles.length) : k < c.nNodes := by
  unfold WaitCtx.nNodes
  omega

omit [DecidableEq T] in
/-- Once nobody signals, who is parked on an unchanged futex word has all of its nodes registered. -/
theorem QuietInv.parked_registered (hi : QuietInv s) (hcnt : CountInv 0 s)
    (hdone : ∀ u i, (s.threads u).pc.signals? ≠ some i) {seq : U32}
    (hpc : (s.threads t).pc = .wait c (.sleep seq .parked))
    (hseq : (s.region.nodes (c.node 0)).seq = seq) (hk : k < c.nNodes) :
    (s.region.nodes (c.node k)).registered = true := by
  -- in a quiet run only signals walk, and only walks bump
  have hb : ¬ s.Bumping (c.node 0) := by
    rintro ⟨u, _, hu⟩
    obtain ⟨i, next, hw⟩ := Pc.walk_of_bumps hu
    exact hdone u i ((hi.calm u).signals (hi.notClose u) hw)
  obtain ⟨_, _, _, hlen⟩ := hi.sleeper hpc rfl
  exact hcnt.live_registered hi.toLiveInv hpc rfl hseq hb (WaitCtx.node_mem (hlen ▸ hk))

/-- **No signal is lost to a sleeping wait-any.** In every run of wait-any calls and of signals, in
    which nobody closes an object or dies and each owner id belongs to one thread: once all signals
    have finished their wake walks, no wait is parked on an unchanged futex word while one of its
    objects could be acquired. -/
theorem no_lost_wakeup {pid : T → U32} (hpid : ∀ t, pid t ≠ 0) {h : List (Label T)}
    (hr : Run Sys.step (fun _ l _ => l.quiet = true ∧ AnyOnly l ∧ Owners own l)
      (Sys.rest Region.init pid) h s)
    (hdone : ∀ u i, (s.threads u).pc.signals? ≠ some i) {seq : U32}
    (hpc : (s.threads t).pc = .wait c (.sleep seq .parked))
    (hseq : (s.region.nodes (c.node 0)).seq = seq) :
    ∀ k < c.handles.length,
      isLocked (s.region.slots (c.slotOf k)) c.owner (c.seqs k) = false := by
  have hidle : (Sys.rest Region.init pid).Idle := fun _ => rfl
  have hinv : QuietInv s ∧ CountInv 0 s ∧ AnyInv s ∧ OwnInv own s ∧ HeardInv s := by
    refine hr.state_invariant
      (I := fun s => QuietInv s ∧ CountInv 0 s ∧ AnyInv s ∧ OwnInv own s ∧ HeardInv s)
      ⟨.of_init hpid, .of_idle hidle, .of_idle hidle, .of_idle hidle, .of_idle hidle⟩ ?_
    rintro s a s' l ⟨hi, hcnt, hany, hown, hh⟩ hs ⟨hq, ha, ho⟩
    exact ⟨hi.step hs hq, hcnt.live_step hi.toLiveInv hs (Label.live_of_quiet hq), hany.step hs ha,
      hown.step hs ho, hh.step hi hany hown hs hq ha⟩
  obtain ⟨hi, hcnt, _, _, hh⟩ := hinv
  intro k hk
  by_contra hl
  rw [Bool.not_eq_false] at hl
  have hreg := hi.parked_registered hcnt hdone hpc hseq (WaitCtx.lt_nNodes hk)
  obtain ⟨u, hu⟩ := hh t c _ k hpc hk hl hreg
  exact hdone u _ hu

end Heard

/-- The wait and its sample, in a thread that is parked. -/
def Pc.parked? : Pc → Option (WaitCtx × U32)
  | .wait c (.sleep seq .parked) => some (c, seq)
  | _ => none

/-- The program counter of a parked wait, from its parts. -/
theorem Pc.eq_of_parked {pc : Pc} {x : WaitCtx × U32} (h : pc.parked? = some x) :
    pc = .wait x.1 (.sleep x.2 .parked) := by
  unfold Pc.parked? at h
  split at h <;> cases h
  rfl

/-- Thread `t` is parked on an unchanged futex word. -/
def Sys.asleep (s : Sys T) (t : T) : Bool :=
  (s.threads t).pc.parked?.any fun x => decide ((s.region.nodes (x.1.node 0)).seq = x.2)

/-- Who sleeps is parked on an unchanged word. -/
theorem Sys.parked_of_asleep {s : Sys T} {t : T} (h : s.asleep t = true) :
    ∃ c seq, (s.threads t).pc = .wait c (.sleep seq .parked) ∧
      (s.region.nodes (c.node 0)).seq = seq := by
  obtain ⟨x, hx, hseq⟩ := Option.any_eq_true _ _ |>.mp h
  exact ⟨x.1, x.2, Pc.eq_of_parked hx, of_decide_eq_true hseq⟩

/-- Thread 0 creates two events and sleeps on the first one; thread 1 sets the second one. -/
def setOther : List (Action (Fin 2)) :=
  .call 0 (.create (.event false false)) :: List.replicate 18 (.tick 0 {}) ++
  .call 0 (.create (.event false false)) :: List.replicate 18 (.tick 0 {}) ++
  .call 0 (.wait ⟨[1], 5, false, 0⟩ .never) :: List.replicate 20 (.tick 0 {}) ++
  .call 1 (.op 2 .eventSet) :: List.replicate 6 (.tick 1 {})

/-- A wait parks, and the event that is set is not one of its own. -/
theorem no_lost_wakeup_setOther :
    ∃ h s c seq, Run Sys.step (fun _ l _ => l.quiet = true ∧ AnyOnly l ∧
        Owners (fun o => if o = 5 then (0 : Fin 2) else 1) l)
      (Sys.rest Region.init twoWaitersPid) h s ∧
      (s.threads 0).pc = .wait c (.sleep seq .parked) ∧ (s.region.nodes (c.node 0)).seq = seq ∧
      lo32 (s.region.slots 2).w0 = 1 ∧
      ∀ k < c.handles.length, isLocked (s.region.slots (c.slotOf k)) c.owner (c.seqs k) = false := by
  obtain ⟨h, s, hr, hsleep, hset, hdone⟩ := exists_run_of_exec Sys.step
    (fun _ l _ => l.quiet = true ∧ AnyOnly l ∧ Owners (fun o => if o = 5 then (0 : Fin 2) else 1) l)
    (Sys.rest Region.init twoWaitersPid)
    (P := fun s => s.asleep 0 = true ∧ lo32 (s.region.slots 2).w0 = 1 ∧
      ∀ u, (s.threads u).pc.signals? = none) setOther (by decide +kernel)
  obtain ⟨c, seq, hpc, hseq⟩ := Sys.parked_of_asleep hsleep
  exact ⟨h, s, c, seq, hr, hpc, hseq, hset,
    no_lost_wakeup (by decide) hr (fun u i hu => by rw [hdone u] at hu; cases hu) hpc hseq⟩

end Ntsync
