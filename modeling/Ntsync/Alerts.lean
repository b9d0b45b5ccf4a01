import Mathlib
import Ntsync.Wakeups

namespace Ntsync

open Words Lts

/-!
# Alerts

An alertable wait tests its alert event, registers a node for it, and does not look at it again before it
goes to sleep.  An `event_set` on the event stores the word first and then looks for waiters.

* `Pc.alertGap?` — the event whose alert has been tested while its node is not registered yet;
* `KeepsAlerts` — no `event_set` falls into such a gap, and no wait-all gives back an event that is the
  alert of somebody else;
* `AlertHeard` — then a set on a wait's alert is under way, as long as the node is registered;
* `no_lost_alert` — so nobody sleeps on a signaled alert once the signals are done;
* `alert_in_gap_lost` — a set that falls into the gap is lost.
-/

variable {T : Type}

/-! ### Alerts that a wait has tested -/

/-- The locked pass between the alert test and the first check of an object. -/
def WaitPc.opening : WaitPc → Bool
  | .pass .alloc | .pass (.register _) => true
  | _ => false

/-- The locked pass has come to the check of the objects, or has let the wait go to sleep. -/
def WaitPc.checking : WaitPc → Bool
  | .pass (.sat _) | .pass .sample => true
  | p => p.sampled?.isSome

/-- The wait has found its alert unsignaled in its latest pass. -/
def WaitPc.heeds (p : WaitPc) : Bool := p.opening || p.checking

/-- The node for the alert is registered. -/
def WaitCtx.watches (c : WaitCtx) (r : Region) : Bool :=
  decide (c.handles.length < c.nodes.length) && (r.nodes (c.node c.handles.length)).registered

/-- The alert event that the wait has found unsignaled in its latest pass. -/
def Pc.alert? : Pc → Option Nat
  | .wait c p => if p.heeds = true ∧ c.alert ≠ 0 then some (handleIndex c.alert) else none
  | _ => none

/-- The alert event that has been tested while the node for it is not registered yet. -/
def Pc.alertGap? (r : Region) : Pc → Option Nat
  | .wait c p =>
    if p.opening = true ∧ c.alert ≠ 0 ∧ c.watches r = false then some (handleIndex c.alert) else none
  | _ => none

/-- No `event_set` falls between an alert test and the registration after it, and nobody gives back
    an event whose alert a wait heeds. -/
def KeepsAlerts (s : Sys T) : Label T → Prop
  | .instr _ _ (.word _ i (.op .eventSet) _) => ∀ t, (s.threads t).pc.alertGap? s.region ≠ some i
  | .instr _ _ (.word _ i (.rollback _) _) => ∀ t, (s.threads t).pc.alert? ≠ some i
  | _ => True

instance decidableKeepsAlerts [Fintype T] (s : Sys T) : (l : Label T) → Decidable (KeepsAlerts s l)
  | .instr _ _ (.word _ i (.op .eventSet) _) =>
    inferInstanceAs (Decidable (∀ t, (s.threads t).pc.alertGap? s.region ≠ some i))
  | .instr _ _ (.word _ i (.rollback _) _) =>
    inferInstanceAs (Decidable (∀ t, (s.threads t).pc.alert? ≠ some i))
  | .instr _ _ (.word _ _ (.op (.semRelease _)) _) | .instr _ _ (.word _ _ (.op .eventReset) _)
  | .instr _ _ (.word _ _ (.op (.mutexUnlock _)) _) | .instr _ _ (.word _ _ (.op (.mutexKill _)) _)
  | .instr _ _ (.word _ _ (.op .readSem) _) | .instr _ _ (.word _ _ (.op .readMutex) _)
  | .instr _ _ (.word _ _ (.op .readEvent) _)
  | .instr _ _ (.word _ _ .pulse _) | .instr _ _ (.word _ _ (.acquire _ _) _)
  | .instr _ _ .silent | .instr _ _ .lock | .instr _ _ .unlock | .instr _ _ (.storeD _ _)
  | .instr _ _ .allocNode | .instr _ _ (.register _ _ _) | .instr _ _ (.detach _)
  | .instr _ _ (.freeNode _) | .instr _ _ (.bump _) | .instr _ _ (.takeSlot _)
  | .instr _ _ (.store _ _) | .instr _ _ (.reap _) | .instr _ _ (.hold _ _) | .instr _ _ (.claim _)
  | .instr _ _ .countCall | .call _ _ | .die _ => inferInstanceAs (Decidable True)

section Heeds

variable {o : Oracle} {sh : Shared T} {pid : U32} {ins : Instr} {c c' : WaitCtx} {p p' : WaitPc}

/-- A wait that has sampled its futex word is past its alert test. -/
theorem WaitPc.checking_of_sampled {seq : U32} (h : p.sampled? = some seq) : p.checking = true := by
  cases p with
  | pass q => cases q <;> first | rfl | cases h
  | fast | detach | clean => cases h
  | _ => rfl

/-- A wait past its alert test is not before it. -/
theorem WaitPc.not_opening (h : p.checking = true) : p.opening = false := by
  cases p with
  | pass q => cases q <;> first | rfl | cases h
  | _ => rfl

/-- A wait before its alert test still heeds its alert. -/
theorem WaitPc.heeds_of_opening (h : p.opening = true) : p.heeds = true := by
  rw [WaitPc.heeds, h, Bool.true_or]

/-- A wait that checks its objects still heeds its alert. -/
theorem WaitPc.heeds_of_checking (h : p.checking = true) : p.heeds = true := by
  rw [WaitPc.heeds, h, Bool.or_true]

/-- The alert is tested and registered under the lock. -/
theorem WaitPc.locked_of_opening (h : p.opening = true) : (Pc.wait c p).locked = true := by
  cases p with
  | pass q => cases q <;> first | rfl | cases h
  | _ => cases h

/-- A wait that heeds its alert has all of its nodes, unless it still allocates them. -/
theorem WaitPc.heeds_nodes {r : Region} (hh : p.heeds = true) (hok : p.NodesOk r c) :
    p = .pass .alloc ∧ c.nodes.length < c.nNodes ∨
      p ≠ .pass .alloc ∧ c.nodes.length = c.nNodes ∧ p.owned c = c.nodes := by
  cases p with
  | pass q =>
    cases q with
    | alloc => exact .inl ⟨rfl, hok.1⟩
    | register | sat | sample | unlock => exact .inr ⟨by simp, hok.1, rfl⟩
    | _ => cases hh
  | fast | detach | clean => cases hh
  | _ => exact .inr ⟨by simp, hok, rfl⟩

/-- **How a wait comes to heed its alert**: it has just tested the alert, it allocates or registers
    a node, or it checks its objects or sleeps. -/
theorem WaitGo.heeds (hg : WaitGo o sh pid c p ins (.wait c' p')) (hc : (Pc.wait c p).Calm)
    (hc' : (Pc.wait c' p').Calm) (ha : c.alert ≠ 0) (hh : p'.heeds = true) :
    (∃ j, p = .pass .alertTest ∧ sh.region.slot c.alert = some j ∧
        lo32 (sh.region.slots j).w0 = 0 ∧ ins = .silent ∧ c' = c) ∨
      p = .pass .alloc ∧ ins = .allocNode ∨
      (∃ j, p = .pass (.register j) ∧ c' = c ∧
        (ins = .silent ∨ ∃ i w, ins = .register (c.node j) i w)) ∨
      p.checking = true ∧ p'.opening = false ∧ c' = c ∧
        ∀ t : T, (ins.apply t pid sh).region.nodes = sh.region.nodes := by
  cases hseq : p'.sampled? with
  | some seq =>
    obtain ⟨rfl, hkeep, hcase⟩ := hg.sampled hseq
    have hnodes := hkeep hc hc'
    refine .inr (.inr (.inr ⟨?_, ?_, rfl, hnodes⟩))
    · rcases hcase with hs | ⟨rfl, _⟩
      · exact WaitPc.checking_of_sampled hs
      · rfl
    · exact WaitPc.not_opening (WaitPc.checking_of_sampled hseq)
  | none =>
    have hvalidate : ∀ i, (c.validateNext i).heeds = false := by
      intro i
      unfold WaitCtx.validateNext
      rw [if_pos ha]
      split <;> rfl
    have haside : p'.aside = false := by
      cases p' with
      | pass q => cases q <;> first | rfl | cases hh
      | fast | detach | clean => cases hh
      | _ => cases hseq
    -- a wait that has no sample yet is in its locked pass
    obtain ⟨q, rfl, hpass⟩ := hg.passing hseq haside
    generalize hpc : Pc.wait c' p' = pc' at hpass
    cases hpass with
    | validateFirst | validate =>
      cases hpc
      rw [hvalidate] at hh
      cases hh
    | @alertClear j hj hlo =>
      cases hpc
      exact .inl ⟨j, rfl, hj, hlo, rfl, rfl⟩
    | alloc => exact .inr (.inl ⟨rfl, rfl⟩)
    | @registerSkip j =>
      cases hpc
      exact .inr (.inr (.inl ⟨j, rfl, rfl, .inl rfl⟩))
    | @register j =>
      cases hpc
      exact .inr (.inr (.inl ⟨j, rfl, rfl, .inr ⟨_, _, rfl⟩⟩))
    | sat | fail =>
      cases hpc
      exact .inr (.inr (.inr ⟨rfl, rfl, rfl, satInstr_nodes _ _⟩))
    | alertPanic => cases hpc
    | sample | unlock =>
      cases hpc
      cases hseq
    | _ =>
      cases hpc
      cases hh

/-- The alert is tested after it was validated. -/
theorem WaitGo.tests (hg : WaitGo o sh pid c p ins (.wait c' (.pass .alertTest))) :
    c' = c ∧ ins = .silent ∧
      ∃ j, sh.region.slot c.alert = some j ∧ (sh.region.slots j).objType = .event := by
  obtain ⟨q, rfl, hpass⟩ := hg.passing rfl rfl
  have hnext : ∀ i, c.validateNext i ≠ .pass .alertTest := by
    intro i
    unfold WaitCtx.validateNext WaitCtx.afterAlert
    split
    · simp
    · split
      · simp
      · split <;> simp
  have hafter : c.afterAlert ≠ .pass .alertTest := by
    unfold WaitCtx.afterAlert
    split <;> simp
  -- all other ways into the pass skip the alert
  generalize hpc : Pc.wait c' (.pass .alertTest) = pc' at hpass
  cases hpass with
  | validateFirst | validate =>
    simp only [Pc.wait.injEq] at hpc
    exact absurd hpc.2.symm (hnext _)
  | alertClear =>
    simp only [Pc.wait.injEq] at hpc
    exact absurd hpc.2.symm hafter
  | validateAlert hj hty =>
    cases hpc
    exact ⟨rfl, rfl, _, hj, hty⟩
  | alloc =>
    simp only [Pc.wait.injEq, WaitPc.pass.injEq] at hpc
    obtain ⟨_, hp⟩ := hpc
    unfold WaitCtx.allocNext at hp
    split at hp <;> cases hp
  | registerSkip | register =>
    simp only [Pc.wait.injEq, WaitPc.pass.injEq] at hpc
    obtain ⟨_, hp⟩ := hpc
    unfold WaitCtx.registerNext at hp
    split at hp <;> cases hp
  | _ => cases hpc

/-- A pulse stores the word under the lock. -/
theorem PcGo.pulse_locked {pc pc' : Pc} {h : U32} {i : Nat} {new : U64}
    (hg : PcGo sh pid o pc (.word h i .pulse new) pc') : pc.locked = true := by
  rcases hg.word with ⟨_, _, _, _, _, _, htag, _⟩ | ⟨_, _, rfl, _⟩ | ⟨c, q, p, rfl, hsat⟩
  · cases htag
  · rfl
  · obtain ⟨w, _, _, hins, _⟩ := hg.sat (c := c) (p := p) (by simp [Pc.sat?, hsat])
    rcases w with _ | w
    · cases hins
    · cases w <;> simp [satInstr, SatWrite.instr] at hins

end Heeds

/-! ### The event behind an alert -/

/-- The alert that a wait tests, or has tested, is an event in use. -/
def AlertEvent (s : Sys T) : Prop :=
  ∀ t c p, (s.threads t).pc = .wait c p → c.alert ≠ 0 → (p = .pass .alertTest ∨ p.heeds = true) →
    (s.region.slots (handleIndex c.alert)).state = .used ∧
      (s.region.slots (handleIndex c.alert)).objType = .event

/-- While the alert's node is registered, an alert that has come since its test is under way. -/
def AlertHeard (s : Sys T) : Prop :=
  ∀ t c p, (s.threads t).pc = .wait c p → c.alert ≠ 0 → p.heeds = true →
    lo32 (s.region.slots (handleIndex c.alert)).w0 ≠ 0 →
    (p.opening = true → c.watches s.region = true) ∧
      (c.watches s.region = true → ∃ u, (s.threads u).pc.signals? = some (handleIndex c.alert))

/-- At rest there are no alerts. -/
theorem AlertEvent.of_idle {s : Sys T} (hidle : s.Idle) : AlertEvent s := by
  intro t c p hpc
  rcases Pc.outside_cases (hidle t) with h | ⟨_, _, h⟩ <;> rw [h] at hpc <;> cases hpc

/-- At rest no alert has been missed. -/
theorem AlertHeard.of_idle {s : Sys T} (hidle : s.Idle) : AlertHeard s := by
  intro t c p hpc
  rcases Pc.outside_cases (hidle t) with h | ⟨_, _, h⟩ <;> rw [h] at hpc <;> cases hpc

/-- A wait begins on the fast path. -/
theorem Pc.start_fast {cl : Call} {c : WaitCtx} {p : WaitPc} (h : Pc.start cl = .wait c p) :
    p = .fast (.look 0 .state) := by
  cases cl with
  | wait a timeout =>
    simp only [Pc.start] at h
    split at h <;> cases h
    rfl
  | pulse | sweepDead => cases h
  | _ =>
    simp only [Pc.start] at h
    split at h <;> cases h

section Steps

variable [DecidableEq T] {s s' : Sys T} {a : Action T} {l : Label T} {t u : T} {o : Oracle}
  {ins : Instr} {pc' : Pc} {c : WaitCtx} {p : WaitPc} {i : Nat}

/-- In quiet runs an alert that was an event when it was looked up stays one. -/
theorem AlertEvent.step (he : AlertEvent s) (hi : QuietInv s) (h : s.step a = some (s', l))
    (hq : l.quiet = true) : AlertEvent s' := by
  have hi' := hi.step h hq
  intro u c p hpc hne hp
  cases Sys.step_inv h with
  | @call t cl ha hout =>
    rw [Sys.entered_pc] at hpc
    split at hpc
    · rw [Pc.start_fast hpc] at hp
      rcases hp with hp | hp <;> cases hp
    · exact he u c p hpc hne hp
  | @tick t o ins pc' ha ht =>
    have hkept : (s.region.slots (handleIndex c.alert)).state = .used ∧
          (s.region.slots (handleIndex c.alert)).objType = .event →
        ((s.after t ins pc').region.slots (handleIndex c.alert)).state = .used ∧
          ((s.after t ins pc').region.slots (handleIndex c.alert)).objType = .event := by
      rintro ⟨hu, hty⟩
      have hx := hi.slot_after ht hq hu
      exact ⟨hx.state.trans hu, hx.objType.trans hty⟩
    have hcalm' := hi'.calm u
    rw [hpc] at hcalm'
    rw [Sys.after_pc] at hpc
    split at hpc
    · rename_i hut
      subst hut hpc
      obtain ⟨c₀, p₀, hpc₀, hg, hargs⟩ := (tick_inv ht).of_wait
      have hcalm := hi.calm u
      rw [hpc₀] at hcalm
      have halert : c.alert = c₀.alert := by rw [hargs]
      rw [halert] at hne hkept ⊢
      refine hkept ?_
      rcases hp with rfl | hp
      · obtain ⟨_, _, j, hj, hty⟩ := hg.tests
        obtain ⟨rfl, hused, _⟩ := Region.slot_eq_some.mp hj
        exact ⟨hused, hty⟩
      · refine he u c₀ p₀ hpc₀ hne ?_
        rcases hg.heeds hcalm hcalm' hne hp with ⟨_, rfl, _⟩ | ⟨rfl, _⟩ | ⟨_, rfl, _⟩ | ⟨hch, _⟩
        · exact .inl rfl
        · exact .inr rfl
        · exact .inr rfl
        · exact .inr (WaitPc.heeds_of_checking hch)
    · exact hkept (he u c p hpc hne hp)
  | die => cases hq

omit [DecidableEq T] in
/-- The registered node of an alert stands for the alert's event. -/
theorem LiveInv.watched (hi : LiveInv s) (hpc : (s.threads t).pc = .wait c p)
    (hh : p.heeds = true) (hw : c.watches s.region = true) :
    c.node c.handles.length ∈ (s.threads t).pc.waitNodes ∧
      (s.region.nodes (c.node c.handles.length)).registered = true ∧
      (s.region.nodes (c.node c.handles.length)).obj = some (handleIndex c.alert) := by
  obtain ⟨L, F, U, hp⟩ := hi.nodes.pool
  simp only [WaitCtx.watches, Bool.and_eq_true, decide_eq_true_eq] at hw
  obtain ⟨hlt, hreg⟩ := hw
  rcases WaitPc.heeds_nodes hh ((hp.knows t (hi.alive _)).nodes c p hpc) with
    ⟨_, hfew⟩ | ⟨_, _, hown⟩
  · unfold WaitCtx.nNodes at hfew
    split at hfew <;> omega
  · have hmem : c.node c.handles.length ∈ p.owned c := by
      rw [hown]
      exact WaitCtx.node_mem hlt
    refine ⟨by rw [hpc]; exact hmem, hreg, ?_⟩
    rw [(hi.entry hpc hlt hmem hreg).1, WaitCtx.target, if_neg (by omega)]

/-- **What makes an event signaled**: a set or a pulse, which walk its waiters next, or a rollback.
    -/
theorem QuietInv.alarm (hi : QuietInv s)
    (ht : tick o s.toShared (s.threads t).pid (s.threads t).calls (s.threads t).pc =
      some (ins, pc'))
    (hq : (Label.instr t (s.threads t).pid ins).quiet = true)
    (hu : (s.region.slots i).state = .used) (hev : (s.region.slots i).objType = .event)
    (hlo : lo32 ((s.after t ins pc').region.slots i).w0 ≠ 0) :
    lo32 (s.region.slots i).w0 ≠ 0 ∨
      pc'.signals? = some i ∧
        (∃ h new, ins = .word h i (.op .eventSet) new ∨ ins = .word h i .pulse new) ∨
      ∃ h z new, ins = .word h i (.rollback z) new := by
  rw [(hi.slot_after ht hq hu).w0] at hlo
  cases ins with
  | word h j tag new =>
    by_cases hij : i = j
    · subst hij
      rw [show Instr.wordAfter i (s.region.slots i).w0 (.word h i tag new) = new from if_pos rfl]
        at hlo
      -- which of the four kinds of store it was
      cases hi.stores ht with
      | @op op p r wake hpc hop hb hwake =>
        rcases Op.pass_event (hop.trans hev) hb with ⟨rfl, _, _, _, rfl⟩ | ⟨_, hlo₀, _⟩
        · exact .inr (.inl ⟨hwake rfl, h, new, .inl rfl⟩)
        · exact .inl hlo₀
      | pulse hsig => exact .inr (.inl ⟨hsig, h, new, .inr rfl⟩)
      | acquire hne htakes =>
        unfold AcqTakes at htakes
        rw [hev] at htakes
        obtain ⟨_, ⟨hnone, _⟩ | ⟨_, hlo₀⟩⟩ := htakes
        · cases hnone
        · exact .inl hlo₀
      | rollback => exact .inr (.inr ⟨_, _, _, rfl⟩)
    · rw [show Instr.wordAfter i (s.region.slots i).w0 (.word h j tag new) = _ from if_neg hij]
        at hlo
      exact .inl hlo
  | _ => exact .inl hlo

/-- The node of an alert stays registered while the wait holds the lock. -/
theorem LiveInv.watches_kept (hi : LiveInv s)
    (ht : tick o s.toShared (s.threads t).pid (s.threads t).calls (s.threads t).pc =
      some (ins, pc'))
    (hut : u ≠ t) (hpc : (s.threads u).pc = .wait c p) (hop : p.opening = true)
    (hw : c.watches s.region = true) : c.watches (s.after t ins pc').region = true := by
  obtain ⟨L, F, U, hp⟩ := hi.nodes.pool
  have hh : p.heeds = true := WaitPc.heeds_of_opening hop
  obtain ⟨hmem, hreg, _⟩ := hi.watched hpc hh hw
  have hlocked : (s.threads u).pc.locked = true := by
    rw [hpc]
    exact WaitPc.locked_of_opening hop
  simp only [WaitCtx.watches, Bool.and_eq_true, decide_eq_true_eq] at hw ⊢
  refine ⟨hw.1, Instr.registered_kept ?_ (fun m r _ hal hnm => ?_) hreg⟩
  · -- a detach belongs to the wait, or to a walk, which needs the lock
    rintro rfl
    rcases hi.nodes.detaches (hi.alive _) ht (hi.alive _) hmem with ⟨he, _⟩ | ⟨i, hwalk⟩
    · exact hut he
    · exact hut (hi.nodes.table.lock.unique hlocked (hi.alive _) (Pc.locked_of_walk hwalk)
        (hi.alive _))
  · obtain ⟨F', _, hal'⟩ := hp.lists.alloc hal
    exact hp.unowned hal' (hi.alive _) (hnm ▸ List.mem_append_left _ hmem)

/-- A step of another thread, on an alert. -/
theorem AlertHeard.other (hh : AlertHeard s) (hi : QuietInv s) (he : AlertEvent s)
    (ht : tick o s.toShared (s.threads t).pid (s.threads t).calls (s.threads t).pc =
      some (ins, pc'))
    (hq : (Label.instr t (s.threads t).pid ins).quiet = true)
    (hka : KeepsAlerts s (.instr t (s.threads t).pid ins)) (hut : u ≠ t)
    (hpc : (s.threads u).pc = .wait c p) (hne : c.alert ≠ 0) (hp : p.heeds = true)
    (hlo : lo32 ((s.after t ins pc').region.slots (handleIndex c.alert)).w0 ≠ 0) :
    (p.opening = true → c.watches (s.after t ins pc').region = true) ∧
      (c.watches (s.after t ins pc').region = true →
        ∃ v, ((s.after t ins pc').threads v).pc.signals? = some (handleIndex c.alert)) := by
  obtain ⟨hused, hev⟩ := he u c p hpc hne (.inr hp)
  -- nobody else registers the node
  have hback : c.watches (s.after t ins pc').region = true → c.watches s.region = true := by
    intro hw
    simp only [WaitCtx.watches, Bool.and_eq_true, decide_eq_true_eq] at hw ⊢
    obtain ⟨hlt, hreg⟩ := hw
    obtain ⟨L, F, U, hpool⟩ := hi.nodes.pool
    refine ⟨hlt, ?_⟩
    rcases WaitPc.heeds_nodes hp ((hpool.knows u (hi.alive _)).nodes c p hpc) with
      ⟨_, hfew⟩ | ⟨_, _, hown⟩
    · unfold WaitCtx.nNodes at hfew
      split at hfew <;> omega
    · refine ((hi.others ht hut ?_).back hreg).1
      rw [hpc]
      show _ ∈ p.owned c
      rw [hown]
      exact WaitCtx.node_mem hlt
  rcases hi.alarm ht hq hused hev hlo with hlo₀ | ⟨hsig, h, new, hins⟩ | ⟨h, z, new, rfl⟩
  · obtain ⟨hopen, hheard⟩ := hh u c p hpc hne hp hlo₀
    refine ⟨fun hop => hi.watches_kept ht hut hpc hop (hopen hop), fun hw => ?_⟩
    obtain ⟨_, hreg, hobj⟩ := hi.watched hpc hp (hback hw)
    exact hi.signals_after ht hreg hobj (hheard (hback hw))
  · refine ⟨fun hop => hi.watches_kept ht hut hpc hop ?_, fun _ => Sys.signals_begun hsig⟩
    rcases hins with rfl | rfl
    · -- the set does not fall into the gap
      by_contra hw
      rw [Bool.not_eq_true] at hw
      refine hka u ?_
      rw [hpc]
      exact if_pos ⟨hop, hne, hw⟩
    · -- a pulse holds the lock
      have hlt := (tick_inv ht).pulse_locked
      have hlu : (s.threads u).pc.locked = true := by
        rw [hpc]
        exact WaitPc.locked_of_opening hop
      exact absurd (hi.nodes.table.lock.unique hlu (hi.alive _) hlt (hi.alive _)) hut
  · -- no rollback raises an alert that is heeded
    refine absurd ?_ (hka u)
    rw [hpc]
    exact if_pos ⟨hp, hne⟩

/-- A step of the wait itself. -/
theorem AlertHeard.itself (hh : AlertHeard s) (hi : QuietInv s) (he : AlertEvent s)
    (hi' : QuietInv (s.after t ins (.wait c p)))
    (ht : tick o s.toShared (s.threads t).pid (s.threads t).calls (s.threads t).pc =
      some (ins, .wait c p))
    (hq : (Label.instr t (s.threads t).pid ins).quiet = true)
    (hka : KeepsAlerts s (.instr t (s.threads t).pid ins)) (hne : c.alert ≠ 0) (hp : p.heeds = true)
    (hlo : lo32 ((s.after t ins (.wait c p)).region.slots (handleIndex c.alert)).w0 ≠ 0) :
    (p.opening = true → c.watches (s.after t ins (.wait c p)).region = true) ∧
      (c.watches (s.after t ins (.wait c p)).region = true →
        ∃ v, ((s.after t ins (.wait c p)).threads v).pc.signals? = some (handleIndex c.alert)) := by
  have hcalm' := hi'.calm t
  rw [Sys.after_pc, if_pos rfl] at hcalm'
  obtain ⟨c₀, p₀, hpc, hg, hargs⟩ := (tick_inv ht).of_wait
  have hcalm := hi.calm t
  rw [hpc] at hcalm
  have halert : c.alert = c₀.alert := by rw [hargs]
  rw [halert] at hne hlo ⊢
  have hcase := hg.heeds hcalm hcalm' hne hp
  have htested : p₀ = .pass .alertTest ∨ p₀.heeds = true := by
    rcases hcase with ⟨_, rfl, _⟩ | ⟨rfl, _⟩ | ⟨_, rfl, _⟩ | ⟨hch, _⟩
    · exact .inl rfl
    · exact .inr rfl
    · exact .inr rfl
    · exact .inr (WaitPc.heeds_of_checking hch)
  obtain ⟨hused, hev⟩ := he t c₀ p₀ hpc hne htested
  -- the wait does not raise its own alert
  have hbefore : p₀.heeds = true → lo32 (s.region.slots (handleIndex c₀.alert)).w0 ≠ 0 := by
    intro hp₀
    rcases hi.alarm ht hq hused hev hlo with h | ⟨h, _⟩ | ⟨h, z, new, rfl⟩
    · exact h
    · cases h
    · refine absurd ?_ (hka t)
      rw [hpc]
      exact if_pos ⟨hp₀, hne⟩
  rcases hcase with ⟨j, rfl, hj, hlo₀, rfl, rfl⟩ | ⟨rfl, rfl⟩ | ⟨j, rfl, rfl, hins⟩ |
    ⟨hch, hop, rfl, hnodes⟩
  · -- the alert was clear when it was tested
    obtain ⟨rfl, _⟩ := Region.slot_eq_some.mp hj
    exact absurd hlo₀ hlo
  · -- no node stands for the alert yet
    obtain ⟨L, F, U, hpool⟩ := hi.nodes.pool
    have hfew := ((hpool.knows t (hi.alive _)).nodes c₀ _ hpc).1
    have hw := (hh t c₀ _ hpc hne rfl (hbefore rfl)).1 rfl
    simp only [WaitCtx.watches, Bool.and_eq_true, decide_eq_true_eq] at hw
    unfold WaitCtx.nNodes at hfew
    split at hfew <;> omega
  · -- registering other nodes leaves the alert's on its list
    obtain ⟨hopen, hheard⟩ := hh t c _ hpc hne rfl (hbefore rfl)
    have hw := hopen rfl
    refine ⟨fun _ => ?_, fun _ => Sys.signals_kept hpc (hheard hw)⟩
    simp only [WaitCtx.watches, Bool.and_eq_true, decide_eq_true_eq] at hw ⊢
    refine ⟨hw.1, Instr.registered_kept (fun hd => ?_) (fun m r hal _ => ?_) hw.2⟩
    · subst hd
      rcases hins with hins | ⟨_, _, hins⟩ <;> cases hins
    · subst hal
      rcases hins with hins | ⟨_, _, hins⟩ <;> cases hins
  · have hp₀ : p₀.heeds = true := WaitPc.heeds_of_checking hch
    refine ⟨fun h => ?_, fun hw => Sys.signals_kept hpc ?_⟩
    · rw [hop] at h
      cases h
    · refine (hh t c p₀ hpc hne hp₀ (hbefore hp₀)).2 ?_
      unfold WaitCtx.watches at hw ⊢
      rw [show (s.after t ins (.wait c p)).region.nodes = s.region.nodes from hnodes t] at hw
      exact hw

/-- **An alert is under way as long as its node is registered**, in every quiet step that keeps the
    alerts. -/
theorem AlertHeard.step (hh : AlertHeard s) (hi : QuietInv s) (he : AlertEvent s)
    (h : s.step a = some (s', l)) (hq : l.quiet = true) (hka : KeepsAlerts s l) :
    AlertHeard s' := by
  have hi' := hi.step h hq
  intro u c p hpc hne hp hlo
  cases Sys.step_inv h with
  | @call t cl hal hout =>
    rw [Sys.entered_pc] at hpc
    split at hpc
    · rw [Pc.start_fast hpc] at hp
      cases hp
    · obtain ⟨hopen, hheard⟩ := hh u c p hpc hne hp hlo
      exact ⟨hopen, fun hw => Sys.signals_entered hout (hheard hw)⟩
  | @tick t o ins pc' hal ht =>
    rw [Sys.after_pc] at hpc
    by_cases hut : u = t
    · subst hut
      rw [if_pos rfl] at hpc
      subst hpc
      exact hh.itself hi he hi' ht hq hka hne hp hlo
    · rw [if_neg hut] at hpc
      exact hh.other hi he ht hq hka hut hpc hne hp hlo
  | die => cases hq

/-- **No alert is lost outside the gap.** In every run in which nobody closes an object or dies, no
    `event_set` falls between the alert test of a wait and the registration of its node, and no
    wait-all gives back an event that is the alert of a wait: once all signals have finished their
    wake walks, no alertable wait, for any or for all of its objects, is parked on an unchanged
    futex word while its alert event is signaled. -/
theorem no_lost_alert {pid : T → U32} (hpid : ∀ t, pid t ≠ 0) {h : List (Label T)}
    (hr : Run Sys.step (fun s l _ => l.quiet = true ∧ KeepsAlerts s l)
      (Sys.rest Region.init pid) h s)
    (hdone : ∀ u i, (s.threads u).pc.signals? ≠ some i) {seq : U32}
    (hpc : (s.threads t).pc = .wait c (.sleep seq .parked)) (hne : c.alert ≠ 0)
    (hseq : (s.region.nodes (c.node 0)).seq = seq) :
    lo32 (s.region.slots (handleIndex c.alert)).w0 = 0 := by
  have hidle : (Sys.rest Region.init pid).Idle := fun _ => rfl
  have hinv : QuietInv s ∧ CountInv 0 s ∧ AlertEvent s ∧ AlertHeard s := by
    refine hr.state_invariant (I := fun s => QuietInv s ∧ CountInv 0 s ∧ AlertEvent s ∧ AlertHeard s)
      ⟨.of_init hpid, .of_idle hidle, .of_idle hidle, .of_idle hidle⟩ ?_
    rintro s a s' l ⟨hi, hcnt, he, hh⟩ hs ⟨hq, hka⟩
    exact ⟨hi.step hs hq, hcnt.live_step hi.toLiveInv hs (Label.live_of_quiet hq), he.step hi hs hq,
      hh.step hi he hs hq hka⟩
  obtain ⟨hi, hcnt, _, hh⟩ := hinv
  by_contra hlo
  -- the last node stands for the alert, and it is still registered
  have hlt : c.handles.length < c.nNodes := by
    rw [WaitCtx.nNodes, if_pos hne]
    omega
  obtain ⟨_, _, _, hlen⟩ := hi.sleeper hpc rfl
  have hw : c.watches s.region = true := by
    simp only [WaitCtx.watches, Bool.and_eq_true, decide_eq_true_eq]
    exact ⟨hlen ▸ hlt, hi.parked_registered hcnt hdone hpc hseq hlt⟩
  obtain ⟨u, hu⟩ := (hh t c _ hpc hne rfl hlo).2 hw
  exact hdone u _ hu

end Steps

/-- Thread 0 sleeps on an event, with an alert. -/
def alertable : List (Action (Fin 2)) :=
  .call 0 (.create (.event false false)) :: List.replicate 18 (.tick 0 {}) ++
  .call 0 (.create (.event false false)) :: List.replicate 18 (.tick 0 {}) ++
  .call 0 (.wait ⟨[1], 5, false, 2⟩ .never) :: List.replicate 30 (.tick 0 {})

/-- Thread 1 alerts thread 0, which returns; the alert is reset, and thread 0 waits again. -/
def alertedOnce : List (Action (Fin 2)) :=
  alertable ++
  .call 1 (.op 2 .eventSet) :: List.replicate 12 (.tick 1 {}) ++ List.replicate 17 (.tick 0 {}) ++
  .call 1 (.op 2 .eventReset) :: List.replicate 5 (.tick 1 {}) ++
  .call 0 (.wait ⟨[1], 5, false, 2⟩ .never) :: List.replicate 30 (.tick 0 {})

/-- A wait parks with its alert clear. -/
theorem no_lost_alert_alertedOnce :
    ∃ h s c seq, Run Sys.step (fun s l _ => l.quiet = true ∧ KeepsAlerts s l)
        (Sys.rest Region.init twoWaitersPid) h s ∧
      (s.threads 0).pc = .wait c (.sleep seq .parked) ∧ (s.region.nodes (c.node 0)).seq = seq ∧
      handleIndex c.alert = 2 ∧ lo32 (s.region.slots (handleIndex c.alert)).w0 = 0 := by
  obtain ⟨h, s, hr, hsleep, halert, hdone⟩ := exists_run_of_exec Sys.step
    (fun s l _ => l.quiet = true ∧ KeepsAlerts s l) (Sys.rest Region.init twoWaitersPid)
    (P := fun s => s.asleep 0 = true ∧
      ((s.threads 0).pc.parked?.all fun x => decide (x.1.alert = 2)) = true ∧
      ∀ u, (s.threads u).pc.signals? = none) alertedOnce (by decide +kernel)
  obtain ⟨x, hx, hseq⟩ := (Option.any_eq_true _ _).mp hsleep
  have h2 : x.1.alert = 2 := of_decide_eq_true (by rw [hx] at halert; exact halert)
  have hpc := Pc.eq_of_parked hx
  exact ⟨h, s, x.1, x.2, hr, hpc, of_decide_eq_true hseq, by rw [h2]; rfl,
    no_lost_alert (by decide) hr (fun u i hu => by rw [hdone u] at hu; cases hu) hpc
      (by rw [h2]; decide) (of_decide_eq_true hseq)⟩

/-- An alert that falls into the gap is lost: thread 1 sets the event after thread 0 has tested it,
    and thread 0 sleeps on it with all signals done. -/
theorem alert_in_gap_lost :
    ∃ h s c seq, Run Sys.step (fun _ l _ => l.quiet = true) (Sys.rest Region.init twoWaitersPid) h s ∧
      (∀ u i, (s.threads u).pc.signals? ≠ some i) ∧
      (s.threads 0).pc = .wait c (.sleep seq .parked) ∧ c.alert ≠ 0 ∧
      (s.region.nodes (c.node 0)).seq = seq ∧
      lo32 (s.region.slots (handleIndex c.alert)).w0 = 1 := by
  obtain ⟨h, s, hr, hsleep, halert, hlo, hdone⟩ := exists_run_of_exec Sys.step
    (fun _ l _ => l.quiet = true) (Sys.rest Region.init twoWaitersPid)
    (P := fun s => s.asleep 0 = true ∧
      ((s.threads 0).pc.parked?.all fun x => decide (x.1.alert = 2)) = true ∧
      lo32 (s.region.slots 2).w0 = 1 ∧ ∀ u, (s.threads u).pc.signals? = none)
    (alertable.take 59 ++ .call 1 (.op 2 .eventSet) :: List.replicate 6 (.tick 1 {}) ++
      List.replicate 10 (.tick 0 {})) (by decide +kernel)
  obtain ⟨x, hx, hseq⟩ := (Option.any_eq_true _ _).mp hsleep
  have h2 : x.1.alert = 2 := of_decide_eq_true (by rw [hx] at halert; exact halert)
  refine ⟨h, s, x.1, x.2, hr, fun u i hu => ?_, Pc.eq_of_parked hx, by rw [h2]; decide,
    of_decide_eq_true hseq, by rw [h2]; exact hlo⟩
  rw [hdone u] at hu
  cases hu

end Ntsync
