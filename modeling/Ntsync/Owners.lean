import Mathlib
import Ntsync.Tables
import Ntsync.Lists

namespace Ntsync

open Words Links

/-!
# Who owns which node

A node that is off the free list belongs to the wait that allocated it, until `waiter_cleanup` or a
reap gives it back.  Wake walks detach other waits' nodes but never own them.

* `Pc.waitNodes`, `Pc.reaped` — the nodes of a thread's wait, and the node its sweep is about to
  free;
* `PoolGo` — every step that changes a list or the pool, with what it knows about the node; all
  other steps keep the links and own no more than before (`PcGo.pool`);
* `PcGo.walk`, `PcGo.noWalk` — a wake walk seen from its thread;
* `Pc.bumps?` — the word that a wake walk is about to bump, having detached a node of its wait.
-/

variable {T : Type}

/-! ### Ownership -/

/-- The nodes a wait has not given back. -/
def WaitPc.owned (c : WaitCtx) : WaitPc → List Nat
  | .clean _ (.free todo) => todo
  | .clean _ .unlock => []
  | _ => c.nodes

def Pc.waitNodes : Pc → List Nat
  | .wait c p => p.owned c
  | _ => []

/-- The node a sweep has detached and is about to free. -/
def SweepPc.reaped : SweepPc → List Nat
  | .reapFree _ n _ => [n]
  | _ => []

def Pc.reaped (pc : Pc) : List Nat :=
  match pc.sweep? with
  | some (_, p) => p.reaped
  | none => []

/-- The nodes a thread owns. -/
def Pc.owned (pc : Pc) : List Nat := pc.waitNodes ++ pc.reaped

/-- The slot a sweep has marked free and not yet emptied of waiters. -/
def SweepPc.frees? : SweepPc → Option Nat
  | .reapGen _ i _ | .reapWalk _ i _ _ => some i
  | _ => none

/-- The slot a thread has marked free and not yet emptied of waiters. -/
def Pc.frees? : Pc → Option Nat
  | .close h .gen | .close h (.walk _) => some (handleIndex h)
  | pc => pc.sweep?.bind fun x => x.2.frees?

/-- The instructions that change a list. -/
def Instr.lists : Instr → Bool
  | .allocNode | .register _ _ _ | .detach _ | .freeNode _ | .takeSlot _ => true
  | _ => false

/-- What changes a list or the pool is done under the lock. -/
theorem Instr.lists_guarded {ins : Instr} (h : ins.lists = true) : ins.guarded = true := by
  cases ins <;> first | rfl | cases h

/-! ### Wake walks -/

section WalkView

variable {o : Oracle} {sh : Shared T} {pid : U32} {ins : Instr} {pc pc' : Pc}

/-- How a call goes on after a step of its wake walk over slot `i`. -/
def FollowsWalk (i : Nat) (pc' : Pc) : Out Walk Unit → Prop
  | .more w => pc'.walk? = some (i, w)
  | .done _ => pc'.walk? = none

/-- A sweep in the wake walk of a reaped slot goes on with the walk, and returns to its candidates
    after it. -/
theorem SweepGo.walkView {auto : Bool} {p : SweepPc} {i : Nat} {w : Walk} {out : Out SweepPc Nat}
    (hg : SweepGo auto sh p ins out) (hw : p.walk? = some (i, w)) :
    ∃ q, WalkGo sh.region i w ins q ∧ ∃ p', out = .more p' ∧ p'.reaped = [] ∧
      p'.walk? = match q with
        | .more w' => some (i, w')
        | .done _ => none := by
  cases hg with
  | walk hs =>
    cases hw
    exact ⟨_, Walk.step_inv hs, _, rfl, rfl, rfl⟩
  | walked hs =>
    cases hw
    exact ⟨_, Walk.step_inv hs, _, rfl, rfl, rfl⟩
  | _ => cases hw

/-- The wake walk of a sweep. -/
theorem Pc.walk?_sweep {auto : Bool} {p : SweepPc} (h : pc.sweep? = some (auto, p)) :
    pc.walk? = p.walk? := by
  unfold Pc.sweep? at h
  split at h <;> cases h <;> rfl

/-- The nodes a thread is about to free are those of its sweep. -/
theorem Pc.reaped_sweep {auto : Bool} {p : SweepPc} (h : pc.sweep? = some (auto, p)) :
    pc.reaped = p.reaped := by
  rw [Pc.reaped, h]

/-- Without a sweep there are none. -/
theorem Pc.reaped_none (h : pc.sweep? = none) : pc.reaped = [] := by
  rw [Pc.reaped, h]

/-- During a wake walk there are none. -/
theorem Pc.reaped_of_walk {i : Nat} {w : Walk} (h : pc.walk? = some (i, w)) : pc.reaped = [] := by
  cases hsw : pc.sweep? with
  | none => exact Pc.reaped_none hsw
  | some x =>
    obtain ⟨auto, p⟩ := x
    rw [Pc.walk?_sweep hsw] at h
    rw [Pc.reaped_sweep hsw]
    cases p <;> first | rfl | cases h

/-- A sweep leaves the nodes of its wait alone. -/
theorem PcGo.sweep_waitNodes {x : Bool × SweepPc} (hg : PcGo sh pid o pc ins pc')
    (h : pc.sweep? = some x) : pc'.waitNodes = pc.waitNodes := by
  unfold Pc.sweep? at h
  split at h <;> cases h
  · cases hg with
    | wait hg =>
      cases hg with
      | sweep hg => cases hg <;> rfl
  · cases hg with
    | create hg => cases hg <;> rfl
  · cases hg with
    | sweepDead hg => cases hg <;> rfl

/-- **A step of a running wake walk.** -/
theorem PcGo.walk {i : Nat} {w : Walk} (hg : PcGo sh pid o pc ins pc')
    (hw : pc.walk? = some (i, w)) :
    ∃ q, WalkGo sh.region i w ins q ∧ FollowsWalk i pc' q ∧ pc'.waitNodes = pc.waitNodes ∧
      pc'.reaped = [] := by
  cases hsw : pc.sweep? with
  | some x =>
    obtain ⟨auto, p⟩ := x
    obtain ⟨out, hs, hf⟩ := hg.sweep hsw
    rw [Pc.walk?_sweep hsw] at hw
    obtain ⟨q, hq, p', rfl, hr, hp'⟩ := hs.walkView hw
    have hpc' : pc'.sweep? = some (auto, p') := hf
    refine ⟨q, hq, ?_, hg.sweep_waitNodes hsw, by rw [Pc.reaped_sweep hpc', hr]⟩
    cases q <;> exact (Pc.walk?_sweep hpc').trans hp'
  | none =>
    cases hg with
    | op hg =>
      cases hg with
      | walk hs => cases hw; exact ⟨_, Walk.step_inv hs, rfl, rfl, rfl⟩
      | walked hs => cases hw; exact ⟨_, Walk.step_inv hs, rfl, rfl, rfl⟩
      | bad hp =>
        rename_i p
        cases p <;> cases hp <;> cases hw
      | _ => cases hw
    | pulse hg =>
      cases hg with
      | walk hs => cases hw; exact ⟨_, Walk.step_inv hs, rfl, rfl, rfl⟩
      | walked hs => cases hw; exact ⟨_, Walk.step_inv hs, rfl, rfl, rfl⟩
      | _ => cases hw
    | close hg =>
      cases hg with
      | walk hs => cases hw; exact ⟨_, Walk.step_inv hs, rfl, rfl, rfl⟩
      | walked hs => cases hw; exact ⟨_, Walk.step_inv hs, rfl, rfl, rfl⟩
      | _ => cases hw
    | @wait c p _ _ hg =>
      cases p with
      | sweep seq timedOut p => cases p <;> first | cases hw | cases hsw
      | _ => cases hw
    | create hg => cases hg <;> first | cases hw | cases hsw
    | hold hg => cases hw
    | sweepDead hg => cases hg <;> first | cases hw | cases hsw

/-- **Only wake walks wake.** -/
theorem PcGo.bump {n : Nat} (hg : PcGo sh pid o pc (.bump n) pc') :
    ∃ i next, pc.walk? = some (i, .bump (some n) next) := by
  generalize hins : Instr.bump n = ins at hg
  cases hw : pc.walk? with
  | some x =>
    obtain ⟨i, w⟩ := x
    obtain ⟨q, hq, _⟩ := hg.walk hw
    cases hq <;> cases hins
    exact ⟨_, _, rfl⟩
  | none =>
    -- an attempt stores words, a cleanup detaches
    have hsat : ∀ a w, satInstr a w ≠ .bump n := by
      intro a w
      rcases w with _ | w
      · exact fun he => by cases he
      · cases w <;> exact fun he => by cases he
    have hdet : ∀ m, detachInstr sh m ≠ .bump n := by
      intro m
      unfold detachInstr
      split <;> exact fun he => by cases he
    exfalso
    -- only the walk of a sweep could wake, and this step is outside of walks
    cases hsw : pc.sweep? with
    | some x =>
      obtain ⟨auto, p⟩ := x
      obtain ⟨q, hq, _⟩ := hg.sweep hsw
      rw [Pc.walk?_sweep hsw] at hw
      cases hq with
      | walk | walked => cases hw
      | _ => cases hins
    | none =>
      cases hg with
      | op hg =>
        cases hg with
        | walk | walked => cases hw
        | _ => cases hins
      | pulse hg =>
        cases hg with
        | walk | walked => cases hw
        | _ => cases hins
      | wait hg =>
        cases hg with
        | fast hg =>
          cases hg with
          | sat | win | fail | failZero => exact hsat _ _ hins.symm
          | _ => cases hins
        | pass hg =>
          cases hg with
          | sat | win | fail => exact hsat _ _ hins.symm
          | _ => cases hins
        | noSpin | spinStart => cases hins
        | spin hg =>
          cases hg with
          | sat | win | fail => exact hsat _ _ hins.symm
          | _ => cases hins
        | sweep hg =>
          cases hg with
          | run | swept => cases hsw
          | _ => cases hins
        | sleep hg => cases hg <;> cases hins
        | detach hg =>
          cases hg with
          | detach | last => exact hdet _ hins.symm
          | _ => cases hins
        | clean hg =>
          cases hg with
          | detach => exact hdet _ hins.symm
          | _ => cases hins
      | create hg =>
        cases hg with
        | run | retry | giveUp => cases hsw
        | _ => cases hins
      | close hg =>
        cases hg with
        | walk | walked => cases hw
        | _ => cases hins
      | hold hg => cases hg <;> cases hins
      | sweepDead hg =>
        cases hg with
        | run | swept => cases hsw
        | _ => cases hins

/-- The slot whose list head a thread goes through, in or after its call's validation. -/
def Pc.touches (i : Nat) : Pc → Prop
  | .op _ _ .state => False
  | .op h _ _ => i = handleIndex h
  | .pulse h p => p.found = true ∧ i = handleIndex h
  | .create _ (.write h _) => i = handleIndex h
  | pc => pc.frees? = some i

end WalkView

/-! ### Changes of lists and pool -/

/-- What a step does to the waiter lists and the node pool. -/
inductive PoolGo (r : Region) (pid : U32) : Pc → Instr → Pc → Prop
  | alloc {c : WaitCtx} {n : Nat} {r' : Region} : r.nodeAlloc pid = some (n, r') →
      PoolGo r pid (.wait c (.pass .alloc)) .allocNode
        (.wait (c.addNode n) (.pass (c.addNode n).allocNext))
  | register {c : WaitCtx} {k : Nat} : (r.nodes (c.node k)).registered = false →
      PoolGo r pid (.wait c (.pass (.register k))) (.register (c.node k) (c.target k) (c.node 0))
        (.wait c (.pass (c.registerNext k)))
  | wake {pc pc' : Pc} {i n : Nat} : pc.walk? = some (i, .node (some n)) →
      pc'.waitNodes = pc.waitNodes → pc'.reaped = [] → PoolGo r pid pc (.detach n) pc'
  | detach {c : WaitCtx} {p p' : WaitPc} {n : Nat} : (r.nodes n).registered = true →
      ((∃ k, p = .detach (.detach k) ∧ n = c.node k ∧ p'.owned c = c.nodes) ∨
        ∃ out todo, p = .clean out (.detach (n :: todo)) ∧ p' = .clean out (.detach todo)) →
      (Pc.wait c p').reaped = [] → PoolGo r pid (.wait c p) (.detach n) (.wait c p')
  | reap {pc pc' : Pc} {auto : Bool} {st : SweepSt} {x : DeadCand}
      {judged : List (DeadCand × Bool)} :
      pc.sweep? = some (auto, .reap st ((x, false) :: judged)) → x.node = true →
      x.nodeStands r = true → pc'.sweep? = some (auto, .reapFree st x.index judged) →
      pc'.waitNodes = pc.waitNodes → PoolGo r pid pc (.detach x.index) pc'
  | free {c : WaitCtx} {out : WaitOutcome} {n : Nat} {todo : List Nat} :
      PoolGo r pid (.wait c (.clean out (.free (n :: todo)))) (.freeNode n)
        (.wait c (.clean out (.free todo)))
  | reapFree {pc pc' : Pc} {auto : Bool} {st : SweepSt} {n : Nat}
      {judged : List (DeadCand × Bool)} :
      pc.sweep? = some (auto, .reapFree st n judged) → pc'.sweep? = some (auto, .reap st judged) →
      pc'.waitNodes = pc.waitNodes → PoolGo r pid pc (.freeNode n) pc'
  | take {k : Create} {retry : Bool} {i : Nat} : r.freeSlot = some i →
      PoolGo r pid (.create k (.alloc retry)) (.takeSlot i)
        (.create k (.write (mkHandle (r.slots i).generation i) (slotPublish k.objType k.word pid)))
  | other {pc pc' : Pc} {ins : Instr} : ins.lists = false →
      (pc'.waitNodes = pc.waitNodes ∨ pc'.waitNodes = [] ∧
        (pc' = .panicked ∨ ∃ c p, pc = .wait c (.fast p))) →
      pc.reaped = [] → pc'.reaped = [] → PoolGo r pid pc ins pc'

section PoolInversion

variable {o : Oracle} {sh : Shared T} {pid : U32} {ins : Instr} {pc pc' : Pc}

/-- A step that changes no list and no pool, nor what the thread owns. -/
theorem PoolGo.quiet (hi : ins.lists = false) (hw : pc'.waitNodes = pc.waitNodes)
    (h0 : pc.reaped = []) (hr : pc'.reaped = []) : PoolGo sh.region pid pc ins pc' :=
  .other hi (.inl hw) h0 hr

/-- A step of a wake walk: it detaches the head of the list, or changes no list. -/
theorem PcGo.walk_pool {i : Nat} {w : Walk} (hg : PcGo sh pid o pc ins pc')
    (hw : pc.walk? = some (i, w)) : PoolGo sh.region pid pc ins pc' := by
  obtain ⟨q, hq, _, hn, hr⟩ := hg.walk hw
  cases hq with
  | detach => exact .wake hw hn hr
  | _ => exact .quiet rfl hn (Pc.reaped_of_walk hw) hr

/-- A sweep that has settled on its verdicts has not detached anything yet. -/
theorem SweepPc.judge_reaped (auto : Bool) (st : SweepSt) (judged : List (DeadCand × Bool))
    (rest : List DeadCand) : (SweepPc.judge auto st judged rest).reaped = [] := by
  cases rest <;> cases auto <;> rfl

/-- A step of a sweep: it detaches or frees the node of a dead candidate, walks a reaped slot's
    list, or changes neither list nor pool. -/
theorem PcGo.sweep_pool {auto : Bool} {p : SweepPc} (hg : PcGo sh pid o pc ins pc')
    (hsw : pc.sweep? = some (auto, p)) : PoolGo sh.region pid pc ins pc' := by
  obtain ⟨q, hq, hf⟩ := hg.sweep hsw
  have hn := hg.sweep_waitNodes hsw
  cases hq with
  | finished => exact .quiet rfl hn (Pc.reaped_sweep hsw) (Pc.reaped_none hf)
  | chunkAuto | reaped | skip | probe | relock | reapSlot | reapGen =>
    exact .quiet rfl hn (Pc.reaped_sweep hsw) (Pc.reaped_sweep hf)
  | chunk | drop | probeDead | probeAlive =>
    exact .quiet rfl hn (Pc.reaped_sweep hsw)
      ((Pc.reaped_sweep hf).trans (SweepPc.judge_reaped _ _ _ _))
  | reapNode hnode hstands => exact .reap hsw hnode hstands hf hn
  | reapFree => exact .reapFree hsw hf hn
  | walk | walked => exact hg.walk_pool (Pc.walk?_sweep hsw)

/-- An attempt to acquire changes no list. -/
theorem satInstr_lists (a : WaitArgs) (w : Option SatWrite) : (satInstr a w).lists = false := by
  cases w with
  | none => rfl
  | some w => cases w <;> rfl

/-- A sweep that begins has detached nothing. -/
theorem Pc.reaped_new {pc : Pc} {r : Region} (h : NoSweep r pc) : pc.reaped = [] := by
  rcases h with h | ⟨auto, h⟩
  · exact Pc.reaped_none h
  · exact Pc.reaped_sweep h

/-- A step of a wait, its sweep apart. -/
theorem WaitGo.pool {c : WaitCtx} {p : WaitPc} (hg : WaitGo o sh pid c p ins pc')
    (hsw : (Pc.wait c p).sweep? = none) : PoolGo sh.region pid (.wait c p) ins pc' := by
  have hr := Pc.reaped_new (hg.noSweep hsw)
  have h0 := Pc.reaped_none hsw
  cases hg with
  | fast hg =>
    cases hg with
    | lookOther | seq =>
      refine .quiet rfl ?_ h0 hr
      unfold WaitCtx.fastNext
      split
      · rfl
      · split <;> rfl
    | unwrapStateBad | unwrapGenBad | alerted =>
      exact .other rfl (.inr ⟨rfl, .inr ⟨_, _, rfl⟩⟩) h0 hr
    | sat | fail => exact .quiet (satInstr_lists _ _) rfl h0 hr
    -- the wait ends before it has a node
    | win | failZero => exact .other (satInstr_lists _ _) (.inr ⟨rfl, .inr ⟨_, _, rfl⟩⟩) h0 hr
    | _ => exact .quiet rfl rfl h0 hr
  | pass hg =>
    -- validating leaves the nodes as they are
    have hafter : ∀ c' : WaitCtx, c'.nodes = c.nodes →
        (Pc.wait c' c.afterAlert).waitNodes = c.nodes := by
      intro c' h
      unfold WaitCtx.afterAlert
      split <;> exact h
    have hnext : ∀ (c' : WaitCtx) i, c'.nodes = c.nodes →
        (Pc.wait c' (c.validateNext i)).waitNodes = c.nodes := by
      intro c' i h
      unfold WaitCtx.validateNext
      split
      · exact h
      · split
        · exact h
        · exact hafter c' h
    cases hg with
    | validateFirst => exact .quiet rfl (hnext _ _ rfl) h0 hr
    | validate => exact .quiet rfl (hnext _ _ rfl) h0 hr
    | alertPanic => exact .other rfl (.inr ⟨rfl, .inl rfl⟩) h0 hr
    | alertClear => exact .quiet rfl (hafter _ rfl) h0 hr
    | alloc hn => exact .alloc hn
    | registerSkip => exact .quiet rfl rfl h0 hr
    | register hreg => exact .register hreg
    | sat | win | fail => exact .quiet (satInstr_lists _ _) rfl h0 hr
    | _ => exact .quiet rfl rfl h0 hr
  | noSpin | spinStart => exact .quiet rfl rfl h0 hr
  | spin hg =>
    cases hg with
    | alertStateBad | alertGenBad => exact .other rfl (.inr ⟨rfl, .inl rfl⟩) h0 hr
    | sat | win | fail => exact .quiet (satInstr_lists _ _) rfl h0 hr
    | _ => exact .quiet rfl rfl h0 hr
  | @sweep seq timedOut p ins pc' hg =>
    cases hg with
    | run | swept => cases hsw
    | skip | unlock => cases timedOut <;> exact .quiet rfl rfl h0 hr
    | _ => exact .quiet rfl rfl h0 hr
  | sleep hg =>
    cases hg with
    | again | woken =>
      -- woken or not, the wait keeps its nodes for the next pass
      refine .quiet rfl ?_ h0 hr
      unfold afterFutex
      split <;> rfl
    | _ => exact .quiet rfl rfl h0 hr
  | detach hg =>
    cases hg with
    | detach | last =>
      -- the node may have been detached by a signal before
      unfold detachInstr
      split
      · exact .detach (by assumption) (.inl ⟨_, rfl, rfl, rfl⟩) hr
      · exact .quiet rfl rfl h0 hr
    | _ => exact .quiet rfl rfl h0 hr
  | clean hg =>
    cases hg with
    | detach =>
      unfold detachInstr
      split
      · exact .detach (by assumption) (.inr ⟨_, _, rfl, rfl⟩) hr
      · exact .quiet rfl rfl h0 hr
    | freed => exact .quiet rfl rfl h0 hr
    | free => exact .free
    | _ => exact .quiet rfl rfl h0 hr

/-- **Who changes the lists.** -/
theorem PcGo.pool (hg : PcGo sh pid o pc ins pc') : PoolGo sh.region pid pc ins pc' := by
  cases hsw : pc.sweep? with
  | some x => exact hg.sweep_pool hsw
  | none =>
    have hr := Pc.reaped_new (hg.noSweep hsw)
    have h0 := Pc.reaped_none hsw
    cases hw : pc.walk? with
    | some x => exact hg.walk_pool hw
    | none =>
      cases hg with
      | op hg =>
        cases hg with
        | walk | walked => cases hw
        | _ => exact .quiet rfl rfl h0 hr
      | pulse hg =>
        cases hg with
        | walk | walked => cases hw
        | _ => exact .quiet rfl rfl h0 hr
      | wait hg => exact hg.pool hsw
      | create hg =>
        cases hg with
        | take hf => exact .take hf
        | run | retry | giveUp => cases hsw
        | _ => exact .quiet rfl rfl h0 hr
      | close hg =>
        cases hg with
        | walk | walked => cases hw
        | _ => exact .quiet rfl rfl h0 hr
      | hold hg => cases hg <;> exact .quiet rfl rfl h0 hr
      | sweepDead hg =>
        cases hg with
        | run | swept => cases hsw
        | _ => exact .quiet rfl rfl h0 hr

/-! ### Slots with a list head -/

/-- A sweep that has settled on its verdicts has not freed a slot yet. -/
theorem SweepPc.judge_frees (auto : Bool) (st : SweepSt) (judged : List (DeadCand × Bool))
    (rest : List DeadCand) : (SweepPc.judge auto st judged rest).frees? = none := by
  cases rest <;> cases auto <;> rfl

/-- The slot a thread empties in a sweep is the one the sweep has reaped. -/
theorem Pc.frees?_sweep {auto : Bool} {p : SweepPc} (h : pc.sweep? = some (auto, p)) :
    pc.frees? = p.frees? := by
  unfold Pc.sweep? at h
  split at h <;> cases h <;> rfl

/-- Outside of sweeps and closes no slot is being emptied. -/
theorem Pc.frees?_none {r : Region} (h : NoSweep r pc) (hc : ∀ h' p, pc ≠ .close h' p) :
    pc.frees? = none := by
  have hbind : pc.frees? = pc.sweep?.bind fun x => x.2.frees? := by
    unfold Pc.frees?
    split
    · exact absurd rfl (hc _ _)
    · exact absurd rfl (hc _ _)
    · rfl
  rw [hbind]
  rcases h with h | ⟨auto, h⟩ <;> rw [h] <;> rfl

/-- **Who begins to free a slot.** A `close` or a reap that finds it used. -/
theorem PcGo.frees {i : Nat} (hg : PcGo sh pid o pc ins pc') (hok : pc.TableOk sh.region pid)
    (h : pc'.frees? = some i) :
    pc.frees? = some i ∨ ((sh.region.slots i).state = .used ∧
      (ins = .store i (.state .free) ∨ ins = .reap i)) := by
  cases hsw : pc.sweep? with
  | some x =>
    obtain ⟨auto, p⟩ := x
    obtain ⟨q, hq, hf⟩ := hg.sweep hsw
    rw [Pc.frees?_sweep hsw]
    cases hq with
    -- the sweep is over, and its call frees nothing after it
    | finished =>
      have hnone : pc'.frees? = none := by
        refine Pc.frees?_none (r := sh.region) (.inl hf) ?_
        rintro h' p' rfl
        unfold Pc.sweep? at hsw
        split at hsw <;> cases hsw
        · cases hg with
          | wait hg => rcases hg.args with ha | ha <;> cases ha
        · cases hg with
          | create hg => generalize hpc : Pc.close h' p' = q at hg; cases hg <;> cases hpc
        · cases hg with
          | sweepDead hg => generalize hpc : Pc.close h' p' = q at hg; cases hg <;> cases hpc
      rw [hnone] at h
      cases h
    | reapSlot _ hs =>
      rw [Pc.frees?_sweep hf] at h
      cases h
      -- the candidate was found in use a moment ago
      simp only [DeadCand.slotStands, Bool.and_eq_true, decide_eq_true_eq] at hs
      exact .inr ⟨hs.1.1.1.1.1, .inr rfl⟩
    | chunk | drop | probeDead | probeAlive =>
      rw [Pc.frees?_sweep hf, SweepPc.judge_frees] at h
      cases h
    | reapGen | walk =>
      rw [Pc.frees?_sweep hf] at h
      exact .inl h
    | _ =>
      rw [Pc.frees?_sweep hf] at h
      cases h
  | none =>
    have hn := hg.noSweep hsw
    cases hg with
    | close hg =>
      cases hg with
      | free =>
        cases h
        -- a close has found the slot in use under the lock
        exact .inr ⟨hok, .inl rfl⟩
      | gen | walk => exact .inl h
      | _ => cases h
    | op hg =>
      -- the others free nothing
      rw [Pc.frees?_none hn (by rintro h' p rfl; cases hg)] at h
      cases h
    | pulse hg =>
      rw [Pc.frees?_none hn (by rintro h' p rfl; cases hg)] at h
      cases h
    | wait hg =>
      rw [Pc.frees?_none hn (by rintro h' p rfl; rcases hg.args with ha | ha <;> cases ha)] at h
      cases h
    | create hg =>
      rw [Pc.frees?_none hn (by rintro h' p rfl; cases hg)] at h
      cases h
    | hold hg =>
      rw [Pc.frees?_none hn (by rintro h' p rfl; cases hg)] at h
      cases h
    | sweepDead hg =>
      rw [Pc.frees?_none hn (by rintro h' p rfl; cases hg)] at h
      cases h

/-- The slot that is being emptied is one whose list the thread goes through. -/
theorem Pc.touches_of_frees {i : Nat} (h : pc.frees? = some i) : pc.touches i := by
  cases pc with
  | op | pulse => cases h
  | create k p => cases p <;> first | exact h | cases h
  | _ => exact h

/-- **Whose list head a thread goes through.** That of a slot it went through before, has found
    used, or takes. -/
theorem PcGo.touches {i : Nat} (hg : PcGo sh pid o pc ins pc') (hok : pc.TableOk sh.region pid)
    (h : pc'.touches i) :
    pc.touches i ∨ (sh.region.slots i).state = .used ∨ ins = .takeSlot i := by
  have hfrees : pc'.frees? = some i →
      pc.touches i ∨ (sh.region.slots i).state = .used ∨ ins = .takeSlot i := by
    intro hf
    rcases hg.frees hok hf with hf | ⟨hu, _⟩
    · exact .inl (Pc.touches_of_frees hf)
    · exact .inr (.inl hu)
  cases hg with
  | op hg =>
    cases hg with
    | state hu =>
      obtain rfl : i = _ := h
      exact .inr (.inl hu)
    | gen | typ | retry | swap | peek | lock | walk | walked => exact .inl h
    | bad | ret | swapQuiet | peekNone | unlock => exact hfrees h
  | pulse hg =>
    cases hg with
    | check hs _ =>
      obtain ⟨rfl, hu, _⟩ := Region.slot_eq_some.mp hs
      obtain ⟨_, rfl⟩ := h
      exact .inr (.inl hu)
    | lock | bad | walked => cases h.1
    | unlock => exact hfrees h
    | _ => exact .inl ⟨rfl, h.2⟩
  | wait hg =>
    match pc' with
    | .op _ _ _ | .pulse _ _ | .create _ _ | .close _ _ | .hold _ _ _ | .sweepDead _ =>
      rcases hg.args with ha | ha <;> cases ha
    | .idle | .done _ _ | .panicked => exact hfrees h
    | .wait c p => exact hfrees h
  | create hg =>
    cases hg with
    | take hf =>
      obtain rfl : i = _ := h
      rw [handleIndex_mkHandle _ (Region.freeSlot_spec hf).1]
      exact .inr (.inr rfl)
    | write => exact .inl h
    | _ => exact hfrees h
  | close hg => cases hg <;> exact hfrees h
  | hold hg => cases hg <;> exact hfrees h
  | sweepDead hg => cases hg <;> exact hfrees h

/-- A call starts with no list. -/
theorem Pc.start_touches {i : Nat} (c : Call) : ¬ (Pc.start c).touches i := by
  cases c <;> simp only [Pc.start] <;> (try split) <;>
    simp [Pc.touches, Pc.frees?, Pc.sweep?, PulsePc.found]

/-- A sweep that has settled on its verdicts is in no wake walk. -/
theorem SweepPc.judge_walk (auto : Bool) (st : SweepSt) (judged : List (DeadCand × Bool))
    (rest : List DeadCand) : (SweepPc.judge auto st judged rest).walk? = none := by
  cases rest <;> cases auto <;> rfl

/-- Outside a wake walk a step at most begins one. -/
theorem PcGo.noWalk (hg : PcGo sh pid o pc ins pc') (hw : pc.walk? = none) :
    pc'.walk? = none ∨ ∃ i, pc'.walk? = some (i, .start) := by
  cases hsw : pc.sweep? with
  | some x =>
    obtain ⟨auto, p⟩ := x
    obtain ⟨q, hq, hf⟩ := hg.sweep hsw
    rw [Pc.walk?_sweep hsw] at hw
    cases hq with
    | finished =>
      -- what follows a sweep is its call's own next step
      unfold Pc.sweep? at hsw
      split at hsw <;> cases hsw
      · cases hg with
        | wait hg =>
          cases hg with
          | sweep hg =>
            cases hg with
            | swept => exact .inl rfl
            | run hs =>
              rw [FollowsSweep] at hf
              cases hf
      · cases hg with
        | create hg =>
          cases hg with
          | retry | giveUp => exact .inl rfl
          | run hs => cases hf
      · cases hg with
        | sweepDead hg =>
          cases hg with
          | swept => exact .inl rfl
          | run hs => cases hf
    | walk | walked => cases hw
    | reapGen => exact .inr ⟨_, Pc.walk?_sweep hf⟩
    | chunk | drop | probeDead | probeAlive =>
      exact .inl ((Pc.walk?_sweep hf).trans (SweepPc.judge_walk _ _ _ _))
    | _ => exact .inl (Pc.walk?_sweep hf)
  | none =>
    cases hg with
    | op hg =>
      cases hg with
      | lock => exact .inr ⟨_, rfl⟩
      | walk | walked => cases hw
      | _ => exact .inl rfl
    | pulse hg =>
      cases hg with
      | storeW => exact .inr ⟨_, rfl⟩
      | walk | walked => cases hw
      | _ => exact .inl rfl
    | @wait c p _ _ hg =>
      rcases hg.noSweep hsw with hn | ⟨auto, hn⟩
      -- a wait that goes on is in no walk
      · match pc' with
        | .op _ _ _ | .pulse _ _ | .create _ _ | .close _ _ | .hold _ _ _ | .sweepDead _ =>
          rcases hg.args with ha | ha <;> cases ha
        | .idle | .done _ _ | .panicked => exact .inl rfl
        | .wait c p =>
          refine .inl ?_
          cases p with
          | sweep seq timedOut p => cases p <;> first | rfl | cases hn
          | _ => rfl
      · exact .inl (Pc.walk?_sweep hn)
    | create hg => cases hg <;> first | exact .inl rfl | cases hsw
    | close hg =>
      cases hg with
      | gen => exact .inr ⟨_, rfl⟩
      | walk | walked => cases hw
      | _ => exact .inl rfl
    | hold hg => cases hg <;> exact .inl rfl
    | sweepDead hg => cases hg <;> first | exact .inl rfl | cases hsw

/-- No call starts in a wake walk. -/
theorem Pc.start_walk (c : Call) : (Pc.start c).walk? = none := by
  cases c <;> simp only [Pc.start] <;> (try split) <;> rfl

/-- Wake walks are made under the lock. -/
theorem Pc.locked_of_walk {i : Nat} {w : Walk} (h : pc.walk? = some (i, w)) : pc.locked = true := by
  unfold Pc.walk? at h
  split at h
  · rfl
  · rfl
  · rfl
  · rename_i p
    cases p <;> first | rfl | cases h
  · rename_i p
    cases p <;> first | rfl | cases h
  · rename_i p
    cases p <;> first | rfl | cases h
  · cases h

/-- The nodes of the dead are freed in the critical section that detached them. -/
theorem Pc.locked_of_reaped (h : pc.reaped ≠ []) : pc.locked = true := by
  unfold Pc.reaped at h
  split at h
  · rename_i auto p hsw
    cases p with
    | reapFree =>
      unfold Pc.sweep? at hsw
      split at hsw <;> cases hsw <;> rfl
    | _ => exact absurd rfl h
  · exact absurd rfl h

/-- A slot is being freed until its wake walk has come to the end. -/
theorem PcGo.frees_until {i : Nat} (hg : PcGo sh pid o pc ins pc') (h : pc.frees? = some i) :
    pc'.frees? = some i ∨ (pc.walk? = some (i, .node none) ∧ ins = .silent) := by
  cases hsw : pc.sweep? with
  | some x =>
    obtain ⟨auto, p⟩ := x
    obtain ⟨q, hq, hf⟩ := hg.sweep hsw
    rw [Pc.frees?_sweep hsw] at h
    rw [Pc.walk?_sweep hsw]
    cases hq with
    | reapGen | walk =>
      rw [Pc.frees?_sweep hf]
      exact .inl h
    | walked hw =>
      cases h
      cases Walk.step_inv hw
      exact .inr ⟨rfl, rfl⟩
    | _ => cases h
  | none =>
    have hclose : ∃ h' p, pc = .close h' p := by
      unfold Pc.frees? at h
      split at h
      · exact ⟨_, _, rfl⟩
      · exact ⟨_, _, rfl⟩
      · rw [hsw] at h
        cases h
    obtain ⟨h', p, rfl⟩ := hclose
    cases hg with
    | close hg =>
      cases hg with
      | gen | walk => exact .inl h
      | walked hw =>
        cases h
        cases Walk.step_inv hw
        exact .inr ⟨rfl, rfl⟩
      | _ => cases h

/-- **A slot becomes free** only by a thread that then empties it. -/
theorem PcGo.frees_now {i : Nat} {t : T} (hg : PcGo sh pid o pc ins pc')
    (hok : pc.TableOk sh.region pid) (hw : pc.holderWrites)
    (hu : (sh.region.slots i).state = .used)
    (hf : ((ins.apply t pid sh).region.slots i).state = .free) : pc'.frees? = some i := by
  obtain ⟨hd, hs⟩ := Instr.apply_slot t pid sh ins i
  rw [hs] at hf
  have hf' : (ins.slotAfter i (sh.region.slots i)).state = .free := hf
  cases ins with
  | store j w =>
    simp only [Instr.slotAfter] at hf'
    split at hf'
    · rename_i hij
      subst hij
      rcases hg.store with ⟨k, h, ws, rfl, rfl, rfl⟩ | ⟨h, ws, rfl, rfl, rfl⟩ | ⟨h, rfl, rfl, rfl, rfl⟩ |
        ⟨h, rfl, rfl, rfl, rfl⟩ | ⟨add, h, ws, rfl, rfl, rfl⟩ | ⟨auto, st, judged, _, rfl, _⟩
      · cases w with
        | state v =>
          have hv : v = .used := hok.only (.state v) (by simp)
          subst hv
          cases hf'
        | _ => exact absurd (hu.symm.trans hf') (by decide)
      · have hkeep := SlotWrite.apply_state (hw w (by simp)) (sh.region.slots (handleIndex h))
        rw [hkeep, hu] at hf'
        cases hf'
      · rfl
      · exact absurd (hu.symm.trans hf') (by decide)
      · have hkeep := SlotWrite.apply_state (hw w (by simp)) (sh.region.slots (handleIndex h))
        rw [hkeep, hu] at hf'
        cases hf'
      · exact absurd (hu.symm.trans hf') (by decide)
    · exact absurd (hu.symm.trans hf') (by decide)
  | reap j =>
    simp only [Instr.slotAfter] at hf'
    split at hf'
    · rename_i hij
      subst hij
      obtain ⟨auto, st, c, judged, _, _, _, _, hpc'⟩ := hg.reap
      rw [Pc.frees?_sweep hpc']
      rfl
    · exact absurd (hu.symm.trans hf') (by decide)
  | word | storeD =>
    simp only [Instr.slotAfter] at hf'
    split at hf' <;> exact absurd (hu.symm.trans hf') (by decide)
  | _ => exact absurd (hu.symm.trans hf') (by decide)

/-- A slot comes into use only by the last store of its publication. -/
theorem PcGo.uses_now {i : Nat} {t : T} (hg : PcGo sh pid o pc ins pc')
    (hf : (sh.region.slots i).state = .free) (hw : pc.holderWrites)
    (hu : ((ins.apply t pid sh).region.slots i).state = .used) : pc.touches i := by
  obtain ⟨hd, hs⟩ := Instr.apply_slot t pid sh ins i
  rw [hs] at hu
  have hu' : (ins.slotAfter i (sh.region.slots i)).state = .used := hu
  cases ins with
  | store j w =>
    simp only [Instr.slotAfter] at hu'
    split at hu'
    · rename_i hij
      subst hij
      rcases hg.store with ⟨k, h, ws, rfl, rfl, rfl⟩ | ⟨h, ws, rfl, rfl, rfl⟩ | ⟨h, rfl, rfl, rfl, rfl⟩ |
        ⟨h, rfl, rfl, rfl, rfl⟩ | ⟨add, h, ws, rfl, rfl, rfl⟩ | ⟨auto, st, judged, _, rfl, _⟩
      · exact rfl
      · have hkeep := SlotWrite.apply_state (hw w (by simp)) (sh.region.slots (handleIndex h))
        rw [hkeep, hf] at hu'
        cases hu'
      · cases hu'
      · exact rfl
      · have hkeep := SlotWrite.apply_state (hw w (by simp)) (sh.region.slots (handleIndex h))
        rw [hkeep, hf] at hu'
        cases hu'
      · exact absurd (hf.symm.trans hu') (by decide)
    · exact absurd (hf.symm.trans hu') (by decide)
  | reap j =>
    simp only [Instr.slotAfter] at hu'
    split at hu'
    · cases hu'
    · exact absurd (hf.symm.trans hu') (by decide)
  | word | storeD =>
    simp only [Instr.slotAfter] at hu'
    split at hu' <;> exact absurd (hf.symm.trans hu') (by decide)
  | _ => exact absurd (hf.symm.trans hu') (by decide)

end PoolInversion

/-! ### Wake-ups under way -/

/-- The futex word that the thread's wake walk is about to bump. -/
def Pc.bumps? (pc : Pc) : Option Nat :=
  match pc.walk? with
  | some (_, .bump w _) => w
  | _ => none

section Bumps

variable {o : Oracle} {sh : Shared T} {pid : U32} {ins : Instr} {pc pc' : Pc} {w : Nat}

/-- A bump that is due is due in a wake walk. -/
theorem Pc.walk_of_bumps (h : pc.bumps? = some w) :
    ∃ i next, pc.walk? = some (i, .bump (some w) next) := by
  unfold Pc.bumps? at h
  split at h
  · rename_i i v next hw
    subst h
    exact ⟨i, next, hw⟩
  · cases h

/-- A wake walk past its detach has the bump of the node's futex word to make. -/
theorem Pc.bumps_of_walk {i : Nat} {v : Option Nat} {next : Option Nat}
    (h : pc.walk? = some (i, .bump v next)) : pc.bumps? = v := by
  unfold Pc.bumps?
  rw [h]

/-- Outside of wake walks no bump is due. -/
theorem Pc.bumps_none (h : pc.walk? = none) : pc.bumps? = none := by
  unfold Pc.bumps?
  rw [h]

/-- The bump follows. -/
theorem PcGo.bumps (hg : PcGo sh pid o pc ins pc') (h : pc.bumps? = some w) :
    ins = .bump w ∧ pc'.bumps? = none := by
  obtain ⟨i, next, hw⟩ := Pc.walk_of_bumps h
  obtain ⟨q, hq, hf, _⟩ := hg.walk hw
  cases hq
  refine ⟨rfl, ?_⟩
  unfold Pc.bumps?
  rw [show pc'.walk? = _ from hf]

/-- A bump is due after a waiter was detached. -/
theorem PcGo.bumps_now (hg : PcGo sh pid o pc ins pc') (h : pc'.bumps? = some w) :
    ∃ i n, pc.walk? = some (i, .node (some n)) ∧ ins = .detach n ∧
      (sh.region.nodes n).waitWord = some w := by
  obtain ⟨i, next, hw'⟩ := Pc.walk_of_bumps h
  cases hw : pc.walk? with
  | none =>
    rcases hg.noWalk hw with hn | ⟨j, hn⟩ <;> rw [hn] at hw' <;> cases hw'
  | some x =>
    obtain ⟨j, v⟩ := x
    obtain ⟨q, hq, hf, _⟩ := hg.walk hw
    cases hq with
    | finished =>
      rw [show pc'.walk? = none from hf] at hw'
      cases hw'
    | detach =>
      rw [show pc'.walk? = _ from hf] at hw'
      simp only [Option.some.injEq, Prod.mk.injEq, Walk.bump.injEq] at hw'
      obtain ⟨_, hw', _⟩ := hw'
      exact ⟨_, _, rfl, rfl, hw'⟩
    | start | bump =>
      rw [show pc'.walk? = _ from hf] at hw'
      cases hw'

end Bumps

end Ntsync
