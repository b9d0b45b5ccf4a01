import Mathlib
import Ntsync.Nodes
import Ntsync.Recycling
import Ntsync.Waking

namespace Ntsync

open Words Links

/-!
# Live and quiet runs

Runs in which nobody dies and nothing is reaped (live), and those in which nobody closes an object
either (quiet).

* `LiveInv` — the sweeps find nothing to reap, and the futex word of a registered node is in use by
  the wait that owns the node, if any;
* `QuietInv` — moreover, whatever a call has found in use is in use;
* `LiveInv.others` — others leave the entry of a node alone;
* `QuietInv.slot_after` — what a quiet step does to a slot in use.
-/

variable {T : Type}

/-! ### Live steps -/

/-- Nobody dies, and nothing is reaped. -/
def Label.live : Label T → Bool
  | .instr _ _ (.reap _) | .die _ => false
  | _ => true

/-- Nor is an object closed. -/
def Label.quiet : Label T → Bool
  | .call _ (.close _) => false
  | l => l.live

/-- Quiet steps are live. -/
theorem Label.live_of_quiet {l : Label T} (h : l.quiet = true) : l.live = true := by
  cases l with
  | call => rfl
  | instr | die => exact h

/-- The sweep is not reaping anything. -/
def SweepPc.idle : SweepPc → Bool
  | .reapFree _ _ _ | .reapGen _ _ _ | .reapWalk _ _ _ _ => false
  | _ => true

/-- The thread's sweep, if any, is not reaping anything. -/
def Pc.Calm (pc : Pc) : Prop := ∀ auto p, pc.sweep? = some (auto, p) → p.idle = true

/-- The slot for which a signal operation has made its first change of state and not yet come to
    the end of its wake walk. -/
def Pc.signals? : Pc → Option Nat
  | .op h _ (.peek _) | .op h _ (.lockWake _) | .op h _ (.walk _ _) => some (handleIndex h)
  | .pulse h (.loadW _) | .pulse h (.storeW _ _) | .pulse h (.walk _ _) => some (handleIndex h)
  | _ => none

section Live

variable {o : Oracle} {sh : Shared T} {pid : U32} {ins : Instr} {pc pc' : Pc}

/-- A thread without a sweep reaps nothing. -/
theorem Pc.Calm.of_sweep (h : pc.sweep? = none) : pc.Calm := by
  intro auto p hp
  rw [h] at hp
  cases hp

/-- A thread outside all calls reaps nothing. -/
theorem Pc.calm_of_outside (h : pc.outside = true) : pc.Calm := by
  rcases Pc.outside_cases h with rfl | ⟨c, r, rfl⟩ <;> exact .of_sweep rfl

/-- A sweep that judges is not reaping. -/
theorem SweepPc.judge_idle (auto : Bool) (st : SweepSt) (judged : List (DeadCand × Bool))
    (rest : List DeadCand) : (SweepPc.judge auto st judged rest).idle = true := by
  cases rest <;> cases auto <;> rfl

/-- A sweep that finds no node to reap, and reaps no slot, reaps nothing. -/
theorem PcGo.calm (hg : PcGo sh pid o pc ins pc') (hc : pc.Calm) (hreap : ∀ i, ins ≠ .reap i)
    (hstand : ∀ auto st x judged, pc.sweep? = some (auto, .reap st ((x, false) :: judged)) →
      x.nodeStands sh.region = false) : pc'.Calm := by
  intro auto' p' hp'
  cases hsw : pc.sweep? with
  | none =>
    rcases hg.noSweep hsw with hn | ⟨auto, hn⟩ <;> rw [hn] at hp' <;> cases hp'
    rfl
  | some x =>
    obtain ⟨auto, p⟩ := x
    have hidle := hc auto p hsw
    obtain ⟨out, hs, hf⟩ := hg.sweep hsw
    cases hs with
    | finished =>
      rw [show pc'.sweep? = none from hf] at hp'
      cases hp'
    | reapNode hnode hs =>
      rw [hstand _ _ _ _ hsw] at hs
      cases hs
    | reapSlot => exact absurd rfl (hreap _)
    | reapFree | reapGen | walk | walked => cases hidle
    | chunk | drop | probeDead | probeAlive =>
      rw [show pc'.sweep? = _ from hf] at hp'
      cases hp'
      exact SweepPc.judge_idle _ _ _ _
    | _ =>
      rw [show pc'.sweep? = _ from hf] at hp'
      cases hp'
      rfl

/-- A step does not turn another call into a `close`. -/
theorem PcGo.not_close (hg : PcGo sh pid o pc ins pc') (ho : ∀ h p, pc ≠ .close h p) (h : U32)
    (p : ClosePc) : pc' ≠ .close h p := by
  rintro rfl
  cases hg with
  | close hg => exact ho _ _ rfl
  | wait hg => rcases hg.args with ha | ha <;> cases ha
  | op hg => cases hg
  | pulse hg => cases hg
  | create hg => cases hg
  | hold hg => cases hg
  | sweepDead hg => cases hg

/-- A thread inside a wait was inside it before. -/
theorem PcGo.of_wait {c' : WaitCtx} {p' : WaitPc} (hg : PcGo sh pid o pc ins (.wait c' p')) :
    ∃ c p, pc = .wait c p ∧ WaitGo o sh pid c p ins (.wait c' p') ∧
      c'.toWaitArgs = c.toWaitArgs := by
  cases hg with
  | wait hg => exact ⟨_, _, rfl, hg, hg.sameArgs rfl⟩
  | op hg => cases hg
  | pulse hg => cases hg
  | create hg => cases hg
  | close hg => cases hg
  | hold hg => cases hg
  | sweepDead hg => cases hg

/-- Where nobody closes or reaps, only signals walk. -/
theorem Pc.Calm.signals {i : Nat} {w : Walk} (hc : pc.Calm) (ho : ∀ h p, pc ≠ .close h p)
    (hw : pc.walk? = some (i, w)) : pc.signals? = some i := by
  cases hsw : pc.sweep? with
  | some x =>
    obtain ⟨auto, p⟩ := x
    have hidle := hc auto p hsw
    rw [Pc.walk?_sweep hsw] at hw
    cases p <;> first | (cases hw; done) | cases hidle
  | none =>
    unfold Pc.walk? at hw
    split at hw
    · cases hw
      rfl
    · cases hw
      rfl
    · exact absurd rfl (ho _ _)
    all_goals
      simp [Pc.sweep?] at hsw
    cases hw

/-- Nobody frees a slot without closing or reaping. -/
theorem Pc.Calm.frees (hc : pc.Calm) (ho : ∀ h p, pc ≠ .close h p) : pc.frees? = none := by
  cases hf : pc.frees? with
  | none => rfl
  | some i =>
    cases hsw : pc.sweep? with
    | some x =>
      obtain ⟨auto, p⟩ := x
      have hidle := hc auto p hsw
      rw [Pc.frees?_sweep hsw] at hf
      cases p <;> first | (cases hf; done) | cases hidle
    | none =>
      unfold Pc.frees? at hf
      split at hf
      · exact absurd rfl (ho _ _)
      · exact absurd rfl (ho _ _)
      · rw [hsw] at hf
        cases hf

/-- A step outside `close` and reaping marks no slot free. -/
theorem PcGo.calm_frees {t : T} (hg : PcGo sh pid o pc ins pc') (hc : pc.Calm)
    (ho : ∀ h p, pc ≠ .close h p) (hreap : ∀ i, ins ≠ .reap i) (hok : pc.TableOk sh.region pid)
    (hw : pc.holderWrites) : (Label.instr t pid ins).frees = none := by
  cases ins with
  | store i w =>
    have hne : w ≠ .state .free := by
      rintro rfl
      rcases hg.store with ⟨k, h, ws, rfl, _⟩ | ⟨h, ws, rfl, _⟩ | ⟨h, rfl, _⟩ | ⟨h, rfl, _⟩ |
        ⟨add, h, ws, rfl, _⟩ | ⟨auto, st, judged, hsw, _⟩
      · cases show SlotState.free = .used from hok.only _ (List.mem_cons_self ..)
      · exact absurd rfl (ho _ _)
      · exact absurd rfl (ho _ _)
      · exact absurd rfl (ho _ _)
      · cases hw _ (List.mem_cons_self ..)
      · cases hc _ _ hsw
    cases w with
    | state v =>
      cases v with
      | free => exact absurd rfl hne
      | used => rfl
    | _ => rfl
  | reap i => exact absurd rfl (hreap i)
  | _ => rfl

end Live

/-! ### Free nodes -/

/-- The node is on the free list. -/
def Region.IsFree (r : Region) (n : Nat) : Prop :=
  ∃ F, Path (fun m => (r.nodes m).waiterNext) r.nodeFreeHead F ∧ n ∈ F

section Nodes

variable {r r' : Region} {ins : Instr} {sh : Shared T} {pid : U32} {t : T} {n m : Nat}
  {L : Nat → List Nat} {F : List Nat} {U : Nat → Prop}

/-- What the pool leads to is on the free list. -/
theorem ListsOk.isFree (h : ListsOk r L F U) (hn : r.IsFree n) : n ∈ F := by
  obtain ⟨F', hF', hn⟩ := hn
  rwa [h.free.unique hF']

/-- `node_alloc` rewrites the node it hands out. -/
theorem Region.nodeAlloc_nodes (h : r.nodeAlloc pid = some (n, r')) (m : Nat) :
    r'.nodes m = if m = n then (r.nodes n).handOut pid else r.nodes m := by
  unfold Region.nodeAlloc at h
  cases hf : r.nodeFreeHead with
  | some head =>
    simp only [hf, Option.some.injEq, Prod.mk.injEq] at h
    obtain ⟨rfl, rfl⟩ := h
    exact Region.setNode_nodes _ _ _ _
  | none =>
    simp only [hf] at h
    by_cases hfull : nodeCount ≤ r.nodeFresh
    · simp [hfull] at h
    · simp only [hfull, if_false, Option.some.injEq, Prod.mk.injEq] at h
      obtain ⟨rfl, rfl⟩ := h
      exact Region.setNode_nodes _ _ _ _

/-- A field of a node that is none of the entry is not written by `node_register`. -/
theorem Region.nodeRegister_field {α : Type} (f : WaitNode → α)
    (hf : ∀ (x : WaitNode) (b : Bool) (o w p q : Option Nat),
      f { x with registered := b, obj := o, waitWord := w, objPrev := p, objNext := q } = f x)
    (r : Region) (n i w m : Nat) : f ((r.nodeRegister n i w).nodes m) = f (r.nodes m) := by
  have hset : ∀ (x : Region) (q : Nat) (g : WaitNode → WaitNode), (∀ y, f (g y) = f y) →
      f ((x.setNode q g).nodes m) = f (x.nodes m) := by
    intro x q g hg
    rw [Region.setNode_nodes]
    split
    · rename_i hm
      rw [hg, hm]
    · rfl
  unfold Region.nodeRegister
  dsimp only
  split <;> rw [Region.setSlot_nodes]
  · exact hset _ _ _ fun y => hf y ..
  · exact (hset _ _ _ fun y => hf y ..).trans (hset _ _ _ fun y => hf y ..)

/-- Only a bump changes a futex word. -/
theorem Instr.seq_kept (h : ins ≠ .bump m) :
    ((ins.apply t pid sh).region.nodes m).seq = (sh.region.nodes m).seq := by
  cases ins with
  | allocNode =>
    simp only [Instr.apply]
    split
    · rename_i hn
      rw [Region.nodeAlloc_nodes hn]
      split
      · rename_i hmn
        rw [hmn]
        rfl
      · rfl
    · rfl
  | register n i w => exact Region.nodeRegister_field WaitNode.seq (fun _ _ _ _ _ _ => rfl) ..
  | detach n => exact Region.nodeDetach_field WaitNode.seq (fun _ _ _ _ _ => rfl) ..
  | freeNode n =>
    simp only [Instr.apply, Region.nodeFree, Region.setNode_nodes]
    split
    · rename_i hmn
      rw [hmn]
    · rfl
  | bump n =>
    have hmn : m ≠ n := fun he => h (by rw [he])
    simp only [Instr.apply, Region.bumpSeq, Region.setNode_nodes, if_neg hmn]
  | _ => rfl

/-- A step registers only the node it says. -/
theorem Instr.registered_now (h : ((ins.apply t pid sh).region.nodes n).registered = true) :
    (sh.region.nodes n).registered = true ∧
      (∀ m r, ins = .allocNode → sh.region.nodeAlloc pid = some (m, r) → n ≠ m) ∨
    ∃ i w, ins = .register n i w := by
  by_cases hr : ∃ i w, ins = .register n i w
  · exact .inr hr
  have ha : ∀ m r, ins = .allocNode → sh.region.nodeAlloc pid = some (m, r) → n ≠ m := by
    rintro m r rfl hal rfl
    simp only [Instr.apply, hal, Region.nodeAlloc_nodes hal, if_true] at h
    cases h
  have hkept : Kept (sh.region.nodes n) ((ins.apply t pid sh).region.nodes n) :=
    Instr.kept ha fun i w he => hr ⟨i, w, he⟩
  exact .inl ⟨(hkept.back h).1, ha⟩

/-- A registered node stays registered unless it is detached or handed out anew. -/
theorem Instr.registered_kept (hd : ins ≠ .detach m)
    (ha : ∀ n r, ins = .allocNode → sh.region.nodeAlloc pid = some (n, r) → m ≠ n)
    (h : (sh.region.nodes m).registered = true) :
    ((ins.apply t pid sh).region.nodes m).registered = true := by
  cases ins with
  | allocNode =>
    simp only [Instr.apply]
    split
    · rename_i hn
      rw [Region.nodeAlloc_nodes hn, if_neg (ha _ _ rfl hn)]
      exact h
    · exact h
  | register n i w =>
    by_cases hmn : m = n
    · rw [hmn]
      exact Region.nodeRegister_self.1
    · exact (Region.nodeRegister_other hmn).1.trans h
  | detach n =>
    have hmn : m ≠ n := fun he => hd (by rw [he])
    exact (Region.nodeDetach_other hmn).1.trans h
  | freeNode n | bump n =>
    simp only [Instr.apply, Region.nodeFree, Region.bumpSeq, Region.setNode_nodes]
    split
    · rename_i hmn
      rw [hmn] at h
      exact h
    · exact h
  | _ => exact h

/-- Only `node_free` adds to the free list. -/
theorem ListsOk.free_before (hl : ListsOk sh.region L F U)
    (hf : ∀ m, ins = .freeNode m →
      (sh.region.nodes m).registered = false ∧ m < sh.region.nodeFresh ∧ m ∉ F)
    (h : (ins.apply t pid sh).region.IsFree n) : n ∈ F ∨ ins = .freeNode n := by
  obtain ⟨F', hF', hn⟩ := h
  have hsame : ∀ r' : Region, r'.nodeFreeHead = sh.region.nodeFreeHead →
      (∀ m, (r'.nodes m).waiterNext = (sh.region.nodes m).waiterNext) →
      Path (fun m => (r'.nodes m).waiterNext) r'.nodeFreeHead F' → n ∈ F := by
    intro r' hh hnx hF'
    rw [hh] at hF'
    rw [hl.free.unique (hF'.congr fun m _ => (hnx m).symm)]
    exact hn
  cases ins with
  | allocNode =>
    refine .inl ?_
    simp only [Instr.apply] at hF'
    split at hF'
    · rename_i hal
      obtain ⟨F₁, hl', hnew⟩ := hl.alloc hal
      have hfree := hl'.isFree ⟨F', hF', hn⟩
      rcases hnew.source with ⟨rfl, _⟩ | ⟨_, rfl, _⟩
      · exact List.mem_cons_of_mem _ hfree
      · cases hfree
    · exact hl.isFree ⟨F', hF', hn⟩
  | register m i w =>
    refine .inl (hsame _ Region.nodeRegister_header.1 (fun k => ?_) hF')
    exact Region.nodeRegister_field WaitNode.waiterNext (fun _ _ _ _ _ _ => rfl) ..
  | detach m =>
    refine .inl (hsame _ Region.nodeDetach_header.1 (fun k => ?_) hF')
    exact Region.nodeDetach_field WaitNode.waiterNext (fun _ _ _ _ _ => rfl) ..
  | freeNode m =>
    obtain ⟨hreg, hlt, hmF⟩ := hf m rfl
    rw [hF'.unique (hl.nodeFree hreg hlt hmF).free] at hn
    rcases List.mem_cons.mp hn with rfl | hn
    · exact .inr rfl
    · exact .inl hn
  | bump m =>
    refine .inl (hsame (sh.region.bumpSeq m) rfl (fun k => ?_) hF')
    simp only [Region.bumpSeq, Region.setNode_nodes]
    split
    · rename_i hkm
      rw [hkm]
    · rfl
  | _ => exact .inl (hsame _ rfl (fun _ => rfl) hF')

end Nodes

/-! ### The invariant of live runs -/

/-- Nobody is dead or reaps.  The futex word of a registered node is in use, and whoever owns the
    word owns the node. -/
structure LiveInv (s : Sys T) : Prop where
  nodes : NodesInv s
  alive : ∀ p, s.dead p = false
  calm : ∀ t, (s.threads t).pc.Calm
  pids : ∀ n, (s.region.nodes n).registered = true → (s.region.nodes n).pid ≠ 0
  inUse : ∀ n w, (s.region.nodes n).registered = true → (s.region.nodes n).waitWord = some w →
    ¬ s.region.IsFree w
  word : ∀ n w, (s.region.nodes n).registered = true → (s.region.nodes n).waitWord = some w →
    ∀ u, w ∈ (s.threads u).pc.waitNodes → n ∈ (s.threads u).pc.waitNodes

/-- The invariant holds of a fresh region. -/
theorem LiveInv.of_init {pid : T → U32} (hpid : ∀ t, pid t ≠ 0) :
    LiveInv (Sys.rest Region.init pid) :=
  ⟨.of_init hpid, fun _ => rfl, fun _ => Pc.calm_of_outside rfl, fun n hn => (by cases hn),
    fun n w hn => (by cases hn), fun n w hn => (by cases hn)⟩

section LiveStep

variable [DecidableEq T] {s s' : Sys T} {a : Action T} {l : Label T} {t : T} {o : Oracle}
  {ins : Instr} {pc' : Pc}

omit [DecidableEq T] in
/-- A sweep finds no node to reap. -/
theorem LiveInv.no_orphan (hi : LiveInv s) {auto : Bool} {st : SweepSt} {x : DeadCand}
    {judged : List (DeadCand × Bool)}
    (hsw : (s.threads t).pc.sweep? = some (auto, .reap st ((x, false) :: judged))) :
    x.nodeStands s.region = false := by
  by_contra hne
  simp only [Bool.not_eq_false, DeadCand.nodeStands, Bool.and_eq_true, decide_eq_true_eq] at hne
  obtain ⟨hreg, hpid⟩ := hne
  have hdead : x.pid = 0 ∨ s.dead x.pid = true :=
    ((hi.nodes.sweeps t auto _ hsw).2 (x, false) (by simp)).2 rfl x.pid (by simp [DeadCand.pids])
  rcases hdead with h | h
  · exact hi.pids _ hreg (hpid.trans h)
  · rw [hi.alive] at h
    cases h

omit [DecidableEq T] in
/-- The nodes a thread stops owning are not registered, unless it panics. -/
theorem LiveInv.disowned (hi : LiveInv s)
    (hg : PcGo s.toShared (s.threads t).pid o (s.threads t).pc ins pc') (hp' : pc' ≠ .panicked)
    {n : Nat} (hn : n ∈ (s.threads t).pc.waitNodes)
    (hreg : (s.region.nodes n).registered = true) : n ∈ pc'.waitNodes := by
  obtain ⟨L, F, U, hp⟩ := hi.nodes.pool
  have hk := hp.knows t (hi.alive _)
  have hpool := hg.pool
  generalize hpc : (s.threads t).pc = pc at hpool hn
  cases hpool with
  | alloc => exact List.mem_append_left _ hn
  | register => exact hn
  | wake _ hw | reap _ _ _ _ hw | reapFree _ _ hw =>
    rw [hw]
    exact hn
  | detach _ hcase =>
    rcases hcase with ⟨k, rfl, _, hown⟩ | ⟨out, todo, rfl, rfl⟩
    · show n ∈ WaitPc.owned _ _
      rw [hown]
      exact hn
    · exact hn
  | free =>
    rw [hk.nodes _ _ hpc n hn] at hreg
    cases hreg
  | take => exact hn
  | other _ hw =>
    rcases hw with hw | ⟨_, hw | ⟨c, p, rfl⟩⟩
    · rw [hw]
      exact hn
    · exact absurd hw hp'
    · have hnil : c.nodes = [] := hk.nodes c _ hpc
      have hn' : n ∈ c.nodes := hn
      rw [hnil] at hn'
      cases hn'

/-- A thread comes to own the node it allocates. -/
theorem PoolGo.owned_before {r : Region} {pid : U32} {pc : Pc} (hg : PoolGo r pid pc ins pc')
    {n : Nat} (hn : n ∈ pc'.waitNodes) :
    n ∈ pc.waitNodes ∨ ∃ r', ins = .allocNode ∧ r.nodeAlloc pid = some (n, r') := by
  cases hg with
  | alloc hal =>
    rcases List.mem_append.mp hn with h | h
    · exact .inl h
    · obtain rfl := List.mem_singleton.mp h
      exact .inr ⟨_, rfl, hal⟩
  | register => exact .inl hn
  | wake _ hw | reap _ _ _ _ hw | reapFree _ _ hw =>
    rw [hw] at hn
    exact .inl hn
  | detach _ hcase =>
    rcases hcase with ⟨k, rfl, _, hown⟩ | ⟨out, todo, rfl, rfl⟩
    · refine .inl ?_
      have hn' : n ∈ WaitPc.owned _ _ := hn
      rwa [hown] at hn'
    · exact .inl hn
  | free => exact .inl (List.mem_cons_of_mem _ hn)
  | take => exact .inl hn
  | other _ hw =>
    rcases hw with hw | ⟨hw, _⟩
    · rw [hw] at hn
      exact .inl hn
    · rw [hw] at hn
      cases hn

omit [DecidableEq T] in
/-- A node is given back by the wait that owns it, when it has detached all of its nodes. -/
theorem LiveInv.gives_back (hi : LiveInv s) {n : Nat}
    (ht : tick o s.toShared (s.threads t).pid (s.threads t).calls (s.threads t).pc =
      some (.freeNode n, pc')) :
    n ∈ (s.threads t).pc.waitNodes ∧
      ∀ m ∈ (s.threads t).pc.waitNodes, (s.region.nodes m).registered = false := by
  obtain ⟨L, F, U, hp⟩ := hi.nodes.pool
  have hk := hp.knows t (hi.alive _)
  have hpool := (tick_inv ht).pool
  generalize hpc : (s.threads t).pc = pc at hpool
  generalize hins : Instr.freeNode n = ins at hpool
  cases hpool with
  | @free c out m todo =>
    cases hins
    exact ⟨List.mem_cons_self .., hk.nodes c _ hpc⟩
  | reapFree hsw =>
    rw [← hpc] at hsw
    cases hi.calm t _ _ hsw
  | other hl =>
    subst hins
    cases hl
  | _ => cases hins

/-- **The invariant is kept by every live step.** -/
theorem LiveInv.step (hi : LiveInv s) (h : s.step a = some (s', l)) (hl : l.live = true) :
    LiveInv s' := by
  have hclean : CleanDeath s l := by
    cases l with
    | die => cases hl
    | _ => trivial
  cases Sys.step_inv h with
  | @call t c ha hout =>
    have hnone : ∀ u, ((s.entered t c).threads u).pc.waitNodes = (s.threads u).pc.waitNodes := by
      intro u
      rw [Sys.entered_pc]
      split
      · rename_i hut
        rw [hut, (List.append_eq_nil_iff.mp (Pc.owned_of_outside hout)).1,
          (List.append_eq_nil_iff.mp (Pc.start_owned c)).1]
      · rfl
    refine ⟨hi.nodes.step h hclean, hi.alive, fun u => ?_, hi.pids, hi.inUse,
      fun n w hn hw u hu => ?_⟩
    · rw [Sys.entered_pc]
      split
      · exact .of_sweep (Pc.start_sweep c)
      · exact hi.calm u
    · rw [hnone] at hu ⊢
      exact hi.word n w hn hw u hu
  | @tick t o ins pc' ha ht =>
    obtain ⟨L, F, U, hp⟩ := hi.nodes.pool
    have hg := tick_inv ht
    have hfree : ∀ w, (s.after t ins pc').region.IsFree w → w ∈ F ∨ ins = .freeNode w := by
      intro w hw
      refine hp.lists.free_before (fun m he => ?_) hw
      subst he
      obtain ⟨hm, hnone⟩ := hi.gives_back ht
      have hown := hp.own t ha m (List.mem_append_left _ hm)
      exact ⟨hnone m hm, hown.1, hown.2⟩
    -- an entry made earlier, or just now
    have hentry : ∀ n w, ((s.after t ins pc').region.nodes n).registered = true →
        ((s.after t ins pc').region.nodes n).waitWord = some w →
        ((s.region.nodes n).registered = true ∧ (s.region.nodes n).waitWord = some w ∧
          ((s.after t ins pc').region.nodes n).pid = (s.region.nodes n).pid) ∨
        ∃ i, ins = .register n i w := by
      intro n w hn hw
      by_cases hr : ∃ i v, ins = .register n i v
      · obtain ⟨i, v, rfl⟩ := hr
        have hself : ((s.after t (.register n i v) pc').region.nodes n).waitWord = some v :=
          Region.nodeRegister_self.2.2.1
        rw [hw] at hself
        cases hself
        exact .inr ⟨i, rfl⟩
      · rcases Instr.registered_now hn with ⟨_, hal⟩ | he
        · have hk : Kept (s.region.nodes n) ((s.after t ins pc').region.nodes n) :=
            Instr.kept hal fun i v he => hr ⟨i, v, he⟩
          obtain ⟨hreg, _, hword⟩ := hk.back hn
          exact .inl ⟨hreg, hword ▸ hw, hk.pid⟩
        · exact absurd he hr
    refine ⟨hi.nodes.step h hclean, fun p => ?_, fun u => ?_, fun n hn => ?_,
      fun n w hn hw hf => ?_, fun n w hn hw u hu => ?_⟩
    · rw [Sys.after_dead]
      exact hi.alive p
    · rw [Sys.after_pc]
      split
      · refine hg.calm (hi.calm t) (fun i he => ?_) fun auto st x judged hsw => hi.no_orphan hsw
        subst he
        cases hl
      · exact hi.calm u
    · rcases Instr.registered_now hn with ⟨hreg, hal⟩ | ⟨i, w, rfl⟩
      · by_cases hr : ∃ i v, ins = .register n i v
        · obtain ⟨i, v, rfl⟩ := hr
          rw [show ((s.after t (.register n i v) pc').region.nodes n).pid =
            (s.region.nodes n).pid from Region.nodeRegister_self.2.2.2]
          exact hi.pids n hreg
        · have hk : Kept (s.region.nodes n) ((s.after t ins pc').region.nodes n) :=
            Instr.kept hal fun i v he => hr ⟨i, v, he⟩
          rw [hk.pid]
          exact hi.pids n hreg
      · rw [show ((s.after t (.register n i w) pc').region.nodes n).pid =
          (s.region.nodes n).pid from Region.nodeRegister_self.2.2.2]
        rw [hp.owner t ha n (hi.nodes.registers (hi.alive _) ht).1]
        exact hi.nodes.pids t
    · rcases hentry n w hn hw with ⟨hreg, hword, _⟩ | ⟨i, rfl⟩
      · rcases hfree w hf with hF | rfl
        · exact hi.inUse n w hreg hword ⟨F, hp.lists.free, hF⟩
        · -- the wait that gives the word back has detached the node
          obtain ⟨hwt, hnone⟩ := hi.gives_back ht
          rw [hnone n (hi.word n w hreg hword t hwt)] at hreg
          cases hreg
      · rcases hfree w hf with hF | he
        · exact (hp.own t ha w (List.mem_append_left _ (hi.nodes.registers (hi.alive _) ht).2.1)).2 hF
        · cases he
    · rcases hentry n w hn hw with ⟨hreg, hword, _⟩ | ⟨i, rfl⟩
      · rw [Sys.after_pc] at hu ⊢
        by_cases hut : u = t
        · subst hut
          rw [if_pos rfl] at hu ⊢
          rcases hg.pool.owned_before hu with hu | ⟨r', _, hal⟩
          · refine hi.disowned hg (fun he => ?_) (hi.word n w hreg hword u hu) hreg
            subst he
            cases hu
          · -- a new node is nobody's futex word
            obtain ⟨F', _, hnew⟩ := hp.lists.alloc hal
            obtain ⟨v, hv, hlt⟩ := hp.lists.word n hreg
            rw [hword] at hv
            cases hv
            rcases hnew.source with ⟨rfl, _⟩ | ⟨_, _, rfl, _⟩
            · exact absurd ⟨_, hp.lists.free, List.mem_cons_self ..⟩ (hi.inUse n w hreg hword)
            · omega
        · rw [if_neg hut] at hu ⊢
          exact hi.word n w hreg hword u hu
      · obtain ⟨hnt, hwt, hsame⟩ := hi.nodes.registers (hi.alive _) ht
        rw [Sys.after_pc] at hu ⊢
        by_cases hut : u = t
        · rw [if_pos hut, hsame]
          exact hnt
        · rw [if_neg hut] at hu
          exact absurd (hp.apart u t w (hi.alive _) ha (List.mem_append_left _ hu)
            (List.mem_append_left _ hwt)) hut
  | die => cases hl

omit [DecidableEq T] in
/-- A registered node of a wait is registered on the wait's object, under the wait's first node. -/
theorem LiveInv.entry (hi : LiveInv s) {c : WaitCtx} {p : WaitPc}
    (hpc : (s.threads t).pc = .wait c p) {k : Nat} (hk : k < c.nodes.length)
    (hown : c.node k ∈ p.owned c) (hreg : (s.region.nodes (c.node k)).registered = true) :
    (s.region.nodes (c.node k)).obj = some (c.target k) ∧
      (s.region.nodes (c.node k)).waitWord = some (c.node 0) :=
  hi.nodes.entry (hi.alive _) hpc hk hown hreg

/-- The nodes of the others keep their entries. -/
theorem LiveInv.others (hi : LiveInv s)
    (ht : tick o s.toShared (s.threads t).pid (s.threads t).calls (s.threads t).pc =
      some (ins, pc')) {u : T} (hut : u ≠ t) {n : Nat} (hn : n ∈ (s.threads u).pc.waitNodes) :
    Kept (s.region.nodes n) ((s.after t ins pc').region.nodes n) :=
  hi.nodes.others (hi.alive _) ht hut (hi.alive _) hn

/-- The slot `x` in use becomes `y` by `ins`: at most its word and its pulse counter change. -/
structure SlotAfter (ins : Instr) (i : Nat) (x y : Slot) : Prop where
  state : y.state = x.state
  generation : y.generation = x.generation
  objType : y.objType = x.objType
  w0 : y.w0 = ins.wordAfter i x.w0
  d : y.d = ins.countAfter i x.d

/-- **A step on a slot that stays in use.** -/
theorem TableInv.slot_after (hi : TableInv s) (ha : s.dead (s.threads t).pid = false)
    (ht : tick o s.toShared (s.threads t).pid (s.threads t).calls (s.threads t).pc =
      some (ins, pc')) {i : Nat}
    (hu : (s.region.slots i).state = .used)
    (hu' : ((s.after t ins pc').region.slots i).state = .used) :
    SlotAfter ins i (s.region.slots i) ((s.after t ins pc').region.slots i) := by
  obtain ⟨hd, hr⟩ := Instr.apply_slot t (s.threads t).pid s.toShared ins i
  have hr' : (s.after t ins pc').region.slots i =
    { ins.slotAfter i (s.region.slots i) with waiterHead := hd } := hr
  cases ins with
  | store j w =>
    by_cases hij : i = j
    · subst hij
      simp only [Instr.slotAfter, if_true] at hr'
      -- in a slot in use only the holder table is written
      have hholds : w.holds = true := by
        have htab := hi.ok t ha
        have hwr := hi.writes t
        rcases (tick_inv ht).store with ⟨k, h, ws, hpc, rfl, _⟩ | ⟨h, ws, hpc, _⟩ |
          ⟨h, _, _, rfl, _⟩ | ⟨h, hpc, rfl, _⟩ | ⟨add, h, ws, hpc, _⟩ | ⟨auto, st, judged, hsw, _⟩
        -- a create writes to a slot that is still free
        · rw [hpc] at htab
          rcases htab.last with ⟨he, _⟩ | ⟨hf, _⟩
          · cases he
          · rw [hf] at hu
            cases hu
        · rw [hpc] at hwr
          exact hwr w (List.mem_cons_self ..)
        -- this store frees the slot, which stays in use
        · rw [hr'] at hu'
          cases hu'
        -- a close owes the generation of a slot that is free already
        · rw [hpc] at htab
          rw [show (s.region.slots (handleIndex h)).state = .free from htab] at hu
          cases hu
        · rw [hpc] at hwr
          exact hwr w (List.mem_cons_self ..)
        -- so does a reap
        · rw [hi.reaped t auto st _ judged ha hsw] at hu
          cases hu
      rw [hr']
      cases w with
      | holdersLen | holder => exact ⟨rfl, rfl, rfl, rfl, rfl⟩
      | _ => cases hholds
    · simp only [Instr.slotAfter, if_neg hij] at hr'
      rw [hr']
      exact ⟨rfl, rfl, rfl, rfl, rfl⟩
  | word | storeD =>
    rw [hr']
    simp only [Instr.slotAfter]
    refine ⟨?_, ?_, ?_, ?_, ?_⟩
    all_goals
      simp only [Instr.wordAfter, Instr.countAfter]
      split <;> rfl
  | reap j =>
    by_cases hij : i = j
    · subst hij
      simp only [Instr.slotAfter, if_true] at hr'
      rw [hr'] at hu'
      cases hu'
    · simp only [Instr.slotAfter, if_neg hij] at hr'
      rw [hr']
      exact ⟨rfl, rfl, rfl, rfl, rfl⟩
  | _ =>
    rw [hr']
    exact ⟨rfl, rfl, rfl, rfl, rfl⟩

end LiveStep

/-! ### Quiet runs -/

/-- Moreover, nobody closes an object, so whatever a call has found in use is in use. -/
structure QuietInv (s : Sys T) : Prop extends LiveInv s where
  alerts : AlertInv s
  relies : Relies Pc.uses Pc.Valid s
  notClose : ∀ t h p, (s.threads t).pc ≠ .close h p
  usedTo : ∀ t c p, (s.threads t).pc = .wait c p → c.nodes ≠ [] → c.UsedTo s.region c.nNodes

/-- The invariant holds of a fresh region. -/
theorem QuietInv.of_init {pid : T → U32} (hpid : ∀ t, pid t ≠ 0) :
    QuietInv (Sys.rest Region.init pid) := by
  have hidle : (Sys.rest Region.init pid).Idle := fun t => rfl
  exact ⟨.of_init hpid, .of_idle hidle rfl, .of_idle tracks_uses hidle,
    fun t h p he => (by cases he), fun t c p he => (by cases he)⟩

section QuietStep

variable [DecidableEq T] {s s' : Sys T} {a : Action T} {l : Label T} {t : T} {o : Oracle}
  {ins : Instr} {pc' : Pc}

omit [DecidableEq T] in
/-- No slot is freed. -/
theorem QuietInv.frees (hi : QuietInv s)
    (ht : tick o s.toShared (s.threads t).pid (s.threads t).calls (s.threads t).pc =
      some (ins, pc'))
    (hq : (Label.instr t (s.threads t).pid ins).quiet = true) :
    (Label.instr t (s.threads t).pid ins).frees = none := by
  refine (tick_inv ht).calm_frees (hi.calm t) (hi.notClose t) ?_
    (hi.nodes.table.ok t (hi.alive _)) (hi.nodes.table.writes t)
  rintro i rfl
  cases hq

/-- **A quiet step on a slot in use.** -/
theorem QuietInv.slot_after (hi : QuietInv s)
    (ht : tick o s.toShared (s.threads t).pid (s.threads t).calls (s.threads t).pc =
      some (ins, pc'))
    (hq : (Label.instr t (s.threads t).pid ins).quiet = true) {i : Nat}
    (hu : (s.region.slots i).state = .used) :
    SlotAfter ins i (s.region.slots i) ((s.after t ins pc').region.slots i) := by
  refine hi.nodes.table.slot_after (hi.alive _) ht hu ?_
  have hf := hi.frees ht hq
  obtain ⟨hd, hr⟩ := Instr.apply_slot t (s.threads t).pid s.toShared ins i
  rw [show (s.after t ins pc').region.slots i = _ from hr]
  show (ins.slotAfter i (s.region.slots i)).state = .used
  cases ins with
  | store j w =>
    simp only [Instr.slotAfter]
    split
    · cases w with
      | state v =>
        cases v with
        | used => rfl
        | free => cases hf
      | _ => exact hu
    · exact hu
  | reap => cases hf
  | word | storeD =>
    simp only [Instr.slotAfter]
    split <;> exact hu
  | _ => exact hu

/-- Only a call of `close` closes. -/
theorem Pc.start_not_close {c : Call} (h : ∀ hd, c ≠ .close hd) (hd : U32) (p : ClosePc) :
    Pc.start c ≠ .close hd p := by
  intro he
  cases c with
  | close hd' => exact h hd' rfl
  | pulse | sweepDead => cases he
  | _ =>
    simp only [Pc.start] at he
    split at he <;> cases he

/-- A wait begins without nodes. -/
theorem Pc.start_nodes {cl : Call} {c : WaitCtx} {p : WaitPc} (h : Pc.start cl = .wait c p) :
    c.nodes = [] := by
  cases cl with
  | wait a timeout =>
    simp only [Pc.start] at h
    split at h <;> cases h
    rfl
  | pulse | sweepDead => cases h
  | _ =>
    simp only [Pc.start] at h
    split at h <;> cases h

omit [DecidableEq T] in
/-- The slots of a wait that has nodes afterwards were in use before. -/
theorem QuietInv.usedTo_before (hi : QuietInv s) {c c' : WaitCtx} {p p' : WaitPc}
    (hpc : (s.threads t).pc = .wait c p)
    (hg : WaitGo o s.toShared (s.threads t).pid c p ins (.wait c' p')) (hne : c'.nodes ≠ []) :
    c.UsedTo s.region c.nNodes := by
  by_cases hal : ins = .allocNode
  · -- they were validated in this pass
    subst hal
    have hp : p = .pass .alloc := by
      have hgo := (PcGo.wait hg).pool
      generalize hw : Pc.wait c p = w at hgo
      generalize hins : Instr.allocNode = ins at hgo
      cases hgo with
      | alloc =>
        cases hw
        rfl
      | other hl =>
        subst hins
        cases hl
      | _ => cases hins
    subst hp
    obtain ⟨L, F, U, hpool⟩ := hi.nodes.pool
    exact ((hpool.knows t (hi.alive _)).nodes c _ hpc).2
  · rw [hg.nodes_eq hal] at hne
    exact hi.usedTo t c p hpc hne

/-- **The invariant is kept by every quiet step.** -/
theorem QuietInv.step (hi : QuietInv s) (h : s.step a = some (s', l)) (hq : l.quiet = true) :
    QuietInv s' := by
  have hfrees : l.frees = none := by
    cases Sys.step_inv h with
    | call => rfl
    | tick ha ht => exact hi.frees ht hq
    | die => rfl
  have hspares : ∀ uses, Spares uses s l := fun uses i he => by
    rw [hfrees] at he
    cases he
  -- with no slot freed, everything that a call relies on stays
  refine ⟨hi.toLiveInv.step h (Label.live_of_quiet hq), hi.alerts.step h (hspares _),
    tracks_uses.step_relies hi.nodes.table hi.relies h (hspares _), fun u => ?_,
    fun u c p hpc hne => ?_⟩
  · cases Sys.step_inv h with
    | @call t c ha hout =>
      rw [Sys.entered_pc]
      split
      · refine Pc.start_not_close fun hd he => ?_
        subst he
        cases hq
      · exact hi.notClose u
    | @tick t o ins pc' ha ht =>
      rw [Sys.after_pc]
      split
      · exact (tick_inv ht).not_close (hi.notClose t)
      · exact hi.notClose u
    | die => cases hq
  · cases Sys.step_inv h with
    | @call t cl ha hout =>
      rw [Sys.entered_pc] at hpc
      split at hpc
      · exact absurd (Pc.start_nodes hpc) hne
      · exact hi.usedTo u c p hpc hne
    | @tick t o ins pc' ha ht =>
      have hkept : ∀ c₀ : WaitCtx, c₀.UsedTo s.region c₀.nNodes →
          c₀.UsedTo (s.after t ins pc').region c₀.nNodes := fun c₀ hu k hk =>
        (hi.slot_after ht hq (hu k hk)).state.trans (hu k hk)
      rw [Sys.after_pc] at hpc
      split at hpc
      · rename_i hut
        subst hut hpc
        obtain ⟨c₀, p₀, hp, hg, hargs⟩ := (tick_inv ht).of_wait
        have hused := hkept c₀ (hi.usedTo_before hp hg hne)
        -- the wait goes on with its old arguments
        intro k hk
        have hn : c.nNodes = c₀.nNodes := by
          unfold WaitCtx.nNodes
          rw [hargs]
        have ht' : c.target k = c₀.target k := by
          unfold WaitCtx.target
          rw [hargs]
        rw [ht']
        exact hused k (hn ▸ hk)
      · exact hkept c (hi.usedTo u c p hpc hne)
    | die => cases hq

omit [DecidableEq T] in
/-- A slot with waiters is in use. -/
theorem QuietInv.used_of_waiter (hi : QuietInv s) {n i : Nat}
    (hn : (s.region.nodes n).registered = true) (ho : (s.region.nodes n).obj = some i) :
    (s.region.slots i).state = .used := by
  cases hst : (s.region.slots i).state with
  | used => rfl
  | free =>
    obtain ⟨t, _, hf⟩ := hi.nodes.wellFormed.freed i n hst hn ho
    rw [(hi.calm t).frees (hi.notClose t)] at hf
    cases hf

end QuietStep

end Ntsync
