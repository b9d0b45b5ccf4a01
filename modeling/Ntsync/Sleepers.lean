import Mathlib
import Ntsync.Live

namespace Ntsync

open Words

/-!
# Sleepers

The futex word of a wait counts the wake-ups since it was sampled, in every run in which nobody dies
inside a critical section.  A node of a wait that died stays registered under a word that another wait
may use by now, and a walk that comes upon it wakes the other wait for nothing.

* `WaitPc.sampled?` — the value of the word that a wait goes to sleep on;
* `WaitCtx.strays` — the nodes left under the word by a wait that died;
* `CountInv` — the word is its sample and one more for each node that was detached since, of the wait
  or a stray one;
* `CountInv.all_registered` — a wait whose word is unchanged still has all of its nodes registered.
-/

variable {T : Type}

/-! ### The futex word counts -/

/-- The value of the futex word that the wait goes to sleep on. -/
def WaitPc.sampled? : WaitPc → Option U32
  | .pass (.unlock seq) | .spinStart seq | .spin _ seq _ | .sweep seq _ _ | .sleep seq _ => some seq
  | _ => none

/-- How many nodes of the wait are not registered. -/
def WaitCtx.woken (c : WaitCtx) (r : Region) : Nat :=
  c.nodes.countP fun n => !(r.nodes n).registered

section Sampled

variable {o : Oracle} {sh : Shared T} {pid : U32} {ins : Instr} {c c' : WaitCtx} {p p' : WaitPc}
  {seq : U32}

/-- A sweep that is between two reaps writes no node. -/
theorem SweepGo.idle_nodes {auto : Bool} {q : SweepPc} {out : Out SweepPc Nat}
    (hg : SweepGo auto sh q ins out) (hq : q.idle = true) (ho : ∀ q', out = .more q' → q'.idle = true)
    (t : T) : (ins.apply t pid sh).region.nodes = sh.region.nodes := by
  cases hg with
  | reapNode => cases ho _ rfl
  | reapFree | reapGen | walk | walked => cases hq
  | _ => rfl

/-- An attempt to acquire writes no node. -/
theorem satInstr_nodes (a : WaitArgs) (w : Option SatWrite) (t : T) :
    ((satInstr a w).apply t pid sh).region.nodes = sh.region.nodes := by
  rcases w with _ | w
  · rfl
  · cases w <;> rfl

/-- A sleeper keeps its sample, and leaves the nodes alone while its sweep reaps nothing. -/
theorem WaitGo.sampled (hg : WaitGo o sh pid c p ins (.wait c' p')) (hs : p'.sampled? = some seq) :
    c' = c ∧ ((Pc.wait c p).Calm → (Pc.wait c' p').Calm →
        ∀ t : T, (ins.apply t pid sh).region.nodes = sh.region.nodes) ∧
      (p.sampled? = some seq ∨
        p = .pass .sample ∧ ins = .silent ∧ seq = (sh.region.nodes (c.node 0)).seq) := by
  generalize hpc : Pc.wait c' p' = pc' at hg
  cases hg with
  -- on the fast path nothing is sampled yet
  | fast hg =>
    cases hg with
    | lookOther | seq =>
      cases hpc
      unfold WaitCtx.fastNext at hs
      split at hs
      · cases hs
      · split at hs <;> cases hs
    | unwrapStateBad | unwrapGenBad | alerted | win | failZero => cases hpc
    | _ =>
      cases hpc
      cases hs
  -- in the locked pass only the sampling access itself leads on with a sample
  | pass hg =>
    have hafter : c.afterAlert.sampled? = none := by
      unfold WaitCtx.afterAlert
      split <;> rfl
    have hnext : ∀ i, (c.validateNext i).sampled? = none := by
      intro i
      unfold WaitCtx.validateNext
      split
      · rfl
      · split
        · rfl
        · exact hafter
    cases hg with
    | validateFirst | validate =>
      cases hpc
      rw [hnext] at hs
      cases hs
    | alertClear =>
      cases hpc
      rw [hafter] at hs
      cases hs
    | alloc =>
      cases hpc
      unfold WaitCtx.allocNext at hs
      split at hs <;> cases hs
    | registerSkip | register =>
      cases hpc
      unfold WaitCtx.registerNext at hs
      split at hs <;> cases hs
    | sample =>
      cases hpc
      cases hs
      exact ⟨rfl, fun _ _ _ => rfl, .inr ⟨rfl, rfl, rfl⟩⟩
    | unlock =>
      cases hpc
      cases hs
      exact ⟨rfl, fun _ _ _ => rfl, .inl rfl⟩
    | alertPanic => cases hpc
    | _ =>
      cases hpc
      cases hs
  -- before the sleep the sample is carried along, and nothing touches a node
  | noSpin | spinStart =>
    cases hpc
    cases hs
    exact ⟨rfl, fun _ _ _ => rfl, .inl rfl⟩
  | spin hg =>
    cases hg with
    | alertStateBad | alertGenBad => cases hpc
    | alerted | win =>
      cases hpc
      cases hs
    | sat | fail =>
      cases hpc
      cases hs
      exact ⟨rfl, fun _ _ => satInstr_nodes _ _, .inl rfl⟩
    | _ =>
      cases hpc
      cases hs
      exact ⟨rfl, fun _ _ _ => rfl, .inl rfl⟩
  -- the sweep before the sleep hands the sample back, the one after a timeout does not
  | @sweep seq' timedOut q _ _ hg =>
    cases hg with
    | skip | unlock =>
      cases hpc
      cases timedOut
      · cases hs
        exact ⟨rfl, fun _ _ _ => rfl, .inl rfl⟩
      · cases hs
    | run hr =>
      cases hpc
      cases hs
      -- a calm sweep reaps nothing, so it leaves the pool alone
      refine ⟨rfl, fun hc hc' => (SweepPc.step_inv hr).idle_nodes (hc _ _ rfl) ?_, .inl rfl⟩
      intro q' he
      cases he
      exact hc' _ _ rfl
    | swept hr =>
      cases hpc
      cases hs
      exact ⟨rfl, fun hc _ => (SweepPc.step_inv hr).idle_nodes (hc _ _ rfl) (fun q' he => by cases he),
        .inl rfl⟩
    | _ =>
      cases hpc
      cases hs
      exact ⟨rfl, fun _ _ _ => rfl, .inl rfl⟩
  | sleep hg =>
    cases hg with
    | again | woken =>
      cases hpc
      unfold afterFutex at hs
      split at hs
      · cases hs
        exact ⟨rfl, fun _ _ _ => rfl, .inl rfl⟩
      · cases hs
    | tailDone =>
      cases hpc
      cases hs
    | _ =>
      cases hpc
      cases hs
      exact ⟨rfl, fun _ _ _ => rfl, .inl rfl⟩
  | detach hg => cases hg <;> cases hpc <;> cases hs
  | clean hg => cases hg <;> cases hpc <;> cases hs

/-- The wait is neither in a locked pass nor asleep. -/
def WaitPc.aside : WaitPc → Bool
  | .fast _ | .pass .lock | .detach _ | .clean _ _ => true
  | _ => false

/-- Only a locked pass leads on to the next access of a locked pass. -/
theorem WaitGo.passing (hg : WaitGo o sh pid c p ins (.wait c' p')) (hs : p'.sampled? = none)
    (ha : p'.aside = false) :
    ∃ q, p = .pass q ∧ PassGo o sh pid c q ins (.wait c' p') := by
  generalize hpc : Pc.wait c' p' = pc' at hg
  cases hg with
  | pass hg => exact ⟨_, rfl, hpc ▸ hg⟩
  -- the fast path ends in a return or at the lock, both `aside`
  | fast hg =>
    have hnext : ∀ i, (c.fastNext i).aside = true := by
      intro i
      unfold WaitCtx.fastNext
      split
      · rfl
      · split <;> rfl
    cases hg with
    | lookOther | seq =>
      cases hpc
      rw [hnext] at ha
      cases ha
    | unwrapStateBad | unwrapGenBad | alerted | win | failZero => cases hpc
    | _ =>
      cases hpc
      cases ha
  -- from the spin loop to the sleep the sample is there
  | noSpin | spinStart =>
    cases hpc
    cases hs
  | spin hg =>
    cases hg with
    | alertStateBad | alertGenBad => cases hpc
    | alerted | win =>
      cases hpc
      cases ha
    | _ =>
      cases hpc
      cases hs
  | @sweep seq' timedOut q _ _ hg =>
    cases hg with
    | skip | unlock =>
      cases hpc
      cases timedOut
      · cases hs
      · cases ha
    | _ =>
      cases hpc
      cases hs
  | sleep hg =>
    cases hg with
    | again | woken =>
      cases hpc
      unfold afterFutex at hs ha
      split at hs
      · cases hs
      · rw [if_neg ‹_›] at ha
        cases ha
    | tailDone =>
      cases hpc
      cases ha
    | _ =>
      cases hpc
      cases hs
  | detach hg => cases hg <;> cases hpc <;> cases ha
  | clean hg => cases hg <;> cases hpc <;> cases ha

/-- A wait that has sampled its futex word owns exactly its nodes. -/
theorem WaitPc.owned_sampled (h : p.sampled? = some seq) : p.owned c = c.nodes := by
  cases p with
  | clean => cases h
  | _ => rfl

/-- A sleeper has all of its nodes. -/
theorem WaitPc.NodesOk.sampled {r : Region} (h : p.NodesOk r c) (hs : p.sampled? = some seq) :
    c.nodes.length = c.nNodes := by
  cases p with
  | pass q => cases q <;> first | exact h.1 | cases hs
  | fast | detach | clean => cases hs
  | _ => exact h

end Sampled

/-- The wake walk of a live thread is about to bump the word. -/
def Sys.Bumping (s : Sys T) (w : Nat) : Prop :=
  ∃ u, s.dead (s.threads u).pid = false ∧ (s.threads u).pc.bumps? = some w

/-- Nobody dies between marking a slot free and the end of the wake walk over its waiters, or in
    any walk between the detach of a waiter and the bump of its futex word. -/
def ClosesWhole (s : Sys T) : Label T → Prop
  | .die p => ∀ t, (s.threads t).pid = p → s.dead p = false →
      (s.threads t).pc.frees? = none ∧ (s.threads t).pc.bumps? = none
  | _ => True

instance [Fintype T] (s : Sys T) : (l : Label T) → Decidable (ClosesWhole s l)
  | .die p => inferInstanceAs (Decidable (∀ t, (s.threads t).pid = p → s.dead p = false →
      (s.threads t).pc.frees? = none ∧ (s.threads t).pc.bumps? = none))
  | .call _ _ | .instr _ _ _ => inferInstanceAs (Decidable True)

/-- Who dies outside of closes, reaps and walks leaves no freed slot with waiters. -/
theorem ClosesWhole.clean {s : Sys T} {l : Label T} (h : ClosesWhole s l) : CleanDeath s l := by
  cases l with
  | die p =>
    intro t i ht ha hf
    rw [(h t ht ha).1] at hf
    cases hf
  | _ => trivial

/-- How many registered nodes lead to the futex word of the wait without being the wait's. -/
def WaitCtx.strays (c : WaitCtx) (r : Region) : Nat :=
  ((Finset.range nodeCount).filter fun n =>
    n ∉ c.nodes ∧ (r.nodes n).registered = true ∧ (r.nodes n).waitWord = some (c.node 0)).card

/-- The futex word of the wait is its sample and one more for each node that was detached since,
    of the wait or one of `k` others, but for a bump that is still due. -/
structure Counts (s : Sys T) (c : WaitCtx) (seq : U32) (k : Nat) : Prop where
  settled : ¬ s.Bumping (c.node 0) →
    (s.region.nodes (c.node 0)).seq = seq + BitVec.ofNat 32 (c.woken s.region + k)
  due : s.Bumping (c.node 0) →
    (s.region.nodes (c.node 0)).seq + 1 = seq + BitVec.ofNat 32 (c.woken s.region + k)

/-- The futex words of all sleepers count their wake-ups, at most `K` of which were not meant for
    the sleeper. -/
def CountInv (K : Nat) (s : Sys T) : Prop :=
  ∀ t c p seq, s.dead (s.threads t).pid = false → (s.threads t).pc = .wait c p →
    p.sampled? = some seq → ∃ k, k + c.strays s.region ≤ K ∧ Counts s c seq k

/-- At rest there are no sleepers. -/
theorem CountInv.of_idle {s : Sys T} {K : Nat} (hidle : s.Idle) : CountInv K s := by
  intro t c p seq _ hpc
  rcases Pc.outside_cases (hidle t) with h | ⟨_, _, h⟩ <;> rw [h] at hpc <;> cases hpc

/-- The number of woken nodes depends on the registrations only. -/
theorem WaitCtx.woken_congr {c : WaitCtx} {r r' : Region}
    (h : ∀ n ∈ c.nodes, (r'.nodes n).registered = (r.nodes n).registered) :
    c.woken r' = c.woken r :=
  List.countP_congr fun n hn => by rw [h n hn]

/-- Detaching one of the nodes is one more wake-up. -/
theorem WaitCtx.woken_detach {c : WaitCtx} {r : Region} {n : Nat} (hd : c.nodes.Nodup)
    (hn : n ∈ c.nodes) (hreg : (r.nodes n).registered = true) :
    c.woken (r.nodeDetach n) = c.woken r + 1 := by
  unfold WaitCtx.woken
  generalize c.nodes = l at hd hn
  induction l with
  | nil => cases hn
  | cons m l ih =>
    obtain ⟨hm, hl⟩ := List.nodup_cons.mp hd
    rw [List.countP_cons, List.countP_cons]
    by_cases hmn : m = n
    · subst hmn
      have hrest : l.countP (fun k => !((r.nodeDetach m).nodes k).registered) =
          l.countP fun k => !(r.nodes k).registered := by
        refine List.countP_congr fun k hk => ?_
        have hkm : k ≠ m := by
          rintro rfl
          exact hm hk
        rw [(Region.nodeDetach_other hkm).1]
      rw [hrest, Region.nodeDetach_self.1, hreg]
      rfl
    · have hin : n ∈ l := (List.mem_cons.mp hn).resolve_left (Ne.symm hmn)
      rw [ih hl hin, (Region.nodeDetach_other hmn).1]
      omega

/-- There are no more strays than nodes. -/
theorem WaitCtx.strays_le (c : WaitCtx) (r : Region) : c.strays r ≤ nodeCount :=
  (Finset.card_filter_le _ _).trans (Finset.card_range nodeCount).le

/-- No node becomes a stray of a wait without being registered under the wait's word. -/
theorem WaitCtx.strays_mono {c : WaitCtx} {r r' : Region}
    (h : ∀ n, n ∉ c.nodes → (r'.nodes n).registered = true →
      (r'.nodes n).waitWord = some (c.node 0) →
      (r.nodes n).registered = true ∧ (r.nodes n).waitWord = some (c.node 0)) :
    c.strays r' ≤ c.strays r := by
  refine Finset.card_le_card fun n hn => ?_
  simp only [Finset.mem_filter] at hn ⊢
  exact ⟨hn.1, hn.2.1, h n hn.2.1 hn.2.2.1 hn.2.2.2⟩

/-- A stray that is detached is one less. -/
theorem WaitCtx.strays_detach {c : WaitCtx} {r : Region} {n : Nat} (hlt : n < nodeCount)
    (hn : n ∉ c.nodes) (hreg : (r.nodes n).registered = true)
    (hword : (r.nodes n).waitWord = some (c.node 0)) :
    c.strays (r.nodeDetach n) + 1 ≤ c.strays r := by
  refine Finset.card_lt_card (Finset.ssubset_iff_of_subset ?_ |>.mpr ⟨n, ?_, ?_⟩)
  · intro m hm
    simp only [Finset.mem_filter] at hm ⊢
    have hmn : m ≠ n := by
      rintro rfl
      rw [Region.nodeDetach_self.1] at hm
      cases hm.2.2.1
    obtain ⟨hreg', _, hword'⟩ := (Region.nodeDetach_other hmn).2.back hm.2.2.1
    exact ⟨hm.1, hm.2.1, hreg', hword' ▸ hm.2.2.2⟩
  · simp only [Finset.mem_filter, Finset.mem_range]
    exact ⟨hlt, hn, hreg, hword⟩
  · intro hm
    simp only [Finset.mem_filter] at hm
    rw [Region.nodeDetach_self.1] at hm
    cases hm.2.2.1

section CountStep

variable [DecidableEq T] {s s' : Sys T} {a : Action T} {l : Label T} {t u : T} {o : Oracle}
  {ins : Instr} {pc' : Pc} {c : WaitCtx} {p : WaitPc} {seq : U32} {k : Nat}

omit [DecidableEq T] in
/-- While a thread walks, nobody else is about to bump. -/
theorem NodesInv.bumps_alone (hi : NodesInv s) (ha : s.dead (s.threads t).pid = false) {i w : Nat}
    {v : Walk} (ht : (s.threads t).pc.walk? = some (i, v))
    (hua : s.dead (s.threads u).pid = false) (hut : u ≠ t) :
    (s.threads u).pc.bumps? ≠ some w := by
  intro hu
  obtain ⟨j, next, hw⟩ := Pc.walk_of_bumps hu
  exact hut (hi.table.lock.unique (Pc.locked_of_walk hw) hua (Pc.locked_of_walk ht) ha)

/-- Who is about to bump a word after a step: the thread that made it, or another one as before. -/
theorem Sys.bumping_after (ha : s.dead (s.threads t).pid = false) (w : Nat) :
    (s.after t ins pc').Bumping w ↔ pc'.bumps? = some w ∨
      ∃ u, u ≠ t ∧ s.dead (s.threads u).pid = false ∧ (s.threads u).pc.bumps? = some w := by
  constructor
  · rintro ⟨u, hua, hu⟩
    rw [Sys.after_dead, Sys.after_pid] at hua
    rw [Sys.after_pc] at hu
    by_cases hut : u = t
    · rw [if_pos hut] at hu
      exact .inl hu
    · rw [if_neg hut] at hu
      exact .inr ⟨u, hut, hua, hu⟩
  · rintro (h | ⟨u, hut, hua, hu⟩)
    · refine ⟨t, ?_, by rw [Sys.after_pc, if_pos rfl]; exact h⟩
      rw [Sys.after_dead, Sys.after_pid]
      exact ha
    · refine ⟨u, ?_, by rw [Sys.after_pc, if_neg hut]; exact hu⟩
      rw [Sys.after_dead, Sys.after_pid]
      exact hua

/-- A step from and to no bump that is due changes nothing about those of the others. -/
theorem Sys.bumping_kept (ha : s.dead (s.threads t).pid = false)
    (hb : (s.threads t).pc.bumps? = none) (hb' : pc'.bumps? = none) (w : Nat) :
    (s.after t ins pc').Bumping w ↔ s.Bumping w := by
  rw [Sys.bumping_after ha, hb']
  constructor
  · rintro (h | ⟨v, _, hv⟩)
    · cases h
    · exact ⟨v, hv⟩
  · rintro ⟨v, hv⟩
    refine .inr ⟨v, ?_, hv⟩
    rintro rfl
    rw [hb] at hv
    cases hv.2

omit [DecidableEq T] in
/-- The nodes of a sleeper. -/
theorem NodesInv.sleeper (hi : NodesInv s) (hua : s.dead (s.threads u).pid = false)
    (hpc : (s.threads u).pc = .wait c p) (hs : p.sampled? = some seq) :
    (s.threads u).pc.waitNodes = c.nodes ∧ c.node 0 ∈ c.nodes ∧ c.nodes.Nodup ∧
      c.nodes.length = c.nNodes := by
  obtain ⟨L, F, U, hp⟩ := hi.pool
  have hlen := ((hp.knows u hua).nodes c p hpc).sampled hs
  have hshape := hi.shape u
  rw [hpc] at hshape
  have hpos := c.nNodes_pos hshape.1
  have hwait : (s.threads u).pc.waitNodes = c.nodes := by
    rw [hpc]
    exact WaitPc.owned_sampled hs
  exact ⟨hwait, WaitCtx.node_mem (by omega),
    hwait ▸ (List.nodup_append.mp (hp.nodup u hua)).1, hlen⟩

omit [DecidableEq T] in
/-- Nobody is about to bump while a walk has not detached its next waiter yet. -/
theorem NodesInv.not_bumping (hi : NodesInv s) (ha : s.dead (s.threads t).pid = false) {i w : Nat}
    {v : Walk} (ht : (s.threads t).pc.walk? = some (i, v))
    (hb : (s.threads t).pc.bumps? ≠ some w) : ¬ s.Bumping w := by
  rintro ⟨u, hua, hu⟩
  by_cases hut : u = t
  · rw [hut] at hu
    exact hb hu
  · exact hi.bumps_alone ha ht hua hut hu

omit [DecidableEq T] in
/-- A sleeper takes none of its nodes off a list, so a walk does. -/
theorem NodesInv.detaches_sleeper (hi : NodesInv s) (ha : s.dead (s.threads t).pid = false) {n : Nat}
    (ht : tick o s.toShared (s.threads t).pid (s.threads t).calls (s.threads t).pc =
      some (.detach n, pc'))
    (hua : s.dead (s.threads u).pid = false) (hpc : (s.threads u).pc = .wait c p)
    (hs : p.sampled? = some seq) (hn : n ∈ c.nodes) :
    ∃ i, (s.threads t).pc.walk? = some (i, .node (some n)) := by
  have hwait := (hi.sleeper hua hpc hs).1
  rcases hi.detaches ha ht hua (hwait ▸ hn) with ⟨rfl, hd⟩ | hwalk
  · rw [hpc] at hd
    cases p with
    | detach | clean => cases hs
    | _ => cases hd
  · exact hwalk

omit [DecidableEq T] in
/-- Nobody registers a node of a sleeper, or another one under its word. -/
theorem NodesInv.registers_sleeper (hi : NodesInv s) (ha : s.dead (s.threads t).pid = false)
    {n i w : Nat}
    (ht : tick o s.toShared (s.threads t).pid (s.threads t).calls (s.threads t).pc =
      some (.register n i w, pc'))
    (hua : s.dead (s.threads u).pid = false) (hpc : (s.threads u).pc = .wait c p)
    (hs : p.sampled? = some seq) : n ∉ c.nodes ∧ w ≠ c.node 0 := by
  obtain ⟨L, F, U, hp⟩ := hi.pool
  obtain ⟨hwait, h0, _⟩ := hi.sleeper hua hpc hs
  obtain ⟨hn, hw, _⟩ := hi.registers ha ht
  have hne : ∀ m ∈ (s.threads t).pc.waitNodes, m ∉ c.nodes := by
    intro m hm hmc
    rw [← hwait] at hmc
    obtain rfl : u = t :=
      hp.apart u t m hua ha (List.mem_append_left _ hmc) (List.mem_append_left _ hm)
    obtain ⟨c', j, hreg, _⟩ := hi.registers_at ha ht
    rw [hpc] at hreg
    cases hreg
    cases hs
  exact ⟨hne n hn, fun he => hne w hw (he ▸ h0)⟩

/-- No step makes another node lead to the word of a sleeper. -/
theorem NodesInv.strays_step (hi : NodesInv s) (ha : s.dead (s.threads t).pid = false)
    (ht : tick o s.toShared (s.threads t).pid (s.threads t).calls (s.threads t).pc =
      some (ins, pc'))
    (hua : s.dead (s.threads u).pid = false) (hpc : (s.threads u).pc = .wait c p)
    (hs : p.sampled? = some seq) :
    c.strays (s.after t ins pc').region ≤ c.strays s.region := by
  refine WaitCtx.strays_mono fun n hn hreg hword => ?_
  by_cases hr : ∃ i w, ins = .register n i w
  · obtain ⟨i, w, rfl⟩ := hr
    have hself : ((s.after t (.register n i w) pc').region.nodes n).waitWord = some w :=
      Region.nodeRegister_self.2.2.1
    rw [hword] at hself
    exact absurd (Option.some.inj hself).symm (hi.registers_sleeper ha ht hua hpc hs).2
  · rcases Instr.registered_now hreg with ⟨_, hal⟩ | he
    · have hk : Kept (s.region.nodes n) ((s.after t ins pc').region.nodes n) :=
        Instr.kept hal fun i v he => hr ⟨i, v, he⟩
      obtain ⟨hreg₀, _, hword₀⟩ := hk.back hreg
      exact ⟨hreg₀, hword₀ ▸ hword⟩
    · exact absurd he hr

/-- A due bump, on the count of a sleeper. -/
theorem NodesInv.counts_bump (hi : NodesInv s) (ha : s.dead (s.threads t).pid = false) {w : Nat}
    (hg : PcGo s.toShared (s.threads t).pid o (s.threads t).pc ins pc')
    (hb : (s.threads t).pc.bumps? = some w) (hcnt : Counts s c seq k) :
    Counts (s.after t ins pc') c seq k := by
  obtain ⟨i, next, hw⟩ := Pc.walk_of_bumps hb
  obtain ⟨rfl, hb'⟩ := hg.bumps hb
  have hnodes : ∀ n, (s.after t (.bump w) pc').region.nodes n =
      { s.region.nodes n with seq := (s.region.nodes n).seq + if w = n then 1#32 else 0#32 } :=
    Region.bumpSeq_nodes w
  have hwoken : c.woken (s.after t (.bump w) pc').region = c.woken s.region :=
    WaitCtx.woken_congr fun n _ => by rw [hnodes]
  refine ⟨fun _ => ?_, fun h => ?_⟩
  · rw [hwoken, hnodes]
    by_cases hw0 : w = c.node 0
    · rw [if_pos hw0]
      exact hcnt.due ⟨t, ha, hb.trans (congrArg some hw0)⟩
    · rw [if_neg hw0, BitVec.add_zero]
      refine hcnt.settled (hi.not_bumping ha hw ?_)
      rw [hb]
      exact fun he => hw0 (Option.some.inj he)
  · -- it was the only one
    rw [Sys.bumping_after ha, hb'] at h
    rcases h with h | ⟨v, hvt, hva, hv⟩
    · cases h
    · exact absurd hv (hi.bumps_alone ha hw hva hvt)

/-- A walk detaches its next waiter: one of the sleeper's own nodes, a stray one, or one that leads
    to another word. -/
theorem NodesInv.counts_detach (hi : NodesInv s) (ha : s.dead (s.threads t).pid = false)
    {i n w K : Nat} (hw : (s.threads t).pc.walk? = some (i, .node (some n)))
    (ht : tick o s.toShared (s.threads t).pid (s.threads t).calls (s.threads t).pc =
      some (.detach n, pc'))
    (hb' : pc'.bumps? = some w) (hword : (s.region.nodes n).waitWord = some w)
    (hua : s.dead (s.threads u).pid = false) (hpc : (s.threads u).pc = .wait c p)
    (hs : p.sampled? = some seq) (hle : k + c.strays s.region ≤ K) (hcnt : Counts s c seq k) :
    ∃ k', k' + c.strays (s.after t (.detach n) pc').region ≤ K ∧
      Counts (s.after t (.detach n) pc') c seq k' := by
  obtain ⟨L, F, U, hp⟩ := hi.pool
  obtain ⟨hwait, h0, hnd, _⟩ := hi.sleeper hua hpc hs
  have hreg := (hp.walk_head ha hw).2.1
  have hb : (s.threads t).pc.bumps? = none := by
    unfold Pc.bumps?
    rw [hw]
  have hset := hcnt.settled (hi.not_bumping ha hw (by rw [hb]; exact fun he => by cases he))
  have hseq : ((s.after t (.detach n) pc').region.nodes (c.node 0)).seq =
      (s.region.nodes (c.node 0)).seq := Instr.seq_kept fun he => by cases he
  have hstep := hi.strays_step ha ht hua hpc hs
  -- one more wake-up of the sleeper, if the bump is for it
  have hmore : ∀ k', c.woken (s.after t (.detach n) pc').region + k' =
      c.woken s.region + k + 1 → w = c.node 0 → Counts (s.after t (.detach n) pc') c seq k' := by
    intro k' hk' hw0
    refine ⟨fun h => absurd ((Sys.bumping_after ha _).mpr (.inl (hw0 ▸ hb'))) h, fun _ => ?_⟩
    rw [hseq, hset, hk', BitVec.ofNat_add _ 1, BitVec.add_assoc]
    rfl
  have hother : n ∉ c.nodes →
      c.woken (s.after t (.detach n) pc').region = c.woken s.region := by
    intro hn
    refine WaitCtx.woken_congr fun m hm => ?_
    have hmn : m ≠ n := by
      rintro rfl
      exact hn hm
    exact (Region.nodeDetach_other hmn).1
  by_cases hn : n ∈ c.nodes
  · obtain ⟨j, hj, rfl⟩ := WaitCtx.exists_node hn
    have hown : c.node j ∈ p.owned c := by
      rw [WaitPc.owned_sampled hs]
      exact hn
    have hentry := (hi.entry hua hpc hj hown hreg).2
    rw [hword] at hentry
    have hwoken : c.woken (s.after t (.detach (c.node j)) pc').region =
        c.woken s.region + 1 := WaitCtx.woken_detach hnd hn hreg
    exact ⟨k, by omega, hmore k (by omega) (Option.some.inj hentry)⟩
  · by_cases hw0 : w = c.node 0
    · have hless : c.strays (s.after t (.detach n) pc').region + 1 ≤ c.strays s.region :=
        WaitCtx.strays_detach ((hp.lists.below n hreg).trans_le hp.lists.bound) hn hreg (hw0 ▸ hword)
      exact ⟨k + 1, by omega, hmore (k + 1) (by rw [hother hn]; omega) hw0⟩
    · refine ⟨k, by omega, fun _ => ?_, fun h => ?_⟩
      · rw [hseq, hother hn]
        exact hset
      · rw [Sys.bumping_after ha, hb'] at h
        rcases h with h | ⟨v, hvt, hva, hv⟩
        · exact absurd (Option.some.inj h) hw0
        · exact absurd hv (hi.bumps_alone ha hw hva hvt)

/-- The other steps leave the nodes of a sleeper alone. -/
theorem NodesInv.counts_rest (hi : NodesInv s) (ha : s.dead (s.threads t).pid = false)
    (ht : tick o s.toShared (s.threads t).pid (s.threads t).calls (s.threads t).pc =
      some (ins, pc'))
    (hb : (s.threads t).pc.bumps? = none) (hb' : pc'.bumps? = none)
    (hua : s.dead (s.threads u).pid = false) (hpc : (s.threads u).pc = .wait c p)
    (hs : p.sampled? = some seq) (hcnt : Counts s c seq k) :
    Counts (s.after t ins pc') c seq k := by
  obtain ⟨L, F, U, hp⟩ := hi.pool
  have hg := tick_inv ht
  obtain ⟨hwait, _⟩ := hi.sleeper hua hpc hs
  have hbumps : (s.after t ins pc').Bumping (c.node 0) ↔ s.Bumping (c.node 0) :=
    Sys.bumping_kept ha hb hb' _
  have hseq : ((s.after t ins pc').region.nodes (c.node 0)).seq =
      (s.region.nodes (c.node 0)).seq := by
    refine Instr.seq_kept ?_
    rintro rfl
    obtain ⟨i, next, hw⟩ := hg.bump
    rw [Pc.bumps_of_walk hw] at hb
    cases hb
  have hwoken : c.woken (s.after t ins pc').region = c.woken s.region := by
    refine WaitCtx.woken_congr fun n hn => ?_
    cases hreg : (s.region.nodes n).registered with
    | false =>
      cases hreg' : ((s.after t ins pc').region.nodes n).registered with
      | false => rfl
      | true =>
        rcases Instr.registered_now hreg' with ⟨h, _⟩ | ⟨i, w, rfl⟩
        · rw [hreg] at h
          cases h
        · exact absurd hn (hi.registers_sleeper ha ht hua hpc hs).1
    | true =>
      refine Instr.registered_kept ?_ (fun m r _ hal hnm => ?_) hreg
      · rintro rfl
        obtain ⟨i, hw⟩ := hi.detaches_sleeper ha ht hua hpc hs hn
        -- a walk that detaches a node is about to bump
        obtain ⟨w, hword, _⟩ := hp.lists.word n hreg
        obtain ⟨q, hq, hf, _⟩ := hg.walk hw
        cases hq
        rw [Pc.bumps_of_walk hf, hword] at hb'
        cases hb'
      · obtain ⟨F', _, hal'⟩ := hp.lists.alloc hal
        exact hp.unowned hal' hua (hnm ▸ List.mem_append_left _ (hwait ▸ hn))
  refine ⟨fun h => ?_, fun h => ?_⟩
  · rw [hseq, hwoken]
    exact hcnt.settled fun hb => h (hbumps.mpr hb)
  · rw [hseq, hwoken]
    exact hcnt.due (hbumps.mp h)

/-- A step, on the count of who sleeps before and after it. -/
theorem NodesInv.counts_tick (hi : NodesInv s) (ha : s.dead (s.threads t).pid = false) {K : Nat}
    (ht : tick o s.toShared (s.threads t).pid (s.threads t).calls (s.threads t).pc =
      some (ins, pc'))
    (hua : s.dead (s.threads u).pid = false) (hpc : (s.threads u).pc = .wait c p)
    (hs : p.sampled? = some seq) (hle : k + c.strays s.region ≤ K) (hcnt : Counts s c seq k) :
    ∃ k', k' + c.strays (s.after t ins pc').region ≤ K ∧ Counts (s.after t ins pc') c seq k' := by
  have hg := tick_inv ht
  have hstep := hi.strays_step ha ht hua hpc hs
  cases hb : (s.threads t).pc.bumps? with
  | some w => exact ⟨k, by omega, hi.counts_bump ha hg hb hcnt⟩
  | none =>
    cases hb' : pc'.bumps? with
    | some w =>
      obtain ⟨i, n, hw, rfl, hword⟩ := hg.bumps_now hb'
      exact hi.counts_detach ha hw ht hb' hword hua hpc hs hle hcnt
    | none => exact ⟨k, by omega, hi.counts_rest ha ht hb hb' hua hpc hs hcnt⟩

/-- A wait samples its word with all of its nodes registered, and the lock keeps the walks out. -/
theorem NodesInv.counts_sample (hi : NodesInv s) (ha : s.dead (s.threads t).pid = false)
    (hpc : (s.threads t).pc = .wait c (.pass .sample)) (hb' : (Pc.wait c p).bumps? = none) :
    Counts (s.after t .silent (.wait c p)) c (s.region.nodes (c.node 0)).seq 0 := by
  obtain ⟨L, F, U, hp⟩ := hi.pool
  have hlocked : (s.threads t).pc.locked = true := by rw [hpc]; rfl
  have hb : (s.threads t).pc.bumps? = none := by rw [hpc]; rfl
  have hnone : ¬ (s.after t .silent (.wait c p)).Bumping (c.node 0) := by
    rw [Sys.bumping_kept ha hb hb']
    rintro ⟨v, hva, hv⟩
    obtain ⟨i, next, hw⟩ := Pc.walk_of_bumps hv
    obtain rfl : v = t := hi.table.lock.unique (Pc.locked_of_walk hw) hva hlocked ha
    rw [hb] at hv
    cases hv
  obtain ⟨hlen, hto⟩ := (hp.knows t ha).nodes c _ hpc
  have hzero : c.woken (s.after t .silent (.wait c p)).region = 0 := by
    refine List.countP_eq_zero.mpr fun n hn => ?_
    obtain ⟨j, hj, rfl⟩ := WaitCtx.exists_node hn
    rw [show ((s.after t .silent (.wait c p)).region.nodes (c.node j)).registered = _ from
      hto j (hlen ▸ hj)]
    decide
  refine ⟨fun _ => ?_, fun h => absurd h hnone⟩
  rw [hzero]
  exact (BitVec.add_zero _).symm

/-- **The futex words count**: if no more than `K` nodes lead to a word without being of the wait
    that sleeps on it, no more than `K` wake-ups of a wait are meant for another one. -/
theorem CountInv.step {K : Nat} (hcnt : CountInv K s) (hi : NodesInv s)
    (h : s.step a = some (s', l)) (hd : ClosesWhole s l)
    (hstray : ∀ t c p seq, s'.dead (s'.threads t).pid = false → (s'.threads t).pc = .wait c p →
      p.sampled? = some seq → c.strays s'.region ≤ K) : CountInv K s' := by
  intro u c p seq hua hpc hs
  cases Sys.step_inv h with
  | @call t cl ha hout =>
    have hbumps : ∀ v, ((s.entered t cl).threads v).pc.bumps? = (s.threads v).pc.bumps? := by
      intro v
      rw [Sys.entered_pc]
      split
      · rename_i hvt
        rw [hvt, Pc.bumps_none (Pc.start_walk cl)]
        rcases Pc.outside_cases hout with h | ⟨_, _, h⟩ <;> rw [h] <;> rfl
      · rfl
    have hiff : (s.entered t cl).Bumping (c.node 0) ↔ s.Bumping (c.node 0) :=
      exists_congr fun v => by rw [hbumps, Sys.entered_dead, Sys.entered_pid]
    rw [Sys.entered_dead, Sys.entered_pid] at hua
    rw [Sys.entered_pc] at hpc
    split at hpc
    · exfalso
      cases cl with
      | wait a timeout =>
        simp only [Pc.start] at hpc
        split at hpc <;> cases hpc
        cases hs
      | pulse | sweepDead => cases hpc
      | _ =>
        simp only [Pc.start] at hpc
        split at hpc <;> cases hpc
    · obtain ⟨k, hle, h₀⟩ := hcnt u c p seq hua hpc hs
      exact ⟨k, hle, fun h => h₀.settled fun hb => h (hiff.mpr hb), fun h => h₀.due (hiff.mp h)⟩
  | @tick t o ins pc' ha ht =>
    have hstray' := hstray u c p seq hua hpc hs
    rw [Sys.after_dead, Sys.after_pid] at hua
    rw [Sys.after_pc] at hpc
    by_cases hut : u = t
    · subst hut
      rw [if_pos rfl] at hpc
      subst hpc
      obtain ⟨c₀, p₀, hpc₀, hg, _⟩ := (tick_inv ht).of_wait
      obtain ⟨rfl, _, hs₀ | ⟨rfl, rfl, rfl⟩⟩ := hg.sampled hs
      · obtain ⟨k, hle, h₀⟩ := hcnt u c p₀ seq ha hpc₀ hs₀
        exact hi.counts_tick ha ht ha hpc₀ hs₀ hle h₀
      · have hb' : (Pc.wait c p).bumps? = none := by
          cases hg with
          | pass hg => cases hg <;> rfl
        exact ⟨0, by omega, hi.counts_sample ha hpc₀ hb'⟩
    · rw [if_neg hut] at hpc
      obtain ⟨k, hle, h₀⟩ := hcnt u c p seq hua hpc hs
      exact hi.counts_tick ha ht hua hpc hs hle h₀
  | @die pid =>
    have hlive : ∀ v, (s.died pid).dead ((s.died pid).threads v).pid = false →
        s.dead (s.threads v).pid = false := by
      intro v hv
      rw [Sys.died_dead, Sys.died_threads, Bool.or_eq_false_iff] at hv
      exact hv.2
    obtain ⟨k, hle, h₀⟩ := hcnt u c p seq (hlive u hua) hpc hs
    -- nobody dies with a bump due
    have hiff : (s.died pid).Bumping (c.node 0) ↔ s.Bumping (c.node 0) := by
      constructor
      · rintro ⟨v, hva, hv⟩
        exact ⟨v, hlive v hva, hv⟩
      · rintro ⟨v, hva, hv⟩
        refine ⟨v, ?_, hv⟩
        rw [Sys.died_dead, Sys.died_threads, hva, Bool.or_false]
        refine decide_eq_false fun hvp => ?_
        rw [(hd v hvp (hvp ▸ hva)).2] at hv
        cases hv
    exact ⟨k, hle, fun h => h₀.settled fun hb => h (hiff.mpr hb), fun h => h₀.due (hiff.mp h)⟩

omit [DecidableEq T] in
/-- A wait has 65 nodes at most. -/
theorem NodesInv.woken_le (hi : NodesInv s) (ha : s.dead (s.threads t).pid = false)
    (hpc : (s.threads t).pc = .wait c p) (hs : p.sampled? = some seq) : c.woken s.region ≤ 65 := by
  have hwoken : c.woken s.region ≤ c.nodes.length := List.countP_le_length
  obtain ⟨_, _, _, hlen⟩ := hi.sleeper ha hpc hs
  have hshape := hi.shape t
  rw [hpc] at hshape
  have hh := (WaitArgs.valid_iff.mp hshape.1).2.2.1
  rw [hlen] at hwoken
  refine hwoken.trans ?_
  unfold WaitCtx.nNodes
  unfold maxWaitCount at hh
  split <;> omega

omit [DecidableEq T] in
/-- **A sleeper whose futex word is unchanged still has all of its nodes registered**, unless a
    walk is about to bump it. -/
theorem CountInv.all_registered {K : Nat} (hcnt : CountInv K s) (hK : K + 65 < 2 ^ 32)
    (hi : NodesInv s) (ha : s.dead (s.threads t).pid = false)
    (hpc : (s.threads t).pc = .wait c p) (hs : p.sampled? = some seq)
    (hseq : (s.region.nodes (c.node 0)).seq = seq) (hb : ¬ s.Bumping (c.node 0)) {n : Nat}
    (hn : n ∈ c.nodes) : (s.region.nodes n).registered = true := by
  obtain ⟨k, hle, h₀⟩ := hcnt t c p seq ha hpc hs
  have hset := h₀.settled hb
  rw [hseq] at hset
  have hwoken := hi.woken_le ha hpc hs
  have hzero := ofNat_eq_zero (by omega) (left_eq_add.mp hset)
  have hall := List.countP_eq_zero.mp (Nat.eq_zero_of_add_eq_zero_right hzero) n hn
  simpa using hall

omit [DecidableEq T] in
/-- A bump that is due leads the word of a sleeper that has lost a node away from its sample. -/
theorem CountInv.bumped_away {K : Nat} (hcnt : CountInv K s) (hK : K + 65 < 2 ^ 32)
    (hi : NodesInv s) (ha : s.dead (s.threads t).pid = false)
    (hpc : (s.threads t).pc = .wait c p) (hs : p.sampled? = some seq)
    (hb : s.Bumping (c.node 0)) {n : Nat} (hn : n ∈ c.nodes)
    (hreg : (s.region.nodes n).registered = false) :
    (s.region.nodes (c.node 0)).seq + 1 ≠ seq := by
  obtain ⟨k, hle, h₀⟩ := hcnt t c p seq ha hpc hs
  have hpos : 0 < c.woken s.region := List.countP_pos_iff.mpr ⟨n, hn, by rw [hreg]; rfl⟩
  have hwoken := hi.woken_le ha hpc hs
  rw [h₀.due hb]
  intro hseq
  have hzero := ofNat_eq_zero (by omega) (add_eq_left.mp hseq)
  omega

/-! ### Live runs -/

omit [DecidableEq T] in
/-- In a live run no node leads to the word of another wait. -/
theorem LiveInv.no_strays (hi : LiveInv s) (hpc : (s.threads u).pc = .wait c p)
    (hs : p.sampled? = some seq) : c.strays s.region = 0 := by
  obtain ⟨hwait, h0, _⟩ := hi.nodes.sleeper (hi.alive _) hpc hs
  refine Finset.card_eq_zero.mpr (Finset.filter_eq_empty_iff.mpr ?_)
  rintro n _ ⟨hn, hreg, hword⟩
  exact hn (hwait ▸ hi.word n _ hreg hword u (hwait ▸ h0))

/-- So every wake-up is meant for the sleeper. -/
theorem CountInv.live_step (hcnt : CountInv 0 s) (hi : LiveInv s) (h : s.step a = some (s', l))
    (hq : l.live = true) : CountInv 0 s' := by
  have hd : ClosesWhole s l := by
    cases l with
    | die => cases hq
    | _ => trivial
  exact hcnt.step hi.nodes h hd fun t c p seq _ hpc hs => ((hi.step h hq).no_strays hpc hs).le

omit [DecidableEq T] in
/-- A live wait with a sample owns distinct nodes, its first one among them. -/
theorem LiveInv.sleeper (hi : LiveInv s) (hpc : (s.threads u).pc = .wait c p)
    (hs : p.sampled? = some seq) :
    (s.threads u).pc.waitNodes = c.nodes ∧ c.node 0 ∈ c.nodes ∧ c.nodes.Nodup ∧
      c.nodes.length = c.nNodes :=
  hi.nodes.sleeper (hi.alive _) hpc hs

omit [DecidableEq T] in
/-- In a live run, a sleeper whose word is unchanged has all of its nodes registered. -/
theorem CountInv.live_registered (hcnt : CountInv 0 s) (hi : LiveInv s)
    (hpc : (s.threads t).pc = .wait c p) (hs : p.sampled? = some seq)
    (hseq : (s.region.nodes (c.node 0)).seq = seq) (hb : ¬ s.Bumping (c.node 0)) {n : Nat}
    (hn : n ∈ c.nodes) : (s.region.nodes n).registered = true :=
  hcnt.all_registered (by omega) hi.nodes (hi.alive _) hpc hs hseq hb hn

omit [DecidableEq T] in
/-- In a live run the futex word counts the wake-ups of its own wait only. -/
theorem CountInv.live (hcnt : CountInv 0 s) (hi : LiveInv s) (hpc : (s.threads t).pc = .wait c p)
    (hs : p.sampled? = some seq) : Counts s c seq 0 := by
  obtain ⟨k, hle, h₀⟩ := hcnt t c p seq (hi.alive _) hpc hs
  obtain rfl : k = 0 := by omega
  exact h₀

end CountStep

end Ntsync
