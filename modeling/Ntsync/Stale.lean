import Mathlib
import Ntsync.Wakeups

namespace Ntsync

open Words Lts

/-!
# Nobody sleeps on a closed handle

`close` marks the slot free, bumps its generation and wakes the waiters, all in one critical section.
A wait looks its handles up and registers its nodes in one critical section too.  So the node of a wait
is on the list of the object that the wait was asked to wait for, or it is off its list.

* `PassPc.vouchedTo` — how many of its handles a wait has looked up in its present critical section;
* `EntriesInv` — a registered node is on the slot of its handle, under the generation of the handle;
* `EntryInv.no_stale_sleeper` — so whoever is parked on an unchanged futex word has handles that
  resolve.
-/

variable {T : Type}

/-- The handle that node `k` stands for. -/
def WaitCtx.handleAt (c : WaitCtx) (k : Nat) : U32 :=
  if k < c.handles.length then c.handle k else c.alert

/-- A node's slot is that of its handle. -/
theorem WaitCtx.target_eq (c : WaitCtx) (k : Nat) : c.target k = handleIndex (c.handleAt k) := by
  unfold target handleAt
  split <;> rfl

/-! ### Handles looked up under the lock -/

/-- How many of its handles a wait has looked up since it took the lock. -/
def PassPc.vouchedTo (c : WaitCtx) : PassPc → Nat
  | .validate i => i
  | .validateAlert => c.handles.length
  | .alertTest | .alloc | .register _ => c.nNodes
  | _ => 0

def WaitPc.vouchedTo (c : WaitCtx) : WaitPc → Nat
  | .pass q => q.vouchedTo c
  | _ => 0

/-- The wait has looked up slot `i` in the critical section it is in. -/
def Pc.vouches (i : Nat) : Pc → Bool
  | .wait c p => decide (∃ k < p.vouchedTo c, c.target k = i)
  | _ => false

/-- The object of generation `g` in slot `i` is the one that the wait was asked for. -/
def Pc.Vouched (i : Nat) (g : U32) (_ : ObjType) : Pc → Prop
  | .wait c p => ∀ k < p.vouchedTo c, c.target k = i → g = handleGen (c.handleAt k)
  | _ => True

section Vouching

variable {o : Oracle} {sh : Shared T} {pid : U32} {ins : Instr} {pc' : Pc} {c c' : WaitCtx}
  {p p' : WaitPc} {i : Nat}

/-- Lookups are vouched for under the lock only. -/
theorem WaitPc.vouched_locked (h : p.vouchedTo c ≠ 0) : p.locked = true := by
  cases p with
  | pass q => cases q <;> first | rfl | exact absurd rfl h
  | _ => exact absurd rfl h

/-- A wait that vouches for a lookup is in its locked pass. -/
theorem WaitPc.vouched_passing (h : p.vouchedTo c ≠ 0) : p.sampled? = none ∧ p.aside = false := by
  cases p with
  | pass q => cases q <;> first | exact ⟨rfl, rfl⟩ | exact absurd rfl h
  | _ => exact absurd rfl h

/-- After the alert test all nodes have been vouched for. -/
theorem WaitCtx.vouchedTo_afterAlert (c c' : WaitCtx) : c.afterAlert.vouchedTo c' = c'.nNodes := by
  unfold WaitCtx.afterAlert
  split <;> rfl

/-- One more validation vouches for one more handle. -/
theorem WaitCtx.vouchedTo_validateNext (c : WaitCtx) (i : Nat) :
    (c.validateNext i).vouchedTo c ≤ i + 1 ∧ (c.handles.length ≤ i →
      (c.validateNext i).vouchedTo c ≤ i) := by
  unfold WaitCtx.validateNext
  split
  · exact ⟨Nat.le_refl _, fun h => by omega⟩
  · split
    · show c.handles.length ≤ i + 1 ∧ (c.handles.length ≤ i → c.handles.length ≤ i)
      omega
    · rename_i ha
      rw [WaitCtx.vouchedTo_afterAlert, WaitCtx.nNodes, if_neg ha]
      omega

/-- A wait vouches for one more handle by looking it up. -/
theorem WaitGo.vouchedTo (hg : WaitGo o sh pid c p ins (.wait c' p')) :
    p'.vouchedTo c ≤ p.vouchedTo c ∨
      p'.vouchedTo c ≤ p.vouchedTo c + 1 ∧
        sh.region.slot (c.handleAt (p.vouchedTo c)) = some (c.target (p.vouchedTo c)) := by
  -- outside the locked pass nothing is vouched for
  by_cases h0 : p'.vouchedTo c = 0
  · exact .inl (by omega)
  obtain ⟨hs, ha⟩ := WaitPc.vouched_passing h0
  obtain ⟨q, rfl, hq⟩ := hg.passing hs ha
  generalize hpc : Pc.wait c' p' = pc' at hq
  -- one successful look-up
  have hlook : ∀ i j, sh.region.slot (c.handle i) = some j →
      (c.validateNext i).vouchedTo c ≤ i ∨
        (c.validateNext i).vouchedTo c ≤ i + 1 ∧
          sh.region.slot (c.handleAt i) = some (c.target i) := by
    intro i j hj
    obtain ⟨h₁, h₂⟩ := c.vouchedTo_validateNext i
    by_cases hi : i < c.handles.length
    · refine .inr ⟨h₁, ?_⟩
      rw [WaitCtx.target_eq, WaitCtx.handleAt, if_pos hi, hj, (Region.slot_eq_some.mp hj).1]
    · exact .inl (h₂ (by omega))
  cases hq with
  | validateFirst hj | validate hj =>
    cases hpc
    exact hlook _ _ hj
  | validateAlert hj =>
    cases hpc
    refine .inr ⟨?_, ?_⟩
    · show c.nNodes ≤ c.handles.length + 1
      unfold WaitCtx.nNodes
      split <;> omega
    · show sh.region.slot (c.handleAt c.handles.length) = some (c.target c.handles.length)
      rw [WaitCtx.target_eq, WaitCtx.handleAt, if_neg (Nat.lt_irrefl _), hj,
        (Region.slot_eq_some.mp hj).1]
  | alertClear =>
    cases hpc
    exact .inl (c.vouchedTo_afterAlert c).le
  | alloc =>
    cases hpc
    unfold WaitCtx.allocNext
    split <;> exact .inl (Nat.le_refl _)
  | registerSkip | register =>
    cases hpc
    unfold WaitCtx.registerNext
    split
    · exact .inl (Nat.le_refl _)
    · exact .inl (Nat.zero_le _)
  | alertPanic => cases hpc
  | _ =>
    cases hpc
    exact .inl (Nat.zero_le _)

/-- **What a wait has looked up under the lock.** -/
theorem tracks_vouches : Tracks Pc.vouches Pc.Vouched T where
  start := by
    intro i cl
    cases cl with
    | wait a timeout =>
      simp only [Pc.start]
      split
      · simp [Pc.vouches, WaitPc.vouchedTo]
      · rfl
    | pulse | sweepDead => rfl
    | _ =>
      simp only [Pc.start]
      split <;> rfl
  outside := by
    intro i pc h
    rcases Pc.outside_cases h with rfl | ⟨c, r, rfl⟩ <;> rfl
  works := by
    intro i pc h
    cases pc with
    | wait c p =>
      cases p with
      | sweep seq timedOut p => simp [Pc.vouches, WaitPc.vouchedTo]
      | _ => cases h
    | op | pulse => cases h
    | _ => rfl
  step := by
    intro o sh pid pc pc' ins i hg hu hi
    cases pc' with
    | wait c' p' =>
      obtain ⟨c, p, rfl, hg, hargs⟩ := hg.of_wait
      have htarget : ∀ k, c'.target k = c.target k := fun k => by
        unfold WaitCtx.target
        rw [hargs]
      have hhandle : ∀ k, c'.handleAt k = c.handleAt k := fun k => by
        unfold WaitCtx.handleAt
        rw [hargs]
      have hto : p'.vouchedTo c' = p'.vouchedTo c := by
        cases p' with
        | pass q =>
          cases q <;> simp only [WaitPc.vouchedTo, PassPc.vouchedTo, WaitCtx.nNodes, hargs]
        | _ => rfl
      simp only [Pc.vouches, Pc.Vouched, hto, htarget, hhandle, decide_eq_true_eq] at hu hi ⊢
      obtain ⟨k, hk, rfl⟩ := hu
      rcases hg.vouchedTo with hle | ⟨hle, hslot⟩
      · obtain ⟨hused, hgood⟩ := hi ⟨k, hk.trans_le hle, rfl⟩
        exact ⟨hused, fun j hj => hgood j (hj.trans_le hle)⟩
      · generalize hm : p.vouchedTo c = m at hle hslot hi
        obtain ⟨_, hused, hgen⟩ := Region.slot_eq_some.mp hslot
        -- two handles may name one slot: the last look-up speaks for both
        by_cases hkm : c.target k = c.target m
        · rw [hkm]
          refine ⟨hused, fun j hj hjm => ?_⟩
          by_cases hjlt : j < m
          · obtain ⟨_, hgood⟩ := hi ⟨j, hjlt, hjm.trans hkm.symm⟩
            rw [← hkm]
            exact hgood j hjlt (hjm.trans hkm.symm)
          · obtain rfl : j = m := by omega
            exact hgen
        · have hlt : k < m := by
            have hne : k ≠ m := fun h => hkm (h ▸ rfl)
            omega
          obtain ⟨hused', hgood⟩ := hi ⟨k, hlt, rfl⟩
          refine ⟨hused', fun j hj hjk => ?_⟩
          have hne : j ≠ m := fun h => hkm (h ▸ hjk.symm)
          exact hgood j (by omega) hjk
    | _ => cases hu

/-- Nobody outside the lock vouches for anything. -/
theorem Pc.vouches_locked {pc : Pc} (h : pc.vouches i = true) : pc.locked = true := by
  cases pc with
  | wait c p =>
    simp only [Pc.vouches, decide_eq_true_eq] at h
    obtain ⟨k, hk, _⟩ := h
    exact WaitPc.vouched_locked (c := c) (by omega)
  | _ => cases h

/-- Nobody frees a slot while another thread holds the lock. -/
theorem spares_vouches (s : Sys T) (l : Label T) : Spares Pc.vouches s l := by
  intro i _ u _ hlk
  by_contra hne
  rw [Bool.not_eq_false] at hne
  rw [Pc.vouches_locked hne] at hlk
  cases hlk

end Vouching

/-! ### Entries -/

/-- Every registered node of a live wait is on the list of its wait's own object: while the slot is
    in use, its generation is that of the handle. -/
def EntriesInv (s : Sys T) : Prop :=
  ∀ t c p k, s.dead (s.threads t).pid = false → (s.threads t).pc = .wait c p →
    k < c.nodes.length → c.node k ∈ p.owned c → (s.region.nodes (c.node k)).registered = true →
    (s.region.slots (c.target k)).state = .used →
    (s.region.slots (c.target k)).generation = handleGen (c.handleAt k)

/-- At rest nobody owns a node. -/
theorem EntriesInv.of_idle {s : Sys T} (hidle : s.Idle) : EntriesInv s := by
  intro t c p k _ hpc
  rcases Pc.outside_cases (hidle t) with h | ⟨_, _, h⟩ <;> rw [h] at hpc <;> cases hpc

section Entries

variable [DecidableEq T] {s s' : Sys T} {a : Action T} {l : Label T} {t u : T} {o : Oracle}
  {ins : Instr} {pc' : Pc} {c : WaitCtx} {p : WaitPc} {i k n : Nat}

omit [DecidableEq T] in
/-- Whoever empties a slot of its waiters stores a new generation and nothing else. -/
theorem PcGo.store_freeing {sh : Shared T} {pid : U32} {pc : Pc} {j : Nat} {w : SlotWrite}
    (hg : PcGo sh pid o pc (.store j w) pc') (hf : pc.frees? = some i) :
    ∃ v, w = .generation v := by
  rcases hg.store with ⟨_, _, _, rfl, _⟩ | ⟨_, _, rfl, _⟩ | ⟨_, rfl, _⟩ | ⟨_, _, _, rfl, _⟩ |
    ⟨_, _, _, rfl, _⟩ | ⟨_, _, _, _, rfl, _⟩
  · cases hf
  · cases hf
  · cases hf
  · exact ⟨_, rfl⟩
  · cases hf
  · exact ⟨_, rfl⟩

/-- A slot with a waiter that is in use after a step was in use before, by the same object. -/
theorem NodesInv.same_object (hi : NodesInv s) (ha : s.dead (s.threads t).pid = false)
    (ht : tick o s.toShared (s.threads t).pid (s.threads t).calls (s.threads t).pc =
      some (ins, pc'))
    (hn : (s.region.nodes n).registered = true) (ho : (s.region.nodes n).obj = some i)
    (hu' : ((s.after t ins pc').region.slots i).state = .used) :
    (s.region.slots i).state = .used ∧
      ((s.after t ins pc').region.slots i).generation = (s.region.slots i).generation := by
  cases hst : (s.region.slots i).state with
  | used => exact ⟨rfl, (hi.table.slot_after ha ht hst hu').generation⟩
  | free =>
    -- a free slot still has a waiter only while its closer holds the lock, so nobody publishes it
    exfalso
    obtain ⟨u, hlock, hfrees⟩ := hi.wellFormed.freed i n hst hn ho
    by_cases hstores : ins.stores i = false
    · have hsame : SameTable (s.region.slots i) ((s.after t ins pc').region.slots i) :=
        Instr.sameTable t (s.threads t).pid s.toShared hstores
      rw [hsame.state, hst] at hu'
      cases hu'
    · have hguard : ins.guarded = true := by
        by_contra hne
        exact hstores (Instr.stores_of_unguarded (by simpa using hne) i)
      have hua := ((hi.table.lock u).mp hlock).2
      obtain rfl : u = t :=
        hi.table.lock.unique (Pc.locked_of_frees hfrees) hua (tick_locked ht hguard) ha
      obtain ⟨hd, hr⟩ := Instr.apply_slot u (s.threads u).pid s.toShared ins i
      rw [show (s.after u ins pc').region.slots i = _ from hr] at hu'
      cases ins with
      | store j w =>
        obtain rfl : j = i := by simpa [Instr.stores] using hstores
        obtain ⟨v, rfl⟩ := (tick_inv ht).store_freeing hfrees
        simp only [Instr.slotAfter, if_true, SlotWrite.apply] at hu'
        rw [hst] at hu'
        cases hu'
      | reap j =>
        obtain rfl : j = i := by simpa [Instr.stores] using hstores
        simp only [Instr.slotAfter, if_true] at hu'
        cases hu'
      | _ => exact hstores rfl

omit [DecidableEq T] in
/-- The nodes of a wait stand for the same handles after each of its steps. -/
theorem PcGo.same_nodes {sh : Shared T} {pid : U32} {pc : Pc} (hg : PcGo sh pid o pc ins (.wait c p))
    (hk : k < c.nodes.length)
    (hnew : ∀ m r, ins = .allocNode → sh.region.nodeAlloc pid = some (m, r) → c.node k ≠ m) :
    ∃ c₀ p₀, pc = .wait c₀ p₀ ∧ k < c₀.nodes.length ∧ c₀.node k = c.node k ∧
      c₀.target k = c.target k ∧ c₀.handleAt k = c.handleAt k := by
  obtain ⟨c₀, p₀, rfl, hgo, hargs⟩ := hg.of_wait
  have hsame : c₀.target k = c.target k ∧ c₀.handleAt k = c.handleAt k := by
    unfold WaitCtx.target WaitCtx.handleAt
    rw [hargs]
    exact ⟨rfl, rfl⟩
  refine ⟨c₀, p₀, rfl, ?_⟩
  by_cases hal : ins = .allocNode
  · subst hal
    have hpool := hg.pool
    generalize hpc' : Pc.wait c p = pc' at hpool
    generalize hins : Instr.allocNode = ins at hpool
    cases hpool with
    | @alloc _ m r hm =>
      cases hpc'
      -- the new node stands at the end
      have hlt : k < c₀.nodes.length := by
        by_contra hge
        have hlen : (c₀.addNode m).nodes.length = c₀.nodes.length + 1 := by simp [WaitCtx.addNode]
        obtain rfl : k = c₀.nodes.length := by omega
        exact hnew m r rfl hm (by simp [WaitCtx.node, WaitCtx.addNode])
      refine ⟨hlt, ?_, hsame⟩
      simp [WaitCtx.node, WaitCtx.addNode, List.getElem?_append_left hlt]
    | other hl =>
      subst hins
      cases hl
    | _ => cases hins
  · -- all other steps keep the nodes
    have hnodes := hgo.nodes_eq hal
    refine ⟨hnodes ▸ hk, ?_, hsame⟩
    unfold WaitCtx.node
    rw [hnodes]

/-- A step of the wait itself. -/
theorem EntriesInv.itself (he : EntriesInv s) (hi : NodesInv s)
    (hv : Relies Pc.vouches Pc.Vouched s) (ha : s.dead (s.threads t).pid = false)
    (ht : tick o s.toShared (s.threads t).pid (s.threads t).calls (s.threads t).pc =
      some (ins, .wait c p))
    (hk : k < c.nodes.length) (hown : c.node k ∈ p.owned c)
    (hreg : ((s.after t ins (.wait c p)).region.nodes (c.node k)).registered = true)
    (hu : ((s.after t ins (.wait c p)).region.slots (c.target k)).state = .used) :
    ((s.after t ins (.wait c p)).region.slots (c.target k)).generation =
      handleGen (c.handleAt k) := by
  have hg := tick_inv ht
  rcases Instr.registered_now hreg with ⟨hreg₀, hnew⟩ | ⟨i, w, rfl⟩
  · -- registered before: the slot still has the same object
    obtain ⟨c₀, p₀, hpc, hk₀, hnode, htgt, hhnd⟩ := hg.same_nodes hk hnew
    have hown₀ : c₀.node k ∈ p₀.owned c₀ := by
      rcases hg.pool.owned_before (n := c.node k) hown with h | ⟨r, rfl, hal⟩
      · rw [hpc, ← hnode] at h
        exact h
      · exact absurd rfl (hnew _ _ rfl hal)
    rw [← hnode] at hreg₀
    rw [← htgt] at hu ⊢
    rw [← hhnd]
    obtain ⟨hu₀, hgen⟩ := hi.same_object ha ht hreg₀ (hi.entry ha hpc hk₀ hown₀ hreg₀).1 hu
    rw [hgen]
    exact he t c₀ p₀ k ha hpc hk₀ hown₀ hreg₀ hu₀
  · -- the wait vouches for the handle
    obtain ⟨c₀, j, hpc, hj, hlen, hnd, hnode, rfl, rfl, hpc'⟩ := hi.registers_at ha ht
    cases hpc'
    have hkj : k = j := by
      rw [WaitCtx.node, WaitCtx.node, List.getD_eq_getElem _ _ hk,
        List.getD_eq_getElem _ _ (hlen ▸ hj)] at hnode
      exact (List.Nodup.getElem_inj_iff hnd).mp hnode
    subst hkj
    have hvouch : (s.threads t).pc.vouches (c.target k) = true := by
      rw [hpc]
      exact decide_eq_true ⟨k, hj, rfl⟩
    obtain ⟨_, hgood⟩ := hv t _ ha hvouch
    rw [hpc] at hgood
    have hsame : SameTable (s.region.slots (c.target k))
        ((s.after t (.register (c.node k) (c.target k) (c.node 0))
          (.wait c (.pass (c.registerNext k)))).region.slots (c.target k)) :=
      Instr.sameTable t (s.threads t).pid s.toShared rfl
    rw [hsame.generation]
    exact hgood k hj rfl

/-- **The entries stay right**, whatever anybody does. -/
theorem EntriesInv.step (he : EntriesInv s) (hi : NodesInv s)
    (hv : Relies Pc.vouches Pc.Vouched s) (hs : s.step a = some (s', l)) : EntriesInv s' := by
  intro u c p k hua hpc hk hown hreg hu
  cases Sys.step_inv hs with
  | @call t cl ha hout =>
    rw [Sys.entered_dead, Sys.entered_pid] at hua
    rw [Sys.entered_pc] at hpc
    split at hpc
    · rw [Pc.start_nodes hpc] at hk
      cases hk
    · exact he u c p k hua hpc hk hown hreg hu
  | @tick t o ins pc' ha ht =>
    rw [Sys.after_dead, Sys.after_pid] at hua
    rw [Sys.after_pc] at hpc
    by_cases hut : u = t
    · subst hut
      rw [if_pos rfl] at hpc
      subst hpc
      exact he.itself hi hv ha ht hk hown hreg hu
    · -- others take nodes off, and reuse no slot that has one
      rw [if_neg hut] at hpc
      have hmem : c.node k ∈ (s.threads u).pc.waitNodes := by
        rw [hpc]
        exact hown
      have hreg₀ := ((hi.others ha ht hut hua hmem).back hreg).1
      obtain ⟨hu₀, hgen⟩ := hi.same_object ha ht hreg₀ (hi.entry hua hpc hk hown hreg₀).1 hu
      rw [hgen]
      exact he u c p k hua hpc hk hown hreg₀ hu₀
  | die =>
    rw [Sys.died_dead, Sys.died_threads, Bool.or_eq_false_iff] at hua
    exact he u c p k hua.2 hpc hk hown hreg hu

/-- What a run keeps in which nobody dies with a close or a bump half done. -/
structure EntryInv (s : Sys T) : Prop where
  nodes : NodesInv s
  counts : CountInv nodeCount s
  vouched : Relies Pc.vouches Pc.Vouched s
  entries : EntriesInv s

omit [DecidableEq T] in
/-- The invariant holds of a fresh region. -/
theorem EntryInv.of_init {pid : T → U32} (hpid : ∀ t, pid t ≠ 0) :
    EntryInv (Sys.rest Region.init pid) :=
  have hidle : (Sys.rest Region.init pid).Idle := fun _ => rfl
  ⟨.of_init hpid, .of_idle hidle, .of_idle tracks_vouches hidle, .of_idle hidle⟩

/-- **Every step keeps the entries current**, if nobody dies with a close or a bump half done. -/
theorem EntryInv.step (hi : EntryInv s) (hs : s.step a = some (s', l)) (hd : ClosesWhole s l) :
    EntryInv s' :=
  ⟨hi.nodes.step hs hd.clean,
    hi.counts.step hi.nodes hs hd fun _ c _ _ _ _ _ => c.strays_le _,
    tracks_vouches.step_relies hi.nodes.table hi.vouched hs (spares_vouches s l),
    hi.entries.step hi.nodes hi.vouched hs⟩

omit [DecidableEq T] in
/-- Whenever the region lock is free, a registered node of a live wait stands for a handle that
    resolves. -/
theorem EntryInv.resolves (hi : EntryInv s) (hlock : s.lock = none)
    (ha : s.dead (s.threads t).pid = false) (hpc : (s.threads t).pc = .wait c p)
    (hk : k < c.nodes.length) (hown : c.node k ∈ p.owned c)
    (hreg : (s.region.nodes (c.node k)).registered = true) :
    s.region.slot (c.handleAt k) = some (c.target k) := by
  have hobj := (hi.nodes.entry ha hpc hk hown hreg).1
  have hused : (s.region.slots (c.target k)).state = .used := by
    cases hst : (s.region.slots (c.target k)).state with
    | used => rfl
    | free =>
      -- a closed slot is emptied before the lock is released
      obtain ⟨u, hu, _⟩ := hi.nodes.wellFormed.freed _ _ hst hreg hobj
      rw [hlock] at hu
      cases hu
  exact Region.slot_eq_some.mpr ⟨c.target_eq k, hused, hi.entries t c p k ha hpc hk hown hreg hused⟩

omit [DecidableEq T] in
/-- **Nobody sleeps on a closed handle.** Whenever the region lock is free, each handle and the
    alert of a live wait whose futex word is still the value it goes to sleep on resolves. -/
theorem EntryInv.no_stale_sleeper (hi : EntryInv s) (hlock : s.lock = none)
    (ha : s.dead (s.threads t).pid = false) (hpc : (s.threads t).pc = .wait c p) {seq : U32}
    (hs : p.sampled? = some seq) (hseq : (s.region.nodes (c.node 0)).seq = seq)
    (hk : k < c.nNodes) : s.region.slot (c.handleAt k) = some (c.target k) := by
  -- a walk needs the lock
  have hb : ¬ s.Bumping (c.node 0) := by
    rintro ⟨u, hua, hu⟩
    obtain ⟨i, next, hw⟩ := Pc.walk_of_bumps hu
    have hheld := (hi.nodes.table.lock u).mpr ⟨Pc.locked_of_walk hw, hua⟩
    rw [hlock] at hheld
    cases hheld
  obtain ⟨_, _, _, hlen⟩ := hi.nodes.sleeper ha hpc hs
  have hkn : k < c.nodes.length := hlen ▸ hk
  have hmem : c.node k ∈ c.nodes := WaitCtx.node_mem hkn
  have hreg := hi.counts.all_registered (by decide) hi.nodes ha hpc hs hseq hb hmem
  exact hi.resolves hlock ha hpc hkn (by rw [WaitPc.owned_sampled hs]; exact hmem) hreg

end Entries

end Ntsync
