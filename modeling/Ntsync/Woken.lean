import Mathlib
import Ntsync.Wakeups

namespace Ntsync

open Words Lts

/-!
# Where a wake-up comes from

Each node of a wait stands for one object, and all of them name one futex word.  While the wait sleeps,
other threads take its nodes off their lists and bump the word, once for each node.

* `WokenIn` — a walk over the wait's own object has detached the node while the wait slept;
* `LiveInv.walk_of_missing` — nobody else detaches a node of a sleeper;
* `futex_word_exact` — the word of a sleeper, and where its wake-ups come from.
-/

variable {T : Type}

section Woken

variable [DecidableEq T] {s s' : Sys T} {a : Action T} {l : Label T} {t u : T} {o : Oracle}
  {ins : Instr} {pc' : Pc} {c : WaitCtx} {p : WaitPc} {seq : U32}

/-- While the wait `c` of thread `t` slept on the sample `seq`, a walk over the object of its node
    `k` has detached the node. -/
def WokenIn (h : List (Trans (Sys T) (Label T))) (t : T) (c : WaitCtx) (seq : U32) (k : Nat) : Prop :=
  ∃ x ∈ h, ∃ u q, x.label = .instr u (x.before.threads u).pid (.detach (c.node k)) ∧
    (x.before.threads u).pc.walk? = some (c.target k, .node (some (c.node k))) ∧
    (x.before.threads t).pc = .wait c q ∧ q.sampled? = some seq

/-- Every node that a sleeper is missing has been detached by a walk over its object. -/
def WokenInv (h : List (Trans (Sys T) (Label T))) (s : Sys T) : Prop :=
  ∀ t c p seq k, (s.threads t).pc = .wait c p → p.sampled? = some seq → k < c.nodes.length →
    (s.region.nodes (c.node k)).registered = false → WokenIn h t c seq k

omit [DecidableEq T] in
/-- At rest nobody has been woken. -/
theorem WokenInv.of_idle {s : Sys T} (hidle : s.Idle) : WokenInv [] s := by
  intro t c p seq k hpc
  rcases Pc.outside_cases (hidle t) with h | ⟨_, _, h⟩ <;> rw [h] at hpc <;> cases hpc

omit [DecidableEq T] in
/-- A wake-up stays in the history. -/
theorem WokenIn.cons {h : List (Trans (Sys T) (Label T))} {k : Nat} (x : Trans (Sys T) (Label T))
    (hw : WokenIn h t c seq k) : WokenIn (x :: h) t c seq k := by
  obtain ⟨y, hy, rest⟩ := hw
  exact ⟨y, List.mem_cons_of_mem _ hy, rest⟩

/-- A sleeper's node goes off its list only in a walk over the node's object. -/
theorem LiveInv.walk_of_missing (hi : LiveInv s) {k : Nat}
    (ht : tick o s.toShared (s.threads t).pid (s.threads t).calls (s.threads t).pc =
      some (ins, pc'))
    (hpc : (s.threads u).pc = .wait c p) (hs : p.sampled? = some seq)
    (hk : k < c.nodes.length) (hreg : (s.region.nodes (c.node k)).registered = true)
    (hreg' : ((s.after t ins pc').region.nodes (c.node k)).registered = false) :
    ins = .detach (c.node k) ∧
      (s.threads t).pc.walk? = some (c.target k, .node (some (c.node k))) := by
  obtain ⟨L, F, U, hp⟩ := hi.nodes.pool
  have hwait := (hi.sleeper hpc hs).1
  have hmem : c.node k ∈ c.nodes := WaitCtx.node_mem hk
  have hnu : c.node k ∈ (s.threads u).pc.owned := List.mem_append_left _ (hwait ▸ hmem)
  have hins : ins = .detach (c.node k) := by
    -- no other instruction takes a node off its list, and nobody can allocate a node that is owned
    by_contra hne
    have hkept : ((ins.apply t (s.threads t).pid s.toShared).region.nodes
        (c.node k)).registered = true :=
      Instr.registered_kept hne
        (fun m r _ hal hnm => by
          obtain ⟨F', _, hal'⟩ := hp.lists.alloc hal
          exact hp.unowned hal' (hi.alive _) (hnm ▸ hnu)) hreg
    rw [show (s.after t ins pc').region = (ins.apply t (s.threads t).pid s.toShared).region from rfl,
      hkept] at hreg'
    cases hreg'
  -- it is a walk over the list the node is on
  subst hins
  refine ⟨rfl, ?_⟩
  obtain ⟨i, hw⟩ := hi.nodes.detaches_sleeper (hi.alive _) ht (hi.alive _) hpc hs hmem
  have hobj := (hp.walk_head (hi.alive _) hw).2.2
  have hown : c.node k ∈ p.owned c := by
    rw [WaitPc.owned_sampled hs]
    exact hmem
  rw [(hi.entry hpc hk hown hreg).1] at hobj
  cases hobj
  exact hw

/-- **Every live step keeps the wake-ups on record.** -/
theorem WokenInv.step {h : List (Trans (Sys T) (Label T))} (hw : WokenInv h s) (hi : LiveInv s)
    (hs : s.step a = some (s', l)) (hq : l.live = true) : WokenInv (⟨s, l, s'⟩ :: h) s' := by
  have hi' := hi.step hs hq
  intro u c p seq k hpc hsam hk hreg
  cases Sys.step_inv hs with
  -- a call begins awake
  | @call t cl ha hout =>
    rw [Sys.entered_pc] at hpc
    split at hpc
    · exfalso
      cases cl with
      | wait a timeout =>
        simp only [Pc.start] at hpc
        split at hpc <;> cases hpc
        cases hsam
      | pulse | sweepDead => cases hpc
      | _ =>
        simp only [Pc.start] at hpc
        split at hpc <;> cases hpc
    · exact (hw u c p seq k hpc hsam hk hreg).cons _
  | @tick t o ins pc' ha ht =>
    rw [Sys.after_pc] at hpc
    by_cases hut : u = t
    · subst hut
      rw [if_pos rfl] at hpc
      subst hpc
      have hcalm' := hi'.calm u
      rw [Sys.after_pc, if_pos rfl] at hcalm'
      obtain ⟨c₀, p₀, hpc, hg, _⟩ := (tick_inv ht).of_wait
      have hcalm := hi.calm u
      rw [hpc] at hcalm
      obtain ⟨rfl, hnodes, hcase⟩ := hg.sampled hsam
      rw [show (s.after u ins (.wait c p)).region.nodes = s.region.nodes from
        hnodes hcalm hcalm' u] at hreg
      rcases hcase with hs₀ | ⟨rfl, _⟩
      · exact (hw u c p₀ seq k hpc hs₀ hk hreg).cons _
      · -- the sample is taken with all nodes registered
        obtain ⟨L, F, U, hp⟩ := hi.nodes.pool
        obtain ⟨hlen, hto⟩ := (hp.knows u (hi.alive _)).nodes c _ hpc
        rw [hto k (hlen ▸ hk)] at hreg
        cases hreg
    · -- a node that was missing before, or goes missing now
      rw [if_neg hut] at hpc
      cases hreg₀ : (s.region.nodes (c.node k)).registered with
      | false => exact (hw u c p seq k hpc hsam hk hreg₀).cons _
      | true =>
        obtain ⟨rfl, hwalk⟩ := hi.walk_of_missing ht hpc hsam hk hreg₀ hreg
        exact ⟨_, List.mem_cons_self .., t, p, rfl, hwalk, hpc, hsam⟩
  | die => cases hq

/-- **The futex word of a sleeper counts its wake-ups, and they are its own.** In every run in which
    nobody dies and nothing is reaped: between its sample and its next pass the word of a wait is
    the sample and one more for each of its nodes that is off its list, less one while a walk is
    between the detach and the bump.  Such a node was detached by a walk over its own object while
    the wait slept; and once no bump is due the word is unchanged iff no node is missing. -/
theorem futex_word_exact {pid : T → U32} (hpid : ∀ t, pid t ≠ 0)
    {h : List (Trans (Sys T) (Label T))}
    (hr : Run (traced Sys.step) (fun _ x _ => x.label.live = true) (Sys.rest Region.init pid) h s)
    (hpc : (s.threads t).pc = .wait c p) (hs : p.sampled? = some seq) :
    Counts s c seq 0 ∧
      (∀ k < c.nodes.length, (s.region.nodes (c.node k)).registered = false →
        WokenIn h t c seq k) ∧
      (¬ s.Bumping (c.node 0) → ((s.region.nodes (c.node 0)).seq = seq ↔
        ∀ n ∈ c.nodes, (s.region.nodes n).registered = true)) := by
  have hidle : (Sys.rest Region.init pid).Idle := fun _ => rfl
  have hinv : LiveInv s ∧ CountInv 0 s ∧ WokenInv h s := by
    refine hr.invariant (I := fun h s => LiveInv s ∧ CountInv 0 s ∧ WokenInv h s)
      ⟨.of_init hpid, .of_idle hidle, .of_idle hidle⟩ ?_
    rintro h s a s' x ⟨hi, hcnt, hw⟩ hst hl
    obtain ⟨l, hs, rfl⟩ := traced_eq_some.mp hst
    exact ⟨hi.step hs hl, hcnt.live_step hi hs hl, hw.step hi hs hl⟩
  obtain ⟨hi, hcnt, hw⟩ := hinv
  refine ⟨hcnt.live hi hpc hs, fun k hk => hw t c p seq k hpc hs hk, fun hb => ⟨fun hseq n hn =>
    hcnt.live_registered hi hpc hs hseq hb hn, fun hall => ?_⟩⟩
  -- with all nodes registered there is nothing to count
  have hzero : c.woken s.region = 0 := by
    refine List.countP_eq_zero.mpr fun n hn => ?_
    rw [hall n hn]
    decide
  rw [(hcnt.live hi hpc hs).settled hb, hzero]
  exact BitVec.add_zero _

end Woken

/-- Thread 0 sleeps on an event, with an alert; thread 1 sets the event and has woken thread 0. -/
def setAwake : List (Action (Fin 2)) :=
  .call 0 (.create (.event false false)) :: List.replicate 18 (.tick 0 {}) ++
  .call 0 (.create (.event false false)) :: List.replicate 18 (.tick 0 {}) ++
  .call 0 (.wait ⟨[1], 5, false, 2⟩ .never) :: List.replicate 30 (.tick 0 {}) ++
  .call 1 (.op 1 .eventSet) :: List.replicate 10 (.tick 1 {})

/-- A set event wakes a wait that has not parked yet. -/
theorem futex_word_exact_setAwake :
    ∃ h s c seq, Run (traced Sys.step) (fun _ x _ => x.label.live = true)
        (Sys.rest Region.init twoWaitersPid) h s ∧
      (s.threads 0).pc = .wait c (.sleep seq .parked) ∧ c.woken s.region = 1 ∧
      Counts s c seq 0 ∧
      (∀ k < c.nodes.length, (s.region.nodes (c.node k)).registered = false →
        WokenIn h 0 c seq k) ∧
      (¬ s.Bumping (c.node 0) → ((s.region.nodes (c.node 0)).seq = seq ↔
        ∀ n ∈ c.nodes, (s.region.nodes n).registered = true)) := by
  obtain ⟨h, s, hr, hsleep⟩ := exists_run_of_exec (traced Sys.step)
    (fun _ x _ => x.label.live = true) (Sys.rest Region.init twoWaitersPid)
    (P := fun s => ((s.threads 0).pc.parked?.any fun x => decide (x.1.woken s.region = 1)) = true)
    setAwake (by decide +kernel)
  obtain ⟨x, hx, hwoken⟩ := (Option.any_eq_true _ _).mp hsleep
  have hpc := Pc.eq_of_parked hx
  exact ⟨h, s, x.1, x.2, hr, hpc, of_decide_eq_true hwoken, futex_word_exact (by decide) hr hpc rfl⟩

end Ntsync
