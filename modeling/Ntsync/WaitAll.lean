import Mathlib
import Ntsync.Wakeups

namespace Ntsync

open Words Lts

/-!
# No signal is lost to a sleeping wait-all

A wait-all goes to sleep after one of its objects turned it away.  It has given back what it had
acquired by then, and it may acquire and give back again while it spins.

* `WaitPc.fell` — the wait has been turned away, or sleeps; `WaitPc.held` — what it holds for the
  moment;
* `WaitGo.fell` — how a wait-all comes there: at some position the object could not be acquired;
* `Label.strands` — another wait-all gives back what a wait has found taken, and nobody tells the
  wait;
* `HeardAllInv` — as long as the node of that position is registered and the wait could acquire the
  object after all, or holds it, a signal on the object is under way;
* `no_lost_wakeup_either` — so neither kind of wait sleeps on what it could acquire once the signals
  are done, unless a rollback strands it.
-/

variable {T : Type}

/-! ### Being turned away -/

namespace WaitPc

/-- The locked pass has failed to acquire the objects, or the wait sleeps. -/
def fell : WaitPc → Bool
  | .pass (.sat (.undo _ _)) | .pass .sample => true
  | p => p.sampled?.isSome

/-- The wait has all of its nodes and checks its objects, or has checked them. -/
def checks : WaitPc → Bool
  | .pass (.sat _) | .pass .sample => true
  | p => p.sampled?.isSome

/-- The positions that the wait holds for the moment. -/
def held (p : WaitPc) : List Nat :=
  match p.sat? with
  | some q => q.held.map Prod.fst
  | none => []

/-- The position at which a wait-all in the locked pass is about to look at the pulse counter. -/
def pulseAt? : WaitPc → Option Nat
  | .pass (.sat (.all j _ _ .pulse)) => some j
  | _ => none

end WaitPc

section Checks

variable {c : WaitCtx} {p : WaitPc} {seq : U32} {j : Nat}

/-- A wait that has sampled its futex word has checked its objects. -/
theorem WaitPc.checks_of_sampled (h : p.sampled? = some seq) : p.checks = true := by
  cases p with
  | pass q => cases q <;> first | rfl | cases h
  | fast | detach | clean => cases h
  | _ => rfl

/-- It has fallen through its check. -/
theorem WaitPc.fell_of_sampled (h : p.sampled? = some seq) : p.fell = true := by
  cases p with
  | pass q => cases q <;> first | rfl | cases h
  | fast | detach | clean => cases h
  | _ => rfl

/-- Who has fallen through the check has checked. -/
theorem WaitPc.checks_of_fell (h : p.fell = true) : p.checks = true := by
  unfold WaitPc.fell at h
  split at h
  · rfl
  · rfl
  · obtain ⟨seq, hs⟩ := Option.isSome_iff_exists.mp h
    exact WaitPc.checks_of_sampled hs

/-- Where a wait-all accepts a pulse. -/
theorem WaitPc.eq_of_pulseAt (h : p.pulseAt? = some j) :
    ∃ acquired od, p = .pass (.sat (.all j acquired od .pulse)) := by
  unfold WaitPc.pulseAt? at h
  split at h <;> cases h
  exact ⟨_, _, rfl⟩

/-- Only a wait that checks can miss a signal. -/
theorem WaitPc.checks_of_missed {k : Nat} {x : Slot} (h : p.missed c k x = true) :
    p.checks = true := by
  unfold WaitPc.missed at h
  split at h
  · rfl
  · rfl
  · rw [Bool.and_eq_true] at h
    obtain ⟨seq, hs⟩ := Option.isSome_iff_exists.mp h.1
    exact WaitPc.checks_of_sampled hs

/-- A wait that checks owns all of its nodes. -/
theorem WaitPc.checks_nodes {r : Region} (h : p.checks = true) (hok : p.NodesOk r c) :
    p.owned c = c.nodes ∧ c.nodes.length = c.nNodes := by
  cases p with
  | pass q =>
    cases q with
    | sat | sample | unlock => exact ⟨rfl, hok.1⟩
    | _ => cases h
  | fast | detach | clean => cases h
  | _ => exact ⟨rfl, hok⟩

/-- A call starts before its check. -/
theorem Pc.start_checks {cl : Call} (h : Pc.start cl = .wait c p) : p.checks = false := by
  cases cl with
  | wait a timeout =>
    simp only [Pc.start] at h
    split at h <;> cases h
    rfl
  | pulse | sweepDead => cases h
  | _ =>
    simp only [Pc.start] at h
    split at h <;> cases h

end Checks

/-! ### How a wait-all comes to be turned away -/

section Steps

variable {o : Oracle} {sh : Shared T} {pid : U32} {ins : Instr} {c c' : WaitCtx} {p p' : WaitPc}
  {j k : Nat} {r : Region} {a : WaitArgs} {seqs : Nat → U64} {q q' : Sat} {w : Option SatWrite}

/-- What an attempt holds it held before, or could acquire. -/
theorem SatStep.held (h : SatStep r a seqs q w (.more q')) (hall : a.all = true) (hs : q.Shape a)
    (hf : ∀ i, q.Fits a i (r.slots i).objType) (hk : k ∈ q'.held.map Prod.fst) :
    k ∈ q.held.map Prod.fst ∨ isLocked (r.slots (a.slotOf k)) a.owner (seqs k) = true := by
  cases h with
  | anyMore | anyNext => cases hall.symm.trans hs.2
  | @allTake j acquired od b x _ htake =>
    have hk' : k ∈ (acquired ++ [(j, b)]).map Prod.fst := hk
    rw [List.map_append, List.mem_append] at hk'
    rcases hk' with hk' | hk'
    · exact .inl hk'
    · obtain rfl : k = j := by simpa using hk'
      exact .inr (Acq.step_take (hf _ rfl) htake).locked
  | allMore | allUndo | undoMore => exact .inl hk
  | undoNext => exact .inl (List.mem_cons_of_mem _ hk)

/-- What a wait holds is what its attempt holds. -/
theorem WaitPc.held_of_sat (h : p.sat? = some q) : p.held = q.held.map Prod.fst := by
  unfold WaitPc.held
  rw [h]

/-- Who holds something is in an attempt. -/
theorem WaitPc.sat_of_held (h : k ∈ p.held) : ∃ q, p.sat? = some q := by
  unfold WaitPc.held at h
  split at h
  · exact ⟨_, by assumption⟩
  · cases h

/-- What a wait-all holds it held before, or could acquire. -/
theorem WaitGo.held (hg : WaitGo o sh pid c p ins (.wait c' p')) (hall : c.all = true)
    (hshape : (Pc.wait c p).Shape)
    (hfits : ∀ q, p.sat? = some q → ∀ i, q.Fits c.toWaitArgs i (sh.region.slots i).objType)
    (hk : k ∈ p'.held) :
    k ∈ p.held ∨ isLocked (sh.region.slots (c.slotOf k)) c.owner (c.seqs k) = true := by
  obtain ⟨q', hq'⟩ := WaitPc.sat_of_held hk
  rw [WaitPc.held_of_sat hq'] at hk
  have hsat' : (Pc.wait c' p').sat? = some (c', q') := by simp [Pc.sat?, hq']
  -- inside an attempt, or before one
  cases hsat : p.sat? with
  | some q =>
    obtain ⟨w, out, hst, _, _, hfol⟩ := hg.sat hsat
    rw [WaitPc.held_of_sat hsat]
    cases out with
    | more q₁ =>
      rw [show (Pc.wait c' p').sat? = some (c, q₁) from hfol] at hsat'
      cases hsat'
      exact hst.held hall (hshape.2 q hsat) (hfits q hsat) hk
    | done res =>
      have hnone : (Pc.wait c' p').sat? = none := by
        cases res with
        | none => exact hfol.1
        | some x => exact hfol.1
      rw [hnone] at hsat'
      cases hsat'
  | none =>
    rcases (hg.plain hsat).sat with hnone | ⟨c₁, hst, _⟩
    · rw [hnone] at hsat'
      cases hsat'
    · -- a new attempt holds nothing
      rw [hst] at hsat'
      cases hsat'
      rw [Sat.start, hall] at hk
      cases hk

/-- An object that turns a wait-all away could not be acquired, unless it was an event that somebody
    has set since the attempt read it. -/
def TurnedAway (r : Region) (c : WaitCtx) (p p' : WaitPc) : Prop :=
  ∃ j < c.handles.length, (∀ k ∈ p'.held, k < j) ∧
    (isLocked (r.slots (c.slotOf j)) c.owner (c.seqs j) = false ∨
      p.pulseAt? = some j ∧ (r.slots (c.slotOf j)).d = c.seqs j)

/-- An attempt of a wait-all that fails is turned away by an object that cannot be acquired. -/
theorem turnedAway_of_fail {acquired : List (Nat × Bool)} {od : Bool} {x : Acq} {v : Option U64}
    (h : x.step (r.slots (c.slotOf j)) c.owner (c.seqs j) = (v, .done none))
    (hs : (Sat.all j acquired od x).Shape c.toWaitArgs)
    (hf : x.fits (r.slots (c.slotOf j)).objType)
    (hheld : ∀ m ∈ p'.held, m ∈ acquired.map Prod.fst) :
    TurnedAway r c (.pass (.sat (.all j acquired od x))) p' := by
  refine ⟨j, hs.1, fun k hk => ?_, ?_⟩
  · have hmem := hheld k hk
    rw [hs.2.2.1, List.mem_range] at hmem
    exact hmem
  · obtain ⟨_, ⟨rfl, hd⟩ | hno⟩ := Acq.step_fail hf h
    · exact .inr ⟨rfl, hd⟩
    · exact .inl hno

/-- The wait is not turned away, and not about to look at a pulse counter. -/
def WaitPc.Fresh (p : WaitPc) : Prop := p.fell = false ∧ p.pulseAt? = none

/-- Registering goes on to a fresh check. -/
theorem WaitCtx.registerNext_fresh (c : WaitCtx) (i : Nat) :
    (WaitPc.pass (c.registerNext i)).Fresh := by
  unfold WaitCtx.registerNext Sat.start
  split
  · exact ⟨rfl, rfl⟩
  · split <;> exact ⟨rfl, rfl⟩

/-- So does the allocation of the nodes. -/
theorem WaitCtx.allocNext_fresh (c : WaitCtx) : (WaitPc.pass c.allocNext).Fresh := by
  unfold WaitCtx.allocNext
  split <;> exact ⟨rfl, rfl⟩

/-- So does the alert test. -/
theorem WaitCtx.afterAlert_fresh (c : WaitCtx) : c.afterAlert.Fresh := by
  unfold WaitCtx.afterAlert
  split <;> exact ⟨rfl, rfl⟩

/-- So does the validation. -/
theorem WaitCtx.validateNext_fresh (c : WaitCtx) (i : Nat) : (c.validateNext i).Fresh := by
  unfold WaitCtx.validateNext
  split
  · exact ⟨rfl, rfl⟩
  · split
    · exact ⟨rfl, rfl⟩
    · exact c.afterAlert_fresh

/-- **How a wait-all is turned away.** It was before, or its attempt has just failed. -/
theorem WaitGo.fell (hg : WaitGo o sh pid c p ins (.wait c' p')) (hc : (Pc.wait c p).Calm)
    (hc' : (Pc.wait c' p').Calm) (hall : c.all = true) (hshape : (Pc.wait c p).Shape)
    (hfits : ∀ q, p.sat? = some q → ∀ i, q.Fits c.toWaitArgs i (sh.region.slots i).objType)
    (hf : p'.fell = true) :
    c' = c ∧ (∀ t : T, (ins.apply t pid sh).region.nodes = sh.region.nodes) ∧
      (p.fell = true ∨ ins = .silent ∧ TurnedAway sh.region c p p') := by
  cases hseq : p'.sampled? with
  | some seq =>
    obtain ⟨rfl, hkeep, hcase⟩ := hg.sampled hseq
    have hnodes := hkeep hc hc'
    refine ⟨rfl, hnodes, .inl ?_⟩
    rcases hcase with hs | ⟨rfl, _⟩
    · exact WaitPc.fell_of_sampled hs
    · rfl
  | none =>
    -- the attempt in the locked pass, or the step after it
    have haside : p'.aside = false := by
      unfold WaitPc.fell at hf
      split at hf
      · rfl
      · rfl
      · rw [hseq] at hf
        cases hf
    obtain ⟨x, rfl, hgo⟩ := hg.passing hseq haside
    generalize hpc : Pc.wait c' p' = pc' at hgo
    cases hgo with
    | @sat q q' w hst =>
      cases hpc
      refine ⟨rfl, satInstr_nodes _ _, ?_⟩
      have hsh := hshape.2 q rfl
      cases hst with
      | @allUndo j acquired od x v h hne =>
        exact .inr ⟨rfl, turnedAway_of_fail h hsh (hfits _ rfl _ rfl) (fun m hm => hm)⟩
      | undoMore | undoNext => exact .inl rfl
      | _ => cases hf
    | @fail q w hst =>
      cases hpc
      refine ⟨rfl, satInstr_nodes _ _, ?_⟩
      have hsh := hshape.2 q rfl
      cases hst with
      | anyFail => cases hall.symm.trans hsh.2
      | @allFail j od x v h =>
        exact .inr ⟨rfl, turnedAway_of_fail h hsh (hfits _ rfl _ rfl) (fun m hm => by cases hm)⟩
      | undoNil | undoLast => exact .inl rfl
    | validateFirst | validate =>
      cases hpc
      rw [(WaitCtx.validateNext_fresh _ _).1] at hf
      cases hf
    | alertClear =>
      cases hpc
      rw [(WaitCtx.afterAlert_fresh _).1] at hf
      cases hf
    | alloc =>
      cases hpc
      rw [(WaitCtx.allocNext_fresh _).1] at hf
      cases hf
    | registerSkip | register =>
      cases hpc
      rw [(WaitCtx.registerNext_fresh _ _).1] at hf
      cases hf
    | sample | unlock =>
      cases hpc
      cases hseq
    | alertPanic => cases hpc
    | _ =>
      cases hpc
      cases hf

/-- The word of an event was clear when a wait-all came to its pulse counter. -/
theorem WaitGo.pulseAt (hg : WaitGo o sh pid c p ins (.wait c' p'))
    (hfits : ∀ q, p.sat? = some q → ∀ i, q.Fits c.toWaitArgs i (sh.region.slots i).objType)
    (hj : p'.pulseAt? = some j) :
    c' = c ∧ ins = .silent ∧
      isLocked (sh.region.slots (c.slotOf j)) c.owner (sh.region.slots (c.slotOf j)).d = false := by
  have hpass : p'.sampled? = none ∧ p'.aside = false := by
    obtain ⟨acquired, od, rfl⟩ := WaitPc.eq_of_pulseAt hj
    exact ⟨rfl, rfl⟩
  obtain ⟨x, rfl, hgo⟩ := hg.passing hpass.1 hpass.2
  generalize hpc : Pc.wait c' p' = pc' at hgo
  cases hgo with
  | @sat q q' w hst =>
    cases hpc
    cases hst with
    | allMore h =>
      unfold WaitPc.pulseAt? at hj
      split at hj <;> cases hj
      rename_i he
      cases he
      exact ⟨rfl, rfl, Acq.pulse_clear (hfits _ rfl _ rfl) h⟩
    | _ => cases hj
  | validateFirst | validate =>
    cases hpc
    rw [(WaitCtx.validateNext_fresh _ _).2] at hj
    cases hj
  | alertClear =>
    cases hpc
    rw [(WaitCtx.afterAlert_fresh _).2] at hj
    cases hj
  | alloc =>
    cases hpc
    rw [(WaitCtx.allocNext_fresh _).2] at hj
    cases hj
  | registerSkip | register =>
    cases hpc
    rw [(WaitCtx.registerNext_fresh _ _).2] at hj
    cases hj
  | alertPanic => cases hpc
  | _ =>
    cases hpc
    cases hj

/-- A rollback gives a held object back. -/
theorem PcGo.rollback {pc' : Pc} {h z : U32} {i : Nat} {new : U64}
    (hg : PcGo sh pid o (.wait c p) (.word h i (.rollback z) new) pc') (hshape : (Pc.wait c p).Shape) :
    c.all = true ∧ ∃ m ∈ p.held, m < c.handles.length ∧ c.slotOf m = i ∧
      ∃ q, (Pc.wait c p).sat? = some (c, q) := by
  rcases hg.word with ⟨_, _, _, _, hpc, _⟩ | ⟨_, _, hpc, _⟩ | ⟨c₀, p₀, q, hpc, hsat⟩
  · cases hpc
  · cases hpc
  · cases hpc
    have hq : (Pc.wait c p).sat? = some (c, q) := by simp [Pc.sat?, hsat]
    obtain ⟨w, out, hst, hins, _⟩ := hg.sat hq
    obtain ⟨m, rfl, _, hi, _⟩ := satInstr_rollback hins.symm
    obtain ⟨b, rest, u, rfl, _⟩ := hst.rollback
    have hsh := hshape.2 _ hsat
    refine ⟨hsh.1, m, ?_, hsh.2.2 _ List.mem_cons_self, hi.symm, _, hq⟩
    rw [WaitPc.held_of_sat hsat]
    exact List.mem_cons_self

end Steps

/-! ### Signals under way -/

/-- The wait has checked the object in slot `i` in vain, its node there is registered, and region `r`
    could satisfy it: a wait-any by this object, a wait-all by all of them, some of which it may hold
    for the moment. -/
def Pc.passedBy (r : Region) (i : Nat) : Pc → Bool
  | .wait c p =>
    decide (∃ k < c.handles.length, c.slotOf k = i ∧ (r.nodes (c.node k)).registered = true ∧
      if c.all = true then
        (p.fell || p.pulseAt?.isSome) = true ∧ ∀ m < c.handles.length, m ∈ p.held ∨
          isLocked (r.slots (c.slotOf m)) c.owner (c.seqs m) = true
      else p.missed c k (r.slots i) = true)
  | _ => false

/-- The wait-all of a thread other than `t` gives an object back that thread `t` has checked in vain,
    and its wait could be satisfied now. -/
def Label.strands [DecidableEq T] (t : T) (s : Sys T) : Label T → Bool
  | .instr u _ (.word _ i (.rollback _) new) =>
    decide (u ≠ t) && (s.threads t).pc.passedBy (s.region.setSlot i fun x => { x with w0 := new }) i
  | _ => false

/-- What holds of the waits of thread `t`.  While the node is registered, a missed signal on an
    object of a wait-any is under way, and so is a signal on an object that turned a wait-all away,
    or turns it away at its next look at a pulse counter, if the wait can acquire it after all. -/
structure HeardAllInv (t : T) (s : Sys T) : Prop where
  missed : ∀ c p k, (s.threads t).pc = .wait c p → c.all = false → k < c.handles.length →
    p.missed c k (s.region.slots (c.slotOf k)) = true →
    (s.region.nodes (c.node k)).registered = true →
    ∃ u, (s.threads u).pc.signals? = some (c.slotOf k)
  pulse : ∀ c p j, (s.threads t).pc = .wait c p → p.pulseAt? = some j → j < c.handles.length →
    ∃ k < c.handles.length, j ≤ k ∧ (isLocked (s.region.slots (c.slotOf k)) c.owner
        (if k = j then (s.region.slots (c.slotOf k)).d else c.seqs k) = true →
      (s.region.nodes (c.node k)).registered = true →
      ∃ u, (s.threads u).pc.signals? = some (c.slotOf k))
  fell : ∀ c p, (s.threads t).pc = .wait c p → c.all = true → p.fell = true →
    ∃ k < c.handles.length, (k ∈ p.held ∨
        isLocked (s.region.slots (c.slotOf k)) c.owner (c.seqs k) = true) →
      (s.region.nodes (c.node k)).registered = true →
      ∃ u, (s.threads u).pc.signals? = some (c.slotOf k)

section Heard

variable [DecidableEq T] {own : U32 → T} {s s' : Sys T} {a : Action T} {l : Label T} {t u : T}
  {o : Oracle} {ins : Instr} {pc' : Pc} {c : WaitCtx} {p : WaitPc} {k : Nat}

omit [DecidableEq T] in
/-- At rest nothing has been missed. -/
theorem HeardAllInv.of_idle (hidle : s.Idle) : HeardAllInv t s := by
  refine ⟨?_, ?_, ?_⟩
  · intro c p k hpc
    rcases Pc.outside_cases (hidle t) with h | ⟨_, _, h⟩ <;> rw [h] at hpc <;> cases hpc
  · intro c p j hpc
    rcases Pc.outside_cases (hidle t) with h | ⟨_, _, h⟩ <;> rw [h] at hpc <;> cases hpc
  · intro c p hpc
    rcases Pc.outside_cases (hidle t) with h | ⟨_, _, h⟩ <;> rw [h] at hpc <;> cases hpc

omit [DecidableEq T] in
/-- The registered node of a wait that checks its objects, or has checked them. -/
theorem LiveInv.checks_node (hi : LiveInv s) (hpc : (s.threads t).pc = .wait c p)
    (hc : p.checks = true) (hk : k < c.handles.length) :
    c.node k ∈ (s.threads t).pc.waitNodes ∧
      ((s.region.nodes (c.node k)).registered = true →
        (s.region.nodes (c.node k)).obj = some (c.slotOf k)) := by
  obtain ⟨L, F, U, hp⟩ := hi.nodes.pool
  obtain ⟨hown, hlen⟩ := WaitPc.checks_nodes hc ((hp.knows t (hi.alive _)).nodes c p hpc)
  have hkn : k < c.nodes.length := by
    unfold WaitCtx.nNodes at hlen
    omega
  have hmem : c.node k ∈ p.owned c := by
    rw [hown]
    exact WaitCtx.node_mem hkn
  refine ⟨by rw [hpc]; exact hmem, fun hreg => ?_⟩
  rw [(hi.entry hpc hkn hmem hreg).1, WaitCtx.target, if_pos hk]

omit [DecidableEq T] in
/-- Only a wait-all looks at a pulse counter on its way. -/
theorem QuietInv.all_of_pulseAt (hi : QuietInv s) {j : Nat} (hpc : (s.threads t).pc = .wait c p)
    (hj : p.pulseAt? = some j) : c.all = true := by
  obtain ⟨acquired, od, rfl⟩ := WaitPc.eq_of_pulseAt hj
  have hshape := hi.nodes.shape t
  rw [hpc] at hshape
  exact (hshape.2 _ rfl).2.1

omit [DecidableEq T] in
/-- A wait-all at position `j` holds all positions before it. -/
theorem QuietInv.le_of_pulseAt (hi : QuietInv s) {j : Nat} (hpc : (s.threads t).pc = .wait c p)
    (hj : p.pulseAt? = some j) (hk : k ∉ p.held) : j ≤ k := by
  obtain ⟨acquired, od, rfl⟩ := WaitPc.eq_of_pulseAt hj
  have hshape := hi.nodes.shape t
  rw [hpc] at hshape
  rw [WaitPc.held_of_sat rfl, Sat.held, (hshape.2 _ rfl).2.2.1, List.mem_range] at hk
  omega

/-- A step of another thread: a signal is under way after it if one was before, or if the step made
    the object easier to acquire. -/
theorem QuietInv.other_signals (hi : QuietInv s) (hforeign : s.Foreign u)
    (ht : tick o s.toShared (s.threads t).pid (s.threads t).calls (s.threads t).pc =
      some (ins, pc'))
    (hq : (Label.instr t (s.threads t).pid ins).quiet = true) (hut : u ≠ t)
    (hpc : (s.threads u).pc = .wait c p) (hc : p.checks = true) (hk : k < c.handles.length)
    (hback : ¬ ∃ h z new, ins = .word h (c.slotOf k) (.rollback z) new)
    (hbefore : NoEasier c.owner (s.region.slots (c.slotOf k))
        ((s.after t ins pc').region.slots (c.slotOf k)) →
      (s.region.nodes (c.node k)).registered = true →
      ∃ v, (s.threads v).pc.signals? = some (c.slotOf k))
    (hreg : ((s.after t ins pc').region.nodes (c.node k)).registered = true) :
    ∃ v, ((s.after t ins pc').threads v).pc.signals? = some (c.slotOf k) := by
  obtain ⟨hmem, hobj⟩ := hi.checks_node hpc hc hk
  have hreg₀ := ((hi.others ht hut hmem).back hreg).1
  have hused := hi.used_of_waiter hreg₀ (hobj hreg₀)
  rcases hi.easier ht hq hused (hforeign c p hpc t hut) with hno | hsig | hins
  · exact hi.signals_after ht hreg₀ (hobj hreg₀) (hbefore hno hreg₀)
  · exact Sys.signals_begun hsig
  · exact absurd hins hback

/-- A rollback that strands nobody: a wait-any has not passed by the object, and some object still
    keeps a wait-all from going on. -/
theorem Sys.not_passedBy {h z : U32} {i : Nat} {new : U64}
    (hstr : (Label.instr t (s.threads t).pid (.word h i (.rollback z) new)).strands u s = false)
    (hut : u ≠ t) (hpc : (s.threads u).pc = .wait c p) (hk : k < c.handles.length)
    (hki : c.slotOf k = i)
    (hreg : ((s.after t (.word h i (.rollback z) new) pc').region.nodes (c.node k)).registered =
      true) :
    (c.all = false →
      p.missed c k ((s.after t (.word h i (.rollback z) new) pc').region.slots i) = false) ∧
    (c.all = true → (p.fell || p.pulseAt?.isSome) = true → ∃ m < c.handles.length, m ∉ p.held ∧
      isLocked ((s.after t (.word h i (.rollback z) new) pc').region.slots (c.slotOf m)) c.owner
        (c.seqs m) = false) := by
  have hno : ¬ (s.threads u).pc.passedBy (s.region.setSlot i fun x => { x with w0 := new }) i =
      true := by
    intro hpass
    rw [Label.strands, hpass, Bool.and_true, decide_eq_false_iff_not] at hstr
    exact hstr (Ne.symm hut)
  rw [hpc, Pc.passedBy, decide_eq_true_eq] at hno
  constructor
  · intro hany
    by_contra hm
    rw [Bool.not_eq_false] at hm
    refine hno ⟨k, hk, hki, hreg, ?_⟩
    rw [if_neg (by rw [hany]; simp)]
    exact hm
  · intro hall hf
    by_contra hcan
    refine hno ⟨k, hk, hki, hreg, ?_⟩
    rw [if_pos hall]
    refine ⟨hf, fun m hm => ?_⟩
    by_contra hnot
    rw [not_or, Bool.not_eq_true] at hnot
    exact hcan ⟨m, hm, hnot⟩

omit [DecidableEq T] in
/-- An object that can be acquired with its own pulse counter as snapshot can be with any. -/
theorem isLocked_of_own {x : Slot} {owner : U32} (h : isLocked x owner x.d = true) (d : U64) :
    isLocked x owner d = true := by
  unfold isLocked at h ⊢
  split at h
  · exact h
  · exact h
  · simp only [ne_eq, not_true, decide_false, Bool.or_false] at h
    rw [h, Bool.true_or]
  · cases h

/-- A step of another thread. -/
theorem HeardAllInv.other (hh : HeardAllInv u s) (hi : QuietInv s) (hforeign : s.Foreign u)
    (ht : tick o s.toShared (s.threads t).pid (s.threads t).calls (s.threads t).pc =
      some (ins, pc'))
    (hq : (Label.instr t (s.threads t).pid ins).quiet = true)
    (hstr : (Label.instr t (s.threads t).pid ins).strands u s = false) (hut : u ≠ t) :
    HeardAllInv u (s.after t ins pc') := by
  refine ⟨?_, ?_, ?_⟩
  · intro c p k hpc hany hk hm hreg
    rw [Sys.after_pc, if_neg hut] at hpc
    refine hi.other_signals hforeign ht hq hut hpc (WaitPc.checks_of_missed hm) hk ?_
      (fun hno hreg₀ => ?_) hreg
    · rintro ⟨h, z, new, rfl⟩
      rw [(Sys.not_passedBy hstr hut hpc hk rfl hreg).1 hany] at hm
      cases hm
    · exact hh.missed c p k hpc hany hk (WaitPc.missed_before hno hm) hreg₀
  · intro c p j hpc hj hlt
    rw [Sys.after_pc, if_neg hut] at hpc
    have hc : p.checks = true := by
      obtain ⟨acquired, od, rfl⟩ := WaitPc.eq_of_pulseAt hj
      rfl
    obtain ⟨k, hk, hjk, hsig⟩ := hh.pulse c p j hpc hj hlt
    by_cases hgive : (∃ h z new, ins = .word h (c.slotOf k) (.rollback z) new) ∧
        ((s.after t ins pc').region.nodes (c.node k)).registered = true
    · -- another object keeps the wait-all from going on
      obtain ⟨⟨h, z, new, rfl⟩, hreg⟩ := hgive
      obtain ⟨m, hm, hheld, hno⟩ := (Sys.not_passedBy hstr hut hpc hk rfl hreg).2
        (hi.all_of_pulseAt hpc hj) (by rw [hj, Option.isSome_some, Bool.or_true])
      refine ⟨m, hm, hi.le_of_pulseAt hpc hj hheld, fun hl => ?_⟩
      have hl' : isLocked ((s.after t (.word h (c.slotOf k) (.rollback z) new) pc').region.slots
          (c.slotOf m)) c.owner (c.seqs m) = true := by
        split at hl
        · exact isLocked_of_own hl _
        · exact hl
      rw [hno] at hl'
      cases hl'
    · refine ⟨k, hk, hjk, fun hl hreg => ?_⟩
      refine hi.other_signals hforeign ht hq hut hpc hc hk (fun hg => hgive ⟨hg, hreg⟩)
        (fun hno hreg₀ => hsig ?_ hreg₀) hreg
      -- only a pulse moves the counter
      rw [hno.d] at hl
      exact hno.locked _ hl
  · intro c p hpc hall hf
    rw [Sys.after_pc, if_neg hut] at hpc
    obtain ⟨k, hk, hsig⟩ := hh.fell c p hpc hall hf
    by_cases hgive : (∃ h z new, ins = .word h (c.slotOf k) (.rollback z) new) ∧
        ((s.after t ins pc').region.nodes (c.node k)).registered = true
    · obtain ⟨⟨h, z, new, rfl⟩, hreg⟩ := hgive
      obtain ⟨m, hm, hheld, hno⟩ := (Sys.not_passedBy hstr hut hpc hk rfl hreg).2 hall
        (by rw [hf, Bool.true_or])
      refine ⟨m, hm, fun hcan => ?_⟩
      rcases hcan with hcan | hcan
      · exact absurd hcan hheld
      · rw [hno] at hcan
        cases hcan
    · refine ⟨k, hk, fun hcan hreg => ?_⟩
      refine hi.other_signals hforeign ht hq hut hpc (WaitPc.checks_of_fell hf) hk
        (fun hg => hgive ⟨hg, hreg⟩) (fun hno hreg₀ => hsig ?_ hreg₀) hreg
      rcases hcan with hheld | hl
      · exact .inl hheld
      · exact .inr (hno.locked _ hl)

omit [DecidableEq T] in
/-- A thread in a wait unlocks no mutex. -/
theorem not_unlocking (hpc : (s.threads t).pc = .wait c p) {owner : U32} :
    ∀ h z q, (s.threads t).pc = .op h (.mutexUnlock z) q → z ≠ owner := by
  intro h z q hop
  rw [hpc] at hop
  cases hop

/-- A step of a wait-any itself misses no signal that was not missed before. -/
theorem HeardAllInv.missed_itself (hh : HeardAllInv t s) (hi : QuietInv s)
    (hi' : QuietInv (s.after t ins (.wait c p)))
    (ht : tick o s.toShared (s.threads t).pid (s.threads t).calls (s.threads t).pc =
      some (ins, .wait c p))
    (hq : (Label.instr t (s.threads t).pid ins).quiet = true) (hany : c.all = false)
    (hk : k < c.handles.length)
    (hm : p.missed c k ((s.after t ins (.wait c p)).region.slots (c.slotOf k)) = true)
    (hreg : ((s.after t ins (.wait c p)).region.nodes (c.node k)).registered = true) :
    ∃ v, ((s.after t ins (.wait c p)).threads v).pc.signals? = some (c.slotOf k) := by
  have hself : ((s.after t ins (.wait c p)).threads t).pc = .wait c p := by
    rw [Sys.after_pc, if_pos rfl]
  have hshape := hi.nodes.shape t
  have hcalm := hi.calm t
  have hcalm' := hi'.calm t
  rw [hself] at hcalm'
  have hgo := tick_inv ht
  -- the node was registered before
  have hr : ∀ i w, ins ≠ .register (c.node k) i w := by
    rintro i w rfl
    rw [hgo.missed_register hany] at hm
    cases hm
  have hkept : Kept (s.region.nodes (c.node k))
      ((s.after t ins (.wait c p)).region.nodes (c.node k)) := by
    rcases Instr.registered_now hreg with ⟨_, hal⟩ | ⟨i, w, he⟩
    · exact Instr.kept hal hr
    · exact absurd he (hr i w)
  obtain ⟨hreg₀, hobj, _⟩ := hkept.back hreg
  have hnode := (hi'.checks_node hself (WaitPc.checks_of_missed hm) hk).2 hreg
  have hused := hi.used_of_waiter hreg₀ (hobj ▸ hnode)
  obtain ⟨c₀, p₀, hpc, hg, hargs⟩ := hgo.of_wait
  rw [hpc] at hshape hcalm
  have hany₀ : c₀.all = false := by rw [← hany, hargs]
  have hslot : c.slotOf k = c₀.slotOf k := by rw [hargs]
  rcases hi.easier ht hq hused (not_unlocking hpc) with hno | hsig | ⟨h, z, new, rfl⟩
  · have hm₀ := WaitPc.missed_before hno hm
    rw [hslot] at hm₀
    obtain ⟨rfl, _, hmiss⟩ := hg.missed hcalm hcalm' hany₀ hshape (hi.fits hpc)
      (by rw [← hargs]; exact hk) hm₀
    exact Sys.signals_kept hpc (hh.missed c p₀ k hpc hany hk hmiss hreg₀)
  · cases hsig
  · -- a wait-any gives nothing back
    rw [hpc] at hgo
    cases hany₀.symm.trans (hgo.rollback hshape).1

omit [DecidableEq T] in
/-- A wait-all that gives back an object it waits for has held it. -/
theorem QuietInv.gives_held (hi : QuietInv s) {h z : U32} {new : U64}
    (ht : tick o s.toShared (s.threads t).pid (s.threads t).calls (s.threads t).pc =
      some (.word h (c.slotOf k) (.rollback z) new, pc'))
    (hpc : (s.threads t).pc = .wait c p) (hk : k < c.handles.length) : k ∈ p.held := by
  have hshape := hi.nodes.shape t
  have hgo := tick_inv ht
  rw [hpc] at hshape hgo
  obtain ⟨_, m, hm, hlt, hslot, q, hsat⟩ := hgo.rollback hshape
  have huses : (s.threads t).pc.uses (c.slotOf k) = true := by
    rw [hpc]
    obtain ⟨q', hq', he⟩ := Option.map_eq_some_iff.mp hsat
    have hto : p.usesTo c.handles.length = c.handles.length := by
      unfold WaitPc.sat? at hq'
      split at hq' <;> first | rfl | cases hq'
    simp only [Pc.uses, hto, decide_eq_true_eq]
    exact ⟨k, hk, rfl⟩
  have hvalid := hi.knows huses
  rw [hpc] at hvalid
  -- two positions with one open slot are one position
  obtain rfl := Pc.Valid.slot_inj hsat hvalid hshape hlt hk hslot rfl
  exact hm

/-- A step of a wait-all itself: the object that turns it away is the one that did before, or the
    one whose attempt fails now. -/
theorem HeardAllInv.fell_itself (hh : HeardAllInv t s) (hi : QuietInv s)
    (hi' : QuietInv (s.after t ins (.wait c p)))
    (ht : tick o s.toShared (s.threads t).pid (s.threads t).calls (s.threads t).pc =
      some (ins, .wait c p))
    (hq : (Label.instr t (s.threads t).pid ins).quiet = true) (hall : c.all = true)
    (hf : p.fell = true) :
    ∃ k < c.handles.length, (k ∈ p.held ∨
        isLocked ((s.after t ins (.wait c p)).region.slots (c.slotOf k)) c.owner (c.seqs k) = true) →
      ((s.after t ins (.wait c p)).region.nodes (c.node k)).registered = true →
      ∃ v, ((s.after t ins (.wait c p)).threads v).pc.signals? = some (c.slotOf k) := by
  have hshape := hi.nodes.shape t
  have hcalm := hi.calm t
  have hcalm' := hi'.calm t
  rw [Sys.after_pc, if_pos rfl] at hcalm'
  obtain ⟨c₀, p₀, hpc, hg, hargs⟩ := (tick_inv ht).of_wait
  rw [hpc] at hshape hcalm
  have hall₀ : c₀.all = true := by rw [← hall, hargs]
  obtain ⟨rfl, hnodes, hcase⟩ := hg.fell hcalm hcalm' hall₀ hshape (hi.fits hpc) hf
  have hkeep : (s.after t ins (.wait c p)).region.nodes = s.region.nodes := hnodes t
  rcases hcase with hf₀ | ⟨rfl, j, hj, hnot, hwhy⟩
  · -- turned away before: the same object does
    obtain ⟨k, hk, hsig⟩ := hh.fell c p₀ hpc hall hf₀
    refine ⟨k, hk, fun hcan hreg => Sys.signals_kept hpc ?_⟩
    rw [hkeep] at hreg
    have hobj := (hi.checks_node hpc (WaitPc.checks_of_fell hf₀) hk).2 hreg
    have hused := hi.used_of_waiter hreg hobj
    rcases hcan with hheld | hl
    · exact hsig (hg.held hall hshape (hi.fits hpc) hheld) hreg
    · rcases hi.easier ht hq hused (not_unlocking hpc) with hno | hsig' | ⟨h, z, new, rfl⟩
      · exact hsig (.inr (hno.locked _ hl)) hreg
      · cases hsig'
      · exact hsig (.inl (hi.gives_held ht hpc hk)) hreg
  · -- the failed attempt has read the object, or its word before its counter
    rcases hwhy with hno | ⟨hat, hd⟩
    · refine ⟨j, hj, fun hcan => ?_⟩
      rcases hcan with hheld | hl
      · exact absurd (hnot j hheld) (Nat.lt_irrefl j)
      · rw [show (s.after t .silent (.wait c p)).region = s.region from rfl, hno] at hl
        cases hl
    · obtain ⟨k, hk, hjk, hsig⟩ := hh.pulse c p₀ j hpc hat hj
      refine ⟨k, hk, fun hcan hreg => Sys.signals_kept hpc ?_⟩
      rw [hkeep] at hreg
      rcases hcan with hheld | hl
      · exact absurd (hnot k hheld) (Nat.not_lt.mpr hjk)
      · refine hsig ?_ hreg
        by_cases hkj : k = j
        · subst hkj
          rw [if_pos rfl, hd]
          exact hl
        · rw [if_neg hkj]
          exact hl

/-- A step of the wait itself. -/
theorem HeardAllInv.itself (hh : HeardAllInv t s) (hi : QuietInv s)
    (hi' : QuietInv (s.after t ins pc'))
    (ht : tick o s.toShared (s.threads t).pid (s.threads t).calls (s.threads t).pc =
      some (ins, pc'))
    (hq : (Label.instr t (s.threads t).pid ins).quiet = true) :
    HeardAllInv t (s.after t ins pc') := by
  have hself : ((s.after t ins pc').threads t).pc = pc' := by rw [Sys.after_pc, if_pos rfl]
  refine ⟨?_, ?_, ?_⟩
  · intro c p k hpc hany hk hm hreg
    rw [hself] at hpc
    subst hpc
    exact hh.missed_itself hi hi' ht hq hany hk hm hreg
  · intro c p j hpc hj hlt
    rw [hself] at hpc
    subst hpc
    -- the word was clear when it was read
    obtain ⟨c₀, p₀, hpc, hg, hargs⟩ := (tick_inv ht).of_wait
    obtain ⟨rfl, rfl, hno⟩ := hg.pulseAt (hi.fits hpc) hj
    refine ⟨j, hlt, le_rfl, fun hl => ?_⟩
    rw [if_pos rfl, show (s.after t .silent (.wait c p)).region = s.region from rfl, hno] at hl
    cases hl
  · intro c p hpc hall hf
    rw [hself] at hpc
    subst hpc
    exact hh.fell_itself hi hi' ht hq hall hf

/-- **Every quiet step keeps the missed signals under way**, if it strands nobody. -/
theorem HeardAllInv.step (hh : HeardAllInv u s) (hi : QuietInv s) (hforeign : s.Foreign u)
    (h : s.step a = some (s', l)) (hq : l.quiet = true) (hl : l.strands u s = false) :
    HeardAllInv u s' := by
  have hi' := hi.step h hq
  cases Sys.step_inv h with
  | @call t cl hal hout =>
    refine ⟨?_, ?_, ?_⟩
    · intro c p k hpc hany hk hm hreg
      rw [Sys.entered_pc] at hpc
      split at hpc
      · rw [Pc.start_missed hpc] at hm
        cases hm
      · exact Sys.signals_entered hout (hh.missed c p k hpc hany hk hm hreg)
    · intro c p j hpc hj hlt
      rw [Sys.entered_pc] at hpc
      split at hpc
      · obtain ⟨acquired, od, rfl⟩ := WaitPc.eq_of_pulseAt hj
        cases Pc.start_checks hpc
      · obtain ⟨k, hk, hjk, hsig⟩ := hh.pulse c p j hpc hj hlt
        exact ⟨k, hk, hjk, fun hcan hreg => Sys.signals_entered hout (hsig hcan hreg)⟩
    · intro c p hpc hall hf
      rw [Sys.entered_pc] at hpc
      split at hpc
      · have hc := WaitPc.checks_of_fell hf
        rw [Pc.start_checks hpc] at hc
        cases hc
      · obtain ⟨k, hk, hsig⟩ := hh.fell c p hpc hall hf
        exact ⟨k, hk, fun hcan hreg => Sys.signals_entered hout (hsig hcan hreg)⟩
  | @tick t o ins pc' hal ht =>
    by_cases hut : u = t
    · subst hut
      exact hh.itself hi hi' ht hq
    · exact hh.other hi hforeign ht hq hl hut
  | die => cases hq

omit [DecidableEq T] in
/-- Who is parked on an unchanged futex word once nobody signals cannot go on. -/
theorem HeardAllInv.parked (hh : HeardAllInv t s) (hi : QuietInv s) (hcnt : CountInv 0 s)
    (hdone : ∀ u i, (s.threads u).pc.signals? ≠ some i) {seq : U32}
    (hpc : (s.threads t).pc = .wait c (.sleep seq .parked))
    (hseq : (s.region.nodes (c.node 0)).seq = seq) :
    (c.all = false → ∀ k < c.handles.length,
      isLocked (s.region.slots (c.slotOf k)) c.owner (c.seqs k) = false) ∧
    (c.all = true → ∃ k < c.handles.length,
      isLocked (s.region.slots (c.slotOf k)) c.owner (c.seqs k) = false) := by
  have hreg : ∀ k < c.handles.length, (s.region.nodes (c.node k)).registered = true := fun k hk =>
    hi.parked_registered hcnt hdone hpc hseq (WaitCtx.lt_nNodes hk)
  constructor
  · intro hany k hk
    by_contra hl
    rw [Bool.not_eq_false] at hl
    obtain ⟨u, hu⟩ := hh.missed c _ k hpc hany hk hl (hreg k hk)
    exact hdone u _ hu
  · intro hall
    obtain ⟨k, hk, hsig⟩ := hh.fell c _ hpc hall rfl
    refine ⟨k, hk, ?_⟩
    by_contra hl
    rw [Bool.not_eq_false] at hl
    obtain ⟨u, hu⟩ := hsig (.inr hl) (hreg k hk)
    exact hdone u _ hu

/-- **No signal is lost to a sleeper, whatever it waits for.** In every run of waits of both kinds
    and of signals, in which nobody closes an object or dies, each owner id belongs to one thread,
    and no rollback strands the wait: once all signals have finished their wake walks, a wait-any
    that is parked on an unchanged futex word could acquire none of its objects, and a wait-all could
    not acquire all of them. -/
theorem no_lost_wakeup_either {pid : T → U32} (hpid : ∀ t, pid t ≠ 0) {h : List (Label T)}
    (hr : Run Sys.step
      (fun s l _ => l.quiet = true ∧ Owners own l ∧ l.strands t s = false)
      (Sys.rest Region.init pid) h s)
    (hdone : ∀ u i, (s.threads u).pc.signals? ≠ some i) {seq : U32}
    (hpc : (s.threads t).pc = .wait c (.sleep seq .parked))
    (hseq : (s.region.nodes (c.node 0)).seq = seq) :
    (c.all = false → ∀ k < c.handles.length,
      isLocked (s.region.slots (c.slotOf k)) c.owner (c.seqs k) = false) ∧
    (c.all = true → ∃ k < c.handles.length,
      isLocked (s.region.slots (c.slotOf k)) c.owner (c.seqs k) = false) := by
  have hidle : (Sys.rest Region.init pid).Idle := fun _ => rfl
  obtain ⟨hi, hcnt, _, hh⟩ : QuietInv s ∧ CountInv 0 s ∧ OwnInv own s ∧ HeardAllInv t s := by
    refine hr.state_invariant (I := fun s => QuietInv s ∧ CountInv 0 s ∧ OwnInv own s ∧ HeardAllInv t s)
      ⟨.of_init hpid, .of_idle hidle, .of_idle hidle, .of_idle hidle⟩ ?_
    rintro s a s' l ⟨hi, hcnt, hown, hh⟩ hs ⟨hq, ho, hl⟩
    exact ⟨hi.step hs hq, hcnt.live_step hi.toLiveInv hs (Label.live_of_quiet hq), hown.step hs ho,
      hh.step hi hown.foreign hs hq hl⟩
  exact hh.parked hi hcnt hdone hpc hseq

end Heard

/-- Thread 0 creates two auto-reset events and waits for both.  When thread 1 sets the second one,
    the wait acquires it, finds the first one clear, gives the second one back and sleeps again. -/
def setOneOfTwo : List (Action (Fin 2)) :=
  .call 0 (.create (.event false false)) :: List.replicate 18 (.tick 0 {}) ++
  .call 0 (.create (.event false false)) :: List.replicate 18 (.tick 0 {}) ++
  .call 0 (.wait ⟨[2, 1], 5, true, 0⟩ .never) :: List.replicate 25 (.tick 0 {}) ++
  .call 1 (.op 2 .eventSet) :: List.replicate 12 (.tick 1 {}) ++ List.replicate 29 (.tick 0 {})

/-- A wait-all parks with one of its two events set. -/
theorem no_lost_wakeup_either_setOneOfTwo :
    ∃ h s c seq, Run Sys.step (fun s l _ => l.quiet = true ∧
        Owners (fun o => if o = 5 then (0 : Fin 2) else 1) l ∧ l.strands 0 s = false)
      (Sys.rest Region.init twoWaitersPid) h s ∧
      (s.threads 0).pc = .wait c (.sleep seq .parked) ∧ (s.region.nodes (c.node 0)).seq = seq ∧
      h.any (Label.givesBack 2) = true ∧ lo32 (s.region.slots 2).w0 = 1 ∧
      ∃ k < c.handles.length,
        isLocked (s.region.slots (c.slotOf k)) c.owner (c.seqs k) = false := by
  obtain ⟨h, s, hr, hback, hsleep, hall, hset, hdone⟩ := exists_history_of_exec Sys.step
    (fun s l _ => l.quiet = true ∧ Owners (fun o => if o = 5 then (0 : Fin 2) else 1) l ∧
      l.strands 0 s = false)
    (Sys.rest Region.init twoWaitersPid)
    (P := fun h s => h.any (Label.givesBack 2) = true ∧ s.asleep 0 = true ∧
      (s.threads 0).pc.parked?.all (fun x => x.1.all) = true ∧ lo32 (s.region.slots 2).w0 = 1 ∧
      ∀ u, (s.threads u).pc.signals? = none) setOneOfTwo (by decide +kernel)
  obtain ⟨c, seq, hpc, hseq⟩ := Sys.parked_of_asleep hsleep
  rw [hpc] at hall
  exact ⟨h, s, c, seq, hr, hpc, hseq, hback, hset,
    (no_lost_wakeup_either (by decide) hr (fun u i hu => by rw [hdone u] at hu; cases hu) hpc
      hseq).2 hall⟩

end Ntsync
