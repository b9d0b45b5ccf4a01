import Mathlib
import Ntsync.Shape

namespace Ntsync

open Words Lts

/-!
# Semaphores: the count and the tokens in flight

A wait-all takes tokens tentatively and `rollback_acquire` puts them back unconditionally, so the
bound on a semaphore couples its visible count with the tokens in flight (`Sys.tentative`).

* `SatStep.sem` — one step of `try_satisfy` never increases count plus tokens in flight;
* `SemInv` — the coupled bound, kept by every step whose `sem_release`, if it is one, leaves room
  for the tokens in flight (`ReleaseFits`);
* `sem_count_le_max` — the bound in every reachable state.  Without `ReleaseFits` it fails:
  `sem_count_exceeds_max`.
-/

@[simp] theorem lo32_packSem (count max : U32) : lo32 (packSem count max) = count :=
  lo32_pack32 max count

@[simp] theorem hi32_packSem (count max : U32) : hi32 (packSem count max) = max :=
  hi32_pack32 max count

section SemStep

variable {r : Region} {a : WaitArgs} {seqs : Nat → U64} {p : Sat} {w : Option SatWrite}
  {out : Out Sat (Option (Nat × Bool))} {i k : Nat}

/-- An acquire of the semaphore takes one token. -/
theorem AcqTakes.sem {s : Slot} {owner : U32} {seq : U64} {od : Bool} {v : Option U64}
    (h : AcqTakes s owner seq od v) (hty : s.objType = .sem) :
    ∃ new, v = some new ∧ hi32 new = hi32 s.w0 ∧ (lo32 new).toNat + 1 = (lo32 s.w0).toNat := by
  simp only [AcqTakes, hty] at h
  obtain ⟨hne, _, rfl⟩ := h
  refine ⟨_, rfl, hi32_packSem _ _, ?_⟩
  rw [lo32_packSem]
  have hpos : (lo32 s.w0).toNat ≠ 0 := fun h0 => hne (BitVec.eq_of_toNat_eq h0)
  have hle : (1 : U32) ≤ lo32 s.w0 := by
    show (1 : U32).toNat ≤ (lo32 s.w0).toNat
    have h1 : (1 : U32).toNat = 1 := rfl
    omega
  have h1 : (1 : U32).toNat = 1 := rfl
  rw [BitVec.toNat_sub_of_le hle]
  omega

/-- A rollback of the semaphore puts one token back, unless the count wraps. -/
theorem UndoGives.sem {s : Slot} {owner : U32} {od : Bool} {v : Option U64}
    (h : UndoGives s owner od v) (hty : s.objType = .sem)
    (hlt : (lo32 s.w0).toNat + 1 < 2 ^ 32) :
    ∃ new, v = some new ∧ hi32 new = hi32 s.w0 ∧ (lo32 new).toNat = (lo32 s.w0).toNat + 1 := by
  simp only [UndoGives, hty] at h
  subst h
  refine ⟨_, rfl, hi32_packSem _ _, ?_⟩
  rw [lo32_packSem, BitVec.toNat_add]
  exact Nat.mod_eq_of_lt hlt

/-- **Step lemma.** A step of `try_satisfy` keeps the semaphore's max, and count plus tokens in
    flight do not grow. -/
theorem SatStep.sem (hst : SatStep r a seqs p w out) (hf : p.Fits a i .sem)
    (hty : (r.slots i).objType = .sem)
    (hlt : (lo32 (r.slots i).w0).toNat + p.heldAt a i < 2 ^ 32) :
    hi32 ((satInstr a w).wordAfter i (r.slots i).w0) = hi32 (r.slots i).w0 ∧
      (lo32 ((satInstr a w).wordAfter i (r.slots i).w0)).toNat + out.heldAt a i ≤
        (lo32 (r.slots i).w0).toNat + p.heldAt a i := by
  -- an acquire at position `k`: either another slot's word, or one token less
  have htake : ∀ {k : Nat} {q : Acq} {v : Option U64} {od : Bool},
      (a.slotOf k = i → q.fits .sem) →
      q.step (r.slots (a.slotOf k)) a.owner (seqs k) = (v, .done (some od)) →
      hi32 ((satInstr a (v.map (.acquire k od))).wordAfter i (r.slots i).w0) =
          hi32 (r.slots i).w0 ∧
        (lo32 ((satInstr a (v.map (.acquire k od))).wordAfter i (r.slots i).w0)).toNat +
          (if a.slotOf k = i then 1 else 0) = (lo32 (r.slots i).w0).toNat := by
    intro k q v od hq hs
    rw [wordAfter_acquire]
    by_cases hk : a.slotOf k = i
    · have hq' : q.fits (r.slots (a.slotOf k)).objType := by
        rw [hk, hty]
        exact hq hk
      obtain ⟨new, rfl, hhi, hlo⟩ := (Acq.step_take hq' hs).sem (by rw [hk, hty])
      rw [hk] at hhi hlo
      simp only [if_pos hk, Option.getD_some]
      exact ⟨hhi, hlo⟩
    · simp [hk]
  -- a rollback at position `k`: either another slot's word, or one token more
  have hgive : ∀ {k : Nat} {u : Undo} {v : Option U64} {od : Bool},
      (a.slotOf k = i → u.fits .sem) →
      u.step (r.slots (a.slotOf k)) a.owner od = (v, .done ()) →
      (a.slotOf k = i → (lo32 (r.slots i).w0).toNat + 1 < 2 ^ 32) →
      hi32 ((satInstr a (v.map (.rollback k))).wordAfter i (r.slots i).w0) =
          hi32 (r.slots i).w0 ∧
        (lo32 ((satInstr a (v.map (.rollback k))).wordAfter i (r.slots i).w0)).toNat =
          (lo32 (r.slots i).w0).toNat + (if a.slotOf k = i then 1 else 0) := by
    intro k u v od hu hs hlt
    rw [wordAfter_rollback]
    by_cases hk : a.slotOf k = i
    · have hu' : u.fits (r.slots (a.slotOf k)).objType := by
        rw [hk, hty]
        exact hu hk
      obtain ⟨new, rfl, hhi, hlo⟩ :=
        (Undo.step_done hu' hs).sem (by rw [hk, hty]) (by rw [hk]; exact hlt hk)
      rw [hk] at hhi hlo
      simp only [if_pos hk, Option.getD_some]
      exact ⟨hhi, hlo⟩
    · simp [hk]
  cases hst with
  | anyMore | anyNext | anyFail | allFail | undoNil =>
    exact ⟨rfl, Nat.le_refl _⟩
  | allMore | allUndo | undoMore => exact ⟨rfl, Nat.le_refl _⟩
  | anyWin hs =>
    obtain ⟨hhi, hlo⟩ := htake hf hs
    refine ⟨hhi, ?_⟩
    simp only [Out.heldAt, Sat.heldAt, Sat.held]
    omega
  | @allTake k acquired od b q v hs _ =>
    obtain ⟨hhi, hlo⟩ := htake hf hs
    refine ⟨hhi, ?_⟩
    simp only [Out.heldAt, Sat.heldAt, Sat.held, List.countP_append, List.countP_singleton,
      decide_eq_true_eq]
    omega
  | allWin hs =>
    obtain ⟨hhi, hlo⟩ := htake hf hs
    refine ⟨hhi, ?_⟩
    simp only [Out.heldAt]
    omega
  | @undoLast k b u v hs =>
    simp only [Sat.heldAt, Sat.held, List.countP_singleton, decide_eq_true_eq] at hlt ⊢
    obtain ⟨hhi, hlo⟩ := hgive hf hs (fun hk => by rw [if_pos hk] at hlt; exact hlt)
    refine ⟨hhi, ?_⟩
    simp only [Out.heldAt]
    omega
  | @undoNext k b rest u v hs _ =>
    simp only [Sat.heldAt, Sat.held, List.countP_cons, decide_eq_true_eq] at hlt ⊢
    obtain ⟨hhi, hlo⟩ := hgive hf hs (fun hk => by rw [if_pos hk] at hlt; omega)
    refine ⟨hhi, ?_⟩
    simp only [Out.heldAt, Sat.heldAt, Sat.held]
    omega

end SemStep

/-! ### One step of a thread -/

variable {T : Type}

/-- The tokens a step releases to the semaphore in slot `i`. -/
def Instr.released (i : Nat) : Instr → Nat
  | .word _ j (.op (.semRelease n)) _ => if j = i then n.toNat else 0
  | _ => 0

/-- A successful `sem_release` adds its tokens. -/
theorem semRelease_cas {n : U32} {w new : U64} {x : OpRet × Bool}
    (h : semRelease n w = .cas new x) :
    hi32 new = hi32 w ∧ (lo32 new).toNat = (lo32 w).toNat + n.toNat := by
  simp only [semRelease] at h
  split at h
  · rename_i hc
    cases h
    refine ⟨hi32_packSem _ _, ?_⟩
    rw [lo32_packSem, BitVec.toNat_add]
    exact Nat.mod_eq_of_lt hc.1
  · cases h

/-- The operations on a semaphore that store to its word. -/
theorem Op.pass_sem {o : Op} {w new : U64} {x : OpRet × Bool} (hty : o.objType = .sem)
    (h : o.pass w = .cas new x) :
    ∃ n, o = .semRelease n ∧ Ntsync.semRelease n w = .cas new x := by
  cases o with
  | semRelease n => exact ⟨n, rfl, h⟩
  | readSem => cases h
  | _ => cases hty

/-- **Step lemma.** Count plus tokens in flight grow only by what a `sem_release` adds. -/
theorem PcGo.sem {sh : Shared T} {pid : U32} {o : Oracle} {pc pc' : Pc} {ins : Instr} {i : Nat}
    {g : U32} (hg : PcGo sh pid o pc ins pc') (hs : Holds sh.region i g .sem)
    (hv : pc.Valid i g .sem) (hlt : (lo32 (sh.region.slots i).w0).toNat + pc.heldAt i < 2 ^ 32) :
    hi32 (ins.wordAfter i (sh.region.slots i).w0) = hi32 (sh.region.slots i).w0 ∧
      (lo32 (ins.wordAfter i (sh.region.slots i).w0)).toNat + pc'.heldAt i ≤
        (lo32 (sh.region.slots i).w0).toNat + pc.heldAt i + ins.released i := by
  -- a step of an attempt: what it stores and what it holds on to cancel out
  cases hp : pc.sat? with
  | some x =>
    obtain ⟨c, p⟩ := x
    obtain ⟨w, out, hst, rfl, _, hf⟩ := hg.sat hp
    have hfit : p.Fits c.toWaitArgs i .sem := by
      cases hg with
      | @wait c' q _ _ hg =>
        simp only [Pc.sat?, Option.map_eq_some_iff, Prod.mk.injEq] at hp
        obtain ⟨p', hq, rfl, rfl⟩ := hp
        exact hv.fits _ hq
      | _ => cases hp
    rw [Pc.heldAt_of_some hp] at hlt ⊢
    have hheld : pc'.heldAt i ≤ out.heldAt c.toWaitArgs i := by
      rcases out with p' | (_ | ⟨k, od⟩)
      · exact Nat.le_of_eq (Pc.heldAt_of_some hf)
      · exact Nat.le_of_eq (Pc.heldAt_of_none hf.1)
      · exact Nat.le_of_eq (Pc.heldAt_of_none hf.1)
    obtain ⟨hhi, hlo⟩ := hst.sem hfit hs.typ hlt
    exact ⟨hhi, by omega⟩
  | none =>
    -- outside an attempt nothing is held, and only `sem_release` stores to this word
    have hheld : pc'.heldAt i = 0 := by
      rcases (hg.noSat hp).2 with h | ⟨c, h⟩
      · exact Pc.heldAt_of_none h
      · rw [Pc.heldAt_of_some h]
        exact Sat.heldAt_start _ _ _
    rw [hheld]
    by_cases hw : ∃ hd tag new, ins = .word hd i tag new
    · obtain ⟨hd, tag, new, rfl⟩ := hw
      rcases hg.word with ⟨op, cas, r, wake, rfl, hi, rfl, hb, _⟩ | ⟨prev, w, rfl, hi, _⟩ |
        ⟨c, q, p, rfl, hq⟩
      · have hty : op.objType = .sem := (hv hi.symm).2 rfl
        obtain ⟨n, rfl, hn⟩ := Op.pass_sem hty hb
        obtain ⟨hhi, hlo⟩ := semRelease_cas hn
        simp only [Instr.wordAfter, if_true, Instr.released]
        exact ⟨hhi, by omega⟩
      -- a pulse never stores to a semaphore
      · have hty := ((hv hi.symm) rfl).2
        cases hty
      · simp [Pc.sat?, hq] at hp
    · rw [Instr.wordAfter_of_ne (fun hd tag new e => hw ⟨hd, tag, new, e⟩)]
      exact ⟨rfl, by omega⟩

/-! ### The bound -/

/-- Changing one summand of a finite sum. -/
theorem sum_change {M : Type} [AddCommMonoid M] [Fintype T] [DecidableEq T] (f f' : T → M) (t : T)
    (h : ∀ u, u ≠ t → f' u = f u) : ∑ u, f' u + f t = ∑ u, f u + f' t := by
  rw [← Finset.add_sum_erase _ f (Finset.mem_univ t), ← Finset.add_sum_erase _ f' (Finset.mem_univ t)]
  have hrest : ∑ u ∈ Finset.univ.erase t, f' u = ∑ u ∈ Finset.univ.erase t, f u :=
    Finset.sum_congr rfl fun u hu => h u (Finset.ne_of_mem_erase hu)
  rw [hrest, add_right_comm, add_comm (f' t), add_right_comm]

section Bound

variable [Fintype T] [DecidableEq T]

/-- The tokens of slot `i` that live threads hold tentatively. -/
def Sys.tentative (s : Sys T) (i : Nat) : Nat :=
  ∑ t, if s.dead (s.threads t).pid then 0 else (s.threads t).pc.heldAt i

/-- A `sem_release` of slot `i` leaves room for the tokens in flight. -/
def ReleaseFits (i : Nat) (s : Sys T) : Label T → Prop
  | .instr _ _ ins => 0 < ins.released i →
    (lo32 (s.region.slots i).w0).toNat + s.tentative i + ins.released i ≤
      (hi32 (s.region.slots i).w0).toNat
  | _ => True

instance (i : Nat) (s : Sys T) : (l : Label T) → Decidable (ReleaseFits i s l)
  | .instr _ _ _ => inferInstanceAs (Decidable (_ → _))
  | .call _ _ => inferInstanceAs (Decidable True)
  | .die _ => inferInstanceAs (Decidable True)

/-- The visible count and the tokens in flight stay within the semaphore's max. -/
structure SemInv (i : Nat) (g max : U32) (s : Sys T) : Prop where
  isOpen : OpenInv i g .sem s
  max_eq : hi32 (s.region.slots i).w0 = max
  bound : (lo32 (s.region.slots i).w0).toNat + s.tentative i ≤ max.toNat

omit [DecidableEq T] in
/-- What one thread holds tentatively is part of what all hold. -/
theorem Sys.heldAt_le_tentative (s : Sys T) (i : Nat) {t : T}
    (ha : s.dead (s.threads t).pid = false) : (s.threads t).pc.heldAt i ≤ s.tentative i := by
  have hle := Finset.single_le_sum (s := Finset.univ)
    (f := fun t => if s.dead (s.threads t).pid then 0 else (s.threads t).pc.heldAt i)
    (fun u _ => Nat.zero_le _) (Finset.mem_univ t)
  simpa [ha, Sys.tentative] using hle

/-- **Every step whose release fits keeps the bound.** -/
theorem SemInv.step {i : Nat} {g max : U32} {s s' : Sys T} {a : Action T} {l : Label T}
    (hi : SemInv i g max s) (h : s.step a = some (s', l)) (hu : Stays i s')
    (hfit : ReleaseFits i s l) : SemInv i g max s' := by
  have hopen := hi.isOpen.step h hu
  cases Sys.step_inv h with
  | @call t c ha hout =>
    refine ⟨hopen, hi.max_eq, ?_⟩
    have hsum : (s.entered t c).tentative i = s.tentative i := by
      refine Finset.sum_congr rfl fun u _ => ?_
      rw [Sys.entered_dead, Sys.entered_pid, Sys.entered_pc]
      by_cases hut : u = t
      · subst hut
        have h0 : (Pc.start c).heldAt i = 0 := Pc.heldAt_of_none (Pc.start_sat c)
        have h1 : (s.threads u).pc.heldAt i = 0 := by
          rcases Pc.outside_cases hout with hpc | ⟨_, _, hpc⟩ <;> rw [hpc] <;> rfl
        simp [h0, h1]
      · simp [hut]
    rw [hsum]
    exact hi.bound
  | @tick t o ins pc' ha ht =>
    have hg := tick_inv ht
    have hle := s.heldAt_le_tentative i ha
    have hmax : max.toNat < 2 ^ 32 := max.isLt
    have hb := hi.bound
    obtain ⟨hw, _⟩ := hi.isOpen.after_word ha hg hu
    obtain ⟨hhi, hlo⟩ := hg.sem hi.isOpen.holds (hi.isOpen.valid t) (by omega)
    have hsum := sum_change (fun u => if s.dead (s.threads u).pid then 0
        else (s.threads u).pc.heldAt i)
      (fun u => if (s.after t ins pc').dead ((s.after t ins pc').threads u).pid then 0
        else ((s.after t ins pc').threads u).pc.heldAt i) t
      (fun u hut => by simp [hut])
    have hsum' : (s.after t ins pc').tentative i + (s.threads t).pc.heldAt i =
        s.tentative i + pc'.heldAt i := by
      simpa [ha, Sys.tentative] using hsum
    refine ⟨hopen, ?_, ?_⟩
    · rw [hw, hhi]
      exact hi.max_eq
    · rw [hw]
      -- only a release adds anything, and then it fits
      rcases Nat.eq_zero_or_pos (ins.released i) with h0 | hpos
      · omega
      · have hroom := hfit hpos
        rw [hi.max_eq] at hroom
        omega
  | @die pid =>
    refine ⟨hopen, hi.max_eq, Nat.le_trans (Nat.add_le_add_left ?_ _) hi.bound⟩
    refine Finset.sum_le_sum fun u _ => ?_
    rw [Sys.died_dead, Sys.died_threads]
    by_cases hd : s.dead (s.threads u).pid = true
    · simp [hd]
    · split
      · exact Nat.zero_le _
      · simp

omit [DecidableEq T] in
/-- The invariant holds of a semaphore at rest. -/
theorem SemInv.of_start {i : Nat} {count max : U32} {s : Sys T} (hidle : s.Idle)
    (hu : (s.region.slots i).state = .used) (hty : (s.region.slots i).objType = .sem)
    (hw : (s.region.slots i).w0 = packSem count max) (hle : count.toNat ≤ max.toNat) :
    SemInv i (s.region.slots i).generation max s := by
  have hopen := OpenInv.of_idle hidle hu
  rw [hty] at hopen
  refine ⟨hopen, by rw [hw, hi32_packSem], ?_⟩
  have hzero : s.tentative i = 0 := by
    refine Finset.sum_eq_zero fun t _ => ?_
    have h0 : (s.threads t).pc.heldAt i = 0 := by
      rcases Pc.outside_cases (hidle t) with hpc | ⟨_, _, hpc⟩ <;> rw [hpc] <;> rfl
    simp [h0]
  rw [hzero, hw, lo32_packSem]
  exact hle

/-- **Semaphore bound.** In every run that starts with no call under way: while a semaphore created
    with `count ≤ max` stays open, and no release overtakes the tokens in flight, its max never
    changes, its count never exceeds it, and the `count + 1` of a rollback neither exceeds it nor
    wraps. -/
theorem sem_count_le_max {i : Nat} {count max : U32} {s₀ s : Sys T} {h : List (Label T)}
    (hidle : s₀.Idle) (hu : (s₀.region.slots i).state = .used)
    (hty : (s₀.region.slots i).objType = .sem)
    (hw : (s₀.region.slots i).w0 = packSem count max) (hle : count.toNat ≤ max.toNat)
    (hr : Run Sys.step (fun s l s' => Stays i s' ∧ ReleaseFits i s l) s₀ h s) :
    hi32 (s.region.slots i).w0 = max ∧ (lo32 (s.region.slots i).w0).toNat ≤ max.toNat ∧
      ∀ a s' t pid hd owner new,
        s.step a = some (s', .instr t pid (.word hd i (.rollback owner) new)) →
        (lo32 (s.region.slots i).w0).toNat + 1 ≤ max.toNat ∧
          (lo32 new).toNat = (lo32 (s.region.slots i).w0).toNat + 1 := by
  have hinv : SemInv i (s₀.region.slots i).generation max s :=
    hr.state_invariant (SemInv.of_start hidle hu hty hw hle)
      (fun s a s' l hI hs hok => hI.step hs hok.1 hok.2)
  have hb := hinv.bound
  refine ⟨hinv.max_eq, by omega, ?_⟩
  intro a s' t pid hd owner new hstep
  cases Sys.step_inv hstep with
  | @tick t o ins pc' ha ht =>
    have hg := tick_inv ht
    have hle := s.heldAt_le_tentative i ha
    have hmax : max.toNat < 2 ^ 32 := max.isLt
    rcases hg.word with ⟨_, _, _, _, _, _, htag, _⟩ | ⟨_, _, _, _, htag, _⟩ | ⟨c, q, p, hpc, hq⟩
    · cases htag
    · cases htag
    · have hsat : (s.threads t).pc.sat? = some (c, p) := by rw [hpc, Pc.sat?, hq]; rfl
      obtain ⟨w, out, hst, hins, _, _⟩ := hg.sat hsat
      obtain ⟨k, rfl, _, hk, _⟩ := satInstr_rollback hins.symm
      obtain ⟨b, rest, u, rfl, hs⟩ := hst.rollback
      have hfit : u.fits .sem := by
        have hv := hinv.isOpen.valid t
        rw [hpc] at hv
        exact hv.fits _ hq hk.symm
      have hone : 1 ≤ (s.threads t).pc.heldAt i := by
        rw [Pc.heldAt_of_some hsat]
        simp [Sat.heldAt, Sat.held, hk]
      have htyp := hinv.isOpen.holds.typ
      subst hk
      obtain ⟨v, hv, _, hlo⟩ := (Undo.step_done (by rw [htyp]; exact hfit) hs).sem htyp (by omega)
      cases hv
      exact ⟨by omega, hlo⟩

end Bound

/-! ### A release that overtakes a token in flight -/

/-- A semaphore with its only token in slot 1 and an unsignaled event in slot 2. -/
def semDemo : Sys (Fin 2) :=
  .rest ((Region.init.created 1 (.sem 1 1) 7).created 2 (.event false false) 7) fun _ => 7

/-- Thread 0 polls for both objects and takes the token; thread 1 releases one token; then thread 0
    finds the event unsignaled and gives its token back. -/
def semRace : List (Action (Fin 2)) :=
  .call 0 (.wait { handles := [1, 2], owner := 5, all := true, alert := 0 } .zero) ::
    List.replicate 10 (.tick 0 {}) ++
  .call 1 (.op 1 (.semRelease 1)) :: List.replicate 5 (.tick 1 {}) ++
    List.replicate 6 (.tick 0 {})

/-- The calls of the race. -/
def semCalls : Fin 2 → Call → Bool
  | _, .wait _ _ | _, .op _ (.semRelease _) => true
  | _, _ => false

/-- Up to the release, with the token in flight, the bound holds. -/
theorem sem_count_le_max_semDemo :
    ∃ h s, Run Sys.step (fun s l s' => Stays 1 s' ∧ ReleaseFits 1 s l) semDemo h s ∧
      (s.threads 0).pc.heldAt 1 = 1 ∧
      hi32 (s.region.slots 1).w0 = 1 ∧ (lo32 (s.region.slots 1).w0).toNat ≤ 1 := by
  obtain ⟨h, s, hr, hheld⟩ := exists_run_of_exec Sys.step
    (fun s l s' => Stays 1 s' ∧ ReleaseFits 1 s l) semDemo
    (P := fun s => (s.threads 0).pc.heldAt 1 = 1) (semRace.take 11) (by decide +kernel)
  have hb := sem_count_le_max (fun _ => rfl) (by decide) (by decide)
    (show (semDemo.region.slots 1).w0 = packSem 1 1 by decide) (by decide) hr
  exact ⟨h, s, hr, hheld, hb.1, hb.2.1⟩

/-- The release finds room for a token that the rollback then brings back as a second one. -/
theorem sem_count_exceeds_max :
    semDemo.Idle ∧ (semDemo.region.slots 1).state = .used ∧
      (semDemo.region.slots 1).objType = .sem ∧ (semDemo.region.slots 1).w0 = packSem 1 1 ∧
      ∃ h s, Run Sys.step (fun _ l s' => Stays 1 s' ∧ Only (fun t c => semCalls t c = true) l)
        semDemo h s ∧ (hi32 (s.region.slots 1).w0).toNat < (lo32 (s.region.slots 1).w0).toNat := by
  refine ⟨fun _ => rfl, by decide, by decide, by decide, ?_⟩
  exact exists_run_of_exec _ _ _ semRace (by decide +kernel)

end Ntsync
