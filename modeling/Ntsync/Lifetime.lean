import Mathlib
import Ntsync.Tables

namespace Ntsync

open Words Lts

/-!
# Sweeps and the lifetime of an object

A sweep frees an object only after everybody with an interest in it is dead.  The verdicts come
from a snapshot and are formed outside the lock; what makes them safe is that a dead pid stays dead
and that `reap_dead_locked` frees the slot only if it still carries the pids that were judged.

* `SweepPc.Sound` — a candidate judged dead has only dead pids;
* `creator`, `retained` — who created the object in a slot, and who retains it, by the history;
* `HoldersInv` — the creator and every process that retains an object stand in its slot, unless
  the holder array has overflowed;
* `reap_spares_living` — whoever created or retains an object that a sweep frees is dead.
-/

variable {T : Type}

/-! ### Verdicts -/

/-- A remembered verdict that a process is dead is right. -/
def PidCache.Sound (dead : U32 → Bool) (c : PidCache) : Prop :=
  ∀ i, c.pid i ≠ 0 → c.alive i = false → dead (c.pid i) = true

/-- An empty cache is sound. -/
theorem PidCache.sound_new (dead : U32 → Bool) : PidCache.new.Sound dead :=
  fun _ h => absurd rfl h

/-- A sound cache stays sound, since the dead stay dead. -/
theorem PidCache.Sound.mono {dead dead' : U32 → Bool} {c : PidCache} (h : c.Sound dead)
    (hd : ∀ p, dead p = true → dead' p = true) : c.Sound dead' :=
  fun i hp ha => hd _ (h i hp ha)

/-- A probe that answers "dead" is right, and what it remembers is right too. -/
theorem PidCache.Sound.probe {dead : U32 → Bool} {c c' : PidCache} {p : U32} {b : Bool}
    (h : c.Sound dead) (hp : c.probe dead p = (b, c')) :
    c'.Sound dead ∧ (b = false → p = 0 ∨ dead p = true) := by
  unfold PidCache.probe at hp
  split at hp
  · rename_i h0
    cases hp
    exact ⟨h, fun _ => .inl h0⟩
  · rename_i h0
    split at hp
    · rename_i i hf
      cases hp
      refine ⟨h, fun ha => .inr ?_⟩
      have hi := List.find?_some hf
      rw [decide_eq_true_eq] at hi
      rw [← hi] at h0 ⊢
      exact h i h0 ha
    · cases hp
      have hverdict : pidAlive dead p = false → dead p = true := by
        intro ha
        unfold pidAlive at ha
        rw [decide_eq_true h0, Bool.true_and] at ha
        simpa using ha
      refine ⟨fun i hi ha => ?_, fun ha => .inr (hverdict ha)⟩
      by_cases hin : i = c.next
      · subst hin
        simp only [Function.update_self] at hi ha ⊢
        exact hverdict ha
      · simp only [Function.update_of_ne hin] at hi ha ⊢
        exact h i hi ha

/-- A slot candidate has a creator. -/
def DeadCand.Real (c : DeadCand) : Prop := c.node = false → c.pid ≠ 0

/-- Every pid of a candidate judged dead is dead (0 marks an empty holder entry). -/
def Judged (dead : U32 → Bool) (judged : List (DeadCand × Bool)) : Prop :=
  ∀ x ∈ judged, x.1.Real ∧ (x.2 = false → ∀ q ∈ x.1.pids, q = 0 ∨ dead q = true)

def SweepPc.Sound (dead : U32 → Bool) : SweepPc → Prop
  | .chunk st => st.cache.Sound dead
  | .drop st cands => st.cache.Sound dead ∧ ∀ c ∈ cands, c.Real
  | .probe st judged c pids rest => st.cache.Sound dead ∧ Judged dead judged ∧
    (∀ x ∈ c :: rest, x.Real) ∧ ∀ q ∈ c.pids, q ∈ pids ∨ q = 0 ∨ dead q = true
  | .relock st judged | .reap st judged | .reapFree st _ judged | .reapGen st _ judged
  | .reapWalk st _ _ judged => st.cache.Sound dead ∧ Judged dead judged

/-- So do verdicts. -/
theorem Judged.mono {dead dead' : U32 → Bool} {judged : List (DeadCand × Bool)}
    (h : Judged dead judged) (hd : ∀ p, dead p = true → dead' p = true) : Judged dead' judged :=
  fun x hx => ⟨(h x hx).1, fun ha q hq => ((h x hx).2 ha q hq).imp_right (hd q)⟩

/-- One more sound verdict. -/
theorem Judged.append {dead : U32 → Bool} {judged : List (DeadCand × Bool)} {c : DeadCand}
    {b : Bool} (h : Judged dead judged) (hc : c.Real)
    (hb : b = false → ∀ q ∈ c.pids, q = 0 ∨ dead q = true) : Judged dead (judged ++ [(c, b)]) := by
  intro x hx
  rcases List.mem_append.mp hx with hx | hx
  · exact h x hx
  · rw [List.mem_singleton] at hx
    subst hx
    exact ⟨hc, hb⟩

/-- The verdicts that are left. -/
theorem Judged.tail {dead : U32 → Bool} {x : DeadCand × Bool} {judged : List (DeadCand × Bool)}
    (h : Judged dead (x :: judged)) : Judged dead judged :=
  fun y hy => h y (List.mem_cons_of_mem _ hy)

/-- A sound sweep stays sound, since the dead stay dead. -/
theorem SweepPc.Sound.mono {dead dead' : U32 → Bool} {p : SweepPc} (h : p.Sound dead)
    (hd : ∀ q, dead q = true → dead' q = true) : p.Sound dead' := by
  cases p with
  | chunk => exact PidCache.Sound.mono h hd
  | drop => exact ⟨h.1.mono hd, h.2⟩
  | probe => exact ⟨h.1.mono hd, h.2.1.mono hd, h.2.2.1,
      fun q hq => (h.2.2.2 q hq).imp_right (Or.imp_right (hd q))⟩
  | relock | reap | reapFree | reapGen | reapWalk => exact ⟨h.1.mono hd, h.2.mono hd⟩

/-- Candidates are judged one after the other. -/
theorem SweepPc.sound_judge {dead : U32 → Bool} {auto : Bool} {st : SweepSt}
    {judged : List (DeadCand × Bool)} {rest : List DeadCand} (hc : st.cache.Sound dead)
    (hj : Judged dead judged) (hr : ∀ c ∈ rest, c.Real) :
    (SweepPc.judge auto st judged rest).Sound dead := by
  cases rest with
  | nil =>
    cases auto <;> exact ⟨hc, hj⟩
  | cons c rest => exact ⟨hc, hj, hr, fun q hq => .inl hq⟩

/-- The scan collects only slots that have a creator. -/
theorem nextChunkLoop_real {r : Region} {fuel : Nat} {sc sc' : SweepScan}
    {out out' : List DeadCand} (h : nextChunkLoop r fuel sc out = (sc', out'))
    (hout : ∀ c ∈ out, c.Real) : ∀ c ∈ out', c.Real := by
  induction fuel generalizing sc out with
  | zero =>
    cases h
    exact hout
  | succ fuel ih =>
    -- one more candidate keeps the property
    have hadd : ∀ c : DeadCand, c.Real → ∀ x ∈ out ++ [c], x.Real := by
      intro c hc x hx
      rcases List.mem_append.mp hx with hx | hx
      · exact hout x hx
      · rw [List.mem_singleton] at hx
        subst hx
        exact hc
    unfold nextChunkLoop at h
    split at h
    · cases h
      exact hout
    · split at h
      · refine ih h ?_
        split
        · exact hadd _ fun hn => (by cases hn)
        · exact hout
      · split at h
        · refine ih h ?_
          split
          · rename_i hs
            exact hadd _ fun _ => hs.2
          · exact hout
        · cases h
          exact hout

/-- **A sweep calls only the dead dead.** -/
theorem SweepGo.sound {auto : Bool} {sh : Shared T} {p p' : SweepPc} {ins : Instr}
    (hg : SweepGo auto sh p ins (.more p')) (hp : p.Sound sh.dead) : p'.Sound sh.dead := by
  cases hg with
  | chunkAuto hn _ => exact ⟨hp, nextChunkLoop_real hn fun c hc => (by cases hc)⟩
  | chunk hn _ =>
    exact SweepPc.sound_judge hp (fun x hx => by cases hx)
      (nextChunkLoop_real hn fun c hc => by cases hc)
  | drop => exact SweepPc.sound_judge hp.1 (fun x hx => by cases hx) hp.2
  | probeDead =>
    refine SweepPc.sound_judge hp.1 (hp.2.1.append (hp.2.2.1 _ (by simp)) fun _ q hq => ?_)
      fun c hc => hp.2.2.1 c (List.mem_cons_of_mem _ hc)
    rcases hp.2.2.2 q hq with hm | hd
    · cases hm
    · exact hd
  | probeAlive hpr =>
    exact SweepPc.sound_judge (hp.1.probe hpr).1
      (hp.2.1.append (hp.2.2.1 _ (by simp)) fun hf => by cases hf)
      fun c hc => hp.2.2.1 c (List.mem_cons_of_mem _ hc)
  | probe hpr =>
    obtain ⟨hc, hverdict⟩ := hp.1.probe hpr
    refine ⟨hc, hp.2.1, hp.2.2.1, fun q hq => ?_⟩
    rcases hp.2.2.2 q hq with hm | hd
    · rcases List.mem_cons.mp hm with rfl | hm
      · exact .inr (hverdict rfl)
      · exact .inl hm
    · exact .inr hd
  | relock | reapGen | walk | walked | reapFree => exact hp
  | reaped => exact hp.1
  | skip | reapNode | reapSlot => exact ⟨hp.1, hp.2.tail⟩

/-- **Every sweep under way is sound.** -/
def SweepsInv (s : Sys T) : Prop :=
  ∀ t auto p, (s.threads t).pc.sweep? = some (auto, p) → p.Sound s.dead

/-- At rest there are no sweeps. -/
theorem SweepsInv.of_idle {s : Sys T} (hidle : s.Idle) : SweepsInv s := by
  intro t auto p hp
  rcases Pc.outside_cases (hidle t) with hpc | ⟨c, r, hpc⟩ <;> rw [hpc] at hp <;> cases hp

/-- No call starts inside a sweep. -/
theorem Pc.start_sweep (c : Call) : (Pc.start c).sweep? = none := by
  cases c <;> simp only [Pc.start] <;> (try split) <;> rfl

/-- **Every step keeps the sweeps sound.** -/
theorem SweepsInv.step [DecidableEq T] {s s' : Sys T} {a : Action T} {l : Label T}
    (hi : SweepsInv s) (h : s.step a = some (s', l)) : SweepsInv s' := by
  cases Sys.step_inv h with
  | @call t c ha hout =>
    intro u auto p hp
    rw [Sys.entered_pc] at hp
    split at hp
    · rw [Pc.start_sweep] at hp
      cases hp
    · exact hi u auto p hp
  | @tick t o ins pc' ha ht =>
    have hg := tick_inv ht
    intro u auto p hp
    rw [Sys.after_dead]
    rw [Sys.after_pc] at hp
    split at hp
    · cases hsw : (s.threads t).pc.sweep? with
      | none =>
        rcases hg.noSweep hsw with hn | ⟨b, hn⟩ <;> rw [hn] at hp <;> cases hp
        exact PidCache.sound_new _
      | some x =>
        obtain ⟨b, q⟩ := x
        obtain ⟨out, hq, hf⟩ := hg.sweep hsw
        match out with
        | .more q' =>
          have hf' := hp.symm.trans hf
          cases hf'
          exact hq.sound (hi t _ q hsw)
        | .done n => exact absurd (hp.symm.trans hf) (by simp)
    · exact hi u auto p hp
  | @die pid =>
    intro u auto p hp
    refine (hi u auto p hp).mono fun q hq => ?_
    rw [Sys.died_dead, hq, Bool.or_true]

/-! ### The holder array -/

namespace Slot

/-- The slot's holder array has overflowed; nobody frees it from the outside any more. -/
def overflowed (s : Slot) : Prop := s.holdersLen &&& holderOverflow ≠ 0

/-- The pid stands in the tracked part of the holder array. -/
def tracks (s : Slot) (p : U32) : Prop := ∃ k : Fin maxHolders, k.val < s.holderCap ∧ s.holders k = p

/-- A sweep cannot overlook the holder. -/
def covers (s : Slot) (p : U32) : Prop := s.overflowed ∨ s.tracks p

/-- Who is covered depends on the holder array only. -/
theorem covers_same {s s' : Slot} (h : SameTable s s') (p : U32) : s'.covers p ↔ s.covers p := by
  unfold covers overflowed tracks holderCap
  rw [h.holdersLen, h.holders]

/-- At most eight holders are tracked. -/
theorem holderCap_le (s : Slot) : s.holderCap ≤ maxHolders := Nat.min_le_right _ _

/-- A count next to the overflow bit. -/
theorem count_or_overflow {n : Nat} (hn : n ≤ maxHolders) (len : U32) :
    ((BitVec.ofNat 32 n ||| (len &&& holderOverflow)) &&& ~~~holderOverflow).toNat = n ∧
      (BitVec.ofNat 32 n ||| (len &&& holderOverflow)) &&& holderOverflow =
        len &&& holderOverflow := by
  have hlow : ∀ n ≤ maxHolders, BitVec.ofNat 32 n &&& ~~~holderOverflow = BitVec.ofNat 32 n ∧
      BitVec.ofNat 32 n &&& holderOverflow = 0 ∧ (BitVec.ofNat 32 n).toNat = n := by decide
  obtain ⟨hkeep, hzero, hnat⟩ := hlow n hn
  constructor
  · have hmask : (BitVec.ofNat 32 n ||| (len &&& holderOverflow)) &&& ~~~holderOverflow =
        BitVec.ofNat 32 n &&& ~~~holderOverflow := by
      ext k hk
      simp only [BitVec.getElem_and, BitVec.getElem_or, BitVec.getElem_not]
      cases holderOverflow[k] <;> simp
    rw [hmask, hkeep, hnat]
  · have hmask : (BitVec.ofNat 32 n ||| (len &&& holderOverflow)) &&& holderOverflow =
        (BitVec.ofNat 32 n &&& holderOverflow) ||| (len &&& holderOverflow) := by
      ext k hk
      simp only [BitVec.getElem_and, BitVec.getElem_or]
      cases holderOverflow[k] <;> simp
    rw [hmask, hzero]
    simp

/-- The count after a store of `n` to the length field. -/
theorem holderCap_store {n : Nat} (hn : n ≤ maxHolders) (s : Slot) (len : U32) :
    ((SlotWrite.holdersLen (BitVec.ofNat 32 n ||| (len &&& holderOverflow))).apply s).holderCap =
      n := by
  show min _ maxHolders = n
  rw [show ((SlotWrite.holdersLen (BitVec.ofNat 32 n ||| (len &&& holderOverflow))).apply
    s).holdersLen = BitVec.ofNat 32 n ||| (len &&& holderOverflow) from rfl,
    (count_or_overflow hn len).1]
  omega

/-- A store of the length keeps the mark it was computed from. -/
theorem overflowed_store {n : Nat} (hn : n ≤ maxHolders) (s : Slot) (len : U32) :
    ((SlotWrite.holdersLen (BitVec.ofNat 32 n ||| (len &&& holderOverflow))).apply s).overflowed ↔
      len &&& holderOverflow ≠ 0 := by
  show (BitVec.ofNat 32 n ||| (len &&& holderOverflow)) &&& holderOverflow ≠ 0 ↔ _
  rw [(count_or_overflow hn len).2]

end Slot

/-- The stores `ws` leave the pids of `R` covered at every moment, and those of `R'` at the end. -/
def Keeps (R R' : U32 → Prop) : List SlotWrite → Slot → Prop
  | [], s => ∀ q, R' q → s.covers q
  | w :: ws, s => (∀ q, R q → s.covers q) ∧ Keeps R R' ws (w.apply s)

/-- The same store keeps two slots in agreement. -/
theorem SameTable.apply {s s' : Slot} (h : SameTable s s') (w : SlotWrite) :
    SameTable (w.apply s) (w.apply s') := by
  cases w with
  | holder k v =>
    refine ⟨h.state, h.generation, h.objType, h.pid, h.holdersLen, ?_⟩
    show Function.update s'.holders k v = Function.update s.holders k v
    rw [h.holders]
  | _ => exact ⟨by first | exact h.state | rfl, by first | exact h.generation | rfl,
      by first | exact h.objType | rfl, by first | exact h.pid | rfl,
      by first | exact h.holdersLen | rfl, h.holders⟩

section Keeps

variable {R R' Q Q' : U32 → Prop} {ws : List SlotWrite} {s s' : Slot}

/-- What the stores left keep depends on the table part only. -/
theorem Keeps.same (h : Keeps R R' ws s) (hs : SameTable s s') : Keeps R R' ws s' := by
  induction ws generalizing s s' with
  | nil => exact fun q hq => (Slot.covers_same hs q).mpr (h q hq)
  | cons w ws ih =>
    exact ⟨fun q hq => (Slot.covers_same hs q).mpr (h.1 q hq), ih h.2 (hs.apply w)⟩

/-- Fewer holders are easier to keep. -/
theorem Keeps.mono (h : Keeps R R' ws s) (hQ : ∀ q, Q q → R q) (hQ' : ∀ q, Q' q → R' q) :
    Keeps Q Q' ws s := by
  induction ws generalizing s with
  | nil => exact fun q hq => h q (hQ' q hq)
  | cons w ws ih => exact ⟨fun q hq => h.1 q (hQ q hq), ih h.2⟩

/-- Covered from now on. -/
theorem Keeps.now (h : Keeps R R' ws s) (hR : ∀ q, R q → R' q) : ∀ q, R q → s.covers q := by
  cases ws with
  | nil => exact fun q hq => h q (hR q hq)
  | cons w ws => exact h.1

/-- `holder_add` loses nobody and covers the new holder. -/
theorem Slot.holderAdd_keeps (pid : U32) (h : ∀ q, R q → s.covers q) :
    Keeps R (fun q => R q ∨ q = pid) (s.holderAdd pid) s := by
  unfold Slot.holderAdd
  split
  · rename_i k hf
    have hk := List.find?_some hf
    rw [decide_eq_true_eq] at hk
    rintro q (hq | rfl)
    · exact h q hq
    · exact .inr ⟨k, hk⟩
  · split
    · rename_i hcap
      -- the new entry stands behind the tracked ones, the length store then takes it in
      have hle : s.holderCap + 1 ≤ maxHolders := hcap
      have hfirst : ∀ q, R q →
          ((SlotWrite.holder ⟨s.holderCap, hcap⟩ pid).apply s).covers q := by
        intro q hq
        rcases h q hq with ho | ⟨k, hk, hkq⟩
        · exact .inl ho
        · refine .inr ⟨k, hk, ?_⟩
          have hne : k ≠ ⟨s.holderCap, hcap⟩ := by
            rintro rfl
            exact absurd hk (lt_irrefl _)
          show Function.update s.holders _ pid k = q
          rw [Function.update_of_ne hne]
          exact hkq
      refine ⟨h, hfirst, ?_⟩
      have hnew : ∀ k : Fin maxHolders, k.val < s.holderCap + 1 →
          Slot.tracks ((SlotWrite.holdersLen (BitVec.ofNat 32 (s.holderCap + 1) |||
            (s.holdersLen &&& holderOverflow))).apply
            ((SlotWrite.holder ⟨s.holderCap, hcap⟩ pid).apply s))
            (((SlotWrite.holder ⟨s.holderCap, hcap⟩ pid).apply s).holders k) := by
        intro k hk
        exact ⟨k, by rw [Slot.holderCap_store hle]; exact hk, rfl⟩
      rintro q (hq | rfl)
      · rcases hfirst q hq with ho | ⟨k, hk, rfl⟩
        · exact .inl ((Slot.overflowed_store hle _ _).mpr ho)
        · exact .inr (hnew k (Nat.lt_succ_of_lt hk))
      · have hlast := hnew ⟨s.holderCap, hcap⟩ (Nat.lt_succ_self _)
        rw [show ((SlotWrite.holder ⟨s.holderCap, hcap⟩ q).apply s).holders ⟨s.holderCap, hcap⟩ = q
          from Function.update_self _ _ _] at hlast
        exact .inr hlast
    · refine ⟨h, fun q _ => .inl ?_⟩
      show (s.holdersLen ||| holderOverflow) &&& holderOverflow ≠ 0
      have hmask : (s.holdersLen ||| holderOverflow) &&& holderOverflow = holderOverflow := by
        ext k hk
        simp only [BitVec.getElem_and, BitVec.getElem_or]
        cases holderOverflow[k] <;> simp
      rw [hmask]
      decide

/-- `holder_remove` loses nobody but the process it removes. -/
theorem Slot.holderRemove_keeps {pid : U32} (h : ∀ q, R q → s.covers q)
    (hpid : ¬ R pid) : Keeps R R (s.holderRemove pid) s := by
  unfold Slot.holderRemove
  split
  · exact h
  · rename_i k hf
    have hk := List.find?_some hf
    rw [decide_eq_true_eq] at hk
    have hmax := s.holderCap_le
    have hpos : 0 < s.holderCap := Nat.lt_of_le_of_lt (Nat.zero_le _) hk.1
    generalize hlast : (⟨s.holderCap - 1, _⟩ : Fin maxHolders) = last
    have hlastv : last.val = s.holderCap - 1 := by rw [← hlast]
    -- a pid of `R` stands somewhere other than at the removed position
    have hpos' : ∀ q, R q → ¬ s.overflowed → ∃ j : Fin maxHolders, j.val < s.holderCap ∧ j ≠ k ∧
        s.holders j = q := by
      intro q hq ho
      rcases h q hq with ho' | ⟨j, hj, rfl⟩
      · exact absurd ho' ho
      · refine ⟨j, hj, ?_, rfl⟩
        rintro rfl
        rw [hk.2] at hq
        exact hpid hq
    -- after the first store it stands at `k` or where it stood, before the last position
    have hmoved : ∀ q, R q → ¬ s.overflowed → ∃ j : Fin maxHolders, j.val < s.holderCap - 1 ∧
        Function.update s.holders k (s.holders last) j = q := by
      intro q hq ho
      obtain ⟨j, hj, hjk, rfl⟩ := hpos' q hq ho
      by_cases hjl : j = last
      · subst hjl
        refine ⟨k, ?_, Function.update_self _ _ _⟩
        have hne : k.val ≠ j.val := fun e => hjk (Fin.ext e.symm)
        omega
      · refine ⟨j, ?_, Function.update_of_ne hjk _ _⟩
        have hne : j.val ≠ last.val := fun e => hjl (Fin.ext e)
        omega
    refine ⟨h, fun q hq => ?_, fun q hq => ?_, fun q hq => ?_⟩
    · by_cases ho : s.overflowed
      · exact .inl ho
      · obtain ⟨j, hj, hjq⟩ := hmoved q hq ho
        exact .inr ⟨j, by show j.val < s.holderCap; omega, hjq⟩
    · by_cases ho : s.overflowed
      · exact .inl ho
      · obtain ⟨j, hj, hjq⟩ := hmoved q hq ho
        refine .inr ⟨j, by show j.val < s.holderCap; omega, ?_⟩
        have hne : j ≠ last := fun e => by rw [e] at hj; omega
        show Function.update (Function.update s.holders k (s.holders last)) last 0 j = q
        rw [Function.update_of_ne hne]
        exact hjq
    · by_cases ho : s.overflowed
      · exact .inl ((Slot.overflowed_store (by omega) _ _).mpr ho)
      · obtain ⟨j, hj, hjq⟩ := hmoved q hq ho
        refine .inr ⟨j, by rw [Slot.holderCap_store (by omega)]; exact hj, ?_⟩
        have hne : j ≠ last := fun e => by rw [e] at hj; omega
        show Function.update (Function.update s.holders k (s.holders last)) last 0 j = q
        rw [Function.update_of_ne hne]
        exact hjq

end Keeps

/-! ### Who has an interest in an object -/

/-- The process that created the object now in slot `i`. -/
def creator (i : Nat) : List (Label T) → Option U32
  | [] => none
  | .instr _ pid (.takeSlot j) :: h => if j = i then some pid else creator i h
  | _ :: h => creator i h

/-- Process `p` has retained the object now in slot `i` and not released it since. -/
def retained (i : Nat) (p : U32) : List (Label T) → Bool
  | [] => false
  | .instr _ _ (.takeSlot j) :: h => if j = i then false else retained i p h
  | .instr _ pid (.hold add j) :: h => if j = i ∧ pid = p then add else retained i p h
  | _ :: h => retained i p h

/-- The instructions the two functions above look at. -/
def Instr.records : Instr → Bool
  | .takeSlot _ | .hold _ _ => true
  | _ => false

/-- A step without a record leaves the creator. -/
theorem creator_plain {i : Nat} {t : T} {pid : U32} {ins : Instr} {h : List (Label T)}
    (hi : ins.records = false) : creator i (.instr t pid ins :: h) = creator i h := by
  cases ins <;> first | rfl | cases hi

/-- A step without a record leaves the retains. -/
theorem retained_plain {i : Nat} {p : U32} {t : T} {pid : U32} {ins : Instr} {h : List (Label T)}
    (hi : ins.records = false) : retained i p (.instr t pid ins :: h) = retained i p h := by
  cases ins <;> first | rfl | cases hi

/-- What is done without the lock records nothing. -/
theorem Instr.records_of_unguarded {ins : Instr} (h : ins.guarded = false) :
    ins.records = false := by
  cases ins <;> first | rfl | cases h

/-- The live processes that retain the object in slot `i`. -/
def Retains (h : List (Label T)) (dead : U32 → Bool) (i : Nat) (p : U32) : Prop :=
  retained i p h = true ∧ dead p = false

/-- The thread is about to free slot `i` on behalf of its process, whose holder entry is gone. -/
def Pc.closes (i : Nat) : Pc → Prop
  | .close h (.write _) | .close h .free => handleIndex h = i
  | _ => False

/-- What the stores under way do to the holder array: `C` tells the creators, `R` who retains. -/
def Pc.HoldOk (C : Nat → Option U32) (R : Nat → U32 → Prop) (r : Region) (pid : U32) : Pc → Prop
  | .create _ (.write h _) => C (handleIndex h) = some pid ∧ ∀ q, ¬ R (handleIndex h) q
  | .close h (.write ws) =>
    Keeps (fun q => R (handleIndex h) q ∧ q ≠ pid) (fun q => R (handleIndex h) q ∧ q ≠ pid) ws
      (r.slots (handleIndex h))
  | .hold true h (.write ws) =>
    Keeps (R (handleIndex h)) (fun q => R (handleIndex h) q ∨ q = pid) ws
      (r.slots (handleIndex h))
  | .hold true h (.mark _) => ∀ q, R (handleIndex h) q ∨ q = pid → (r.slots (handleIndex h)).covers q
  | .hold false h (.mark ws) =>
    Keeps (fun q => R (handleIndex h) q ∧ q ≠ pid) (fun q => R (handleIndex h) q ∧ q ≠ pid) ws
      (r.slots (handleIndex h))
  | .hold false h (.write ws) =>
    Keeps (R (handleIndex h)) (R (handleIndex h)) ws (r.slots (handleIndex h))
  | _ => True

section HoldOk

variable {C C' : Nat → Option U32} {R R' : Nat → U32 → Prop} {r r' : Region} {pid : U32} {pc : Pc}

/-- A thread without the lock works on no holder array. -/
theorem Pc.HoldOk.of_unlocked (h : pc.locked = false) (C : Nat → Option U32)
    (R : Nat → U32 → Prop) (r : Region) (pid : U32) : pc.HoldOk C R r pid := by
  unfold Pc.HoldOk
  split <;> trivial

/-- Fewer living retainers and unchanged table fields keep it. -/
theorem Pc.HoldOk.same (h : pc.HoldOk C R r pid) (hs : ∀ i, SameTable (r.slots i) (r'.slots i))
    (hC : ∀ i, C' i = C i) (hR : ∀ i q, R' i q → R i q) : pc.HoldOk C' R' r' pid := by
  unfold Pc.HoldOk at h ⊢
  split at h
  · exact ⟨by rw [hC]; exact h.1, fun q hq => h.2 q (hR _ q hq)⟩
  · have hand : ∀ i q, R' i q ∧ q ≠ pid → R i q ∧ q ≠ pid := fun i q hq => ⟨hR i q hq.1, hq.2⟩
    exact (h.mono (hand _) (hand _)).same (hs _)
  · exact (h.mono (hR _) fun q hq => hq.imp_left (hR _ q)).same (hs _)
  · exact fun q hq => (Slot.covers_same (hs _) q).mpr (h q (hq.imp_left (hR _ q)))
  · have hand : ∀ i q, R' i q ∧ q ≠ pid → R i q ∧ q ≠ pid := fun i q hq => ⟨hR i q hq.1, hq.2⟩
    exact (h.mono (hand _) (hand _)).same (hs _)
  · exact (h.mono (hR _) (hR _)).same (hs _)
  · trivial

end HoldOk

/-- **Everybody with an interest stands in the slot.** -/
structure HoldersInv (h : List (Label T)) (s : Sys T) : Prop where
  table : TableInv s
  creators : ∀ i, (s.region.slots i).state = .used → (s.region.slots i).pid ≠ 0 →
    creator i h = some (s.region.slots i).pid
  covered : ∀ i, (s.region.slots i).state = .used → ∀ p, Retains h s.dead i p →
    (s.region.slots i).covers p ∨
    ∃ t, s.dead (s.threads t).pid = false ∧ (s.threads t).pid = p ∧ (s.threads t).pc.closes i
  ok : ∀ t, s.dead (s.threads t).pid = false →
    (s.threads t).pc.HoldOk (fun i => creator i h) (Retains h s.dead) s.region (s.threads t).pid

/-- A close works under the lock. -/
theorem Pc.closes_locked {pc : Pc} {i : Nat} (h : pc.closes i) : pc.locked = true := by
  unfold Pc.closes at h
  split at h <;> first | rfl | exact h.elim

/-- The lock holder sees every retainer covered, unless it is closing the object itself. -/
theorem HoldersInv.covered_now {h : List (Label T)} {s : Sys T} (hi : HoldersInv h s) {t : T}
    (ha : s.dead (s.threads t).pid = false) (hl : (s.threads t).pc.locked = true) {i : Nat}
    (hu : (s.region.slots i).state = .used) (hc : ¬ (s.threads t).pc.closes i) :
    ∀ p, Retains h s.dead i p → (s.region.slots i).covers p := by
  intro p hp
  rcases hi.covered i hu p hp with hcov | ⟨u, hua, _, huc⟩
  · exact hcov
  · have hut := hi.table.lock.unique (Pc.closes_locked huc) hua hl ha
    subst hut
    exact absurd huc hc

/-- At rest, with no slot created by anybody. -/
theorem HoldersInv.of_init {s : Sys T} (hidle : s.Idle) (hlock : s.lock = none)
    (hpid : ∀ i, (s.region.slots i).state = .used → (s.region.slots i).pid = 0) :
    HoldersInv [] s := by
  refine ⟨.of_idle hidle hlock, fun i hu hp => absurd (hpid i hu) hp, fun i _ p hp => ?_,
    fun t _ => .of_unlocked (Pc.locked_of_outside (hidle t)) _ _ _ _⟩
  cases hp.1

section HoldersStep

variable [DecidableEq T] {h : List (Label T)} {s s' : Sys T} {t : T} {o : Oracle} {ins : Instr}
  {pc' : Pc}

omit [DecidableEq T] in
/-- A retain on record stays on record. -/
theorem Retains.plain {pid : U32} {dead : U32 → Bool} {i : Nat} {p : U32}
    (hr : ins.records = false) (hp : Retains (.instr t pid ins :: h) dead i p) :
    Retains h dead i p :=
  ⟨by rw [← retained_plain hr]; exact hp.1, hp.2⟩

/-- What the acting thread knows after its step. -/
theorem HoldersInv.own (hi : HoldersInv h s) (ha : s.dead (s.threads t).pid = false)
    (ht : tick o s.toShared (s.threads t).pid (s.threads t).calls (s.threads t).pc =
      some (ins, pc')) :
    pc'.HoldOk (fun i => creator i (.instr t (s.threads t).pid ins :: h))
      (Retains (.instr t (s.threads t).pid ins :: h) s.dead) (s.after t ins pc').region
      (s.threads t).pid := by
  have hg := tick_inv ht
  have hok := hi.ok t ha
  have hcov := fun {i} => hi.covered_now (i := i) ha
  -- a step that records nothing leaves the history's answers alone
  have hghost : ins.records = false →
      pc'.HoldOk (fun i => creator i h) (Retains h s.dead) (s.after t ins pc').region
        (s.threads t).pid →
      pc'.HoldOk (fun i => creator i (.instr t (s.threads t).pid ins :: h))
        (Retains (.instr t (s.threads t).pid ins :: h) s.dead) (s.after t ins pc').region
        (s.threads t).pid :=
    fun hr h' => h'.same (fun _ => .refl _) (fun _ => creator_plain hr) (fun _ _ hp => hp.plain hr)
  have hstore : ∀ i w, (s.after t (.store i w) pc').region.slots i =
      w.apply (s.region.slots i) := by
    intro i w
    show (s.region.setSlot i w.apply).slots i = _
    simp
  generalize hpc : (s.threads t).pc = pc at hg hok hcov
  cases hg with
  | op hg => cases hg <;> trivial
  | pulse hg => cases hg <;> trivial
  | @wait c p _ _ hg =>
    match pc' with
    | .create _ _ | .close _ _ | .hold _ _ _ => rcases hg.args with hx | hx <;> cases hx
    | .idle | .done _ _ | .panicked | .op _ _ _ | .pulse _ _ | .wait _ _ | .sweepDead _ => trivial
  | create hg =>
    cases hg with
    | @take retry i hf =>
      have hidx := handleIndex_mkHandle (s.region.slots i).generation (Region.freeSlot_spec hf).1
      refine ⟨?_, fun q hq => ?_⟩
      · rw [hidx]
        simp [creator]
      · have hq' := hq.1
        rw [hidx] at hq'
        simp [retained] at hq'
    | write => exact hghost rfl hok
    | _ => trivial
  | close hg =>
    cases hg with
    | check hs =>
      obtain ⟨rfl, hu, _⟩ := Region.slot_eq_some.mp hs
      refine hghost rfl (Slot.holderRemove_keeps (fun q hq => ?_) (fun hq => hq.2 rfl))
      exact hcov rfl hu (by simp [Pc.closes]) q hq.1
    | write =>
      refine hghost rfl ?_
      show Keeps _ _ _ (_ : Slot)
      rw [hstore]
      exact hok.2
    | _ => trivial
  | @hold add hd p _ _ hg =>
    cases hg with
    | checkAdd hs hadd =>
      subst hadd
      obtain ⟨rfl, hu, _⟩ := Region.slot_eq_some.mp hs
      exact hghost rfl (Slot.holderAdd_keeps _ (hcov rfl hu (by simp [Pc.closes])))
    | checkRemove hs hadd =>
      subst hadd
      obtain ⟨rfl, hu, _⟩ := Region.slot_eq_some.mp hs
      refine hghost rfl (Slot.holderRemove_keeps (fun q hq => ?_) (fun hq => hq.2 rfl))
      exact hcov rfl hu (by simp [Pc.closes]) q hq.1
    | writtenAdd hadd =>
      subst hadd
      exact hghost rfl hok
    | write =>
      refine hghost rfl ?_
      cases add
      · show Keeps _ _ _ (_ : Slot)
        rw [hstore]
        exact hok.2
      · show Keeps _ _ _ (_ : Slot)
        rw [hstore]
        exact hok.2
    | markRemove hadd =>
      subst hadd
      -- the release takes its process off the record before it touches the array
      have hminus : ∀ q, Retains (.instr t (s.threads t).pid (.hold false (handleIndex hd)) :: h)
          s.dead (handleIndex hd) q → Retains h s.dead (handleIndex hd) q ∧
            q ≠ (s.threads t).pid := by
        rintro q ⟨hq, hd⟩
        simp only [retained, true_and] at hq
        split at hq
        · cases hq
        · rename_i hne
          exact ⟨⟨hq, hd⟩, fun e => hne e.symm⟩
      exact Keeps.mono hok hminus hminus
    | writtenRemove | markAdd | lock | bad | unlock => cases add <;> trivial
  | sweepDead hg => cases hg <;> trivial

omit [DecidableEq T] in
/-- A closing thread goes on closing until it stores to the slot's state. -/
theorem PcGo.closes {sh : Shared T} {pid : U32} {pc : Pc} {i : Nat}
    (hg : PcGo sh pid o pc ins pc') (hc : pc.closes i) (hs : ins.stores i = false) :
    pc'.closes i := by
  unfold Pc.closes at hc
  split at hc
  · cases hg with
    | close hg =>
      cases hg with
      | written => exact hc
      | write => simp [Instr.stores, hc] at hs
  · cases hg with
    | close hg =>
      cases hg with
      | free => simp [Instr.stores, hc] at hs
  · exact hc.elim

/-- A slot whose table fields the step leaves alone. -/
theorem HoldersInv.slot_same (hi : HoldersInv h s) (ha : s.dead (s.threads t).pid = false)
    (ht : tick o s.toShared (s.threads t).pid (s.threads t).calls (s.threads t).pc =
      some (ins, pc')) {i : Nat} (hs : ins.stores i = false)
    (hu : ((s.after t ins pc').region.slots i).state = .used) :
    (((s.after t ins pc').region.slots i).pid ≠ 0 →
      creator i (.instr t (s.threads t).pid ins :: h) =
        some ((s.after t ins pc').region.slots i).pid) ∧
    ∀ p, Retains (.instr t (s.threads t).pid ins :: h) s.dead i p →
      ((s.after t ins pc').region.slots i).covers p ∨
      ∃ u, s.dead (s.threads u).pid = false ∧ (s.threads u).pid = p ∧
        ((s.after t ins pc').threads u).pc.closes i := by
  have hg := tick_inv ht
  have hsame : SameTable (s.region.slots i) ((s.after t ins pc').region.slots i) :=
    Instr.sameTable t _ s.toShared hs
  rw [hsame.state] at hu
  rw [hsame.pid]
  have hcreator := hi.creators i hu
  have hcovered : ∀ p, Retains h s.dead i p → ((s.after t ins pc').region.slots i).covers p ∨
      ∃ u, s.dead (s.threads u).pid = false ∧ (s.threads u).pid = p ∧
        ((s.after t ins pc').threads u).pc.closes i := by
    intro p hp
    rcases hi.covered i hu p hp with hcov | ⟨u, hua, hup, huc⟩
    · exact .inl ((Slot.covers_same hsame p).mpr hcov)
    · refine .inr ⟨u, hua, hup, ?_⟩
      rw [Sys.after_pc]
      split
      · rename_i hut
        subst hut
        exact hg.closes huc hs
      · exact huc
  cases hr : ins.records with
  | false =>
    rw [creator_plain hr]
    exact ⟨hcreator, fun p hp => hcovered p (hp.plain hr)⟩
  | true =>
    cases ins with
    | takeSlot j =>
      obtain ⟨_, _, _, hf, _⟩ := hg.takeSlot
      have hij : ¬ j = i := by
        rintro rfl
        rw [(Region.freeSlot_spec hf).2] at hu
        cases hu
      refine ⟨fun hp => ?_, fun p hp => hcovered p ⟨?_, hp.2⟩⟩
      · simpa [creator, hij] using hcreator hp
      · simpa [retained, hij] using hp.1
    | hold add j =>
      obtain ⟨hd, ws, hpc, rfl, _⟩ := hg.marks
      refine ⟨fun hp => by simpa [creator] using hcreator hp, fun p hp => ?_⟩
      have hp' := hp.1
      simp only [retained] at hp'
      split at hp'
      · rename_i hjp
        -- the retain is recorded once its process is covered
        obtain ⟨rfl, hpp⟩ := hjp
        subst hp'
        have hok := hi.ok t ha
        rw [hpc] at hok
        exact .inl ((Slot.covers_same hsame p).mpr (hok p (.inr hpp.symm)))
      · exact hcovered p ⟨hp', hp.2⟩
    | _ => cases hr

/-- The slot the step stores to. -/
theorem HoldersInv.slot_store (hi : HoldersInv h s) (ha : s.dead (s.threads t).pid = false)
    (ht : tick o s.toShared (s.threads t).pid (s.threads t).calls (s.threads t).pc =
      some (ins, pc')) (ht' : TableInv (s.after t ins pc')) {i : Nat} (hs : ins.stores i = true)
    (hu : ((s.after t ins pc').region.slots i).state = .used) :
    (((s.after t ins pc').region.slots i).pid ≠ 0 →
      creator i (.instr t (s.threads t).pid ins :: h) =
        some ((s.after t ins pc').region.slots i).pid) ∧
    ∀ p, Retains (.instr t (s.threads t).pid ins :: h) s.dead i p →
      ((s.after t ins pc').region.slots i).covers p ∨
      ∃ u, s.dead (s.threads u).pid = false ∧ (s.threads u).pid = p ∧
        ((s.after t ins pc').threads u).pc.closes i := by
  have hg := tick_inv ht
  have hok := hi.ok t ha
  have htab := hi.table.ok t ha
  cases ins with
  | reap j =>
    obtain rfl : j = i := of_decide_eq_true hs
    have hfree : ((s.after t (.reap j) pc').region.slots j).state = .free := by
      show ((s.region.setSlot j fun x => { x with state := .free }).slots j).state = .free
      simp
    rw [hfree] at hu
    cases hu
  | store j w =>
    obtain rfl : j = i := of_decide_eq_true hs
    have hslot : (s.after t (.store j w) pc').region.slots j = w.apply (s.region.slots j) := by
      show (s.region.setSlot j w.apply).slots j = _
      simp
    have hghost : ∀ {i p}, Retains (.instr t (s.threads t).pid (.store j w) :: h) s.dead i p →
        Retains h s.dead i p := fun hp => hp.plain rfl
    rw [creator_plain rfl]
    rw [hslot] at hu ⊢
    -- a store to the holder array changes neither state nor creator
    have harray : w.holds = true → (s.region.slots j).state = .used ∧
        ((w.apply (s.region.slots j)).pid ≠ 0 →
          creator j h = some (w.apply (s.region.slots j)).pid) := by
      intro hw
      rw [SlotWrite.apply_state hw] at hu
      refine ⟨hu, ?_⟩
      cases w with
      | holdersLen | holder => exact hi.creators j hu
      | _ => cases hw
    have hwr := hi.table.writes t
    rcases hg.store with ⟨k, hd, ws, hpc, rfl, rfl⟩ | ⟨hd, ws, hpc, rfl, rfl⟩ |
      ⟨hd, _, _, rfl, _⟩ | ⟨hd, hpc, rfl, rfl, _⟩ | ⟨add, hd, ws, hpc, rfl, rfl⟩ |
      ⟨auto, st, judged, hpc, rfl, _⟩
    · -- the slot is used only after the last store of the publication
      rw [hpc] at hok
      have hpub := ht'.ok t (by rw [Sys.after_dead, Sys.after_pid]; exact ha)
      rw [Sys.after_pc, if_pos rfl] at hpub
      simp only [Pc.TableOk, hslot, Sys.after_pid] at hpub
      have hdone : ws = [] := by
        rcases hpub.last with ⟨he, _⟩ | ⟨hfree, _⟩
        · exact he
        · rw [hu] at hfree
          cases hfree
      subst hdone
      refine ⟨fun _ => ?_, fun p hp => absurd (hghost hp) (hok.2 p)⟩
      rcases hpub.creator with hm | hm
      · cases hm
      · rw [hm]
        exact hok.1
    · rw [hpc] at hok hwr
      obtain ⟨_, hcr⟩ := harray (hwr w (by simp))
      refine ⟨hcr, fun p hp => ?_⟩
      by_cases hpp : p = (s.threads t).pid
      · refine .inr ⟨t, ha, hpp.symm, ?_⟩
        rw [Sys.after_pc, if_pos rfl]
        exact rfl
      · exact .inl (hok.2.now (fun _ hq => hq) p ⟨hghost hp, hpp⟩)
    · cases hu
    · rw [hpc] at htab
      exact absurd (htab.symm.trans hu) (by simp)
    · rw [hpc] at hok hwr
      obtain ⟨_, hcr⟩ := harray (hwr w (by simp))
      refine ⟨hcr, fun p hp => .inl ?_⟩
      cases add
      · exact hok.2.now (fun _ hq => hq) p (hghost hp)
      · exact hok.2.now (fun _ hq => .inl hq) p (hghost hp)
    · have hfree := hi.table.reaped t auto st j judged ha hpc
      exact absurd (hfree.symm.trans hu) (by simp)
  | _ => cases hs

/-- **The invariant is kept by every step.** -/
theorem HoldersInv.step {a : Action T} {l : Label T} (hi : HoldersInv h s)
    (hs : s.step a = some (s', l)) : HoldersInv (l :: h) s' := by
  have htab := hi.table.step hs
  cases Sys.step_inv hs with
  | @call t c ha hout =>
    refine ⟨htab, hi.creators, fun i hu p hp => ?_, fun u hua => ?_⟩
    · rcases hi.covered i hu p hp with hcov | ⟨u, hua, hup, huc⟩
      · exact .inl hcov
      · refine .inr ⟨u, by simpa using hua, by simpa using hup, ?_⟩
        rw [Sys.entered_pc]
        split
        · rename_i hut
          subst hut
          have hlk := Pc.closes_locked huc
          rw [Pc.locked_of_outside hout] at hlk
          cases hlk
        · exact huc
    · rw [Sys.entered_dead, Sys.entered_pid] at hua
      rw [Sys.entered_pc, Sys.entered_pid]
      split
      · exact .of_unlocked (Pc.start_locked c) _ _ _ _
      · exact (hi.ok u hua).same (fun _ => .refl _) (fun _ => rfl) (fun _ _ hp => hp)
  | @tick t o ins pc' ha ht =>
    have hslots : ∀ i, ((s.after t ins pc').region.slots i).state = .used → _ := fun i hu => by
      cases hst : ins.stores i with
      | false => exact hi.slot_same ha ht hst hu
      | true => exact hi.slot_store ha ht htab hst hu
    refine ⟨htab, fun i hu => (hslots i hu).1, fun i hu p hp => ?_, fun u hua => ?_⟩
    · rw [Sys.after_dead] at hp
      rcases (hslots i hu).2 p hp with hcov | ⟨u, hua, hup, huc⟩
      · exact .inl hcov
      · exact .inr ⟨u, by simpa using hua, by simpa using hup, huc⟩
    · rw [Sys.after_dead, Sys.after_pid] at hua
      rw [Sys.after_pc, Sys.after_pid, Sys.after_dead]
      by_cases hut : u = t
      · subst hut
        rw [if_pos rfl]
        exact hi.own ha ht
      · rw [if_neg hut]
        by_cases hlk : (s.threads u).pc.locked = true
        · have hgd := hi.table.lock.others ha ht hut hua hlk
          have hr := Instr.records_of_unguarded hgd
          exact (hi.ok u hua).same (Sys.after_same hgd s t pc') (fun _ => creator_plain hr)
            (fun _ _ hp => hp.plain hr)
        · exact .of_unlocked (by simpa using hlk) _ _ _ _
  | @die pid =>
    -- a death only shrinks the set of living retainers
    have hmono : ∀ i p, Retains (.die pid :: h) (s.died pid).dead i p → Retains h s.dead i p := by
      rintro i p ⟨hp, hd⟩
      rw [Sys.died_dead, Bool.or_eq_false_iff] at hd
      exact ⟨hp, hd.2⟩
    refine ⟨htab, hi.creators, fun i hu p hp => ?_, fun u hua => ?_⟩
    · rcases hi.covered i hu p (hmono i p hp) with hcov | ⟨u, hua, hup, huc⟩
      · exact .inl hcov
      · exact .inr ⟨u, by rw [Sys.died_threads, hup]; exact hp.2, hup, huc⟩
    · rw [Sys.died_dead, Sys.died_threads, Bool.or_eq_false_iff] at hua
      exact (hi.ok u hua.2).same (fun _ => .refl _) (fun _ => rfl) hmono

end HoldersStep

/-! ### What a sweep frees -/

section Reaped

variable [DecidableEq T] {h : List (Label T)} {s : Sys T}

/-- No thread belongs to process 0, so nobody retains on its behalf. -/
structure PidsInv (h : List (Label T)) (s : Sys T) : Prop where
  threads : ∀ t, (s.threads t).pid ≠ 0
  retained : ∀ i p, retained i p h = true → p ≠ 0

/-- **Every step keeps the holders covered.** -/
theorem PidsInv.step {s' : Sys T} {a : Action T} {l : Label T} (hi : PidsInv h s)
    (hs : s.step a = some (s', l)) : PidsInv (l :: h) s' := by
  cases Sys.step_inv hs with
  | @call t c ha hout => exact ⟨fun u => by rw [Sys.entered_pid]; exact hi.threads u, hi.retained⟩
  | @tick t o ins pc' ha ht =>
    refine ⟨fun u => by rw [Sys.after_pid]; exact hi.threads u, fun i p hp => ?_⟩
    cases ins with
    | takeSlot j =>
      simp only [Ntsync.retained] at hp
      split at hp
      · cases hp
      · exact hi.retained i p hp
    | hold add j =>
      simp only [Ntsync.retained] at hp
      split at hp
      · rename_i hjp
        rw [← hjp.2]
        exact hi.threads t
      · exact hi.retained i p hp
    | _ => exact hi.retained i p hp
  | die => exact ⟨hi.threads, hi.retained⟩

omit [DecidableEq T] in
/-- The pids of a candidate that still stands are those of its slot. -/
theorem DeadCand.tracks_mem {c : DeadCand} {sl : Slot} {q : U32} (hq : q ≠ 0)
    (hlen : sl.holdersLen = c.holdersLen) (hhold : sl.holders = c.holders) (ht : sl.tracks q) :
    q ∈ c.pids := by
  obtain ⟨k, hk, rfl⟩ := ht
  rw [Slot.holderCap, hlen] at hk
  refine List.mem_cons_of_mem _ (List.mem_filter.mpr ⟨List.mem_map.mpr ⟨k, ?_, ?_⟩, by simpa using hq⟩)
  · rw [List.mem_take_iff_getElem]
    exact ⟨k.val, by simp only [List.length_finRange]; omega, by simp⟩
  · rw [hhold]

omit [DecidableEq T] in
/-- A reap works under the lock, and is no close. -/
theorem Pc.sweep_reap {pc : Pc} {auto : Bool} {st : SweepSt} {judged : List (DeadCand × Bool)}
    (h : pc.sweep? = some (auto, .reap st judged)) :
    pc.locked = true ∧ ∀ i, ¬ pc.closes i := by
  unfold Pc.sweep? at h
  split at h <;> cases h <;> exact ⟨rfl, fun _ hc => hc⟩

/-- **A sweep never frees an object that somebody alive still holds.** Whatever creates, retains,
    releases, closes, sweeps and deaths came before: whenever a sweep frees a slot, the process
    that created the object in it is dead, and so is every process that has retained the object and
    not released it since. -/
theorem reap_spares_living {pid : T → U32} (hpid : ∀ t, pid t ≠ 0)
    (hr : Run Sys.step (fun _ _ _ => True) (Sys.rest Region.init pid) h s)
    {a : Action T} {s' : Sys T} {t : T} {p : U32} {i : Nat}
    (hs : s.step a = some (s', .instr t p (.reap i))) :
    (∃ c, creator i h = some c ∧ s.dead c = true) ∧
      ∀ q, retained i q h = true → s.dead q = true := by
  have hidle : (Sys.rest Region.init pid).Idle := fun _ => rfl
  have hzero : ∀ i, (Region.init.slots i).pid = 0 := by
    intro i
    show (if i = 0 then _ else Slot.zero : Slot).pid = 0
    split <;> rfl
  have hinv : HoldersInv h s ∧ SweepsInv s ∧ PidsInv h s := by
    refine hr.invariant (I := fun h s => HoldersInv h s ∧ SweepsInv s ∧ PidsInv h s) ?_ ?_
    · exact ⟨.of_init hidle rfl fun i _ => hzero i, .of_idle hidle,
        hpid, fun i p hp => (by cases hp)⟩
    · rintro h s a s' l ⟨h1, h2, h3⟩ hs _
      exact ⟨h1.step hs, h2.step hs, h3.step hs⟩
  obtain ⟨hhold, hsweep, hpids⟩ := hinv
  cases Sys.step_inv hs with
  | @tick t o ins pc' ha ht =>
    obtain ⟨auto, st, c, judged, hsw, hn, rfl, hstands, _⟩ := (tick_inv ht).reap
    obtain ⟨hreal, hdead⟩ := (hsweep t auto _ hsw).2 (c, false) (by simp)
    simp only [DeadCand.slotStands, Bool.and_eq_true, decide_eq_true_eq] at hstands
    obtain ⟨⟨⟨⟨⟨hu, hpidc⟩, _⟩, hlen⟩, hholders⟩, hover⟩ := hstands
    obtain ⟨hlocked, hnot⟩ := Pc.sweep_reap hsw
    refine ⟨⟨c.pid, ?_, ?_⟩, fun q hq => ?_⟩
    · rw [← hpidc]
      exact hhold.creators c.index hu (by rw [hpidc]; exact hreal hn)
    · exact (hdead rfl c.pid (by simp [DeadCand.pids])).resolve_left (hreal hn)
    · by_contra hlive
      have hcov := hhold.covered_now ha hlocked hu (hnot c.index) q ⟨hq, by simpa using hlive⟩
      rcases hcov with ho | htr
      · exact ho hover
      · have hq0 := hpids.retained c.index q hq
        have hmem := DeadCand.tracks_mem hq0 hlen hholders htr
        exact hlive ((hdead rfl q hmem).resolve_left hq0)

end Reaped

/-- Process 7 creates a semaphore, process 8 retains it, both die, and process 9 sweeps. -/
def orphaned : List (Action (Fin 3)) :=
  .call 0 (.create (.sem 1 1)) :: List.replicate 18 (.tick 0 {}) ++
  .call 1 (.hold true 1) :: List.replicate 7 (.tick 1 {}) ++
  [.die 7, .die 8, .call 2 .sweepDead] ++ List.replicate 5 (.tick 2 {})

def orphanedPid (t : Fin 3) : U32 := 7 + BitVec.ofNat 32 t.val

/-- The label of a reap of slot 1. -/
def Label.reapsOne : Label T → Bool
  | .instr _ _ (.reap 1) => true
  | _ => false

/-- A slot is reaped when its creator and its holder are dead. -/
theorem reap_spares_living_orphaned :
    ∃ h s, Run Sys.step (fun _ _ _ => True) (Sys.rest Region.init orphanedPid) h s ∧
      (s.step (.tick 2 {})).any (fun x => x.2.reapsOne) = true ∧
      retained 1 8 h = true ∧ s.dead 8 = true := by
  obtain ⟨h, s, hr, hreap, hret⟩ := exists_history_of_exec Sys.step
    (fun _ _ _ => True) (Sys.rest Region.init orphanedPid)
    (P := fun h s => (s.step (.tick 2 {})).any (fun x => x.2.reapsOne) = true ∧
      retained 1 8 h = true) orphaned (by decide +kernel)
  refine ⟨h, s, hr, hreap, hret, ?_⟩
  rw [Option.any_eq_true] at hreap
  obtain ⟨⟨s', l⟩, hs, hl⟩ := hreap
  unfold Label.reapsOne at hl
  split at hl
  · rename_i heq
    have heq' : l = _ := heq
    subst heq'
    exact (reap_spares_living (by decide) hr hs).2 8 hret
  · cases hl

end Ntsync
