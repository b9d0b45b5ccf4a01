import Mathlib
import Ntsync.Ring

namespace Ntsync

open Words Lts

/-!
# Handles

A handle packs the low 18 bits of a slot's generation above the slot's index; `Region::slot`
compares them with the whole stored generation, which every close and every reap increments right
after it has marked the slot free.

* `GenerationInv` — the generation counts the increments, in every run;
* `FreedInv` — these are the frees, in every run in which nobody dies between the two stores;
* `handle_resolves_iff` — a handle that `create_*` hands out resolves until its object is freed iff
  the generation fits the handle;
* `handle_stays_dead` — a handle whose object has been freed never resolves again, as long as the
  32-bit generation does not wrap.
-/

variable {T : Type}

/-! ### The generation counts its increments -/

/-- The step bumps the generation of slot `i`, as each close and each reap of it does. -/
def Label.bumps (i : Nat) : Label T → Bool
  | .instr _ _ (.store j (.generation _)) => decide (j = i)
  | _ => false

/-- How often the generation of slot `i` was bumped. -/
def bumped (i : Nat) (h : List (Label T)) : Nat := h.countP (Label.bumps i)

/-- One more step bumps the generation at most once. -/
theorem bumped_cons (i : Nat) (l : Label T) (h : List (Label T)) :
    bumped i (l :: h) = bumped i h + if l.bumps i then 1 else 0 := by
  unfold bumped
  rw [List.countP_cons]

/-- The generation of every slot counts its increments. -/
structure GenerationInv (h : List (Label T)) (s : Sys T) : Prop where
  table : TableInv s
  counts : ∀ i, (s.region.slots i).generation = BitVec.ofNat 32 (bumped i h)

/-- At rest with all generations 0, they count the bumps of the empty history. -/
theorem GenerationInv.init {s : Sys T} (hidle : s.Idle) (hlock : s.lock = none)
    (hg : ∀ i, (s.region.slots i).generation = 0) : GenerationInv [] s :=
  ⟨.of_idle hidle hlock, hg⟩

section Generations

variable [DecidableEq T] {h : List (Label T)} {s s' : Sys T} {a : Action T} {l : Label T}

omit [DecidableEq T] in
/-- A store to a slot leaves its generation alone or bumps it. -/
theorem TableInv.store_generation (hi : TableInv s) {t : T} {o : Oracle} {i : Nat} {w : SlotWrite}
    {pc' : Pc} (ha : s.dead (s.threads t).pid = false)
    (hg : PcGo s.toShared (s.threads t).pid o (s.threads t).pc (.store i w) pc') :
    (∀ v, w ≠ .generation v) ∨ w = .generation ((s.region.slots i).generation + 1) := by
  have hwr := hi.writes t
  have hok := hi.ok t ha
  have harray : ∀ w : SlotWrite, w.holds = true → ∀ v, w ≠ .generation v := by
    rintro w hw v rfl
    cases hw
  rcases hg.store with ⟨k, hd, ws, hpc, rfl, _⟩ | ⟨hd, ws, hpc, rfl, _⟩ | ⟨hd, _, _, rfl, _⟩ |
    ⟨hd, _, _, hw, _⟩ | ⟨add, hd, ws, hpc, rfl, _⟩ | ⟨auto, st, judged, _, hw, _⟩
  · rw [hpc] at hok
    refine .inl ?_
    rintro v rfl
    exact hok.only (.generation v) (by simp)
  · rw [hpc] at hwr
    exact .inl (harray w (hwr w (by simp)))
  · exact .inl fun v he => (by cases he)
  · exact .inr hw
  · rw [hpc] at hwr
    exact .inl (harray w (hwr w (by simp)))
  · exact .inr hw

/-- **The generations go on counting the bumps.** -/
theorem GenerationInv.step (hi : GenerationInv h s) (hs : s.step a = some (s', l)) :
    GenerationInv (l :: h) s' := by
  refine ⟨hi.table.step hs, fun i => ?_⟩
  cases Sys.step_inv hs with
  | call => exact hi.counts i
  | die => exact hi.counts i
  | @tick t o ins pc' ha ht =>
    have hg := tick_inv ht
    obtain ⟨hd, hr⟩ := Instr.apply_slot t (s.threads t).pid s.toShared ins i
    have hr' : (s.after t ins pc').region.slots i =
      { ins.slotAfter i (s.region.slots i) with waiterHead := hd } := hr
    rw [hr']
    show (ins.slotAfter i (s.region.slots i)).generation = _
    unfold bumped at *
    rw [List.countP_cons]
    have hold := hi.counts i
    unfold bumped at hold
    cases ins with
    | store j w =>
      by_cases hij : i = j
      · subst hij
        simp only [Instr.slotAfter, if_true]
        rcases hi.table.store_generation ha hg with hne | rfl
        · cases w with
          | generation v => exact absurd rfl (hne v)
          | _ => exact hold
        · show (s.region.slots i).generation + 1 = _
          simp only [Label.bumps, decide_true, if_true, hold, BitVec.ofNat_add]
          rfl
      · have hb : (Label.instr t (s.threads t).pid (.store j w)).bumps i = false := by
          cases w <;> first | rfl | exact decide_eq_false fun e => hij e.symm
        simp only [Instr.slotAfter, if_neg hij, hb]
        exact hold
    | word hd' j tag new | storeD j v | reap j =>
      simp only [Instr.slotAfter]
      split <;> exact hold
    | _ => exact hold

/-- The invariant of every run from the initial table. -/
theorem GenerationInv.of_run {pid : T → U32} (hr : Run Sys.step (fun _ _ _ => True)
    (Sys.rest Region.init pid) h s) : GenerationInv h s := by
  have hzero : ∀ i, (Region.init.slots i).generation = 0 := by
    intro i
    show (if i = 0 then _ else Slot.zero : Slot).generation = 0
    split <;> rfl
  exact hr.invariant (I := GenerationInv) (.init (fun _ => rfl) rfl hzero)
    (fun _ _ _ _ _ hi hs _ => hi.step hs)

end Generations

/-! ### Frees and increments -/

/-- How often slot `i` was freed by a close or a reap. -/
def freed (i : Nat) (h : List (Label T)) : Nat := (h.filterMap Label.frees).count i

/-- The slot that the call has marked free and whose generation it has not bumped yet. -/
def Pc.unbumped? : Pc → Option Nat
  | .close h .gen => some (handleIndex h)
  | pc =>
    match pc.sweep? with
    | some (_, .reapGen _ i _) => some i
    | _ => none

/-- Nobody dies between marking a slot free and bumping its generation. -/
def FreesWhole (s : Sys T) : Label T → Prop
  | .die p => ∀ t, (s.threads t).pid = p → s.dead p = false → (s.threads t).pc.unbumped? = none
  | _ => True

instance [Fintype T] (s : Sys T) : (l : Label T) → Decidable (FreesWhole s l)
  | .die p => inferInstanceAs (Decidable (∀ t, (s.threads t).pid = p → s.dead p = false →
      (s.threads t).pc.unbumped? = none))
  | .call _ _ | .instr _ _ _ => inferInstanceAs (Decidable True)

/-- The frees of two histories add up. -/
theorem freed_append (i : Nat) (h₁ h₂ : List (Label T)) :
    freed i (h₂ ++ h₁) = freed i h₂ + freed i h₁ := by
  unfold freed
  rw [List.filterMap_append, List.count_append]

/-- A step that frees nothing leaves the number of frees. -/
theorem freed_cons_none {i : Nat} {l : Label T} (h : List (Label T)) (hl : l.frees = none) :
    freed i (l :: h) = freed i h := by
  unfold freed
  rw [List.filterMap_cons_none hl]

/-- A step that frees a slot is counted for that slot. -/
theorem freed_cons_some {i j : Nat} {l : Label T} (h : List (Label T)) (hl : l.frees = some j) :
    freed i (l :: h) = freed i h + if j = i then 1 else 0 := by
  unfold freed
  rw [List.filterMap_cons_some hl, List.count_cons]
  simp only [beq_iff_eq]

/-- A run whose steps free nothing. -/
theorem freed_of_steady {step : Sys T → Action T → Option (Sys T × Label T)} {s s' : Sys T}
    {h : List (Label T)} (hr : Run step (fun _ l _ => Steady l) s h s') (i : Nat) :
    freed i h = 0 :=
  hr.invariant (I := fun h _ => freed i h = 0) rfl
    (fun h _ _ _ _ hi _ hl => (freed_cons_none h hl.1).trans hi)

section Freeing

variable {o : Oracle} {sh : Shared T} {pid : U32} {ins : Instr} {pc pc' : Pc} {i : Nat}

/-- A slot that is free with its old generation is one that a close or a reap is at. -/
theorem Pc.unbumped_cases (h : pc.unbumped? = some i) :
    (∃ hd, pc = .close hd .gen ∧ i = handleIndex hd) ∨
      ∃ auto st judged, pc.sweep? = some (auto, .reapGen st i judged) := by
  unfold Pc.unbumped? at h
  split at h
  · cases h
    exact .inl ⟨_, rfl, rfl⟩
  · split at h
    · cases h
      exact .inr ⟨_, _, _, by assumption⟩
    · cases h

/-- A reap between its two stores has a slot with its old generation. -/
theorem Pc.unbumped_of_reapGen {auto : Bool} {st : SweepSt} {judged : List (DeadCand × Bool)}
    (h : pc.sweep? = some (auto, .reapGen st i judged)) : pc.unbumped? = some i := by
  unfold Pc.unbumped?
  split
  · cases h
  · rw [h]

/-- The generation store is made under the lock. -/
theorem Pc.locked_of_unbumped (h : pc.unbumped? = some i) : pc.locked = true := by
  rcases Pc.unbumped_cases h with ⟨hd, rfl, _⟩ | ⟨_, _, _, hsw⟩
  · rfl
  · exact Pc.locked_of_reapGen hsw

/-- Outside of all calls every free has been bumped. -/
theorem Pc.unbumped_of_outside (h : pc.outside = true) : pc.unbumped? = none := by
  rcases Pc.outside_cases h with rfl | ⟨c, r, rfl⟩ <;> rfl

/-- A call starts with no free of its own. -/
theorem Pc.start_unbumped (c : Call) : (Pc.start c).unbumped? = none := by
  cases h : (Pc.start c).unbumped? with
  | none => rfl
  | some i =>
    have hlk := Pc.locked_of_unbumped h
    rw [Pc.start_locked] at hlk
    cases hlk

/-- The increment is the next step. -/
theorem PcGo.unbumped_next (hg : PcGo sh pid o pc ins pc') (h : pc.unbumped? = some i) :
    ins = .store i (.generation ((sh.region.slots i).generation + 1)) ∧ pc'.unbumped? = none := by
  rcases Pc.unbumped_cases h with ⟨hd, rfl, rfl⟩ | ⟨auto, st, judged, hsw⟩
  · cases hg with
    | close hg =>
      cases hg
      exact ⟨rfl, rfl⟩
  · obtain ⟨q, hq, hf⟩ := hg.sweep hsw
    cases hq
    refine ⟨rfl, ?_⟩
    have hf' : pc'.sweep? = _ := hf
    cases hu : pc'.unbumped? with
    | none => rfl
    | some j =>
      rcases Pc.unbumped_cases hu with ⟨hd, rfl, _⟩ | ⟨_, _, _, hsw'⟩
      · cases hf'
      · rw [hf'] at hsw'
        cases hsw'

/-- Marking the slot free is the step before. -/
theorem PcGo.unbumped_now (hg : PcGo sh pid o pc ins pc') (h : pc'.unbumped? = some i) :
    ins.freesSlot? = some i := by
  rcases Pc.unbumped_cases h with ⟨hd, rfl, rfl⟩ | ⟨auto, st, judged, hsw⟩
  · cases hg with
    | close hg =>
      cases hg
      rfl
    | wait hg => rcases hg.args with ha | ha <;> cases ha
    | op hg => cases hg
    | pulse hg => cases hg
    | create hg => cases hg
    | hold hg => cases hg
    | sweepDead hg => cases hg
  · rw [hg.reapGen hsw]
    rfl

/-- How a step of a live thread treats the generations: it bumps the one of the slot that it has
    marked free, it marks a slot free, or it does neither. -/
inductive FreeGo (r : Region) (pc : Pc) (ins : Instr) (pc' : Pc) : Prop
  | bump (i : Nat) : pc.unbumped? = some i → pc'.unbumped? = none →
      ins = .store i (.generation ((r.slots i).generation + 1)) → FreeGo r pc ins pc'
  | free (i : Nat) : pc.unbumped? = none → pc'.unbumped? = some i → ins.freesSlot? = some i →
      FreeGo r pc ins pc'
  | other : pc.unbumped? = none → pc'.unbumped? = none → ins.freesSlot? = none →
      (∀ i v, ins ≠ .store i (.generation v)) → FreeGo r pc ins pc'

/-- **Frees and increments come in pairs.** -/
theorem TableInv.freeing {s : Sys T} {t : T} (hi : TableInv s)
    (ha : s.dead (s.threads t).pid = false)
    (hg : PcGo s.toShared (s.threads t).pid o (s.threads t).pc ins pc') :
    FreeGo s.region (s.threads t).pc ins pc' := by
  cases hu : (s.threads t).pc.unbumped? with
  | some i =>
    obtain ⟨hins, hu'⟩ := hg.unbumped_next hu
    exact .bump i hu hu' hins
  | none =>
    cases hu' : pc'.unbumped? with
    | some i => exact .free i hu hu' (hg.unbumped_now hu')
    | none =>
      have hok := hi.ok t ha
      have hwr := hi.writes t
      -- the stores of the other calls are to fields of their own
      have hstore : ∀ i w, ins = .store i w → w ≠ .state .free ∧ ∀ v, w ≠ .generation v := by
        rintro i w rfl
        have harray : w.holds = true → w ≠ .state .free ∧ ∀ v, w ≠ .generation v := by
          intro hw
          cases w <;> first | (cases hw; done) | exact ⟨fun e => (by cases e), fun v e => (by cases e)⟩
        rcases hg.store with ⟨k, hd, ws, hpc, _⟩ | ⟨hd, ws, hpc, _⟩ | ⟨hd, _, _, _, rfl⟩ |
          ⟨hd, hpc, _⟩ | ⟨add, hd, ws, hpc, _⟩ | ⟨auto, st, judged, hsw, _⟩
        · rw [hpc] at hok
          refine ⟨?_, ?_⟩
          · rintro rfl
            cases show SlotState.free = .used from hok.only _ (List.mem_cons_self ..)
          · rintro v rfl
            exact hok.only (.generation v) (List.mem_cons_self ..)
        · rw [hpc] at hwr
          exact harray (hwr w (List.mem_cons_self ..))
        · cases hu'
        · rw [hpc] at hu
          cases hu
        · rw [hpc] at hwr
          exact harray (hwr w (List.mem_cons_self ..))
        · rw [Pc.unbumped_of_reapGen hsw] at hu
          cases hu
      refine .other hu hu' ?_ fun i v he => (hstore i _ he).2 v rfl
      cases ins with
      | store i w =>
        cases w with
        | state v =>
          cases v with
          | free => exact absurd rfl (hstore i _ rfl).1
          | used => rfl
        | _ => rfl
      | reap i =>
        obtain ⟨_, _, _, _, _, _, _, _, hsw⟩ := hg.reap
        rw [Pc.unbumped_of_reapGen hsw] at hu'
        cases hu'
      | _ => rfl

end Freeing

/-- A live thread has marked slot `i` free and not bumped its generation yet. -/
def Sys.Unbumped (s : Sys T) (i : Nat) : Prop :=
  ∃ t, s.dead (s.threads t).pid = false ∧ (s.threads t).pc.unbumped? = some i

/-- Every free has its increment, but for the one whose increment is the lock holder's next step. -/
structure FreedInv (h : List (Label T)) (s : Sys T) : Prop where
  settled : ∀ i, ¬ s.Unbumped i → freed i h = bumped i h
  due : ∀ i, s.Unbumped i → freed i h = bumped i h + 1

section FreedStep

variable [DecidableEq T] {h : List (Label T)} {s s' : Sys T} {a : Action T} {l : Label T} {t : T}
  {o : Oracle} {ins : Instr} {pc' : Pc} {i : Nat}

omit [DecidableEq T] in
/-- At rest nobody is between the two stores. -/
theorem FreedInv.of_idle (hidle : s.Idle) : FreedInv [] s := by
  refine ⟨fun _ _ => rfl, fun i hu => ?_⟩
  obtain ⟨t, _, hu⟩ := hu
  rw [Pc.unbumped_of_outside (hidle t)] at hu
  cases hu

omit [DecidableEq T] in
/-- A step that frees nothing and bumps nothing. -/
theorem FreedInv.same (hi : FreedInv h s) (hf : l.frees = none) (hb : ∀ i, l.bumps i = false)
    (hiff : ∀ i, s'.Unbumped i ↔ s.Unbumped i) : FreedInv (l :: h) s' := by
  have hcount : ∀ i, freed i (l :: h) = freed i h ∧ bumped i (l :: h) = bumped i h := fun i =>
    ⟨freed_cons_none h hf, by rw [bumped_cons, hb]; rfl⟩
  refine ⟨fun i hu => ?_, fun i hu => ?_⟩
  · rw [(hcount i).1, (hcount i).2]
    exact hi.settled i fun hu' => hu ((hiff i).mpr hu')
  · rw [(hcount i).1, (hcount i).2]
    exact hi.due i ((hiff i).mp hu)

omit [DecidableEq T] in
/-- Whoever has an increment to make holds the lock, so a guarded step is its own. -/
theorem TableInv.unbumped_alone (hi : TableInv s) (ha : s.dead (s.threads t).pid = false)
    (ht : tick o s.toShared (s.threads t).pid (s.threads t).calls (s.threads t).pc =
      some (ins, pc'))
    (hguard : ins.guarded = true) (i : Nat) :
    s.Unbumped i ↔ (s.threads t).pc.unbumped? = some i := by
  constructor
  · rintro ⟨u, hua, hu⟩
    obtain rfl : u = t := hi.lock.unique (Pc.locked_of_unbumped hu) hua (tick_locked ht hguard) ha
    exact hu
  · exact fun hu => ⟨t, ha, hu⟩

/-- What a guarded step leaves to be bumped. -/
theorem TableInv.unbumped_after (hi : TableInv s) (ha : s.dead (s.threads t).pid = false)
    (ht : tick o s.toShared (s.threads t).pid (s.threads t).calls (s.threads t).pc =
      some (ins, pc'))
    (hguard : ins.guarded = true) (i : Nat) :
    (s.after t ins pc').Unbumped i ↔ pc'.unbumped? = some i := by
  constructor
  · rintro ⟨u, hua, hu⟩
    rw [Sys.after_dead, Sys.after_pid] at hua
    rw [Sys.after_pc] at hu
    split at hu
    · exact hu
    · rename_i hut
      exact absurd (hi.lock.unique (Pc.locked_of_unbumped hu) hua (tick_locked ht hguard) ha) hut
  · intro hu
    refine ⟨t, by rw [Sys.after_dead, Sys.after_pid]; exact ha, ?_⟩
    rw [Sys.after_pc, if_pos rfl]
    exact hu

/-- A step of a live thread. -/
theorem FreedInv.tick (hi : FreedInv h s) (htab : TableInv s)
    (ha : s.dead (s.threads t).pid = false)
    (ht : tick o s.toShared (s.threads t).pid (s.threads t).calls (s.threads t).pc =
      some (ins, pc')) :
    FreedInv (.instr t (s.threads t).pid ins :: h) (s.after t ins pc') := by
  cases htab.freeing ha (tick_inv ht) with
  | bump i hu hu' hins =>
    subst hins
    -- the generation store that was due is counted
    have hb : ∀ j, bumped j (.instr t (s.threads t).pid (.store i (.generation
        ((s.region.slots i).generation + 1))) :: h) = bumped j h + if i = j then 1 else 0 := by
      intro j
      rw [bumped_cons]
      simp only [Label.bumps, decide_eq_true_eq]
    refine ⟨fun j _ => ?_, fun j hj => ?_⟩
    · rw [freed_cons_none h rfl, hb]
      by_cases hij : i = j
      · subst hij
        rw [if_pos rfl]
        exact hi.due i ⟨t, ha, hu⟩
      · rw [if_neg hij]
        -- under the lock nobody else owes one
        refine hi.settled j fun hj => hij ?_
        rw [htab.unbumped_alone ha ht rfl, hu] at hj
        exact Option.some.inj hj
    · rw [htab.unbumped_after ha ht rfl, hu'] at hj
      cases hj
  | free i hu hu' hins =>
    have hf : (Label.instr t (s.threads t).pid ins).frees = some i := hins
    have hguard : ins.guarded = true := by
      cases ins with
      | store | reap => rfl
      | _ => cases hins
    -- a free moves no generation
    have hb : ∀ j, bumped j (.instr t (s.threads t).pid ins :: h) = bumped j h := by
      intro j
      rw [bumped_cons]
      cases ins with
      | store k w =>
        cases w with
        | generation v => cases hins
        | _ => rfl
      | _ => rfl
    have hnone : ∀ j, ¬ s.Unbumped j := by
      intro j hj
      rw [htab.unbumped_alone ha ht hguard, hu] at hj
      cases hj
    -- from now on one generation store is due, for this slot
    refine ⟨fun j hj => ?_, fun j hj => ?_⟩
    · rw [htab.unbumped_after ha ht hguard, hu'] at hj
      rw [freed_cons_some h hf, hb, if_neg fun hij => hj (congrArg some hij)]
      exact hi.settled j (hnone j)
    · rw [htab.unbumped_after ha ht hguard, hu'] at hj
      rw [freed_cons_some h hf, hb, if_pos (Option.some.inj hj)]
      exact congrArg (· + 1) (hi.settled j (hnone j))
  | other hu hu' hins hne =>
    refine hi.same hins (fun j => ?_) fun j => ?_
    · cases ins with
      | store k w =>
        cases w with
        | generation v => exact absurd rfl (hne k v)
        | _ => rfl
      | _ => rfl
    · refine exists_congr fun u => ?_
      rw [Sys.after_dead, Sys.after_pid, Sys.after_pc]
      split
      · rename_i hut
        rw [hut, hu, hu']
      · rfl

/-- **Frees and increments are counted alike**, in every step that does not kill a process between
    the two. -/
theorem FreedInv.step (hi : FreedInv h s) (htab : TableInv s) (hs : s.step a = some (s', l))
    (hok : FreesWhole s l) : FreedInv (l :: h) s' := by
  cases Sys.step_inv hs with
  | @call t c ha hout =>
    refine hi.same rfl (fun _ => rfl) fun i => exists_congr fun u => ?_
    rw [Sys.entered_dead, Sys.entered_pid, Sys.entered_pc]
    split
    · rename_i hut
      rw [hut, Pc.start_unbumped, Pc.unbumped_of_outside hout]
    · rfl
  | @tick t o ins pc' ha ht => exact hi.tick htab ha ht
  | @die p =>
    refine hi.same rfl (fun _ => rfl) fun i => exists_congr fun u => ?_
    rw [Sys.died_dead, Sys.died_threads, Bool.or_eq_false_iff, decide_eq_false_iff_not]
    refine ⟨fun hu => ⟨hu.1.2, hu.2⟩, fun hu => ⟨⟨fun hp => ?_, hu.1⟩, hu.2⟩⟩
    have hnone := hok u hp (hp ▸ hu.1)
    rw [hu.2] at hnone
    cases hnone

/-- The invariant of every run from the initial table. -/
theorem FreedInv.of_run {pid : T → U32} (hr : Run Sys.step (fun s l _ => FreesWhole s l)
    (Sys.rest Region.init pid) h s) : FreedInv h s ∧ TableInv s :=
  hr.invariant (I := fun h s => FreedInv h s ∧ TableInv s)
    ⟨.of_idle fun _ => rfl, .of_idle (fun _ => rfl) rfl⟩
    (fun _ _ _ _ _ hi hs hok => ⟨hi.1.step hi.2 hs hok, hi.2.step hs⟩)

omit [DecidableEq T] in
/-- A slot in use has no increment outstanding. -/
theorem FreedInv.of_used (hi : FreedInv h s) (htab : TableInv s) {i : Nat}
    (hu : (s.region.slots i).state = .used) : freed i h = bumped i h := by
  refine hi.settled i fun hun => ?_
  obtain ⟨t, ha, hun⟩ := hun
  have hfree : (s.region.slots i).state = .free := by
    rcases Pc.unbumped_cases hun with ⟨hd, hpc, rfl⟩ | ⟨auto, st, judged, hsw⟩
    · have hok := htab.ok t ha
      rw [hpc] at hok
      exact hok
    · exact htab.reaped t auto st i judged ha hsw
  rw [hu] at hfree
  cases hfree

end FreedStep

/-! ### Handles that are handed out -/

section HandedOut

variable [DecidableEq T] {s₀ s₁ s₂ : Sys T} {h₁ h₂ : List (Label T)} {t : T} {k : Create} {hd : U32}

omit [DecidableEq T] in
/-- What a `create_*` about to return has made of its slot, which nobody else is working on. -/
theorem TableInv.kept (hi : TableInv s₁) (ha : s₁.dead (s₁.threads t).pid = false)
    (hpc : (s₁.threads t).pc = .create k (.unlock (.ok hd))) :
    hd = mkHandle (s₁.region.slots (handleIndex hd)).generation (handleIndex hd) ∧
      KeptInv (handleIndex hd) (s₁.region.slots (handleIndex hd)).generation k.objType s₁ := by
  have hok := hi.ok t ha
  rw [hpc] at hok
  have hu : (s₁.region.slots (handleIndex hd)).state = .used := by
    rcases hok.last with ⟨_, hu⟩ | ⟨_, ws', he, _⟩
    · exact hu
    · exact absurd he (by simp)
  refine ⟨hok.handle, ⟨hu, rfl, hok.typ.resolve_left (by simp)⟩, fun u hua hov => ?_, hi.writes⟩
  -- whoever overwrites a slot is inside a critical section
  have hlk : (s₁.threads u).pc.locked = true := by
    unfold Pc.overwrites at hov
    split at hov
    · rename_i heq
      rw [heq]
      rfl
    · rename_i heq
      rw [heq]
      rfl
    · obtain ⟨auto, st, judged, hsw⟩ := hov
      exact Pc.locked_of_reapGen hsw
  have hut : u = t := hi.lock.unique hlk hua (by rw [hpc]; rfl) ha
  subst hut
  rw [hpc] at hov
  simp [Pc.overwrites, Pc.sweep?] at hov

/-- **Which handles work.** A handle that a `create_*` is about to return resolves, with the type it
    was created with, for as long as nobody frees its slot, iff the slot's stored generation fits
    the 18 bits the handle has for it. -/
theorem handle_resolves_iff (hidle : s₀.Idle) (hlock : s₀.lock = none)
    (hr : Run Sys.step (fun _ _ _ => True) s₀ h₁ s₁) (ha : s₁.dead (s₁.threads t).pid = false)
    (hpc : (s₁.threads t).pc = .create k (.unlock (.ok hd))) :
    (∀ h₂ s₂, Run Sys.step (fun _ _ s' => Stays (handleIndex hd) s') s₁ h₂ s₂ →
      s₂.region.slot hd = some (handleIndex hd) ∧
        (s₂.region.slots (handleIndex hd)).objType = k.objType) ↔
    (s₁.region.slots (handleIndex hd)).generation.toNat < 2 ^ 18 := by
  have htab : TableInv s₁ := hr.state_invariant (.of_idle hidle hlock)
    (fun s a s' l hi hs _ => hi.step hs)
  obtain ⟨hhd, hkept⟩ := htab.kept ha hpc
  have hlt := handleIndex_lt hd
  constructor
  · intro hall
    have hres := (hall [] s₁ .nil).1
    rw [hhd, handleIndex_mkHandle _ hlt] at hres
    exact (Region.slot_mkHandle hlt hkept.holds.used rfl).mp hres
  · intro hfit h₂ s₂ hr₂
    have hkept₂ : KeptInv (handleIndex hd) (s₁.region.slots (handleIndex hd)).generation
        k.objType s₂ :=
      hr₂.state_invariant (I := KeptInv _ _ _) hkept (fun s a s' l hi hs hst => hi.step hs hst)
    refine ⟨?_, hkept₂.holds.typ⟩
    have hres := (Region.slot_mkHandle hlt hkept₂.holds.used hkept₂.holds.gen).mpr hfit
    rw [← hhd] at hres
    exact hres

end HandedOut

/-- A `create_*` of an event up to its last step. -/
def createEvent : List (Action (Fin 1)) :=
  .call 0 (.create (.event true false)) :: List.replicate 17 (.tick 0 {})

/-- The thread is about to return handle 1 of a created event. -/
def Pc.returnsOne : Pc → Bool
  | .create (.event true false) (.unlock (.ok 1)) => true
  | _ => false

/-- What the thread is at, from the test for it. -/
theorem Pc.eq_of_returnsOne {pc : Pc} (h : pc.returnsOne = true) :
    pc = .create (.event true false) (.unlock (.ok 1)) := by
  unfold Pc.returnsOne at h
  split at h
  · rfl
  · cases h

abbrev createdEvent : Sys (Fin 1) × List (Label (Fin 1)) :=
  reach Sys.step (fun s l _ => FreesWhole s l) (Sys.rest Region.init fun _ => 7) createEvent

/-- The create is a run in which nobody dies. -/
theorem createdEvent_run : Run Sys.step (fun s l _ => FreesWhole s l)
    (Sys.rest Region.init fun _ => 7) createdEvent.2 createdEvent.1 :=
  run_reach (by decide +kernel)

/-- The first handle of a fresh region resolves as long as its slot stays in use. -/
theorem handle_resolves_iff_one :
    (createdEvent.1.region.slots 1).generation.toNat < 2 ^ 18 ∧
    ∀ h₂ s₂, Run Sys.step (fun _ _ s' => Stays (handleIndex 1) s') createdEvent.1 h₂ s₂ →
      s₂.region.slot 1 = some 1 ∧ (s₂.region.slots 1).objType = .event :=
  ⟨by decide +kernel,
    (handle_resolves_iff (t := 0) (fun _ => rfl) rfl
      (createdEvent_run.mono fun _ _ _ _ => trivial) (by decide +kernel)
      (Pc.eq_of_returnsOne (by decide +kernel))).mpr (by decide +kernel)⟩

/-- **A handle dead on arrival.** After `2 ^ 18` rounds of creates and closes the next create
    returns a handle that does not resolve, though nothing was freed since. -/
theorem handle_dead_on_arrival :
    ∃ (h : List (Label (Fin 1))) (s : Sys (Fin 1)) (k : Create) (hd : U32),
      Run Sys.step (fun _ _ _ => True) (Sys.rest Region.init fun _ => 7) h s ∧
      (s.threads 0).pc = .create k (.unlock (.ok hd)) ∧ s.dead (s.threads 0).pid = false ∧
      s.region.slot hd = none := by
  set s₀ : Sys (Fin 1) := Sys.rest Region.init fun _ => 7 with hs₀
  have hself : s₀.put 0 s₀.toShared .idle = s₀ := s₀.put_self 0
  obtain ⟨h₁, sh, pc, hr₁, hring, hl, hd, ho⟩ :=
    Ring.cycles (t := (0 : Fin 1)) (s := s₀) (m := 2 ^ 18 * ringSize)
      (show Ring 0 s₀.toShared.region from Ring.init) rfl rfl
      (show Pc.idle.outside = true from rfl) (by omega)
  rw [hself, Nat.zero_add] at *
  have ha : sh.dead (s₀.threads 0).pid = false := by rw [hd]; rfl
  obtain ⟨h₂, hr₂⟩ := Sys.made_run (s := s₀) (t := 0) (k := .event true false) rfl hring.freeSlot
    hl ha ho
  refine ⟨_, _, _, _, hr₁.trans (hr₂.mono fun _ _ _ _ => trivial), by rw [Sys.put_thread], ha, ?_⟩
  -- the stored generation is `2 ^ 18`
  set i := Ring.next (2 ^ 18 * ringSize) with hi
  obtain ⟨hge, hlt⟩ := Ring.next_lt (2 ^ 18 * ringSize)
  obtain ⟨_, hslot⟩ := sh.region.created_slot i (.event true false) 7
  have hused : ((sh.region.created i (.event true false) 7).slots i).state = .used := by rw [hslot]
  have hgen : ((sh.region.created i (.event true false) 7).slots i).generation =
      (sh.region.slots i).generation := by rw [hslot]
  have hcount : (sh.region.slots i).generation = BitVec.ofNat 32 (2 ^ 18) := by
    have hmod : 2 ^ 18 * ringSize % ringSize = 0 := Nat.mul_mod_left _ _
    rw [(hring.free i hge hlt).2, if_neg (by omega), Nat.mul_div_cancel _ (by decide)]
  by_contra hne
  obtain ⟨j, hj⟩ := Option.ne_none_iff_exists'.mp hne
  have hidx := (Region.slot_eq_some.mp hj).1
  rw [handleIndex_mkHandle _ hlt] at hidx
  subst hidx
  have hfit := (Region.slot_mkHandle hlt hused hgen).mp hj
  rw [hcount] at hfit
  revert hfit
  decide

section Stale

variable [DecidableEq T] {s₁ s₂ : Sys T} {h₁ h₂ : List (Label T)} {t : T} {k : Create} {hd : U32}

/-- **Stale handles stay dead.** From the moment the object a handle was returned for has been
    closed or reaped, the handle never resolves again, in any state of any run in which the slot is
    freed fewer than `2 ^ 32` times and nobody dies between marking a slot free and bumping its
    generation; a second close of it finds nothing, returns false and changes nothing. -/
theorem handle_stays_dead {pid : T → U32}
    (hr₁ : Run Sys.step (fun s l _ => FreesWhole s l) (Sys.rest Region.init pid) h₁ s₁)
    (ha : s₁.dead (s₁.threads t).pid = false)
    (hpc : (s₁.threads t).pc = .create k (.unlock (.ok hd)))
    (hr₂ : Run Sys.step (fun s l _ => FreesWhole s l) s₁ h₂ s₂)
    (hfreed : 0 < freed (handleIndex hd) h₂)
    (hwrap : freed (handleIndex hd) (h₂ ++ h₁) < 2 ^ 32) :
    s₂.region.slot hd = none ∧
      ∀ o p calls, tick o s₂.toShared p calls (.close hd .check) =
          some (.silent, .close hd (.unlock false)) ∧
        tick o s₂.toShared p calls (.close hd (.unlock false)) =
          some (.unlock, .done (.close hd) (.bool false)) := by
  have hgen₁ := GenerationInv.of_run (hr₁.mono fun _ _ _ _ => trivial)
  have hgen₂ := GenerationInv.of_run ((hr₁.trans hr₂).mono fun _ _ _ _ => trivial)
  obtain ⟨hfr₁, htab₁⟩ := FreedInv.of_run hr₁
  obtain ⟨hfr₂, htab₂⟩ := FreedInv.of_run (hr₁.trans hr₂)
  have hnone : s₂.region.slot hd = none := by
    by_contra hne
    obtain ⟨j, hj⟩ := Option.ne_none_iff_exists'.mp hne
    obtain ⟨rfl, hused, hgen⟩ := Region.slot_eq_some.mp hj
    -- the generation in the handle is at most the number of frees before the handle was returned
    obtain ⟨hhd, hkept⟩ := htab₁.kept ha hpc
    have hlow : (handleGen hd).toNat ≤ freed (handleIndex hd) h₁ := by
      have hbits := handleGen_mkHandle (s₁.region.slots (handleIndex hd)).generation
        (handleIndex_lt hd)
      rw [← hhd, hgen₁.counts, ← hfr₁.of_used htab₁ hkept.holds.used, BitVec.toNat_ofNat] at hbits
      rw [hbits]
      exact (Nat.mod_le _ _).trans (Nat.mod_le _ _)
    -- and the stored one is the number of frees by now, which is larger
    have hhigh : (handleGen hd).toNat = freed (handleIndex hd) (h₂ ++ h₁) := by
      rw [← hgen, hgen₂.counts, ← hfr₂.of_used htab₂ hused, BitVec.toNat_ofNat,
        Nat.mod_eq_of_lt hwrap]
    rw [freed_append] at hhigh
    omega
  refine ⟨hnone, fun o p calls => ⟨?_, rfl⟩⟩
  simp only [tick, closeTick, hnone]

end Stale

/-- The rest of the create, and a close of the handle. -/
def thenClose : List (Action (Fin 1)) :=
  .tick 0 {} :: .call 0 (.close 1) :: List.replicate 8 (.tick 0 {})

/-- The first handle of a fresh region does not resolve once it has been closed. -/
theorem handle_stays_dead_one :
    ∃ h₂ s₂, Run Sys.step (fun s l _ => FreesWhole s l) createdEvent.1 h₂ s₂ ∧
      s₂.region.slot 1 = none ∧ createdEvent.1.region.slot 1 = some 1 := by
  obtain ⟨h₂, s₂, hr₂, hf, hw⟩ := exists_history_of_exec Sys.step
    (fun s l _ => FreesWhole s l) createdEvent.1
    (P := fun h _ => 0 < freed (handleIndex 1) h ∧
      freed (handleIndex 1) (h ++ createdEvent.2) < 2 ^ 32) thenClose (by decide +kernel)
  have hdead := handle_stays_dead (t := 0) createdEvent_run (by decide +kernel)
    (Pc.eq_of_returnsOne (by decide +kernel)) hr₂ hf hw
  exact ⟨h₂, s₂, hr₂, hdead.1, by decide +kernel⟩

/-! ### A handle that comes back -/

section Torn

variable [DecidableEq T] {s : Sys T} {t : T} {sh : Shared T} {pc : Pc} {hd : U32} {i : Nat}

/-- A close whose process dies between marking the slot free and bumping its generation. -/
theorem Sys.torn_run (hne : handleIndex hd ≠ 0) (hl : sh.lock = none)
    (hs : sh.region.slot hd = some (handleIndex hd))
    (hh : (sh.region.slots (handleIndex hd)).holderRemove (s.threads t).pid = [])
    (ha : sh.dead (s.threads t).pid = false) (ho : pc.outside = true) :
    ∃ hist s', Run Sys.step (fun _ _ _ => True) (s.put t sh pc) hist s' ∧
      (∀ i, freed i hist = if handleIndex hd = i then 1 else 0) ∧
      s'.region = sh.region.setSlot (handleIndex hd) (SlotWrite.state .free).apply ∧
      s'.lock = none ∧ s'.dead = Function.update sh.dead (s.threads t).pid true ∧
      ∀ u, u ≠ t → s'.threads u = s.threads u := by
  have hcall := Sys.put_call (s := s) (t := t) (c := .close hd) ha ho
  rw [show Pc.start (.close hd) = .close hd .lock from if_neg hne] at hcall
  have hfound : AloneBy (fun i => i ≠ .countCall ∧ i.freesSlot? = none) t (s.threads t).pid sh
      (.close hd .lock) { sh with lock := some t } (.close hd .free) :=
    AloneBy.found ⟨by simp, rfl⟩ ⟨by simp, rfl⟩ hl hs hh
  obtain ⟨h₁, hr₁⟩ := hfound.run_steady (s := s) ha
  -- the store, and the death after it
  set shF : Shared T := (Instr.store (handleIndex hd) (.state .free)).apply t (s.threads t).pid
    { sh with lock := some t } with hshF
  have hstore : (s.put t { sh with lock := some t } (.close hd .free)).step (.tick t {}) =
      some (s.put t shF (.close hd .gen),
        .instr t (s.threads t).pid (.store (handleIndex hd) (.state .free))) :=
    Sys.put_step (fun _ => rfl) (by simp) ha
  have hdie : (s.put t shF (.close hd .gen)).step (.die (s.threads t).pid) =
      some ((s.put t shF (.close hd .gen)).died (s.threads t).pid, .die (s.threads t).pid) := rfl
  have hr := hcall.trans (hr₁.mono fun _ _ _ _ => trivial)
  refine ⟨_, _, (hr.snoc hstore trivial).snoc hdie trivial, fun i => ?_, rfl, ?_, rfl,
    fun u hut => ?_⟩
  · rw [freed_cons_none _ rfl, freed_cons_some (j := handleIndex hd) _ rfl, freed_append,
      freed_of_steady hr₁, freed_cons_none _ rfl]
    exact Nat.zero_add _
  · show (if ((s.put t shF (.close hd .gen)).threads t).pid = (s.threads t).pid then none
      else some t) = none
    rw [Sys.put_thread]
    exact if_pos rfl
  · show Function.update s.threads t _ u = _
    rw [Function.update_of_ne hut]

/-- A table filled up to its end, but for slot 1: the scan comes back to slot 1. -/
theorem Filling.around {k : Create} {pid : U32} {r₀ r : Region} {n : Nat}
    (h : Filling k pid r₀ n r) (hn : r₀.cursor + n = slotCount) (hc : 2 ≤ r₀.cursor)
    (hused : (r₀.slots 0).state = .used) (hfree : (r₀.slots 1).state = .free) :
    r.freeSlot = some 1 ∧ r.slots 1 = r₀.slots 1 := by
  have h₀ : r.slots 0 = r₀.slots 0 := h.rest 0 (by omega)
  have h₁ : r.slots 1 = r₀.slots 1 := h.rest 1 (by omega)
  refine ⟨Region.freeSlot_first ?_ (by rw [h₀]; exact hused) (by rw [h₁]; exact hfree), h₁⟩
  rw [h.cursor, hn, Nat.mod_self]

end Torn

/-- A thread of process 7 and one of process 8, on a fresh region. -/
abbrev twoProcesses : Sys (Fin 2) := Sys.rest Region.init fun t => if t = 0 then 7 else 8

/-- **A closed handle comes back.** Process 7 creates an event; process 8 closes it and dies between
    marking the slot free and bumping its generation.  When the cursor has gone around the table, a
    create gets the slot with the old generation and returns the closed handle once more. -/
theorem closed_handle_reissued :
    ∃ (h₁ h₂ : List (Label (Fin 2))) (s₁ s₂ : Sys (Fin 2)) (k : Create) (hd : U32),
      Run Sys.step (fun _ _ _ => True) twoProcesses h₁ s₁ ∧
      s₁.dead (s₁.threads 0).pid = false ∧ (s₁.threads 0).pc = .create k (.unlock (.ok hd)) ∧
      Run Sys.step (fun _ _ _ => True) s₁ h₂ s₂ ∧ 0 < freed (handleIndex hd) h₂ ∧
      (∀ i, freed i (h₂ ++ h₁) < 2 ^ 32) ∧
      (s₂.threads 0).pc = .create k (.unlock (.ok hd)) ∧
      s₂.region.slot hd = some (handleIndex hd) := by
  set k : Create := .event true false with hk
  set R := Region.init.created 1 k 7 with hR
  obtain ⟨hs, hslot⟩ := Region.init.created_slot 1 k 7
  rw [← hR] at hslot
  -- process 7 creates the event
  have hself : twoProcesses.put 0 twoProcesses.toShared .idle = twoProcesses :=
    twoProcesses.put_self 0
  obtain ⟨hA, hrA⟩ := Sys.made_run (s := twoProcesses) (t := 0) (k := k) rfl
    (show twoProcesses.toShared.region.freeSlot = some 1 from Ring.init.freeSlot) rfl rfl
    (show Pc.idle.outside = true from rfl)
  rw [hself] at hrA
  set sA := twoProcesses.put 0 ⟨R, some 0, fun _ => false⟩ (.create k (.unlock (.ok 1))) with hsA
  set sB := twoProcesses.put 0 ⟨R, none, fun _ => false⟩ (.done (.create k) (.handle (.ok 1)))
    with hsB
  have hunlock : sA.step (.tick 0 {}) = some (sB, .instr 0 7 .unlock) := by
    exact Sys.put_step (s := twoProcesses) (t := 0) (fun _ => rfl)
      (show Instr.unlock ≠ .countCall by simp) rfl
  -- process 8 closes it and dies
  have hres : R.slot 1 = some 1 := Region.slot_eq_some.mpr
    ⟨by decide, congrArg Slot.state hslot, congrArg Slot.generation hslot⟩
  obtain ⟨hC, sC, hrC, hfreed, hregion, hlock, hdead, hthreads⟩ := Sys.torn_run (s := sB) (t := 1)
    (show handleIndex 1 ≠ 0 by decide) (show sB.toShared.lock = none from rfl) hres
    (by rw [show sB.toShared.region = R from rfl, show handleIndex 1 = 1 from rfl, hslot]
        exact Slot.holderRemove_empty rfl _)
    (show sB.toShared.dead (sB.threads 1).pid = false from rfl)
    (show Pc.idle.outside = true from rfl)
  rw [show sB.put 1 sB.toShared .idle = sB from sB.put_self 1] at hrC
  -- process 7 fills the table up to its end
  have hthread : sC.threads 0 = { twoProcesses.threads 0 with
      pc := .done (.create k) (.handle (.ok 1)) } := by
    rw [hthreads 0 (by decide), hsB, Sys.put_thread]
  have hpid : (sC.threads 0).pid = 7 := by rw [hthread]; rfl
  have hcur : sC.region.cursor = 2 := by
    rw [hregion]
    exact Region.created_cursor Region.init 1 k 7
  have hout : (sC.threads 0).pc.outside = true := by rw [hthread]; rfl
  have halive : sC.dead (sC.threads 0).pid = false := by rw [hdead, hpid]; rfl
  have hzero : ∀ j, 2 ≤ j → sC.region.slots j = Slot.zero := by
    intro j hj
    have hne : j ≠ handleIndex 1 := by
      rw [show handleIndex 1 = 1 from rfl]
      omega
    rw [hregion, Region.setSlot_slots, if_neg hne]
    show R.slots j = Slot.zero
    rw [hR, Region.created_other _ _ _ (show j ≠ 1 by omega)]
    exact if_neg (by omega)
  obtain ⟨hD, shD, pcD, hrD, hfill, hlD, hdD, hoD⟩ := Filling.run (s := sC) (t := 0) (k := k)
    (n := slotCount - 2) rfl hlock halive hout (by rw [hcur]; decide) (by rw [hcur]; decide)
    fun j hge _ => by
      rw [hzero j (by rw [hcur] at hge; exact hge)]
      rfl
  rw [Sys.put_self] at hrD
  -- the next create gets slot 1, whose generation is still 0
  have hfirst : (sC.region.slots 0).state = .used := by rw [hregion]; rfl
  have hone : sC.region.slots 1 = SlotWrite.apply (.state .free) (R.slots 1) := by
    rw [hregion, Region.setSlot_slots, if_pos (show 1 = handleIndex 1 from rfl)]
    rfl
  obtain ⟨hfs, hsame⟩ := hfill.around (by rw [hcur]; decide) (by rw [hcur]) hfirst
    (by rw [hone]; rfl)
  obtain ⟨hE, hrE⟩ := Sys.made_run (s := sC) (t := 0) (k := k) rfl hfs hlD
    (by rw [hdD]; exact halive) hoD
  have hgen : (shD.region.slots 1).generation = 0 := by
    rw [hsame, hone, hslot]
    rfl
  rw [hgen] at hrE
  have hcount : ∀ j, freed j (hE ++ (hD ++ (hC ++ [.instr 0 7 .unlock]))) =
      if handleIndex 1 = j then 1 else 0 := fun j => by
    rw [freed_append, freed_of_steady hrE, freed_append, freed_of_steady hrD, freed_append, hfreed,
      freed_cons_none _ rfl]
    exact (Nat.zero_add _).trans (Nat.zero_add _)
  have hrun := (((Run.nil.snoc hunlock trivial).trans hrC).trans
    (hrD.mono fun _ _ _ _ => trivial)).trans (hrE.mono fun _ _ _ _ => trivial)
  refine ⟨hA, _, sA, _, k, 1, hrA.mono fun _ _ _ _ => trivial, rfl, rfl, hrun, ?_, fun j => ?_,
    ?_, ?_⟩
  · rw [hcount, if_pos rfl]
    exact Nat.one_pos
  · rw [freed_append, hcount, freed_of_steady hrA]
    split <;> decide
  · rw [Sys.put_thread]
    rfl
  · obtain ⟨_, hnew⟩ := shD.region.created_slot 1 k (sC.threads 0).pid
    refine Region.slot_eq_some.mpr ⟨by decide, ?_, ?_⟩
    · exact congrArg Slot.state hnew
    · exact (congrArg Slot.generation hnew).trans hgen

end Ntsync
