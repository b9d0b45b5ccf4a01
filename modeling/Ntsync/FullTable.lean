import Mathlib
import Ntsync.Ring
import Ntsync.SweepExact

namespace Ntsync

open Words Lts

/-!
# Creating on a full table

`alloc_slot_or_sweep` sweeps when `alloc_slot` finds nothing, and tries once more.

* `create_returns` — a create undisturbed: it fails iff every slot is used and no object is to be
  reaped, and then no slot has changed;
* `slot_allocation_complete` — the cursor, the reserved slot, `alloc_slot` and `create_*` in every
  state that processes reach without dying inside a critical section.
-/

variable {T : Type}

section Create

variable {t : T} {pid : U32} {r : Region} {L : Nat → List Nat} {F : List Nat} {U : Nat → Prop}
  {k : Create}

/-- No slot has lost its object, or changed its word. -/
def SameObjects (r r' : Region) : Prop := ∀ i, SameButHead r r' i

/-- **`create_*`** undisturbed, with a full table swept once. -/
theorem create_returns (hl : ListsOk r L F U) (hU : ∀ i, (r.slots i).state = .used → U i)
    (hc : CursorOk r) (hk : k.valid = true) (dead : U32 → Bool) :
    ∃ r' x, Returns t pid ⟨r, none, dead⟩ (.create k) ⟨r', none, dead⟩ (.handle x) ∧
      ((∃ e, x = .error e) ↔
        ∀ i, i ≠ 0 → i < slotCount → (r.slots i).state = .used ∧ ¬ (r.slots i).Reapable dead) ∧
      ∀ e, x = .error e → e = .init enomem ∧ SameObjects r r' := by
  have hstart : Pc.start (.create k) = .create k .lock := if_pos hk
  have hlock {sh' : Shared T} {pc : Pc} (h : Alone t pid ⟨r, some t, dead⟩ (.create k (.alloc false))
      sh' pc) : Alone t pid ⟨r, none, dead⟩ (Pc.start (.create k)) sh' pc := by
    rw [hstart]
    exact .head (i := .lock) (fun _ => rfl) (by simp) h
  -- a create that has found a slot, or given up
  have hunlock (r' : Region) (x : Except Err U32) : Alone t pid ⟨r', some t, dead⟩
      (.create k (.unlock x)) ⟨r', none, dead⟩ (.done (.create k) (.handle x)) :=
    .head (i := .unlock) (fun _ => rfl) (by simp) .refl
  cases hf : r.freeSlot with
  | some i =>
    obtain ⟨hi, hfree⟩ := Region.freeSlot_spec hf
    have halloc : Alone t pid ⟨r, some t, dead⟩ (.create k (.alloc false)) _ _ := Alone.alloc hf
    refine ⟨_, _, (hlock (halloc.trans (hunlock _ _))).returns, ⟨?_, fun h => ?_⟩, ?_⟩
    · rintro ⟨e, he⟩
      cases he
    · have hused := (h i (hc.pick_ne_zero hf) hi).1
      rw [hfree] at hused
      cases hused
    · intro e he
      cases he
  | none =>
    have hall := Region.freeSlot_none_iff.mp hf
    obtain ⟨r', n, p, hsteps, hdone, hexact⟩ := sweep_loop t pid ⟨r, some t, dead⟩ hl
      hU hc
    have hsweep := hsteps.alone (fun p => .create k (.sweep p)) fun p p₁ ins r hs => by
      refine ⟨fun _ => ?_, ?_⟩
      · show createTick _ pid k (.sweep p) = _
        rw [createTick, hs]
      · rintro rfl
        cases SweepPc.step_sweeps hs
    have hbegin : Alone t pid ⟨r, some t, dead⟩ (.create k (.alloc false))
        ⟨r', some t, dead⟩ (.create k (.sweep p)) := by
      refine .head (i := .silent) (q := .create k (.sweep (.chunk (.new r)))) (fun _ => ?_)
        (by simp) hsweep
      show createTick _ pid k (.alloc false) = _
      simp only [createTick, hf]
      rfl
    have hend : ∀ calls, tick {} ⟨r', some t, dead⟩ pid calls (.create k (.sweep p)) =
        some (.silent, .create k
          (if 0 < n then .alloc true else .unlock (.error (.init enomem)))) := by
      intro _
      show createTick ⟨r', some t, dead⟩ pid k (.sweep p) = _
      have hdone' : p.step false (⟨r', some t, dead⟩ : Shared T) = some (.silent, .done n) := hdone
      simp only [createTick, hdone']
    by_cases hn : 0 < n
    · -- a freed slot is there for the second try
      rw [if_pos hn] at hend
      obtain ⟨i, hi, hreap⟩ : ∃ i, i < slotCount ∧ (r.slots i).Reapable dead := by
        rw [hexact.count] at hn
        obtain ⟨i, hi⟩ := List.exists_mem_of_length_pos hn
        obtain ⟨hlt, hr⟩ := List.mem_filter.mp hi
        exact ⟨i, List.mem_range.mp hlt, of_decide_eq_true hr⟩
      obtain ⟨j, hj⟩ : ∃ j, r'.freeSlot = some j := by
        cases hf' : r'.freeSlot with
        | some j => exact ⟨j, rfl⟩
        | none =>
          have hused := Region.freeSlot_none_iff.mp hf' i hi
          obtain ⟨hd, he⟩ := hexact.slots i
          rw [he, if_pos ⟨hi, hreap⟩] at hused
          cases hused
      have halloc : Alone t pid ⟨r', some t, dead⟩ (.create k (.alloc true)) _ _ := Alone.alloc hj
      refine ⟨_, _, (hlock (hbegin.trans (.head hend (by simp)
        (halloc.trans (hunlock _ _))))).returns, ⟨?_, fun h => ?_⟩, ?_⟩
      · rintro ⟨e, he⟩
        cases he
      · have h0 : i ≠ 0 := by
          rintro rfl
          exact hreap.owned hc.pid
        exact absurd hreap (h i h0 hi).2
      · intro e he
        cases he
    · rw [if_neg hn] at hend
      have hnone (i : Nat) (hi : i < slotCount) : ¬ (r.slots i).Reapable dead := by
        intro hr
        refine hn ?_
        rw [hexact.count]
        exact List.length_pos_of_mem
          (List.mem_filter.mpr ⟨List.mem_range.mpr hi, decide_eq_true hr⟩)
      refine ⟨r', _, (hlock (hbegin.trans (.head hend (by simp) (hunlock _ _)))).returns,
        ⟨fun _ i h0 hi => ⟨hall i hi, hnone i hi⟩, fun _ => ⟨_, rfl⟩⟩, fun e he => ?_⟩
      cases he
      refine ⟨rfl, fun i => ?_⟩
      obtain ⟨hd, he⟩ := hexact.slots i
      rw [if_neg fun hfr => hnone i hfr.1 hfr.2] at he
      exact ⟨hd, he⟩

end Create

/-- **Slot allocation is complete and never hands out slot 0**, in every state that processes reach
    without dying inside a critical section. -/
theorem slot_allocation_complete [DecidableEq T] {pid : T → U32} (hpid : ∀ t, pid t ≠ 0)
    {h : List (Label T)} {s : Sys T}
    (hr : Run Sys.step (fun s l _ => DiesOutside s l) (Sys.rest Region.init pid) h s) :
    s.region.cursor < slotCount ∧
    (¬ s.region.wrapped → ∀ i, s.region.cursor ≤ i → i < slotCount → i ≠ 0 →
      (s.region.slots i).state = .free ∧ ∀ l ∈ h, l.takes i = false) ∧
    ((s.region.slots 0).state = .used ∧ (s.region.slots 0).objType = .reserved) ∧
    (s.region.allocSlot.isSome = true ↔
      ∃ i, i < slotCount ∧ (s.region.slots i).state = .free) ∧
    (∀ hd r', s.region.allocSlot = some (hd, r') →
      handleIndex hd ≠ 0 ∧ (s.region.slots (handleIndex hd)).state = .free ∧
        hd = mkHandle (s.region.slots (handleIndex hd)).generation (handleIndex hd) ∧
        ∀ j, j ≠ handleIndex hd → r'.slots j = s.region.slots j) ∧
    ∀ (t : T) (dead : U32 → Bool) (k : Create), k.valid = true →
      ∃ r' x, Returns t (pid t) ⟨s.region, none, dead⟩ (.create k) ⟨r', none, dead⟩ (.handle x) ∧
        ((∃ e, x = .error e) ↔ ∀ i, i ≠ 0 → i < slotCount →
          (s.region.slots i).state = .used ∧ ¬ (s.region.slots i).Reapable dead) ∧
        ∀ e, x = .error e → e = .init enomem ∧ SameObjects s.region r' := by
  have hcur := CursorInv.of_run hr
  have hi : NodesInv s := hr.state_invariant (.of_init hpid)
    fun s a s' l hi hs hd => hi.step hs hd.clean
  obtain ⟨L, F, U, hp⟩ := hi.pool
  obtain ⟨hiff, hspec⟩ := hcur.ok.alloc
  refine ⟨hcur.ok.lt, fun hw i hge hlt h0 => ?_, ⟨hcur.ok.used, hcur.ok.reserved⟩, hiff, hspec,
    fun t dead k hk => create_returns hp.lists hp.used hcur.ok hk dead⟩
  have hpass : ¬ s.region.passed i := by
    rintro (hwrap | hlt')
    · exact hw hwrap
    · exact Nat.not_lt.mpr hge hlt'
  exact ⟨hcur.ok.free i hlt h0 hpass, hcur.never i hlt h0 hpass⟩

section Full

variable [DecidableEq T]

/-- A process that creates as many objects as there are slots fills the table. -/
theorem exists_full (pid : T → U32) (t : T) {k : Create} (hk : k.valid = true) :
    ∃ h s, Run Sys.step (fun _ l _ => Steady l) (Sys.rest Region.init pid) h s ∧
      ∀ i, i ≠ 0 → i < slotCount →
        (s.region.slots i).state = .used ∧ (s.region.slots i).pid = pid t := by
  set s₀ : Sys T := Sys.rest Region.init pid with hs₀
  have hself : s₀.put t s₀.toShared (s₀.threads t).pc = s₀ := s₀.put_self t
  obtain ⟨h₁, hr₁⟩ := Sys.create_run (s := s₀) (t := t) hk
    (show s₀.toShared.region.freeSlot = some 1 from Ring.init.freeSlot) rfl rfl
    (show (s₀.threads t).pc.outside = true from rfl)
  rw [hself] at hr₁
  set s₁ := s₀.put t _ (.done (.create k) _) with hs₁
  have hregion : s₁.region = Region.init.created 1 k (pid t) := rfl
  have hcur : s₁.region.cursor = 2 := Region.created_cursor Region.init 1 k (pid t)
  have hrest : ∀ j, 2 ≤ j → (s₁.region.slots j).state = .free := by
    intro j hj
    rw [hregion, Region.created_other _ _ _ (show j ≠ 1 by omega)]
    exact congrArg Slot.state (if_neg (show ¬ j = 0 by omega))
  obtain ⟨h₂, sh₂, pc₂, hr₂, hfill, _⟩ := Filling.run (s := s₁) (t := t) (k := k)
    (n := slotCount - 2) hk (show s₁.toShared.lock = none from rfl)
    (show s₁.toShared.dead (s₁.threads t).pid = false from rfl)
    (show (s₁.threads t).pc.outside = true by rw [hs₁, Sys.put_thread]; rfl)
    (by rw [hcur]; decide) (by rw [hcur]; decide) fun j hge _ => hrest j (hcur ▸ hge)
  rw [Sys.put_self] at hr₂
  have hthread : (s₁.threads t).pid = pid t := by rw [hs₁, Sys.put_thread]; rfl
  refine ⟨_, _, hr₁.trans hr₂, fun i h0 hi => ?_⟩
  by_cases hi1 : i = 1
  · subst hi1
    obtain ⟨_, hslot⟩ := Region.init.created_slot 1 k (pid t)
    have hkeep : sh₂.region.slots 1 = _ := hfill.rest 1 (by omega)
    show (sh₂.region.slots 1).state = .used ∧ (sh₂.region.slots 1).pid = pid t
    rw [hkeep, hregion, hslot]
    exact ⟨rfl, rfl⟩
  · obtain ⟨_, hslot⟩ := s₁.region.created_slot i k (s₁.threads t).pid
    have hmade : sh₂.region.slots i = _ := hfill.made i (by omega) (by omega)
    show (sh₂.region.slots i).state = .used ∧ (sh₂.region.slots i).pid = pid t
    rw [hmade, hslot, hthread]
    exact ⟨rfl, rfl⟩

end Full

/-- One object has been created: slot 1 is taken and the slots from 2 on are not.  And a table has
    been filled by a process that lives: nothing is left to allocate, and a create fails. -/
theorem slot_allocation_complete_full :
    (∃ h s, Run Sys.step (fun s l _ => DiesOutside s l) (Sys.rest Region.init twoWaitersPid) h s ∧
      (∀ i, 2 ≤ i → i < slotCount →
        (s.region.slots i).state = .free ∧ ∀ l ∈ h, l.takes i = false) ∧
      s.region.allocSlot.isSome = true) ∧
    ∃ h s, Run Sys.step (fun s l _ => DiesOutside s l) (Sys.rest Region.init twoWaitersPid) h s ∧
      s.region.allocSlot = none ∧
      ∃ r', Returns (1 : Fin 2) 8 ⟨s.region, none, fun _ => false⟩ (.create (.sem 0 1))
        ⟨r', none, fun _ => false⟩ (.handle (.error (.init enomem))) := by
  constructor
  · obtain ⟨h, s, hr, hcur, hw⟩ := exists_run_of_exec Sys.step
      (fun s l _ => DiesOutside s l) (Sys.rest Region.init twoWaitersPid)
      (P := fun s => s.region.cursor = 2 ∧ ¬ s.region.wrapped) twoWaiters (by decide +kernel)
    obtain ⟨_, hnever, _, hiff, _⟩ := slot_allocation_complete (by decide) hr
    have hfree (i : Nat) (hge : 2 ≤ i) (hlt : i < slotCount) :=
      hnever hw i (by rw [hcur]; exact hge) hlt (by omega)
    exact ⟨h, s, hr, hfree, hiff.mpr ⟨2, by decide, (hfree 2 (le_refl _) (by decide)).1⟩⟩
  -- a table filled by process 7, which stays alive
  · obtain ⟨h, s, hr, hfull⟩ := exists_full twoWaitersPid 0
      (show (Create.event true false).valid = true from rfl)
    have hr' : Run Sys.step (fun s l _ => DiesOutside s l) (Sys.rest Region.init twoWaitersPid) h s :=
      hr.mono fun s l _ hst => by
        cases l with
        | die p => exact absurd rfl (hst.2 p)
        | _ => trivial
    obtain ⟨_, _, hzero, hiff, _, hcreate⟩ := slot_allocation_complete (by decide) hr'
    obtain ⟨r', x, hret, herr, hno⟩ := hcreate 1 (fun _ => false) (.sem 0 1) rfl
    -- no slot can be reaped, so the sweep-and-retry finds none either
    obtain ⟨e, rfl⟩ := herr.mpr fun i h0 hi => by
      refine ⟨(hfull i h0 hi).1, fun hre => ?_⟩
      have hdead := hre.creator
      rw [(hfull i h0 hi).2] at hdead
      revert hdead
      decide
    obtain ⟨rfl, _⟩ := hno e rfl
    refine ⟨h, s, hr', ?_, r', hret⟩
    cases halloc : s.region.allocSlot with
    | none => rfl
    | some x =>
      obtain ⟨i, hi, hfree⟩ := hiff.mp (by rw [halloc]; rfl)
      have hused : (s.region.slots i).state = .used := by
        by_cases h0 : i = 0
        · rw [h0]
          exact hzero.1
        · exact (hfull i h0 hi).1
      rw [hfree] at hused
      cases hused

end Ntsync
