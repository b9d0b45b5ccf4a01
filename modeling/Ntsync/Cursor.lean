import Mathlib
import Ntsync.Handles
import Ntsync.Lifetime

namespace Ntsync

open Words Lts

/-!
# The allocation cursor

`next_scan` packs the cursor of `alloc_slot` and the flag that the cursor has wrapped around.  Until
then the slots at and above the cursor are pages nobody has touched, and a sweep relies on it.

* `Region.freeSlot_none_iff` — the circular scan is complete;
* `CursorOk` — the cursor lies in the table, the slots it has not passed are free, and slot 0 is
  reserved;
* `CursorInv` — so it is in every run, whatever the processes do and wherever they die; a slot that
  the cursor has not passed was never taken.
-/

variable {T : Type}

namespace Region

/-- The cursor has wrapped around the table. -/
def wrapped (r : Region) : Prop := r.nextScan &&& scanWrapped ≠ 0

instance (r : Region) : Decidable r.wrapped := inferInstanceAs (Decidable (_ ≠ _))

/-- Slot `i` lies behind the cursor, so it may have been handed out. -/
def passed (r : Region) (i : Nat) : Prop := r.wrapped ∨ i < r.cursor

/-! ### The circular scan -/

section Scan

variable {r : Region} {cursor fuel k i : Nat}

/-- A scan that finds nothing has seen used slots only. -/
theorem scanFree_none (h : r.scanFree cursor fuel k = none) (j : Nat) (hk : k ≤ j)
    (hj : j < k + fuel) : (r.slots ((cursor + j) % slotCount)).state = .used := by
  induction fuel generalizing k with
  | zero => omega
  | succ fuel ih =>
    simp only [scanFree] at h
    split at h
    · cases h
    · rename_i hused
      rcases Nat.eq_or_lt_of_le hk with rfl | hlt
      · cases hs : (r.slots ((cursor + k) % slotCount)).state with
        | used => rfl
        | free => exact absurd hs hused
      · exact ih h hlt (by omega)

/-- The scan finds a free slot iff there is one. -/
theorem freeSlot_none_iff :
    r.freeSlot = none ↔ ∀ i, i < slotCount → (r.slots i).state = .used := by
  constructor
  · intro h i hi
    -- the distance from the cursor to `i`
    have hmod : r.cursor % slotCount < slotCount := Nat.mod_lt _ (by decide)
    have hdm := Nat.div_add_mod r.cursor slotCount
    have hidx : (r.cursor + (i + slotCount - r.cursor % slotCount) % slotCount) % slotCount = i := by
      rw [Nat.add_mod_mod]
      have hsum : r.cursor + (i + slotCount - r.cursor % slotCount) =
          i + slotCount * (r.cursor / slotCount + 1) := by
        rw [Nat.mul_add, Nat.mul_one]
        omega
      rw [hsum, Nat.add_mul_mod_self_left, Nat.mod_eq_of_lt hi]
    have hused := scanFree_none h _ (Nat.zero_le _)
      (show (i + slotCount - r.cursor % slotCount) % slotCount < 0 + slotCount by
        rw [Nat.zero_add]
        exact Nat.mod_lt _ (by decide))
    rw [hidx] at hused
    exact hused
  · intro h
    cases hf : r.freeSlot with
    | none => rfl
    | some i =>
      obtain ⟨hlt, hfree⟩ := freeSlot_spec hf
      rw [h i hlt] at hfree
      cases hfree

end Scan

/-! ### Taking a slot -/

/-- Table indices do not reach the flag. -/
theorem index_and_flag {n : Nat} (hn : n < slotCount) : BitVec.ofNat 32 n &&& scanWrapped = 0#32 := by
  apply BitVec.eq_of_toNat_eq
  have hpow : (scanWrapped : U32).toNat = 2 ^ 31 := rfl
  have hlt : n < 2 ^ 31 := Nat.lt_trans hn (by decide)
  rw [BitVec.toNat_and, BitVec.toNat_ofNat, Nat.mod_eq_of_lt (Nat.lt_trans hlt (by decide)), hpow,
    Nat.and_two_pow, Nat.testBit_lt_two_pow hlt]
  rfl

/-- The cursor has wrapped if it had before or has just come around to 0. -/
theorem wrapped_takeSlot (r : Region) (i : Nat) :
    (r.takeSlot i).wrapped ↔ (i + 1) % slotCount = 0 ∨ r.wrapped := by
  have hlow := index_and_flag (Nat.mod_lt (i + 1) (show 0 < slotCount by decide))
  have hflag (x : U32) : (BitVec.ofNat 32 ((i + 1) % slotCount) ||| (x &&& scanWrapped)) &&&
      scanWrapped = x &&& scanWrapped := by
    rw [BitVec.and_or_distrib_right, hlow, BitVec.zero_or, BitVec.and_assoc, BitVec.and_self]
  show (BitVec.ofNat 32 ((i + 1) % slotCount) ||| _) &&& scanWrapped ≠ 0 ↔ _
  split
  · rename_i h0
    have hself := hflag scanWrapped
    rw [BitVec.and_self] at hself
    rw [hself]
    exact ⟨fun _ => .inl h0, fun _ => by decide⟩
  · rename_i h0
    rw [hflag]
    exact ⟨.inr, fun h => h.resolve_left h0⟩

end Region

/-! ### The invariant of the table -/

/-- The cursor lies in the table, the slots it has not passed are free, and slot 0 is reserved. -/
structure CursorOk (r : Region) : Prop where
  lt : r.cursor < slotCount
  free : ∀ i, i < slotCount → i ≠ 0 → ¬ r.passed i → (r.slots i).state = .free
  used : (r.slots 0).state = .used
  reserved : (r.slots 0).objType = .reserved
  pid : (r.slots 0).pid = 0

/-- The cursor of a fresh region stands right. -/
theorem CursorOk.init : CursorOk Region.init where
  lt := by decide
  free i _ h0 _ := by
    rw [show Region.init.slots i = Slot.zero from if_neg h0]
    rfl
  used := rfl
  reserved := rfl
  pid := rfl

section Take

variable {r : Region} {i : Nat}

/-- The slot that `alloc_slot` picks is not the reserved one. -/
theorem CursorOk.pick_ne_zero (h : CursorOk r) (hf : r.freeSlot = some i) : i ≠ 0 := by
  rintro rfl
  have hfree := (Region.freeSlot_spec hf).2
  rw [h.used] at hfree
  cases hfree

/-- Before the cursor wraps, the picked slot is the first one not passed. -/
theorem CursorOk.pick_ge (h : CursorOk r) (hf : r.freeSlot = some i) (hw : ¬ r.wrapped) :
    r.cursor ≤ i := by
  have hpass {j : Nat} (hj : r.cursor ≤ j) : ¬ r.passed j := by
    rintro (hwrap | hlt)
    · exact hw hwrap
    · omega
  by_cases h0 : r.cursor = 0
  · omega
  · exact (Option.some.inj ((Region.freeSlot_cursor h.lt
      (h.free _ h.lt h0 (hpass (le_refl _)))).symm.trans hf)).le

/-- Taking a slot passes it, and no slot is passed back. -/
theorem CursorOk.passed_take (h : CursorOk r) (hf : r.freeSlot = some i) :
    (r.takeSlot i).passed i ∧ ∀ j, r.passed j → (r.takeSlot i).passed j := by
  have hlt := (Region.freeSlot_spec hf).1
  by_cases hw : r.wrapped
  · have hw' : (r.takeSlot i).wrapped := (r.wrapped_takeSlot i).mpr (.inr hw)
    exact ⟨.inl hw', fun _ _ => .inl hw'⟩
  · have hge := h.pick_ge hf hw
    by_cases hend : (i + 1) % slotCount = 0
    · have hw' : (r.takeSlot i).wrapped := (r.wrapped_takeSlot i).mpr (.inl hend)
      exact ⟨.inl hw', fun _ _ => .inl hw'⟩
    · -- the cursor moves on to the next slot
      have hne : i + 1 ≠ slotCount := fun e => hend (by rw [e, Nat.mod_self])
      have hcur : (r.takeSlot i).cursor = i + 1 := by
        rw [r.cursor_takeSlot, Nat.mod_eq_of_lt (by omega)]
      refine ⟨.inr (by omega), fun j hj => .inr ?_⟩
      have hjc : j < r.cursor := hj.resolve_left hw
      omega

/-- Taking a slot leaves state, type and creator of all slots alone. -/
theorem Region.takeSlot_fields (r : Region) (i j : Nat) : ((r.takeSlot i).slots j).state =
    (r.slots j).state ∧ ((r.takeSlot i).slots j).objType = (r.slots j).objType ∧
    ((r.takeSlot i).slots j).pid = (r.slots j).pid := by
  obtain ⟨hd, he⟩ := Region.takeSlot_slot r j i
  rw [he]
  exact ⟨rfl, rfl, rfl⟩

/-- **`alloc_slot` keeps the cursor right.** -/
theorem CursorOk.take (h : CursorOk r) (hf : r.freeSlot = some i) : CursorOk (r.takeSlot i) where
  lt := by
    rw [r.cursor_takeSlot]
    exact Nat.mod_lt _ (by decide)
  free j hj h0 hp := by
    rw [(r.takeSlot_fields i j).1]
    exact h.free j hj h0 fun hpass => hp ((h.passed_take hf).2 j hpass)
  used := (r.takeSlot_fields i 0).1.trans h.used
  reserved := (r.takeSlot_fields i 0).2.1.trans h.reserved
  pid := (r.takeSlot_fields i 0).2.2.trans h.pid

/-- **`alloc_slot`** finds a slot iff one is free; it hands out a free slot other than 0 and touches
    no other slot. -/
theorem CursorOk.alloc (h : CursorOk r) :
    (r.allocSlot.isSome = true ↔ ∃ i, i < slotCount ∧ (r.slots i).state = .free) ∧
    ∀ hd r', r.allocSlot = some (hd, r') →
      handleIndex hd ≠ 0 ∧ (r.slots (handleIndex hd)).state = .free ∧
        hd = mkHandle (r.slots (handleIndex hd)).generation (handleIndex hd) ∧
        ∀ j, j ≠ handleIndex hd → r'.slots j = r.slots j := by
  unfold Region.allocSlot
  cases hf : r.freeSlot with
  | none =>
    refine ⟨⟨(fun hs => by cases hs), fun ⟨i, hi, hfree⟩ => ?_⟩, (fun hd r' hs => by cases hs)⟩
    rw [Region.freeSlot_none_iff.mp hf i hi] at hfree
    cases hfree
  | some i =>
    obtain ⟨hlt, hfree⟩ := Region.freeSlot_spec hf
    refine ⟨⟨fun _ => ⟨i, hlt, hfree⟩, fun _ => rfl⟩, fun hd r' hs => ?_⟩
    cases hs
    rw [handleIndex_mkHandle _ hlt]
    refine ⟨h.pick_ne_zero hf, hfree, rfl, fun j hj => ?_⟩
    show (r.setSlot i fun s => { s with waiterHead := none }).slots j = _
    rw [Region.setSlot_slots, if_neg hj]

end Take

/-! ### The invariant of the runs -/

/-- The step takes slot `i`. -/
def Label.takes (i : Nat) : Label T → Bool
  | .instr _ _ (.takeSlot j) => decide (j = i)
  | _ => false

/-- A call that stores to a slot works on one that the cursor has passed, and never on slot 0. -/
def Pc.passes (r : Region) : Pc → Prop
  | .create _ (.write h _) => handleIndex h ≠ 0 ∧ r.passed (handleIndex h)
  | .close h _ | .hold _ h _ => handleIndex h ≠ 0
  | _ => True

section Scans

variable {r r' : Region}

/-- `node_alloc` leaves the cursor alone. -/
theorem nodeAlloc_nextScan {pid : U32} {n : Nat} (h : r.nodeAlloc pid = some (n, r')) :
    r'.nextScan = r.nextScan := by
  unfold Region.nodeAlloc at h
  cases hhead : r.nodeFreeHead with
  | some head =>
    simp only [hhead] at h
    cases h
    rfl
  | none =>
    simp only [hhead] at h
    split at h <;> rename_i htaken <;> split at htaken <;> cases htaken <;> cases h
    rfl

/-- `node_detach` leaves the cursor alone. -/
theorem nodeDetach_nextScan (n : Nat) : (r.nodeDetach n).nextScan = r.nextScan :=
  (r.nodeDetach_rest n).2.2.1

/-- `node_register` leaves the cursor alone. -/
theorem nodeRegister_nextScan (n i head : Nat) :
    (r.nodeRegister n i head).nextScan = r.nextScan := by
  unfold Region.nodeRegister
  simp only [Region.setSlot_nextScan]
  split <;> rfl

/-- Only `alloc_slot` moves the cursor. -/
theorem Instr.apply_nextScan {ins : Instr} (t : T) (pid : U32) (sh : Shared T)
    (h : ∀ i, ins ≠ .takeSlot i) :
    (ins.apply t pid sh).region.nextScan = sh.region.nextScan := by
  cases ins with
  | takeSlot i => exact absurd rfl (h i)
  | allocNode =>
    simp only [Instr.apply]
    split
    · rename_i halloc
      exact nodeAlloc_nextScan halloc
    · rfl
  | detach n => exact nodeDetach_nextScan n
  | register n i head => exact nodeRegister_nextScan n i head
  | _ => rfl

/-- What a store to a slot leaves there. -/
theorem Instr.apply_store (t : T) (pid : U32) (sh : Shared T) (i : Nat) (w : SlotWrite) :
    ((Instr.store i w).apply t pid sh).region.slots i = w.apply (sh.region.slots i) :=
  Function.update_self ..

/-- What a reap leaves in its slot. -/
theorem Instr.apply_reap (t : T) (pid : U32) (sh : Shared T) (i : Nat) :
    ((Instr.reap i).apply t pid sh).region.slots i = { sh.region.slots i with state := .free } :=
  Function.update_self ..

/-- Which slots the cursor has passed depends on the cursor only. -/
theorem Region.passed_congr {i : Nat} (h : r'.nextScan = r.nextScan) :
    r'.passed i ↔ r.passed i := by
  unfold Region.passed Region.wrapped Region.cursor
  rw [h]

end Scans

section Own

variable {o : Oracle} {sh : Shared T} {pid : U32} {ins : Instr} {pc pc' : Pc} {r r' : Region}

/-- A call starts with no slot found. -/
theorem Pc.start_passes (c : Call) (r : Region) : (Pc.start c).passes r := by
  cases c with
  | close h | hold add h =>
    simp only [Pc.start]
    split
    · exact True.intro
    · assumption
  | op | wait | create =>
    simp only [Pc.start]
    split <;> exact True.intro
  | pulse | sweepDead => exact True.intro

/-- A slot found behind the cursor stays behind it. -/
theorem Pc.passes.mono (h : pc.passes r) (hp : ∀ i, r.passed i → r'.passed i) : pc.passes r' := by
  unfold Pc.passes at h ⊢
  split at h
  · exact ⟨h.1, hp _ h.2⟩
  all_goals exact h

/-- What a step passes. -/
theorem PcGo.passes (hg : PcGo sh pid o pc ins pc') (hok : CursorOk sh.region)
    (hp : pc.passes sh.region) (t : T)
    (hmono : ∀ i, sh.region.passed i → (ins.apply t pid sh).region.passed i) :
    pc'.passes (ins.apply t pid sh).region := by
  cases hg with
  | op hg => cases hg <;> exact True.intro
  | pulse hg => cases hg <;> exact True.intro
  | wait hg =>
    rcases hg.args with rfl | ha
    · exact True.intro
    · unfold Pc.args? at ha
      split at ha <;> first | exact True.intro | cases ha
  | create hg =>
    cases hg with
    | take hf =>
      show handleIndex (mkHandle _ _) ≠ 0 ∧ _
      rw [handleIndex_mkHandle _ (Region.freeSlot_spec hf).1]
      exact ⟨hok.pick_ne_zero hf, (hok.passed_take hf).1⟩
    | write => exact ⟨hp.1, hmono _ hp.2⟩
    | _ => exact True.intro
  | close hg =>
    cases hg with
    | unlock => exact True.intro
    | _ => exact hp
  | hold hg =>
    cases hg with
    | unlock => exact True.intro
    | _ => exact hp
  | sweepDead hg => cases hg <;> exact True.intro

/-- A store that makes a slot used is the last one of its publication. -/
theorem PcGo.store_used {i : Nat} {w : SlotWrite} (hg : PcGo sh pid o pc (.store i w) pc')
    (hw : pc.holderWrites) (s : Slot) (hs : (w.apply s).state = .used) :
    s.state = .used ∨ ∃ k h ws, pc = .create k (.write h ws) ∧ i = handleIndex h := by
  rcases hg.store with ⟨k, h, ws, rfl, rfl, _⟩ | ⟨h, ws, rfl, _⟩ | ⟨h, _, _, rfl, _⟩ |
    ⟨h, _, _, rfl, _⟩ | ⟨add, h, ws, rfl, _⟩ | ⟨_, _, _, _, rfl, _⟩
  · exact .inr ⟨k, h, _, rfl, rfl⟩
  · exact .inl ((SlotWrite.apply_state (hw w (List.mem_cons_self ..)) s).symm.trans hs)
  · cases hs
  · exact .inl hs
  · exact .inl ((SlotWrite.apply_state (hw w (List.mem_cons_self ..)) s).symm.trans hs)
  · exact .inl hs

/-- A store to slot 0 leaves it reserved. -/
theorem PcGo.store_first {w : SlotWrite} (hg : PcGo sh pid o pc (.store 0 w) pc')
    (hp : pc.passes sh.region) (s : Slot) :
    (w.apply s).state = s.state ∧ (w.apply s).objType = s.objType ∧ (w.apply s).pid = s.pid := by
  rcases hg.store with ⟨k, h, ws, rfl, h0, _⟩ | ⟨h, ws, rfl, h0, _⟩ | ⟨h, rfl, h0, _⟩ |
    ⟨h, rfl, h0, _⟩ | ⟨add, h, ws, rfl, h0, _⟩ | ⟨_, _, _, _, rfl, _⟩
  · exact absurd h0.symm hp.1
  · exact absurd h0.symm hp
  · exact absurd h0.symm hp
  · exact absurd h0.symm hp
  · exact absurd h0.symm hp
  · exact ⟨rfl, rfl, rfl⟩

/-- Nobody reaps slot 0. -/
theorem PcGo.reap_ne_zero {i : Nat} (hg : PcGo sh pid o pc (.reap i) pc')
    (hs : ∀ auto p, pc.sweep? = some (auto, p) → p.Sound sh.dead) (hpid : (sh.region.slots 0).pid = 0) :
    i ≠ 0 := by
  rintro rfl
  obtain ⟨auto, st, c, judged, hsw, hnode, h0, hstands, _⟩ := hg.reap
  have hreal := ((hs _ _ hsw).2 (c, false) (List.mem_cons_self ..)).1 hnode
  unfold DeadCand.slotStands at hstands
  rw [← h0] at hstands
  simp only [Bool.and_eq_true, decide_eq_true_eq] at hstands
  exact hreal (hstands.1.1.1.1.2.symm.trans hpid)

/-- No step passes a slot back. -/
theorem PcGo.passed_mono (hg : PcGo sh pid o pc ins pc') (hok : CursorOk sh.region) (t : T) (i : Nat)
    (h : sh.region.passed i) : (ins.apply t pid sh).region.passed i := by
  by_cases htake : ∃ j, ins = .takeSlot j
  · obtain ⟨j, rfl⟩ := htake
    obtain ⟨_, _, _, hf, _⟩ := hg.takeSlot
    exact (hok.passed_take hf).2 i h
  · exact (Region.passed_congr (Instr.apply_nextScan t pid sh fun j e => htake ⟨j, e⟩)).mpr h

/-- **A step keeps the table in order.** -/
theorem PcGo.cursorOk (hg : PcGo sh pid o pc ins pc') (hok : CursorOk sh.region)
    (hp : pc.passes sh.region) (hw : pc.holderWrites)
    (hs : ∀ auto p, pc.sweep? = some (auto, p) → p.Sound sh.dead) (t : T) :
    CursorOk (ins.apply t pid sh).region := by
  by_cases htake : ∃ j, ins = .takeSlot j
  · obtain ⟨j, rfl⟩ := htake
    obtain ⟨_, _, _, hf, _⟩ := hg.takeSlot
    exact hok.take hf
  · have hscan := Instr.apply_nextScan t pid sh fun j e => htake ⟨j, e⟩
    -- a slot that is not passed stays free
    have hfree (i : Nat) (hi : i < slotCount) (h0 : i ≠ 0) (hn : ¬ sh.region.passed i) :
        ((ins.apply t pid sh).region.slots i).state = .free := by
      have hbefore := hok.free i hi h0 hn
      by_cases hst : ins.stores i = true
      · cases ins with
        | store j w =>
          obtain rfl : j = i := of_decide_eq_true hst
          rw [Instr.apply_store]
          cases hu : (w.apply (sh.region.slots j)).state with
          | free => rfl
          | used =>
            rcases hg.store_used hw _ hu with hused | ⟨k, h, ws, rfl, rfl⟩
            · rw [hbefore] at hused
              cases hused
            · exact absurd hp.2 hn
        | reap j =>
          obtain rfl : j = i := of_decide_eq_true hst
          rw [Instr.apply_reap]
        | _ => cases hst
      · exact (Instr.sameTable t pid sh (by simpa using hst)).state.trans hbefore
    -- slot 0 stays reserved
    have hfirst : ((ins.apply t pid sh).region.slots 0).state = (sh.region.slots 0).state ∧
        ((ins.apply t pid sh).region.slots 0).objType = (sh.region.slots 0).objType ∧
        ((ins.apply t pid sh).region.slots 0).pid = (sh.region.slots 0).pid := by
      by_cases hst : ins.stores 0 = true
      · cases ins with
        | store j w =>
          obtain rfl : j = 0 := of_decide_eq_true hst
          rw [Instr.apply_store]
          exact hg.store_first hp _
        | reap j =>
          obtain rfl : j = 0 := of_decide_eq_true hst
          exact absurd rfl (hg.reap_ne_zero hs hok.pid)
        | _ => cases hst
      · have hsame := Instr.sameTable t pid sh (by simpa using hst : ins.stores 0 = false)
        exact ⟨hsame.state, hsame.objType, hsame.pid⟩
    refine ⟨?_, fun i hi h0 hn => ?_, hfirst.1.trans hok.used, hfirst.2.1.trans hok.reserved,
      hfirst.2.2.trans hok.pid⟩
    · rw [Region.cursor, hscan]
      exact hok.lt
    · exact hfree i hi h0 fun hpass => hn ((Region.passed_congr hscan).mpr hpass)

end Own

/-- **The table in a run.** A slot that the cursor has not passed was never taken. -/
structure CursorInv (h : List (Label T)) (s : Sys T) : Prop where
  ok : CursorOk s.region
  never : ∀ i, i < slotCount → i ≠ 0 → ¬ s.region.passed i → ∀ l ∈ h, l.takes i = false
  passes : ∀ t, (s.threads t).pc.passes s.region

section Runs

variable [DecidableEq T] {h : List (Label T)} {s s' : Sys T} {a : Action T} {l : Label T}

/-- **Every step keeps the cursor right**, deaths included. -/
theorem CursorInv.step (hi : CursorInv h s) (ht : TableInv s) (hs : SweepsInv s)
    (hstep : s.step a = some (s', l)) : CursorInv (l :: h) s' := by
  cases Sys.step_inv hstep with
  | @call t c _ _ =>
    refine ⟨hi.ok, fun i hlt h0 hn l hl => ?_, fun u => ?_⟩
    · rcases List.mem_cons.mp hl with rfl | hl
      · rfl
      · exact hi.never i hlt h0 hn l hl
    · rw [Sys.entered_pc]
      split
      · exact Pc.start_passes c _
      · exact hi.passes u
  | @tick t o ins pc' _ htick =>
    have hg := tick_inv htick
    have hmono := hg.passed_mono hi.ok t
    refine ⟨hg.cursorOk hi.ok (hi.passes t) (ht.writes t) (hs t) t, fun i hlt h0 hn l hl => ?_,
      fun u => ?_⟩
    · rcases List.mem_cons.mp hl with rfl | hl
      · cases ins with
        | takeSlot j =>
          obtain ⟨_, _, _, hf, _⟩ := hg.takeSlot
          refine decide_eq_false fun hj => hn ?_
          rw [← hj]
          exact (hi.ok.passed_take hf).1
        | _ => rfl
      · exact hi.never i hlt h0 (fun hp => hn (hmono i hp)) l hl
    · rw [Sys.after_pc]
      split
      · exact hg.passes hi.ok (hi.passes t) t hmono
      · exact (hi.passes u).mono hmono
  | die =>
    refine ⟨hi.ok, fun i hlt h0 hn l hl => ?_, hi.passes⟩
    rcases List.mem_cons.mp hl with rfl | hl
    · rfl
    · exact hi.never i hlt h0 hn l hl

/-- **The cursor in every run**, with deaths anywhere. -/
theorem CursorInv.of_run {ok : Sys T → Label T → Sys T → Prop} {pid : T → U32}
    (hr : Run Sys.step ok (Sys.rest Region.init pid) h s) : CursorInv h s := by
  have hidle : (Sys.rest Region.init pid).Idle := fun _ => rfl
  have hall : CursorInv h s ∧ TableInv s ∧ SweepsInv s := by
    refine hr.invariant (I := fun h s => CursorInv h s ∧ TableInv s ∧ SweepsInv s) ?_ ?_
    · exact ⟨⟨.init, (fun _ _ _ _ l hl => by cases hl), fun _ => True.intro⟩,
        .of_idle hidle rfl, .of_idle hidle⟩
    · intro h s a s' l hI hstep _
      exact ⟨hI.1.step hI.2.1 hI.2.2 hstep, hI.2.1.step hstep, hI.2.2.step hstep⟩
  exact hall.1

end Runs

end Ntsync
