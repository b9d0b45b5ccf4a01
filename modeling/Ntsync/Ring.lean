import Mathlib
import Ntsync.Alone

namespace Ntsync

open Words Lts

/-!
# The table as creates and closes leave it

`alloc_slot` goes around the table from its cursor.  Two families of runs of one thread follow it:

* `Ring` — each create is followed by its close, and the slots are recycled in turn (`Ring.cycles`);
* `Filling` — creates without closes take the slots from the cursor on, up to the end of the table
  (`Filling.run`).
-/

variable {T : Type}

/-! ### Handles and generations -/

/-- A handle resolves iff it carries the generation of its used slot. -/
theorem Region.slot_mkHandle {r : Region} {g : U32} {i : Nat} (hi : i < slotCount)
    (hu : (r.slots i).state = .used) (hg : (r.slots i).generation = g) :
    r.slot (mkHandle g i) = some i ↔ g.toNat < 2 ^ 18 := by
  rw [Region.slot_eq_some, handleIndex_mkHandle g hi, hg]
  have hgen := handleGen_mkHandle g hi
  constructor
  · rintro ⟨_, _, he⟩
    rw [← he] at hgen
    have := Nat.mod_lt g.toNat (show 0 < 2 ^ 18 by omega)
    omega
  · intro hlt
    refine ⟨rfl, hu, BitVec.eq_of_toNat_eq ?_⟩
    rw [hgen, Nat.mod_eq_of_lt hlt]

/-! ### Where the scan stops -/

section Scan

variable {r : Region}

/-- A free slot at the cursor is taken first. -/
theorem Region.freeSlot_cursor (hc : r.cursor < slotCount)
    (hfree : (r.slots r.cursor).state = .free) : r.freeSlot = some r.cursor := by
  show r.scanFree r.cursor (16383 + 1) 0 = _
  rw [Region.scanFree]
  simp only [Nat.add_zero, Nat.mod_eq_of_lt hc, if_pos hfree]

/-- At the start of the table the scan skips the reserved slot. -/
theorem Region.freeSlot_first (hc : r.cursor = 0) (hused : (r.slots 0).state = .used)
    (hfree : (r.slots 1).state = .free) : r.freeSlot = some 1 := by
  have hne : ¬ (r.slots 0).state = .free := by
    rw [hused]
    exact fun e => by cases e
  show r.scanFree r.cursor (16382 + 1 + 1) 0 = _
  rw [hc, Region.scanFree]
  rw [show (0 + 0) % slotCount = 0 from rfl, if_neg hne, Region.scanFree]
  simp only [show (0 + (0 + 1)) % slotCount = 1 from rfl, if_pos hfree]

end Scan

/-! ### The ring of slots -/

/-- A round of creates and closes visits every slot but the reserved one. -/
def ringSize : Nat := slotCount - 1

/-- The table after `n` creates, each followed by its close: the slots are free and were recycled
    in turn. -/
structure Ring (n : Nat) (r : Region) : Prop where
  first : (r.slots 0).state = .used
  cursor : r.cursor = if n % ringSize = 0 then 0 else n % ringSize + 1
  free : ∀ j, 1 ≤ j → j < slotCount → (r.slots j).state = .free ∧
    (r.slots j).generation =
      BitVec.ofNat 32 (if j ≤ n % ringSize then n / ringSize + 1 else n / ringSize)

/-- The cursor of a fresh region stands at the start of the ring. -/
theorem Ring.init : Ring 0 Region.init := by
  refine ⟨rfl, by decide, fun j hj _ => ?_⟩
  have hj0 : ¬ j = 0 := by omega
  have hslot : Region.init.slots j = Slot.zero := if_neg hj0
  have hle : ¬ j ≤ 0 := by omega
  rw [hslot]
  refine ⟨rfl, ?_⟩
  rw [show 0 % ringSize = 0 from rfl, if_neg hle]
  rfl

/-- The slot the next create takes. -/
def Ring.next (n : Nat) : Nat := n % ringSize + 1

/-- The next slot is one that `alloc_slot` may hand out. -/
theorem Ring.next_lt (n : Nat) : 1 ≤ Ring.next n ∧ Ring.next n < slotCount := by
  have hmod : n % ringSize < ringSize := Nat.mod_lt _ (by decide)
  have hsize : ringSize + 1 = slotCount := by decide
  unfold Ring.next
  omega

/-- **`alloc_slot` hands out the next slot of the ring.** -/
theorem Ring.freeSlot {n : Nat} {r : Region} (h : Ring n r) :
    r.freeSlot = some (Ring.next n) := by
  obtain ⟨hge, hlt⟩ := Ring.next_lt n
  have hfree : (r.slots (Ring.next n)).state = .free := (h.free _ hge hlt).1
  have hcur := h.cursor
  split at hcur
  · rename_i h0
    have hnext : Ring.next n = 1 := by rw [Ring.next, h0]
    rw [hnext] at hfree ⊢
    exact Region.freeSlot_first hcur h.first hfree
  · have hnext : r.cursor = Ring.next n := hcur
    rw [← hnext] at hfree hlt ⊢
    exact Region.freeSlot_cursor hlt hfree

/-- The cursor after a create in slot `i`. -/
theorem Region.cursor_takeSlot (r : Region) {i : Nat} :
    (r.takeSlot i).cursor = (i + 1) % slotCount := by
  have hlow : ∀ n < slotCount, ∀ x : U32,
      ((BitVec.ofNat 32 n ||| (x &&& scanWrapped)) &&& ~~~scanWrapped).toNat = n := by
    intro n hn x
    have hn' : n < 2 ^ 14 := hn
    have hand : (BitVec.ofNat 32 n ||| (x &&& scanWrapped)) &&& ~~~scanWrapped =
        BitVec.ofNat 32 n := by
      apply BitVec.eq_of_getLsbD_eq
      intro k hk
      simp only [BitVec.getLsbD_and, BitVec.getLsbD_or, BitVec.getLsbD_not, hk, decide_true,
        Bool.true_and]
      by_cases h31 : k = 31
      · have hbit : n.testBit k = false := by
          refine Nat.testBit_lt_two_pow (Nat.lt_of_lt_of_le hn' ?_)
          exact Nat.pow_le_pow_right (by omega) (by omega)
        rw [BitVec.getLsbD_ofNat, hbit, h31]
        simp [scanWrapped]
      · have hw : BitVec.getLsbD scanWrapped k = false := by
          have : ∀ k < 32, k ≠ 31 → BitVec.getLsbD scanWrapped k = false := by decide
          exact this k hk h31
        simp [hw]
    rw [hand, BitVec.toNat_ofNat, Nat.mod_eq_of_lt (by omega)]
  have hlt : (i + 1) % slotCount < slotCount := Nat.mod_lt _ (by decide)
  show ((BitVec.ofNat 32 ((i + 1) % slotCount) ||| _) &&& ~~~scanWrapped).toNat = _
  split
  · have hself := hlow _ hlt scanWrapped
    rw [BitVec.and_self] at hself
    exact hself
  · exact hlow _ hlt r.nextScan

/-- Clearing holder entries changes the holder array only. -/
theorem foldl_holder (ks : List (Fin maxHolders)) (s : Slot) :
    ∃ hs, (ks.map fun k => SlotWrite.holder k 0).foldl (fun s w => w.apply s) s =
      { s with holders := hs } := by
  induction ks generalizing s with
  | nil => exact ⟨s.holders, rfl⟩
  | cons k ks ih => exact ih { s with holders := Function.update s.holders k 0 }

/-- What a publication makes of a slot, whichever holder entries it clears. -/
theorem foldl_publish (objType : ObjType) (w0 : U64) (pid : U32) (ks : List (Fin maxHolders))
    (s : Slot) :
    ∃ hs, ([.w0 w0, .d 0, .objType objType, .pid pid, .holdersLen 0] ++
        ks.map (fun k => .holder k 0) ++ [.state .used] : List SlotWrite).foldl
        (fun s w => w.apply s) s =
      { s with
        state := .used, objType := objType, pid := pid, holdersLen := 0, w0 := w0, d := 0,
        holders := hs } := by
  rw [List.foldl_append, List.foldl_append]
  obtain ⟨hs, he⟩ := foldl_holder ks
    { s with w0 := w0, d := 0, objType := objType, pid := pid, holdersLen := 0 }
  refine ⟨hs, ?_⟩
  show SlotWrite.apply (.state .used) (List.foldl _ { s with
    w0 := w0, d := 0, objType := objType, pid := pid, holdersLen := 0 } (ks.map _)) = _
  rw [he]
  rfl

/-- A slot fresh from `create_*`. -/
theorem Region.created_slot (r : Region) (i : Nat) (k : Create) (pid : U32) :
    ∃ hs, (r.created i k pid).slots i = { r.slots i with
      waiterHead := none, state := .used, objType := k.objType, pid := pid, holdersLen := 0,
      w0 := k.word, d := 0, holders := hs } := by
  obtain ⟨hs, he⟩ := foldl_publish k.objType k.word pid (List.finRange maxHolders)
    { r.slots i with waiterHead := none }
  refine ⟨hs, Eq.trans ?_ he⟩
  simp only [Region.created, Region.takeSlot, Region.setSlot, slotPublish,
    Function.update_self]

/-- A create writes its own slot only. -/
theorem Region.created_other (r : Region) {i j : Nat} (k : Create) (pid : U32) (h : j ≠ i) :
    (r.created i k pid).slots j = r.slots j := by
  simp [Region.created, Region.takeSlot, Region.setSlot, h]

/-- A create moves the cursor past its slot. -/
theorem Region.created_cursor (r : Region) (i : Nat) (k : Create) (pid : U32) :
    (r.created i k pid).cursor = (i + 1) % slotCount :=
  r.cursor_takeSlot

/-- **Once around.** A create in the next slot and its close turn the ring by one. -/
theorem Ring.turn {n : Nat} {r : Region} (h : Ring n r) (k : Create) (pid : U32) :
    Ring (n + 1) ((r.created (Ring.next n) k pid).setSlot (Ring.next n) fun s =>
      { s with state := .free, generation := s.generation + 1 }) := by
  obtain ⟨hge, hlt⟩ := Ring.next_lt n
  have hsize : ringSize + 1 = slotCount := by decide
  have hpos : 0 < ringSize := by decide
  have hdm := Nat.div_add_mod n ringSize
  have hmod : n % ringSize < ringSize := Nat.mod_lt _ hpos
  -- what the next turn's quotient and remainder are
  have hcase : (n % ringSize + 1 < ringSize ∧ (n + 1) % ringSize = n % ringSize + 1 ∧
        (n + 1) / ringSize = n / ringSize) ∨
      (n % ringSize + 1 = ringSize ∧ (n + 1) % ringSize = 0 ∧
        (n + 1) / ringSize = n / ringSize + 1) := by
    by_cases hlast : n % ringSize + 1 < ringSize
    · refine .inl ⟨hlast, ?_, ?_⟩
      · rw [Nat.add_mod, show 1 % ringSize = 1 from rfl, Nat.mod_eq_of_lt hlast]
      · rw [Nat.succ_div, if_neg]
        · rfl
        · rintro ⟨q, hq⟩
          have : (n + 1) % ringSize = 0 := by rw [hq]; exact Nat.mul_mod_right _ _
          rw [Nat.add_mod, show 1 % ringSize = 1 from rfl, Nat.mod_eq_of_lt hlast] at this
          omega
    · have heq : n % ringSize + 1 = ringSize := by omega
      have hdvd : ringSize ∣ n + 1 := by
        refine ⟨n / ringSize + 1, ?_⟩
        rw [Nat.mul_add]
        omega
      exact .inr ⟨heq, Nat.mod_eq_zero_of_dvd hdvd, by rw [Nat.succ_div, if_pos hdvd]⟩
  obtain ⟨_, hslot⟩ := r.created_slot (Ring.next n) k pid
  refine ⟨?_, ?_, fun j hj hjlt => ?_⟩
  · have hne : (0 : Nat) ≠ Ring.next n := by omega
    rw [Region.setSlot_slots, if_neg hne, Region.created_other _ _ _ hne]
    exact h.first
  · show (r.created (Ring.next n) k pid).cursor = _
    rw [Region.created_cursor]
    rcases hcase with ⟨hl, hm, _⟩ | ⟨hl, hm, _⟩
    · rw [hm, if_neg (by omega), Nat.mod_eq_of_lt (by unfold Ring.next; omega)]
      rfl
    · rw [hm, if_pos rfl, Ring.next, hl, hsize, Nat.mod_self]
  · rw [Region.setSlot_slots]
    by_cases hjn : j = Ring.next n
    · rw [if_pos hjn]
      refine ⟨rfl, ?_⟩
      show ((r.created (Ring.next n) k pid).slots (Ring.next n)).generation + 1 = _
      have hle : ¬ Ring.next n ≤ n % ringSize := by unfold Ring.next; omega
      rw [hslot]
      show (r.slots (Ring.next n)).generation + 1 = _
      rw [(h.free _ hge hlt).2, if_neg hle, hjn]
      rcases hcase with ⟨hl, hm, hq⟩ | ⟨hl, hm, hq⟩
      · rw [hm, hq, if_pos (by unfold Ring.next; omega), BitVec.ofNat_add]
        rfl
      · rw [hm, hq, if_neg (by omega), BitVec.ofNat_add]
        rfl
    · rw [if_neg hjn, Region.created_other _ _ _ hjn]
      refine ⟨(h.free j hj hjlt).1, ?_⟩
      rw [(h.free j hj hjlt).2]
      unfold Ring.next at hjn
      rcases hcase with ⟨hl, hm, hq⟩ | ⟨hl, hm, hq⟩
      · rw [hm, hq]
        by_cases hle : j ≤ n % ringSize
        · rw [if_pos hle, if_pos (by omega)]
        · rw [if_neg hle, if_neg (by omega)]
      · rw [hm, hq, if_pos (by omega), if_neg (by omega)]

/-- A release on an empty holder array writes nothing. -/
theorem Slot.holderRemove_empty {s : Slot} (h : s.holdersLen = 0) (pid : U32) :
    s.holderRemove pid = [] := by
  have hcap : s.holderCap = 0 := by
    rw [Slot.holderCap, h]
    rfl
  have hfind : s.holderFind pid = none := by
    refine List.find?_eq_none.mpr fun k _ => ?_
    simp [hcap]
  rw [Slot.holderRemove, hfind]

section Cycles

variable [DecidableEq T] {t : T} {s : Sys T} {sh : Shared T} {pc : Pc} {n : Nat}

/-- A create up to its return, in the slot that the scan finds. -/
theorem Sys.made_run {k : Create} {i : Nat} (hk : k.valid = true)
    (hf : sh.region.freeSlot = some i) (hl : sh.lock = none)
    (ha : sh.dead (s.threads t).pid = false) (ho : pc.outside = true) :
    ∃ hist, Run Sys.step (fun _ l _ => Steady l) (s.put t sh pc) hist
      (s.put t { sh with region := sh.region.created i k (s.threads t).pid, lock := some t }
        (.create k (.unlock (.ok (mkHandle (sh.region.slots i).generation i))))) := by
  have hcall := Sys.put_enter (s := s) (t := t) (c := .create k) ha ho
  rw [show Pc.start (.create k) = .create k .lock from if_pos hk] at hcall
  obtain ⟨hist, hr⟩ := (AloneBy.create (creates_steady i k (s.threads t).pid) ⟨by simp, rfl⟩ hl
    hf).run_steady (s := s) ha
  refine ⟨_, (hcall.mono fun s l s' he => ?_).trans hr⟩
  rw [he]
  exact ⟨rfl, fun p he => by cases he⟩

/-- **A create** with its return. -/
theorem Sys.create_run {k : Create} {i : Nat} (hk : k.valid = true)
    (hf : sh.region.freeSlot = some i) (hl : sh.lock = none)
    (ha : sh.dead (s.threads t).pid = false) (ho : pc.outside = true) :
    ∃ hist, Run Sys.step (fun _ l _ => Steady l) (s.put t sh pc) hist
      (s.put t { sh with region := sh.region.created i k (s.threads t).pid }
        (.done (.create k) (.handle (.ok (mkHandle (sh.region.slots i).generation i))))) := by
  obtain ⟨h₁, hr₁⟩ := Sys.made_run (s := s) hk hf hl ha ho
  have hlast : AloneBy (fun i => i ≠ .countCall ∧ i.freesSlot? = none) t (s.threads t).pid
      { sh with region := sh.region.created i k (s.threads t).pid, lock := some t }
      (.create k (.unlock (.ok (mkHandle (sh.region.slots i).generation i))))
      { sh with region := sh.region.created i k (s.threads t).pid }
      (.done (.create k) (.handle (.ok (mkHandle (sh.region.slots i).generation i)))) := by
    refine .head (i := .unlock) (fun _ => rfl) ⟨by simp, rfl⟩ ?_
    rw [Instr.apply, ← hl]
    exact .refl
  obtain ⟨h₂, hr₂⟩ := hlast.run_steady (s := s) ha
  exact ⟨_, hr₁.trans hr₂⟩

/-- The handle the next create returns. -/
def Ring.handle (n : Nat) (r : Region) : U32 :=
  mkHandle (r.slots (Ring.next n)).generation (Ring.next n)

omit [DecidableEq T] in
/-- The handle of a turn names the turn's slot. -/
theorem Ring.handle_index (n : Nat) (r : Region) : handleIndex (Ring.handle n r) = Ring.next n :=
  handleIndex_mkHandle _ (Ring.next_lt n).2

/-- A create takes the next slot of the ring. -/
theorem Ring.create_run (h : Ring n sh.region) (hl : sh.lock = none)
    (ha : sh.dead (s.threads t).pid = false) (ho : pc.outside = true) {k : Create}
    (hk : k.valid = true) :
    ∃ hist, Run Sys.step (fun _ _ _ => True) (s.put t sh pc) hist
      (s.put t { sh with region := sh.region.created (Ring.next n) k (s.threads t).pid }
        (.done (.create k) (.handle (.ok (Ring.handle n sh.region))))) := by
  obtain ⟨hist, hr⟩ := Sys.create_run (s := s) hk h.freeSlot hl ha ho
  exact ⟨hist, hr.mono fun _ _ _ _ => trivial⟩

/-- A close of what was created in the next slot turns the ring by one. -/
theorem Ring.close_run {r : Region} {k : Create} {pid : U32} (h : Ring n r)
    (hn : n / ringSize < 2 ^ 18) (hsh : sh.region = r.created (Ring.next n) k pid)
    (hl : sh.lock = none) (ha : sh.dead (s.threads t).pid = false) (ho : pc.outside = true) :
    ∃ hist sh' pc', Run Sys.step (fun _ _ _ => True) (s.put t sh pc) hist (s.put t sh' pc') ∧
      Ring (n + 1) sh'.region ∧ sh'.lock = none ∧ sh'.dead = sh.dead ∧ pc'.outside = true := by
  obtain ⟨hge, hlt⟩ := Ring.next_lt n
  obtain ⟨_, hslot⟩ := r.created_slot (Ring.next n) k pid
  rw [← hsh] at hslot
  have hidx := Ring.handle_index n r
  have hfit : (r.slots (Ring.next n)).generation.toNat < 2 ^ 18 := by
    have hle : ¬ Ring.next n ≤ n % ringSize := by unfold Ring.next; omega
    rw [(h.free _ hge hlt).2, if_neg hle, BitVec.toNat_ofNat, Nat.mod_eq_of_lt (by omega)]
    exact hn
  have hcall := Sys.put_call (s := s) (t := t) (c := .close (Ring.handle n r)) ha ho
  rw [show Pc.start (.close (Ring.handle n r)) = .close _ .lock from
    if_neg (by rw [hidx]; omega)] at hcall
  have hres : sh.region.slot (Ring.handle n r) = some (handleIndex (Ring.handle n r)) := by
    rw [hidx]
    exact (Region.slot_mkHandle hlt (by rw [hslot]) (by rw [hslot])).mpr hfit
  obtain ⟨hist, hr⟩ := (Alone.close t (s.threads t).pid hl hres
    (by rw [hidx, hslot]; exact Slot.holderRemove_empty rfl _) (by rw [hidx, hslot])).run (s := s) ha
  refine ⟨_, _, _, hcall.trans hr, ?_, hl, rfl, rfl⟩
  rw [hidx, hsh]
  exact h.turn k pid

/-- **Recycling.** A thread that creates an object and closes it turns the ring by one, as long as
    the handle it gets can be closed. -/
theorem Ring.cycle (h : Ring n sh.region) (hl : sh.lock = none)
    (ha : sh.dead (s.threads t).pid = false) (ho : pc.outside = true)
    (hn : n / ringSize < 2 ^ 18) :
    ∃ hist sh' pc', Run Sys.step (fun _ _ _ => True) (s.put t sh pc) hist (s.put t sh' pc') ∧
      Ring (n + 1) sh'.region ∧ sh'.lock = none ∧ sh'.dead = sh.dead ∧ pc'.outside = true := by
  obtain ⟨h₁, hr₁⟩ := h.create_run (k := .event true false) hl ha ho rfl
  obtain ⟨h₂, sh', pc', hr₂, hring, hl', hd', ho'⟩ := h.close_run (s := s) (t := t) hn
    (show ({ sh with region := sh.region.created (Ring.next n) (.event true false) _ } :
      Shared T).region = _ from rfl) hl ha
    (show Pc.outside (.done (.create (.event true false)) _) = true from rfl)
  exact ⟨_, sh', pc', hr₁.trans hr₂, hring, hl', hd', ho'⟩

/-- One thread creates and closes `m` objects, one after another, and is `m` slots further. -/
theorem Ring.cycles {m : Nat} (h : Ring n sh.region) (hl : sh.lock = none)
    (ha : sh.dead (s.threads t).pid = false) (ho : pc.outside = true)
    (hm : n + m ≤ 2 ^ 18 * ringSize) :
    ∃ hist sh' pc', Run Sys.step (fun _ _ _ => True) (s.put t sh pc) hist (s.put t sh' pc') ∧
      Ring (n + m) sh'.region ∧ sh'.lock = none ∧ sh'.dead = sh.dead ∧ pc'.outside = true := by
  induction m with
  | zero => exact ⟨[], sh, pc, .nil, h, hl, rfl, ho⟩
  | succ m ih =>
    obtain ⟨h₁, sh₁, pc₁, hr₁, hring, hl₁, hd₁, ho₁⟩ := ih (by omega)
    have hlt : (n + m) / ringSize < 2 ^ 18 := by
      rw [Nat.div_lt_iff_lt_mul (by decide)]
      omega
    obtain ⟨h₂, sh₂, pc₂, hr₂, hring₂, hl₂, hd₂, ho₂⟩ :=
      hring.cycle (s := s) (t := t) hl₁ (by rw [hd₁]; exact ha) ho₁ hlt
    exact ⟨_, sh₂, pc₂, hr₁.trans hr₂, hring₂, hl₂, hd₂.trans hd₁, ho₂⟩

end Cycles

/-! ### Filling the table -/

/-- `n` creates of process `pid` have taken the slots of the table `r₀` from its cursor on. -/
structure Filling (k : Create) (pid : U32) (r₀ : Region) (n : Nat) (r : Region) : Prop where
  cursor : r.cursor = (r₀.cursor + n) % slotCount
  made : ∀ j, r₀.cursor ≤ j → j < r₀.cursor + n → r.slots j = (r₀.created j k pid).slots j
  rest : ∀ j, ¬ (r₀.cursor ≤ j ∧ j < r₀.cursor + n) → r.slots j = r₀.slots j

section Filling

variable {k : Create} {pid : U32} {r₀ r : Region} {n : Nat}

/-- Nothing has been filled yet. -/
theorem Filling.init (hc : r₀.cursor < slotCount) : Filling k pid r₀ 0 r₀ :=
  ⟨(Nat.mod_eq_of_lt hc).symm, fun j hge hlt => absurd hge (by omega), fun _ _ => rfl⟩

/-- What a create makes of its slot depends on nothing but the slot. -/
theorem Region.created_congr {r r' : Region} {i : Nat} (h : r.slots i = r'.slots i) :
    (r.created i k pid).slots i = (r'.created i k pid).slots i := by
  simp [Region.created, Region.takeSlot, Region.setSlot, h]

/-- **One more create** takes the next slot. -/
theorem Filling.next (h : Filling k pid r₀ n r) (hlt : r₀.cursor + n < slotCount)
    (hfree : (r₀.slots (r₀.cursor + n)).state = .free) :
    r.freeSlot = some (r₀.cursor + n) ∧
      Filling k pid r₀ (n + 1) (r.created (r₀.cursor + n) k pid) := by
  have hcur : r.cursor = r₀.cursor + n := h.cursor.trans (Nat.mod_eq_of_lt hlt)
  have hslot : r.slots (r₀.cursor + n) = r₀.slots (r₀.cursor + n) := h.rest _ (by omega)
  refine ⟨?_, ?_, fun j hge hj => ?_, fun j hj => ?_⟩
  · rw [← hslot, ← hcur] at hfree
    rw [← hcur]
    exact Region.freeSlot_cursor (by omega) hfree
  · rw [Region.created_cursor, Nat.add_assoc]
  · by_cases hjn : j = r₀.cursor + n
    · subst hjn
      exact Region.created_congr hslot
    · rw [Region.created_other _ _ _ hjn]
      exact h.made j hge (by omega)
  · rw [Region.created_other _ _ _ (by omega)]
    exact h.rest j (by omega)

variable [DecidableEq T] {t : T} {s : Sys T} {sh : Shared T} {pc : Pc}

/-- **Creates without closes** take the free slots from the cursor on, and free none. -/
theorem Filling.run (hk : k.valid = true) (hl : sh.lock = none)
    (ha : sh.dead (s.threads t).pid = false) (ho : pc.outside = true)
    (hn : sh.region.cursor + n ≤ slotCount) (hc : sh.region.cursor < slotCount)
    (hfree : ∀ j, sh.region.cursor ≤ j → j < sh.region.cursor + n →
      (sh.region.slots j).state = .free) :
    ∃ hist sh' pc', Run Sys.step (fun _ l _ => Steady l) (s.put t sh pc) hist (s.put t sh' pc') ∧
      Filling k (s.threads t).pid sh.region n sh'.region ∧ sh'.lock = none ∧ sh'.dead = sh.dead ∧
      pc'.outside = true := by
  induction n with
  | zero => exact ⟨[], sh, pc, .nil, .init hc, hl, rfl, ho⟩
  | succ n ih =>
    obtain ⟨h₁, sh₁, pc₁, hr₁, hfill, hl₁, hd₁, ho₁⟩ := ih (by omega)
      fun j hge hlt => hfree j hge (by omega)
    obtain ⟨hslot, hnext⟩ := hfill.next (by omega) (hfree _ (by omega) (by omega))
    obtain ⟨h₂, hr₂⟩ := Sys.create_run (s := s) hk hslot hl₁ (by rw [hd₁]; exact ha) ho₁
    exact ⟨_, _, _, hr₁.trans hr₂, hnext, hl₁, hd₁, rfl⟩

end Filling

end Ntsync
