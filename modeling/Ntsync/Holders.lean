import Mathlib
import Ntsync.Handles
import Ntsync.Lifetime
import Ntsync.Lib.Bounded

namespace Ntsync

open Words Bounded

/-!
# The holder array is a set of bounded size

`retain` and `release` keep the pids of an object's holders in an array of eight entries, with a
length whose top bit marks for good that a ninth holder found no room.

* `Slot.hold` — one call, as the stores of `holder_add` or `holder_remove`; `Alone.hold` — that is
  what the call does to the shared memory;
* `Slot.Represents` — the array stands for a `Roster`;
* `Represents.add`, `Represents.remove` — the two operations are those of the roster;
* `holders_refine` — what a history of calls leaves behind.
-/

/-- A `retain` (`true`) or a `release` (`false`) by a process. -/
def Slot.hold (s : Slot) (x : Bool × U32) : Slot :=
  (if x.1 then s.holderAdd x.2 else s.holderRemove x.2).foldl (fun s w => w.apply s) s

/-- Calls in a row. -/
def Slot.holdAll (s : Slot) (l : List (Bool × U32)) : Slot := l.foldl Slot.hold s

/-- The slot after `slot_publish`. -/
def Slot.published (s : Slot) (objType : ObjType) (w0 : U64) (pid : U32) : Slot :=
  (slotPublish objType w0 pid).foldl (fun s w => w.apply s) s

/-! ### The calls -/

section Calls

variable {T : Type} {t : T} {pid : U32} {sh : Shared T} {hd : U32}

/-- The stores of a `retain` or a `release`, one after the other. -/
theorem Alone.holdWrites (add : Bool) (ws : List SlotWrite) (sh : Shared T) :
    Alone t pid sh (.hold add hd (.write ws))
      { sh with region := sh.region.setSlot (handleIndex hd) fun s =>
          ws.foldl (fun s w => w.apply s) s } (.hold add hd (.write [])) := by
  induction ws generalizing sh with
  | nil =>
    have hsame : sh.region.setSlot (handleIndex hd) (fun s => s) = sh.region := by
      simp [Region.setSlot]
    simp only [List.foldl_nil, hsame]
    exact .refl
  | cons w ws ih =>
    refine .head (i := .store (handleIndex hd) w) (fun _ => rfl) (by simp) ?_
    have hrest := ih ((Instr.store (handleIndex hd) w).apply t pid sh)
    simp only [Instr.apply, Region.setSlot_setSlot] at hrest
    exact hrest

/-- **A `retain` or a `release`** of an object does to its slot what `Slot.hold` says. -/
theorem Alone.hold (t : T) (pid : U32) (add : Bool) (hl : sh.lock = none)
    (hs : sh.region.slot hd = some (handleIndex hd)) :
    Alone t pid sh (.hold add hd .lock)
      { sh with region := sh.region.setSlot (handleIndex hd) fun s => s.hold (add, pid) }
      (.done (.hold add hd) (.unit (.ok ()))) := by
  have hunlock (r : Region) : Alone t pid ⟨r, some t, sh.dead⟩ (.hold add hd (.unlock (.ok ())))
      { sh with region := r } (.done (.hold add hd) (.unit (.ok ()))) := by
    refine .head (i := .unlock) (fun _ => rfl) (by simp) ?_
    rw [Instr.apply, ← hl]
    exact .refl
  refine .head (i := .lock) (q := .hold add hd .check) (fun _ => ?_) (by simp) ?_
  · simp [tick, holdTick, takeLock, hl]
  cases add with
  | true =>
    refine .head (i := .silent) (q := .hold true hd (.write
      ((sh.region.slots (handleIndex hd)).holderAdd pid))) (fun _ => ?_) (by simp) ?_
    · show holdTick (Instr.lock.apply t pid sh) pid true hd .check = _
      simp only [holdTick, Instr.apply, hs, if_true]
    refine (Alone.holdWrites true _ _).trans ?_
    refine .head (i := .silent) (fun _ => rfl) (by simp) ?_
    exact .head (i := .hold true (handleIndex hd)) (fun _ => rfl) (by simp) (hunlock _)
  | false =>
    refine .head (i := .silent) (q := .hold false hd (.mark
      ((sh.region.slots (handleIndex hd)).holderRemove pid))) (fun _ => ?_) (by simp) ?_
    · show holdTick (Instr.lock.apply t pid sh) pid false hd .check = _
      simp only [holdTick, Instr.apply, hs, Bool.false_eq_true, if_false]
    refine .head (i := .hold false (handleIndex hd)) (fun _ => rfl) (by simp) ?_
    refine (Alone.holdWrites false _ _).trans ?_
    exact .head (i := .silent) (fun _ => rfl) (by simp) (hunlock _)

end Calls

/-! ### The array -/

/-- The slot's holder array stands for the roster `H`. -/
structure Slot.Represents (s : Slot) (H : Roster U32 maxHolders) : Prop where
  /-- the length field, without the overflow bit -/
  len : (s.holdersLen &&& ~~~holderOverflow).toNat = H.members.card
  distinct : ∀ j k : Fin maxHolders, j.val < s.holderCap → k.val < s.holderCap →
    s.holders j = s.holders k → j = k
  nonzero : ∀ k : Fin maxHolders, k.val < s.holderCap → s.holders k ≠ 0
  cleared : ∀ k : Fin maxHolders, s.holderCap ≤ k.val → s.holders k = 0
  mem : ∀ p, p ∈ H.members ↔ s.tracks p
  mark : H.overflowed = true ↔ s.overflowed

section Array

variable {s : Slot} {H : Roster U32 maxHolders} {pid : U32}

/-- What `holder_find` finds is a tracked entry of the process. -/
theorem Slot.holderFind_some {k : Fin maxHolders} (h : s.holderFind pid = some k) :
    k.val < s.holderCap ∧ s.holders k = pid := by
  have hk := List.find?_some h
  rwa [decide_eq_true_eq] at hk

/-- What `holder_find` does not find is not tracked. -/
theorem Slot.holderFind_none (h : s.holderFind pid = none) : ¬ s.tracks pid := by
  rintro ⟨k, hk⟩
  have hno := List.find?_eq_none.mp h k (List.mem_finRange k)
  rw [decide_eq_true_eq] at hno
  exact hno hk

/-- Entries cleared one after the other. -/
theorem Slot.foldl_clear (ks : List (Fin maxHolders)) (s : Slot) :
    ((ks.map fun k => SlotWrite.holder k 0).foldl (fun s w => w.apply s) s) =
      { s with holders := fun k => if k ∈ ks then 0 else s.holders k } := by
  induction ks generalizing s with
  | nil => simp
  | cons j ks ih =>
    rw [List.map_cons, List.foldl_cons, ih]
    show Slot.mk _ _ _ _ _ _ _ _ _ = _
    congr 1
    funext k
    show (if k ∈ ks then 0 else Function.update s.holders j 0 k) = _
    by_cases hk : k ∈ ks
    · simp [hk]
    · by_cases hkj : k = j <;> simp [hk, hkj]

/-- `slot_publish` empties the array. -/
theorem Slot.published_holders (s : Slot) (objType : ObjType) (w0 : U64) (creator : U32) :
    (s.published objType w0 creator).holdersLen = 0 ∧
      ∀ k, (s.published objType w0 creator).holders k = 0 := by
  unfold Slot.published slotPublish
  rw [List.foldl_append, List.foldl_append, Slot.foldl_clear]
  exact ⟨rfl, fun k => if_pos (List.mem_finRange k)⟩

namespace Slot.Represents

/-- The array has as many entries as the roster has members. -/
theorem cap (h : s.Represents H) : s.holderCap = H.members.card := by
  rw [holderCap, h.len]
  exact Nat.min_eq_left H.card_le

/-- A slot just published has an empty roster. -/
theorem published (s : Slot) (objType : ObjType) (w0 : U64) (creator : U32) :
    (s.published objType w0 creator).Represents Roster.empty := by
  obtain ⟨hlen, hholders⟩ := s.published_holders objType w0 creator
  have hcap : (s.published objType w0 creator).holderCap = 0 := by
    rw [holderCap, hlen]
    rfl
  refine ⟨by rw [hlen]; rfl, fun j k hj => ?_, fun k hk => ?_, fun k _ => hholders k,
    fun p => ?_, ?_⟩
  · rw [hcap] at hj
    exact absurd hj (Nat.not_lt_zero _)
  · rw [hcap] at hk
    exact absurd hk (Nat.not_lt_zero _)
  · refine ⟨fun hp => absurd hp (Finset.notMem_empty p), ?_⟩
    rintro ⟨k, hk, _⟩
    rw [hcap] at hk
    exact absurd hk (Nat.not_lt_zero _)
  · rw [overflowed, hlen]
    exact ⟨fun h => (by cases h), fun h => absurd rfl h⟩

/-- The length field after a store of `n`. -/
theorem len_store {n : Nat} (hn : n ≤ maxHolders) (s : Slot) (len : U32) :
    (((SlotWrite.holdersLen (BitVec.ofNat 32 n ||| (len &&& holderOverflow))).apply s).holdersLen &&&
      ~~~holderOverflow).toNat = n :=
  (Slot.count_or_overflow hn len).1

/-- **`holder_add`** adds to the roster. -/
theorem add (h : s.Represents H) (hp : pid ≠ 0) : (s.hold (true, pid)).Represents (H.add pid) := by
  show ((s.holderAdd pid).foldl (fun s w => w.apply s) s).Represents (H.add pid)
  unfold Slot.holderAdd
  split
  · -- already recorded
    rename_i k hf
    rw [Roster.add_of_mem ((h.mem pid).mpr ⟨k, Slot.holderFind_some hf⟩)]
    exact h
  · rename_i hf
    have hno : pid ∉ H.members := fun hm => Slot.holderFind_none hf ((h.mem pid).mp hm)
    split
    · -- the new entry stands behind the tracked ones
      rename_i hroom
      have hcap := h.cap
      obtain ⟨hmem, hmark⟩ := Roster.add_of_room hno (by omega)
      have hle : s.holderCap + 1 ≤ maxHolders := hroom
      set last : Fin maxHolders := ⟨s.holderCap, hroom⟩ with hlast
      set s' : Slot := (SlotWrite.holder last pid).apply s with hs'
      show ((SlotWrite.holdersLen (BitVec.ofNat 32 (s.holderCap + 1) |||
        (s.holdersLen &&& holderOverflow))).apply s').Represents _
      set s'' : Slot := (SlotWrite.holdersLen (BitVec.ofNat 32 (s.holderCap + 1) |||
        (s.holdersLen &&& holderOverflow))).apply s' with hs''
      have hcap' : s''.holderCap = s.holderCap + 1 := Slot.holderCap_store hle s' _
      have hnew : s''.holders last = pid := Function.update_self ..
      have hold (k : Fin maxHolders) (hk : k ≠ last) : s''.holders k = s.holders k :=
        Function.update_of_ne hk ..
      -- a position of the longer array is an old one or the new one
      have hcases (k : Fin maxHolders) (hk : k.val < s''.holderCap) :
          k = last ∨ k ≠ last ∧ k.val < s.holderCap := by
        rw [hcap'] at hk
        by_cases hkl : k = last
        · exact .inl hkl
        · have hne : k.val ≠ s.holderCap := fun e => hkl (Fin.ext e)
          exact .inr ⟨hkl, by omega⟩
      have hfresh (k : Fin maxHolders) (hk : k.val < s.holderCap) : s.holders k ≠ pid :=
        fun e => hno ((h.mem pid).mpr ⟨k, hk, e⟩)
      refine ⟨?_, fun j k hj hk he => ?_, fun k hk => ?_, fun k hk => ?_, fun p => ?_, ?_⟩
      · rw [hmem, Finset.card_insert_of_notMem hno, ← hcap]
        exact len_store hle s' _
      · rcases hcases j hj with rfl | ⟨hjl, hj'⟩ <;> rcases hcases k hk with rfl | ⟨hkl, hk'⟩
        · rfl
        · rw [hnew, hold k hkl] at he
          exact absurd he.symm (hfresh k hk')
        · rw [hnew, hold j hjl] at he
          exact absurd he (hfresh j hj')
        · rw [hold j hjl, hold k hkl] at he
          exact h.distinct j k hj' hk' he
      · rcases hcases k hk with rfl | ⟨hkl, hk'⟩
        · rw [hnew]
          exact hp
        · rw [hold k hkl]
          exact h.nonzero k hk'
      · rw [hcap'] at hk
        have hkl : k ≠ last := by
          rintro rfl
          exact absurd hk (Nat.not_succ_le_self _)
        rw [hold k hkl]
        exact h.cleared k (by omega)
      · rw [hmem, Finset.mem_insert, h.mem]
        constructor
        · rintro (rfl | ⟨k, hk, rfl⟩)
          · exact ⟨last, by rw [hcap']; exact Nat.lt_succ_self _, hnew⟩
          · have hkl : k ≠ last := by
              rintro rfl
              exact absurd hk (lt_irrefl _)
            exact ⟨k, by omega, hold k hkl⟩
        · rintro ⟨k, hk, rfl⟩
          rcases hcases k hk with rfl | ⟨hkl, hk'⟩
          · exact .inl hnew
          · exact .inr ⟨k, hk', (hold k hkl).symm⟩
      · rw [hmark, h.mark]
        exact (Slot.overflowed_store hle s' _).symm
    · -- no room: only the overflow bit is set
      rename_i hfull
      have hcard : H.members.card = maxHolders := by
        have hle := H.card_le
        have hcap := h.cap
        omega
      rw [Roster.add_of_full hno hcard]
      have hbit : (s.holdersLen ||| holderOverflow) &&& ~~~holderOverflow =
          s.holdersLen &&& ~~~holderOverflow := by
        ext k hk
        simp only [BitVec.getElem_and, BitVec.getElem_or, BitVec.getElem_not]
        cases holderOverflow[k] <;> simp
      have hset : (s.holdersLen ||| holderOverflow) &&& holderOverflow = holderOverflow := by
        ext k hk
        simp only [BitVec.getElem_and, BitVec.getElem_or]
        cases holderOverflow[k] <;> simp
      set s' : Slot := (SlotWrite.holdersLen (s.holdersLen ||| holderOverflow)).apply s with hs'
      show s'.Represents _
      have hcap' : s'.holderCap = s.holderCap := by
        show min ((s.holdersLen ||| holderOverflow) &&& ~~~holderOverflow).toNat maxHolders = _
        rw [hbit]
        rfl
      refine ⟨?_, ?_, ?_, ?_, ?_, ?_⟩
      · show ((s.holdersLen ||| holderOverflow) &&& ~~~holderOverflow).toNat = _
        rw [hbit]
        exact h.len
      · rw [hcap']
        exact h.distinct
      · rw [hcap']
        exact h.nonzero
      · rw [hcap']
        exact h.cleared
      · unfold Slot.tracks
        rw [hcap']
        exact h.mem
      · refine ⟨fun _ => ?_, fun _ => rfl⟩
        show (s.holdersLen ||| holderOverflow) &&& holderOverflow ≠ 0
        rw [hset]
        decide

/-- **`holder_remove`** removes from the roster. -/
theorem remove (h : s.Represents H) : (s.hold (false, pid)).Represents (H.remove pid) := by
  show ((s.holderRemove pid).foldl (fun s w => w.apply s) s).Represents (H.remove pid)
  unfold Slot.holderRemove
  split
  · -- nothing to remove
    rename_i hf
    have hno : pid ∉ H.members := fun hm => Slot.holderFind_none hf ((h.mem pid).mp hm)
    have hsame : H.remove pid = H := Roster.ext (Finset.erase_eq_of_notMem hno) rfl
    rw [hsame]
    exact h
  · rename_i k hf
    obtain ⟨hk, hkp⟩ := Slot.holderFind_some hf
    have hcap := h.cap
    have hmax := s.holderCap_le
    have hle : s.holderCap - 1 ≤ maxHolders := by omega
    generalize hlast : (⟨s.holderCap - 1, _⟩ : Fin maxHolders) = last
    have hlastv : last.val = s.holderCap - 1 := by rw [← hlast]
    set s' : Slot := (SlotWrite.holder last 0).apply ((SlotWrite.holder k (s.holders last)).apply s)
      with hs'
    show ((SlotWrite.holdersLen (BitVec.ofNat 32 (s.holderCap - 1) |||
      (s.holdersLen &&& holderOverflow))).apply s').Represents _
    set s'' : Slot := (SlotWrite.holdersLen (BitVec.ofNat 32 (s.holderCap - 1) |||
      (s.holdersLen &&& holderOverflow))).apply s' with hs''
    have hcap' : s''.holderCap = s.holderCap - 1 := Slot.holderCap_store hle s' _
    -- where the entry now at `j` stood before
    have hfrom (j : Fin maxHolders) (hj : j.val < s''.holderCap) :
        s''.holders j = s.holders (if j = k then last else j) := by
      have hjl : j ≠ last := by
        rintro rfl
        omega
      show Function.update (Function.update s.holders k (s.holders last)) last 0 j = _
      rw [Function.update_of_ne hjl]
      by_cases hjk : j = k
      · rw [if_pos hjk, hjk, Function.update_self]
      · rw [if_neg hjk, Function.update_of_ne hjk]
    have hbelow (j : Fin maxHolders) (hj : j.val < s''.holderCap) :
        (if j = k then last else j).val < s.holderCap ∧ (if j = k then last else j) ≠ k := by
      by_cases hjk : j = k
      · rw [if_pos hjk]
        refine ⟨by omega, fun e => ?_⟩
        rw [hjk, ← e] at hj
        omega
      · rw [if_neg hjk]
        exact ⟨by omega, hjk⟩
    refine ⟨?_, fun i j hi hj he => ?_, fun j hj => ?_, fun j hj => ?_, fun p => ?_, ?_⟩
    · rw [Roster.remove_members, Finset.card_erase_of_mem ((h.mem pid).mpr ⟨k, hk, hkp⟩), ← hcap]
      exact len_store hle s' _
    · rw [hfrom i hi, hfrom j hj] at he
      have hij := h.distinct _ _ (hbelow i hi).1 (hbelow j hj).1 he
      by_cases hik : i = k <;> by_cases hjk : j = k
      · rw [hik, hjk]
      · rw [if_pos hik, if_neg hjk] at hij
        rw [← hij] at hj
        omega
      · rw [if_neg hik, if_pos hjk] at hij
        rw [hij] at hi
        omega
      · rwa [if_neg hik, if_neg hjk] at hij
    · rw [hfrom j hj]
      exact h.nonzero _ (hbelow j hj).1
    · show Function.update (Function.update s.holders k (s.holders last)) last 0 j = 0
      by_cases hjl : j = last
      · rw [hjl, Function.update_self]
      · have hne : j.val ≠ last.val := fun e => hjl (Fin.ext e)
        have hjk : j ≠ k := by
          rintro rfl
          omega
        rw [Function.update_of_ne hjl, Function.update_of_ne hjk]
        exact h.cleared j (by omega)
    · rw [Roster.remove_members, Finset.mem_erase, h.mem]
      constructor
      · rintro ⟨hpp, j, hj, rfl⟩
        have hjk : j ≠ k := by
          rintro rfl
          exact hpp hkp
        by_cases hjl : j = last
        · -- the last entry moved into the gap
          have hne : k.val ≠ last.val := fun e => hjk (hjl.trans (Fin.ext e).symm)
          have hk' : k.val < s''.holderCap := by omega
          exact ⟨k, hk', by rw [hfrom k hk', if_pos rfl, hjl]⟩
        · have hne : j.val ≠ last.val := fun e => hjl (Fin.ext e)
          have hj' : j.val < s''.holderCap := by omega
          exact ⟨j, hj', by rw [hfrom j hj', if_neg hjk]⟩
      · rintro ⟨j, hj, rfl⟩
        rw [hfrom j hj]
        obtain ⟨hlt, hne⟩ := hbelow j hj
        refine ⟨fun e => hne (h.distinct _ _ hlt hk (e.trans hkp.symm)), _, hlt, rfl⟩
    · rw [Roster.remove_overflowed, h.mark]
      exact (Slot.overflowed_store hle s' _).symm

/-- One call is one request. -/
theorem hold (h : s.Represents H) {x : Bool × U32} (hx : x.2 ≠ 0) :
    (s.hold x).Represents (H.request x) := by
  obtain ⟨isAdd, p⟩ := x
  cases isAdd with
  | true => exact h.add hx
  | false => exact h.remove

/-- **The array follows the roster** through any calls. -/
theorem holdAll (h : s.Represents H) {l : List (Bool × U32)} (hl : ∀ x ∈ l, x.2 ≠ 0) :
    (s.holdAll l).Represents (H.serve l) := by
  induction l generalizing s H with
  | nil => exact h
  | cons x l ih =>
    exact ih (h.hold (hl x (List.mem_cons_self ..))) fun y hy => hl y (List.mem_cons_of_mem _ hy)

/-- The call would be the ninth holder. -/
theorem refuses_iff (h : s.Represents H) {x : Bool × U32} :
    H.Refuses x ↔ x.1 = true ∧ ¬ s.tracks x.2 ∧ s.holderCap = maxHolders := by
  unfold Roster.Refuses
  rw [h.mem, h.cap]

end Slot.Represents

/-! ### Calls that change nothing, or only the mark -/

/-- A holder that retains again changes nothing. -/
theorem Slot.retain_tracked (h : s.tracks pid) : s.hold (true, pid) = s := by
  show (s.holderAdd pid).foldl (fun s w => w.apply s) s = s
  unfold Slot.holderAdd
  split
  · rfl
  · rename_i hf
    exact absurd h (Slot.holderFind_none hf)

/-- A release by a process that is no holder changes nothing. -/
theorem Slot.release_untracked (h : ¬ s.tracks pid) : s.hold (false, pid) = s := by
  show (s.holderRemove pid).foldl (fun s w => w.apply s) s = s
  unfold Slot.holderRemove
  split
  · rfl
  · rename_i k hf
    exact absurd ⟨k, Slot.holderFind_some hf⟩ h

/-- A retain that finds the array full sets the mark. -/
theorem Slot.retain_full (h : ¬ s.tracks pid) (hcap : s.holderCap = maxHolders) :
    s.hold (true, pid) = { s with holdersLen := s.holdersLen ||| holderOverflow } := by
  show (s.holderAdd pid).foldl (fun s w => w.apply s) s = _
  unfold Slot.holderAdd
  split
  · rename_i k hf
    exact absurd ⟨k, Slot.holderFind_some hf⟩ h
  · rw [dif_neg (by omega)]
    rfl

/-- Marking an overflowed array again stores the length it has. -/
theorem Slot.overflowed_or {s : Slot} (ho : s.overflowed) :
    { s with holdersLen := s.holdersLen ||| holderOverflow } = s := by
  -- the mark is one bit
  have hlow : ∀ k < 32, k ≠ 31 → holderOverflow.getLsbD k = false := by decide
  have hbit : s.holdersLen.getLsbD 31 = true := by
    by_contra hclear
    refine ho (BitVec.eq_of_getLsbD_eq fun k hk => ?_)
    have hzero : BitVec.getLsbD (0 : U32) k = false := BitVec.getLsbD_zero
    rw [BitVec.getLsbD_and, hzero]
    by_cases hk31 : k = 31
    · rw [hk31, Bool.eq_false_iff.mpr hclear, Bool.false_and]
    · rw [hlow k hk hk31, Bool.and_false]
  have hlen : s.holdersLen ||| holderOverflow = s.holdersLen := by
    refine BitVec.eq_of_getLsbD_eq fun k hk => ?_
    rw [BitVec.getLsbD_or]
    by_cases hk31 : k = 31
    · rw [hk31, hbit, Bool.true_or]
    · rw [hlow k hk hk31, Bool.or_false]
  rw [hlen]

/-- A call that changes nothing about the roster changes nothing about the array. -/
theorem Slot.Represents.hold_same (h : s.Represents H) {x : Bool × U32} (hx : H.request x = H) :
    s.hold x = s := by
  obtain ⟨isAdd, p⟩ := x
  cases isAdd with
  | false =>
    refine Slot.release_untracked fun ht => ?_
    have hmem := (h.mem p).mpr ht
    rw [← hx] at hmem
    exact Finset.notMem_erase p H.members hmem
  | true =>
    by_cases ht : s.tracks p
    · exact Slot.retain_tracked ht
    · -- the array is full, and its mark is set already
      have hadd : H.add p = H := hx
      have hno : p ∉ H.members := fun hm => ht ((h.mem p).mp hm)
      have hfull : H.members.card = maxHolders := by
        by_contra hne
        refine hno ?_
        rw [← hadd, (Roster.add_of_room hno (lt_of_le_of_ne H.card_le hne)).1]
        exact Finset.mem_insert_self ..
      rw [Roster.add_of_full hno hfull] at hadd
      have hmark : H.overflowed = true := (congrArg Roster.overflowed hadd).symm
      rw [Slot.retain_full ht (h.cap.trans hfull), Slot.overflowed_or (h.mark.mp hmark)]

/-- **A second call changes nothing**, since a second request does not. -/
theorem Slot.hold_hold (h : s.Represents H) {x : Bool × U32} (hx : x.2 ≠ 0) :
    (s.hold x).hold x = s.hold x :=
  (h.hold hx).hold_same Roster.request_request

end Array

/-! ### Histories -/

/-- **The holder array refines a set.** After `slot_publish` and any calls of `retain` and `release`
    by nonzero pids: the tracked entries are nonzero and distinct, the others zero, and there are at
    most eight; a call made again changes nothing; while the overflow bit is clear the tracked pids
    are those whose latest call was a `retain`; and the bit is set iff some `retain` by an untracked
    pid met eight tracked holders. -/
theorem holders_refine (s₀ : Slot) (objType : ObjType) (w0 : U64) (creator : U32)
    (l : List (Bool × U32)) (hl : ∀ x ∈ l, x.2 ≠ 0) :
    let publish := s₀.published objType w0 creator
    let s := publish.holdAll l
    ((s.holdersLen &&& ~~~holderOverflow).toNat = s.holderCap ∧ s.holderCap ≤ maxHolders ∧
      (∀ k : Fin maxHolders, s.holders k ≠ 0 ↔ k.val < s.holderCap) ∧
      ∀ j k : Fin maxHolders, j.val < s.holderCap → k.val < s.holderCap →
        s.holders j = s.holders k → j = k) ∧
    (∀ x : Bool × U32, x.2 ≠ 0 → (s.hold x).hold x = s.hold x) ∧
    (¬ s.overflowed → ∀ p, s.tracks p ↔ Roster.latest p l = some true) ∧
    (s.overflowed ↔ ∃ l₁ p l₂, l = l₁ ++ (true, p) :: l₂ ∧
      ¬ (publish.holdAll l₁).tracks p ∧ (publish.holdAll l₁).holderCap = maxHolders) := by
  intro publish s
  have hall {l' : List (Bool × U32)} (hl' : ∀ x ∈ l', x.2 ≠ 0) :
      (publish.holdAll l').Represents (Roster.empty.serve l') :=
    (Slot.Represents.published s₀ objType w0 creator).holdAll hl'
  have h := hall hl
  refine ⟨⟨h.len.trans h.cap.symm, s.holderCap_le, fun k => ⟨fun hk => ?_, h.nonzero k⟩,
    h.distinct⟩, fun x hx => Slot.hold_hold h hx, fun ho p => ?_, ?_⟩
  · by_contra hlt
    exact hk (h.cleared k (Nat.le_of_not_lt hlt))
  · rw [← h.mem, Roster.mem_serve_iff (Bool.eq_false_iff.mpr fun hm => ho (h.mark.mp hm))]
  · rw [← h.mark, Roster.overflowed_serve_iff]
    constructor
    · rintro ⟨l₁, ⟨isAdd, p⟩, l₂, rfl, hx⟩
      have h₁ := hall fun x hx => hl x (List.mem_append_left _ hx)
      obtain ⟨rfl, hno, hcap⟩ := h₁.refuses_iff.mp hx
      exact ⟨l₁, p, l₂, rfl, hno, hcap⟩
    · rintro ⟨l₁, p, l₂, rfl, hno, hcap⟩
      have h₁ := hall fun x hx => hl x (List.mem_append_left _ hx)
      exact ⟨l₁, (true, p), l₂, rfl, h₁.refuses_iff.mpr ⟨rfl, hno, hcap⟩⟩

/-- Nine processes retain an object, and one of the first eight releases it again. -/
def crowd : List (Bool × U32) :=
  (List.range 9).map (fun k => (true, BitVec.ofNat 32 (k + 1))) ++ [(false, 3)]

/-- The ninth holder is not tracked, and the array says so for good. -/
theorem holders_refine_crowd :
    ∃ l₁ p l₂, crowd = l₁ ++ (true, p) :: l₂ ∧
      ¬ ((Slot.zero.published .event 0 7).holdAll l₁).tracks p ∧
      ((Slot.zero.published .event 0 7).holdAll l₁).holderCap = maxHolders := by
  have hpids : ∀ x ∈ crowd, x.2 ≠ 0 := by
    intro x hx
    simp only [crowd, List.mem_append, List.mem_map, List.mem_range, List.mem_singleton] at hx
    rcases hx with ⟨k, hk, rfl⟩ | rfl
    · exact fun h => absurd (congrArg BitVec.toNat h) (by simp; omega)
    · decide
  have hset : ((Slot.zero.published .event 0 7).holdAll crowd).holdersLen &&& holderOverflow ≠ 0 := by
    decide +kernel
  exact (holders_refine Slot.zero .event 0 7 crowd hpids).2.2.2.mp hset
end Ntsync
