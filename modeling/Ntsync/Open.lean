import Mathlib
import Ntsync.Effects

namespace Ntsync

open Words

/-!
# Objects that stay open

For results about one object while it stays open: slot `i` keeps its state, generation and type,
and every call that got past its validation of a handle of that slot validated this very object.

* `Stays i` — what the allowed steps have in common: they leave slot `i` used;
* `OpenInv i g ty` — the invariant, kept by every allowed step (`OpenInv.step`) from a state in
  which no call is under way (`OpenInv.of_idle`);
* `OpenInv.after_word` — the object's word changes only by a `word` instruction on it.
-/

variable {T : Type}

/-! ### Handles -/

/-- The index field of a handle names a slot of the table. -/
theorem handleIndex_lt (h : U32) : handleIndex h < slotCount := by
  have hle : (h &&& indexMask).toNat ≤ indexMask.toNat := by
    rw [BitVec.toNat_and]
    exact Nat.and_le_right
  have hmask : indexMask.toNat < slotCount := by decide
  exact Nat.lt_of_le_of_lt hle hmask

/-- What `Region::slot` tells about a handle. -/
theorem Region.slot_eq_some {r : Region} {h : U32} {i : Nat} : r.slot h = some i ↔
    i = handleIndex h ∧ (r.slots i).state = .used ∧ (r.slots i).generation = handleGen h := by
  have hlt : ¬ slotCount ≤ handleIndex h := Nat.not_le.mpr (handleIndex_lt h)
  simp only [Region.slot, if_neg hlt]
  constructor
  · intro hs
    split at hs
    · rename_i hu
      cases hs
      exact ⟨rfl, hu⟩
    · cases hs
  · rintro ⟨rfl, hu, hg⟩
    rw [if_pos ⟨hu, hg⟩]

/-- Index and generation determine the handle. -/
theorem handle_ext {h h' : U32} (hi : handleIndex h = handleIndex h')
    (hg : handleGen h = handleGen h') : h = h' := by
  have hand : h &&& indexMask = h' &&& indexMask := BitVec.eq_of_toNat_eq hi
  apply BitVec.eq_of_getLsbD_eq
  intro k hk
  by_cases hlo : k < 14
  · have hbit := congrArg (fun x => BitVec.getLsbD x k) hand
    have hm : BitVec.getLsbD indexMask k = true := by
      have : ∀ k < 14, BitVec.getLsbD indexMask k = true := by decide
      exact this k hlo
    simpa [BitVec.getLsbD_and, hm] using hbit
  · have hbit := congrArg (fun x => BitVec.getLsbD x (k - 14)) hg
    have hadd : 14 + (k - 14) = k := by omega
    simpa [handleGen, indexBits, hadd] using hbit

/-- The index of a handle is read back. -/
theorem handleIndex_mkHandle (g : U32) {i : Nat} (hi : i < slotCount) :
    handleIndex (mkHandle g i) = i := by
  have hi' : i < 2 ^ 14 := hi
  have hand : mkHandle g i &&& indexMask = BitVec.ofNat 32 i := by
    apply BitVec.eq_of_getLsbD_eq
    intro k hk
    simp only [mkHandle, indexBits, BitVec.getLsbD_and, BitVec.getLsbD_or, BitVec.getLsbD_shiftLeft]
    by_cases hlo : k < 14
    · have hm : BitVec.getLsbD indexMask k = true := by
        have : ∀ k < 14, BitVec.getLsbD indexMask k = true := by decide
        exact this k hlo
      simp [hlo, hm]
    · have hbit : i.testBit k = false := by
        refine Nat.testBit_lt_two_pow (Nat.lt_of_lt_of_le hi' ?_)
        exact Nat.pow_le_pow_right (by omega) (by omega)
      have hm : BitVec.getLsbD indexMask k = false := by
        have : ∀ k < 32, ¬ k < 14 → BitVec.getLsbD indexMask k = false := by decide
        exact this k hk hlo
      simp [hm, BitVec.getLsbD_ofNat, hbit]
  rw [handleIndex, hand, BitVec.toNat_ofNat]
  omega

/-- The handle keeps the low 18 bits of the generation. -/
theorem handleGen_mkHandle (g : U32) {i : Nat} (hi : i < slotCount) :
    (handleGen (mkHandle g i)).toNat = g.toNat % 2 ^ 18 := by
  have hi' : i < 2 ^ 14 := hi
  apply Nat.eq_of_testBit_eq
  intro k
  have hbit : i.testBit (14 + k) = false := by
    refine Nat.testBit_lt_two_pow (Nat.lt_of_lt_of_le hi' ?_)
    exact Nat.pow_le_pow_right (by omega) (by omega)
  rw [BitVec.testBit_toNat, Nat.testBit_mod_two_pow, BitVec.testBit_toNat]
  simp only [handleGen, mkHandle, indexBits, BitVec.getLsbD_ushiftRight, BitVec.getLsbD_or,
    BitVec.getLsbD_shiftLeft, BitVec.getLsbD_ofNat, hbit, Bool.and_false, Bool.or_false]
  have hge : ¬ 14 + k < 14 := by omega
  have hsub : 14 + k - 14 = k := by omega
  by_cases hk : k < 18
  · have hlt : 14 + k < 32 := by omega
    simp [hk, hge, hlt, hsub]
  · have hlt : ¬ 14 + k < 32 := by omega
    simp [hk, hlt]

/-- What `alloc_slot` finds is a free slot of the table. -/
theorem Region.scanFree_spec {r : Region} {cursor fuel k i : Nat}
    (h : r.scanFree cursor fuel k = some i) :
    i < slotCount ∧ (r.slots i).state = .free := by
  induction fuel generalizing k with
  | zero => cases h
  | succ fuel ih =>
    simp only [Region.scanFree] at h
    split at h
    · cases h
      exact ⟨Nat.mod_lt _ (by decide), by assumption⟩
    · exact ih h

/-- `alloc_slot` picks a slot of the table that is free. -/
theorem Region.freeSlot_spec {r : Region} {i : Nat} (h : r.freeSlot = some i) :
    i < slotCount ∧ (r.slots i).state = .free :=
  Region.scanFree_spec h

/-! ### What a call has validated -/

/-- The stores to the holder array. -/
def SlotWrite.holds : SlotWrite → Bool
  | .holdersLen _ | .holder _ _ => true
  | _ => false

/-- A release stores to the holder array only. -/
theorem Slot.holderRemove_holds {s : Slot} {pid : U32} :
    ∀ w ∈ s.holderRemove pid, w.holds = true := by
  unfold Slot.holderRemove
  intro w hw
  split at hw
  · cases hw
  · simp only [List.mem_cons, List.not_mem_nil, or_false] at hw
    rcases hw with rfl | rfl | rfl <;> rfl

/-- So does a retain. -/
theorem Slot.holderAdd_holds {s : Slot} {pid : U32} :
    ∀ w ∈ s.holderAdd pid, w.holds = true := by
  unfold Slot.holderAdd
  intro w hw
  split at hw
  · cases hw
  · split at hw
    · simp only [List.mem_cons, List.not_mem_nil, or_false] at hw
      rcases hw with rfl | rfl <;> rfl
    · simp only [List.mem_singleton] at hw
      subst hw
      rfl

/-- The thread is overwriting slot `i`, which is not in use. -/
def Pc.overwrites (i : Nat) : Pc → Prop
  | .create _ (.write h _) => handleIndex h = i
  | .close h .gen => handleIndex h = i
  | pc => ∃ auto st judged, pc.sweep? = some (auto, .reapGen st i judged)

/-- The pending stores of `close`, `retain` and `release` are stores to the holder array. -/
def Pc.holderWrites : Pc → Prop
  | .close _ (.write ws) | .hold _ _ (.write ws) | .hold _ _ (.mark ws) =>
    ∀ w ∈ ws, w.holds = true
  | _ => True

/-- The generation check has passed. -/
def OpPc.found : OpPc → Bool
  | .state | .gen => false
  | _ => true

def PulsePc.found : PulsePc → Bool
  | .lock | .check | .unlock _ => false
  | _ => true

/-- How many of the wait's handles (`n` in all) have passed the generation check. -/
def WaitPc.validTo (n : Nat) : WaitPc → Nat
  | .fast (.look i .typ) => i + 1
  | .fast (.look i _) => i
  | .fast (.seq i) => i + 1
  | .fast _ => n
  | .pass .lock => 0
  | .pass (.validate i) => i
  | .clean _ _ => 0
  | _ => n

/-- The locked pass has validated the alert. -/
def WaitPc.alertValid : WaitPc → Bool
  | .fast _ | .pass .lock | .pass (.validate _) | .pass .validateAlert | .clean _ _ => false
  | _ => true

/-- A wait has validated the object of type `ty` and generation `g` in slot `i`, not another. -/
structure WaitValid (i : Nat) (g : U32) (ty : ObjType) (c : WaitCtx) (p : WaitPc) : Prop where
  handles : ∀ k < p.validTo c.handles.length, c.slotOf k = i → handleGen (c.handle k) = g
  fits : ∀ q, p.sat? = some q → q.Fits c.toWaitArgs i ty
  alert : p.alertValid = true → c.alert ≠ 0 → handleIndex c.alert = i →
    handleGen c.alert = g ∧ ty = .event

/-- What a call has validated about slot `i` is the object of type `ty` and generation `g`. -/
def Pc.Valid (i : Nat) (g : U32) (ty : ObjType) : Pc → Prop
  | .op h o p => handleIndex h = i →
    (p.found = true → handleGen h = g) ∧ (p.looking = false → o.objType = ty)
  | .pulse h p => handleIndex h = i → p.found = true → handleGen h = g ∧ ty = .event
  | .wait c p => WaitValid i g ty c p
  | _ => True

section Validation

variable {o : Oracle} {sh : Shared T} {pid : U32} {ins : Instr} {pc pc' : Pc} {i : Nat} {g : U32}
  {ty : ObjType}

/-- Slot `i` holds the object. -/
structure Holds (r : Region) (i : Nat) (g : U32) (ty : ObjType) : Prop where
  used : (r.slots i).state = .used
  gen : (r.slots i).generation = g
  typ : (r.slots i).objType = ty

/-- A lock-free operation on an object that stays in place goes on as it was validated. -/
theorem OpGo.valid {h : U32} {op : Op} {p : OpPc} (hg : OpGo sh h op p ins pc')
    (hs : Holds sh.region i g ty) (hv : (Pc.op h op p).Valid i g ty) : pc'.Valid i g ty := by
  cases hg with
  | gen hgen =>
    intro hi
    subst hi
    exact ⟨fun _ => hgen.symm.trans hs.gen, fun h => (by cases h)⟩
  | typ hty =>
    intro hi
    have hfound := (hv hi).1
    subst hi
    exact ⟨fun _ => hfound rfl, fun _ => hty.symm.trans hs.typ⟩
  | state => exact fun _ => ⟨fun h => (by cases h), fun h => (by cases h)⟩
  | retry | swap | peek | lock | walk | walked =>
    intro hi
    exact ⟨fun _ => (hv hi).1 rfl, fun _ => (hv hi).2 rfl⟩
  | _ => trivial

/-- So does a pulse. -/
theorem PulseGo.valid {h : U32} {p : PulsePc} (hg : PulseGo sh h p ins pc')
    (hs : Holds sh.region i g ty) (hv : (Pc.pulse h p).Valid i g ty) : pc'.Valid i g ty := by
  cases hg with
  | @check j hj hty =>
    intro hi _
    obtain ⟨rfl, _, hgen⟩ := Region.slot_eq_some.mp hj
    subst hi
    exact ⟨hgen.symm.trans hs.gen, hs.typ.symm.trans hty⟩
  | lock | bad | walked => exact fun _ hf => by cases hf
  | unlock => trivial
  | _ => exact fun hi _ => hv hi rfl

/-- A validated prefix grows by a handle found valid. -/
theorem WaitValid.extend {c : WaitCtx} {k : Nat} (hs : Holds sh.region i g ty)
    (hpre : ∀ j < k, c.slotOf j = i → handleGen (c.handle j) = g)
    (hk : (sh.region.slots (c.slotOf k)).generation = handleGen (c.handle k)) :
    ∀ j < k + 1, c.slotOf j = i → handleGen (c.handle j) = g := by
  intro j hj hji
  by_cases hjk : j = k
  · subst hjk
    rw [← hk, hji]
    exact hs.gen
  · exact hpre j (by omega) hji

/-- The fast path has validated the handles up to the one it is at. -/
theorem FastGo.validTo {c : WaitCtx} {p : FastPc} (hg : FastGo sh c p ins pc')
    (hs : Holds sh.region i g ty)
    (hv : ∀ k < (WaitPc.fast p).validTo c.handles.length, c.slotOf k = i →
      handleGen (c.handle k) = g) :
    ∀ c' p', pc' = .wait c' p' → ∀ k < p'.validTo c.handles.length, c.slotOf k = i →
      handleGen (c.handle k) = g := by
  -- after the last handle everything is validated
  have hnext : ∀ j, (∀ k < j + 1, c.slotOf k = i → handleGen (c.handle k) = g) →
      ∀ k < (c.fastNext j).validTo c.handles.length, c.slotOf k = i →
        handleGen (c.handle k) = g := by
    intro j hj k hk hki
    refine hj k ?_ hki
    unfold WaitCtx.fastNext at hk
    split at hk
    · exact hk
    · split at hk <;> simp only [WaitPc.validTo] at hk <;> omega
  intro c' p' hpc
  cases hg with
  | lookGen hgen =>
    cases hpc
    exact WaitValid.extend hs hv hgen
  | lookOther | seq =>
    cases hpc
    exact hnext _ hv
  | lookBad | alertBad | fail =>
    cases hpc
    exact fun k hk => absurd hk (Nat.not_lt_zero _)
  | unwrapStateBad | unwrapGenBad | alerted | win | failZero => cases hpc
  | _ =>
    cases hpc
    exact hv

/-- So has the locked pass. -/
theorem PassGo.validTo {c : WaitCtx} {p : PassPc} (hg : PassGo o sh pid c p ins pc')
    (hs : Holds sh.region i g ty)
    (hv : ∀ k < (WaitPc.pass p).validTo c.handles.length, c.slotOf k = i →
      handleGen (c.handle k) = g) :
    ∀ c' p', pc' = .wait c' p' → ∀ k < p'.validTo c.handles.length, c.slotOf k = i →
      handleGen (c.handle k) = g := by
  have hafter : c.afterAlert.validTo c.handles.length = c.handles.length := by
    unfold WaitCtx.afterAlert
    split <;> rfl
  -- a handle that resolved extends what is validated by its position
  have hnext : ∀ j, (∀ k < j + 1, c.slotOf k = i → handleGen (c.handle k) = g) →
      ∀ k < (c.validateNext j).validTo c.handles.length, c.slotOf k = i →
        handleGen (c.handle k) = g := by
    intro j hj k hk hki
    refine hj k ?_ hki
    unfold WaitCtx.validateNext at hk
    split at hk
    · exact hk
    · split at hk
      · simp only [WaitPc.validTo] at hk
        omega
      · rw [hafter] at hk
        omega
  intro c' p' hpc
  cases hg with
  | lock =>
    cases hpc
    exact fun k hk => absurd hk (Nat.not_lt_zero _)
  | validateFirst hj | validate hj =>
    cases hpc
    obtain ⟨rfl, _, hgen⟩ := Region.slot_eq_some.mp hj
    exact hnext _ (WaitValid.extend hs hv hgen)
  | validateBad | validateAlertBad | alertSet | allocFail | win | expired =>
    -- the wait leaves for its cleanup, where nothing counts as validated
    cases hpc
    exact fun k hk => absurd hk (Nat.not_lt_zero _)
  | alertPanic => cases hpc
  | alertClear =>
    cases hpc
    rw [hafter]
    exact hv
  | alloc =>
    cases hpc
    unfold WaitCtx.allocNext
    split <;> exact hv
  | registerSkip | register =>
    cases hpc
    unfold WaitCtx.registerNext
    split <;> exact hv
  | _ =>
    cases hpc
    exact hv

/-- The other phases keep what the locked pass validated. -/
theorem WaitGo.validTo {c : WaitCtx} {p : WaitPc} (hg : WaitGo o sh pid c p ins pc')
    (hs : Holds sh.region i g ty)
    (hv : ∀ k < p.validTo c.handles.length, c.slotOf k = i → handleGen (c.handle k) = g) :
    ∀ c' p', pc' = .wait c' p' → ∀ k < p'.validTo c.handles.length, c.slotOf k = i →
      handleGen (c.handle k) = g := by
  cases hg with
  | fast hg => exact hg.validTo hs hv
  | pass hg => exact hg.validTo hs hv
  | noSpin | spinStart =>
    intro c' p' hpc
    cases hpc
    exact hv
  | spin hg =>
    intro c' p' hpc
    cases hg with
    | alertStateBad | alertGenBad => cases hpc
    | alerted | win =>
      cases hpc
      -- a wait that has won is past the objects
      exact fun k hk => absurd hk (Nat.not_lt_zero _)
    | _ =>
      cases hpc
      exact hv
  | @sweep seq timedOut p ins pc' hg =>
    intro c' p' hpc
    cases hg with
    | skip | unlock =>
      cases hpc
      cases timedOut <;> exact hv
    | _ =>
      cases hpc
      exact hv
  | sleep hg =>
    intro c' p' hpc
    cases hg with
    | again | woken =>
      cases hpc
      unfold afterFutex
      split <;> exact hv
    | tailDone =>
      cases hpc
      -- it goes back to a fresh pass
      exact fun k hk => absurd hk (Nat.not_lt_zero _)
    | _ =>
      cases hpc
      exact hv
  | detach hg =>
    intro c' p' hpc
    cases hg with
    | none | unlock =>
      cases hpc
      -- its nodes are gone, and it validates anew
      exact fun k hk => absurd hk (Nat.not_lt_zero _)
    | _ =>
      cases hpc
      exact hv
  | clean hg =>
    intro c' p' hpc
    cases hg with
    | unlock => cases hpc
    | _ =>
      cases hpc
      exact fun k hk => absurd hk (Nat.not_lt_zero _)

/-- The alert was validated by the locked pass that the wait is in or comes from. -/
theorem WaitGo.alertValid {c : WaitCtx} {p : WaitPc} (hg : WaitGo o sh pid c p ins pc')
    (hs : Holds sh.region i g ty)
    (hv : p.alertValid = true → c.alert ≠ 0 → handleIndex c.alert = i →
      handleGen c.alert = g ∧ ty = .event) :
    ∀ c' p', pc' = .wait c' p' → p'.alertValid = true → c.alert ≠ 0 → handleIndex c.alert = i →
      handleGen c.alert = g ∧ ty = .event := by
  intro c' p' hpc
  cases hg with
  | fast hg =>
    have hfast : p'.alertValid = false := by
      cases hg with
      | lookOther | seq =>
        cases hpc
        unfold WaitCtx.fastNext
        split
        · rfl
        · split <;> rfl
      | unwrapStateBad | unwrapGenBad | alerted | win | failZero => cases hpc
      | _ =>
        cases hpc
        rfl
    -- on the fast path the alert counts as not validated
    intro ha
    rw [hfast] at ha
    cases ha
  | pass hg =>
    cases hg with
    | @validateFirst k j | @validate k j =>
      cases hpc
      intro ha hne
      unfold WaitCtx.validateNext at ha
      split at ha
      · cases ha
      · cases ha
    | validateAlert hj hty =>
      cases hpc
      intro _ _ hi
      -- the alert resolved to an event just now, under the lock
      obtain ⟨rfl, _, hgen⟩ := Region.slot_eq_some.mp hj
      subst hi
      exact ⟨hgen.symm.trans hs.gen, hs.typ.symm.trans hty⟩
    | lock | validateBad | validateAlertBad | alertSet | allocFail | win | expired =>
      cases hpc
      intro ha
      cases ha
    | alertPanic => cases hpc
    | _ =>
      cases hpc
      exact fun _ => hv rfl
  | noSpin | spinStart =>
    cases hpc
    exact fun _ => hv rfl
  | spin hg =>
    cases hg with
    | alertStateBad | alertGenBad => cases hpc
    | alerted | win =>
      cases hpc
      intro ha
      cases ha
    | _ =>
      cases hpc
      exact fun _ => hv rfl
  | sweep hg =>
    cases hg <;> cases hpc <;> exact fun _ => hv rfl
  | sleep hg =>
    cases hg with
    | tailDone =>
      cases hpc
      intro ha
      cases ha
    | _ =>
      cases hpc
      exact fun _ => hv rfl
  | detach hg =>
    cases hg with
    | none | unlock =>
      cases hpc
      intro ha
      cases ha
    | _ =>
      cases hpc
      exact fun _ => hv rfl
  | clean hg =>
    intro ha
    cases hg with
    | unlock => cases hpc
    | _ =>
      cases hpc
      cases ha

/-- A wait keeps its arguments. -/
theorem WaitGo.sameArgs {c : WaitCtx} {p : WaitPc} (hg : WaitGo o sh pid c p ins pc')
    {c' : WaitCtx} {p' : WaitPc} (hpc : pc' = .wait c' p') : c'.toWaitArgs = c.toWaitArgs := by
  subst hpc
  cases hp : p.sat? with
  | some q =>
    obtain ⟨w, out, _, _, ha, _⟩ := hg.sat hp
    simpa [Pc.args?] using ha
  | none =>
    rcases (hg.plain hp).args with ha | ha
    · cases ha
    · simpa [Pc.args?] using ha

/-- An attempt runs the branch of the object's type. -/
theorem WaitGo.fits {c : WaitCtx} {p : WaitPc} (hg : WaitGo o sh pid c p ins pc')
    (hs : Holds sh.region i g ty) (hv : ∀ q, p.sat? = some q → q.Fits c.toWaitArgs i ty) :
    ∀ c' p', pc' = .wait c' p' → ∀ q, p'.sat? = some q → q.Fits c.toWaitArgs i ty := by
  intro c' p' hpc q hq
  subst hpc
  cases hp : p.sat? with
  | some q₀ =>
    obtain ⟨w, out, hst, _, _, hf⟩ := hg.sat hp
    match out with
    | .more q' =>
      have hsat : (Pc.wait c' p').sat? = some (c, q') := hf
      simp only [Pc.sat?, hq, Option.map_some, Option.some.injEq, Prod.mk.injEq] at hsat
      obtain ⟨_, rfl⟩ := hsat
      have hfit := hv _ hp
      rw [← hs.typ] at hfit ⊢
      exact hst.fits hfit
    | .done (some (k, od)) =>
      have hsat : (Pc.wait c' p').sat? = none := hf.1
      simp [Pc.sat?, hq] at hsat
    | .done none =>
      have hsat : (Pc.wait c' p').sat? = none := hf.1
      simp [Pc.sat?, hq] at hsat
  | none =>
    rcases (hg.plain hp).sat with hsat | ⟨c₁, hsat, ha⟩
    · simp [Pc.sat?, hq] at hsat
    · simp only [Pc.sat?, hq, Option.map_some, Option.some.injEq, Prod.mk.injEq] at hsat
      obtain ⟨_, rfl⟩ := hsat
      exact Sat.fits_start _ _ _ _

/-- **What a call validated stays valid along its steps.** -/
theorem PcGo.valid (hg : PcGo sh pid o pc ins pc') (hs : Holds sh.region i g ty)
    (hv : pc.Valid i g ty) : pc'.Valid i g ty := by
  cases hg with
  | op hg => exact hg.valid hs hv
  | pulse hg => exact hg.valid hs hv
  | @wait c p _ _ hg =>
    match pc' with
    | .wait c' p' =>
      have ha := hg.sameArgs rfl
      have hn : c'.handles = c.handles := congrArg WaitArgs.handles ha
      refine ⟨?_, ?_, ?_⟩
      · intro k hk hki
        have hk' := hg.validTo hs hv.handles c' p' rfl k (by rwa [hn] at hk)
        simp only [WaitArgs.slotOf, ha] at hki hk' ⊢
        exact hk' hki
      · intro q hq
        rw [ha]
        exact hg.fits hs hv.fits c' p' rfl q hq
      · have hal : c'.alert = c.alert := congrArg WaitArgs.alert ha
        rw [hal]
        exact hg.alertValid hs hv.alert c' p' rfl
    | .op _ _ _ =>
      rcases hg.args with ha | ha <;> cases ha
    | .pulse _ _ =>
      rcases hg.args with ha | ha <;> cases ha
    | .idle | .done _ _ | .panicked | .create _ _ | .close _ _ | .hold _ _ _ | .sweepDead _ =>
      trivial
  | create hg => cases hg <;> trivial
  | close hg => cases hg <;> trivial
  | hold hg => cases hg <;> trivial
  | sweepDead hg => cases hg <;> trivial

/-- A call starts with nothing validated. -/
theorem Pc.start_valid (c : Call) : (Pc.start c).Valid i g ty := by
  cases c with
  | op h o =>
    simp only [Pc.start]
    split
    · exact fun _ => ⟨fun h => (by cases h), fun h => (by cases h)⟩
    · trivial
  | pulse h => exact fun _ hf => by cases hf
  | wait a timeout =>
    simp only [Pc.start]
    split
    · exact ⟨fun k hk => absurd hk (Nat.not_lt_zero _), fun _ h => (by cases h),
        fun h => (by cases h)⟩
    · trivial
  | create k =>
    simp only [Pc.start]
    split <;> trivial
  | close h =>
    simp only [Pc.start]
    split <;> trivial
  | hold add h =>
    simp only [Pc.start]
    split <;> trivial
  | sweepDead => trivial

/-! ### Nobody overwrites an object in use -/

/-- A call starts with no slot of its own. -/
theorem Pc.start_overwrites (c : Call) : ¬ (Pc.start c).overwrites i := by
  cases c <;> simp only [Pc.start] <;> (try split) <;> simp [Pc.overwrites, Pc.sweep?]

/-- A call starts with no store to a holder array left. -/
theorem Pc.start_holderWrites (c : Call) : (Pc.start c).holderWrites := by
  cases c <;> simp only [Pc.start] <;> (try split) <;> trivial

/-- A retain or release, or a close, has stores to its holder array left only. -/
theorem PcGo.holderWrites (hg : PcGo sh pid o pc ins pc') (hv : pc.holderWrites) :
    pc'.holderWrites := by
  cases hg with
  | op hg => cases hg <;> trivial
  | pulse hg => cases hg <;> trivial
  | @wait c p _ _ hg =>
    match pc' with
    | .close _ _ | .hold _ _ _ =>
      rcases hg.args with ha | ha <;> cases ha
    | .idle | .done _ _ | .panicked | .create _ _ | .op _ _ _ | .pulse _ _ | .wait _ _
    | .sweepDead _ => trivial
  | create hg => cases hg <;> trivial
  | close hg =>
    cases hg with
    | check => exact Slot.holderRemove_holds
    | write => exact fun w hw => hv w (List.mem_cons_of_mem _ hw)
    | _ => trivial
  | hold hg =>
    cases hg with
    | checkAdd => exact Slot.holderAdd_holds
    | checkRemove => exact Slot.holderRemove_holds
    | writtenAdd => exact fun w hw => by cases hw
    | write => exact fun w hw => hv w (List.mem_cons_of_mem _ hw)
    | markRemove => exact hv
    | _ => trivial
  | sweepDead hg => cases hg <;> trivial

/-- A sweep comes to bump a slot's generation by reaping the slot. -/
theorem PcGo.reapGen (hg : PcGo sh pid o pc ins pc') {auto : Bool} {st : SweepSt}
    {judged : List (DeadCand × Bool)} (hpc' : pc'.sweep? = some (auto, .reapGen st i judged)) :
    ins = .reap i := by
  cases hsw : pc.sweep? with
  | none =>
    rcases hg.noSweep hsw with h | ⟨b, h⟩
    · rw [h] at hpc'
      cases hpc'
    · rw [h] at hpc'
      cases hpc'
  | some x =>
    obtain ⟨b, p⟩ := x
    obtain ⟨q, hq, hf⟩ := hg.sweep hsw
    cases hq with
    | finished => exact absurd (hpc'.symm.trans hf) (by simp)
    | reapSlot =>
      have hf' := hpc'.symm.trans hf
      cases hf'
      rfl
    | chunk | drop | probeDead | probeAlive =>
      have hf' := hpc'.symm.trans hf
      simp only [Option.some.injEq, Prod.mk.injEq] at hf'
      obtain ⟨_, hj⟩ := hf'
      unfold SweepPc.judge at hj
      split at hj
      · split at hj <;> cases hj
      · cases hj
    | _ =>
      have hf' := hpc'.symm.trans hf
      cases hf'

/-- A thread comes to overwrite slot `i` only by taking it while it is free or by freeing it. -/
theorem PcGo.overwrites (hg : PcGo sh pid o pc ins pc') (hv : pc'.overwrites i) :
    pc.overwrites i ∨ (ins = .takeSlot i ∧ (sh.region.slots i).state = .free) ∨
      ins = .store i (.state .free) ∨ ins = .reap i := by
  have hsweep : (∃ auto st judged, pc'.sweep? = some (auto, .reapGen st i judged)) →
      ins = .reap i := fun ⟨_, _, _, hpc'⟩ => hg.reapGen hpc'
  match pc' with
  | .create k (.write h ws) =>
    cases hg with
    | create hg =>
      cases hg with
      | take hf =>
        obtain ⟨hlt, hfree⟩ := Region.freeSlot_spec hf
        have hi : handleIndex (mkHandle _ _) = i := hv
        rw [handleIndex_mkHandle _ hlt] at hi
        subst hi
        exact .inr (.inl ⟨rfl, hfree⟩)
      | write => exact .inl hv
    | @wait c p _ _ hg =>
      rcases hg.args with ha | ha <;> cases ha
    | op hg => cases hg
    | pulse hg => cases hg
    | close hg => cases hg
    | hold hg => cases hg
    | sweepDead hg => cases hg
  | .close h .gen =>
    cases hg with
    | close hg =>
      cases hg with
      | free =>
        have hi : handleIndex h = i := hv
        rw [hi]
        exact .inr (.inr (.inl rfl))
    | @wait c p _ _ hg =>
      rcases hg.args with ha | ha <;> cases ha
    | op hg => cases hg
    | pulse hg => cases hg
    | create hg => cases hg
    | hold hg => cases hg
    | sweepDead hg => cases hg
  | .wait _ _ | .create _ .lock | .create _ (.alloc _) | .create _ (.sweep _)
  | .create _ (.unlock _) | .sweepDead _ | .idle | .done _ _ | .panicked | .op _ _ _ | .pulse _ _
  | .hold _ _ _ | .close _ .lock | .close _ .check | .close _ (.write _) | .close _ .free
  | .close _ (.walk _) | .close _ (.unlock _) => exact .inr (.inr (.inr (hsweep hv)))

end Validation

/-! ### The invariant -/

section SlotFrame

variable (r : Region) (i : Nat)

/-- Slot `i` of `r'` differs from that of `r` at most in its list head. -/
def SameButHead (r r' : Region) (i : Nat) : Prop :=
  ∃ hd, r'.slots i = { r.slots i with waiterHead := hd }

/-- No change, not even of the head. -/
theorem SameButHead.refl : SameButHead r r i := ⟨_, rfl⟩

/-- An unchanged slot agrees with itself. -/
theorem SameButHead.of_slots {r r' : Region} {i : Nat} (h : r'.slots i = r.slots i) :
    SameButHead r r' i := ⟨_, h⟩

/-- `node_alloc` changes no slot. -/
theorem Region.nodeAlloc_slots {r r' : Region} {pid : U32} {n : Nat}
    (h : r.nodeAlloc pid = some (n, r')) : r'.slots = r.slots := by
  unfold Region.nodeAlloc at h
  cases hf : r.nodeFreeHead with
  | some head =>
    simp only [hf, Option.some.injEq, Prod.mk.injEq] at h
    obtain ⟨_, rfl⟩ := h
    rfl
  | none =>
    simp only [hf] at h
    by_cases hn : nodeCount ≤ r.nodeFresh
    · simp [hn] at h
    · simp only [hn, if_false, Option.some.injEq, Prod.mk.injEq] at h
      obtain ⟨_, rfl⟩ := h
      rfl

/-- `node_detach` changes at most the head of a list. -/
theorem Region.nodeDetach_slot (n : Nat) : SameButHead r (r.nodeDetach n) i := by
  unfold Region.nodeDetach
  split
  · exact .refl _ _
  · dsimp only
    cases (r.nodes n).objPrev with
    | none =>
      cases (r.nodes n).obj with
      | none =>
        dsimp only
        split <;> exact .refl _ _
      | some o =>
        dsimp only
        by_cases hio : i = o
        · subst hio
          split <;> exact ⟨(r.nodes n).objNext, by simp⟩
        · split <;> exact .of_slots (by simp [hio])
    | some p =>
      dsimp only
      split <;> exact .refl _ _

/-- So does `node_register`. -/
theorem Region.nodeRegister_slot (n obj head : Nat) :
    SameButHead r (r.nodeRegister n obj head) i := by
  unfold Region.nodeRegister
  dsimp only
  by_cases hio : i = obj
  · subst hio
    split <;> exact ⟨some n, by simp⟩
  · split <;> exact .of_slots (by simp [hio])

/-- Taking a slot changes no object. -/
theorem Region.takeSlot_slot (j : Nat) : SameButHead r (r.takeSlot j) i := by
  by_cases hij : i = j
  · subst hij
    exact ⟨none, by simp [Region.takeSlot, Region.setSlot]⟩
  · exact .of_slots (by simp [Region.takeSlot, Region.setSlot, hij])

end SlotFrame

/-- The new contents of slot `i` after an instruction, up to the list head. -/
def Instr.slotAfter (i : Nat) (s : Slot) : Instr → Slot
  | .word _ j _ new => if i = j then { s with w0 := new } else s
  | .storeD j v => if i = j then { s with d := v } else s
  | .store j w => if i = j then w.apply s else s
  | .reap j => if i = j then { s with state := .free } else s
  | _ => s

/-- The word of the object in slot `i` after an instruction. -/
def Instr.wordAfter (i : Nat) (w : U64) : Instr → U64
  | .word _ j _ new => if i = j then new else w
  | _ => w

/-- The pulse counter of the object in slot `i` after an instruction. -/
def Instr.countAfter (i : Nat) (d : U64) : Instr → U64
  | .storeD j v => if i = j then v else d
  | _ => d

/-- What an instruction does to a slot. -/
theorem Instr.apply_slot (t : T) (pid : U32) (sh : Shared T) (ins : Instr) (i : Nat) :
    ∃ hd, (ins.apply t pid sh).region.slots i =
      { ins.slotAfter i (sh.region.slots i) with waiterHead := hd } := by
  cases ins with
  | allocNode =>
    simp only [Instr.apply, Instr.slotAfter]
    split
    · rename_i hn
      exact ⟨_, by rw [Region.nodeAlloc_slots hn]⟩
    · exact ⟨_, rfl⟩
  | register n j head => exact Region.nodeRegister_slot _ _ _ _ _
  | detach n => exact Region.nodeDetach_slot _ _ _
  | takeSlot j => exact Region.takeSlot_slot _ _ _
  | word h j tag new =>
    by_cases hij : i = j
    · subst hij
      exact ⟨_, by simp [Instr.apply, Instr.slotAfter]; rfl⟩
    · exact ⟨_, by simp [Instr.apply, Instr.slotAfter, hij]; rfl⟩
  | storeD j v =>
    by_cases hij : i = j
    · subst hij
      exact ⟨_, by simp [Instr.apply, Instr.slotAfter]; rfl⟩
    · exact ⟨_, by simp [Instr.apply, Instr.slotAfter, hij]; rfl⟩
  | store j w =>
    by_cases hij : i = j
    · subst hij
      exact ⟨_, by simp [Instr.apply, Instr.slotAfter]; rfl⟩
    · exact ⟨_, by simp [Instr.apply, Instr.slotAfter, hij]; rfl⟩
  | reap j =>
    by_cases hij : i = j
    · subst hij
      exact ⟨_, by simp [Instr.apply, Instr.slotAfter]; rfl⟩
    · exact ⟨_, by simp [Instr.apply, Instr.slotAfter, hij]; rfl⟩
  | _ => exact ⟨_, rfl⟩

/-- A thread outside all calls has made none or has returned. -/
theorem Pc.outside_cases {pc : Pc} (h : pc.outside = true) :
    pc = .idle ∨ ∃ c r, pc = .done c r := by
  cases pc with
  | idle => exact .inl rfl
  | done c r => exact .inr ⟨c, r, rfl⟩
  | _ => cases h

/-- No call is under way. -/
def Sys.Idle (s : Sys T) : Prop := ∀ t, (s.threads t).pc.outside = true

/-- The object in slot `i` stays open: the step leaves the slot used. -/
def Stays (i : Nat) (s' : Sys T) : Prop := (s'.region.slots i).state = .used

instance (i : Nat) (s' : Sys T) : Decidable (Stays i s') :=
  inferInstanceAs (Decidable (_ = _))

/-- Slot `i` holds the object, and no live thread overwrites it. -/
structure KeptInv (i : Nat) (g : U32) (ty : ObjType) (s : Sys T) : Prop where
  holds : Holds s.region i g ty
  clear : ∀ t, s.dead (s.threads t).pid = false → ¬ (s.threads t).pc.overwrites i
  writes : ∀ t, (s.threads t).pc.holderWrites

/-- Moreover, whatever a call validated about the slot is this object. -/
structure OpenInv (i : Nat) (g : U32) (ty : ObjType) (s : Sys T) : Prop extends
    KeptInv i g ty s where
  valid : ∀ t, (s.threads t).pc.Valid i g ty

/-- At rest a slot in use holds its object. -/
theorem OpenInv.of_idle {i : Nat} {s : Sys T} (hidle : s.Idle)
    (hu : (s.region.slots i).state = .used) :
    OpenInv i (s.region.slots i).generation (s.region.slots i).objType s := by
  refine ⟨⟨⟨hu, rfl, rfl⟩, fun t _ => ?_, fun t => ?_⟩, fun t => ?_⟩
  · rcases Pc.outside_cases (hidle t) with hpc | ⟨c, r, hpc⟩ <;> rw [hpc] <;>
      simp [Pc.overwrites, Pc.sweep?]
  · rcases Pc.outside_cases (hidle t) with hpc | ⟨c, r, hpc⟩ <;> rw [hpc] <;> trivial
  · rcases Pc.outside_cases (hidle t) with hpc | ⟨c, r, hpc⟩ <;> rw [hpc] <;> trivial

section OpenStep

variable [DecidableEq T] {i : Nat} {g : U32} {ty : ObjType} {s s' : Sys T} {a : Action T}
  {l : Label T}

omit [DecidableEq T] in
/-- A store to the table while the object stays open is a store to its holder array. -/
theorem KeptInv.store_holds {t : T} {o : Oracle} {w : SlotWrite} {pc' : Pc}
    (hi : KeptInv i g ty s) (ha : s.dead (s.threads t).pid = false)
    (hg : PcGo s.toShared (s.threads t).pid o (s.threads t).pc (.store i w) pc')
    (hfree : w ≠ .state .free) : w.holds = true := by
  have hcl := hi.clear t ha
  have hwr := hi.writes t
  rcases hg.store with ⟨k, h, ws, hpc, rfl, _⟩ | ⟨h, ws, hpc, rfl, _⟩ | ⟨h, _, _, rfl, _⟩ |
    ⟨h, hpc, rfl, _⟩ | ⟨add, h, ws, hpc, rfl, _⟩ | ⟨auto, st, judged, hpc, _⟩
  · rw [hpc] at hcl
    exact absurd rfl hcl
  · rw [hpc] at hwr
    exact hwr w (by simp)
  · exact absurd rfl hfree
  · rw [hpc] at hcl
    exact absurd rfl hcl
  · rw [hpc] at hwr
    exact hwr w (by simp)
  · exfalso
    apply hcl
    generalize (s.threads t).pc = pc at hpc
    unfold Pc.overwrites
    split
    · cases hpc
    · cases hpc
    · exact ⟨_, _, _, hpc⟩

/-- A store to the holder array leaves the object in place. -/
theorem Holds.of_holds {r r' : Region} {w : SlotWrite} {hd : Option Nat} (h : Holds r i g ty)
    (hw : w.holds = true) (hr : r'.slots i = { w.apply (r.slots i) with waiterHead := hd }) :
    Holds r' i g ty := by
  cases w with
  | holdersLen | holder =>
    exact ⟨by rw [hr]; exact h.used, by rw [hr]; exact h.gen, by rw [hr]; exact h.typ⟩
  | _ => cases hw

/-- The slot keeps holding the object. -/
theorem KeptInv.holds_after {t : T} {o : Oracle} {ins : Instr} {pc' : Pc} (hi : KeptInv i g ty s)
    (ha : s.dead (s.threads t).pid = false)
    (hg : PcGo s.toShared (s.threads t).pid o (s.threads t).pc ins pc')
    (hu : ((s.after t ins pc').region.slots i).state = .used) :
    Holds (s.after t ins pc').region i g ty := by
  obtain ⟨hd, hr⟩ := Instr.apply_slot t (s.threads t).pid s.toShared ins i
  have hr' : (s.after t ins pc').region.slots i =
    { ins.slotAfter i (s.region.slots i) with waiterHead := hd } := hr
  cases ins with
  | store j w =>
    by_cases hij : i = j
    · subst hij
      simp only [Instr.slotAfter, if_true] at hr'
      have hfree : w ≠ .state .free := by
        rintro rfl
        rw [hr'] at hu
        cases hu
      exact hi.holds.of_holds (hi.store_holds ha hg hfree) hr'
    · simp only [Instr.slotAfter, if_neg hij] at hr'
      exact ⟨hu, by rw [hr']; exact hi.holds.gen, by rw [hr']; exact hi.holds.typ⟩
  | word h j tag new | storeD j v | reap j =>
    refine ⟨hu, ?_, ?_⟩
    · rw [hr']
      simp only [Instr.slotAfter]
      split <;> exact hi.holds.gen
    · rw [hr']
      simp only [Instr.slotAfter]
      split <;> exact hi.holds.typ
  | _ => exact ⟨hu, by rw [hr']; exact hi.holds.gen, by rw [hr']; exact hi.holds.typ⟩

/-- The slot is kept by every step that leaves it used. -/
theorem KeptInv.step (hi : KeptInv i g ty s) (h : s.step a = some (s', l))
    (hu : Stays i s') : KeptInv i g ty s' := by
  cases Sys.step_inv h with
  | @call t c ha hout =>
    refine ⟨hi.holds, fun u hua => ?_, fun u => ?_⟩
    · rw [Sys.entered_dead, Sys.entered_pid] at hua
      rw [Sys.entered_pc]
      split
      · exact Pc.start_overwrites c
      · exact hi.clear u hua
    · rw [Sys.entered_pc]
      split
      · exact Pc.start_holderWrites c
      · exact hi.writes u
  | @tick t o ins pc' ha ht =>
    have hg := tick_inv ht
    refine ⟨hi.holds_after ha hg hu, fun u hua => ?_, fun u => ?_⟩
    · rw [Sys.after_dead, Sys.after_pid] at hua
      rw [Sys.after_pc]
      split
      · intro hov
        obtain ⟨hd, hr⟩ := Instr.apply_slot t (s.threads t).pid s.toShared ins i
        have hu' : ((ins.apply t (s.threads t).pid s.toShared).region.slots i).state = .used := hu
        rcases hg.overwrites hov with hov | ⟨_, hfree⟩ | rfl | rfl
        · exact hi.clear t ha hov
        · exact absurd (hi.holds.used.symm.trans hfree) (by simp)
        · rw [hr] at hu'
          simp [Instr.slotAfter, SlotWrite.apply] at hu'
        · rw [hr] at hu'
          simp [Instr.slotAfter] at hu'
      · exact hi.clear u hua
    · rw [Sys.after_pc]
      split
      · exact hg.holderWrites (hi.writes t)
      · exact hi.writes u
  | @die pid =>
    refine ⟨hi.holds, fun u hua => hi.clear u ?_, hi.writes⟩
    rw [Sys.died_dead, Sys.died_threads, Bool.or_eq_false_iff] at hua
    exact hua.2

/-- **The invariant is kept by every step that leaves the slot used.** -/
theorem OpenInv.step (hi : OpenInv i g ty s) (h : s.step a = some (s', l))
    (hu : Stays i s') : OpenInv i g ty s' := by
  refine ⟨hi.toKeptInv.step h hu, ?_⟩
  cases Sys.step_inv h with
  | @call t c ha hout =>
    intro u
    rw [Sys.entered_pc]
    split
    · exact Pc.start_valid c
    · exact hi.valid u
  | @tick t o ins pc' ha ht =>
    intro u
    rw [Sys.after_pc]
    split
    · exact (tick_inv ht).valid hi.holds (hi.valid t)
    · exact hi.valid u
  | die => exact hi.valid

/-- The object's word and pulse counter after a step: only a `word` instruction on the slot changes
    the word, only a pulse's store the counter. -/
theorem KeptInv.after_word {t : T} {o : Oracle} {ins : Instr} {pc' : Pc} (hi : KeptInv i g ty s)
    (ha : s.dead (s.threads t).pid = false)
    (hg : PcGo s.toShared (s.threads t).pid o (s.threads t).pc ins pc')
    (hu : ((s.after t ins pc').region.slots i).state = .used) :
    ((s.after t ins pc').region.slots i).w0 = ins.wordAfter i (s.region.slots i).w0 ∧
      ((s.after t ins pc').region.slots i).d = ins.countAfter i (s.region.slots i).d := by
  obtain ⟨hd, hr⟩ := Instr.apply_slot t (s.threads t).pid s.toShared ins i
  have hr' : (s.after t ins pc').region.slots i =
    { ins.slotAfter i (s.region.slots i) with waiterHead := hd } := hr
  rw [hr'] at hu ⊢
  cases ins with
  | store j w =>
    by_cases hij : i = j
    · subst hij
      simp only [Instr.slotAfter, if_true] at hu ⊢
      have hfree : w ≠ .state .free := by
        rintro rfl
        cases hu
      have hw := hi.store_holds ha hg hfree
      cases w with
      | holdersLen | holder => exact ⟨rfl, rfl⟩
      | _ => cases hw
    · simp [Instr.slotAfter, hij, Instr.wordAfter, Instr.countAfter]
  | word h j tag new | storeD j v | reap j =>
    simp only [Instr.slotAfter, Instr.wordAfter, Instr.countAfter]
    split <;> exact ⟨rfl, rfl⟩
  | _ => exact ⟨rfl, rfl⟩

end OpenStep

end Ntsync
