import Mathlib
import Ntsync.Handles
import Ntsync.Mutex
import Ntsync.Events
import Ntsync.Semaphore

namespace Ntsync

open Words

/-!
# `try_satisfy` without interference

The accesses of `try_acquire`, `rollback_acquire` and `try_satisfy` run to their end on a region
that nobody else changes.  There the compare-and-swap loops swap at once, and each function has a
closed form.

* `Settles` — a sub-machine runs to its end; it stores with its last access at most;
* `tryAcquire`, `rollbackAcquire` — the closed forms, with `acquire_settles` and `undo_settles`;
* `isLocked_eq` — **the read-only test and the acquire agree**, for every word of every type;
* `SatRuns` — a whole `try_satisfy`: `any_runs`, `all_runs`, `all_fails`;
* `try_satisfy_peek` — what it returns and writes, and that the peek of the spin foretells it;
* `all_or_nothing_iff` — a failed wait-all leaves the words as they were, unless it gives back an
  auto-reset event that it had acquired by a pulse.
-/

/-! ### Sub-machines that store at their end -/

/-- Started at `q` on a memory nobody changes, the machine returns `x`; its last access stores
    `w`, if anything. -/
inductive Settles {σ ω α : Type} (step : σ → Option ω × Out σ α) : σ → Option ω → α → Prop
  | done {q : σ} {w : Option ω} {x : α} : step q = (w, .done x) → Settles step q w x
  | more {q p : σ} {w : Option ω} {x : α} :
      step q = (none, .more p) → Settles step p w x → Settles step q w x

/-- What an undisturbed compare-and-swap loop stores and returns. -/
def casOnce {α : Type} (w0 : U64) (body : U64 → Pass α) : Option U64 × α :=
  match body w0 with
  | .ret a => (none, a)
  | .cas new a => (some new, a)

/-- A pass that answers without a swap leaves the word. -/
theorem casOnce_ret {α : Type} {w0 : U64} {body : U64 → Pass α} {a : α}
    (h : body w0 = .ret a) : casOnce w0 body = (none, a) := by
  rw [casOnce, h]

/-- A pass that swaps stores its new word. -/
theorem casOnce_cas {α : Type} {w0 new : U64} {body : U64 → Pass α} {a : α}
    (h : body w0 = .cas new a) : casOnce w0 body = (some new, a) := by
  rw [casOnce, h]

/-- A CAS loop that nobody disturbs swaps at its first try. -/
theorem casStep_settles {α : Type} (w0 : U64) (body : U64 → Pass α) :
    Settles (casStep w0 body) none (casOnce w0 body).1 (casOnce w0 body).2 := by
  unfold casOnce
  cases hb : body w0 with
  | ret a => exact .done (by simp [casStep, hb])
  | cas new a =>
    refine .more (p := some w0) (by simp [casStep, hb]) ?_
    exact .done (by simp [casStep, hb])

/-- A machine that passes the accesses of another one on settles with it. -/
theorem Settles.map {σ τ ω α β : Type} {step : σ → Option ω × Out σ α}
    {step' : τ → Option ω × Out τ β} {q : σ} {w w' : Option ω} {x : α} {y : β} (f : σ → τ)
    (hmore : ∀ q q', step q = (none, .more q') → step' (f q) = (none, .more (f q')))
    (hdone : ∀ q, step q = (w, .done x) → Settles step' (f q) w' y)
    (h : Settles step q w x) : Settles step' (f q) w' y := by
  induction h with
  | done hs => exact hdone _ hs
  | more hs _ ih => exact .more (hmore _ _ hs) (ih hdone)

/-! ### Closed forms -/

/-- What `try_acquire` stores and returns, undisturbed. -/
def tryAcquire (s : Slot) (owner : U32) (entrySeq : U64) : Option U64 × Option Bool :=
  match s.objType with
  | .sem => casOnce s.w0 acquireSem
  | .mutex => casOnce s.w0 (acquireMutex owner)
  | .event =>
    if lo32 s.w0 ≠ 0 then
      if s.w0 >>> 32 = 0 then (some (s.w0 &&& ~~~1), some false) else (none, some false)
    else (none, if s.d ≠ entrySeq then some false else none)
  | _ => (none, none)

/-- What `rollback_acquire` stores, undisturbed. -/
def rollbackAcquire (s : Slot) (owner : U32) (ownerDeadWas : Bool) : Option U64 :=
  match s.objType with
  | .sem => (casOnce s.w0 rollbackSem).1
  | .mutex => (casOnce s.w0 (rollbackMutex owner ownerDeadWas)).1
  | .event => (casOnce s.w0 rollbackEvent).1
  | _ => none

section ClosedForms

variable {s : Slot} {owner : U32} {seq : U64} {od : Bool}

/-- **`try_acquire` undisturbed** does what the function on the whole slot says. -/
theorem acquire_settles (s : Slot) (owner : U32) (seq : U64) :
    Settles (fun q => Acq.step s owner seq q) .typ (tryAcquire s owner seq).1
      (tryAcquire s owner seq).2 := by
  unfold tryAcquire
  cases hty : s.objType with
  | sem =>
    refine .more (p := .sem none) (by simp [Acq.step, hty]) ?_
    refine (casStep_settles s.w0 acquireSem).map Acq.sem (fun q q' hs => ?_) fun q hs => .done ?_
    · simp [Acq.step, hs]
    · simp [Acq.step, hs]
  | mutex =>
    refine .more (p := .mutex none) (by simp [Acq.step, hty]) ?_
    refine (casStep_settles s.w0 (acquireMutex owner)).map Acq.mutex (fun q q' hs => ?_)
      fun q hs => .done ?_
    · simp [Acq.step, hs]
    · simp [Acq.step, hs]
  | event =>
    refine .more (p := .event) (by simp [Acq.step, hty]) ?_
    dsimp only
    by_cases hlo : lo32 s.w0 = 0
    · rw [if_neg (not_not.mpr hlo)]
      refine .more (p := .pulse) (by simp [Acq.step, hlo]) ?_
      exact .done (by simp [Acq.step])
    · rw [if_pos hlo]
      by_cases hhi : s.w0 >>> 32 = 0
      · rw [if_pos hhi]
        have hstep : Acq.step s owner seq .event = (none, .more (.auto none)) := by
          simp only [Acq.step, if_pos hlo, if_pos hhi]
        refine .more hstep ?_
        have hpass : acquireAuto s.w0 = .cas (s.w0 &&& ~~~1) (some false) := if_neg hlo
        refine .more (p := .auto (some s.w0)) (by simp [Acq.step, casStep, hpass]) ?_
        exact .done (by simp [Acq.step, casStep, hpass])
      · rw [if_neg hhi]
        exact .done (by simp only [Acq.step, if_pos hlo, if_neg hhi])
  | unset | reserved => exact .done (by simp [Acq.step, hty])

/-- **`rollback_acquire` undisturbed**, likewise. -/
theorem undo_settles (s : Slot) (owner : U32) (od : Bool) :
    Settles (fun u => Undo.step s owner od u) .typ (rollbackAcquire s owner od) () := by
  unfold rollbackAcquire
  cases hty : s.objType with
  | sem =>
    refine .more (p := .sem none) (by simp [Undo.step, hty]) ?_
    refine (casStep_settles s.w0 rollbackSem).map Undo.sem (fun q q' hs => ?_) fun q hs => .done ?_
    · simp [Undo.step, hs]
    · simp [Undo.step, hs]
  | mutex =>
    refine .more (p := .mutex none) (by simp [Undo.step, hty]) ?_
    refine (casStep_settles s.w0 (rollbackMutex owner od)).map Undo.mutex (fun q q' hs => ?_)
      fun q hs => .done ?_
    · simp [Undo.step, hs]
    · simp [Undo.step, hs]
  | event =>
    refine .more (p := .event none) (by simp [Undo.step, hty]) ?_
    refine (casStep_settles s.w0 rollbackEvent).map Undo.event (fun q q' hs => ?_)
      fun q hs => .done ?_
    · simp [Undo.step, hs]
    · simp [Undo.step, hs]
  | unset | reserved => exact .done (by simp [Undo.step, hty])

/-- The peek at a semaphore foretells the attempt. -/
theorem isLocked_sem (hty : s.objType = .sem) :
    isLocked s owner seq = (casOnce s.w0 acquireSem).2.isSome := by
  unfold isLocked
  rw [hty]
  dsimp only
  by_cases hlo : lo32 s.w0 = 0
  · rw [casOnce_ret (if_pos hlo), hlo]
    rfl
  · have hpos : 0 < (lo32 s.w0).toNat :=
      (BitVec.toNat_pos _).mpr ((BitVec.pos_iff_ne_zero _).mpr hlo)
    rw [casOnce_cas (if_neg hlo)]
    exact decide_eq_true hpos

/-- The peek at a mutex foretells the attempt. -/
theorem isLocked_mutex (hty : s.objType = .mutex) :
    isLocked s owner seq = (casOnce s.w0 (acquireMutex owner)).2.isSome := by
  unfold isLocked
  rw [hty]
  dsimp only
  by_cases hmax : maxRecursion.toNat ≤ (mutexCount s.w0).toNat
  · -- the recursion limit refuses everyone
    have hno : ¬ (mutexCount s.w0).toNat < maxRecursion.toNat := not_lt.mpr hmax
    rw [casOnce_ret (if_pos hmax), decide_eq_false hno, Bool.and_false]
    rfl
  · have hyes : (mutexCount s.w0).toNat < maxRecursion.toNat := not_le.mp hmax
    rw [decide_eq_true hyes, Bool.and_true]
    by_cases hfree : lo32 s.w0 = 0
    · have hpass : acquireMutex owner s.w0
          = .cas (packMutex owner (mutexCount s.w0 + 1) false) (some (mutexDead s.w0)) := by
        simp only [acquireMutex, if_neg hmax, if_pos hfree]
      rw [casOnce_cas hpass, decide_eq_true hfree]
      rfl
    · by_cases hown : lo32 s.w0 = owner
      · have hpass : acquireMutex owner s.w0
            = .cas (packMutex owner (mutexCount s.w0 + 1) (mutexDead s.w0)) (some false) := by
          simp only [acquireMutex, if_neg hmax, if_neg hfree, if_pos hown]
        rw [casOnce_cas hpass, decide_eq_true hown, Bool.or_true]
        rfl
      · have hpass : acquireMutex owner s.w0 = .ret none := by
          simp only [acquireMutex, if_neg hmax, if_neg hfree, if_neg hown]
        rw [casOnce_ret hpass, decide_eq_false hown, decide_eq_false hfree]
        rfl

/-- An acquire of a mutex that stores nothing has failed. -/
theorem acquireMutex_ret {w : U64} (h : acquireMutex owner w = .ret (some od)) : False := by
  unfold acquireMutex at h
  dsimp only at h
  split at h
  · cases h
  · split at h
    · cases h
    · split at h <;> cases h

/-- **The read-only test and the acquire agree.** -/
theorem isLocked_eq (s : Slot) (owner : U32) (seq : U64) :
    isLocked s owner seq = (tryAcquire s owner seq).2.isSome := by
  unfold tryAcquire
  cases hty : s.objType with
  | sem => exact isLocked_sem hty
  | mutex => exact isLocked_mutex hty
  | event =>
    unfold isLocked
    rw [hty]
    dsimp only
    by_cases hlo : lo32 s.w0 = 0
    · rw [if_neg (not_not.mpr hlo), decide_eq_false (not_not.mpr hlo), Bool.false_or]
      by_cases hd : s.d = seq
      · rw [if_neg (not_not.mpr hd), decide_eq_false (not_not.mpr hd)]
        rfl
      · rw [if_pos hd, decide_eq_true hd]
        rfl
    · rw [if_pos hlo, decide_eq_true hlo, Bool.true_or]
      split <;> rfl
  | unset | reserved =>
    unfold isLocked
    rw [hty]
    rfl

end ClosedForms

/-! ### A whole run -/

/-- The store of `try_satisfy` to the word of a slot, if any. -/
def Region.storeWord (r : Region) (i : Nat) (w : Option U64) : Region :=
  match w with
  | none => r
  | some new => r.setSlot i fun s => { s with w0 := new }

/-- The effect of an access of `try_satisfy`. -/
def SatWrite.store (a : WaitArgs) (r : Region) : Option SatWrite → Region
  | none => r
  | some (.acquire pos _ new) => r.storeWord (a.slotOf pos) (some new)
  | some (.rollback pos new) => r.storeWord (a.slotOf pos) (some new)

/-- On a region nobody else changes, `try_satisfy` gets from `p` to its result `x` and leaves
    `r'`. -/
inductive SatRuns (a : WaitArgs) (seqs : Nat → U64) :
    Region → Sat → Region → Option (Nat × Bool) → Prop
  | done {r : Region} {p : Sat} {w : Option SatWrite} {x : Option (Nat × Bool)} :
      p.step r a seqs = (w, .done x) → SatRuns a seqs r p (SatWrite.store a r w) x
  | more {r r' : Region} {p p' : Sat} {w : Option SatWrite} {x : Option (Nat × Bool)} :
      p.step r a seqs = (w, .more p') → SatRuns a seqs (SatWrite.store a r w) p' r' x →
      SatRuns a seqs r p r' x

section WordStores

variable {r : Region} {i m : Nat} {w : Option U64}

/-- A word store changes the word of its slot. -/
theorem storeWord_slots : (r.storeWord i w).slots m =
    if m = i then { r.slots i with w0 := w.getD (r.slots i).w0 } else r.slots m := by
  cases w with
  | none =>
    show r.slots m = _
    split
    · rename_i h
      rw [h]
      rfl
    · rfl
  | some new => exact Region.setSlot_slots r i m fun s => { s with w0 := new }

/-- The slot that was stored to. -/
theorem storeWord_slots_self :
    (r.storeWord i w).slots i = { r.slots i with w0 := w.getD (r.slots i).w0 } := by
  rw [storeWord_slots, if_pos rfl]

/-- The other slots. -/
theorem storeWord_slots_ne (h : m ≠ i) : (r.storeWord i w).slots m = r.slots m := by
  rw [storeWord_slots, if_neg h]

/-- An acquire of `try_satisfy` stores to the slot of its handle. -/
theorem store_acquire (a : WaitArgs) (k : Nat) (od : Bool) :
    SatWrite.store a r (w.map (.acquire k od)) = r.storeWord (a.slotOf k) w := by
  cases w <;> rfl

/-- So does a rollback. -/
theorem store_rollback (a : WaitArgs) (k : Nat) :
    SatWrite.store a r (w.map (.rollback k)) = r.storeWord (a.slotOf k) w := by
  cases w <;> rfl

end WordStores

section SatRuns

variable {a : WaitArgs} {seqs : Nat → U64} {r r' : Region} {x : Option (Nat × Bool)}

/-- The run is determined by where it starts. -/
theorem SatRuns.unique {r₁ r₂ : Region} {p : Sat} {x₁ x₂ : Option (Nat × Bool)}
    (h₁ : SatRuns a seqs r p r₁ x₁) (h₂ : SatRuns a seqs r p r₂ x₂) : r₁ = r₂ ∧ x₁ = x₂ := by
  induction h₁ with
  | done hs =>
    cases h₂ with
    | done hs' =>
      rw [hs] at hs'
      cases hs'
      exact ⟨rfl, rfl⟩
    | more hs' _ =>
      rw [hs] at hs'
      cases hs'
  | more hs _ ih =>
    cases h₂ with
    | done hs' =>
      rw [hs] at hs'
      cases hs'
    | more hs' hr =>
      rw [hs] at hs'
      cases hs'
      exact ih hr

/-- A sub-machine inside `try_satisfy` runs to its end first. -/
theorem SatRuns.through {σ ω α : Type} {step : σ → Option ω × Out σ α} {q : σ} {w : Option ω}
    {y : α} (f : σ → Sat)
    (hmore : ∀ q q', step q = (none, .more q') → (f q).step r a seqs = (none, .more (f q')))
    (h : Settles step q w y)
    (hdone : ∀ q, step q = (w, .done y) → SatRuns a seqs r (f q) r' x) :
    SatRuns a seqs r (f q) r' x := by
  induction h with
  | done hs => exact hdone _ hs
  | more hs _ ih => exact .more (hmore _ _ hs) (ih hdone)

variable {k : Nat}

/-- What `try_acquire` does on the object at position `k`. -/
def WaitArgs.attempt (a : WaitArgs) (seqs : Nat → U64) (r : Region) (k : Nat) :
    Option U64 × Option Bool :=
  tryAcquire (r.slots (a.slotOf k)) a.owner (seqs k)

/-- The object at position `k` can be acquired. -/
def WaitArgs.locked (a : WaitArgs) (seqs : Nat → U64) (r : Region) (k : Nat) : Bool :=
  isLocked (r.slots (a.slotOf k)) a.owner (seqs k)

/-- The peek at a handle foretells the attempt on it. -/
theorem locked_eq : a.locked seqs r k = (a.attempt seqs r k).2.isSome := isLocked_eq _ _ _

/-- An attempt that the peek denies fails. -/
theorem attempt_of_not_locked (h : a.locked seqs r k = false) :
    (a.attempt seqs r k).2 = none := by
  rw [locked_eq] at h
  cases hx : (a.attempt seqs r k).2 with
  | none => rfl
  | some od =>
    rw [hx] at h
    cases h

/-- An attempt that the peek promises succeeds. -/
theorem attempt_of_locked (h : a.locked seqs r k = true) :
    ∃ od, (a.attempt seqs r k).2 = some od := by
  rw [locked_eq] at h
  exact Option.isSome_iff_exists.mp h

/-- A wait-any ends with the first object it acquires. -/
theorem SatRuns.any_acquire {od : Bool} (h : (a.attempt seqs r k).2 = some od) :
    SatRuns a seqs r (.any k .typ) (r.storeWord (a.slotOf k) (a.attempt seqs r k).1)
      (some (k, od)) := by
  have hs := acquire_settles (r.slots (a.slotOf k)) a.owner (seqs k)
  refine SatRuns.through (Sat.any k) (fun q q' hq => ?_) hs fun q hq => ?_
  · simp [Sat.step, hq]
  · have hstep : (Sat.any k q).step r a seqs
        = ((a.attempt seqs r k).1.map (.acquire k od), .done (some (k, od))) := by
      unfold WaitArgs.attempt at h
      rw [h] at hq
      simp only [Sat.step, hq]
      rfl
    have hdone := SatRuns.done hstep
    rw [store_acquire] at hdone
    exact hdone

/-- A wait-any that is refused tries the next object. -/
theorem SatRuns.any_refused (h : (a.attempt seqs r k).2 = none)
    (hnext : if k + 1 < a.handles.length then SatRuns a seqs r (.any (k + 1) .typ) r' x
      else r' = r ∧ x = none) :
    SatRuns a seqs r (.any k .typ) r' x := by
  have hs := acquire_settles (r.slots (a.slotOf k)) a.owner (seqs k)
  refine SatRuns.through (Sat.any k) (fun q q' hq => ?_) hs fun q hq => ?_
  · simp [Sat.step, hq]
  · unfold WaitArgs.attempt at h
    rw [h] at hq
    split at hnext
    · rename_i hk
      exact .more (w := none) (by simp only [Sat.step, hq, if_pos hk]) hnext
    · rename_i hk
      obtain ⟨rfl, rfl⟩ := hnext
      exact .done (w := none) (by simp only [Sat.step, hq, if_neg hk])

variable (seqs r) in
/-- **A wait-any** takes the first object that can be acquired, or changes nothing. -/
theorem any_runs (hk : k < a.handles.length) :
    (∃ j od, k ≤ j ∧ j < a.handles.length ∧ a.locked seqs r j = true ∧
      (∀ i, k ≤ i → i < j → a.locked seqs r i = false) ∧ (a.attempt seqs r j).2 = some od ∧
      SatRuns a seqs r (.any k .typ) (r.storeWord (a.slotOf j) (a.attempt seqs r j).1)
        (some (j, od))) ∨
    ((∀ j, k ≤ j → j < a.handles.length → a.locked seqs r j = false) ∧
      SatRuns a seqs r (.any k .typ) r none) := by
  -- by induction on the positions that are left
  induction hm : a.handles.length - k generalizing k with
  | zero => omega
  | succ m ih =>
    cases hl : a.locked seqs r k with
    | true =>
      obtain ⟨od, hod⟩ := attempt_of_locked hl
      exact .inl ⟨k, od, le_refl _, hk, hl, fun i h₁ h₂ => absurd h₁ (by omega), hod,
        .any_acquire hod⟩
    | false =>
      have hno := attempt_of_not_locked hl
      by_cases hnext : k + 1 < a.handles.length
      · rcases ih hnext (by omega) with ⟨j, od, hkj, hj, hlj, hfirst, hod, hrun⟩ | ⟨hall, hrun⟩
        · refine .inl ⟨j, od, by omega, hj, hlj, fun i h₁ h₂ => ?_, hod,
            .any_refused hno (by rw [if_pos hnext]; exact hrun)⟩
          rcases Nat.eq_or_lt_of_le h₁ with rfl | h₁
          · exact hl
          · exact hfirst i h₁ h₂
        · refine .inr ⟨fun j h₁ h₂ => ?_, .any_refused hno (by rw [if_pos hnext]; exact hrun)⟩
          rcases Nat.eq_or_lt_of_le h₁ with rfl | h₁
          · exact hl
          · exact hall j h₁ h₂
      · refine .inr ⟨fun j h₁ h₂ => ?_, .any_refused hno (by rw [if_neg hnext]; exact ⟨rfl, rfl⟩)⟩
        have hj : j = k := by omega
        rw [hj]
        exact hl

/-- A wait-all that acquires an object goes on to the next one, or has them all. -/
theorem SatRuns.all_acquire {acquired : List (Nat × Bool)} {od b : Bool}
    (h : (a.attempt seqs r k).2 = some b)
    (hnext : if k + 1 < a.handles.length then
        SatRuns a seqs (r.storeWord (a.slotOf k) (a.attempt seqs r k).1)
          (.all (k + 1) (acquired ++ [(k, b)]) (od || b) .typ) r' x
      else r' = r.storeWord (a.slotOf k) (a.attempt seqs r k).1 ∧ x = some (0, od || b)) :
    SatRuns a seqs r (.all k acquired od .typ) r' x := by
  have hs := acquire_settles (r.slots (a.slotOf k)) a.owner (seqs k)
  refine SatRuns.through (Sat.all k acquired od) (fun q q' hq => ?_) hs fun q hq => ?_
  · simp [Sat.step, hq]
  · unfold WaitArgs.attempt at h
    rw [h] at hq
    split at hnext
    · rename_i hk
      refine .more (w := (a.attempt seqs r k).1.map (.acquire k b))
        (by simp only [Sat.step, hq, if_pos hk]; rfl) ?_
      rw [store_acquire]
      exact hnext
    · rename_i hk
      obtain ⟨rfl, rfl⟩ := hnext
      rw [← store_acquire a k b]
      exact .done (by simp only [Sat.step, hq, if_neg hk]; rfl)

/-- A wait-all that is refused rolls back what it has. -/
theorem SatRuns.all_refused {acquired : List (Nat × Bool)} {od : Bool}
    (h : (a.attempt seqs r k).2 = none)
    (hundo : SatRuns a seqs r (.undo acquired .typ) r' x) :
    SatRuns a seqs r (.all k acquired od .typ) r' x := by
  have hs := acquire_settles (r.slots (a.slotOf k)) a.owner (seqs k)
  refine SatRuns.through (Sat.all k acquired od) (fun q q' hq => ?_) hs fun q hq => ?_
  · simp [Sat.step, hq]
  · unfold WaitArgs.attempt at h
    rw [h] at hq
    cases acquired with
    | nil =>
      cases hundo with
      | done hu =>
        cases hu
        exact .done (w := none) (by simp only [Sat.step, hq, if_true])
      | more hu _ => cases hu
    | cons y ys =>
      exact .more (w := none) (by simp only [Sat.step, hq]; rfl) hundo

/-- The region after the listed positions were given back, one after the other. -/
def WaitArgs.undoAll (a : WaitArgs) : Region → List (Nat × Bool) → Region
  | r, [] => r
  | r, (j, b) :: todo =>
    a.undoAll (r.storeWord (a.slotOf j) (rollbackAcquire (r.slots (a.slotOf j)) a.owner b)) todo

/-- The rollback of a wait-all gives back each object in turn. -/
theorem undo_runs (todo : List (Nat × Bool)) (r : Region) :
    SatRuns a seqs r (.undo todo .typ) (a.undoAll r todo) none := by
  induction todo generalizing r with
  | nil => exact .done (w := none) rfl
  | cons y todo ih =>
    obtain ⟨j, b⟩ := y
    have hs := undo_settles (r.slots (a.slotOf j)) a.owner b
    refine SatRuns.through (Sat.undo ((j, b) :: todo)) (fun u u' hu => ?_) hs fun u hu => ?_
    · simp [Sat.step, hu]
    · cases todo with
      | nil =>
        show SatRuns a seqs r _ (r.storeWord _ _) none
        rw [← store_rollback a j]
        exact .done (by simp only [Sat.step, hu, if_true])
      | cons z zs =>
        show SatRuns a seqs r _ (a.undoAll (r.storeWord _ _) (z :: zs)) none
        have hrest := ih (r.storeWord (a.slotOf j)
          (rollbackAcquire (r.slots (a.slotOf j)) a.owner b))
        rw [← store_rollback a j] at hrest ⊢
        exact .more (by simp only [Sat.step, hu]; rfl) hrest

end SatRuns

/-! ### A wait-all -/

namespace WaitArgs

/-- The handles resolve to distinct slots. -/
def Distinct (a : WaitArgs) : Prop :=
  ∀ i < a.handles.length, ∀ j < a.handles.length, a.slotOf i = a.slotOf j → i = j

/-- The region after the first `k` objects were acquired. -/
def took (a : WaitArgs) (seqs : Nat → U64) (r : Region) : Nat → Region
  | 0 => r
  | k + 1 => (a.took seqs r k).storeWord (a.slotOf k) (a.attempt seqs r k).1

/-- What the acquire of the object at position `k` says about a dead owner. -/
def answer (a : WaitArgs) (seqs : Nat → U64) (r : Region) (k : Nat) : Bool :=
  (a.attempt seqs r k).2.getD false

/-- The record of the first `k` acquires. -/
def acquired (a : WaitArgs) (seqs : Nat → U64) (r : Region) (k : Nat) : List (Nat × Bool) :=
  (List.range k).map fun j => (j, a.answer seqs r j)

/-- One of the first `k` acquires found an abandoned mutex. -/
def anyDead (a : WaitArgs) (seqs : Nat → U64) (r : Region) (k : Nat) : Bool :=
  (List.range k).any fun j => a.answer seqs r j

end WaitArgs

/-- The slot's object is an unowned mutex that was abandoned. -/
def Slot.abandoned (s : Slot) : Bool :=
  decide (s.objType = .mutex) && decide (lo32 s.w0 = 0) && mutexDead s.w0

section WaitAll

variable {a : WaitArgs} {seqs : Nat → U64} {r : Region} {k n : Nat}

/-- One more object has been acquired. -/
theorem acquired_succ :
    a.acquired seqs r (k + 1) = a.acquired seqs r k ++ [(k, a.answer seqs r k)] := by
  simp [WaitArgs.acquired, List.range_succ]

/-- One more answer has been collected. -/
theorem anyDead_succ :
    a.anyDead seqs r (k + 1) = (a.anyDead seqs r k || a.answer seqs r k) := by
  simp [WaitArgs.anyDead, List.range_succ, Bool.or_comm]

/-- The answer of a successful attempt. -/
theorem answer_eq {b : Bool} (h : (a.attempt seqs r k).2 = some b) :
    a.answer seqs r k = b := by
  rw [WaitArgs.answer, h]
  rfl

/-- The answer of an acquire is the flag of an abandoned mutex. -/
theorem tryAcquire_abandoned {s : Slot} {owner : U32} {seq : U64} {b : Bool}
    (h : (tryAcquire s owner seq).2 = some b) : b = s.abandoned := by
  unfold tryAcquire at h
  unfold Slot.abandoned
  cases hty : s.objType with
  | sem =>
    rw [hty] at h
    replace h : (casOnce s.w0 acquireSem).2 = some b := h
    by_cases hlo : lo32 s.w0 = 0
    · rw [casOnce_ret (if_pos hlo)] at h
      cases h
    · rw [casOnce_cas (if_neg hlo)] at h
      cases h
      rfl
  | mutex =>
    rw [hty] at h
    replace h : (casOnce s.w0 (acquireMutex owner)).2 = some b := h
    unfold casOnce at h
    cases hp : acquireMutex owner s.w0 with
    | ret x =>
      rw [hp] at h
      obtain rfl : x = some b := h
      exact (acquireMutex_ret hp).elim
    | cas new x =>
      rw [hp] at h
      obtain rfl : x = some b := h
      rcases (acquireMutex_cas hp).2.2 with ⟨hfree, rfl, -⟩ | ⟨-, hheld, rfl, -⟩
      · rw [decide_eq_true rfl, decide_eq_true hfree, Bool.true_and, Bool.true_and]
      · rw [decide_eq_false hheld, Bool.and_false, Bool.false_and]
  | event =>
    rw [hty] at h
    dsimp only at h
    split at h
    · split at h <;> cases h <;> rfl
    · dsimp only at h
      split at h <;> cases h
      rfl
  | unset | reserved =>
    rw [hty] at h
    cases h

/-- A slot that none of the first `k` handles names is as it was. -/
theorem took_slots_ne {m : Nat} (h : ∀ j < k, m ≠ a.slotOf j) :
    (a.took seqs r k).slots m = r.slots m := by
  induction k with
  | zero => rfl
  | succ k ih =>
    rw [WaitArgs.took, storeWord_slots_ne (h k (Nat.lt_succ_self k))]
    exact ih fun j hj => h j (Nat.lt_succ_of_lt hj)

/-- The object at a position that is not reached yet is as it was. -/
theorem took_slots_ahead (hd : a.Distinct) {j : Nat} (hkj : k ≤ j) (hj : j < a.handles.length) :
    (a.took seqs r k).slots (a.slotOf j) = r.slots (a.slotOf j) := by
  refine took_slots_ne fun i hi heq => ?_
  have hij := hd j hj i (by omega) heq
  omega

/-- The object at an acquired position has the word the acquire stored. -/
theorem took_slots_behind (hd : a.Distinct) {j : Nat} (hjk : j < k) (hk : k ≤ a.handles.length) :
    (a.took seqs r k).slots (a.slotOf j)
      = { r.slots (a.slotOf j) with
          w0 := (a.attempt seqs r j).1.getD (r.slots (a.slotOf j)).w0 } := by
  induction k with
  | zero => omega
  | succ k ih =>
    rw [WaitArgs.took]
    rcases Nat.lt_succ_iff_lt_or_eq.mp hjk with hlt | rfl
    · rw [storeWord_slots_ne fun h => ?_]
      · exact ih hlt (by omega)
      · have hjk' := hd j (by omega) k (by omega) h
        omega
    · rw [storeWord_slots_self, took_slots_ahead hd (le_refl _) (by omega)]

/-- The objects taken before do not matter to an attempt, the handles being distinct. -/
theorem attempt_took (hd : a.Distinct) (hk : k < a.handles.length) :
    a.attempt seqs (a.took seqs r k) k = a.attempt seqs r k := by
  unfold WaitArgs.attempt
  rw [took_slots_ahead hd (le_refl k) hk]

/-- A wait-all goes on from position `k` to position `f`, as long as the objects in between can be
    acquired. -/
theorem all_advance (hd : a.Distinct) {f : Nat} (hf : f < a.handles.length)
    (hlocked : ∀ j < f, a.locked seqs r j = true) (hkf : k ≤ f) {r' : Region}
    {x : Option (Nat × Bool)}
    (hrest : SatRuns a seqs (a.took seqs r f)
      (.all f (a.acquired seqs r f) (a.anyDead seqs r f) .typ) r' x) :
    SatRuns a seqs (a.took seqs r k)
      (.all k (a.acquired seqs r k) (a.anyDead seqs r k) .typ) r' x := by
  -- by induction on the distance to `f`
  induction hm : f - k generalizing k with
  | zero =>
    have hk : k = f := by omega
    subst hk
    exact hrest
  | succ m ih =>
    obtain ⟨b, hb⟩ := attempt_of_locked (hlocked k (by omega))
    have hnext := ih (k := k + 1) (by omega) (by omega)
    rw [acquired_succ, anyDead_succ, answer_eq hb] at hnext
    refine .all_acquire (b := b) (by rw [attempt_took hd (by omega)]; exact hb) ?_
    rw [if_pos (by omega), attempt_took hd (by omega)]
    exact hnext

/-- **A wait-all of acquirable objects** acquires them all. -/
theorem all_runs (hd : a.Distinct) (hpos : 0 < a.handles.length)
    (hlocked : ∀ j < a.handles.length, a.locked seqs r j = true) :
    SatRuns a seqs r (.all 0 [] false .typ) (a.took seqs r a.handles.length)
      (some (0, a.anyDead seqs r a.handles.length)) := by
  obtain ⟨f, hf⟩ : ∃ f, a.handles.length = f + 1 := ⟨a.handles.length - 1, by omega⟩
  obtain ⟨b, hb⟩ := attempt_of_locked (hlocked f (by omega))
  refine all_advance hd (k := 0) (f := f) (by omega) (fun j hj => hlocked j (by omega))
    (Nat.zero_le _) ?_
  refine .all_acquire (b := b) (by rw [attempt_took hd (by omega)]; exact hb) ?_
  rw [if_neg (by omega), attempt_took hd (by omega), hf, anyDead_succ, answer_eq hb]
  exact ⟨rfl, rfl⟩

/-- **A wait-all that fails at position `f`** gives the objects before it back. -/
theorem all_fails (hd : a.Distinct) {f : Nat} (hf : f < a.handles.length)
    (hlocked : ∀ j < f, a.locked seqs r j = true) (hno : a.locked seqs r f = false) :
    SatRuns a seqs r (.all 0 [] false .typ)
      (a.undoAll (a.took seqs r f) (a.acquired seqs r f)) none :=
  all_advance hd (k := 0) hf hlocked (Nat.zero_le _)
    (.all_refused (by rw [attempt_took hd hf]; exact attempt_of_not_locked hno) (undo_runs _ _))

/-- The answers are the flags of the abandoned mutexes. -/
theorem anyDead_eq (hlocked : ∀ j < k, a.locked seqs r j = true) :
    a.anyDead seqs r k = (List.range k).any fun j => (r.slots (a.slotOf j)).abandoned := by
  induction k with
  | zero => rfl
  | succ k ih =>
    obtain ⟨b, hb⟩ := attempt_of_locked (hlocked k (Nat.lt_succ_self k))
    rw [anyDead_succ, ih fun j hj => hlocked j (Nat.lt_succ_of_lt hj), answer_eq hb,
      tryAcquire_abandoned hb]
    simp [List.range_succ, Bool.or_comm]

variable (a seqs r) in
/-- What a wait-any returns and leaves. -/
theorem any_result (hpos : 0 < a.handles.length) :
    ∃ r' res, SatRuns a seqs r (.any 0 .typ) r' res ∧
      (res.isSome = true ↔ ∃ i < a.handles.length, a.locked seqs r i = true) ∧
      (∀ i od, res = some (i, od) → i < a.handles.length ∧ a.locked seqs r i = true ∧
        (∀ j < i, a.locked seqs r j = false) ∧
        ∃ w, a.attempt seqs r i = (w, some od) ∧ r' = r.storeWord (a.slotOf i) w) ∧
      (res = none → r' = r) := by
  rcases any_runs seqs r hpos with
    ⟨j, od, -, hj, hlj, hfirst, hod, hrun⟩ | ⟨hno, hrun⟩
  · refine ⟨_, _, hrun, ⟨fun _ => ⟨j, hj, hlj⟩, fun _ => rfl⟩, ?_, fun hres => (by cases hres)⟩
    intro i b hres
    cases hres
    exact ⟨hj, hlj, fun i hi => hfirst i (Nat.zero_le i) hi, _, Prod.ext rfl hod, rfl⟩
  · refine ⟨_, _, hrun, ⟨fun h => (by cases h), ?_⟩, fun i b hres => (by cases hres), fun _ => rfl⟩
    rintro ⟨i, hi, hli⟩
    rw [hno i (Nat.zero_le i) hi] at hli
    cases hli

/-- The first object of a wait-all that cannot be acquired. -/
theorem first_unlocked (h : ¬ ∀ i < a.handles.length, a.locked seqs r i = true) :
    ∃ f < a.handles.length, a.locked seqs r f = false ∧
      ∀ j < f, a.locked seqs r j = true := by
  have hex : ∃ f, f < a.handles.length ∧ a.locked seqs r f = false := by
    push Not at h
    obtain ⟨f, hf, hlf⟩ := h
    exact ⟨f, hf, Bool.eq_false_of_not_eq_true hlf⟩
  obtain ⟨hf, hlf⟩ := Nat.find_spec hex
  refine ⟨Nat.find hex, hf, hlf, fun j hj => ?_⟩
  by_contra hlj
  exact Nat.find_min hex hj ⟨by omega, Bool.eq_false_of_not_eq_true hlj⟩

variable (seqs r) in
/-- What a wait-all returns. -/
theorem all_result (hd : a.Distinct) (hpos : 0 < a.handles.length) :
    ∃ r' res, SatRuns a seqs r (.all 0 [] false .typ) r' res ∧
      (res.isSome = true ↔ ∀ i < a.handles.length, a.locked seqs r i = true) ∧
      ∀ i od, res = some (i, od) → i = 0 ∧
        od = (List.range a.handles.length).any fun j => (r.slots (a.slotOf j)).abandoned := by
  by_cases hlocked : ∀ i < a.handles.length, a.locked seqs r i = true
  · refine ⟨_, _, all_runs hd hpos hlocked, ⟨fun _ => hlocked, fun _ => rfl⟩, ?_⟩
    intro i b hres
    cases hres
    exact ⟨rfl, anyDead_eq hlocked⟩
  · obtain ⟨f, hf, hlf, hbefore⟩ := first_unlocked hlocked
    exact ⟨_, _, all_fails hd hf hbefore hlf, ⟨fun h => (by cases h), fun h => absurd h hlocked⟩,
      fun i b hres => (by cases hres)⟩

end WaitAll

/-! ### The peek of the pre-sleep spin -/

/-- The peek: some object can be acquired, for a wait-all every object. -/
def WaitArgs.peek (a : WaitArgs) (seqs : Nat → U64) (r : Region) : Bool :=
  (List.range a.handles.length).any (a.locked seqs r) &&
    (!a.all || (List.range a.handles.length).all (a.locked seqs r))

section Peek

variable {T : Type} {t : T} {pid : U32} {sh : Shared T} {c : WaitCtx} {left : Nat} {seq : U32}
  {pc : Pc}

/-- Where the peek goes on after it has judged position `i`. -/
def WaitCtx.peekNext (c : WaitCtx) (all : Bool) (i : Nat) (locked : Bool) : SpinPc :=
  if locked then
    if all then
      if i + 1 < c.handles.length then .peek true (i + 1) false else .sat (.start c.all)
    else if c.all then .peek true 0 false else .sat (.start c.all)
  else if all = false ∧ i + 1 < c.handles.length then .peek false (i + 1) false
  else .registered

/-- Where the spin loop goes on after a peek. -/
theorem goto_peekNext (all : Bool) (i : Nat) (locked : Bool) :
    c.goto (.spin left seq (c.peekNext all i locked)) =
      if locked then
        if all then
          if i + 1 < c.handles.length then c.goto (.spin left seq (.peek true (i + 1) false))
          else c.goto (.spin left seq (.sat (.start c.all)))
        else if c.all then c.goto (.spin left seq (.peek true 0 false))
        else c.goto (.spin left seq (.sat (.start c.all)))
      else if all = false ∧ i + 1 < c.handles.length then
        c.goto (.spin left seq (.peek false (i + 1) false))
      else c.goto (.spin left seq .registered) := by
  unfold WaitCtx.peekNext
  cases locked with
  | true =>
    cases all with
    | true =>
      simp only [if_true]
      split <;> rfl
    | false =>
      simp only [if_true, Bool.false_eq_true, if_false]
      split <;> rfl
  | false =>
    simp only [Bool.false_eq_true, if_false]
    split <;> rfl

/-- The access of an unsignaled event's pulse counter. -/
theorem spinTick_peekD (all : Bool) (i : Nat) :
    spinTick sh c left seq (.peek all i true) = c.goto (.spin left seq
      (c.peekNext all i (decide ((sh.region.slots (c.slotOf i)).d ≠ c.seqs i)))) := by
  rw [goto_peekNext]
  rfl

/-- The access that judges any other object. -/
theorem spinTick_peek (all : Bool) (i : Nat)
    (hno : ¬ ((sh.region.slots (c.slotOf i)).objType = .event ∧
      lo32 (sh.region.slots (c.slotOf i)).w0 = 0)) :
    spinTick sh c left seq (.peek all i false) = c.goto (.spin left seq
      (c.peekNext all i (c.locked c.seqs sh.region i))) := by
  rw [goto_peekNext]
  exact if_neg fun h => hno h.2

/-- One position of the peek: two accesses for an unsignaled event, one otherwise. -/
theorem Alone.peek_one {all : Bool} {i : Nat}
    (hrest : Alone t pid sh
      (.wait c (.spin left seq (c.peekNext all i (c.locked c.seqs sh.region i)))) sh pc) :
    Alone t pid sh (.wait c (.spin left seq (.peek all i false))) sh pc := by
  by_cases hev : (sh.region.slots (c.slotOf i)).objType = .event ∧
      lo32 (sh.region.slots (c.slotOf i)).w0 = 0
  · obtain ⟨hty, hlo⟩ := hev
    have hlocked : c.locked c.seqs sh.region i
        = decide ((sh.region.slots (c.slotOf i)).d ≠ c.seqs i) := by
      simp [WaitArgs.locked, isLocked, hty, hlo]
    rw [hlocked] at hrest
    refine .head (i := .silent) (q := .wait c (.spin left seq (.peek all i true)))
      (fun _ => ?_) (by simp) ?_
    · show spinTick sh c left seq (.peek all i false) = _
      unfold spinTick
      exact if_pos ⟨rfl, hty, hlo⟩
    · exact .head (i := .silent) (fun _ => spinTick_peekD all i) (by simp) hrest
  · exact .head (i := .silent) (fun _ => spinTick_peek all i hev) (by simp) hrest

/-- The peek's second round, from position `i` on. -/
theorem Alone.peek_all {i : Nat} (hi : i < c.handles.length) :
    Alone t pid sh (.wait c (.spin left seq (.peek true i false))) sh
      (.wait c (.spin left seq
        (if ∀ j, i ≤ j → j < c.handles.length → c.locked c.seqs sh.region j = true then
          .sat (.start c.all) else .registered))) := by
  induction hm : c.handles.length - i generalizing i with
  | zero => omega
  | succ m ih =>
    refine .peek_one ?_
    unfold WaitCtx.peekNext
    cases hl : c.locked c.seqs sh.region i with
    | false =>
      have hno : ¬ ∀ j, i ≤ j → j < c.handles.length → c.locked c.seqs sh.region j = true := by
        intro h
        rw [h i (le_refl _) hi] at hl
        cases hl
      rw [if_neg hno]
      exact .refl
    | true =>
      by_cases hnext : i + 1 < c.handles.length
      · have hiff : (∀ j, i ≤ j → j < c.handles.length → c.locked c.seqs sh.region j = true) ↔
            ∀ j, i + 1 ≤ j → j < c.handles.length → c.locked c.seqs sh.region j = true := by
          refine ⟨fun h j h₁ => h j (by omega), fun h j h₁ h₂ => ?_⟩
          rcases Nat.eq_or_lt_of_le h₁ with rfl | h₁
          · exact hl
          · exact h j h₁ h₂
        simp only [if_true, if_pos hnext, hiff]
        exact ih hnext (by omega)
      · have hyes : ∀ j, i ≤ j → j < c.handles.length → c.locked c.seqs sh.region j = true := by
          intro j h₁ h₂
          have hj : j = i := by omega
          rw [hj]
          exact hl
        simp only [if_true, if_neg hnext, if_pos hyes]
        exact .refl

/-- The peek's first round, from position `i` on, when no position before it can be acquired. -/
theorem Alone.peek_any {i : Nat} (hi : i < c.handles.length)
    (hno : ∀ j < i, c.locked c.seqs sh.region j = false) :
    Alone t pid sh (.wait c (.spin left seq (.peek false i false))) sh
      (.wait c (.spin left seq
        (if c.peek c.seqs sh.region then .sat (.start c.all) else .registered))) := by
  induction hm : c.handles.length - i generalizing i with
  | zero => omega
  | succ m ih =>
    refine .peek_one ?_
    unfold WaitCtx.peekNext
    cases hl : c.locked c.seqs sh.region i with
    | true =>
      -- an object that can be acquired ends the first round
      have hany : (List.range c.handles.length).any (c.locked c.seqs sh.region) = true :=
        List.any_eq_true.mpr ⟨i, List.mem_range.mpr hi, hl⟩
      have hpos : 0 < c.handles.length := by omega
      unfold WaitArgs.peek
      rw [hany, Bool.true_and]
      cases hall : c.all with
      | false => exact .refl
      | true =>
        -- a wait-all goes on to look at all of its objects
        have hround : Alone t pid sh (.wait c (.spin left seq (.peek true 0 false))) sh _ :=
          Alone.peek_all hpos
        rw [hall] at hround
        have hiff : (∀ j, 0 ≤ j → j < c.handles.length → c.locked c.seqs sh.region j = true) ↔
            (!true || (List.range c.handles.length).all (c.locked c.seqs sh.region)) = true := by
          simp
        simp only [hiff] at hround
        exact hround
    | false =>
      by_cases hnext : i + 1 < c.handles.length
      · simp only [hnext, and_self, if_true, Bool.false_eq_true, if_false]
        refine ih hnext (fun j hj => ?_) (by omega)
        rcases Nat.lt_succ_iff_lt_or_eq.mp hj with hj | rfl
        · exact hno j hj
        · exact hl
      · have hnone : (List.range c.handles.length).any (c.locked c.seqs sh.region) = false := by
          rw [List.any_eq_false]
          intro j hj
          have hj' := List.mem_range.mp hj
          rcases Nat.lt_or_eq_of_le (Nat.le_of_lt_succ (by omega : j < i + 1)) with h | rfl
          · rw [hno j h]
            exact Bool.false_ne_true
          · rw [hl]
            exact Bool.false_ne_true
        unfold WaitArgs.peek
        rw [hnone]
        simp only [hnext, and_false, if_false, Bool.false_eq_true, Bool.false_and]
        exact .refl

/-- What the peek of the spin loop asks for: one object for a wait-any, all of them for a wait-all.
    -/
theorem peek_iff : c.peek c.seqs sh.region = true ↔
    (∃ i < c.handles.length, c.locked c.seqs sh.region i = true) ∧
      (c.all = true → ∀ i < c.handles.length, c.locked c.seqs sh.region i = true) := by
  simp only [WaitArgs.peek, Bool.and_eq_true, List.any_eq_true, List.mem_range, Bool.or_eq_true,
    Bool.not_eq_true', List.all_eq_true]
  cases c.all <;> simp

/-- **The peek and the acquire agree.**  Without interference `try_satisfy` succeeds iff the peek
    says so; a wait-any then takes the first object that can be acquired and changes no other word,
    and a wait-any that fails changes nothing; a wait-all reports the abandoned mutexes among its
    objects.  The peek of the spin computes `WaitArgs.peek`. -/
theorem try_satisfy_peek (t : T) (pid : U32) (sh : Shared T) (c : WaitCtx) (left : Nat) (seq : U32)
    (hpos : 0 < c.handles.length) (hd : c.Distinct) :
    let n := c.handles.length
    let obj := fun i => sh.region.slots (c.slotOf i)
    let locked := fun i => isLocked (obj i) c.owner (c.seqs i)
    (∃ r' res, SatRuns c.toWaitArgs c.seqs sh.region (.start c.all) r' res ∧
      (c.all = false →
        (res.isSome = true ↔ ∃ i < n, locked i = true) ∧
        (∀ i od, res = some (i, od) → i < n ∧ locked i = true ∧ (∀ j < i, locked j = false) ∧
          ∃ w, tryAcquire (obj i) c.owner (c.seqs i) = (w, some od) ∧
            r' = sh.region.storeWord (c.slotOf i) w) ∧
        (res = none → r' = sh.region)) ∧
      (c.all = true →
        (res.isSome = true ↔ ∀ i < n, locked i = true) ∧
        (∀ i od, res = some (i, od) → i = 0 ∧
          od = (List.range n).any fun j => (obj j).abandoned)) ∧
      (c.peek c.seqs sh.region = true ↔ res.isSome = true)) ∧
    Alone t pid sh (.wait c (.spin left seq (.peek false 0 false))) sh
      (.wait c (.spin left seq
        (if c.peek c.seqs sh.region then .sat (.start c.all) else .registered))) := by
  intro n obj locked
  refine ⟨?_, Alone.peek_any hpos fun j hj => absurd hj (Nat.not_lt_zero j)⟩
  cases hall : c.all with
  | false =>
    obtain ⟨r', res, hrun, hsome, hwin, hnone⟩ :=
      any_result c.toWaitArgs c.seqs sh.region hpos
    refine ⟨r', res, hrun, fun _ => ⟨hsome, hwin, hnone⟩, fun h => (by cases h), ?_⟩
    rw [peek_iff, hsome, hall]
    exact ⟨fun h => h.1, fun h => ⟨h, fun hf => (by cases hf)⟩⟩
  | true =>
    obtain ⟨r', res, hrun, hsome, hwin⟩ :=
      all_result (a := c.toWaitArgs) c.seqs sh.region hd hpos
    refine ⟨r', res, hrun, fun h => (by cases h), fun _ => ⟨hsome, hwin⟩, ?_⟩
    rw [peek_iff, hsome, hall]
    exact ⟨fun h => h.2 rfl, fun h => ⟨⟨0, hpos, h 0 hpos⟩, fun _ => h⟩⟩

/-- An auto-reset event in slot 1 whose pulse counter is `d`, and a semaphore in slot 2. -/
def pairRegion (d : U64) (count : U32) : Region :=
  ((Region.init.created 1 (.event false false) 7).created 2 (.sem count 1) 7).setSlot 1
    fun s => { s with d := d }

/-- A wait for both objects. -/
def pairArgs (all : Bool) : WaitArgs where
  handles := [1, 2]
  owner := 9
  all := all
  alert := 0

/-- The two handles of the example are distinct. -/
theorem pairArgs_distinct (all : Bool) : (pairArgs all).Distinct := by
  unfold WaitArgs.Distinct
  cases all <;> decide

/-- The event is not signaled; a wait-any takes the semaphore's token. -/
theorem try_satisfy_peek_pair :
    ∃ r' od, SatRuns (pairArgs false) (fun _ => 0) (pairRegion 0 1) (.start false) r'
        (some (1, od)) ∧
      (pairArgs false).peek (fun _ => 0) (pairRegion 0 1) = true := by
  obtain ⟨r', res, hrun, hany, -, hpeek⟩ := (try_satisfy_peek (0 : Fin 1) 7
    ⟨pairRegion 0 1, none, fun _ => false⟩
    ⟨pairArgs false, .never, fun _ => 0, []⟩ 1 0 (by decide) (pairArgs_distinct false)).1
  obtain ⟨hsome, hwin, -⟩ := hany rfl
  have hres : res.isSome = true := hsome.mpr ⟨1, by decide, by decide⟩
  obtain ⟨⟨i, od⟩, rfl⟩ := Option.isSome_iff_exists.mp hres
  obtain ⟨hi, hli, -, -⟩ := hwin i od rfl
  have hone : i = 1 := by
    have hlt : i < 2 := hi
    interval_cases i
    · exact absurd hli (by decide)
    · rfl
  subst hone
  exact ⟨r', od, hrun, hpeek.mpr hres⟩

end Peek

/-! ### Giving back -/

/-- The word of the slot's object is well formed. -/
def Slot.WordOk (s : Slot) : Prop :=
  match s.objType with
  | .sem => (lo32 s.w0).toNat ≤ (hi32 s.w0).toNat
  | .mutex => Ntsync.WordOk s.w0
  | .event => ∃ signaled manual, s.w0 = packEvent signaled manual
  | _ => True

/-- The slot's object is an unsignaled auto-reset event: it can only be acquired by a pulse. -/
def Slot.unsignaledAuto (s : Slot) : Prop :=
  s.objType = .event ∧ s.w0 >>> 32 = 0 ∧ lo32 s.w0 = 0

instance (s : Slot) : Decidable s.unsignaledAuto :=
  inferInstanceAs (Decidable (_ ∧ _ ∧ _))

/-- The object's word after an undisturbed acquire. -/
def Slot.takenWord (s : Slot) (owner : U32) (seq : U64) : U64 :=
  (tryAcquire s owner seq).1.getD s.w0

/-- The object's word after an undisturbed acquire that was given back at once. -/
def Slot.returnedWord (s : Slot) (owner : U32) (seq : U64) (ownerDead : Bool) : U64 :=
  let s' := { s with w0 := s.takenWord owner seq }
  (rollbackAcquire s' owner ownerDead).getD s'.w0

section GivingBack

variable {s : Slot} {owner : U32} {seq : U64} {od : Bool}

/-- Owner, count and flag determine a mutex word. -/
theorem mutex_word_ext {w v : U64} (hlo : lo32 w = lo32 v)
    (hcount : (mutexCount w).toNat = (mutexCount v).toNat) (hdead : mutexDead w = mutexDead v) :
    w = v := by
  have hsplit : ∀ u : U64, (mutexCount u).toNat = (hi32 u).toNat % 2 ^ 31 := by
    intro u
    rw [mutexCount, BitVec.toNat_and]
    exact Nat.and_two_pow_sub_one_eq_mod _ 31
  have hflag : ∀ u : U64, mutexDead u = decide ((hi32 u).toNat / 2 ^ 31 = 1) := by
    intro u
    have hlt := (hi32 u).isLt
    have hshift : (hi32 u >>> 31).toNat = (hi32 u).toNat / 2 ^ 31 := by
      rw [BitVec.toNat_ushiftRight, Nat.shiftRight_eq_div_pow]
    have hzero : hi32 u >>> 31 = 0 ↔ (hi32 u).toNat / 2 ^ 31 = 0 := by
      rw [← hshift]
      exact ⟨fun h => by rw [h]; rfl, fun h => BitVec.eq_of_toNat_eq h⟩
    rw [mutexDead]
    apply decide_eq_decide.mpr
    rw [Ne, hzero]
    omega
  refine word_ext hlo (BitVec.eq_of_toNat_eq ?_)
  have hw := (hi32 w).isLt
  have hv := (hi32 v).isLt
  rw [hsplit, hsplit] at hcount
  rw [hflag, hflag] at hdead
  have hiff := decide_eq_decide.mp hdead
  omega

/-- A semaphore gets its token back. -/
theorem returned_sem (hty : s.objType = .sem) (h : (tryAcquire s owner seq).2 = some od) :
    s.returnedWord owner seq od = s.w0 := by
  have htake : tryAcquire s owner seq = casOnce s.w0 acquireSem := by
    unfold tryAcquire
    rw [hty]
  rw [htake] at h
  by_cases hlo : lo32 s.w0 = 0
  · rw [casOnce_ret (if_pos hlo)] at h
    cases h
  · have hword : s.takenWord owner seq = packSem (lo32 s.w0 - 1) (hi32 s.w0) := by
      rw [Slot.takenWord, htake, casOnce_cas (if_neg hlo)]
      rfl
    unfold Slot.returnedWord rollbackAcquire
    simp only [hty, hword]
    apply word_ext
    · show lo32 (packSem (lo32 (packSem _ _) + 1) _) = _
      rw [lo32_packSem, lo32_packSem, BitVec.sub_add_cancel]
    · show hi32 (packSem _ (hi32 (packSem _ _))) = _
      rw [hi32_packSem, hi32_packSem]

/-- A mutex gets its recursion, owner and abandoned mark back. -/
theorem returned_mutex (hty : s.objType = .mutex) (hok : WordOk s.w0)
    (h : (tryAcquire s owner seq).2 = some od) : s.returnedWord owner seq od = s.w0 := by
  have htake : tryAcquire s owner seq = casOnce s.w0 (acquireMutex owner) := by
    unfold tryAcquire
    rw [hty]
  rw [htake] at h
  obtain ⟨new, hpass⟩ : ∃ new, acquireMutex owner s.w0 = .cas new (some od) := by
    unfold casOnce at h
    cases hp : acquireMutex owner s.w0 with
    | ret x =>
      rw [hp] at h
      obtain rfl : x = some od := h
      exact (acquireMutex_ret hp).elim
    | cas new x =>
      rw [hp] at h
      obtain rfl : x = some od := h
      exact ⟨new, rfl⟩
  have hword : s.takenWord owner seq = new := by
    rw [Slot.takenWord, htake, casOnce_cas hpass]
    rfl
  obtain ⟨back, hback⟩ : ∃ back, rollbackMutex owner od new = .cas back () := by
    unfold rollbackMutex
    dsimp only
    split <;> exact ⟨_, rfl⟩
  have hret : s.returnedWord owner seq od = back := by
    unfold Slot.returnedWord rollbackAcquire
    simp only [hty, hword, casOnce_cas hback]
    rfl
  obtain ⟨hlo, hcount, hhow⟩ := acquireMutex_cas hpass
  obtain ⟨hcount', hhow'⟩ := rollbackMutex_cas hback (by omega)
  rw [hret]
  -- a free mutex has no count, a held one has
  rcases hhow with ⟨hfree, rfl, -⟩ | ⟨hown, hheld, -, hdead⟩
  · have hzero := hok.1.mp hfree
    rcases hhow' with ⟨-, hlo', hdead'⟩ | ⟨hmany, -, -⟩
    · exact mutex_word_ext (by rw [hlo', hfree]) (by omega) hdead'
    · omega
  · have hpos : (mutexCount s.w0).toNat ≠ 0 := fun h0 => hheld (hok.1.mpr h0)
    rcases hhow' with ⟨hone, -, -⟩ | ⟨-, hlo', hdead'⟩
    · omega
    · exact mutex_word_ext (by rw [hlo', hown]) (by omega) (by rw [hdead', hdead])

/-- An event gets its word back, unless it was taken unsignaled, by a pulse. -/
theorem returned_event (hty : s.objType = .event) {b m : Bool} (hw : s.w0 = packEvent b m) :
    s.returnedWord owner seq od = s.w0 ↔ ¬ s.unsignaledAuto := by
  unfold Slot.returnedWord Slot.takenWord rollbackAcquire tryAcquire Slot.unsignaledAuto
  simp only [hty, hw]
  cases b <;> cases m <;> simp [packEvent, lo32, casOnce, rollbackEvent]

/-- **Giving back undoes an acquire**, unless the acquire was a pulse of an auto-reset event. -/
theorem returnedWord_iff (hok : s.WordOk) (h : (tryAcquire s owner seq).2 = some od) :
    s.returnedWord owner seq od = s.w0 ↔ ¬ s.unsignaledAuto := by
  have hother (hty : s.objType ≠ .event) : ¬ s.unsignaledAuto := fun hu => hty hu.1
  unfold Slot.WordOk at hok
  cases hty : s.objType with
  | sem => exact iff_of_true (returned_sem hty h) (hother (by rw [hty]; decide))
  | mutex =>
    rw [hty] at hok
    exact iff_of_true (returned_mutex hty hok h) (hother (by rw [hty]; decide))
  | event =>
    rw [hty] at hok
    obtain ⟨b, m, hw⟩ := hok
    exact returned_event hty hw
  | unset | reserved =>
    unfold tryAcquire at h
    rw [hty] at h
    cases h

end GivingBack

/-! ### A wait-all that fails -/

section UndoAll

variable {a : WaitArgs} {seqs : Nat → U64} {r : Region} {f : Nat}

/-- A slot that no listed position names stays as it is. -/
theorem undoAll_slots_ne {m : Nat} (todo : List (Nat × Bool)) (r : Region)
    (h : ∀ x ∈ todo, m ≠ a.slotOf x.1) : (a.undoAll r todo).slots m = r.slots m := by
  induction todo generalizing r with
  | nil => rfl
  | cons x todo ih =>
    obtain ⟨j, b⟩ := x
    rw [WaitArgs.undoAll, ih _ fun y hy => h y (List.mem_cons_of_mem _ hy)]
    exact storeWord_slots_ne (h (j, b) (List.mem_cons_self ..))

/-- A listed position is given back once. -/
theorem undoAll_slots {todo : List (Nat × Bool)}
    (hnd : todo.Pairwise fun x y => a.slotOf x.1 ≠ a.slotOf y.1) (r : Region)
    {j : Nat} {b : Bool} (hx : (j, b) ∈ todo) :
    (a.undoAll r todo).slots (a.slotOf j) =
      { r.slots (a.slotOf j) with
          w0 := (rollbackAcquire (r.slots (a.slotOf j)) a.owner b).getD
            (r.slots (a.slotOf j)).w0 } := by
  induction todo generalizing r with
  | nil => cases hx
  | cons x todo ih =>
    obtain ⟨k, b'⟩ := x
    obtain ⟨hfirst, hrest⟩ := List.pairwise_cons.mp hnd
    rw [WaitArgs.undoAll]
    rcases List.mem_cons.mp hx with heq | hmem
    · cases heq
      rw [undoAll_slots_ne todo _ fun y hy => hfirst y hy]
      exact storeWord_slots_self
    · rw [ih hrest _ hmem, storeWord_slots_ne (Ne.symm (hfirst _ hmem))]

/-- What has been acquired up to a point. -/
theorem mem_acquired {j : Nat} (hj : j < f) : (j, a.answer seqs r j) ∈ a.acquired seqs r f :=
  List.mem_map.mpr ⟨j, List.mem_range.mpr hj, rfl⟩

/-- It was acquired from distinct slots. -/
theorem acquired_distinct (hd : a.Distinct) (hf : f ≤ a.handles.length) :
    (a.acquired seqs r f).Pairwise fun x y => a.slotOf x.1 ≠ a.slotOf y.1 := by
  unfold WaitArgs.acquired
  rw [List.pairwise_map]
  refine (List.nodup_range.imp_of_mem fun {i j} hi hj hij heq => hij ?_)
  have hi' := List.mem_range.mp hi
  have hj' := List.mem_range.mp hj
  exact hd i (by omega) j (by omega) heq

/-- After a failed wait-all an acquired object has the word that giving back leaves. -/
theorem undone_slots (hd : a.Distinct) (hf : f ≤ a.handles.length) {j : Nat} (hj : j < f) :
    (a.undoAll (a.took seqs r f) (a.acquired seqs r f)).slots (a.slotOf j) =
      { r.slots (a.slotOf j) with
          w0 := (r.slots (a.slotOf j)).returnedWord a.owner (seqs j) (a.answer seqs r j) } := by
  rw [undoAll_slots (acquired_distinct hd hf) _ (mem_acquired hj), took_slots_behind hd hj hf]
  rfl

/-- The slots of other objects are untouched. -/
theorem undone_slots_ne {m : Nat} (hm : ∀ j < f, m ≠ a.slotOf j) :
    (a.undoAll (a.took seqs r f) (a.acquired seqs r f)).slots m = r.slots m := by
  rw [undoAll_slots_ne, took_slots_ne hm]
  intro x hx
  obtain ⟨j, hj, rfl⟩ := List.mem_map.mp hx
  exact hm j (List.mem_range.mp hj)

end UndoAll

/-- A `try_satisfy` of a wait-all acquires every object, or leaves every word and every pulse
    counter as it was. -/
def AllOrNothing (a : WaitArgs) (seqs : Nat → U64) (r : Region) : Prop :=
  ∃ r' res, SatRuns a seqs r (.start true) r' res ∧
    (res.isSome = true → ∀ i < a.handles.length,
      isLocked (r.slots (a.slotOf i)) a.owner (seqs i) = true ∧
        r'.slots (a.slotOf i)
          = { r.slots (a.slotOf i) with
              w0 := (r.slots (a.slotOf i)).takenWord a.owner (seqs i) }) ∧
    (res = none → ∀ m, (r'.slots m).w0 = (r.slots m).w0 ∧ (r'.slots m).d = (r.slots m).d)

/-- No unsignaled auto-reset event is acquired before an object that cannot be: every object can
    be acquired, or none before the first one that cannot is such an event. -/
def GivesBack (a : WaitArgs) (seqs : Nat → U64) (r : Region) : Prop :=
  ∀ f < a.handles.length, isLocked (r.slots (a.slotOf f)) a.owner (seqs f) = false →
    (∀ j < f, isLocked (r.slots (a.slotOf j)) a.owner (seqs j) = true) →
    ∀ j < f, ¬ (r.slots (a.slotOf j)).unsignaledAuto

section AllOrNothing

variable {a : WaitArgs} {seqs : Nat → U64} {r : Region}

/-- When a rollback restores the word of an object. -/
theorem returned_iff (hok : ∀ i < a.handles.length, (r.slots (a.slotOf i)).WordOk) {j : Nat}
    (hj : j < a.handles.length) (hlj : a.locked seqs r j = true) :
    (r.slots (a.slotOf j)).returnedWord a.owner (seqs j) (a.answer seqs r j)
      = (r.slots (a.slotOf j)).w0 ↔ ¬ (r.slots (a.slotOf j)).unsignaledAuto := by
  obtain ⟨b, hb⟩ := attempt_of_locked hlj
  rw [answer_eq hb]
  exact returnedWord_iff (hok j hj) hb

/-- If each rollback restores its word, an attempt takes all or nothing. -/
theorem GivesBack.allOrNothing (hd : a.Distinct) (hpos : 0 < a.handles.length)
    (hok : ∀ i < a.handles.length, (r.slots (a.slotOf i)).WordOk) (h : GivesBack a seqs r) :
    AllOrNothing a seqs r := by
  by_cases hlocked : ∀ i < a.handles.length, a.locked seqs r i = true
  · refine ⟨_, _, all_runs hd hpos hlocked, fun _ i hi => ⟨hlocked i hi, ?_⟩,
      fun hres => (by cases hres)⟩
    exact took_slots_behind hd hi (le_refl _)
  · obtain ⟨f, hf, hlf, hbefore⟩ := first_unlocked hlocked
    refine ⟨_, _, all_fails hd hf hbefore hlf, fun hres => (by cases hres), fun _ m => ?_⟩
    by_cases hm : ∃ j < f, m = a.slotOf j
    · obtain ⟨j, hj, rfl⟩ := hm
      rw [undone_slots hd (le_of_lt hf) hj]
      exact ⟨(returned_iff hok (by omega) (hbefore j hj)).mpr (h f hf hlf hbefore j hj), rfl⟩
    · have hne : ∀ j < f, m ≠ a.slotOf j := fun j hj heq => hm ⟨j, hj, heq⟩
      rw [undone_slots_ne hne]
      exact ⟨rfl, rfl⟩

/-- If an attempt takes all or nothing, each rollback restores its word. -/
theorem AllOrNothing.givesBack (hd : a.Distinct)
    (hok : ∀ i < a.handles.length, (r.slots (a.slotOf i)).WordOk) (h : AllOrNothing a seqs r) :
    GivesBack a seqs r := by
  intro f hf hlf hbefore j hj
  obtain ⟨r', res, hrun, -, hnone⟩ := h
  obtain ⟨rfl, rfl⟩ := hrun.unique (all_fails hd hf hbefore hlf)
  have hword := (hnone rfl (a.slotOf j)).1
  rw [undone_slots hd (le_of_lt hf) hj] at hword
  exact (returned_iff hok (by omega) (hbefore j hj)).mp hword

/-- **When a wait-all is all-or-nothing.**  For well-formed words it is so iff no auto-reset event
    that was acquired by a pulse has to be given back; such an event ends up signaled. -/
theorem all_or_nothing_iff (a : WaitArgs) (seqs : Nat → U64) (r : Region)
    (hpos : 0 < a.handles.length) (hd : a.Distinct)
    (hok : ∀ i < a.handles.length, (r.slots (a.slotOf i)).WordOk) :
    (AllOrNothing a seqs r ↔ GivesBack a seqs r) ∧
      ∀ i < a.handles.length, ∀ od,
        (tryAcquire (r.slots (a.slotOf i)) a.owner (seqs i)).2 = some od →
        ((r.slots (a.slotOf i)).returnedWord a.owner (seqs i) od = (r.slots (a.slotOf i)).w0 ↔
          ¬ (r.slots (a.slotOf i)).unsignaledAuto) :=
  ⟨⟨fun h => h.givesBack hd hok, fun h => h.allOrNothing hd hpos hok⟩,
    fun i hi _ h => returnedWord_iff (hok i hi) h⟩

/-- The semaphore's token is acquired and given back when the event is not signaled. -/
theorem all_or_nothing_swapped :
    AllOrNothing ⟨[2, 1], 9, true, 0⟩ (fun _ => 0) (pairRegion 0 1) := by
  refine (all_or_nothing_iff _ _ _ (by decide) ?_ ?_).1.mpr ?_
  · unfold WaitArgs.Distinct
    decide
  · intro i hi
    have hlt : i < 2 := hi
    interval_cases i
    · show (lo32 (packSem 1 1)).toNat ≤ (hi32 (packSem 1 1)).toNat
      decide
    · exact ⟨false, false, rfl⟩
  · unfold GivesBack
    decide

/-- The words of the example are well formed. -/
theorem pairRegion_wordOk (d : U64) (i : Nat) (hi : i < 2) :
    ((pairRegion d 0).slots ((pairArgs true).slotOf i)).WordOk := by
  interval_cases i
  · exact ⟨false, false, rfl⟩
  · show (lo32 (packSem 0 1)).toNat ≤ (hi32 (packSem 0 1)).toNat
    decide

/-- The event was pulsed during the wait and the semaphore has no token: giving the event back
    signals it. -/
theorem pulsed_event_resignaled :
    (∀ i < 2, ((pairRegion 1 0).slots ((pairArgs true).slotOf i)).WordOk) ∧
      ¬ AllOrNothing (pairArgs true) (fun _ => 0) (pairRegion 1 0) := by
  refine ⟨pairRegion_wordOk 1, fun h => ?_⟩
  have hback := h.givesBack (pairArgs_distinct true) (pairRegion_wordOk 1)
  exact absurd hback (by unfold GivesBack; decide)

end AllOrNothing

end Ntsync
