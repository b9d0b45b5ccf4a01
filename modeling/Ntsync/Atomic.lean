import Mathlib
import Ntsync.Linearize
import Ntsync.Mutex
import Ntsync.Semaphore

namespace Ntsync

open Words Lts Linear

/-!
# Semaphores, mutexes and auto-reset events are linearizable, waits included

An operation on an object takes effect at its last access to the object's word, a wait that acquires
the object at its swap, and so does a rollback.  The order of these accesses explains what everybody
was told, whatever else goes on: other objects, deaths, sweeps, waits for many objects at once.

* `semSpec`, `mutexSpec`, `autoSpec` — what the objects are for: a count of tokens, a recursive lock
  with an abandoned flag, a bit that the next waiter clears;
* `Atomic` — the code's passes over a word implement such a specification;
* `wordHistory` — what the callers of a run see of an object;
* `AtomicInv` — the points of the operations stay a linearization, for every `Atomic` object;
* `sems_linearizable`, `mutexes_linearizable`, `autos_linearizable`.
-/

variable {T : Type}

/-! ### Specifications -/

/-- What is done to an object in one atomic step: an operation, or an acquisition by a wait, or the
    rollback of one (which had said `ownerDead`). -/
inductive WordOp where
  | op (o : Op)
  | acquire (owner : U32)
  | rollback (owner : U32) (ownerDead : Bool)
  deriving DecidableEq

inductive WordRet where
  | op (r : OpRet)
  | took (ownerDead : Bool)
  | busy
  | gaveBack
  deriving DecidableEq

structure SemState where
  count : U32
  max : U32
  deriving DecidableEq

/-- A semaphore counts tokens up to its maximum.  A rollback does not look at the maximum. -/
def semSpec (x : SemState) : WordOp → SemState × WordRet
  | .op (.semRelease n) =>
    if x.count.toNat + n.toNat ≤ x.max.toNat then
      ({ x with count := x.count + n }, .op (.ok (.num x.count)))
    else (x, .op (.error .overflow))
  | .op .readSem => (x, .op (.ok (.sem x.count x.max)))
  | .op _ => (x, .op (.error .invalid))
  | .acquire _ => if x.count = 0 then (x, .busy) else ({ x with count := x.count - 1 }, .took false)
  | .rollback _ _ => ({ x with count := x.count + 1 }, .gaveBack)

structure MutexState where
  owner : U32
  count : BitVec 31
  abandoned : Bool
  deriving DecidableEq

/-- A mutex is free or held by an owner, as often as its count says.  Killing the owner leaves it
    free and abandoned, and the next owner is told. -/
def mutexSpec (x : MutexState) : WordOp → MutexState × WordRet
  | .op (.mutexUnlock z) =>
    if z = 0 then (x, .op (.error .invalid))
    else if x.owner ≠ z then (x, .op (.error .perm))
    else ({ x with owner := if x.count = 1 then 0 else z, count := x.count - 1 },
      .op (.ok (.num (x.count.setWidth 32))))
  | .op (.mutexKill z) =>
    if z = 0 then (x, .op (.error .invalid))
    else if x.owner ≠ z then (x, .op (.error .perm))
    else (⟨0, 0, true⟩, .op (.ok .unit))
  | .op .readMutex => (x, .op (.ok (.mutex (x.count.setWidth 32) x.owner x.abandoned)))
  | .op _ => (x, .op (.error .invalid))
  | .acquire z =>
    if x.count = BitVec.allOnes 31 then (x, .busy)
    else if x.owner = 0 then (⟨z, x.count + 1, false⟩, .took x.abandoned)
    else if x.owner = z then ({ x with count := x.count + 1 }, .took false)
    else (x, .busy)
  | .rollback z ownerDead =>
    if x.count = 1 then (⟨0, 0, ownerDead⟩, .gaveBack)
    else (⟨z, x.count - 1, x.abandoned⟩, .gaveBack)

/-- An auto-reset event is a bit that a set raises and that a reset or the next acquisition clears.
    -/
def autoSpec (b : Bool) : WordOp → Bool × WordRet
  | .op .eventSet => (true, .op (prevState b))
  | .op .eventReset => (false, .op (prevState b))
  | .op .readEvent => (b, .op (.ok (.event false b)))
  | .op _ => (b, .op (.error .invalid))
  | .acquire _ => (false, if b then .took false else .busy)
  | .rollback _ _ => (true, .gaveBack)

/-! ### The code's words against the specifications -/

/-- The code's passes over the word of an object of type `ty` are the steps of `spec`, the word `enc
    k` standing for the state `k`. -/
structure Atomic {κ : Type} (ty : ObjType) (enc : κ → U64) (spec : κ → WordOp → κ × WordRet) :
    Prop where
  bad : ∀ k o, o.valid = false ∨ o.objType ≠ ty → spec k (.op o) = (k, .op (.error .invalid))
  ret : ∀ k o r wake, o.valid = true → o.objType = ty → o.pass (enc k) = .ret (r, wake) →
    spec k (.op o) = (k, .op r)
  swap : ∀ k o new r wake, o.valid = true → o.objType = ty →
    o.pass (enc k) = .cas new (r, wake) → ∃ k', enc k' = new ∧ spec k (.op o) = (k', .op r)
  acquire : ∀ k (s : Slot) z seq od new, s.objType = ty → s.w0 = enc k →
    AcqTakes s z seq od (some new) → ∃ k', enc k' = new ∧ spec k (.acquire z) = (k', .took od)
  rollback : ∀ k (s : Slot) z od new, s.objType = ty → s.w0 = enc k →
    UndoGives s z od (some new) → ∃ k', enc k' = new ∧ spec k (.rollback z od) = (k', .gaveBack)

def SemState.word (x : SemState) : U64 := packSem x.count x.max

/-- **The semaphore operations are atomic** at their swaps. -/
theorem semAtomic : Atomic .sem SemState.word semSpec where
  bad k o h := by
    cases o with
    | semRelease | readSem => rcases h with h | h <;> first | exact absurd rfl h | cases h
    | _ => rfl
  ret k o r wake _ hty h := by
    cases o with
    | semRelease n =>
      simp only [Op.pass, semRelease, SemState.word, lo32_packSem, hi32_packSem] at h
      split at h
      · cases h
      · rename_i hno
        cases h
        -- the code tests the sum for a wrap before it compares it with the maximum
        have hfits : ¬ k.count.toNat + n.toNat ≤ k.max.toNat := by
          intro hle
          have hlt := k.max.isLt
          have hsum : (k.count + n).toNat = k.count.toNat + n.toNat := by
            rw [BitVec.toNat_add, Nat.mod_eq_of_lt (by omega)]
          exact hno ⟨by omega, by omega⟩
        exact if_neg hfits
    | readSem =>
      simp only [Op.pass, SemState.word, lo32_packSem, hi32_packSem] at h
      cases h
      rfl
    | _ => cases hty
  swap k o new r wake _ hty h := by
    cases o with
    | semRelease n =>
      simp only [Op.pass, semRelease, SemState.word, lo32_packSem, hi32_packSem] at h
      split at h
      · rename_i hfits
        cases h
        -- the sum does not wrap, so it is the sum of the counts
        have hsum : (k.count + n).toNat = k.count.toNat + n.toNat := by
          rw [BitVec.toNat_add, Nat.mod_eq_of_lt hfits.1]
        exact ⟨⟨k.count + n, k.max⟩, rfl, if_pos (by omega)⟩
      · cases h
    | readSem => cases h
    | _ => cases hty
  acquire k s z seq od new hty hw h := by
    simp only [AcqTakes, hty, hw, SemState.word, lo32_packSem, hi32_packSem] at h
    obtain ⟨hne, rfl, hnew⟩ := h
    cases hnew
    exact ⟨⟨k.count - 1, k.max⟩, rfl, if_neg hne⟩
  rollback k s z od new hty hw h := by
    simp only [UndoGives, hty, hw, SemState.word, lo32_packSem, hi32_packSem] at h
    cases h
    exact ⟨⟨k.count + 1, k.max⟩, rfl, rfl⟩

/-! Mutex words, whose count has 31 bits. -/

def MutexState.word (x : MutexState) : U64 := packMutex x.owner (x.count.setWidth 32) x.abandoned

/-- The recursion count fits the half word. -/
theorem MutexState.toNat_count (x : MutexState) :
    (x.count.setWidth 32 : U32).toNat = x.count.toNat := by
  rw [BitVec.toNat_setWidth]
  exact Nat.mod_eq_of_lt (by omega)

/-- A mutex word stores the low 31 bits of a count. -/
theorem MutexState.word_of_count (z c : U32) (d : Bool) :
    (MutexState.mk z (c.setWidth 31) d).word = packMutex z c d := by
  have hmask : ((c.setWidth 31).setWidth 32 : U32) &&& maxRecursion = c &&& maxRecursion := by
    apply BitVec.eq_of_toNat_eq
    have hmax : maxRecursion.toNat = 2 ^ 31 - 1 := rfl
    rw [BitVec.toNat_and, BitVec.toNat_and, hmax, Nat.and_two_pow_sub_one_eq_mod,
      Nat.and_two_pow_sub_one_eq_mod, BitVec.toNat_setWidth, BitVec.toNat_setWidth]
    omega
  show packMutex z ((c.setWidth 31).setWidth 32) d = packMutex z c d
  rw [packMutex_eq, packMutex_eq, hmask]

@[simp] theorem MutexState.mutexCount_word (x : MutexState) :
    mutexCount x.word = x.count.setWidth 32 := by
  apply BitVec.eq_of_toNat_eq
  have hmax : maxRecursion.toNat = 2 ^ 31 - 1 := rfl
  exact toNat_mutexCount_packMutex (by rw [x.toNat_count]; omega)

@[simp] theorem MutexState.lo32_word (x : MutexState) : lo32 x.word = x.owner := lo32_packMutex _ _ _

@[simp] theorem MutexState.mutexDead_word (x : MutexState) : mutexDead x.word = x.abandoned :=
  mutexDead_packMutex _ _ _

/-- One more recursion in the half word is one more in the state. -/
theorem MutexState.count_add (x : MutexState) :
    (x.count.setWidth 32 + 1 : U32).setWidth 31 = x.count + 1 := by
  apply BitVec.eq_of_toNat_eq
  rw [BitVec.toNat_setWidth, BitVec.toNat_add, BitVec.toNat_add, x.toNat_count]
  have h1 : (1 : U32).toNat = 1 := rfl
  have h1' : (1 : BitVec 31).toNat = 1 := rfl
  omega

/-- One less recursion in the half word is one less in the state. -/
theorem MutexState.count_sub (x : MutexState) :
    (x.count.setWidth 32 - 1 : U32).setWidth 31 = x.count - 1 := by
  apply BitVec.eq_of_toNat_eq
  rw [BitVec.toNat_setWidth, BitVec.toNat_sub, BitVec.toNat_sub, x.toNat_count]
  have h1 : (1 : U32).toNat = 1 := rfl
  have h1' : (1 : BitVec 31).toNat = 1 := rfl
  omega

/-- The last recursion in the half word is the last in the state. -/
theorem MutexState.count_eq_one (x : MutexState) :
    (x.count.setWidth 32 : U32) = 1 ↔ x.count = 1 := by
  have h1 : (1 : U32).toNat = 1 := rfl
  have h1' : (1 : BitVec 31).toNat = 1 := rfl
  rw [← BitVec.toNat_inj, ← BitVec.toNat_inj, x.toNat_count, h1, h1']

/-- The half word is full when the state is. -/
theorem MutexState.count_full (x : MutexState) :
    maxRecursion.toNat ≤ (x.count.setWidth 32 : U32).toNat ↔ x.count = BitVec.allOnes 31 := by
  have hmax : maxRecursion.toNat = 2 ^ 31 - 1 := rfl
  rw [x.toNat_count, hmax, ← BitVec.toNat_inj, BitVec.toNat_allOnes]
  omega

/-- **The mutex operations are atomic** at their swaps. -/
theorem mutexAtomic : Atomic .mutex MutexState.word mutexSpec where
  bad k o h := by
    have hz : ∀ z : U32, decide (z ≠ 0) = false → z = 0 := fun z hz => by simpa using hz
    cases o with
    | mutexUnlock z | mutexKill z =>
      rcases h with h | h
      · exact if_pos (hz z h)
      · exact absurd rfl h
    | readMutex => rcases h with h | h <;> first | exact absurd rfl h | cases h
    | _ => rfl
  ret k o r wake hv hty h := by
    have hz : ∀ z : U32, decide (z ≠ 0) = true → ¬ z = 0 := fun z hz => by simpa using hz
    cases o with
    | mutexUnlock z =>
      simp only [Op.pass, mutexUnlock, MutexState.lo32_word] at h
      split at h
      · rename_i ho
        cases h
        exact (if_neg (hz z hv)).trans (if_pos ho)
      · cases h
    | mutexKill z =>
      simp only [Op.pass, mutexKill, MutexState.lo32_word] at h
      split at h
      · rename_i ho
        cases h
        exact (if_neg (hz z hv)).trans (if_pos ho)
      · cases h
    | readMutex =>
      simp only [Op.pass, MutexState.lo32_word, MutexState.mutexCount_word,
        MutexState.mutexDead_word] at h
      cases h
      rfl
    | _ => cases hty
  swap k o new r wake hv hty h := by
    have hz : ∀ z : U32, decide (z ≠ 0) = true → ¬ z = 0 := fun z hz => by simpa using hz
    cases o with
    | mutexUnlock z =>
      simp only [Op.pass, mutexUnlock, MutexState.lo32_word, MutexState.mutexCount_word,
        MutexState.mutexDead_word, MutexState.count_eq_one] at h
      split at h
      · cases h
      · rename_i ho
        cases h
        -- the last unlock clears the owner, every other one keeps it
        refine ⟨⟨if k.count = 1 then 0 else z, k.count - 1, k.abandoned⟩, ?_, ?_⟩
        · rw [← k.count_sub, MutexState.word_of_count]
          simp
        · exact (if_neg (hz z hv)).trans (if_neg ho)
    | mutexKill z =>
      simp only [Op.pass, mutexKill, MutexState.lo32_word] at h
      split at h
      · cases h
      · rename_i ho
        cases h
        -- whatever the count was, a kill leaves the abandoned word
        exact ⟨⟨0, 0, true⟩, rfl, (if_neg (hz z hv)).trans (if_neg ho)⟩
    | readMutex => cases h
    | _ => cases hty
  acquire k s z seq od new hty hw h := by
    simp only [AcqTakes, hty, hw, acquireMutex, MutexState.lo32_word, MutexState.mutexCount_word,
      MutexState.mutexDead_word, MutexState.count_full] at h
    obtain ⟨_, hnew, h⟩ := h
    cases hnew
    split at h
    · cases h
    · rename_i hfull
      split at h
      · rename_i hfree
        cases h
        -- a free mutex, perhaps abandoned: the flag goes with the acquire
        refine ⟨⟨z, k.count + 1, false⟩, ?_, ?_⟩
        · rw [← k.count_add, MutexState.word_of_count]
        · exact (if_neg hfull).trans (if_pos hfree)
      · rename_i hheld
        split at h
        · rename_i hown
          cases h
          -- the owner's own mutex: the flag stays as it was
          refine ⟨⟨z, k.count + 1, k.abandoned⟩, ?_, ?_⟩
          · rw [← k.count_add, MutexState.word_of_count]
          · subst hown
            exact (if_neg hfull).trans ((if_neg hheld).trans (if_pos rfl))
        · cases h
  rollback k s z od new hty hw h := by
    simp only [UndoGives, hty, hw, rollbackMutex, MutexState.mutexCount_word,
      MutexState.mutexDead_word, MutexState.count_eq_one] at h
    obtain ⟨_, hnew, h⟩ := h
    cases hnew
    split at h
    · rename_i hone
      cases h
      -- the only reference is given back, and with it the flag of the acquire
      exact ⟨⟨0, 0, od⟩, rfl, if_pos hone⟩
    · rename_i hone
      cases h
      refine ⟨⟨z, k.count - 1, k.abandoned⟩, ?_, if_neg hone⟩
      rw [← k.count_sub, MutexState.word_of_count]

/-- The swaps on an auto-reset event.  A wait that finds a pulse does not swap. -/
theorem autoAtomic : Atomic .event (fun b => packEvent b false) autoSpec where
  bad k o h := by
    cases o with
    | eventSet | eventReset | readEvent =>
      rcases h with h | h <;> first | exact absurd rfl h | cases h
    | _ => rfl
  ret k o r wake _ hty h := by
    cases o with
    | eventSet | eventReset | readEvent => cases k <;> cases h <;> rfl
    | _ => cases hty
  swap k o new r wake _ hty h := by
    cases o with
    | eventSet =>
      cases k <;> cases h
      exact ⟨true, rfl, rfl⟩
    | eventReset =>
      cases k <;> cases h
      exact ⟨false, rfl, rfl⟩
    | readEvent => cases h
    | _ => cases hty
  acquire k s z seq od new hty hw h := by
    simp only [AcqTakes, hty, hw] at h
    obtain ⟨rfl, ⟨hnone, _⟩ | ⟨hnew, hsig⟩⟩ := h
    · cases hnone
    · cases hnew
      cases k with
      | false => exact absurd rfl hsig
      | true => exact ⟨false, rfl, rfl⟩
  rollback k s z od new hty hw h := by
    simp only [UndoGives, hty, hw] at h
    rcases h with hnone | ⟨hnew, _⟩
    · cases hnone
    · cases hnew
      exact ⟨true, (packEvent_or k false).symm, rfl⟩

/-! ### What callers see -/

/-- The operation on `hd` that a thread is in. -/
def Pc.opOn (hd : U32) : Pc → Option (Op × OpPc)
  | .op h o p => if h = hd then some (o, p) else none
  | _ => none

/-- What an operation on `hd` has just returned. -/
def Pc.returned (hd : U32) : Pc → Option WordRet
  | .done (.op h _) (.op r) => if h = hd then some (.op r) else none
  | _ => none

/-- What the acquisition that is being rolled back had said. -/
def Pc.undoes (pc : Pc) : Bool :=
  match pc.sat? with
  | some (_, .undo ((_, b) :: _) _) => b
  | _ => false

/-- What a wait does to slot `i` by a swap. -/
def Instr.byWait (i : Nat) (pc : Pc) : Instr → Option (WordOp × WordRet)
  | .word _ j (.acquire z od) _ => if j = i then some (.acquire z, .took od) else none
  | .word _ j (.rollback z) _ => if j = i then some (.rollback z pc.undoes, .gaveBack) else none
  | _ => none

/-- The result an operation comes to by the step from `pc` to `pc'`. -/
def Pc.decides (hd : U32) (pc pc' : Pc) : Option (Op × WordRet) :=
  match pc.opOn hd, pc.result, pc'.result with
  | some (o, _), none, some r => some (o, .op r)
  | _, _, _ => none

section History

variable [DecidableEq T]

/-- What the callers see of a step after the history `h`.  A call is named by its thread and the
    moment it began, and a swap of a wait counts as a call that returns at once. -/
def wordEvents (hd : U32) (h : List (Trans (Sys T) (Label T))) (x : Trans (Sys T) (Label T)) :
    List (Ev (T × Nat) WordOp WordRet) :=
  match x.label with
  | .call t (.op h' o) =>
    if h' = hd then
      match (x.after.threads t).pc.returned hd with
      | some r => [.ret (t, h.length) r, .call (t, h.length) (.op o)]
      | none => [.call (t, h.length) (.op o)]
    else []
  | .instr t _ ins =>
    match ins.byWait (handleIndex hd) (x.before.threads t).pc with
    | some (op, r) => [.ret (t, h.length) r, .call (t, h.length) op]
    | none =>
      match (x.after.threads t).pc.returned hd with
      | some r => [.ret (t, lastCall t h) r]
      | none => []
  | _ => []

/-- The operations on `hd` and the acquisitions by waits, as their callers see them. -/
def wordHistory (hd : U32) : List (Trans (Sys T) (Label T)) → List (Ev (T × Nat) WordOp WordRet)
  | [] => []
  | x :: h => wordEvents hd h x ++ wordHistory hd h

/-- The same with the linearization points. -/
def wordMarksOf (hd : U32) (h : List (Trans (Sys T) (Label T))) (x : Trans (Sys T) (Label T)) :
    List (Mark (T × Nat) WordOp WordRet) :=
  match x.label with
  | .call t (.op h' o) =>
    if h' = hd then
      match (x.after.threads t).pc.returned hd with
      | some r => [.ret (t, h.length) r, .point (t, h.length) (.op o) r, .call (t, h.length) (.op o)]
      | none => [.call (t, h.length) (.op o)]
    else []
  | .instr t _ ins =>
    match ins.byWait (handleIndex hd) (x.before.threads t).pc with
    | some (op, r) => [.ret (t, h.length) r, .point (t, h.length) op r, .call (t, h.length) op]
    | none =>
      (match (x.after.threads t).pc.returned hd with
        | some r => [.ret (t, lastCall t h) r]
        | none => []) ++
      match (x.before.threads t).pc.decides hd (x.after.threads t).pc with
      | some (o, r) => [.point (t, lastCall t h) (.op o) r]
      | none => []
  | _ => []

def wordMarks (hd : U32) : List (Trans (Sys T) (Label T)) → List (Mark (T × Nat) WordOp WordRet)
  | [] => []
  | x :: h => wordMarksOf hd h x ++ wordMarks hd h

/-- The events of a step are its calls and returns. -/
theorem wordMarksOf_ev (hd : U32) (h : List (Trans (Sys T) (Label T)))
    (x : Trans (Sys T) (Label T)) :
    (wordMarksOf hd h x).filterMap Mark.ev? = wordEvents hd h x := by
  unfold wordMarksOf wordEvents
  split
  · split
    · split <;> rfl
    · rfl
  · split
    · rfl
    · rw [List.filterMap_append]
      split <;> split <;> rfl
  · rfl

/-- Without the points at which the word changes, the marks are the history. -/
theorem wordMarks_ev (hd : U32) (h : List (Trans (Sys T) (Label T))) :
    (wordMarks hd h).filterMap Mark.ev? = wordHistory hd h := by
  induction h with
  | nil => rfl
  | cons x h ih =>
    show (wordMarksOf hd h x ++ wordMarks hd h).filterMap Mark.ev? =
      wordEvents hd h x ++ wordHistory hd h
    rw [List.filterMap_append, wordMarksOf_ev, ih]

end History

/-! ### Steps -/

section Steps

variable {κ : Type} {ty : ObjType} {enc : κ → U64} {spec : κ → WordOp → κ × WordRet}
  {o : Oracle} {sh : Shared T} {pid : U32} {ins : Instr} {pc pc' : Pc} {hd : U32} {k : κ}

/-- What a step of an undecided operation does: it leaves the word alone and stays undecided, or the
    specification takes its step. -/
def TakesEffect (spec : κ → WordOp → κ × WordRet) (enc : κ → U64) (k : κ) (hd : U32) (op : Op)
    (ins : Instr) (pc' : Pc) : Prop :=
  (∃ p', pc' = .op hd op p' ∧ p'.result = none ∧
    ins.wordAfter (handleIndex hd) (enc k) = enc k) ∨
  ∃ k' r, spec k (.op op) = (k', .op r) ∧ ins.wordAfter (handleIndex hd) (enc k) = enc k' ∧
    (pc' = .done (.op hd op) (.op r) ∨ ∃ p', pc' = .op hd op p' ∧ p'.result = some r)

/-- On an open object the look-up succeeds, unless the operation is for another type. -/
theorem Atomic.settles (hA : Atomic ty enc spec) {op : Op} {p : OpPc}
    (ht : opTick sh hd op p = some (ins, pc'))
    (hs : Holds sh.region (handleIndex hd) (handleGen hd) ty)
    (hw : (sh.region.slots (handleIndex hd)).w0 = enc k) (hv : op.valid = true)
    (hfound : p.looking = false → op.objType = ty) (hp : p.result = none) :
    TakesEffect spec enc k hd op ins pc' := by
  cases p with
  | state =>
    rw [opTick, if_pos hs.used] at ht
    cases ht
    exact .inl ⟨_, rfl, rfl, rfl⟩
  | gen =>
    rw [opTick, if_pos hs.gen] at ht
    cases ht
    exact .inl ⟨_, rfl, rfl, rfl⟩
  | typ =>
    simp only [opTick, hs.typ] at ht
    split at ht
    · cases ht
      exact .inl ⟨_, rfl, rfl, rfl⟩
    · rename_i hne
      cases ht
      exact .inr ⟨k, _, hA.bad k op (.inr (Ne.symm hne)), rfl, .inl rfl⟩
  -- the access that decides
  | loop c =>
    have hty : op.objType = ty := hfound rfl
    cases opTick_inv ht with
    | bad hp => cases hp
    | retry => exact .inl ⟨_, rfl, rfl, rfl⟩
    | ret hb =>
      rw [hw] at hb
      exact .inr ⟨k, _, hA.ret k op _ _ hv hty hb, rfl, .inl rfl⟩
    | swap hb =>
      rw [hw] at hb
      obtain ⟨k', rfl, hspec⟩ := hA.swap k op _ _ _ hv hty hb
      exact .inr ⟨k', _, hspec, if_pos rfl, .inr ⟨_, rfl, rfl⟩⟩
    | swapQuiet hb =>
      rw [hw] at hb
      obtain ⟨k', rfl, hspec⟩ := hA.swap k op _ _ _ hv hty hb
      exact .inr ⟨k', _, hspec, if_pos rfl, .inl rfl⟩
  | peek | lockWake | walk | unlock => cases hp

/-- A decided operation leaves the word alone and returns what was decided. -/
theorem OpGo.settled {op : Op} {p : OpPc} {r : OpRet} (hg : OpGo sh hd op p ins pc')
    (hp : p.result = some r) :
    (∀ i w, ins.wordAfter i w = w) ∧
      (pc' = .done (.op hd op) (.op r) ∨ ∃ p', pc' = .op hd op p' ∧ p'.result = some r) := by
  have hwalk : ins.walks = true → ∀ i w, ins.wordAfter i w = w := by
    intro h i w
    cases ins <;> first | rfl | cases h
  cases hg with
  | walk hw | walked hw => exact ⟨hwalk (Walk.step_walks hw), .inr ⟨_, rfl, hp⟩⟩
  | peek | lock => exact ⟨fun _ _ => rfl, .inr ⟨_, rfl, hp⟩⟩
  | peekNone | unlock =>
    cases hp
    exact ⟨fun _ _ => rfl, .inl rfl⟩
  | @bad p hl => cases p <;> first | (cases hp; done) | cases hl
  | _ => cases hp

/-- A wait's swap is one of `try_satisfy`'s. -/
theorem SatStep.byWait {r : Region} {a : WaitArgs} {seqs : Nat → U64} {q : Sat}
    {w : Option SatWrite} {out : Out Sat (Option (Nat × Bool))} {h : U32} {i : Nat} {tag : Tag}
    {new : U64} (hst : SatStep r a seqs q w out) (hins : satInstr a w = .word h i tag new)
    (hfit : ∀ ty, (r.slots i).objType = ty → q.Fits a i ty) :
    (∃ seq od, tag = .acquire a.owner od ∧ AcqTakes (r.slots i) a.owner seq od (some new)) ∨
    ∃ pos b rest u, q = .undo ((pos, b) :: rest) u ∧ tag = .rollback a.owner ∧
      UndoGives (r.slots i) a.owner b (some new) := by
  have htake : ∀ {pos : Nat} {x : Acq} {v : Option U64} {od : Bool},
      (a.slotOf pos = i → x.fits (r.slots i).objType) →
      x.step (r.slots (a.slotOf pos)) a.owner (seqs pos) = (v, .done (some od)) →
      satInstr a (v.map (.acquire pos od)) = .word h i tag new →
      ∃ seq od, tag = .acquire a.owner od ∧ AcqTakes (r.slots i) a.owner seq od (some new) := by
    intro pos x v od hx hs hins
    cases v <;> cases hins
    exact ⟨_, _, rfl, Acq.step_take (hx rfl) hs⟩
  have hgive : ∀ {pos : Nat} {u : Undo} {v : Option U64} {b : Bool},
      (a.slotOf pos = i → u.fits (r.slots i).objType) →
      u.step (r.slots (a.slotOf pos)) a.owner b = (v, .done ()) →
      satInstr a (v.map (.rollback pos)) = .word h i tag new →
      tag = .rollback a.owner ∧ UndoGives (r.slots i) a.owner b (some new) := by
    intro pos u v b hu hs hins
    cases v <;> cases hins
    exact ⟨rfl, Undo.step_done (hu rfl) hs⟩
  have hfits := hfit _ rfl
  cases hst with
  | anyWin hs | allTake hs _ | allWin hs _ => exact .inl (htake hfits hs hins)
  | undoLast hs | undoNext hs _ => exact .inr ⟨_, _, _, _, rfl, hgive hfits hs hins⟩
  | _ => cases hins

end Steps

/-! ### The invariant -/

section Invariant

variable [DecidableEq T] {κ : Type} {ty : ObjType} {enc : κ → U64}
  {spec : κ → WordOp → κ × WordRet} {hd : U32} {k k' k₀ : κ} {s s' : Sys T} {act : Action T}
  {l : Label T} {h : List (Trans (Sys T) (Label T))} {t : T} {o : Oracle} {ins : Instr} {pc' : Pc}

/-- The operation on `hd` that a thread is in, with the moment it began and its result, once
    decided. -/
def openCall (hd : U32) (h : List (Trans (Sys T) (Label T))) (s : Sys T) (t : T) :
    Option (Nat × WordOp × Option WordRet) :=
  ((s.threads t).pc.opOn hd).map fun x => (lastCall t h, .op x.1, x.2.result.map .op)

/-- The object behind `hd` is open, and its word is what the specification has come to. -/
structure AtomicInv (enc : κ → U64) (spec : κ → WordOp → κ × WordRet) (ty : ObjType) (hd : U32)
    (k₀ : κ) (h : List (Trans (Sys T) (Label T))) (s : Sys T) : Prop where
  isOpen : OpenInv (handleIndex hd) (handleGen hd) ty s
  shape : ShapeInv s
  books : ∃ k, (s.region.slots (handleIndex hd)).w0 = enc k ∧
    Books spec k₀ k h.length (openCall hd h s) (wordMarks hd h)

/-- A thread in no operation on the object has no call open. -/
theorem openCall_of_none (h₀ : (s.threads t).pc.opOn hd = none) : openCall hd h s t = none := by
  rw [openCall, h₀]
  rfl

omit [DecidableEq T] in
/-- A thread outside all calls is in no operation. -/
theorem Pc.opOn_of_outside {pc : Pc} (h : pc.outside = true) : pc.opOn hd = none := by
  rcases Pc.outside_cases h with rfl | ⟨_, _, rfl⟩ <;> rfl

/-- The open calls of the others do not change. -/
theorem openCall_other {x : Trans (Sys T) (Label T)} {u : T} (hl : lastCall u (x :: h) = lastCall u h)
    (hpc : (s'.threads u).pc = (s.threads u).pc) : openCall hd (x :: h) s' u = openCall hd h s u := by
  rw [openCall, openCall, hl, hpc]

omit [DecidableEq T] in
/-- Another call than an operation on `hd` begins no operation on it. -/
theorem Pc.start_opOn {c : Call} (hc : ∀ op, c ≠ .op hd op) : (Pc.start c).opOn hd = none := by
  cases c with
  | op h' op =>
    simp only [Pc.start]
    split
    · exact if_neg fun he => hc op (by rw [he])
    · rfl
  | pulse | sweepDead => rfl
  | _ =>
    simp only [Pc.start]
    split <;> rfl

/-- A call begins. -/
theorem Atomic.call (hA : Atomic ty enc spec) (c : Call) (hout : (s.threads t).pc.outside = true)
    (hb : Books spec k₀ k h.length (openCall hd h s) (wordMarks hd h)) :
    Books spec k₀ k (h.length + 1) (openCall hd (⟨s, .call t c, s.entered t c⟩ :: h) (s.entered t c))
      (wordMarks hd (⟨s, .call t c, s.entered t c⟩ :: h)) := by
  set x : Trans (Sys T) (Label T) := ⟨s, .call t c, s.entered t c⟩ with hx
  -- the calls of the other threads stay as they were
  have hothers : ∀ u, u ≠ t → openCall hd (x :: h) (s.entered t c) u = openCall hd h s u := by
    intro u hut
    refine openCall_other (if_neg (Ne.symm hut)) ?_
    rw [Sys.entered_pc, if_neg hut]
  have hstart : ((s.entered t c).threads t).pc = Pc.start c := by rw [Sys.entered_pc, if_pos rfl]
  have hbefore : openCall hd h s t = none := openCall_of_none (Pc.opOn_of_outside hout)
  show Books spec k₀ k (h.length + 1) (openCall hd (x :: h) (s.entered t c))
    (wordMarksOf hd h x ++ wordMarks hd h)
  by_cases hc : ∃ op, c = .op hd op
  · obtain ⟨op, rfl⟩ := hc
    have hlast : lastCall t (x :: h) = h.length := if_pos rfl
    by_cases hv : op.valid = true
    · have hpc : Pc.start (.op hd op) = .op hd op .state := if_pos hv
      have hmarks : wordMarksOf hd h x = [.call (t, h.length) (.op op)] := by
        simp [wordMarksOf, hx, hpc, Pc.returned]
      rw [hmarks]
      refine hb.call ?_ hothers
      rw [openCall, hstart, hpc, hlast]
      simp [Pc.opOn, OpPc.result]
    · -- rejected at once
      have hpc : Pc.start (.op hd op) = .done (.op hd op) (.op (.error .invalid)) := if_neg hv
      have hmarks : wordMarksOf hd h x = [.ret (t, h.length) (.op (.error .invalid)),
          .point (t, h.length) (.op op) (.op (.error .invalid)),
          .call (t, h.length) (.op op)] := by
        simp [wordMarksOf, hx, hpc, Pc.returned]
      rw [hmarks]
      refine hb.once hbefore (hA.bad k op (.inl (by simpa using hv))) fun u y hy => ?_
      by_cases hut : u = t
      · rw [hut, openCall, hstart, hpc] at hy
        cases hy
      · rw [← hothers u hut]
        exact hy
  · -- no mark for calls on other handles
    have hnone : ∀ op, c ≠ .op hd op := fun op he => hc ⟨op, he⟩
    have hmarks : wordMarksOf hd h x = [] := by
      cases c with
      | op h' op =>
        have hne : ¬ h' = hd := fun he => hnone op (by rw [he])
        simp [wordMarksOf, hx, hne]
      | _ => rfl
    rw [hmarks]
    refine hb.later (Nat.le_succ _) fun u y hy => ?_
    by_cases hut : u = t
    · rw [hut, openCall_of_none (by rw [hstart]; exact Pc.start_opOn hnone)] at hy
      cases hy
    · rw [← hothers u hut]
      exact hy

omit [DecidableEq T] in
/-- The program counter of an operation, from its parts. -/
theorem Pc.eq_of_opOn {pc : Pc} {x : Op × OpPc} (h : pc.opOn hd = some x) : pc = .op hd x.1 x.2 := by
  cases pc with
  | op h' op p =>
    simp only [Pc.opOn] at h
    split at h
    · rename_i he
      cases h
      rw [he]
    · cases h
  | _ => cases h

omit [DecidableEq T] in
/-- Only an attempt acts for a wait. -/
theorem Instr.byWait_none {i : Nat} {pc : Pc} (h : ins.attempt = false) : ins.byWait i pc = none := by
  cases ins with
  | word _ _ tag =>
    cases tag with
    | acquire | rollback => cases h
    | _ => rfl
  | _ => rfl

omit [DecidableEq T] in
/-- A call that is no operation on `hd` neither becomes nor returns one. -/
theorem PcGo.opOn {sh : Shared T} {pid : U32} {pc : Pc} (hg : PcGo sh pid o pc ins pc')
    (h : pc.opOn hd = none) : pc'.opOn hd = none ∧ pc'.returned hd = none := by
  cases hg with
  | @op h' op p _ _ hg =>
    have hne : ¬ h' = hd := by
      rintro rfl
      simp [Pc.opOn] at h
    cases hg <;> exact ⟨by simp [Pc.opOn, hne], by simp [Pc.returned, hne]⟩
  | wait hg =>
    rcases hg.args with ha | ha
    · subst ha
      exact ⟨rfl, rfl⟩
    · unfold Pc.args? at ha
      split at ha
      · exact ⟨rfl, rfl⟩
      · exact ⟨rfl, rfl⟩
      · cases ha
  | pulse hg => cases hg <;> exact ⟨rfl, rfl⟩
  | create hg => cases hg <;> exact ⟨rfl, rfl⟩
  | close hg => cases hg <;> exact ⟨rfl, rfl⟩
  | hold hg => cases hg <;> exact ⟨rfl, rfl⟩
  | sweepDead hg => cases hg <;> exact ⟨rfl, rfl⟩

/-- The step is the store of a pulse to the word of slot `i`. -/
def Label.overwrites (i : Nat) : Label T → Bool
  | .instr _ _ (.word _ j .pulse _) => decide (j = i)
  | _ => false

/-- What the books have to say of the object after a step of thread `t`. -/
def Atomic.After (enc : κ → U64) (spec : κ → WordOp → κ × WordRet) (hd : U32) (k₀ : κ)
    (h : List (Trans (Sys T) (Label T))) (s : Sys T) (t : T) (ins : Instr) (pc' : Pc) : Prop :=
  ∃ k', ins.wordAfter (handleIndex hd) (s.region.slots (handleIndex hd)).w0 = enc k' ∧
    Books spec k₀ k' (h.length + 1)
      (openCall hd (⟨s, .instr t (s.threads t).pid ins, s.after t ins pc'⟩ :: h) (s.after t ins pc'))
      (wordMarks hd (⟨s, .instr t (s.threads t).pid ins, s.after t ins pc'⟩ :: h))

/-- A step of an operation on the object. -/
theorem Atomic.own (hA : Atomic ty enc spec) (hi : AtomicInv enc spec ty hd k₀ h s) {op : Op}
    {p : OpPc} (hpc : (s.threads t).pc = .op hd op p)
    (ht : tick o s.toShared (s.threads t).pid (s.threads t).calls (s.threads t).pc =
      some (ins, pc')) : Atomic.After enc spec hd k₀ h s t ins pc' := by
  obtain ⟨k, hw, hb⟩ := hi.books
  unfold Atomic.After
  set x : Trans (Sys T) (Label T) := ⟨s, .instr t (s.threads t).pid ins, s.after t ins pc'⟩ with hx
  have hothers : ∀ u, u ≠ t →
      openCall hd (x :: h) (s.after t ins pc') u = openCall hd h s u := fun u hut =>
    openCall_other rfl (by rw [Sys.after_pc, if_neg hut])
  have hopen : openCall hd h s t = some (lastCall t h, .op op, p.result.map .op) := by
    simp [openCall, hpc, Pc.opOn]
  have hopen' : openCall hd (x :: h) (s.after t ins pc') t =
      (pc'.opOn hd).map fun y => (lastCall t h, .op y.1, y.2.result.map .op) := by
    rw [openCall, Sys.after_pc, if_pos rfl]
    rfl
  have hplain : ins.byWait (handleIndex hd) (s.threads t).pc = none :=
    Instr.byWait_none ((tick_inv ht).noSat (by rw [hpc]; rfl)).1
  have hmarks : wordMarksOf hd h x = (match pc'.returned hd with
        | some r => [.ret (t, lastCall t h) r]
        | none => []) ++
      match (Pc.op hd op p).decides hd pc' with
      | some (op', r) => [.point (t, lastCall t h) (.op op') r]
      | none => [] := by
    simp only [wordMarksOf, hx, hplain, Sys.after_pc, if_true]
    rw [hpc]
  -- a step that leaves the thread with no operation, or with the same one at the same point
  have hstay : (∀ y, pc'.opOn hd = some y → y.1 = op ∧ y.2.result = p.result) →
      Books spec k₀ k (h.length + 1) (openCall hd (x :: h) (s.after t ins pc'))
        (wordMarks hd h) := by
    intro hsame
    refine hb.later (Nat.le_succ _) fun u y hy => ?_
    by_cases hut : u = t
    · rw [hut, hopen'] at hy
      obtain ⟨z, hz, rfl⟩ := Option.map_eq_some_iff.mp hy
      obtain ⟨hop, hres⟩ := hsame z hz
      rw [hut, hopen, hop, hres]
    · rw [← hothers u hut]
      exact hy
  show ∃ k', _ ∧ Books spec k₀ k' (h.length + 1) (openCall hd (x :: h) (s.after t ins pc'))
    (wordMarksOf hd h x ++ wordMarks hd h)
  rw [hpc] at ht
  rw [hmarks, hw]
  cases hres : p.result with
  | some r =>
    obtain ⟨hsame, hnext⟩ := (opTick_inv ht).settled hres
    -- decided before: it only wakes waiters and returns
    refine ⟨k, hsame _ _, ?_⟩
    rw [hres] at hopen
    rcases hnext with rfl | ⟨p', rfl, hres'⟩
    · -- it returns
      have hret := (hstay fun y hy => by cases hy).ret (hb.decided t _ _ _ hopen) fun _ _ h => h
      simpa [Pc.returned, Pc.decides, Pc.opOn, Pc.result, hres] using hret
    · have hlater := hstay fun y hy => by
        simp only [Pc.opOn, if_true, Option.some.injEq] at hy
        rw [← hy]
        exact ⟨rfl, hres'.trans hres.symm⟩
      simpa [Pc.returned, Pc.decides, Pc.opOn, Pc.result, hres] using hlater
  | none =>
    rw [hres] at hopen
    have hshape := hi.shape t
    have hvalid := hi.isOpen.valid t
    rw [hpc] at hshape hvalid
    -- still open: this step decides it, or changes nothing
    rcases hA.settles ht hi.isOpen.holds hw hshape (hvalid rfl).2 hres with
      ⟨p', rfl, hres', hsame⟩ | ⟨k', r, hspec, hnew, hnext⟩
    · refine ⟨k, hsame, ?_⟩
      have hlater := hstay fun y hy => by
        simp only [Pc.opOn, if_true, Option.some.injEq] at hy
        rw [← hy]
        exact ⟨rfl, hres'.trans hres.symm⟩
      simpa [Pc.returned, Pc.decides, Pc.opOn, Pc.result, hres, hres'] using hlater
    · -- it takes effect, and may return at once
      refine ⟨k', hnew, ?_⟩
      have hpoint : Books spec k₀ k' (h.length + 1) (openCall hd (x :: h) (s.after t ins pc'))
          (.point (t, lastCall t h) (.op op) (.op r) :: wordMarks hd h) := by
        refine (hb.point hopen hspec (fun y hy => ?_) hothers).later (Nat.le_succ _) fun _ _ h => h
        rcases hnext with rfl | ⟨p', rfl, hres'⟩
        · rw [hopen'] at hy
          cases hy
        · rw [hopen'] at hy
          simpa [Pc.opOn, hres', eq_comm] using hy
      rcases hnext with rfl | ⟨p', rfl, hres'⟩
      · have hret := hpoint.ret (List.mem_cons_self ..) fun _ _ h => h
        simpa [Pc.returned, Pc.decides, Pc.opOn, Pc.result, hres] using hret
      · simpa [Pc.returned, Pc.decides, Pc.opOn, Pc.result, hres, hres'] using hpoint

/-- A step of any other call. -/
theorem Atomic.other (hA : Atomic ty enc spec) (hi : AtomicInv enc spec ty hd k₀ h s)
    (hnone : (s.threads t).pc.opOn hd = none)
    (ht : tick o s.toShared (s.threads t).pid (s.threads t).calls (s.threads t).pc =
      some (ins, pc'))
    (hpulse : (Label.instr t (s.threads t).pid ins).overwrites (handleIndex hd) = false) :
    Atomic.After enc spec hd k₀ h s t ins pc' := by
  obtain ⟨k, hw, hb⟩ := hi.books
  unfold Atomic.After
  set x : Trans (Sys T) (Label T) := ⟨s, .instr t (s.threads t).pid ins, s.after t ins pc'⟩ with hx
  have hg := tick_inv ht
  obtain ⟨hnone', hret'⟩ := hg.opOn hnone
  -- no open call on the handle begins or ends
  have hkeep : ∀ u y, openCall hd (x :: h) (s.after t ins pc') u = some y →
      openCall hd h s u = some y := by
    intro u y hy
    by_cases hut : u = t
    · rw [hut, openCall_of_none (by rw [Sys.after_pc, if_pos rfl]; exact hnone')] at hy
      cases hy
    · rw [openCall_other (h := h) (s := s) rfl (by rw [Sys.after_pc, if_neg hut])] at hy
      exact hy
  have hplain : (s.threads t).pc.decides hd pc' = none := by
    unfold Pc.decides
    rw [hnone]
  show ∃ k', _ ∧ Books spec k₀ k' (h.length + 1) (openCall hd (x :: h) (s.after t ins pc'))
    (wordMarksOf hd h x ++ wordMarks hd h)
  by_cases hword : ∃ hd' tag new, ins = .word hd' (handleIndex hd) tag new
  · obtain ⟨hd', tag, new, rfl⟩ := hword
    have hnew : (Instr.word hd' (handleIndex hd) tag new).wordAfter (handleIndex hd)
        (s.region.slots (handleIndex hd)).w0 = new := if_pos rfl
    rw [hnew]
    rcases hg.word with ⟨op, _, _, _, hpc, hidx, _⟩ | ⟨_, _, _, _, rfl, _⟩ | ⟨c, q, p, hpc, hq⟩
    · -- an operation through another handle would have found another generation
      have hvalid := hi.isOpen.valid t
      rw [hpc] at hvalid hnone
      obtain rfl := handle_ext hidx.symm ((hvalid hidx.symm).1 rfl)
      simp [Pc.opOn] at hnone
    · exact absurd rfl (of_decide_eq_false hpulse)
    · -- a wait swaps the word
      obtain ⟨w, out, hst, hins, _⟩ := hg.sat (c := c) (p := p) (by rw [hpc]; simp [Pc.sat?, hq])
      have hvalid := hi.isOpen.valid t
      rw [hpc] at hvalid
      have hty := hi.isOpen.holds.typ
      have hfit : ∀ ty', (s.region.slots (handleIndex hd)).objType = ty' →
          p.Fits c.toWaitArgs (handleIndex hd) ty' := by
        intro ty' hty'
        rw [← hty', hty]
        exact hvalid.fits p hq
      have hby : ∃ op r k', (Instr.word hd' (handleIndex hd) tag new).byWait (handleIndex hd)
          (s.threads t).pc = some (op, r) ∧ enc k' = new ∧ spec k op = (k', r) := by
        rcases hst.byWait hins.symm hfit with ⟨seq, od, rfl, htakes⟩ | ⟨pos, b, rest, u, hp, rfl, hgives⟩
        · obtain ⟨k', henc, hspec⟩ := hA.acquire k _ _ seq od new hty hw htakes
          exact ⟨_, _, k', if_pos rfl, henc, hspec⟩
        · obtain ⟨k', henc, hspec⟩ := hA.rollback k _ _ b new hty hw hgives
          refine ⟨_, _, k', if_pos rfl, henc, ?_⟩
          rw [show (s.threads t).pc.undoes = b by rw [hpc, Pc.undoes, Pc.sat?, hq, hp]; rfl]
          exact hspec
      obtain ⟨op, r, k', hby, rfl, hspec⟩ := hby
      have hmarks : wordMarksOf hd h x =
          [.ret (t, h.length) r, .point (t, h.length) op r, .call (t, h.length) op] := by
        simp only [wordMarksOf, hx, hby]
      rw [hmarks]
      exact ⟨k', rfl, hb.once (openCall_of_none hnone) hspec hkeep⟩
  · -- the word is not touched
    have hsame : ins.wordAfter (handleIndex hd) (enc k) = enc k :=
      Instr.wordAfter_of_ne fun hd' tag new he => hword ⟨hd', tag, new, he⟩
    have hquiet : ins.byWait (handleIndex hd) (s.threads t).pc = none := by
      cases ins with
      | word hd' j tag new =>
        have hne : ¬ j = handleIndex hd := fun he => hword ⟨hd', tag, new, by rw [he]⟩
        cases tag with
        | acquire | rollback => exact if_neg hne
        | _ => rfl
      | _ => rfl
    have hmarks : wordMarksOf hd h x = [] := by
      simp only [wordMarksOf, hx, hquiet, Sys.after_pc, if_true, hret', hplain]
      rfl
    rw [hmarks, hw]
    exact ⟨k, hsame, hb.later (Nat.le_succ _) hkeep⟩

/-- **Step lemma.** The points stay a linearization. -/
theorem AtomicInv.step {x : Trans (Sys T) (Label T)} (hA : Atomic ty enc spec)
    (hi : AtomicInv enc spec ty hd k₀ h s) (htr : traced Sys.step s act = some (s', x))
    (hu : Stays (handleIndex hd) s') (hpulse : x.label.overwrites (handleIndex hd) = false) :
    AtomicInv enc spec ty hd k₀ (x :: h) s' := by
  obtain ⟨l, hs, rfl⟩ := traced_eq_some.mp htr
  refine ⟨hi.isOpen.step hs hu, hi.shape.step hs, ?_⟩
  cases Sys.step_inv hs with
  | @call t c ha hout =>
    obtain ⟨k, hw, hb⟩ := hi.books
    exact ⟨k, hw, hA.call c hout hb⟩
  | @tick t o ins pc' ha ht =>
    have hafter : Atomic.After enc spec hd k₀ h s t ins pc' := by
      cases hop : (s.threads t).pc.opOn hd with
      | some y => exact hA.own hi (Pc.eq_of_opOn hop) ht
      | none => exact hA.other hi hop ht hpulse
    obtain ⟨k', hw', hb'⟩ := hafter
    exact ⟨k', (hi.isOpen.after_word ha (tick_inv ht) hu).1.trans hw', hb'⟩
  | @die pid =>
    obtain ⟨k, hw, hb⟩ := hi.books
    exact ⟨k, hw, hb.later (Nat.le_succ _) fun _ _ h => h⟩

omit [DecidableEq T] in
/-- Only events are pulsed. -/
theorem AtomicInv.unpulsed [DecidableEq T] (hi : AtomicInv enc spec ty hd k₀ h s)
    (hty : ty ≠ .event) (hs : s.step act = some (s', l)) :
    l.overwrites (handleIndex hd) = false := by
  cases Sys.step_inv hs with
  | call | die => rfl
  | @tick t o ins pc' ha ht =>
    cases ins with
    | word hd' j tag new =>
      cases tag with
      | pulse =>
        refine decide_eq_false ?_
        rintro rfl
        -- `event_pulse` has checked the type under the lock
        rcases (tick_inv ht).word with ⟨_, _, _, _, _, _, htag, _⟩ | ⟨_, _, hpc, hidx, _⟩ |
          ⟨c, q, p, hpc, hq⟩
        · cases htag
        · have hvalid := hi.isOpen.valid t
          rw [hpc] at hvalid
          exact hty (hvalid hidx.symm rfl).2
        · obtain ⟨w, _, _, hins, _⟩ := (tick_inv ht).sat (c := c) (p := p)
            (by rw [hpc]; simp [Pc.sat?, hq])
          cases w with
          | none => cases hins
          | some w =>
            have hne := congrArg Instr.attempt hins
            cases w <;> exact absurd hne Bool.false_ne_true
      | _ => rfl
    | _ => rfl

/-- At rest the empty history is explained. -/
theorem AtomicInv.of_idle {s₀ : Sys T} (hidle : s₀.Idle)
    (hu : (s₀.region.slots (handleIndex hd)).state = .used)
    (hgen : (s₀.region.slots (handleIndex hd)).generation = handleGen hd)
    (hty : (s₀.region.slots (handleIndex hd)).objType = ty)
    (hw : (s₀.region.slots (handleIndex hd)).w0 = enc k₀) :
    AtomicInv enc spec ty hd k₀ [] s₀ := by
  have hopen := OpenInv.of_idle hidle hu
  rw [hgen, hty] at hopen
  exact ⟨hopen, .of_idle hidle, k₀, hw,
    .start fun t => openCall_of_none (Pc.opOn_of_outside (hidle t))⟩

/-- The linearization that the books hold. -/
theorem AtomicInv.linearizes (hi : AtomicInv enc spec ty hd k₀ h s) :
    ∃ k lin, (s.region.slots (handleIndex hd)).w0 = enc k ∧
      Linearizes spec k₀ k (wordHistory hd h) lin := by
  obtain ⟨k, hw, hb⟩ := hi.books
  refine ⟨k, points (wordMarks hd h), hw, ?_⟩
  rw [← wordMarks_ev]
  exact hb.linearizes

/-- **Semaphores are linearizable.** In every run that leaves the semaphore behind `hd` open: one
    sequential order of the operations on it and of the acquisitions and rollbacks by waits respects
    real time, and counting tokens along it gives everything that was returned and the final word.
    -/
theorem sems_linearizable {s₀ : Sys T} {k₀ : SemState} (hidle : s₀.Idle)
    (hu : (s₀.region.slots (handleIndex hd)).state = .used)
    (hgen : (s₀.region.slots (handleIndex hd)).generation = handleGen hd)
    (hty : (s₀.region.slots (handleIndex hd)).objType = .sem)
    (hw : (s₀.region.slots (handleIndex hd)).w0 = packSem k₀.count k₀.max)
    (hr : Run (traced Sys.step) (fun _ _ s' => Stays (handleIndex hd) s') s₀ h s) :
    ∃ (k : SemState) (lin : List (Entry (T × Nat) WordOp WordRet)),
      (s.region.slots (handleIndex hd)).w0 = packSem k.count k.max ∧
      Linearizes semSpec k₀ k (wordHistory hd h) lin := by
  have hinv : AtomicInv SemState.word semSpec .sem hd k₀ h s := by
    refine hr.invariant (I := AtomicInv SemState.word semSpec .sem hd k₀)
      (.of_idle hidle hu hgen hty hw) fun h s a s' x hi hs hok => hi.step semAtomic hs hok ?_
    obtain ⟨l, hl, rfl⟩ := traced_eq_some.mp hs
    exact hi.unpulsed (by decide) hl
  exact hinv.linearizes

/-- **Mutexes are linearizable.** In every run that leaves the mutex behind `hd` open: one
    sequential order of the operations on it and of the acquisitions and rollbacks by waits respects
    real time, and the recursive lock along it gives everything that was returned and the final
    word. -/
theorem mutexes_linearizable {s₀ : Sys T} {k₀ : MutexState} (hidle : s₀.Idle)
    (hu : (s₀.region.slots (handleIndex hd)).state = .used)
    (hgen : (s₀.region.slots (handleIndex hd)).generation = handleGen hd)
    (hty : (s₀.region.slots (handleIndex hd)).objType = .mutex)
    (hw : (s₀.region.slots (handleIndex hd)).w0 =
      packMutex k₀.owner (k₀.count.setWidth 32) k₀.abandoned)
    (hr : Run (traced Sys.step) (fun _ _ s' => Stays (handleIndex hd) s') s₀ h s) :
    ∃ (k : MutexState) (lin : List (Entry (T × Nat) WordOp WordRet)),
      (s.region.slots (handleIndex hd)).w0 =
        packMutex k.owner (k.count.setWidth 32) k.abandoned ∧
      Linearizes mutexSpec k₀ k (wordHistory hd h) lin := by
  have hinv : AtomicInv MutexState.word mutexSpec .mutex hd k₀ h s := by
    refine hr.invariant (I := AtomicInv MutexState.word mutexSpec .mutex hd k₀)
      (.of_idle hidle hu hgen hty hw) fun h s a s' x hi hs hok => hi.step mutexAtomic hs hok ?_
    obtain ⟨l, hl, rfl⟩ := traced_eq_some.mp hs
    exact hi.unpulsed (by decide) hl
  exact hinv.linearizes

/-- **Auto-reset events are linearizable with their waits**, in every run that leaves the event
    behind `hd` open and does not pulse it: the waits that swap the signal away stand in one order
    with the sets and resets, and each of them finds the bit raised. -/
theorem autos_linearizable {s₀ : Sys T} {b₀ : Bool} (hidle : s₀.Idle)
    (hu : (s₀.region.slots (handleIndex hd)).state = .used)
    (hgen : (s₀.region.slots (handleIndex hd)).generation = handleGen hd)
    (hty : (s₀.region.slots (handleIndex hd)).objType = .event)
    (hw : (s₀.region.slots (handleIndex hd)).w0 = packEvent b₀ false)
    (hr : Run (traced Sys.step) (fun _ x s' => Stays (handleIndex hd) s' ∧
      x.label.overwrites (handleIndex hd) = false) s₀ h s) :
    ∃ (b : Bool) (lin : List (Entry (T × Nat) WordOp WordRet)),
      (s.region.slots (handleIndex hd)).w0 = packEvent b false ∧
      Linearizes autoSpec b₀ b (wordHistory hd h) lin := by
  have hinv : AtomicInv (fun b => packEvent b false) autoSpec .event hd b₀ h s :=
    hr.invariant (I := AtomicInv (fun b => packEvent b false) autoSpec .event hd b₀)
      (.of_idle hidle hu hgen hty hw)
      fun h s a s' x hi hs hok => hi.step autoAtomic hs hok.1 hok.2
  exact hinv.linearizes

end Invariant

/-- The calls of the race have a sequential order. -/
theorem sems_linearizable_semRace :
    ∃ h s, Run (traced Sys.step) (fun _ _ s' => Stays 1 s') semDemo h s ∧
      (wordHistory 1 h).length = 5 ∧
      ∃ (k : SemState) (lin : List (Entry (Fin 2 × Nat) WordOp WordRet)),
        (s.region.slots 1).w0 = packSem k.count k.max ∧
        Linearizes semSpec ⟨1, 1⟩ k (wordHistory 1 h) lin := by
  obtain ⟨h, s, hr, hlen⟩ := exists_history_of_exec (traced Sys.step) (fun _ _ s' => Stays 1 s')
    semDemo (P := fun h _ => (wordHistory 1 h).length = 5) semRace (by decide +kernel)
  exact ⟨h, s, hr, hlen, sems_linearizable (fun _ => rfl)
    (show (semDemo.region.slots (handleIndex 1)).state = .used by decide) (by decide) (by decide)
    (by decide) hr⟩

/-- After the kill thread 0 takes the abandoned mutex. -/
def takeKilled : List (Action (Fin 2)) :=
  killPlain ++ .call 0 (.wait { handles := [1], owner := 6, all := false, alert := 0 } .zero) ::
    List.replicate 6 (.tick 0 {})

/-- A wait takes a mutex whose owner has been killed. -/
theorem mutexes_linearizable_takeKilled :
    ∃ h s, Run (traced Sys.step) (fun _ _ s' => Stays 1 s') (mutexDemo 5 1) h s ∧
      (wordHistory 1 h).length = 3 ∧
      ∃ (k : MutexState) (lin : List (Entry (Fin 2 × Nat) WordOp WordRet)),
        (s.region.slots 1).w0 = packMutex k.owner (k.count.setWidth 32) k.abandoned ∧
        Linearizes mutexSpec ⟨5, 1, false⟩ k (wordHistory 1 h) lin := by
  obtain ⟨h, s, hr, hlen⟩ := exists_history_of_exec (traced Sys.step) (fun _ _ s' => Stays 1 s')
    (mutexDemo 5 1) (P := fun h _ => (wordHistory 1 h).length = 3) takeKilled (by decide +kernel)
  exact ⟨h, s, hr, hlen, mutexes_linearizable (fun _ => rfl)
    (show ((mutexDemo 5 1).region.slots (handleIndex 1)).state = .used by decide) (by decide)
    (by decide) (by decide) hr⟩

/-- Thread 0 takes the signal of event 1, thread 1 sets the event again, and thread 0 takes that
    too. -/
def takeTwice : List (Action (Fin 2)) :=
  .call 0 (.wait { handles := [1], owner := 5, all := false, alert := 0 } .zero) ::
    List.replicate 8 (.tick 0 {}) ++
  .call 1 (.op 1 .eventSet) :: List.replicate 6 (.tick 1 {}) ++
  .call 0 (.wait { handles := [1], owner := 5, all := false, alert := 0 } .zero) ::
    List.replicate 8 (.tick 0 {})

/-- An auto-reset event is taken twice, with a set in between. -/
theorem autos_linearizable_takeTwice :
    ∃ h s, Run (traced Sys.step) (fun _ x s' => Stays 1 s' ∧ x.label.overwrites 1 = false)
        eventDemo h s ∧ (wordHistory 1 h).length = 6 ∧
      ∃ (b : Bool) (lin : List (Entry (Fin 2 × Nat) WordOp WordRet)),
        (s.region.slots 1).w0 = packEvent b false ∧
        Linearizes autoSpec true b (wordHistory 1 h) lin := by
  obtain ⟨h, s, hr, hlen⟩ := exists_history_of_exec (traced Sys.step)
    (fun _ x s' => Stays 1 s' ∧ x.label.overwrites 1 = false) eventDemo
    (P := fun h _ => (wordHistory 1 h).length = 6) takeTwice (by decide +kernel)
  exact ⟨h, s, hr, hlen, autos_linearizable (fun _ => rfl)
    (show (eventDemo.region.slots (handleIndex 1)).state = .used by decide) (by decide)
    (by decide) (by decide) hr⟩

end Ntsync
