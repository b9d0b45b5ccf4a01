import Mathlib
import Ntsync.Shape

namespace Ntsync

open Words Lts

/-!
# Mutexes: the packed word and the holds in flight

`acquire`, `unlock`, `kill` and `rollback_acquire` rewrite one word that packs the owner, a 31-bit
recursion count and the abandoned flag.

* `acquireMutex_cas`, `rollbackMutex_cas`, `mutexUnlock_cas`, `mutexKill_cas` — what each does to
  owner, count and flag;
* `PcGo.mutex` — the five things a step of a thread can do to a mutex (`MutexStep`);
* `MutexInv` — the word is well formed and a tentatively held mutex belongs to the holder; kept by
  every step in which no two live threads act for one owner (`Excl`) and no kill takes away a mutex
  that its owner holds tentatively (`KillSpares`);
* `mutex_word_ok` — the resulting safety of every run.  Without `KillSpares` it fails:
  `mutex_kill_underflows`.
-/

/-! ### The packed word -/

/-- A mutex word, half by half. -/
theorem packMutex_eq (owner count : U32) (dead : Bool) : packMutex owner count dead =
    pack32 ((count &&& maxRecursion) ||| (if dead then 0x80000000 else 0)) owner := by
  apply BitVec.eq_of_getLsbD_eq
  intro k hk
  have hmask : (2147483647#64).getLsbD (k - 32) = BitVec.getLsbD maxRecursion (k - 32) := by
    have : ∀ j < 32, (2147483647#64).getLsbD j = BitVec.getLsbD maxRecursion j := by decide
    exact this _ (by omega)
  have hflag : ∀ d : Bool, BitVec.getLsbD ((if d then (1 : U64) else 0) <<< 31) (k - 32) =
      BitVec.getLsbD (if d then (0x80000000 : U32) else 0) (k - 32) := by
    have : ∀ d : Bool, ∀ j < 32, BitVec.getLsbD ((if d then (1 : U64) else 0) <<< 31) j =
      BitVec.getLsbD (if d then (0x80000000 : U32) else 0) j := by decide
    exact fun d => this d _ (by omega)
  by_cases hlo : k < 32
  · simp [packMutex, pack32, hlo]
  · have hk' : k - 32 < 64 := by omega
    simp only [packMutex, pack32, BitVec.getLsbD_or, BitVec.getLsbD_shiftLeft, BitVec.getLsbD_and,
      BitVec.getLsbD_setWidth, hflag, hk, hlo, hk']
    simp [hmask]

@[simp] theorem lo32_packMutex (owner count : U32) (dead : Bool) :
    lo32 (packMutex owner count dead) = owner := by
  rw [packMutex_eq, lo32_pack32]

/-- The recursion count of a word is the one packed into it. -/
theorem mutexCount_packMutex (owner count : U32) (dead : Bool) :
    mutexCount (packMutex owner count dead) = count &&& maxRecursion := by
  have hz : ∀ d : Bool, (if d then (0x80000000 : U32) else 0) &&& maxRecursion = 0 := by decide
  rw [mutexCount, packMutex_eq, hi32_pack32, BitVec.and_or_distrib_right, hz, BitVec.and_assoc,
    BitVec.and_self]
  simp

@[simp] theorem mutexDead_packMutex (owner count : U32) (dead : Bool) :
    mutexDead (packMutex owner count dead) = dead := by
  have hz : maxRecursion >>> 31 = 0 := by decide
  rw [mutexDead, packMutex_eq, hi32_pack32, BitVec.ushiftRight_or_distrib,
    BitVec.ushiftRight_and_distrib, hz]
  cases dead <;> simp

/-- The count a mutex word stores, when it fits 31 bits. -/
theorem toNat_mutexCount_packMutex {owner count : U32} {dead : Bool}
    (h : count.toNat ≤ maxRecursion.toNat) :
    (mutexCount (packMutex owner count dead)).toNat = count.toNat := by
  rw [mutexCount_packMutex, BitVec.toNat_and]
  have hmax : maxRecursion.toNat = 2 ^ 31 - 1 := rfl
  rw [hmax, Nat.and_two_pow_sub_one_eq_mod]
  exact Nat.mod_eq_of_lt (by omega)

/-- The recursion count has 31 bits. -/
theorem mutexCount_le (w : U64) : (mutexCount w).toNat ≤ maxRecursion.toNat := by
  rw [mutexCount, BitVec.toNat_and]
  exact Nat.and_le_right

/-- An acquire raises the count of a free mutex, or of one its owner holds already. -/
theorem acquireMutex_cas {owner : U32} {w new : U64} {od : Bool}
    (h : acquireMutex owner w = .cas new (some od)) :
    lo32 new = owner ∧ (mutexCount new).toNat = (mutexCount w).toNat + 1 ∧
      (lo32 w = 0 ∧ od = mutexDead w ∧ mutexDead new = false ∨
        lo32 w = owner ∧ lo32 w ≠ 0 ∧ od = false ∧ mutexDead new = mutexDead w) := by
  simp only [acquireMutex] at h
  split at h
  · cases h
  · rename_i hmax
    have hsum : (mutexCount w + 1).toNat = (mutexCount w).toNat + 1 := by
      have hm : maxRecursion.toNat = 2 ^ 31 - 1 := rfl
      have h1 : (1 : U32).toNat = 1 := rfl
      rw [BitVec.toNat_add, h1]
      exact Nat.mod_eq_of_lt (by omega)
    have hcnt : ∀ d : Bool, (mutexCount (packMutex owner (mutexCount w + 1) d)).toNat =
        (mutexCount w).toNat + 1 := by
      intro d
      rw [toNat_mutexCount_packMutex (by omega), hsum]
    split at h
    · rename_i h0
      cases h
      exact ⟨lo32_packMutex _ _ _, hcnt _, .inl ⟨h0, rfl, mutexDead_packMutex _ _ _⟩⟩
    · rename_i h0
      split at h
      · rename_i ho
        cases h
        exact ⟨lo32_packMutex _ _ _, hcnt _,
          .inr ⟨ho, h0, rfl, mutexDead_packMutex _ _ _⟩⟩
      · cases h

/-- The count after `count - 1`, when there is one to take. -/
theorem toNat_count_sub_one {w : U64} (hpos : 0 < (mutexCount w).toNat) (owner : U32)
    (dead : Bool) :
    (mutexCount (packMutex owner (mutexCount w - 1) dead)).toNat + 1 = (mutexCount w).toNat := by
  have h1 : (1 : U32).toNat = 1 := rfl
  have hle : (1 : U32) ≤ mutexCount w := by
    show (1 : U32).toNat ≤ (mutexCount w).toNat
    omega
  have hsub : (mutexCount w - 1).toNat = (mutexCount w).toNat - 1 := by
    rw [BitVec.toNat_sub_of_le hle, h1]
  have hmax := mutexCount_le w
  rw [toNat_mutexCount_packMutex (by omega), hsub]
  omega

/-- The last recursion, as a number. -/
theorem count_eq_one_iff (w : U64) : mutexCount w = 1 ↔ (mutexCount w).toNat = 1 := by
  constructor
  · intro h
    rw [h]
    rfl
  · intro h
    exact BitVec.eq_of_toNat_eq h

/-- A rollback takes back one hold; the last one frees the mutex with the flag it had. -/
theorem rollbackMutex_cas {owner : U32} {w new : U64} {od : Bool}
    (h : rollbackMutex owner od w = .cas new ()) (hpos : 0 < (mutexCount w).toNat) :
    (mutexCount new).toNat + 1 = (mutexCount w).toNat ∧
      ((mutexCount w).toNat = 1 ∧ lo32 new = 0 ∧ mutexDead new = od ∨
        1 < (mutexCount w).toNat ∧ lo32 new = owner ∧ mutexDead new = mutexDead w) := by
  simp only [rollbackMutex] at h
  split at h
  · rename_i h1
    have h1' := (count_eq_one_iff w).mp h1
    cases h
    refine ⟨?_, .inl ⟨h1', lo32_packMutex _ _ _, mutexDead_packMutex _ _ _⟩⟩
    have hz : (mutexCount (packMutex 0 0 od)).toNat = 0 :=
      toNat_mutexCount_packMutex (Nat.zero_le _)
    omega
  · rename_i h1
    have h1' : ¬ (mutexCount w).toNat = 1 := fun e => h1 ((count_eq_one_iff w).mpr e)
    cases h
    exact ⟨toNat_count_sub_one hpos _ _,
      .inr ⟨by omega, lo32_packMutex _ _ _, mutexDead_packMutex _ _ _⟩⟩

/-- An unlock by the owner returns the count it found and takes one hold; the last one frees the
    mutex and wakes the waiters. -/
theorem mutexUnlock_cas {owner : U32} {w new : U64} {r : OpRet} {wake : Bool}
    (h : mutexUnlock owner w = .cas new (r, wake)) :
    lo32 w = owner ∧ r = .ok (.num (mutexCount w)) ∧ mutexDead new = mutexDead w ∧
      wake = decide (mutexCount w = 1) ∧
      lo32 new = (if mutexCount w = 1 then 0 else owner) ∧
      (0 < (mutexCount w).toNat → (mutexCount new).toNat + 1 = (mutexCount w).toNat) := by
  simp only [mutexUnlock] at h
  split at h
  · cases h
  · rename_i ho
    cases h
    refine ⟨not_not.mp ho, rfl, mutexDead_packMutex _ _ _, rfl, ?_, ?_⟩
    · rw [lo32_packMutex]
      simp
    · exact fun hpos => toNat_count_sub_one hpos _ _

/-- A kill frees the owner's mutex and marks it abandoned. -/
theorem mutexKill_cas {owner : U32} {w new : U64} {r : OpRet} {wake : Bool}
    (h : mutexKill owner w = .cas new (r, wake)) :
    lo32 w = owner ∧ lo32 new = 0 ∧ (mutexCount new).toNat = 0 ∧ mutexDead new = true := by
  simp only [mutexKill] at h
  split at h
  · cases h
  · rename_i ho
    cases h
    refine ⟨not_not.mp ho, lo32_packMutex _ _ _, ?_, mutexDead_packMutex _ _ _⟩
    exact toNat_mutexCount_packMutex (Nat.zero_le _)

/-! ### What a step does to a mutex -/

/-- The dead-owner answers of the tentative holds of slot `i`. -/
def Sat.flagsAt (a : WaitArgs) (i : Nat) (p : Sat) : List Bool :=
  (p.held.filter fun x => decide (a.slotOf x.1 = i)).map Prod.snd

def Pc.flagsAt (i : Nat) (pc : Pc) : List Bool :=
  match pc.sat? with
  | some (c, p) => p.flagsAt c.toWaitArgs i
  | none => []

def Op.actsFor : Op → Option U32
  | .mutexUnlock owner => some owner
  | _ => none

def Op.kills : Op → Option U32
  | .mutexKill owner => some owner
  | _ => none

/-- The owner a wait or an unlock under way acts for. -/
def Pc.actsFor : Pc → Option U32
  | .wait c _ => some c.owner
  | .op _ o _ => o.actsFor
  | _ => none

/-- The owner a kill under way names. -/
def Pc.kills : Pc → Option U32
  | .op _ o _ => o.kills
  | _ => none

/-- The five things a step can do to the mutex in slot `i` with word `w`. -/
inductive MutexStep (i : Nat) (w : U64) (pc pc' : Pc) : Instr → Prop
  /-- nothing; a wait-all that succeeds keeps what it holds -/
  | keep {ins : Instr} : (∀ h tag new, ins ≠ .word h i tag new) →
      (pc'.flagsAt i = pc.flagsAt i ∨ pc'.flagsAt i = [] ∧ pc'.report ≠ none) →
      MutexStep i w pc pc' ins
  | take {h owner : U32} {od : Bool} {new : U64} : pc.actsFor = some owner →
      acquireMutex owner w = .cas new (some od) → pc.flagsAt i = [] →
      (pc'.flagsAt i = [] ∧ pc'.report ≠ none ∨
        pc'.flagsAt i = [od] ∧ pc'.actsFor = some owner) →
      MutexStep i w pc pc' (.word h i (.acquire owner od) new)
  | give {h owner : U32} {od : Bool} {new : U64} : pc.actsFor = some owner →
      rollbackMutex owner od w = .cas new () → pc.flagsAt i = [od] → pc'.flagsAt i = [] →
      MutexStep i w pc pc' (.word h i (.rollback owner) new)
  | unlock {h owner : U32} {new : U64} {r : OpRet} {wake : Bool} : pc.actsFor = some owner →
      mutexUnlock owner w = .cas new (r, wake) → pc.flagsAt i = [] → pc'.flagsAt i = [] →
      MutexStep i w pc pc' (.word h i (.op (.mutexUnlock owner)) new)
  | kill {h owner : U32} {new : U64} {r : OpRet} {wake : Bool} : pc.kills = some owner →
      mutexKill owner w = .cas new (r, wake) → pc.flagsAt i = [] → pc'.flagsAt i = [] →
      MutexStep i w pc pc' (.word h i (.op (.mutexKill owner)) new)

section MutexSteps

/-- Without an attempt there are no tentative holds. -/
theorem Pc.flagsAt_of_none {pc : Pc} {i : Nat} (h : pc.sat? = none) : pc.flagsAt i = [] := by
  rw [Pc.flagsAt, h]

/-- The tentative holds of a thread are those of its attempt. -/
theorem Pc.flagsAt_of_some {pc : Pc} {i : Nat} {c : WaitCtx} {p : Sat}
    (h : pc.sat? = some (c, p)) : pc.flagsAt i = p.flagsAt c.toWaitArgs i := by
  rw [Pc.flagsAt, h]

/-- An attempt starts with none. -/
theorem Sat.flagsAt_start (a : WaitArgs) (i : Nat) (all : Bool) :
    (Sat.start all).flagsAt a i = [] := by
  cases all <;> rfl

/-- An attempt that holds nothing in the slot has no flags there. -/
theorem Sat.flagsAt_nil {a : WaitArgs} {i : Nat} {p : Sat}
    (h : ∀ x ∈ p.held, a.slotOf x.1 ≠ i) : p.flagsAt a i = [] := by
  rw [Sat.flagsAt, List.map_eq_nil_iff, List.filter_eq_nil_iff]
  intro x hx
  simpa using h x hx

variable {r : Region} {a : WaitArgs} {seqs : Nat → U64} {p : Sat} {w : Option SatWrite}
  {out : Out Sat (Option (Nat × Bool))} {i : Nat}

/-- What a step of `try_satisfy` still holds of slot `i`. -/
def Out.flagsAt (a : WaitArgs) (i : Nat) : Out Sat (Option (Nat × Bool)) → List Bool
  | .more p => p.flagsAt a i
  | .done _ => []

/-- The cases of a step of `try_satisfy` on a mutex. -/
theorem SatStep.mutex (hst : SatStep r a seqs p w out) (hf : p.Fits a i .mutex)
    (hty : (r.slots i).objType = .mutex) (hsh : p.Shape a)
    (hinj : ∀ j k, j < a.handles.length → k < a.handles.length → a.slotOf j = i →
      a.slotOf k = i → j = k) :
    ((∀ h tag new, satInstr a w ≠ .word h i tag new) ∧
      (out.flagsAt a i = p.flagsAt a i ∨ ∃ x, out = .done (some x))) ∨
    (∃ h od new, satInstr a w = .word h i (.acquire a.owner od) new ∧
      acquireMutex a.owner (r.slots i).w0 = .cas new (some od) ∧ p.flagsAt a i = [] ∧
      ((∃ x, out = .done (some x)) ∨ out.flagsAt a i = [od])) ∨
    ∃ h od new, satInstr a w = .word h i (.rollback a.owner) new ∧
      rollbackMutex a.owner od (r.slots i).w0 = .cas new () ∧ p.flagsAt a i = [od] ∧
      out.flagsAt a i = [] := by
  -- the store of an acquire at position `k`
  have htake : ∀ {k : Nat} {q : Acq} {v : Option U64} {od : Bool},
      (a.slotOf k = i → q.fits .mutex) →
      q.step (r.slots (a.slotOf k)) a.owner (seqs k) = (v, .done (some od)) → a.slotOf k = i →
      ∃ new, satInstr a (v.map (.acquire k od)) = .word (a.handle k) i (.acquire a.owner od) new ∧
        acquireMutex a.owner (r.slots i).w0 = .cas new (some od) := by
    intro k q v od hq hs hk
    have htake := Acq.step_take (by rw [hk, hty]; exact hq hk) hs
    simp only [AcqTakes, hk, hty] at htake
    obtain ⟨new, rfl, hb⟩ := htake
    exact ⟨new, by rw [← hk]; rfl, hb⟩
  -- the store of the rollback of position `k`, the only one of the slot
  have hgive : ∀ {k : Nat} {b : Bool} {rest : List (Nat × Bool)} {u : Undo} {v : Option U64},
      (a.slotOf k = i → u.fits .mutex) → (Sat.undo ((k, b) :: rest) u).Shape a →
      u.step (r.slots (a.slotOf k)) a.owner b = (v, .done ()) → a.slotOf k = i →
      Sat.flagsAt a i (.undo ((k, b) :: rest) u) = [b] ∧
      Sat.flagsAt a i (.undo rest .typ) = [] ∧
      ∃ new, satInstr a (v.map (.rollback k)) = .word (a.handle k) i (.rollback a.owner) new ∧
        rollbackMutex a.owner b (r.slots i).w0 = .cas new () := by
    intro k b rest u v hu hsh hs hk
    have hgive := Undo.step_done (by rw [hk, hty]; exact hu hk) hs
    simp only [UndoGives, hk, hty] at hgive
    obtain ⟨new, rfl, hb⟩ := hgive
    have hnil : Sat.flagsAt a i (.undo rest .typ) = [] := by
      refine Sat.flagsAt_nil fun x hx hxi => ?_
      have hlt := hsh.above hx
      have hkl := hsh.2.2 (k, b) (by simp)
      have hxl := hsh.2.2 x (List.mem_cons_of_mem _ hx)
      have hxk := hinj _ _ hkl hxl hk hxi
      omega
    refine ⟨?_, hnil, new, by rw [← hk]; rfl, hb⟩
    simp only [Sat.flagsAt, Sat.held, List.map_eq_nil_iff] at hnil
    simp [Sat.flagsAt, Sat.held, hk, hnil]
  -- a store to another slot
  have hother : ∀ {k : Nat} {v : Option U64} {f : U64 → SatWrite},
      (∀ u, ∃ tag, (f u).instr a = .word (a.handle k) (a.slotOf k) tag u) → a.slotOf k ≠ i →
      ∀ h tag new, satInstr a (v.map f) ≠ .word h i tag new := by
    intro k v f hfu hk h tag new he
    cases v with
    | none => cases he
    | some u =>
      obtain ⟨tag', hu⟩ := hfu u
      have he' : (f u).instr a = .word h i tag new := he
      rw [hu] at he'
      cases he'
      exact hk rfl
  cases hst with
  | anyMore | anyNext | anyFail | allMore | allUndo | undoMore =>
    exact .inl ⟨fun _ _ _ he => (by cases he), .inl rfl⟩
  | allFail | undoNil => exact .inl ⟨fun _ _ _ he => (by cases he), .inl rfl⟩
  | @anyWin k q v od hs =>
    by_cases hk : a.slotOf k = i
    · obtain ⟨new, hi, hb⟩ := htake hf hs hk
      exact .inr (.inl ⟨_, od, new, hi, hb, rfl, .inl ⟨_, rfl⟩⟩)
    · exact .inl ⟨hother (fun _ => ⟨_, rfl⟩) hk, .inr ⟨_, rfl⟩⟩
  | @allWin k acquired od b q v hs _ =>
    by_cases hk : a.slotOf k = i
    · obtain ⟨new, hi, hb⟩ := htake hf hs hk
      refine .inr (.inl ⟨_, b, new, hi, hb, Sat.flagsAt_nil fun x hx hxi => ?_, .inl ⟨_, rfl⟩⟩)
      have hlt := hsh.below hx
      have hxk := hinj _ _ (hlt.trans hsh.1) hsh.1 hxi hk
      omega
    · exact .inl ⟨hother (fun _ => ⟨_, rfl⟩) hk, .inr ⟨_, rfl⟩⟩
  | @allTake k acquired od b q v hs _ =>
    by_cases hk : a.slotOf k = i
    · obtain ⟨new, hi, hb⟩ := htake hf hs hk
      have hnil : Sat.flagsAt a i (.all k acquired od q) = [] := by
        refine Sat.flagsAt_nil fun x hx hxi => ?_
        have hlt := hsh.below hx
        have hxk := hinj _ _ (hlt.trans hsh.1) hsh.1 hxi hk
        omega
      refine .inr (.inl ⟨_, b, new, hi, hb, hnil, .inr ?_⟩)
      simp only [Sat.flagsAt, Sat.held, List.map_eq_nil_iff] at hnil
      simp [Out.flagsAt, Sat.flagsAt, Sat.held, List.filter_append, hnil, hk]
    · refine .inl ⟨hother (fun _ => ⟨_, rfl⟩) hk, .inl ?_⟩
      simp [Out.flagsAt, Sat.flagsAt, Sat.held, List.filter_append, hk]
  | @undoLast k b u v hs =>
    by_cases hk : a.slotOf k = i
    · obtain ⟨hone, _, new, hi, hb⟩ := hgive hf hsh hs hk
      exact .inr (.inr ⟨_, b, new, hi, hb, hone, rfl⟩)
    · refine .inl ⟨hother (fun _ => ⟨_, rfl⟩) hk, .inl ?_⟩
      simp [Out.flagsAt, Sat.flagsAt, Sat.held, hk]
  | @undoNext k b rest u v hs _ =>
    by_cases hk : a.slotOf k = i
    · obtain ⟨hone, hnil, new, hi, hb⟩ := hgive hf hsh hs hk
      exact .inr (.inr ⟨_, b, new, hi, hb, hone, hnil⟩)
    · refine .inl ⟨hother (fun _ => ⟨_, rfl⟩) hk, .inl ?_⟩
      simp [Out.flagsAt, Sat.flagsAt, Sat.held, hk]

end MutexSteps

section ThreadSteps

variable {T : Type} {sh : Shared T} {pid : U32} {o : Oracle} {pc pc' : Pc} {ins : Instr} {i : Nat}
  {g : U32}

/-- An attempt acts for the owner of its wait. -/
theorem Pc.actsFor_sat {c : WaitCtx} {p : Sat} (h : pc.sat? = some (c, p)) :
    pc.actsFor = some c.owner := by
  obtain ⟨q, rfl, _⟩ := Pc.sat_wait h
  rfl

/-- An attempt that has succeeded holds nothing tentatively any more. -/
theorem FollowsSat.report {c : WaitCtx} {x : Nat × Bool} (h : FollowsSat c pc' (.done (some x))) :
    pc'.flagsAt i = [] ∧ pc'.report ≠ none := by
  refine ⟨Pc.flagsAt_of_none h.1, ?_⟩
  rw [h.2]
  exact Option.some_ne_none _

/-- The tentative holds after a step of an attempt. -/
theorem FollowsSat.flagsAt {c : WaitCtx} {out : Out Sat (Option (Nat × Bool))}
    (h : FollowsSat c pc' out) : pc'.flagsAt i = out.flagsAt c.toWaitArgs i := by
  match out with
  | .more p' => exact Pc.flagsAt_of_some h
  | .done (some (k, od)) => exact Pc.flagsAt_of_none h.1
  | .done none => exact Pc.flagsAt_of_none h.1

/-- A step outside `try_satisfy` holds nothing before and after it. -/
theorem PcGo.flagsAt_noSat (hg : PcGo sh pid o pc ins pc') (hp : pc.sat? = none) :
    pc.flagsAt i = [] ∧ pc'.flagsAt i = [] := by
  refine ⟨Pc.flagsAt_of_none hp, ?_⟩
  rcases (hg.noSat hp).2 with h | ⟨c, h⟩
  · exact Pc.flagsAt_of_none h
  · rw [Pc.flagsAt_of_some h]
    exact Sat.flagsAt_start _ _ _

/-- **What a step of a thread does to a mutex.** -/
theorem PcGo.mutex (hg : PcGo sh pid o pc ins pc') (hs : Holds sh.region i g .mutex)
    (hv : pc.Valid i g .mutex) (hsh : pc.Shape) :
    MutexStep i (sh.region.slots i).w0 pc pc' ins := by
  cases hp : pc.sat? with
  | some x =>
    obtain ⟨c, p⟩ := x
    obtain ⟨w, out, hst, rfl, _, hf⟩ := hg.sat hp
    -- two positions with this slot are one, as the handles differ
    have hinj : ∀ j k, j < c.handles.length → k < c.handles.length → c.slotOf j = i →
        c.slotOf k = i → j = k := fun j k => Pc.Valid.slot_inj hp hv hsh
    have hacts : pc.actsFor = some c.owner := Pc.actsFor_sat hp
    have hbefore : pc.flagsAt i = p.flagsAt c.toWaitArgs i := Pc.flagsAt_of_some hp
    have hafter : pc'.flagsAt i = out.flagsAt c.toWaitArgs i := hf.flagsAt
    obtain ⟨q, rfl, hq⟩ := Pc.sat_wait hp
    rcases hst.mutex (hv.fits _ hq) hs.typ (hsh.2 _ hq) hinj with
      ⟨hne, hfl⟩ | ⟨h, od, new, hi, hb, hnil, hfl⟩ | ⟨h, od, new, hi, hb, hone, hnil⟩
    -- a step that stores nothing here keeps the flags, unless the wait is decided
    · refine .keep hne ?_
      rcases hfl with hfl | ⟨x, rfl⟩
      · rw [← hbefore, ← hafter] at hfl
        exact .inl hfl
      · exact .inr hf.report
    -- an acquire: the wait holds the mutex now, or is decided
    · rw [hi]
      rw [← hbefore] at hnil
      refine .take hacts hb hnil ?_
      rcases hfl with ⟨x, rfl⟩ | hone
      · exact .inl hf.report
      rw [← hafter] at hone
      refine .inr ⟨hone, ?_⟩
      match out with
      | .more p' => exact Pc.actsFor_sat hf
      | .done _ =>
        rw [hafter] at hone
        cases hone
    -- a rollback: the wait held the mutex and holds it no more
    · rw [hi]
      rw [← hbefore] at hone
      rw [← hafter] at hnil
      exact .give hacts hb hone hnil
  | none =>
    obtain ⟨hnil, hnil'⟩ := hg.flagsAt_noSat (i := i) hp
    by_cases hw : ∃ hd tag new, ins = .word hd i tag new
    · obtain ⟨hd, tag, new, rfl⟩ := hw
      rcases hg.word with ⟨op, cas, r, wake, rfl, hi, rfl, hb, _⟩ | ⟨prev, w, rfl, hi, _⟩ |
        ⟨c, q, p, rfl, hq⟩
      -- only an unlock and a kill store to a mutex besides
      · have hty : op.objType = .mutex := (hv hi.symm).2 rfl
        cases op with
        | mutexUnlock owner => exact .unlock rfl hb hnil hnil'
        | mutexKill owner => exact .kill rfl hb hnil hnil'
        | readMutex => cases hb
        | semRelease | readSem | eventSet | eventReset | readEvent => cases hty
      · have hty := ((hv hi.symm) rfl).2
        cases hty
      · simp [Pc.sat?, hq] at hp
    · refine .keep (fun hd tag new e => hw ⟨hd, tag, new, e⟩) (.inl ?_)
      rw [hnil, hnil']

/-- A step goes on acting for the same owner, or for nobody. -/
theorem PcGo.actsFor (hg : PcGo sh pid o pc ins pc') :
    pc'.actsFor = none ∨ pc'.actsFor = pc.actsFor := by
  cases hg with
  | op hg => cases hg <;> first | exact .inr rfl | exact .inl rfl
  | pulse hg => cases hg <;> exact .inl rfl
  | @wait c p _ _ hg =>
    match pc' with
    | .wait c' p' =>
      have ha : c'.owner = c.owner := congrArg WaitArgs.owner (hg.sameArgs rfl)
      exact .inr (by rw [Pc.actsFor, Pc.actsFor, ha])
    | .op _ _ _ =>
      rcases hg.args with ha | ha <;> cases ha
    | .idle | .done _ _ | .panicked | .pulse _ _ | .create _ _ | .close _ _ | .hold _ _ _
    | .sweepDead _ => exact .inl rfl
  | create hg => cases hg <;> exact .inl rfl
  | close hg => cases hg <;> exact .inl rfl
  | hold hg => cases hg <;> exact .inl rfl
  | sweepDead hg => cases hg <;> exact .inl rfl

/-- A thread never acts for owner 0. -/
theorem Pc.Shape.actsFor_ne_zero (h : pc.Shape) {owner : U32} (ha : pc.actsFor = some owner) :
    owner ≠ 0 := by
  cases pc with
  | wait c p =>
    cases ha
    exact (WaitArgs.valid_iff.mp h.1).1
  | op hd op p =>
    cases op with
    | mutexUnlock owner' =>
      cases ha
      simpa [Pc.Shape, Op.valid] using h
    | _ => cases ha
  | _ => cases ha

end ThreadSteps

/-! ### The invariant -/

section Invariant

variable {T : Type}

/-- The mutex word is well formed. -/
def WordOk (w : U64) : Prop :=
  (lo32 w = 0 ↔ (mutexCount w).toNat = 0) ∧ (mutexDead w = true → lo32 w = 0)

/-- No two live threads act for one owner. -/
def Excl (s : Sys T) : Prop :=
  ∀ t u owner, s.dead (s.threads t).pid = false → s.dead (s.threads u).pid = false →
    (s.threads t).pc.actsFor = some owner → (s.threads u).pc.actsFor = some owner → t = u

/-- Some live thread acting for `owner` holds slot `i` tentatively. -/
def Sys.HoldsFor (s : Sys T) (i : Nat) (owner : U32) (t : T) : Prop :=
  s.dead (s.threads t).pid = false ∧ (s.threads t).pc.flagsAt i ≠ [] ∧
    (s.threads t).pc.actsFor = some owner

instance (s : Sys T) (i : Nat) (owner : U32) (t : T) : Decidable (s.HoldsFor i owner t) :=
  inferInstanceAs (Decidable (_ ∧ _ ∧ _))

/-- A kill of the mutex in slot `i` finds no live wait of the killed owner holding it
    tentatively. -/
def KillSpares (i : Nat) (s : Sys T) : Label T → Prop
  | .instr _ _ (.word _ j (.op (.mutexKill owner)) _) => j = i → ∀ t, ¬ s.HoldsFor i owner t
  | _ => True

instance [Fintype T] (i : Nat) (s : Sys T) (l : Label T) : Decidable (KillSpares i s l) := by
  unfold KillSpares
  split <;> infer_instance

/-- The word of the mutex in slot `i` is well formed, and whoever holds it tentatively owns it. -/
structure MutexInv (i : Nat) (g : U32) (s : Sys T) : Prop where
  isOpen : OpenInv i g .mutex s
  shape : ShapeInv s
  word : WordOk (s.region.slots i).w0
  held : ∀ t, s.dead (s.threads t).pid = false → (s.threads t).pc.flagsAt i ≠ [] →
    (s.threads t).pc.actsFor = some (lo32 (s.region.slots i).w0)

/-- A tentative holder's mutex has a hold to give back. -/
theorem MutexInv.count_pos {i : Nat} {g : U32} {s : Sys T} (hi : MutexInv i g s) {t : T}
    {owner : U32} (ha : (s.threads t).pc.actsFor = some owner)
    (ho : lo32 (s.region.slots i).w0 = owner) : 0 < (mutexCount (s.region.slots i).w0).toNat := by
  have hne : owner ≠ 0 := (hi.shape t).actsFor_ne_zero ha
  have hiff := hi.word.1
  rw [ho] at hiff
  exact Nat.pos_of_ne_zero fun h0 => hne (hiff.mpr h0)

/-- Nobody else holds the mutex tentatively while the acting thread owns or takes it. -/
theorem MutexInv.nobody {i : Nat} {g : U32} {s : Sys T} (hi : MutexInv i g s) (hex : Excl s)
    {t : T} {owner : U32} (ha : s.dead (s.threads t).pid = false)
    (hacts : (s.threads t).pc.actsFor = some owner)
    (ho : lo32 (s.region.slots i).w0 = owner ∨ lo32 (s.region.slots i).w0 = 0) :
    ∀ u, u ≠ t → s.dead (s.threads u).pid = false → (s.threads u).pc.flagsAt i = [] := by
  intro u hut hua
  by_contra hfl
  have hheld := hi.held u hua hfl
  rcases ho with ho | ho
  · rw [ho] at hheld
    exact hut (hex u t owner hua ha hheld hacts)
  · rw [ho] at hheld
    exact (hi.shape u).actsFor_ne_zero hheld rfl

variable [DecidableEq T]

/-- **The invariant is kept** by every step under which the owners stay exclusive and a kill spares
    the tentative holders. -/
theorem MutexInv.step {i : Nat} {g : U32} {s s' : Sys T} {a : Action T} {l : Label T}
    (hi : MutexInv i g s) (h : s.step a = some (s', l)) (hu : Stays i s') (hex : Excl s)
    (hkill : KillSpares i s l) : MutexInv i g s' := by
  have hopen := hi.isOpen.step h hu
  have hshape := hi.shape.step h
  cases Sys.step_inv h with
  | @call t c ha hout =>
    refine ⟨hopen, hshape, hi.word, fun u hua hfl => ?_⟩
    rw [Sys.entered_pc] at hfl ⊢
    by_cases hut : u = t
    · subst hut
      rw [if_pos rfl, Pc.flagsAt_of_none (Pc.start_sat c)] at hfl
      exact absurd rfl hfl
    · rw [if_neg hut] at hfl ⊢
      exact hi.held u (by simpa using hua) hfl
  | @tick t o ins pc' ha ht =>
    have hg := tick_inv ht
    obtain ⟨hw, _⟩ := hi.isOpen.after_word ha hg hu
    have hms := hg.mutex hi.isOpen.holds (hi.isOpen.valid t) (hi.shape t)
    have hword := hi.word
    -- the claim about the other threads follows from the word or from their not holding it
    have hothers : (∀ u, u ≠ t → s.dead (s.threads u).pid = false →
          (s.threads u).pc.flagsAt i ≠ [] →
          (s.threads u).pc.actsFor = some (lo32 (ins.wordAfter i (s.region.slots i).w0))) →
        (pc'.flagsAt i ≠ [] → pc'.actsFor = some (lo32 (ins.wordAfter i (s.region.slots i).w0))) →
        ∀ u, (s.after t ins pc').dead ((s.after t ins pc').threads u).pid = false →
          ((s.after t ins pc').threads u).pc.flagsAt i ≠ [] →
          ((s.after t ins pc').threads u).pc.actsFor =
            some (lo32 (((s.after t ins pc').region.slots i).w0)) := by
      intro hoth hown u hua hfl
      rw [hw]
      rw [Sys.after_dead, Sys.after_pid] at hua
      rw [Sys.after_pc] at hfl ⊢
      by_cases hut : u = t
      · rw [if_pos hut] at hfl ⊢
        exact hown hfl
      · rw [if_neg hut] at hfl ⊢
        exact hoth u hut hua hfl
    cases hms with
    | keep hne hfl =>
      rw [Instr.wordAfter_of_ne hne] at hw hothers
      refine ⟨hopen, hshape, by rw [hw]; exact hword, hothers (fun u _ => hi.held u) ?_⟩
      intro hfl'
      rcases hfl with hfl | hfl
      · have hheld := hi.held t ha (by rwa [← hfl])
        rcases hg.actsFor with hn | he
        · -- a thread that still holds something is still in its wait
          exfalso
          rw [Pc.flagsAt] at hfl'
          cases hsat : pc'.sat? with
          | none => simp [hsat] at hfl'
          | some x => rw [Pc.actsFor_sat (c := x.1) (p := x.2) hsat] at hn; cases hn
        · rw [he]
          exact hheld
      · exact absurd hfl.1 hfl'
    | @take hd owner od new hacts hb hnil hfl =>
      obtain ⟨hlo, hcnt, hcase⟩ := acquireMutex_cas hb
      have hne0 : owner ≠ 0 := (hi.shape t).actsFor_ne_zero hacts
      simp only [Instr.wordAfter, if_true] at hw hothers
      have hfree : lo32 (s.region.slots i).w0 = owner ∨ lo32 (s.region.slots i).w0 = 0 :=
        hcase.elim (fun h => .inr h.1) (fun h => .inl h.1)
      refine ⟨hopen, hshape, ?_, hothers ?_ ?_⟩
      · rw [hw]
        refine ⟨?_, ?_⟩
        · rw [hlo, hcnt]
          exact ⟨fun h => absurd h hne0, fun h => by omega⟩
        · intro hd'
          rcases hcase with ⟨_, _, hd0⟩ | ⟨_, h0, _, hd0⟩
          · rw [hd0] at hd'
            cases hd'
          · rw [hd0] at hd'
            exact absurd (hword.2 hd') h0
      · intro u hut hua hfl
        exact absurd (hi.nobody hex ha hacts hfree u hut hua) hfl
      · intro hfl'
        rcases hfl with ⟨hfl, _⟩ | ⟨_, hacts'⟩
        · exact absurd hfl hfl'
        · rw [hlo]
          exact hacts'
    | @give hd owner od new hacts hb hone hnil =>
      have hlo := hi.held t ha (by rw [hone]; exact List.cons_ne_nil _ _)
      rw [hacts, Option.some.injEq] at hlo
      have hpos := hi.count_pos hacts hlo.symm
      obtain ⟨hcnt, hcase⟩ := rollbackMutex_cas hb hpos
      have hne0 : owner ≠ 0 := (hi.shape t).actsFor_ne_zero hacts
      simp only [Instr.wordAfter, if_true] at hw hothers
      refine ⟨hopen, hshape, ?_, hothers ?_ (fun hfl' => absurd hnil hfl')⟩
      · rw [hw]
        rcases hcase with ⟨h1, hl0, _⟩ | ⟨h1, hlo', hd'⟩
        · exact ⟨⟨fun _ => by omega, fun _ => hl0⟩, fun _ => hl0⟩
        · refine ⟨⟨fun h => absurd (hlo'.symm.trans h) hne0, fun h => by omega⟩, fun hdead => ?_⟩
          rw [hd'] at hdead
          exact absurd (hlo.trans (hword.2 hdead)) hne0
      · intro u hut hua hfl
        exact absurd (hi.nobody hex ha hacts (.inl hlo.symm) u hut hua) hfl
    | @unlock hd owner new r wake hacts hb hnil hnil' =>
      obtain ⟨hlo, _, hdead, _, hlo', hcnt⟩ := mutexUnlock_cas hb
      have hpos := hi.count_pos hacts hlo
      have hcnt := hcnt hpos
      have hne0 : owner ≠ 0 := (hi.shape t).actsFor_ne_zero hacts
      simp only [Instr.wordAfter, if_true] at hw hothers
      refine ⟨hopen, hshape, ?_, hothers ?_ (fun hfl' => absurd hnil' hfl')⟩
      · rw [hw]
        have h1 := count_eq_one_iff (s.region.slots i).w0
        refine ⟨?_, ?_⟩
        · rw [hlo']
          split <;> rename_i hc
          · have hc' := h1.mp hc
            exact ⟨fun _ => by omega, fun _ => rfl⟩
          · have hc' : ¬ (mutexCount (s.region.slots i).w0).toNat = 1 := fun e => hc (h1.mpr e)
            exact ⟨fun h => absurd h hne0, fun h => by omega⟩
        · intro hd'
          rw [hdead] at hd'
          exact absurd (hlo.symm.trans (hword.2 hd')) hne0
      · intro u hut hua hfl
        exact absurd (hi.nobody hex ha hacts (.inl hlo) u hut hua) hfl
    | @kill hd owner new r wake hk hb hnil hnil' =>
      obtain ⟨hlo, hlo', hcnt, _⟩ := mutexKill_cas hb
      simp only [Instr.wordAfter, if_true] at hw hothers
      refine ⟨hopen, hshape, ?_, hothers ?_ (fun hfl' => absurd hnil' hfl')⟩
      · rw [hw]
        exact ⟨⟨fun _ => hcnt, fun _ => hlo'⟩, fun _ => hlo'⟩
      · intro u hut hua hfl
        have hheld := hi.held u hua hfl
        rw [hlo] at hheld
        exact absurd ⟨hua, hfl, hheld⟩ (hkill rfl u)
  | @die pid =>
    refine ⟨hopen, hshape, hi.word, fun u hua hfl => hi.held u ?_ hfl⟩
    rw [Sys.died_dead, Sys.died_threads, Bool.or_eq_false_iff] at hua
    exact hua.2

end Invariant

/-! ### Kills at any moment -/

section Kills

variable {T : Type} [DecidableEq T]

/-- Each owner id belongs to one thread, which alone passes it to waits and to `mutex_unlock`. -/
def Owners (own : U32 → T) : Label T → Prop
  | .call t c => ∀ owner, (Pc.start c).actsFor = some owner → own owner = t
  | _ => True

/-- A thread acts for its own ids only. -/
def OwnInv (own : U32 → T) (s : Sys T) : Prop :=
  ∀ t owner, (s.threads t).pc.actsFor = some owner → own owner = t

omit [DecidableEq T] in
/-- Each owner has one thread. -/
theorem OwnInv.excl {own : U32 → T} {s : Sys T} (h : OwnInv own s) : Excl s :=
  fun t u owner _ _ ht hu => (h t owner ht).symm.trans (h u owner hu)

omit [DecidableEq T] in
/-- At rest nobody acts for anybody. -/
theorem OwnInv.of_idle {own : U32 → T} {s : Sys T} (hidle : s.Idle) : OwnInv own s := by
  intro t owner ha
  rcases Pc.outside_cases (hidle t) with hpc | ⟨c, r, hpc⟩ <;> rw [hpc] at ha <;> cases ha

/-- Calls by the owners' own threads stay with them. -/
theorem OwnInv.step {own : U32 → T} {s s' : Sys T} {a : Action T} {l : Label T}
    (hi : OwnInv own s) (h : s.step a = some (s', l)) (hok : Owners own l) : OwnInv own s' := by
  cases Sys.step_inv h with
  | @call t c ha hout =>
    intro u owner hu
    rw [Sys.entered_pc] at hu
    by_cases hut : u = t
    · subst hut
      rw [if_pos rfl] at hu
      exact hok owner hu
    · rw [if_neg hut] at hu
      exact hi u owner hu
  | @tick t o ins pc' ha ht =>
    intro u owner hu
    rw [Sys.after_pc] at hu
    by_cases hut : u = t
    · subst hut
      rw [if_pos rfl] at hu
      rcases (tick_inv ht).actsFor with hn | he
      · rw [hn] at hu
        cases hu
      · exact hi u owner (he.symm.trans hu)
    · rw [if_neg hut] at hu
      exact hi u owner hu
  | die => exact hi

omit [DecidableEq T] in
/-- The invariant holds of a well-formed mutex at rest. -/
theorem MutexInv.of_start {i : Nat} {owner count : U32} {s : Sys T} (hidle : s.Idle)
    (hu : (s.region.slots i).state = .used) (hty : (s.region.slots i).objType = .mutex)
    (hw : (s.region.slots i).w0 = packMutex owner count false)
    (hoc : owner = 0 ↔ count = 0) (hle : count.toNat ≤ maxRecursion.toNat) :
    MutexInv i (s.region.slots i).generation s := by
  have hopen := OpenInv.of_idle hidle hu
  rw [hty] at hopen
  refine ⟨hopen, ShapeInv.of_idle hidle, ?_, fun t _ hfl => ?_⟩
  · rw [hw]
    refine ⟨?_, fun hd => ?_⟩
    · rw [lo32_packMutex, toNat_mutexCount_packMutex hle, hoc]
      exact ⟨fun h => by rw [h]; rfl, fun h => BitVec.eq_of_toNat_eq h⟩
    · rw [mutexDead_packMutex] at hd
      cases hd
  · rcases Pc.outside_cases (hidle t) with hpc | ⟨c, r, hpc⟩ <;> rw [hpc] at hfl <;>
      exact absurd rfl hfl

/-- **Kills that spare the tentative holders are safe.** In every run that starts with no call under
    way: while a mutex stays open and each owner id belongs to one thread, its word is well formed
    in every reachable state, every unlock and every rollback finds a hold to take, and a rollback
    only modifies its own owner's mutex. -/
theorem mutex_word_ok {i : Nat} {owner count : U32} {own : U32 → T} {s₀ s : Sys T}
    {h : List (Label T)} (hidle : s₀.Idle) (hu : (s₀.region.slots i).state = .used)
    (hty : (s₀.region.slots i).objType = .mutex)
    (hw : (s₀.region.slots i).w0 = packMutex owner count false)
    (hoc : owner = 0 ↔ count = 0) (hle : count.toNat ≤ maxRecursion.toNat)
    (hr : Run Sys.step (fun s l s' => Stays i s' ∧ Owners own l ∧ KillSpares i s l) s₀ h s) :
    ((lo32 (s.region.slots i).w0 = 0 ↔ (mutexCount (s.region.slots i).w0).toNat = 0) ∧
      (mutexDead (s.region.slots i).w0 = true → lo32 (s.region.slots i).w0 = 0)) ∧
    ∀ a s' t pid hd tag new, s.step a = some (s', .instr t pid (.word hd i tag new)) →
      (∀ x, tag = .op (.mutexUnlock x) → 0 < (mutexCount (s.region.slots i).w0).toNat) ∧
      ∀ x, tag = .rollback x → lo32 (s.region.slots i).w0 = x ∧
        0 < (mutexCount (s.region.slots i).w0).toNat := by
  have hinv : MutexInv i (s₀.region.slots i).generation s ∧ OwnInv own s := by
    refine hr.state_invariant (I := fun s => MutexInv i _ s ∧ OwnInv own s)
      ⟨MutexInv.of_start hidle hu hty hw hoc hle, OwnInv.of_idle hidle⟩ ?_
    rintro s a s' l ⟨hm, ho⟩ hs ⟨hst, hown, hkill⟩
    exact ⟨hm.step hs hst ho.excl hkill, ho.step hs hown⟩
  obtain ⟨hm, _⟩ := hinv
  refine ⟨hm.word, ?_⟩
  intro a s' t pid hd tag new hstep
  cases Sys.step_inv hstep with
  | @tick t o ins pc' ha ht =>
    cases (tick_inv ht).mutex hm.isOpen.holds (hm.isOpen.valid t) (hm.shape t) with
    | keep hne => exact absurd rfl (hne _ _ _)
    | take | kill => exact ⟨fun x he => (by cases he), fun x he => (by cases he)⟩
    | give hacts hb hone =>
      refine ⟨fun x he => (by cases he), ?_⟩
      rintro x ⟨⟩
      have hlo := hm.held t ha (by rw [hone]; exact List.cons_ne_nil _ _)
      rw [hacts, Option.some.injEq] at hlo
      exact ⟨hlo.symm, hm.count_pos hacts hlo.symm⟩
    | unlock hacts hb =>
      refine ⟨?_, fun x he => (by cases he)⟩
      rintro x ⟨⟩
      exact hm.count_pos hacts (mutexUnlock_cas hb).1

end Kills

instance {T : Type} [DecidableEq T] (own : U32 → T) : (l : Label T) → Decidable (Owners own l)
  | .call t c =>
    match h : (Pc.start c).actsFor with
    | none => isTrue fun owner ho => by rw [h] at ho; cases ho
    | some x => decidable_of_iff (own x = t)
        ⟨fun hx owner ho => by rw [h] at ho; cases ho; exact hx, fun hall => hall x h⟩
  | .instr _ _ _ => inferInstanceAs (Decidable True)
  | .die _ => inferInstanceAs (Decidable True)

/-- A mutex in slot 1, held `count` times by `owner`, and an unsignaled event in slot 2. -/
def mutexDemo (owner count : U32) : Sys (Fin 2) :=
  .rest ((Region.init.created 1 (.mutex owner count) 7).created 2 (.event false false) 7) fun _ => 7

/-- The kill of owner 5's mutex by thread 1. -/
def killPlain : List (Action (Fin 2)) :=
  .call 1 (.op 1 (.mutexKill 5)) :: List.replicate 5 (.tick 1 {})

/-- Thread 0 polls for both objects as owner 5, takes the mutex and gives it back; then it polls for
    the mutex alone, and owner 5 is killed. -/
def holdThenKill : List (Action (Fin 2)) :=
  .call 0 (.wait { handles := [1, 2], owner := 5, all := true, alert := 0 } .zero) ::
    List.replicate 16 (.tick 0 {}) ++
  .call 0 (.wait { handles := [1], owner := 5, all := false, alert := 0 } .zero) ::
    List.replicate 6 (.tick 0 {}) ++
  killPlain

/-- The label rolls slot `i` back. -/
def Label.givesBack (i : Nat) : Label T → Bool
  | .instr _ _ (.word _ j (.rollback _) _) => decide (j = i)
  | _ => false

/-- The run has a rollback of the mutex and its kill. -/
theorem mutex_word_ok_holdThenKill :
    ∃ h s, Run Sys.step (fun s l s' => Stays 1 s' ∧ Owners (fun _ => (0 : Fin 2)) l ∧
        KillSpares 1 s l) (mutexDemo 0 0) h s ∧ h.any (Label.givesBack 1) = true ∧
      mutexDead (s.region.slots 1).w0 = true ∧ lo32 (s.region.slots 1).w0 = 0 := by
  obtain ⟨h, s, hr, hback, hdead⟩ := exists_history_of_exec Sys.step
    (fun s l s' => Stays 1 s' ∧ Owners (fun _ => (0 : Fin 2)) l ∧ KillSpares 1 s l)
    (mutexDemo 0 0)
    (P := fun h s => h.any (Label.givesBack 1) = true ∧ mutexDead (s.region.slots 1).w0 = true)
    holdThenKill (by decide +kernel)
  have hok := mutex_word_ok (fun _ => rfl) (by decide) (by decide)
    (show ((mutexDemo 0 0).region.slots 1).w0 = packMutex 0 0 false by decide) (by decide)
    (by decide) hr
  exact ⟨h, s, hr, hback, hdead, hok.1.2 hdead⟩

/-- Thread 0 polls for both objects as owner 5 and takes the mutex; thread 1 kills owner 5's mutex;
    then thread 0 finds the event unsignaled and gives the mutex back. -/
def killRace : List (Action (Fin 2)) :=
  .call 0 (.wait { handles := [1, 2], owner := 5, all := true, alert := 0 } .zero) ::
    List.replicate 10 (.tick 0 {}) ++
  killPlain ++ List.replicate 6 (.tick 0 {})

/-- The calls of the race. -/
def killCalls : Fin 2 → Call → Bool
  | 0, .wait _ _ | 1, .op _ (.mutexKill _) => true
  | _, _ => false

/-- The rollback finds no hold to take: the count wraps to `0x7fffffff` and the mutex ends up owned
    and abandoned at once. -/
theorem mutex_kill_underflows :
    (mutexDemo 0 0).Idle ∧ ((mutexDemo 0 0).region.slots 1).state = .used ∧
      ((mutexDemo 0 0).region.slots 1).objType = .mutex ∧
      ((mutexDemo 0 0).region.slots 1).w0 = packMutex 0 0 false ∧
      ∃ h s, Run Sys.step (fun _ l s' => Stays 1 s' ∧ Owners (fun _ => (0 : Fin 2)) l ∧
          Only (fun t c => killCalls t c = true) l) (mutexDemo 0 0) h s ∧
        lo32 (s.region.slots 1).w0 = 5 ∧ mutexCount (s.region.slots 1).w0 = 0x7fffffff ∧
        mutexDead (s.region.slots 1).w0 = true := by
  refine ⟨fun _ => rfl, by decide, by decide, by decide, ?_⟩
  exact exists_run_of_exec _ _ _ killRace (by decide +kernel)

end Ntsync
