import Mathlib
import Ntsync.System

namespace Ntsync

open Words

/-!
# Running `try_satisfy`

`Pc.sat?` is the `try_satisfy` a thread is in the middle of, whichever phase of the wait called
it (the fast path, the locked pass or the spin).

* `Sat.step_inv` — the cases of one step of the run, with the single accesses of `try_acquire` and
  `rollback_acquire` inverted per object type (`Acq.step_take`, `Undo.step_done`);
* `Sat.held` — what a wait-all holds tentatively.
-/

/-! ### The compare-and-swap loop -/

section CasLoop

variable {α : Type} {w0 : U64} {body : U64 → Pass α} {c : Option U64}

/-- A CAS loop that goes on has stored nothing. -/
theorem casStep_more {w : Option U64} {c' : Option U64}
    (h : casStep w0 body c = (w, .more c')) : w = none := by
  unfold casStep at h
  split at h
  · split at h <;> cases h
    rfl
  · split at h
    · split at h <;> cases h
      rfl
    · cases h
      rfl

/-- The loop returns either from a decision about the loaded word, or from a swap on the very word
    it decided about. -/
theorem casStep_done {w : Option U64} {a : α} (h : casStep w0 body c = (w, .done a)) :
    (w = none ∧ body w0 = .ret a) ∨ ∃ new, w = some new ∧ body w0 = .cas new a := by
  unfold casStep at h
  split at h
  · split at h <;> cases h
    exact .inl ⟨rfl, by assumption⟩
  · split at h
    · rename_i hw
      subst hw
      split at h <;> cases h
      exact .inr ⟨_, rfl, by assumption⟩
    · cases h

end CasLoop

/-! ### `try_acquire` and `rollback_acquire` -/

/-- The object type whose branch of `try_acquire` is running. -/
def Acq.fits (ty : ObjType) : Acq → Prop
  | .typ => True
  | .sem _ => ty = .sem
  | .mutex _ => ty = .mutex
  | .event | .auto _ | .pulse => ty = .event

/-- The object type whose branch of `rollback_acquire` is running. -/
def Undo.fits (ty : ObjType) : Undo → Prop
  | .typ => True
  | .sem _ => ty = .sem
  | .mutex _ => ty = .mutex
  | .event _ => ty = .event

section AcqStep

variable {s : Slot} {owner : U32} {seq : U64} {q : Acq} {w : Option U64}

/-- A `try_acquire` that goes on has stored nothing and stays in its branch. -/
theorem Acq.step_more {q' : Acq} (hf : q.fits s.objType)
    (h : q.step s owner seq = (w, .more q')) : w = none ∧ q'.fits s.objType := by
  cases q with
  | typ =>
    simp only [Acq.step] at h
    split at h <;> cases h <;> exact ⟨rfl, by assumption⟩
  | sem c =>
    simp only [Acq.step] at h
    split at h <;> cases h
    exact ⟨casStep_more (by assumption), hf⟩
  | mutex c =>
    simp only [Acq.step] at h
    split at h <;> cases h
    exact ⟨casStep_more (by assumption), hf⟩
  | event =>
    simp only [Acq.step] at h
    split at h
    · split at h <;> cases h
      exact ⟨rfl, hf⟩
    · cases h
      exact ⟨rfl, hf⟩
  | auto c =>
    simp only [Acq.step] at h
    split at h
    · rename_i hc
      cases h
      exact ⟨casStep_more hc, hf⟩
    · cases h
    · rename_i hc
      cases h
      rcases casStep_done hc with ⟨rfl, _⟩ | ⟨new, rfl, hb⟩
      · exact ⟨rfl, hf⟩
      · unfold acquireAuto at hb
        split at hb <;> cases hb
  | pulse => cases h

/-- What an attempt that fails has seen of the object. -/
theorem Acq.step_fail (hf : q.fits s.objType) (h : q.step s owner seq = (w, .done none)) :
    w = none ∧ (q = .pulse ∧ s.d = seq ∨ isLocked s owner seq = false) := by
  cases q with
  | typ =>
    simp only [Acq.step] at h
    split at h <;> cases h
    -- neither reserved nor unset slots pass `is_locked`
    refine ⟨rfl, .inr ?_⟩
    unfold isLocked
    split <;> simp_all
  | sem c =>
    simp only [Acq.step] at h
    split at h <;> cases h
    rename_i hc
    rcases casStep_done hc with ⟨rfl, hb⟩ | ⟨new, rfl, hb⟩
    -- `acquire_sem` gives up exactly on an empty count, which is what the peek reads
    · unfold acquireSem at hb
      split at hb <;> cases hb
      rename_i hlo
      have hty : s.objType = .sem := hf
      exact ⟨rfl, .inr (by simp [isLocked, hty, hlo])⟩
    · unfold acquireSem at hb
      split at hb <;> cases hb
  | mutex c =>
    simp only [Acq.step] at h
    split at h <;> cases h
    rename_i hc
    have hty : s.objType = .mutex := hf
    rcases casStep_done hc with ⟨rfl, hb⟩ | ⟨new, rfl, hb⟩
    -- a full recursion count, or somebody else's word: `is_locked` fails on both
    · simp only [acquireMutex] at hb
      refine ⟨rfl, .inr ?_⟩
      split at hb
      · rename_i hmax
        have hnot : ¬ (mutexCount s.w0).toNat < maxRecursion.toNat := by omega
        simp [isLocked, hty, hnot]
      · split at hb
        · cases hb
        · split at hb
          · cases hb
          · rename_i h0 hne
            have h0' : ¬ lo32 s.w0 = 0#32 := h0
            simp [isLocked, hty, h0', hne]
    · simp only [acquireMutex] at hb
      split at hb
      · cases hb
      · split at hb
        · cases hb
        · split at hb <;> cases hb
  | event =>
    simp only [Acq.step] at h
    -- an event that is not set goes on to the pulse counter, it does not fail here
    split at h
    · split at h <;> cases h
    · cases h
  | auto c =>
    simp only [Acq.step] at h
    -- a lost bit sends the attempt to the pulse counter as well
    split at h <;> cases h
  | pulse =>
    simp only [Acq.step] at h
    split at h <;> cases h
    -- the counter has not moved since the snapshot
    rename_i hd
    exact ⟨rfl, .inl ⟨rfl, by simpa using hd⟩⟩

/-- What an attempt that succeeds stores, per object type. -/
def AcqTakes (s : Slot) (owner : U32) (seq : U64) (od : Bool) (w : Option U64) : Prop :=
  match s.objType with
  | .sem => lo32 s.w0 ≠ 0 ∧ od = false ∧ w = some (packSem (lo32 s.w0 - 1) (hi32 s.w0))
  | .mutex => ∃ new, w = some new ∧ acquireMutex owner s.w0 = .cas new (some od)
  | .event =>
    od = false ∧ (w = none ∧ (lo32 s.w0 ≠ 0 ∧ s.w0 >>> 32 ≠ 0 ∨ s.d ≠ seq) ∨
      w = some (s.w0 &&& ~~~1) ∧ lo32 s.w0 ≠ 0)
  | _ => False

/-- **What a successful `try_acquire` takes.** -/
theorem Acq.step_take {od : Bool} (hf : q.fits s.objType)
    (h : q.step s owner seq = (w, .done (some od))) : AcqTakes s owner seq od w := by
  unfold AcqTakes
  cases q with
  | typ =>
    simp only [Acq.step] at h
    split at h <;> cases h
  | sem c =>
    simp only [Acq.step] at h
    split at h <;> cases h
    rename_i hc
    have hty : s.objType = .sem := hf
    rw [hty]
    rcases casStep_done hc with ⟨rfl, hb⟩ | ⟨new, rfl, hb⟩
    · unfold acquireSem at hb
      split at hb <;> cases hb
    · unfold acquireSem at hb
      split at hb <;> cases hb
      exact ⟨by assumption, rfl, rfl⟩
  | mutex c =>
    simp only [Acq.step] at h
    split at h <;> cases h
    rename_i hc
    have hty : s.objType = .mutex := hf
    rw [hty]
    rcases casStep_done hc with ⟨rfl, hb⟩ | ⟨new, rfl, hb⟩
    · simp only [acquireMutex] at hb
      split at hb
      · cases hb
      · split at hb
        · cases hb
        · split at hb <;> cases hb
    · exact ⟨new, rfl, hb⟩
  | event =>
    simp only [Acq.step] at h
    have hty : s.objType = .event := hf
    rw [hty]
    -- a manual-reset event is only read
    split at h
    · split at h <;> cases h
      exact ⟨rfl, .inl ⟨rfl, .inl ⟨by assumption, by assumption⟩⟩⟩
    · cases h
  | auto c =>
    simp only [Acq.step] at h
    have hty : s.objType = .event := hf
    rw [hty]
    split at h <;> cases h
    rename_i hc
    rcases casStep_done hc with ⟨rfl, hb⟩ | ⟨new, rfl, hb⟩
    · unfold acquireAuto at hb
      split at hb <;> cases hb
    -- winning the bit of an auto-reset event is its one store
    · unfold acquireAuto at hb
      split at hb <;> cases hb
      exact ⟨rfl, .inr ⟨rfl, by assumption⟩⟩
  | pulse =>
    simp only [Acq.step] at h
    have hty : s.objType = .event := hf
    rw [hty]
    split at h <;> cases h
    exact ⟨rfl, .inl ⟨rfl, .inr (by assumption)⟩⟩

end AcqStep

section UndoStep

variable {s : Slot} {owner : U32} {od : Bool} {u : Undo} {w : Option U64}

/-- A rollback that goes on has stored nothing and stays in its branch. -/
theorem Undo.step_more {u' : Undo} (hf : u.fits s.objType)
    (h : u.step s owner od = (w, .more u')) : w = none ∧ u'.fits s.objType := by
  cases u with
  | typ =>
    simp only [Undo.step] at h
    split at h <;> cases h <;> exact ⟨rfl, by assumption⟩
  | sem c | mutex c | event c =>
    simp only [Undo.step] at h
    split at h <;> cases h
    exact ⟨casStep_more (by assumption), hf⟩

/-- What a rollback stores, per object type. -/
def UndoGives (s : Slot) (owner : U32) (od : Bool) (w : Option U64) : Prop :=
  match s.objType with
  | .sem => w = some (packSem (lo32 s.w0 + 1) (hi32 s.w0))
  | .mutex => ∃ new, w = some new ∧ rollbackMutex owner od s.w0 = .cas new ()
  | .event => w = none ∨ (w = some (s.w0 ||| 1) ∧ s.w0 >>> 32 = 0 ∧ lo32 s.w0 = 0)
  | _ => w = none

/-- **What `rollback_acquire` gives back.** -/
theorem Undo.step_done (hf : u.fits s.objType) (h : u.step s owner od = (w, .done ())) :
    UndoGives s owner od w := by
  unfold UndoGives
  cases u with
  | typ =>
    cases hty : s.objType with
    | sem | mutex | event =>
      simp only [Undo.step, hty] at h
      cases h
    | unset | reserved =>
      simp only [Undo.step, hty] at h
      cases h
      rfl
  | sem c =>
    simp only [Undo.step] at h
    split at h <;> cases h
    rename_i hc
    have hty : s.objType = .sem := hf
    rw [hty]
    rcases casStep_done hc with ⟨rfl, hb⟩ | ⟨new, rfl, hb⟩
    · cases hb
    · cases hb
      rfl
  | mutex c =>
    simp only [Undo.step] at h
    split at h <;> cases h
    rename_i hc
    have hty : s.objType = .mutex := hf
    rw [hty]
    rcases casStep_done hc with ⟨rfl, hb⟩ | ⟨new, rfl, hb⟩
    · simp only [rollbackMutex] at hb
      split at hb <;> cases hb
    · exact ⟨new, rfl, hb⟩
  | event c =>
    simp only [Undo.step] at h
    split at h <;> cases h
    rename_i hc
    have hty : s.objType = .event := hf
    rw [hty]
    rcases casStep_done hc with ⟨rfl, hb⟩ | ⟨new, rfl, hb⟩
    -- somebody else set the event meanwhile: nothing is stored
    · exact .inl rfl
    · unfold rollbackEvent at hb
      split at hb <;> cases hb
      rename_i hz
      exact .inr ⟨rfl, hz⟩

end UndoStep

/-! ### One step of `try_satisfy` -/

/-- The positions a wait-all holds tentatively, with what each acquire said about a dead owner. -/
def Sat.held : Sat → List (Nat × Bool)
  | .any _ _ => []
  | .all _ acquired _ _ => acquired
  | .undo todo _ => todo

/-- The running branch is the one for the object in slot `i`, of type `ty`. -/
def Sat.Fits (a : WaitArgs) (i : Nat) (ty : ObjType) : Sat → Prop
  | .any k q | .all k _ _ q => a.slotOf k = i → q.fits ty
  | .undo [] _ => True
  | .undo ((k, _) :: _) u => a.slotOf k = i → u.fits ty

/-- An attempt starts in no branch. -/
theorem Sat.fits_start (a : WaitArgs) (i : Nat) (ty : ObjType) (all : Bool) :
    (Sat.start all).Fits a i ty := by
  cases all <;> exact fun _ => trivial

section SatStep

variable (r : Region) (a : WaitArgs) (seqs : Nat → U64)

/-- The cases of one step: what `try_acquire` or `rollback_acquire` did, and how the loop of
    `try_satisfy` goes on. -/
inductive SatStep : Sat → Option SatWrite → Out Sat (Option (Nat × Bool)) → Prop
  | anyMore {k : Nat} {q q' : Acq} {w : Option U64} :
      q.step (r.slots (a.slotOf k)) a.owner (seqs k) = (w, .more q') →
      SatStep (.any k q) none (.more (.any k q'))
  | anyWin {k : Nat} {q : Acq} {w : Option U64} {od : Bool} :
      q.step (r.slots (a.slotOf k)) a.owner (seqs k) = (w, .done (some od)) →
      SatStep (.any k q) (w.map (.acquire k od)) (.done (some (k, od)))
  | anyNext {k : Nat} {q : Acq} {w : Option U64} :
      q.step (r.slots (a.slotOf k)) a.owner (seqs k) = (w, .done none) →
      k + 1 < a.handles.length → SatStep (.any k q) none (.more (.any (k + 1) .typ))
  | anyFail {k : Nat} {q : Acq} {w : Option U64} :
      q.step (r.slots (a.slotOf k)) a.owner (seqs k) = (w, .done none) →
      ¬ k + 1 < a.handles.length → SatStep (.any k q) none (.done none)
  | allMore {k : Nat} {acquired : List (Nat × Bool)} {od : Bool} {q q' : Acq} {w : Option U64} :
      q.step (r.slots (a.slotOf k)) a.owner (seqs k) = (w, .more q') →
      SatStep (.all k acquired od q) none (.more (.all k acquired od q'))
  | allTake {k : Nat} {acquired : List (Nat × Bool)} {od b : Bool} {q : Acq} {w : Option U64} :
      q.step (r.slots (a.slotOf k)) a.owner (seqs k) = (w, .done (some b)) →
      k + 1 < a.handles.length →
      SatStep (.all k acquired od q) (w.map (.acquire k b))
        (.more (.all (k + 1) (acquired ++ [(k, b)]) (od || b) .typ))
  | allWin {k : Nat} {acquired : List (Nat × Bool)} {od b : Bool} {q : Acq} {w : Option U64} :
      q.step (r.slots (a.slotOf k)) a.owner (seqs k) = (w, .done (some b)) →
      ¬ k + 1 < a.handles.length →
      SatStep (.all k acquired od q) (w.map (.acquire k b)) (.done (some (0, od || b)))
  | allFail {k : Nat} {od : Bool} {q : Acq} {w : Option U64} :
      q.step (r.slots (a.slotOf k)) a.owner (seqs k) = (w, .done none) →
      SatStep (.all k [] od q) none (.done none)
  | allUndo {k : Nat} {acquired : List (Nat × Bool)} {od : Bool} {q : Acq} {w : Option U64} :
      q.step (r.slots (a.slotOf k)) a.owner (seqs k) = (w, .done none) →
      acquired ≠ [] → SatStep (.all k acquired od q) none (.more (.undo acquired .typ))
  | undoNil {u : Undo} : SatStep (.undo [] u) none (.done none)
  | undoMore {k : Nat} {b : Bool} {rest : List (Nat × Bool)} {u u' : Undo} {w : Option U64} :
      u.step (r.slots (a.slotOf k)) a.owner b = (w, .more u') →
      SatStep (.undo ((k, b) :: rest) u) none (.more (.undo ((k, b) :: rest) u'))
  | undoLast {k : Nat} {b : Bool} {u : Undo} {w : Option U64} :
      u.step (r.slots (a.slotOf k)) a.owner b = (w, .done ()) →
      SatStep (.undo [(k, b)] u) (w.map (.rollback k)) (.done none)
  | undoNext {k : Nat} {b : Bool} {rest : List (Nat × Bool)} {u : Undo} {w : Option U64} :
      u.step (r.slots (a.slotOf k)) a.owner b = (w, .done ()) → rest ≠ [] →
      SatStep (.undo ((k, b) :: rest) u) (w.map (.rollback k)) (.more (.undo rest .typ))

variable {r a seqs}

/-- **What a step of `try_satisfy` is.** -/
theorem Sat.step_inv {p : Sat} {w : Option SatWrite} {out : Out Sat (Option (Nat × Bool))}
    (h : p.step r a seqs = (w, out)) : SatStep r a seqs p w out := by
  cases p with
  | any k q =>
    simp only [Sat.step] at h
    split at h
    · cases h
      exact .anyMore (by assumption)
    · cases h
      exact .anyWin (by assumption)
    · split at h <;> cases h
      · exact .anyNext (by assumption) (by assumption)
      · exact .anyFail (by assumption) (by assumption)
  | all k acquired od q =>
    simp only [Sat.step] at h
    split at h
    · cases h
      exact .allMore (by assumption)
    · split at h <;> cases h
      · exact .allTake (by assumption) (by assumption)
      · exact .allWin (by assumption) (by assumption)
    · split at h <;> cases h
      · rename_i hnil
        subst hnil
        exact .allFail (by assumption)
      · exact .allUndo (by assumption) (by assumption)
  | undo todo u =>
    cases todo with
    | nil =>
      cases h
      exact .undoNil
    | cons x rest =>
      obtain ⟨k, b⟩ := x
      simp only [Sat.step] at h
      split at h
      · cases h
        exact .undoMore (by assumption)
      · split at h <;> cases h
        · rename_i hnil
          subst hnil
          exact .undoLast (by assumption)
        · exact .undoNext (by assumption) (by assumption)

/-- A store of a rollback comes from the position that is being given back. -/
theorem SatStep.rollback {p : Sat} {k : Nat} {new : U64} {out : Out Sat (Option (Nat × Bool))}
    (h : SatStep r a seqs p (some (.rollback k new)) out) :
    ∃ b rest u, p = .undo ((k, b) :: rest) u ∧
      u.step (r.slots (a.slotOf k)) a.owner b = (some new, .done ()) := by
  generalize hw : some (SatWrite.rollback k new) = w at h
  cases h with
  | anyWin | allTake | allWin =>
    rename_i v _ _
    cases v <;> cases hw
  | @undoLast _ _ _ v hs =>
    cases v <;> cases hw
    exact ⟨_, _, _, rfl, hs⟩
  | @undoNext _ _ _ _ v hs =>
    cases v <;> cases hw
    exact ⟨_, _, _, rfl, hs⟩
  | _ => cases hw

/-- The branches keep to the object's type. -/
theorem SatStep.fits {p p' : Sat} {w : Option SatWrite} {i : Nat}
    (h : SatStep r a seqs p w (.more p')) (hf : p.Fits a i (r.slots i).objType) :
    p'.Fits a i (r.slots i).objType := by
  cases h with
  | anyMore hq | allMore hq =>
    intro hk
    subst hk
    exact (Acq.step_more (hf rfl) hq).2
  | anyNext | allTake => exact fun _ => trivial
  | @allUndo k acquired od q w hq hne =>
    cases acquired with
    | nil => exact absurd rfl hne
    | cons x l => exact fun _ => trivial
  | undoMore hu =>
    intro hk
    subst hk
    exact (Undo.step_more (hf rfl) hu).2
  | @undoNext k b rest u w hu hne =>
    cases rest with
    | nil => exact absurd rfl hne
    | cons x l => exact fun _ => trivial

end SatStep

/-! ### The run of `try_satisfy` inside a wait -/

def WaitPc.sat? : WaitPc → Option Sat
  | .fast (.sat p) | .pass (.sat p) | .spin _ _ (.sat p) => some p
  | _ => none

/-- The run of `try_satisfy` a thread is in, with its wait. -/
def Pc.sat? : Pc → Option (WaitCtx × Sat)
  | .wait c p => p.sat?.map (c, ·)
  | _ => none

/-- The outcome a wait has settled on: returned, or about to be after the cleanup. -/
def Pc.report : Pc → Option WaitOutcome
  | .done (.wait _ _) (.wait r) => some r
  | .wait _ (.clean r _) => some r
  | _ => none

/-- The wait a thread is in, or has returned from. -/
def Pc.args? : Pc → Option WaitArgs
  | .done (.wait a _) _ => some a
  | .wait c _ => some c.toWaitArgs
  | _ => none

/-- The label of a rollback's store tells the position. -/
theorem satInstr_rollback {a : WaitArgs} {w : Option SatWrite} {hd owner : U32} {i : Nat}
    {new : U64} (h : satInstr a w = .word hd i (.rollback owner) new) :
    ∃ k, w = some (.rollback k new) ∧ hd = a.handle k ∧ i = a.slotOf k ∧ owner = a.owner := by
  cases w with
  | none => cases h
  | some w =>
    cases w with
    | acquire k od v => cases h
    | rollback k v =>
      cases h
      exact ⟨k, rfl, rfl, rfl, rfl⟩

end Ntsync
