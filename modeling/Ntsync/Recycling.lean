import Mathlib
import Ntsync.Handles
import Ntsync.Shape

namespace Ntsync

open Words Lts

/-!
# Recycled slots

The lock-free parts of a call look a handle up once and then work on the slot it names, while
`close`, reaps and `create_*` recycle slots under a lock that these parts do not take.  What a call
found out about a slot stays true exactly as long as nobody frees the slot under it.

* `Relies` — the slots that calls under way work on hold the objects they looked up; `Spares` — a
  step frees no slot that a lock-free part of a call works on; `Tracks.step` — the one is kept by
  every step with the other;
* `word_resolves` — every store to an object's word is made through a handle that resolves;
* `AlertInv.step` — no wait reaches an `unwrap` with an alert that does not resolve.
-/

variable {T : Type}

/-! ### Relying on a slot -/

/-- The call works on the table: it may store to the fields of a slot. -/
def Pc.works : Pc → Bool
  | .create _ _ | .close _ _ | .hold _ _ _ => true
  | pc => pc.sweep?.isSome

/-- A sweep works on the table. -/
theorem Pc.works_of_sweep {pc : Pc} {x : Bool × SweepPc} (h : pc.sweep? = some x) :
    pc.works = true := by
  unfold Pc.works
  split <;> first | rfl | rw [h]; rfl

section Relying

variable {o : Oracle} {sh : Shared T} {pid : U32} {ins : Instr} {pc pc' : Pc} {i : Nat}

/-- Only calls that work on the table store to it. -/
theorem PcGo.works (hg : PcGo sh pid o pc ins pc') (hs : ins.stores i = true) :
    pc'.works = true := by
  cases ins with
  | store j w =>
    rcases hg.store with ⟨_, _, _, _, _, rfl⟩ | ⟨_, _, _, _, rfl⟩ | ⟨_, _, _, _, rfl⟩ |
      ⟨_, _, _, _, rfl⟩ | ⟨_, _, _, _, _, rfl⟩ | ⟨_, _, _, _, _, hsw⟩
    · rfl
    · rfl
    · rfl
    · rfl
    · rfl
    · exact Pc.works_of_sweep hsw
  | reap j =>
    obtain ⟨_, _, _, _, _, _, _, _, hsw⟩ := hg.reap
    exact Pc.works_of_sweep hsw
  | _ => cases hs

variable (uses : Nat → Pc → Bool) (good : Nat → U32 → ObjType → Pc → Prop)

/-- `uses i pc` says that a call at `pc` relies on slot `i`, and `good i g ty pc` what it knows of
    the object of generation `g` and type `ty` there. -/
structure Tracks (T : Type) : Prop where
  start : ∀ i c, uses i (.start c) = false
  outside : ∀ i pc, pc.outside = true → uses i pc = false
  works : ∀ i pc, pc.works = true → uses i pc = false
  step : ∀ (o : Oracle) (sh : Shared T) (pid : U32) (pc pc' : Pc) (ins : Instr) (i : Nat),
    PcGo sh pid o pc ins pc' → uses i pc' = true →
    (uses i pc = true → (sh.region.slots i).state = .used ∧
      good i (sh.region.slots i).generation (sh.region.slots i).objType pc) →
    (sh.region.slots i).state = .used ∧
      good i (sh.region.slots i).generation (sh.region.slots i).objType pc'

/-- Every slot that a live thread relies on is in use by the object the thread knows. -/
def Relies (s : Sys T) : Prop :=
  ∀ t i, s.dead (s.threads t).pid = false → uses i (s.threads t).pc = true →
    (s.region.slots i).state = .used ∧
      good i (s.region.slots i).generation (s.region.slots i).objType (s.threads t).pc

/-- The step frees no slot that a live thread outside the region lock relies on. -/
def Spares (s : Sys T) (l : Label T) : Prop :=
  ∀ i, l.frees = some i → ∀ u, s.dead (s.threads u).pid = false →
    (s.threads u).pc.locked = false → uses i (s.threads u).pc = false

instance [Fintype T] (s : Sys T) (l : Label T) : Decidable (Spares uses s l) :=
  match h : l.frees with
  | none => isTrue fun i hi => nomatch h.symm.trans hi
  | some i => decidable_of_iff (∀ u, s.dead (s.threads u).pid = false →
      (s.threads u).pc.locked = false → uses i (s.threads u).pc = false) <| by
    simp [Spares, h]

end Relying

section Sparing

variable [DecidableEq T] {uses : Nat → Pc → Bool} {good : Nat → U32 → ObjType → Pc → Prop}
  {s s' : Sys T} {a : Action T} {l : Label T}

omit [DecidableEq T] in
/-- At rest nobody relies on a slot. -/
theorem Relies.of_idle (hT : Tracks uses good T) (hidle : s.Idle) : Relies uses good s := by
  intro t i _ hu
  rw [hT.outside i _ (hidle t)] at hu
  cases hu

/-- A slot in use that another live thread relies on keeps state, generation and type. -/
theorem TableInv.keeps {t u : T} {o : Oracle} {ins : Instr} {pc' : Pc} {i : Nat} (hi : TableInv s)
    (ha : s.dead (s.threads t).pid = false)
    (ht : tick o s.toShared (s.threads t).pid (s.threads t).calls (s.threads t).pc =
      some (ins, pc'))
    (hok : Spares uses s (.instr t (s.threads t).pid ins)) (hut : u ≠ t)
    (hua : s.dead (s.threads u).pid = false) (hu : uses i (s.threads u).pc = true)
    (hused : (s.region.slots i).state = .used) :
    ((s.after t ins pc').region.slots i).state = .used ∧
      ((s.after t ins pc').region.slots i).generation = (s.region.slots i).generation ∧
      ((s.after t ins pc').region.slots i).objType = (s.region.slots i).objType := by
  have hg := tick_inv ht
  by_cases hst : ins.stores i = false
  · have hsame := Instr.sameTable t (s.threads t).pid s.toShared hst
    exact ⟨hsame.state.trans hused, hsame.generation, hsame.objType⟩
  -- the acting thread holds the lock, so the other one does not
  have hunlocked : ins.guarded = true → (s.threads u).pc.locked = false := by
    intro hguard
    by_contra hlk
    rw [Bool.not_eq_false] at hlk
    rw [hi.lock.others ha ht hut hua hlk] at hguard
    cases hguard
  have hfree : ¬ (s.region.slots i).state = .free := by rw [hused]; simp
  obtain ⟨hd, hr⟩ := Instr.apply_slot t (s.threads t).pid s.toShared ins i
  have hr' : (s.after t ins pc').region.slots i =
    { ins.slotAfter i (s.region.slots i) with waiterHead := hd } := hr
  cases ins with
  | store j w =>
    obtain rfl : j = i := by simpa [Instr.stores] using hst
    have htab := hi.ok t ha
    have hwr := hi.writes t
    have harray : w.holds = true → ((s.after t (.store j w) pc').region.slots j).state = .used ∧
        ((s.after t (.store j w) pc').region.slots j).generation =
          (s.region.slots j).generation ∧
        ((s.after t (.store j w) pc').region.slots j).objType = (s.region.slots j).objType := by
      intro hw
      rw [hr']
      simp only [Instr.slotAfter, if_true]
      cases w with
      | holdersLen | holder => exact ⟨hused, rfl, rfl⟩
      | _ => cases hw
    rcases hg.store with ⟨k, h, ws, hpc, rfl, _⟩ | ⟨h, ws, hpc, rfl, _⟩ | ⟨h, hpc, rfl, rfl, _⟩ |
      ⟨h, hpc, rfl, _⟩ | ⟨add, h, ws, hpc, rfl, _⟩ | ⟨auto, st, judged, hpc, _⟩
    · rw [hpc] at htab
      rcases htab.last with ⟨he, _⟩ | ⟨hf, _⟩
      · cases he
      · exact absurd hf hfree
    · rw [hpc] at hwr
      exact harray (hwr w (by simp))
    · rw [hok _ rfl u hua (hunlocked rfl)] at hu
      cases hu
    · rw [hpc] at htab
      exact absurd htab hfree
    · rw [hpc] at hwr
      exact harray (hwr w (by simp))
    · exact absurd (hi.reaped t auto st j judged ha hpc) hfree
  | reap j =>
    obtain rfl : j = i := by simpa [Instr.stores] using hst
    rw [hok _ rfl u hua (hunlocked rfl)] at hu
    cases hu
  | _ => exact absurd rfl hst

/-- **What calls rely on stays**, in every step that spares the slots they rely on. -/
theorem Tracks.step_relies (hT : Tracks uses good T) (htab : TableInv s)
    (hi : Relies uses good s) (hs : s.step a = some (s', l)) (hok : Spares uses s l) :
    Relies uses good s' := by
  cases Sys.step_inv hs with
  | @call t c ha hout =>
    intro u i hua hu
    rw [Sys.entered_dead, Sys.entered_pid] at hua
    rw [Sys.entered_pc] at hu ⊢
    split at hu
    · rw [hT.start] at hu
      cases hu
    · rename_i hut
      rw [if_neg hut]
      exact hi u i hua hu
  | @tick t o ins pc' ha ht =>
    have hg := tick_inv ht
    intro u i hua hu
    rw [Sys.after_dead, Sys.after_pid] at hua
    rw [Sys.after_pc] at hu ⊢
    by_cases hut : u = t
    · subst hut
      rw [if_pos rfl] at hu ⊢
      obtain ⟨hused, hgood⟩ := hT.step _ _ _ _ _ _ i hg hu (hi u i ha)
      have hst : ins.stores i = false := by
        by_contra hne
        rw [Bool.not_eq_false] at hne
        rw [hT.works i _ (hg.works hne)] at hu
        cases hu
      have hsame : SameTable (s.region.slots i) ((s.after u ins pc').region.slots i) :=
        Instr.sameTable u (s.threads u).pid s.toShared hst
      refine ⟨hsame.state.trans hused, ?_⟩
      rw [hsame.generation, hsame.objType]
      exact hgood
    · rw [if_neg hut] at hu ⊢
      obtain ⟨hused, hgood⟩ := hi u i hua hu
      obtain ⟨h₁, h₂, h₃⟩ := htab.keeps ha ht hok hut hua hu hused
      refine ⟨h₁, ?_⟩
      rw [h₂, h₃]
      exact hgood
  | @die pid =>
    intro u i hua hu
    rw [Sys.died_dead, Sys.died_threads, Bool.or_eq_false_iff] at hua
    exact hi u i hua.2 hu

end Sparing

/-! ### Stores to an object's word -/

/-- How many of the wait's handles (`n` in all) it has found in use and may store to before it
    looks them up again. -/
def WaitPc.usesTo (n : Nat) : WaitPc → Nat
  | .fast (.look i .state) => i
  | .fast (.look i _) => i + 1
  | .fast (.seq i) => i + 1
  | .fast _ => n
  | .pass .lock => 0
  | .pass (.validate i) => i
  | .pass _ => n
  | .spinStart _ | .spin _ _ _ => n
  | _ => 0

/-- The operation may store to the word of its object. -/
def Op.stores : Op → Bool
  | .readSem | .readMutex | .readEvent => false
  | _ => true

/-- The operation has found its slot in use and has not stored to the word yet. -/
def OpPc.uses : OpPc → Bool
  | .gen | .typ | .loop _ => true
  | _ => false

/-- The call has found slot `i` in use and may store to its word without another look. -/
def Pc.uses (i : Nat) : Pc → Bool
  | .op h o p => decide (handleIndex h = i) && (o.stores && p.uses)
  | .pulse h p => decide (handleIndex h = i) && p.found
  | .wait c p => decide (∃ k < p.usesTo c.handles.length, c.slotOf k = i)
  | _ => false

section Uses

variable {o : Oracle} {sh : Shared T} {pid : U32} {ins : Instr} {pc pc' : Pc} {i : Nat}

/-- The reads swap nothing. -/
theorem Op.stores_of_cas {op : Op} {w new : U64} {x : OpRet × Bool} (h : op.pass w = .cas new x) :
    op.stores = true := by
  cases op with
  | readSem | readMutex | readEvent => cases h
  | _ => rfl

/-- After the alert test the wait has all of its handles. -/
theorem WaitCtx.usesTo_afterAlert (c : WaitCtx) (n : Nat) : c.afterAlert.usesTo n = n := by
  unfold WaitCtx.afterAlert
  split <;> rfl

/-- One more lookup of the fast path adds one handle. -/
theorem WaitCtx.usesTo_fastNext (c : WaitCtx) (k : Nat) :
    (c.fastNext k).usesTo c.handles.length ≤ k + 1 := by
  unfold WaitCtx.fastNext
  split
  · exact Nat.le_refl _
  · split <;> show c.handles.length ≤ k + 1 <;> omega

/-- One more validation of the locked pass adds one handle. -/
theorem WaitCtx.usesTo_validateNext (c : WaitCtx) (k : Nat) :
    (c.validateNext k).usesTo c.handles.length ≤ k + 1 := by
  unfold WaitCtx.validateNext
  split
  · exact Nat.le_refl _
  · split
    · show c.handles.length ≤ k + 1
      omega
    · rw [WaitCtx.usesTo_afterAlert]
      omega

/-- A wait comes to use one more handle by finding its slot in use. -/
theorem WaitGo.usesTo {c : WaitCtx} {p : WaitPc} (hg : WaitGo o sh pid c p ins pc') :
    ∀ c' p', pc' = .wait c' p' →
      p'.usesTo c.handles.length ≤ p.usesTo c.handles.length ∨
      ∃ k, p'.usesTo c.handles.length ≤ k + 1 ∧
        (p = .fast (.look k .state) ∨ p = .pass (.validate k)) ∧
        (sh.region.slots (c.slotOf k)).state = .used := by
  intro c' p' hpc
  cases hg with
  | fast hg =>
    cases hg with
    -- a state check on the fast path, or a lookup under the lock, finds one more slot in use
    | lookState hu =>
      cases hpc
      exact .inr ⟨_, Nat.le_refl _, .inl rfl, hu⟩
    | lookOther | seq =>
      cases hpc
      exact .inl (c.usesTo_fastNext _)
    -- the fast path is given up, and what it found with it
    | lookBad | alertBad | fail =>
      cases hpc
      exact .inl (Nat.zero_le _)
    | unwrapStateBad | unwrapGenBad | alerted | win | failZero => cases hpc
    | _ =>
      cases hpc
      exact .inl (Nat.le_refl _)
  | pass hg =>
    cases hg with
    | validateFirst hj | validate hj =>
      cases hpc
      obtain ⟨rfl, hu, _⟩ := Region.slot_eq_some.mp hj
      exact .inr ⟨_, c.usesTo_validateNext _, .inr rfl, hu⟩
    -- the pass is left, or begun anew
    | lock | validateBad | validateAlertBad | alertSet | allocFail | win | expired =>
      cases hpc
      exact .inl (Nat.zero_le _)
    | alertPanic => cases hpc
    | alertClear =>
      cases hpc
      exact .inl (c.usesTo_afterAlert _).le
    | alloc =>
      cases hpc
      unfold WaitCtx.allocNext
      split <;> exact .inl (Nat.le_refl _)
    | registerSkip | register =>
      cases hpc
      unfold WaitCtx.registerNext
      split <;> exact .inl (Nat.le_refl _)
    | _ =>
      cases hpc
      exact .inl (Nat.le_refl _)
  -- without a spin nothing is relied on until the next pass
  | noSpin =>
    cases hpc
    exact .inl (Nat.zero_le _)
  | spinStart =>
    cases hpc
    exact .inl (Nat.le_refl _)
  | spin hg =>
    cases hg with
    | alertStateBad | alertGenBad => cases hpc
    | alerted | win | woken | exhausted =>
      cases hpc
      exact .inl (Nat.zero_le _)
    | _ =>
      cases hpc
      exact .inl (Nat.le_refl _)
  | @sweep seq timedOut p ins pc' hg =>
    cases hg with
    | skip | unlock =>
      cases hpc
      cases timedOut <;> exact .inl (Nat.zero_le _)
    | _ =>
      cases hpc
      exact .inl (Nat.zero_le _)
  | sleep hg =>
    cases hg with
    | again | woken =>
      cases hpc
      unfold afterFutex
      split <;> exact .inl (Nat.zero_le _)
    | _ =>
      cases hpc
      exact .inl (Nat.zero_le _)
  | detach hg => cases hg <;> cases hpc <;> exact .inl (Nat.zero_le _)
  | clean hg => cases hg <;> cases hpc <;> exact .inl (Nat.zero_le _)

/-- A call starts with no slot looked up. -/
theorem Pc.start_uses (i : Nat) (c : Call) : (Pc.start c).uses i = false := by
  cases c with
  | op h o =>
    simp only [Pc.start]
    split
    · simp [Pc.uses, OpPc.uses]
    · rfl
  | pulse h => simp [Pc.start, Pc.uses, PulsePc.found]
  | wait a timeout =>
    simp only [Pc.start]
    split
    · simp [Pc.uses, WaitPc.usesTo]
    · rfl
  | create | close | hold =>
    simp only [Pc.start]
    split <;> rfl
  | sweepDead => rfl

/-- A call that works on the table relies on no earlier lookup. -/
theorem Pc.uses_of_works (i : Nat) (pc : Pc) (h : pc.works = true) : pc.uses i = false := by
  cases pc with
  | wait c p =>
    cases p with
    | sweep seq timedOut p => simp [Pc.uses, WaitPc.usesTo]
    | _ => cases h
  | op | pulse => cases h
  | _ => rfl

/-- A lock-free operation relies on the object that its lookup has found. -/
theorem OpGo.relies {h : U32} {op : Op} {p : OpPc} (hg : OpGo sh h op p ins pc')
    (hu : pc'.uses i = true)
    (hi : (Pc.op h op p).uses i = true → (sh.region.slots i).state = .used ∧
      (Pc.op h op p).Valid i (sh.region.slots i).generation (sh.region.slots i).objType) :
    (sh.region.slots i).state = .used ∧
      pc'.Valid i (sh.region.slots i).generation (sh.region.slots i).objType := by
  -- past the first load the slot was in use already
  have hkeep : p.uses = true → handleIndex h = i ∧ op.stores = true →
      (sh.region.slots i).state = .used ∧
        pc'.Valid i (sh.region.slots i).generation (sh.region.slots i).objType := by
    intro hp hh
    obtain ⟨hused, hv⟩ := hi (by simp [Pc.uses, hp, hh.1, hh.2])
    exact ⟨hused, hg.valid ⟨hused, rfl, rfl⟩ hv⟩
  cases hg with
  | state hs =>
    obtain ⟨rfl, _⟩ : handleIndex h = i ∧ op.stores = true := by simpa [Pc.uses, OpPc.uses] using hu
    exact ⟨hs, fun _ => ⟨fun h => (by cases h), fun h => (by cases h)⟩⟩
  | gen | typ | retry => exact hkeep rfl (by simpa [Pc.uses, OpPc.uses] using hu)
  | swap | peek | lock | walk | walked => simp [Pc.uses, OpPc.uses] at hu
  | _ => cases hu

/-- A pulse looks its object up under the lock. -/
theorem PulseGo.relies {h : U32} {p : PulsePc} (hg : PulseGo sh h p ins pc')
    (hu : pc'.uses i = true)
    (hi : (Pc.pulse h p).uses i = true → (sh.region.slots i).state = .used ∧
      (Pc.pulse h p).Valid i (sh.region.slots i).generation (sh.region.slots i).objType) :
    (sh.region.slots i).state = .used ∧
      pc'.Valid i (sh.region.slots i).generation (sh.region.slots i).objType := by
  have hkeep : p.found = true → handleIndex h = i → (sh.region.slots i).state = .used ∧
      pc'.Valid i (sh.region.slots i).generation (sh.region.slots i).objType := by
    intro hp hh
    obtain ⟨hused, hv⟩ := hi (by simp [Pc.uses, hp, hh])
    exact ⟨hused, hg.valid ⟨hused, rfl, rfl⟩ hv⟩
  cases hg with
  | @check j hj hty =>
    obtain rfl : handleIndex h = i := by simpa [Pc.uses, PulsePc.found] using hu
    obtain ⟨rfl, hused, hgen⟩ := Region.slot_eq_some.mp hj
    exact ⟨hused, fun _ _ => ⟨hgen.symm, hty⟩⟩
  | lock | bad | walked => simp [Pc.uses, PulsePc.found] at hu
  | unlock => cases hu
  | _ => exact hkeep rfl (by simpa [Pc.uses, PulsePc.found] using hu)

/-- A wait relies on the objects that its lookups have found. -/
theorem WaitGo.relies {c : WaitCtx} {p : WaitPc} (hg : WaitGo o sh pid c p ins pc')
    (hu : pc'.uses i = true)
    (hi : (Pc.wait c p).uses i = true → (sh.region.slots i).state = .used ∧
      (Pc.wait c p).Valid i (sh.region.slots i).generation (sh.region.slots i).objType) :
    (sh.region.slots i).state = .used ∧
      pc'.Valid i (sh.region.slots i).generation (sh.region.slots i).objType := by
  obtain ⟨c', p', rfl⟩ : ∃ c' p', pc' = .wait c' p' := by
    rcases hg.args with rfl | ha
    · cases hu
    · cases pc' with
      | wait c' p' => exact ⟨c', p', rfl⟩
      | done c r => cases hu
      | _ => cases ha
  have hargs := hg.sameArgs rfl
  obtain ⟨k, hk, hki⟩ : ∃ k < p'.usesTo c.handles.length, c.slotOf k = i := by
    simpa [Pc.uses, hargs, WaitArgs.slotOf] using hu
  by_cases hold : (Pc.wait c p).uses i = true
  · obtain ⟨hused, hv⟩ := hi hold
    exact ⟨hused, (PcGo.wait hg).valid ⟨hused, rfl, rfl⟩ hv⟩
  -- the slot is new to the wait, which then knows nothing of it but that it is in use
  have hnone : ∀ j < p.usesTo c.handles.length, c.slotOf j ≠ i := by
    simpa [Pc.uses] using hold
  rcases hg.usesTo c' p' rfl with hle | ⟨j, hle, hp, hused⟩
  · exact absurd hki (hnone k (by omega))
  · have hj : k = j := by
      by_contra hne
      have hlt : j ≤ p.usesTo c.handles.length := by
        rcases hp with rfl | rfl <;> exact Nat.le_refl _
      exact hnone k (by omega) hki
    subst hj
    rw [hki] at hused
    refine ⟨hused, (PcGo.wait hg).valid ⟨hused, rfl, rfl⟩ ?_⟩
    rcases hp with rfl | rfl
    · exact ⟨fun m hm hmi => absurd hmi (hnone m hm), fun _ h => (by cases h),
        fun h => (by cases h)⟩
    · exact ⟨fun m hm hmi => absurd hmi (hnone m hm), fun _ h => (by cases h),
        fun h => (by cases h)⟩

/-- **What the lock-free parts of the calls rely on.** -/
theorem tracks_uses : Tracks Pc.uses Pc.Valid T where
  start := Pc.start_uses
  outside := by
    intro i pc h
    rcases Pc.outside_cases h with rfl | ⟨c, r, rfl⟩ <;> rfl
  works := Pc.uses_of_works
  step := by
    intro o sh pid pc pc' ins i hg hu hi
    cases hg with
    | op hg => exact hg.relies hu hi
    | pulse hg => exact hg.relies hu hi
    | wait hg => exact hg.relies hu hi
    | create hg => cases hg <;> cases hu
    | close hg => cases hg <;> cases hu
    | hold hg => cases hg <;> cases hu
    | sweepDead hg => cases hg <;> cases hu

end Uses

/-- The object type whose branch of `try_acquire` is running, once it has read the type. -/
def Acq.branch : Acq → Option ObjType
  | .typ => none
  | .sem _ => some .sem
  | .mutex _ => some .mutex
  | .event | .auto _ | .pulse => some .event

/-- The object type whose branch of `rollback_acquire` is running. -/
def Undo.branch : Undo → Option ObjType
  | .typ => none
  | .sem _ => some .sem
  | .mutex _ => some .mutex
  | .event _ => some .event

def Sat.branch : Sat → Option ObjType
  | .any _ q | .all _ _ _ q => q.branch
  | .undo _ u => u.branch

/-- The object type the code under way stores a word for. -/
def Pc.branch : Pc → Option ObjType
  | .op _ o _ => some o.objType
  | .pulse _ _ => some .event
  | pc => pc.sat?.bind fun x => x.2.branch

section Branch

variable {s : Slot} {owner : U32} {seq new : U64} {ty : ObjType}

/-- `try_acquire` stores a word in the branch of the type it has read. -/
theorem Acq.branch_of_store {q : Acq} {out : Out Acq (Option Bool)}
    (h : q.step s owner seq = (some new, out)) (hf : q.fits ty) : q.branch = some ty := by
  cases q with
  | typ =>
    simp only [Acq.step] at h
    split at h <;> cases h
  | sem | mutex | event | auto | pulse =>
    rw [show ty = _ from hf]
    rfl

/-- `rollback_acquire` stores a word in the branch of the type it has read. -/
theorem Undo.branch_of_store {u : Undo} {od : Bool} {out : Out Undo Unit}
    (h : u.step s owner od = (some new, out)) (hf : u.fits ty) : u.branch = some ty := by
  cases u with
  | typ =>
    simp only [Undo.step] at h
    split at h <;> cases h
  | sem | mutex | event =>
    rw [show ty = _ from hf]
    rfl

/-- A store of `try_satisfy` is made at one of the wait's positions, by the branch for the type of
    the object there. -/
theorem SatStep.store {r : Region} {a : WaitArgs} {seqs : Nat → U64} {p : Sat} {w : SatWrite}
    {out : Out Sat (Option (Nat × Bool))} (h : SatStep r a seqs p (some w) out)
    (hshape : p.Shape a) :
    ∃ k < a.handles.length, (∃ tag new, w.instr a = .word (a.handle k) (a.slotOf k) tag new) ∧
      ∀ ty, p.Fits a (a.slotOf k) ty → p.branch = some ty := by
  generalize hw : some w = v at h
  cases h with
  | @anyWin k q v od hq =>
    cases v <;> cases hw
    exact ⟨k, hshape.1, ⟨_, _, rfl⟩, fun ty hf => Acq.branch_of_store hq (hf rfl)⟩
  | @allTake k acquired od b q v hq =>
    cases v <;> cases hw
    exact ⟨k, hshape.1, ⟨_, _, rfl⟩, fun ty hf => Acq.branch_of_store hq (hf rfl)⟩
  | @allWin k acquired od b q v hq =>
    cases v <;> cases hw
    exact ⟨k, hshape.1, ⟨_, _, rfl⟩, fun ty hf => Acq.branch_of_store hq (hf rfl)⟩
  | @undoLast k b u v hq =>
    cases v <;> cases hw
    exact ⟨k, hshape.2.2 (k, b) (by simp), ⟨_, _, rfl⟩, fun ty hf => Undo.branch_of_store hq (hf rfl)⟩
  | @undoNext k b rest u v hq =>
    cases v <;> cases hw
    exact ⟨k, hshape.2.2 (k, b) (by simp), ⟨_, _, rfl⟩, fun ty hf => Undo.branch_of_store hq (hf rfl)⟩
  | _ => cases hw

end Branch

section Words

variable [DecidableEq T] {s₀ s s' : Sys T} {h : List (Label T)} {a : Action T} {t : T} {pid hd : U32}
  {i : Nat} {tag : Tag} {new : U64}

/-- The invariant of runs that free no slot under a lock-free part of a call. -/
structure RecycleInv (s : Sys T) : Prop where
  table : TableInv s
  shape : ShapeInv s
  relies : Relies Pc.uses Pc.Valid s

/-- **Stores go to the object the handle names.** In every run in which no slot is freed while a
    lock-free part of a call that found it in use may still store to its word, every store to an
    object's word is made through a handle that resolves to it at that moment, by code for the
    type of that object. -/
theorem word_resolves (hidle : s₀.Idle) (hlock : s₀.lock = none)
    (hr : Run Sys.step (fun s l _ => Spares Pc.uses s l) s₀ h s)
    (hs : s.step a = some (s', .instr t pid (.word hd i tag new))) :
    s.region.slot hd = some i ∧
      (s.threads t).pc.branch = some (s.region.slots i).objType := by
  have hinv : RecycleInv s := hr.state_invariant
    ⟨.of_idle hidle hlock, .of_idle hidle, .of_idle tracks_uses hidle⟩
    (fun s a s' l hi hst hok =>
      ⟨hi.table.step hst, hi.shape.step hst, tracks_uses.step_relies hi.table hi.relies hst hok⟩)
  generalize hl : Label.instr t pid (.word hd i tag new) = l at hs
  cases Sys.step_inv hs with
  | call | die => cases hl
  | @tick t' o ins pc' ha ht =>
    cases hl
    have hg := tick_inv ht
    have hrel := hinv.relies t i ha
    have hshape := hinv.shape t
    rcases hg.word with ⟨op, cas, r, wake, hpc, rfl, _, hb, _⟩ | ⟨prev, w, hpc, rfl, _⟩ |
      ⟨c, q, p, hpc, hq⟩
    -- an operation has checked state, generation and type
    · rw [hpc] at hrel ⊢
      obtain ⟨hused, hv⟩ := hrel (by simp [Pc.uses, OpPc.uses, Op.stores_of_cas hb])
      obtain ⟨hgen, hty⟩ := hv rfl
      exact ⟨Region.slot_eq_some.mpr ⟨rfl, hused, (hgen rfl).symm⟩, congrArg some (hty rfl)⟩
    -- so has a pulse, under the lock
    · rw [hpc] at hrel ⊢
      obtain ⟨hused, hv⟩ := hrel (by simp [Pc.uses, PulsePc.found])
      obtain ⟨hgen, hty⟩ := hv rfl rfl
      exact ⟨Region.slot_eq_some.mpr ⟨rfl, hused, hgen.symm⟩, congrArg some hty.symm⟩
    -- an attempt stores to an object whose handle was validated
    · have hsat : (s.threads t).pc.sat? = some (c, p) := by rw [hpc, Pc.sat?, hq]; rfl
      obtain ⟨w, out, hst, hins, _⟩ := hg.sat hsat
      rw [hpc] at hrel hshape ⊢
      cases w with
      | none => cases hins
      | some w =>
        obtain ⟨k, hk, ⟨tag', new', hw⟩, hbr⟩ := hst.store (hshape.2 p hq)
        have hins' := hins.trans hw
        cases hins'
        -- and a wait in an attempt uses all of its handles
        have hto : q.usesTo c.handles.length = c.handles.length := by
          unfold WaitPc.sat? at hq
          split at hq <;> first | rfl | cases hq
        obtain ⟨hused, hv⟩ := hrel (by
          simp only [Pc.uses, hto, decide_eq_true_eq]
          exact ⟨k, hk, rfl⟩)
        refine ⟨Region.slot_eq_some.mpr ⟨rfl, hused, ?_⟩, ?_⟩
        · exact (hv.handles k (by rw [WaitPc.validTo_sat hq]; exact hk) rfl).symm
        · simp only [Pc.branch, Pc.sat?, hq, Option.map_some, Option.bind_some]
          exact hbr _ (hv.fits p hq)

end Words

/-- Two threads of one process on a fresh region. -/
abbrev pair : Sys (Fin 2) := Sys.rest Region.init fun _ => 7

/-- Two objects are created; one thread sets the event in slot 1, up to its swap, while the other
    one closes the semaphore in slot 2. -/
def setEvent : List (Action (Fin 2)) :=
  .call 0 (.create (.event true false)) :: List.replicate 18 (.tick 0 {}) ++
  .call 1 (.create (.sem 0 5)) :: List.replicate 18 (.tick 1 {}) ++
  .call 0 (.op 1 .eventSet) :: List.replicate 4 (.tick 0 {}) ++
  .call 1 (.close 2) :: List.replicate 8 (.tick 1 {})

abbrev settingEvent : Sys (Fin 2) × List (Label (Fin 2)) :=
  reach Sys.step (fun s l _ => Spares Pc.uses s l) pair setEvent

/-- The word store in a label. -/
def Label.word? : Label T → Option (U32 × Nat × Tag)
  | .instr _ _ (.word h i tag _) => some (h, i, tag)
  | _ => none

/-- A label with a word store is the step that made it. -/
theorem Label.eq_of_word {l : Label T} {h : U32} {i : Nat} {tag : Tag}
    (hl : l.word? = some (h, i, tag)) : ∃ t pid new, l = .instr t pid (.word h i tag new) := by
  unfold Label.word? at hl
  split at hl <;> cases hl
  exact ⟨_, _, _, rfl⟩

/-- The event's handle resolves at the swap, though another slot was freed in the meantime. -/
theorem word_resolves_settingEvent :
    settingEvent.1.region.slot 1 = some 1 ∧ freed 2 settingEvent.2 = 1 := by
  have hstep : (settingEvent.1.step (.tick 0 {})).any
      (fun x => decide (x.2.word? = some (1, 1, .op .eventSet))) = true := by decide +kernel
  rw [Option.any_eq_true] at hstep
  obtain ⟨⟨s', l⟩, hs, hl⟩ := hstep
  obtain ⟨t, pid, new, rfl⟩ := Label.eq_of_word (of_decide_eq_true hl)
  exact ⟨(word_resolves (fun _ => rfl) rfl (run_reach (by decide +kernel)) hs).1, by decide +kernel⟩

section StaleSet

variable {t : T} {pid : U32} {sh : Shared T} {hd : U32} {op : Op} {i : Nat}

/-- A lookup by one thread of a handle that resolves. -/
theorem Alone.look (t : T) (pid : U32) (hs : sh.region.slot hd = some i)
    (hty : (sh.region.slots i).objType = op.objType) :
    Alone t pid sh (.op hd op .state) sh (.op hd op (.loop none)) := by
  obtain ⟨rfl, hused, hgen⟩ := Region.slot_eq_some.mp hs
  refine .head (i := .silent) (fun _ => if_pos hused) (by simp) ?_
  refine .head (i := .silent) (fun _ => if_pos hgen) (by simp) ?_
  exact .head (i := .silent) (fun _ => if_pos hty) (by simp) .refl

/-- **A stale set.** One thread sets the event in slot 1 and is interrupted before its first load
    of the word; the other one closes the event and goes on creating and closing until the slot is
    reused for a semaphore with no tokens.  The swap then gives the semaphore a token, through a
    handle that does not resolve any more. -/
theorem stale_set_hits_semaphore :
    ∃ (h : List (Label (Fin 2))) (s s' : Sys (Fin 2)) (new : U64),
      Run Sys.step (fun _ _ _ => True) pair h s ∧
      s.step (.tick 1 {}) = some (s', .instr 1 7 (.word 1 1 (.op .eventSet) new)) ∧
      s.region.slot 1 = none ∧ (s.region.slots 1).state = .used ∧
      (s.region.slots 1).objType = .sem ∧ lo32 (s.region.slots 1).w0 = 0 ∧
      lo32 (s'.region.slots 1).w0 = 1 := by
  -- thread 0 creates the event
  have hself : pair.put 0 pair.toShared .idle = pair := pair.put_self 0
  obtain ⟨h₁, hr₁⟩ := Ring.create_run (s := pair) (t := 0) (k := .event true false)
    (show Ring 0 pair.toShared.region from Ring.init) rfl rfl
    (show Pc.idle.outside = true from rfl) rfl
  rw [hself] at hr₁
  set sA := pair.put 0 _ (.done (.create (.event true false)) _) with hsA
  obtain ⟨_, hslotA⟩ := Region.init.created_slot (Ring.next 0) (.event true false) 7
  -- thread 1 looks its handle up
  have hresA : sA.region.slot 1 = some 1 :=
    Region.slot_eq_some.mpr ⟨by decide, by rw [hsA]; exact congrArg Slot.state hslotA, by
      rw [hsA]
      exact congrArg Slot.generation hslotA⟩
  obtain ⟨h₂, hr₂⟩ := (Alone.look (1 : Fin 2) 7 hresA
    (show _ = Op.eventSet.objType from congrArg Slot.objType hslotA)).run (s := sA) rfl
  have hcall := Sys.put_call (s := sA) (t := 1) (c := .op 1 .eventSet)
    (show sA.toShared.dead (sA.threads 1).pid = false from rfl)
    (show Pc.idle.outside = true from rfl)
  rw [show sA.put 1 sA.toShared .idle = sA from sA.put_self 1] at hcall
  have hrB := hr₁.trans (hcall.trans hr₂)
  set sB := sA.put 1 sA.toShared (.op 1 .eventSet (.loop none)) with hsB
  -- thread 0 closes the event and recycles all the other slots
  obtain ⟨h₃, sh₃, pc₃, hr₃, hring₃, hl₃, hd₃, ho₃⟩ := Ring.init.close_run (s := sB) (t := 0)
    (by decide)
    (show sB.toShared.region = Region.init.created (Ring.next 0) (.event true false) 7 from rfl)
    rfl rfl (show (sB.threads 0).pc.outside = true from rfl)
  rw [sB.put_self 0] at hr₃
  have hd₃' : sh₃.dead (sB.threads 0).pid = false := by rw [hd₃]; rfl
  obtain ⟨h₄, sh₄, pc₄, hr₄, hring₄, hl₄, hd₄, ho₄⟩ := hring₃.cycles (s := sB) (t := 0)
    (m := ringSize - 1) hl₃ hd₃' ho₃ (by decide)
  have hd₄' : sh₄.dead (sB.threads 0).pid = false := by rw [hd₄]; exact hd₃'
  obtain ⟨h₅, hr₅⟩ := hring₄.create_run (s := sB) (t := 0) (k := .sem 0 5) hl₄ hd₄' ho₄ rfl
  have hnext : Ring.next (0 + 1 + (ringSize - 1)) = 1 := by decide
  rw [hnext] at hr₅
  set sE := sB.put 0 { sh₄ with region := sh₄.region.created 1 (.sem 0 5) (sB.threads 0).pid } _
    with hsE
  obtain ⟨_, hslotE⟩ := sh₄.region.created_slot 1 (.sem 0 5) 7
  have hgenE : (sh₄.region.slots 1).generation = 1 := (hring₄.free 1 (by decide) (by decide)).2
  -- thread 1 loads the semaphore's word and swaps it
  have hw : (sE.region.slots 1).w0 = packSem 0 5 := congrArg Slot.w0 hslotE
  have hload : Alone (1 : Fin 2) 7 sE.toShared (.op 1 .eventSet (.loop none)) sE.toShared
      (.op 1 .eventSet (.loop (some (packSem 0 5)))) := by
    refine .head (i := .silent) (fun _ => ?_) (by simp) .refl
    have hcas : casStep (sE.region.slots (handleIndex 1)).w0 Op.eventSet.pass none =
        (none, .more (some (packSem 0 5))) := by
      rw [show handleIndex 1 = 1 from rfl, hw]
      rfl
    simp only [tick, opTick, hcas]
  obtain ⟨h₆, hr₆⟩ := hload.run (s := sE) (by
    show sh₄.dead 7 = false
    exact hd₄')
  rw [show sE.put 1 sE.toShared (.op 1 .eventSet (.loop none)) = sE from sE.put_self 1] at hr₆
  have hcas : casStep (sE.region.slots (handleIndex 1)).w0 Op.eventSet.pass
      (some (packSem 0 5)) = (some (packSem 0 5 ||| 1), .done (.ok (.num 0), true)) := by
    rw [show handleIndex 1 = 1 from rfl, hw]
    rfl
  have hstep : (sE.put 1 sE.toShared (.op 1 .eventSet (.loop (some (packSem 0 5))))).step
      (.tick 1 {}) = some (sE.put 1
        (Instr.apply 1 7 sE.toShared (.word 1 1 (.op .eventSet) (packSem 0 5 ||| 1)))
        (.op 1 .eventSet (.peek (.ok (.num 0)))),
        .instr 1 7 (.word 1 1 (.op .eventSet) (packSem 0 5 ||| 1))) := by
    have ha : (sE.put 1 sE.toShared (.op 1 .eventSet (.loop (some (packSem 0 5))))).dead
        (sE.threads 1).pid = false := hd₄'
    simp only [Sys.step, Sys.put_thread, ha, Bool.false_eq_true, if_false]
    rw [show (sE.put 1 sE.toShared (.op 1 .eventSet (.loop (some (packSem 0 5))))).toShared =
      sE.toShared from rfl]
    simp only [tick, opTick, hcas, if_true, Sys.put, Function.update_idem]
    rfl
  refine ⟨_, _, _, _, hrB.trans (hr₃.trans (hr₄.trans (hr₅.trans hr₆))), hstep, ?_, ?_, ?_, ?_, ?_⟩
  · by_contra hne
    obtain ⟨j, hj⟩ := Option.ne_none_iff_exists'.mp hne
    obtain ⟨rfl, _, hg⟩ := Region.slot_eq_some.mp hj
    have hgen : (sE.region.slots 1).generation = 1 := (congrArg Slot.generation hslotE).trans hgenE
    exact absurd (hgen.symm.trans hg) (by decide)
  · exact congrArg Slot.state hslotE
  · exact congrArg Slot.objType hslotE
  · show lo32 (sE.region.slots 1).w0 = 0
    rw [hw]
    decide
  · show lo32 ((sE.region.setSlot 1 fun s => { s with w0 := packSem 0 5 ||| 1 }).slots 1).w0 = 1
    rw [Region.setSlot_slots, if_pos rfl]
    show lo32 (packSem 0 5 ||| 1) = 1
    decide

end StaleSet

/-! ### Alerts -/

/-- The wait has found its alert's slot in use and is going to look the alert up again, trusting
    that it still resolves. -/
def WaitPc.usesAlert : WaitPc → Bool
  | .fast (.alert .gen) | .fast (.alert .typ) | .fast .unwrapState | .fast .unwrapGen => true
  | .pass .lock | .pass (.validate _) | .pass .validateAlert => false
  | .pass _ | .spinStart _ | .spin _ _ _ => true
  | _ => false

/-- The generation check of the alert has passed. -/
def WaitPc.knowsAlert : WaitPc → Bool
  | .fast (.alert .gen) => false
  | p => p.usesAlert

/-- The next access is a lookup of the alert. -/
def WaitPc.looksAlert : WaitPc → Bool
  | .fast (.alert _) | .fast .unwrapState | .fast .unwrapGen => true
  | .pass .validateAlert | .pass .alertTest => true
  | .spin _ _ .alertState | .spin _ _ .alertGen => true
  | _ => false

/-- The call relies on its alert in slot `i`. -/
def Pc.usesAlert (i : Nat) : Pc → Bool
  | .wait c p => decide (c.alert ≠ 0 ∧ handleIndex c.alert = i) && p.usesAlert
  | _ => false

/-- The alert the call found in its slot has generation `g`. -/
def Pc.KnowsAlert (_ : Nat) (g : U32) (_ : ObjType) : Pc → Prop
  | .wait c p => p.knowsAlert = true → handleGen c.alert = g
  | _ => True

section Alerts

variable {o : Oracle} {sh : Shared T} {pid : U32} {calls : U64} {ins : Instr} {pc' : Pc}

/-- The fast path starts each lookup of the alert from scratch. -/
theorem WaitCtx.usesAlert_fastNext (c : WaitCtx) (i : Nat) :
    (c.fastNext i).usesAlert = false := by
  unfold WaitCtx.fastNext
  split
  · rfl
  · split <;> rfl

/-- The locked pass starts its lookup of the alert from scratch. -/
theorem WaitCtx.usesAlert_validateNext (c : WaitCtx) (i : Nat) (ha : c.alert ≠ 0) :
    (c.validateNext i).usesAlert = false := by
  simp only [WaitCtx.validateNext, if_pos ha]
  split <;> rfl

/-- How a wait comes to rely on its alert. -/
theorem WaitGo.usesAlert {c : WaitCtx} {p : WaitPc} (hg : WaitGo o sh pid c p ins pc')
    (ha : c.alert ≠ 0) :
    ∀ c' p', pc' = .wait c' p' → p'.usesAlert = true →
      (p.usesAlert = true ∨ (sh.region.slots (handleIndex c.alert)).state = .used) ∧
      (p'.knowsAlert = true → p.usesAlert = true ∧ p.knowsAlert = true ∨
        (sh.region.slots (handleIndex c.alert)).generation = handleGen c.alert) := by
  intro c' p' hpc hu
  cases hg with
  | fast hg =>
    cases hg with
    | alertState hs =>
      cases hpc
      exact ⟨.inr hs, fun h => (by cases h)⟩
    | alertGen hgen =>
      cases hpc
      exact ⟨.inl rfl, fun _ => .inr hgen⟩
    | alertTyp | unwrapState =>
      cases hpc
      exact ⟨.inl rfl, fun _ => .inl ⟨rfl, rfl⟩⟩
    | lookOther | seq =>
      cases hpc
      rw [WaitCtx.usesAlert_fastNext] at hu
      cases hu
    | unwrapStateBad | unwrapGenBad | alerted | win | failZero => cases hpc
    | _ =>
      cases hpc
      cases hu
  | pass hg =>
    cases hg with
    | validateFirst | validate =>
      cases hpc
      rw [WaitCtx.usesAlert_validateNext c _ ha] at hu
      cases hu
    | validateAlert hj =>
      cases hpc
      obtain ⟨rfl, hs, hgen⟩ := Region.slot_eq_some.mp hj
      exact ⟨.inr hs, fun _ => .inr hgen⟩
    | lock | validateBad | validateAlertBad | alertSet | allocFail | win | expired =>
      cases hpc
      cases hu
    | alertPanic => cases hpc
    | _ =>
      cases hpc
      exact ⟨.inl rfl, fun _ => .inl ⟨rfl, rfl⟩⟩
  | noSpin =>
    cases hpc
    cases hu
  | spinStart =>
    cases hpc
    exact ⟨.inl rfl, fun _ => .inl ⟨rfl, rfl⟩⟩
  | spin hg =>
    cases hg with
    | alertStateBad | alertGenBad => cases hpc
    | alerted | win | woken | exhausted =>
      cases hpc
      cases hu
    | _ =>
      cases hpc
      exact ⟨.inl rfl, fun _ => .inl ⟨rfl, rfl⟩⟩
  | @sweep seq timedOut p ins pc' hg =>
    cases hg with
    | skip | unlock =>
      cases hpc
      cases timedOut <;> cases hu
    | _ =>
      cases hpc
      cases hu
  | sleep hg =>
    cases hg with
    | again | woken =>
      cases hpc
      unfold afterFutex at hu
      split at hu <;> cases hu
    | _ =>
      cases hpc
      cases hu
  | detach hg => cases hg <;> cases hpc <;> cases hu
  | clean hg => cases hg <;> cases hpc <;> cases hu

/-- **Waits track their alerts** the way operations track their objects. -/
theorem tracks_alert : Tracks Pc.usesAlert Pc.KnowsAlert T where
  start := by
    intro i c
    cases c with
    | wait a timeout =>
      simp only [Pc.start]
      split
      · simp [Pc.usesAlert, WaitPc.usesAlert]
      · rfl
    | op | create | close | hold =>
      simp only [Pc.start]
      split <;> rfl
    | pulse | sweepDead => rfl
  outside := by
    intro i pc h
    rcases Pc.outside_cases h with rfl | ⟨c, r, rfl⟩ <;> rfl
  works := by
    intro i pc h
    cases pc with
    | wait c p =>
      cases p with
      | sweep seq timedOut p => simp [Pc.usesAlert, WaitPc.usesAlert]
      | _ => cases h
    | _ => rfl
  step := by
    intro o sh pid pc pc' ins i hg hu hi
    cases hg with
    | @wait c p _ _ hg =>
      obtain ⟨c', p', rfl⟩ : ∃ c' p', pc' = .wait c' p' := by
        cases pc' with
        | wait c' p' => exact ⟨c', p', rfl⟩
        | _ => cases hu
      have halert : c'.alert = c.alert := congrArg WaitArgs.alert (hg.sameArgs rfl)
      simp only [Pc.usesAlert, halert, Bool.and_eq_true, decide_eq_true_eq] at hu hi
      obtain ⟨⟨hne, rfl⟩, hp'⟩ := hu
      obtain ⟨hstate, hknown⟩ := hg.usesAlert hne c' p' rfl hp'
      refine ⟨?_, fun hk => ?_⟩
      · rcases hstate with hp | hs
        · exact (hi ⟨⟨hne, rfl⟩, hp⟩).1
        · exact hs
      · rw [halert]
        rcases hknown hk with ⟨hp, hkp⟩ | hgen
        · exact (hi ⟨⟨hne, rfl⟩, hp⟩).2 hkp
        · exact hgen.symm
    | op hg => cases hg <;> cases hu
    | pulse hg => cases hg <;> cases hu
    | create hg => cases hg <;> cases hu
    | close hg => cases hg <;> cases hu
    | hold hg => cases hg <;> cases hu
    | sweepDead hg => cases hg <;> cases hu

/-- A wait looks its alert up only when it has one. -/
def Pc.AlertOk : Pc → Prop
  | .wait c p => p.looksAlert = true → c.alert ≠ 0
  | .panicked => False
  | _ => True

/-- The fast path looks an alert up if there is one. -/
theorem WaitCtx.looksAlert_fastNext (c : WaitCtx) (i : Nat)
    (h : (c.fastNext i).looksAlert = true) : c.alert ≠ 0 := by
  unfold WaitCtx.fastNext at h
  split at h
  · cases h
  · split at h
    · assumption
    · cases h

/-- Past the alert test the locked pass does not look the alert up. -/
theorem WaitCtx.looksAlert_afterAlert (c : WaitCtx) : c.afterAlert.looksAlert = false := by
  unfold WaitCtx.afterAlert
  split <;> rfl

/-- The locked pass looks an alert up if there is one. -/
theorem WaitCtx.looksAlert_validateNext (c : WaitCtx) (i : Nat)
    (h : (c.validateNext i).looksAlert = true) : c.alert ≠ 0 := by
  unfold WaitCtx.validateNext at h
  split at h
  · cases h
  · split at h
    · assumption
    · rw [WaitCtx.looksAlert_afterAlert] at h
      cases h

/-- So does the spin loop. -/
theorem WaitCtx.looksAlert_spinFirst (c : WaitCtx) (left : Nat) (seq : U32)
    (h : (WaitPc.spin left seq c.spinFirst).looksAlert = true) : c.alert ≠ 0 := by
  unfold WaitCtx.spinFirst at h
  split at h
  · assumption
  · cases h

/-- The lookups of the alert in a spin round come one after the other. -/
theorem spinTick_looksAlert {c c' : WaitCtx} {left : Nat} {seq : U32} {p : SpinPc} {p' : WaitPc}
    (ht : spinTick sh c left seq p = some (ins, .wait c' p')) (hl : p'.looksAlert = true) :
    c'.alert = c.alert ∧ ((WaitPc.spin left seq p).looksAlert = true ∨ c.alert ≠ 0) := by
  cases p with
  | alertState | alertGen =>
    simp only [spinTick, WaitCtx.goto] at ht
    split at ht <;> cases ht
    exact ⟨rfl, .inl rfl⟩
  | word =>
    simp only [spinTick, WaitCtx.goto] at ht
    split at ht <;> cases ht <;> cases hl
  | peek all i atD =>
    simp only [spinTick, WaitCtx.goto] at ht
    repeat' split at ht
    all_goals
      cases ht
      cases hl
  | sat p =>
    simp only [spinTick] at ht
    split at ht <;> cases ht <;> cases hl
  | registered =>
    simp only [spinTick, WaitCtx.goto] at ht
    split at ht
    · cases ht
      cases hl
    · cases ht
      unfold spinNext at hl
      split at hl
      · cases hl
      · exact ⟨rfl, .inr (c.looksAlert_spinFirst _ _ hl)⟩

/-- A call starts with no lookup of an alert. -/
theorem Pc.start_alertOk (c : Call) : (Pc.start c).AlertOk := by
  cases c with
  | wait a timeout =>
    simp only [Pc.start]
    split
    · intro h
      cases h
    · trivial
  | op | create | close | hold =>
    simp only [Pc.start]
    split <;> trivial
  | pulse | sweepDead => trivial

/-- How a wait panics: a lookup of its alert does not find what an earlier one found. -/
theorem WaitGo.panics {c : WaitCtx} {p : WaitPc} (hg : WaitGo o sh pid c p ins .panicked) :
    p.looksAlert = true ∧ p.usesAlert = true ∧
      ((sh.region.slots (handleIndex c.alert)).state ≠ .used ∨
        p.knowsAlert = true ∧
          (sh.region.slots (handleIndex c.alert)).generation ≠ handleGen c.alert) := by
  cases hg with
  | fast hg =>
    generalize hpc : Pc.panicked = pc' at hg
    cases hg with
    | unwrapStateBad hs => exact ⟨rfl, rfl, .inl hs⟩
    | unwrapGenBad hgen => exact ⟨rfl, rfl, .inr ⟨rfl, hgen⟩⟩
    | _ => cases hpc
  | pass hg =>
    generalize hpc : Pc.panicked = pc' at hg
    cases hg with
    | alertPanic hs =>
      refine ⟨rfl, rfl, ?_⟩
      by_contra hne
      rw [not_or, not_not, not_and, not_not] at hne
      rw [Region.slot_eq_some.mpr ⟨rfl, hne.1, hne.2 rfl⟩] at hs
      cases hs
    | _ => cases hpc
  | spin hg =>
    generalize hpc : Pc.panicked = pc' at hg
    cases hg with
    | alertStateBad hs => exact ⟨rfl, rfl, .inl hs⟩
    | alertGenBad hgen => exact ⟨rfl, rfl, .inr ⟨rfl, hgen⟩⟩
    | _ => cases hpc
  | sweep hg => cases hg
  | sleep hg => cases hg
  | detach hg => cases hg
  | clean hg => cases hg

/-- Where a wait comes to look its alert up. -/
theorem waitTick_looksAlert {c c' : WaitCtx} {p p' : WaitPc}
    (ht : waitTick o sh pid calls c p = some (ins, .wait c' p')) (hl : p'.looksAlert = true) :
    p.looksAlert = true ∨ c.alert ≠ 0 := by
  -- the list of transitions does not tell the reads of a spin round apart
  by_cases hspin : ∃ left seq q, p = .spin left seq q
  · obtain ⟨left, seq, q, rfl⟩ := hspin
    exact (spinTick_looksAlert ht hl).2
  generalize hpc : Pc.wait c' p' = pc' at ht
  cases waitTick_inv ht with
  | fast hg =>
    cases hg with
    | lookOther | seq =>
      cases hpc
      exact .inr (c.looksAlert_fastNext _ hl)
    | alertState | alertGen | alertTyp | unwrapState => exact .inl rfl
    | unwrapStateBad | unwrapGenBad | alerted | win | failZero => cases hpc
    | _ =>
      cases hpc
      cases hl
  | pass hg =>
    cases hg with
    | validateFirst | validate =>
      cases hpc
      exact .inr (c.looksAlert_validateNext _ hl)
    | validateAlert => exact .inl rfl
    | alertClear =>
      cases hpc
      rw [WaitCtx.looksAlert_afterAlert] at hl
      cases hl
    | alloc =>
      cases hpc
      unfold WaitCtx.allocNext at hl
      split at hl <;> cases hl
    | registerSkip | register =>
      cases hpc
      unfold WaitCtx.registerNext at hl
      split at hl <;> cases hl
    | alertPanic => cases hpc
    | _ =>
      cases hpc
      cases hl
  | noSpin =>
    cases hpc
    cases hl
  | spinStart =>
    cases hpc
    exact .inr (c.looksAlert_spinFirst _ _ hl)
  | spin => exact absurd ⟨_, _, _, rfl⟩ hspin
  | @sweep seq timedOut p ins pc' hg =>
    cases hg with
    | skip | unlock =>
      cases hpc
      cases timedOut <;> cases hl
    | _ =>
      cases hpc
      cases hl
  | sleep hg =>
    cases hg with
    | again | woken =>
      cases hpc
      unfold afterFutex at hl
      split at hl <;> cases hl
    | _ =>
      cases hpc
      cases hl
  | detach hg => cases hg <;> cases hpc <;> cases hl
  | clean hg => cases hg <;> cases hpc <;> cases hl

/-- A wait that relies on an alert that resolves does not panic, and looks up only what it has. -/
theorem tick_alertOk {pc : Pc} (ht : tick o sh pid calls pc = some (ins, pc')) (hok : pc.AlertOk)
    (hi : ∀ i, pc.usesAlert i = true → (sh.region.slots i).state = .used ∧
      pc.KnowsAlert i (sh.region.slots i).generation (sh.region.slots i).objType) :
    pc'.AlertOk := by
  cases tick_inv ht with
  | @wait c p _ _ hg =>
    match pc' with
    | .panicked =>
      obtain ⟨hl, hu, hbad⟩ := hg.panics
      obtain ⟨hused, hgen⟩ := hi (handleIndex c.alert) (by
        simp only [Pc.usesAlert, hu, Bool.and_true, decide_eq_true_eq]
        exact ⟨hok hl, trivial⟩)
      rcases hbad with hs | ⟨hk, hne⟩
      · exact hs hused
      · exact hne (hgen hk).symm
    | .wait c' p' =>
      intro hl
      rw [show c'.alert = c.alert from congrArg WaitArgs.alert (hg.sameArgs rfl)]
      rcases waitTick_looksAlert ht hl with hp | hne
      · exact hok hp
      · exact hne
    | .idle | .done _ _ | .op _ _ _ | .pulse _ _ | .create _ _ | .close _ _ | .hold _ _ _
    | .sweepDead _ => trivial
  | op hg => cases hg <;> trivial
  | pulse hg => cases hg <;> trivial
  | create hg => cases hg <;> trivial
  | close hg => cases hg <;> trivial
  | hold hg => cases hg <;> trivial
  | sweepDead hg => cases hg <;> trivial

end Alerts

section AlertRuns

variable [DecidableEq T] {s s' : Sys T} {a : Action T} {l : Label T}

/-- The invariant of runs that free no alert under a wait that trusts in it. -/
structure AlertInv (s : Sys T) : Prop where
  table : TableInv s
  ok : ∀ t, (s.threads t).pc.AlertOk
  relies : Relies Pc.usesAlert Pc.KnowsAlert s

omit [DecidableEq T] in
/-- At rest nobody relies on an alert. -/
theorem AlertInv.of_idle (hidle : s.Idle) (hlock : s.lock = none) : AlertInv s := by
  refine ⟨.of_idle hidle hlock, fun t => ?_, .of_idle tracks_alert hidle⟩
  rcases Pc.outside_cases (hidle t) with hpc | ⟨c, r, hpc⟩ <;> rw [hpc] <;> trivial

/-- **No wait panics** in a run that spares the alerts. -/
theorem AlertInv.step (hi : AlertInv s)
    (hs : s.step a = some (s', l)) (hok : Spares Pc.usesAlert s l) : AlertInv s' := by
  refine ⟨hi.table.step hs, fun u => ?_, tracks_alert.step_relies hi.table hi.relies hs hok⟩
  cases Sys.step_inv hs with
  | @call t c ha hout =>
    rw [Sys.entered_pc]
    split
    · exact Pc.start_alertOk c
    · exact hi.ok u
  | @tick t o ins pc' ha ht =>
    rw [Sys.after_pc]
    split
    · exact tick_alertOk ht (hi.ok t) (fun i => hi.relies t i ha)
    · exact hi.ok u
  | die => exact hi.ok u

end AlertRuns

end Ntsync
