import Mathlib
import Ntsync.Open

namespace Ntsync

open Words Lts

/-!
# The slot table

The fields of a slot other than its state word and its list head are stored to under the region
lock only.  So what the lock holder has found out about the slot it works on, or has made of it,
stays true until its next step:

* `Publishing` — how far a `create_*` has got with the stores of `slot_publish`;
* `Pc.TableOk` — what each table operation knows about its slot;
* `TableInv` — the invariant of every run, with deaths anywhere: a process that dies inside a
  critical section leaves its slot as it is and never comes back to it.
-/

variable {T : Type}

/-! ### Frame -/

/-- The two contents of a slot differ at most in word, pulse counter and list head. -/
structure SameTable (s s' : Slot) : Prop where
  state : s'.state = s.state
  generation : s'.generation = s.generation
  objType : s'.objType = s.objType
  pid : s'.pid = s.pid
  holdersLen : s'.holdersLen = s.holdersLen
  holders : s'.holders = s.holders

/-- A slot agrees with itself. -/
theorem SameTable.refl (s : Slot) : SameTable s s := ⟨rfl, rfl, rfl, rfl, rfl, rfl⟩

/-- The instructions that store to the table fields of slot `i`. -/
def Instr.stores (i : Nat) : Instr → Bool
  | .store j _ => decide (j = i)
  | .reap j => decide (j = i)
  | _ => false

/-- The slot that the instruction marks free: the first store of a close to its slot, or a reap. -/
def Instr.freesSlot? : Instr → Option Nat
  | .store i (.state .free) | .reap i => some i
  | _ => none

/-- The slot that the step frees. -/
def Label.frees : Label T → Option Nat
  | .instr _ _ ins => ins.freesSlot?
  | _ => none

/-- An instruction that does not store to a slot leaves its table part alone. -/
theorem Instr.sameTable {ins : Instr} {i : Nat} (t : T) (pid : U32) (sh : Shared T)
    (h : ins.stores i = false) :
    SameTable (sh.region.slots i) ((ins.apply t pid sh).region.slots i) := by
  obtain ⟨hd, hr⟩ := Instr.apply_slot t pid sh ins i
  rw [hr]
  cases ins with
  | word hd' j tag new | storeD j v =>
    simp only [Instr.slotAfter]
    split <;> exact ⟨rfl, rfl, rfl, rfl, rfl, rfl⟩
  | store j w | reap j =>
    have hij : ¬ i = j := fun e => of_decide_eq_false h e.symm
    simp only [Instr.slotAfter, if_neg hij]
    exact ⟨rfl, rfl, rfl, rfl, rfl, rfl⟩
  | _ => exact ⟨rfl, rfl, rfl, rfl, rfl, rfl⟩

/-- What is done without the lock stores to no table part. -/
theorem Instr.stores_of_unguarded {ins : Instr} (h : ins.guarded = false) (i : Nat) :
    ins.stores i = false := by
  cases ins <;> first | rfl | cases h

/-- A step from outside the critical sections is not guarded. -/
theorem LockStep.unguarded {sh : Shared T} {l' : Bool} {ins : Instr}
    (h : LockStep sh false l' ins) : ins.guarded = false := by
  cases ins with
  | lock | unlock | silent | countCall => rfl
  | word hd i tag new =>
    by_contra hg
    rw [Bool.not_eq_false] at hg
    cases h.2 hg
  | _ => cases h.2 rfl

/-- A guarded step is made inside a critical section. -/
theorem tick_locked {o : Oracle} {sh : Shared T} {pid : U32} {calls : U64} {pc pc' : Pc}
    {ins : Instr} (ht : tick o sh pid calls pc = some (ins, pc')) (h : ins.guarded = true) :
    pc.locked = true := by
  have hls := tick_lockStep ht
  by_contra hne
  rw [Bool.not_eq_true] at hne
  rw [hne] at hls
  rw [hls.unguarded] at h
  cases h

/-! ### Publishing -/

/-- A store of `slot_publish` for an object of type `ty` created by `pid`. -/
def SlotWrite.publishes (ty : ObjType) (pid : U32) : SlotWrite → Prop
  | .objType v => v = ty
  | .pid v => v = pid
  | .generation _ => False
  | .state v => v = .used
  | _ => True

/-- A `create_*` by process `pid` is going to hand out `h` and has the stores `ws` left. -/
structure Publishing (ty : ObjType) (pid h : U32) (ws : List SlotWrite) (s : Slot) : Prop where
  handle : h = mkHandle s.generation (handleIndex h)
  typ : .objType ty ∈ ws ∨ s.objType = ty
  creator : .pid pid ∈ ws ∨ s.pid = pid
  only : ∀ w ∈ ws, w.publishes ty pid
  last : (ws = [] ∧ s.state = .used) ∨
    (s.state = .free ∧ ∃ ws', ws = ws' ++ [.state .used] ∧ ∀ w ∈ ws', ∀ v, w ≠ .state v)

/-- A publication does not depend on word, pulse counter and list head. -/
theorem Publishing.same {ty : ObjType} {pid h : U32} {ws : List SlotWrite} {s s' : Slot}
    (hp : Publishing ty pid h ws s) (hs : SameTable s s') : Publishing ty pid h ws s' where
  handle := by rw [hs.generation]; exact hp.handle
  typ := by rw [hs.objType]; exact hp.typ
  creator := by rw [hs.pid]; exact hp.creator
  only := hp.only
  last := by rw [hs.state]; exact hp.last

/-- A create that has found a free slot has all the stores of `slot_publish` left. -/
theorem Publishing.start {r : Region} {i : Nat} (hf : r.freeSlot = some i) (ty : ObjType)
    (w0 : U64) (pid : U32) :
    Publishing ty pid (mkHandle (r.slots i).generation i) (slotPublish ty w0 pid) (r.slots i) := by
  obtain ⟨hlt, hfree⟩ := Region.freeSlot_spec hf
  refine ⟨by rw [handleIndex_mkHandle _ hlt], .inl (by simp [slotPublish]),
    .inl (by simp [slotPublish]), fun w hw => ?_, .inr ⟨hfree, _, rfl, fun w hw v => ?_⟩⟩
  · simp only [slotPublish, List.mem_append, List.mem_cons, List.not_mem_nil, or_false,
      List.mem_map] at hw
    rcases hw with ((rfl | rfl | rfl | rfl | rfl) | ⟨k, _, rfl⟩) | rfl
    all_goals first | rfl | trivial
  · simp only [List.mem_append, List.mem_cons, List.not_mem_nil, or_false, List.mem_map] at hw
    rcases hw with (rfl | rfl | rfl | rfl | rfl) | ⟨k, _, rfl⟩ <;> exact fun he => by cases he

/-- One store of the publication. -/
theorem Publishing.store {ty : ObjType} {pid h : U32} {w : SlotWrite} {ws : List SlotWrite}
    {s : Slot} (hp : Publishing ty pid h (w :: ws) s) : Publishing ty pid h ws (w.apply s) := by
  have hw := hp.only w (by simp)
  have htyp := hp.typ
  have hpid := hp.creator
  rw [List.mem_cons] at htyp hpid
  -- the list of pending stores ends with the one that marks the slot used
  obtain ⟨hfree, ws', hws, hnone⟩ : s.state = .free ∧ ∃ ws', w :: ws = ws' ++ [.state .used] ∧
      ∀ w ∈ ws', ∀ v, w ≠ .state v := by
    rcases hp.last with ⟨he, _⟩ | hlast
    · cases he
    · exact hlast
  have honly : ∀ w ∈ ws, w.publishes ty pid := fun w hw => hp.only w (List.mem_cons_of_mem _ hw)
  cases ws' with
  | nil =>
    obtain ⟨rfl, rfl⟩ : w = .state .used ∧ ws = [] := by simpa using hws
    refine ⟨hp.handle, .inr ?_, .inr ?_, honly, .inl ⟨rfl, rfl⟩⟩
    · simpa [SlotWrite.apply] using htyp
    · simpa [SlotWrite.apply] using hpid
  | cons x ws' =>
    obtain ⟨rfl, rfl⟩ : w = x ∧ ws = ws' ++ [.state .used] := by simpa using hws
    have hlast : ∀ w' ∈ ws', ∀ v, w' ≠ SlotWrite.state v :=
      fun w' hw' => hnone w' (List.mem_cons_of_mem _ hw')
    cases w with
    | state v => exact absurd rfl (hnone _ (by simp) v)
    | generation v => exact hw.elim
    | objType v =>
      obtain rfl : v = ty := hw
      exact ⟨hp.handle, .inr rfl, by simpa [SlotWrite.apply] using hpid, honly, .inr ⟨hfree, _, rfl, hlast⟩⟩
    | pid v =>
      obtain rfl : v = pid := hw
      exact ⟨hp.handle, by simpa [SlotWrite.apply] using htyp, .inr rfl, honly, .inr ⟨hfree, _, rfl, hlast⟩⟩
    | holdersLen | holder | w0 | d =>
      exact ⟨hp.handle, by simpa [SlotWrite.apply] using htyp, by simpa [SlotWrite.apply] using hpid, honly,
        .inr ⟨hfree, _, rfl, hlast⟩⟩

/-! ### What the lock holder knows -/

/-- What a table operation under way knows about its slot. -/
def Pc.TableOk (r : Region) (pid : U32) : Pc → Prop
  | .create k (.write h ws) => Publishing k.objType pid h ws (r.slots (handleIndex h))
  | .create k (.unlock (.ok h)) => Publishing k.objType pid h [] (r.slots (handleIndex h))
  | .close h (.write _) | .close h .free | .hold _ h (.write _) | .hold _ h (.mark _) =>
    (r.slots (handleIndex h)).state = .used
  | .close h .gen => (r.slots (handleIndex h)).state = .free
  | _ => True

/-- What a table operation knows is about the table parts only. -/
theorem Pc.TableOk.same {pc : Pc} {r r' : Region} {pid : U32} (h : pc.TableOk r pid)
    (hs : ∀ i, SameTable (r.slots i) (r'.slots i)) : pc.TableOk r' pid := by
  unfold Pc.TableOk at h ⊢
  split at h
  · exact h.same (hs _)
  · exact h.same (hs _)
  all_goals first | exact (hs _).state.trans h | trivial

/-- A thread without the lock claims to know nothing. -/
theorem Pc.TableOk.of_unlocked {pc : Pc} (h : pc.locked = false) (r : Region) (pid : U32) :
    pc.TableOk r pid := by
  unfold Pc.TableOk
  split <;> trivial

section Own

variable {o : Oracle} {sh : Shared T} {pid : U32} {ins : Instr} {pc pc' : Pc}

/-- Stores to the holder array leave the slot used. -/
theorem SlotWrite.apply_state {w : SlotWrite} (h : w.holds = true) (s : Slot) :
    (w.apply s).state = s.state := by
  cases w <;> first | rfl | cases h

/-- What a step makes known. -/
theorem PcGo.tableOk (hg : PcGo sh pid o pc ins pc') (hok : pc.TableOk sh.region pid)
    (hw : pc.holderWrites) (t : T) : pc'.TableOk (ins.apply t pid sh).region pid := by
  have hstore : ∀ i w, ((Instr.store i w).apply t pid sh).region.slots i =
      w.apply (sh.region.slots i) := by
    intro i w
    show (sh.region.setSlot i w.apply).slots i = _
    simp
  cases hg with
  | op hg => cases hg <;> trivial
  | pulse hg => cases hg <;> trivial
  | @wait c p _ _ hg =>
    match pc' with
    | .create _ _ | .close _ _ | .hold _ _ _ => rcases hg.args with ha | ha <;> cases ha
    | .idle | .done _ _ | .panicked | .op _ _ _ | .pulse _ _ | .wait _ _ | .sweepDead _ => trivial
  | create hg =>
    cases hg with
    -- the slot just taken is the free one at the cursor, under the generation it has
    | take hf =>
      refine (Publishing.start hf _ _ _).same ?_
      rw [handleIndex_mkHandle _ (Region.freeSlot_spec hf).1]
      exact Instr.sameTable t pid sh rfl
    | written => exact hok
    -- a holder store fills in the array of the slot being published
    | write =>
      show Publishing _ _ _ _ (_ : Slot)
      rw [hstore]
      exact hok.store
    | _ => trivial
  | close hg =>
    cases hg with
    | check hs =>
      obtain ⟨rfl, hu, _⟩ := Region.slot_eq_some.mp hs
      exact hu
    | written => exact hok
    | write =>
      show (_ : Slot).state = _
      rw [hstore, SlotWrite.apply_state (hw _ (by simp))]
      exact hok
    | free =>
      show (_ : Slot).state = _
      rw [hstore]
      rfl
    -- the free comes after all stores of a close
    | _ => trivial
  | hold hg =>
    cases hg with
    | checkAdd hs | checkRemove hs =>
      obtain ⟨rfl, hu, _⟩ := Region.slot_eq_some.mp hs
      exact hu
    | writtenAdd | markRemove => exact hok
    | write =>
      show (_ : Slot).state = _
      rw [hstore, SlotWrite.apply_state (hw _ (by simp))]
      exact hok
    | _ => trivial
  | sweepDead hg => cases hg <;> trivial

end Own

/-! ### The invariant -/

/-- Mutual exclusion, and what every live thread knows about the slot it works on. -/
structure TableInv (s : Sys T) : Prop where
  lock : s.LockInv
  writes : ∀ t, (s.threads t).pc.holderWrites
  ok : ∀ t, s.dead (s.threads t).pid = false →
    (s.threads t).pc.TableOk s.region (s.threads t).pid
  reaped : ∀ t auto st i judged, s.dead (s.threads t).pid = false →
    (s.threads t).pc.sweep? = some (auto, .reapGen st i judged) →
    (s.region.slots i).state = .free

/-- At rest, with the lock free, the invariant holds. -/
theorem TableInv.of_idle {s : Sys T} (hidle : s.Idle) (hlock : s.lock = none) : TableInv s := by
  refine ⟨fun t => ?_, fun t => ?_, fun t _ => ?_, fun t auto st i judged _ hsw => ?_⟩
  · rw [hlock, Pc.locked_of_outside (hidle t)]
    simp
  · rcases Pc.outside_cases (hidle t) with hpc | ⟨c, r, hpc⟩ <;> rw [hpc] <;> trivial
  · exact .of_unlocked (Pc.locked_of_outside (hidle t)) _ _
  · rcases Pc.outside_cases (hidle t) with hpc | ⟨c, r, hpc⟩ <;> rw [hpc] at hsw <;> cases hsw

/-- A reap bumps the generation under the lock. -/
theorem Pc.locked_of_reapGen {pc : Pc} {auto : Bool} {st : SweepSt} {i : Nat}
    {judged : List (DeadCand × Bool)} (h : pc.sweep? = some (auto, .reapGen st i judged)) :
    pc.locked = true := by
  unfold Pc.sweep? at h
  split at h <;> cases h <;> rfl

section TableStep

variable [DecidableEq T] {s s' : Sys T} {a : Action T} {l : Label T}

omit [DecidableEq T] in
/-- **The others.** While a live thread is inside a critical section, nobody else's step stores to
    the table. -/
theorem Sys.LockInv.others {t u : T} {o : Oracle} {ins : Instr} {pc' : Pc} (hl : s.LockInv)
    (ha : s.dead (s.threads t).pid = false)
    (ht : tick o s.toShared (s.threads t).pid (s.threads t).calls (s.threads t).pc =
      some (ins, pc')) (hut : u ≠ t) (hua : s.dead (s.threads u).pid = false)
    (hlocked : (s.threads u).pc.locked = true) : ins.guarded = false := by
  have hfree : (s.threads t).pc.locked = false := by
    by_contra hne
    rw [Bool.not_eq_false] at hne
    exact hut (hl.unique hlocked hua hne ha)
  have hls := tick_lockStep ht
  rw [hfree] at hls
  exact hls.unguarded

/-- A step without the lock leaves all table parts alone. -/
theorem Sys.after_same {ins : Instr} (h : ins.guarded = false) (s : Sys T) (t : T) (pc' : Pc)
    (i : Nat) : SameTable (s.region.slots i) ((s.after t ins pc').region.slots i) :=
  Instr.sameTable t _ s.toShared (Instr.stores_of_unguarded h i)

/-- **The invariant is kept by every step.** -/
theorem TableInv.step (hi : TableInv s) (h : s.step a = some (s', l)) : TableInv s' := by
  have hlock := hi.lock.step h
  cases Sys.step_inv h with
  | @call t c ha hout =>
    refine ⟨hlock, fun u => ?_, fun u hua => ?_, fun u auto st i judged hua hsw => ?_⟩
    · rw [Sys.entered_pc]
      split
      · exact Pc.start_holderWrites c
      · exact hi.writes u
    · rw [Sys.entered_dead, Sys.entered_pid] at hua
      rw [Sys.entered_pc, Sys.entered_pid]
      split
      · exact .of_unlocked (Pc.start_locked c) _ _
      · exact hi.ok u hua
    · rw [Sys.entered_dead, Sys.entered_pid] at hua
      rw [Sys.entered_pc] at hsw
      split at hsw
      · have hlk := Pc.locked_of_reapGen hsw
        rw [Pc.start_locked] at hlk
        cases hlk
      · exact hi.reaped u auto st i judged hua hsw
  | @tick t o ins pc' ha ht =>
    have hg := tick_inv ht
    refine ⟨hlock, fun u => ?_, fun u hua => ?_, fun u auto st i judged hua hsw => ?_⟩
    · rw [Sys.after_pc]
      split
      · exact hg.holderWrites (hi.writes t)
      · exact hi.writes u
    · rw [Sys.after_dead, Sys.after_pid] at hua
      rw [Sys.after_pc, Sys.after_pid]
      by_cases hut : u = t
      · subst hut
        rw [if_pos rfl]
        exact hg.tableOk (hi.ok u ha) (hi.writes u) u
      · rw [if_neg hut]
        by_cases hlk : (s.threads u).pc.locked = true
        · exact (hi.ok u hua).same
            (Sys.after_same (hi.lock.others ha ht hut hua hlk) s t pc')
        · exact .of_unlocked (by simpa using hlk) _ _
    · rw [Sys.after_dead, Sys.after_pid] at hua
      rw [Sys.after_pc] at hsw
      by_cases hut : u = t
      · rw [if_pos hut] at hsw
        obtain rfl := hg.reapGen hsw
        show ((s.region.setSlot i fun x => { x with state := .free }).slots i).state = .free
        simp
      · rw [if_neg hut] at hsw
        have hsame := Sys.after_same
          (hi.lock.others ha ht hut hua (Pc.locked_of_reapGen hsw)) s t pc' i
        exact hsame.state.trans (hi.reaped u auto st i judged hua hsw)
  | @die pid =>
    refine ⟨hlock, hi.writes, fun u hua => ?_, fun u auto st i judged hua => ?_⟩
    · rw [Sys.died_dead, Sys.died_threads, Bool.or_eq_false_iff] at hua
      exact hi.ok u hua.2
    · rw [Sys.died_dead, Sys.died_threads, Bool.or_eq_false_iff] at hua
      exact hi.reaped u auto st i judged hua.2

end TableStep

end Ntsync
