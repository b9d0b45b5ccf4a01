import Mathlib
import Ntsync.Tables

namespace Ntsync

open Words Lts

/-!
# One thread, undisturbed

A call that nobody interrupts is a sequence of steps of its thread alone.

* `AloneBy ok` — such a sequence, of instructions that `ok` allows; `Alone` — one of any instructions
  but the increment of the thread-local sweep gate, which `Sys.put` does not show;
* `AloneBy.run_own` — the sequence is a run of the system, and all of its labels are the thread's;
* `AloneBy.create`, `Alone.close` — a `create_*` that finds a free slot, and a `close` of an object
  that nobody waits for.
-/

variable {T : Type}

/-- The step frees no slot, and nobody dies in it. -/
def Steady (l : Label T) : Prop := l.frees = none ∧ ∀ p, l ≠ .die p

section Alone

variable [DecidableEq T]

/-- The system `s` with shared memory `sh` and thread `t` at `pc`. -/
def Sys.put (s : Sys T) (t : T) (sh : Shared T) (pc : Pc) : Sys T where
  toShared := sh
  threads := Function.update s.threads t { s.threads t with pc := pc }

@[simp] theorem Sys.put_thread (s : Sys T) (t : T) (sh : Shared T) (pc : Pc) :
    (s.put t sh pc).threads t = { s.threads t with pc := pc } := by
  simp [Sys.put]

/-- Putting back what is there changes nothing. -/
theorem Sys.put_self (s : Sys T) (t : T) : s.put t s.toShared (s.threads t).pc = s := by
  simp [Sys.put]

/-- Thread `t` of process `pid` gets from one shared memory and program counter to another by
    steps of its own, whose instructions `ok` allows. -/
inductive AloneBy (ok : Instr → Prop) (t : T) (pid : U32) : Shared T → Pc → Shared T → Pc → Prop
  | refl {sh : Shared T} {pc : Pc} : AloneBy ok t pid sh pc sh pc
  | head {sh sh' : Shared T} {pc q pc' : Pc} {i : Instr} :
      (∀ calls, tick {} sh pid calls pc = some (i, q)) → ok i →
      AloneBy ok t pid (i.apply t pid sh) q sh' pc' → AloneBy ok t pid sh pc sh' pc'

/-- Thread `t` of process `pid` gets from one shared memory and program counter to another by
    steps of its own. -/
abbrev Alone (t : T) (pid : U32) : Shared T → Pc → Shared T → Pc → Prop :=
  AloneBy (· ≠ .countCall) t pid

section Sequences

variable {ok ok' : Instr → Prop} {t : T} {pid : U32} {sh sh' sh'' : Shared T} {pc pc' pc'' : Pc}

omit [DecidableEq T] in
/-- Sequences compose. -/
theorem AloneBy.trans (h : AloneBy ok t pid sh pc sh' pc')
    (h' : AloneBy ok t pid sh' pc' sh'' pc'') : AloneBy ok t pid sh pc sh'' pc'' := by
  induction h with
  | refl => exact h'
  | head ht hc _ ih => exact .head ht hc (ih h')

omit [DecidableEq T] in
/-- Allowing more instructions keeps a sequence. -/
theorem AloneBy.mono (hok : ∀ i, ok i → ok' i) (h : AloneBy ok t pid sh pc sh' pc') :
    AloneBy ok' t pid sh pc sh' pc' := by
  induction h with
  | refl => exact .refl
  | head ht hc _ ih => exact .head ht (hok _ hc) ih

end Sequences

section Runs

variable {ok : Instr → Prop} {t : T} {s : Sys T} {sh sh' : Shared T} {pc pc' : Pc}

/-- One step of the thread. -/
theorem Sys.put_step {q : Pc} {ins : Instr}
    (ht : ∀ calls, tick {} sh (s.threads t).pid calls pc = some (ins, q)) (hc : ins ≠ .countCall)
    (ha : sh.dead (s.threads t).pid = false) :
    (s.put t sh pc).step (.tick t {}) =
      some (s.put t (ins.apply t (s.threads t).pid sh) q, .instr t (s.threads t).pid ins) := by
  have hcalls : ins.countCalls (s.threads t).calls = (s.threads t).calls := by
    cases ins with
    | countCall => exact absurd rfl hc
    | _ => rfl
  have hd : (s.put t sh pc).dead (s.threads t).pid = false := ha
  simp only [Sys.step, Sys.put_thread, hd, Bool.false_eq_true, if_false]
  rw [show (s.put t sh pc).toShared = sh from rfl, ht]
  simp only [hcalls, Sys.put, Function.update_idem]

/-- **Steps of one thread are a run of the system**, and every label of it is an instruction of the
    thread that `ok` allows. -/
theorem AloneBy.run_own (hc : ∀ i, ok i → i ≠ .countCall)
    (h : AloneBy ok t (s.threads t).pid sh pc sh' pc') (ha : sh.dead (s.threads t).pid = false) :
    ∃ hist, Run Sys.step (fun _ l _ => ∃ ins, l = .instr t (s.threads t).pid ins ∧ ok ins)
      (s.put t sh pc) hist (s.put t sh' pc') := by
  induction h with
  | refl => exact ⟨[], .nil⟩
  | @head sh sh' pc pc₁ pc' ins ht hok _ ih =>
    have hdead : (ins.apply t (s.threads t).pid sh).dead = sh.dead := by
      cases ins with
      | allocNode => simp only [Instr.apply]; split <;> rfl
      | _ => rfl
    obtain ⟨hist, hr⟩ := ih (by rw [hdead]; exact ha)
    exact ⟨_, (Run.nil.snoc (Sys.put_step ht (hc _ hok) ha) ⟨ins, rfl, hok⟩).trans hr⟩

/-- A sequence as a run, whatever its labels are. -/
theorem AloneBy.run (h : Alone t (s.threads t).pid sh pc sh' pc')
    (ha : sh.dead (s.threads t).pid = false) :
    ∃ hist, Run Sys.step (fun _ _ _ => True) (s.put t sh pc) hist (s.put t sh' pc') := by
  obtain ⟨hist, hr⟩ := h.run_own (fun _ hi => hi) ha
  exact ⟨hist, hr.mono fun _ _ _ _ => trivial⟩

/-- A sequence that frees no slot, as a run that frees none. -/
theorem AloneBy.run_steady
    (h : AloneBy (fun i => i ≠ .countCall ∧ i.freesSlot? = none) t (s.threads t).pid sh pc sh' pc')
    (ha : sh.dead (s.threads t).pid = false) :
    ∃ hist, Run Sys.step (fun _ l _ => Steady l) (s.put t sh pc) hist (s.put t sh' pc') := by
  obtain ⟨hist, hr⟩ := h.run_own (fun _ hi => hi.1) ha
  refine ⟨hist, hr.mono fun s l s' hl => ?_⟩
  obtain ⟨ins, rfl, hok⟩ := hl
  exact ⟨hok.2, fun p he => by cases he⟩

/-- Entering a call. -/
theorem Sys.put_enter {s : Sys T} {t : T} {sh : Shared T} {pc : Pc} {c : Call}
    (ha : sh.dead (s.threads t).pid = false) (ho : pc.outside = true) :
    Run Sys.step (fun _ l _ => l = .call t c) (s.put t sh pc) [.call t c]
      (s.put t sh (.start c)) := by
  refine Run.nil.snoc (a := .call t c) ?_ rfl
  have hd : (s.put t sh pc).dead (s.threads t).pid = false := ha
  simp only [Sys.step, Sys.put_thread, hd, ho, and_self, if_true]
  simp only [Sys.put, Function.update_idem]

/-- Entering a call, as a step like any other. -/
theorem Sys.put_call {s : Sys T} {t : T} {sh : Shared T} {pc : Pc} {c : Call}
    (ha : sh.dead (s.threads t).pid = false) (ho : pc.outside = true) :
    Run Sys.step (fun _ _ _ => True) (s.put t sh pc) [.call t c] (s.put t sh (.start c)) :=
  (Sys.put_enter ha ho).mono fun _ _ _ _ => trivial

end Runs

/-! ### A create, and a close of an object nobody waits on -/

section Tables

variable {ok : Instr → Prop} {t : T} {pid : U32} {sh : Shared T} {k : Create} {hd : U32} {i : Nat}

omit [DecidableEq T] in
/-- Two changes of one slot are one. -/
theorem Region.setSlot_setSlot (r : Region) (i : Nat) (f g : Slot → Slot) :
    (r.setSlot i f).setSlot i g = r.setSlot i fun s => g (f s) := by
  simp [Region.setSlot]

omit [DecidableEq T] in
/-- The stores of a publication, one after the other. -/
theorem AloneBy.write (k : Create) (hd : U32) (ws : List SlotWrite)
    (hok : ∀ w ∈ ws, ok (.store (handleIndex hd) w)) (sh : Shared T) :
    AloneBy ok t pid sh (.create k (.write hd ws))
      { sh with region := sh.region.setSlot (handleIndex hd) fun s =>
          ws.foldl (fun s w => w.apply s) s } (.create k (.write hd [])) := by
  induction ws generalizing sh with
  | nil =>
    have hsame : sh.region.setSlot (handleIndex hd) (fun s => s) = sh.region := by
      simp [Region.setSlot]
    simp only [List.foldl_nil, hsame]
    exact .refl
  | cons w ws ih =>
    refine .head (i := .store (handleIndex hd) w) (fun _ => rfl) (hok w (List.mem_cons_self ..)) ?_
    have hrest := ih (fun w' hw' => hok w' (List.mem_cons_of_mem _ hw'))
      ((Instr.store (handleIndex hd) w).apply t pid sh)
    simp only [Instr.apply, Region.setSlot_setSlot] at hrest
    exact hrest

/-- The instructions of a create in slot `i` under the lock. -/
structure Creates (ok : Instr → Prop) (i : Nat) (k : Create) (pid : U32) : Prop where
  silent : ok .silent
  take : ok (.takeSlot i)
  store : ∀ w ∈ slotPublish k.objType k.word pid, ok (.store i w)

omit [DecidableEq T] in
/-- A create under the lock, from `alloc_slot` on. -/
theorem AloneBy.alloc {retry : Bool} (hok : Creates ok i k pid) (hf : sh.region.freeSlot = some i) :
    AloneBy ok t pid sh (.create k (.alloc retry))
      { sh with region := sh.region.created i k pid }
      (.create k (.unlock (.ok (mkHandle (sh.region.slots i).generation i)))) := by
  have hidx := handleIndex_mkHandle (sh.region.slots i).generation (Region.freeSlot_spec hf).1
  refine .head (i := .takeSlot i) (q := .create k (.write
    (mkHandle (sh.region.slots i).generation i) (slotPublish k.objType k.word pid)))
    (fun _ => ?_) hok.take ?_
  · show createTick sh pid k (.alloc retry) = _
    simp only [createTick, hf]
  refine (AloneBy.write k _ _ (by rw [hidx]; exact hok.store) _).trans
    (.head (i := .silent) (fun _ => rfl) hok.silent ?_)
  rw [hidx]
  exact .refl

omit [DecidableEq T] in
/-- **A create** by one thread, up to its return. -/
theorem AloneBy.create (hok : Creates ok i k pid) (hlk : ok .lock) (hl : sh.lock = none)
    (hf : sh.region.freeSlot = some i) :
    AloneBy ok t pid sh (.create k .lock)
      { sh with region := sh.region.created i k pid, lock := some t }
      (.create k (.unlock (.ok (mkHandle (sh.region.slots i).generation i)))) := by
  refine .head (i := .lock) (q := .create k (.alloc false)) (fun _ => ?_) hlk ?_
  · simp [tick, createTick, takeLock, hl]
  · show AloneBy ok t pid { sh with lock := some t } _ _ _
    exact AloneBy.alloc hok hf

/-- A create increments no sweep gate, and frees no slot. -/
theorem creates_steady (i : Nat) (k : Create) (pid : U32) :
    Creates (fun ins => ins ≠ .countCall ∧ ins.freesSlot? = none) i k pid := by
  refine ⟨⟨by simp, rfl⟩, ⟨by simp, rfl⟩, fun w hw => ⟨by simp, ?_⟩⟩
  simp only [slotPublish, List.mem_append, List.mem_cons, List.not_mem_nil, or_false,
    List.mem_map] at hw
  rcases hw with ((rfl | rfl | rfl | rfl | rfl) | ⟨k, _, rfl⟩) | rfl <;> rfl

omit [DecidableEq T] in
/-- A create under the lock, as steps of the thread's own. -/
theorem Alone.alloc {retry : Bool} (hf : sh.region.freeSlot = some i) :
    Alone t pid sh (.create k (.alloc retry)) { sh with region := sh.region.created i k pid }
      (.create k (.unlock (.ok (mkHandle (sh.region.slots i).generation i)))) :=
  (AloneBy.alloc (creates_steady i k pid) hf).mono fun _ hi => hi.1

omit [DecidableEq T] in
/-- A close by one thread up to the store that marks the slot free, of an object that the thread's
    process does not hold. -/
theorem AloneBy.found (hlk : ok .lock) (hsil : ok .silent) (hl : sh.lock = none)
    (hs : sh.region.slot hd = some (handleIndex hd))
    (hh : (sh.region.slots (handleIndex hd)).holderRemove pid = []) :
    AloneBy ok t pid sh (.close hd .lock) { sh with lock := some t } (.close hd .free) := by
  refine .head (i := .lock) (q := .close hd .check) (fun _ => ?_) hlk ?_
  · simp [tick, closeTick, takeLock, hl]
  refine .head (i := .silent) (q := .close hd (.write [])) (fun _ => ?_) hsil ?_
  · show closeTick (Instr.lock.apply t pid sh) pid hd .check = _
    simp only [closeTick, Instr.apply, hs, hh]
  exact .head (i := .silent) (fun _ => rfl) hsil .refl

omit [DecidableEq T] in
/-- **A close** by one thread of an object without waiters and holders, up to its end. -/
theorem Alone.close (t : T) (pid : U32) {hd : U32} (hl : sh.lock = none)
    (hs : sh.region.slot hd = some (handleIndex hd))
    (hh : (sh.region.slots (handleIndex hd)).holderRemove pid = [])
    (hw : (sh.region.slots (handleIndex hd)).waiterHead = none) :
    Alone t pid sh (.close hd .lock)
      { sh with region := sh.region.setSlot (handleIndex hd) fun s =>
          { s with state := .free, generation := s.generation + 1 } }
      (.done (.close hd) (.bool true)) := by
  refine (AloneBy.found (by simp) (by simp) hl hs hh).trans ?_
  refine .head (i := .store (handleIndex hd) (.state .free)) (fun _ => rfl) (by simp) ?_
  refine .head (fun _ => rfl) (by simp) ?_
  refine .head (i := .silent) (q := .close hd (.walk (.node none))) (fun _ => ?_) (by simp) ?_
  · show closeTick _ pid hd (.walk .start) = _
    simp [closeTick, Walk.step, Instr.apply, SlotWrite.apply, hw]
  refine .head (i := .silent) (fun _ => rfl) (by simp) ?_
  refine .head (i := .unlock) (fun _ => rfl) (by simp) ?_
  simp only [Instr.apply, Region.setSlot_setSlot, SlotWrite.apply, Region.setSlot_slots, if_true]
  rw [← hl]
  exact .refl

end Tables

end Alone

end Ntsync
