import Mathlib
import Ntsync.Locking

namespace Ntsync

open Words

/-!
# Which call does what

Inversions of a step by the instruction it performs: a store to an object's word comes from one of
three places (`tick_word`), a slot is freed by `close` or by a reap (`tick_frees`), and so on.  The
wake walks and the sweeps, which several calls run, are seen through `Pc.walk?` and `Pc.sweep?`.
-/

variable {T : Type}

/-! ### Wake walks -/

/-- The transitions of a wake walk over slot `i`. -/
inductive WalkGo (r : Region) (i : Nat) : Walk → Instr → Out Walk Unit → Prop
  | start : WalkGo r i .start .silent (.more (.node (r.slots i).waiterHead))
  | finished : WalkGo r i (.node none) .silent (.done ())
  | detach {n : Nat} : WalkGo r i (.node (some n)) (.detach n)
      (.more (.bump (r.nodes n).waitWord (r.nodes n).objNext))
  | bump {w : Nat} {next : Option Nat} :
      WalkGo r i (.bump (some w) next) (.bump w) (.more (.node next))

/-- What a step of a wake walk is. -/
theorem Walk.step_inv {r : Region} {i : Nat} {w : Walk} {ins : Instr} {q : Out Walk Unit}
    (h : w.step r i = some (ins, q)) : WalkGo r i w ins q := by
  cases w with
  | start => cases h; exact .start
  | node idx =>
    cases idx <;> cases h
    · exact .finished
    · exact .detach
  | bump word next =>
    cases word <;> cases h
    exact .bump

/-- The instructions of a wake walk. -/
def Instr.walks : Instr → Bool
  | .silent | .detach _ | .bump _ => true
  | _ => false

/-- The instructions of a wake walk. -/
theorem Walk.step_walks {r : Region} {i : Nat} {w : Walk} {ins : Instr} {q : Out Walk Unit}
    (h : w.step r i = some (ins, q)) : ins.walks = true := by
  cases Walk.step_inv h <;> rfl

/-- The instructions of a sweep. -/
def Instr.sweeps : Instr → Bool
  | .lock | .unlock | .freeNode _ | .reap _ | .store _ (.generation _) => true
  | ins => ins.walks

/-- Those are instructions of sweeps, too. -/
theorem Instr.sweeps_of_walks {ins : Instr} (h : ins.walks = true) : ins.sweeps = true := by
  cases ins <;> first | rfl | cases h

/-- The instructions of a sweep. -/
theorem SweepPc.step_sweeps {auto : Bool} {sh : Shared T} {p : SweepPc} {ins : Instr}
    {q : Out SweepPc Nat} (h : p.step auto sh = some (ins, q)) : ins.sweeps = true := by
  cases SweepPc.step_inv h with
  | walk hw | walked hw => exact Instr.sweeps_of_walks (Walk.step_walks hw)
  | _ => rfl

/-- The wake walk a thread is in, with its slot. -/
def SweepPc.walk? : SweepPc → Option (Nat × Walk)
  | .reapWalk _ i w _ => some (i, w)
  | _ => none

def Pc.walk? : Pc → Option (Nat × Walk)
  | .op h _ (.walk _ w) => some (handleIndex h, w)
  | .pulse h (.walk _ w) => some (handleIndex h, w)
  | .close h (.walk w) => some (handleIndex h, w)
  | .wait _ (.sweep _ _ (.run p)) => p.walk?
  | .create _ (.sweep p) => p.walk?
  | .sweepDead (.run p) => p.walk?
  | _ => none

/-- The sweep a thread is in, with its kind (automatic ones drop the lock). -/
def Pc.sweep? : Pc → Option (Bool × SweepPc)
  | .wait _ (.sweep _ _ (.run p)) => some (true, p)
  | .create _ (.sweep p) => some (false, p)
  | .sweepDead (.run p) => some (false, p)
  | _ => none

section Views

variable {o : Oracle} {sh : Shared T} {pid : U32} {calls : U64} {ins : Instr} {pc pc' : Pc}

/-- How a call goes on after a step of its sweep. -/
def FollowsSweep (auto : Bool) (pc' : Pc) : Out SweepPc Nat → Prop
  | .more p => pc'.sweep? = some (auto, p)
  | .done _ => pc'.sweep? = none

/-- **A step of a running sweep.** -/
theorem PcGo.sweep {auto : Bool} {p : SweepPc} (hg : PcGo sh pid o pc ins pc')
    (hp : pc.sweep? = some (auto, p)) :
    ∃ q, SweepGo auto sh p ins q ∧ FollowsSweep auto pc' q := by
  unfold Pc.sweep? at hp
  split at hp <;> cases hp
  · cases hg with
    | wait hg =>
      cases hg with
      | sweep hg =>
        cases hg with
        | run hs | swept hs => exact ⟨_, SweepPc.step_inv hs, rfl⟩
  · cases hg with
    | create hg =>
      cases hg with
      | run hs | retry hs | giveUp hs => exact ⟨_, SweepPc.step_inv hs, rfl⟩
  · cases hg with
    | sweepDead hg =>
      cases hg with
      | run hs | swept hs => exact ⟨_, SweepPc.step_inv hs, rfl⟩

/-- No sweep, or one that is about to collect its first chunk. -/
def NoSweep (r : Region) (pc' : Pc) : Prop :=
  pc'.sweep? = none ∨ ∃ auto, pc'.sweep? = some (auto, .chunk (.new r))

/-- A wait outside of its sweep stays outside, or is about to start one. -/
theorem WaitGo.noSweep {c : WaitCtx} {p : WaitPc} (hg : WaitGo o sh pid c p ins pc')
    (hp : (Pc.wait c p).sweep? = none) : NoSweep sh.region pc' := by
  cases hg with
  | fast hg =>
    refine .inl ?_
    cases hg with
    | lookOther | seq =>
      unfold WaitCtx.fastNext
      split
      · rfl
      · split <;> rfl
    | _ => rfl
  | pass hg =>
    refine .inl ?_
    cases hg with
    | validateFirst | validate =>
      unfold WaitCtx.validateNext
      split
      · rfl
      · split
        · rfl
        · unfold WaitCtx.afterAlert
          split <;> rfl
    | alertClear =>
      unfold WaitCtx.afterAlert
      split <;> rfl
    | _ => rfl
  | noSpin | spinStart => exact .inl rfl
  | spin hg => cases hg <;> exact .inl rfl
  | @sweep seq timedOut p ins pc' hg =>
    cases hg with
    | skip | unlock => cases timedOut <;> exact .inl rfl
    | claim => exact .inr ⟨true, rfl⟩
    | run | swept => cases hp
    | _ => exact .inl rfl
  | sleep hg =>
    cases hg with
    | again | woken =>
      unfold afterFutex
      split <;> exact .inl rfl
    | _ => exact .inl rfl
  | detach hg => cases hg <;> exact .inl rfl
  | clean hg => cases hg <;> exact .inl rfl

/-- Outside a sweep a step at most begins one. -/
theorem PcGo.noSweep (hg : PcGo sh pid o pc ins pc') (hp : pc.sweep? = none) :
    NoSweep sh.region pc' := by
  cases hg with
  | op hg => cases hg <;> exact .inl rfl
  | pulse hg => cases hg <;> exact .inl rfl
  | wait hg => exact hg.noSweep hp
  | create hg =>
    cases hg with
    | run | retry | giveUp => cases hp
    | sweep => exact .inr ⟨false, rfl⟩
    | _ => exact .inl rfl
  | close hg => cases hg <;> exact .inl rfl
  | hold hg => cases hg <;> exact .inl rfl
  | sweepDead hg =>
    cases hg with
    | run | swept => cases hp
    | lock => exact .inr ⟨false, rfl⟩
    | unlock => exact .inl rfl

/-- Only a thread inside of a call steps. -/
theorem PcGo.inside (hg : PcGo sh pid o pc ins pc') : pc.outside = false := by
  cases hg <;> rfl

/-! ### Stores to an object's word -/

/-- The operation's result, once it is decided. -/
def OpPc.result : OpPc → Option OpRet
  | .peek r | .lockWake r | .walk r _ | .unlock r => some r
  | _ => none

/-- The instructions of a wait outside `try_satisfy` and outside its sweeps. -/
def Instr.waits : Instr → Bool
  | .silent | .lock | .unlock | .allocNode | .register _ _ _ | .detach _ | .freeNode _
  | .countCall | .claim _ => true
  | _ => false

/-- A detach is an instruction of waits. -/
theorem detachInstr_waits (n : Nat) : (detachInstr sh n).waits = true := by
  unfold detachInstr
  split <;> rfl

/-- The instructions of a wait outside of its attempts. -/
theorem WaitGo.plain_instr {c : WaitCtx} {p : WaitPc} (hg : WaitGo o sh pid c p ins pc')
    (hp : p.sat? = none) : ins.waits = true ∨ (Pc.wait c p).sweep? ≠ none ∧ ins.sweeps = true := by
  cases hg with
  | fast hg =>
    cases hg with
    | sat | win | failZero | fail => cases hp
    | _ => exact .inl rfl
  | pass hg =>
    cases hg with
    | sat | win | fail => cases hp
    | _ => exact .inl rfl
  | noSpin | spinStart => exact .inl rfl
  | spin hg =>
    cases hg with
    | sat | win | fail => cases hp
    | _ => exact .inl rfl
  | sweep hg =>
    cases hg with
    | run hs | swept hs => exact .inr ⟨Option.some_ne_none _, SweepPc.step_sweeps hs⟩
    | _ => exact .inl rfl
  | sleep hg => cases hg <;> exact .inl rfl
  | detach hg =>
    cases hg with
    | detach | last => exact .inl (detachInstr_waits _)
    | _ => exact .inl rfl
  | clean hg =>
    cases hg with
    | detach => exact .inl (detachInstr_waits _)
    | _ => exact .inl rfl

/-- **Who stores to a word.** A lock-free operation, a pulse, or a wait's `try_satisfy`. -/
theorem PcGo.word {h : U32} {i : Nat} {tag : Tag} {new : U64}
    (hg : PcGo sh pid o pc (.word h i tag new) pc') :
    (∃ op cas r wake, pc = .op h op (.loop cas) ∧ i = handleIndex h ∧ tag = .op op ∧
      op.pass (sh.region.slots i).w0 = .cas new (r, wake) ∧
      pc' = if wake then .op h op (.peek r) else .done (.op h op) (.op r)) ∨
    (∃ prev w, pc = .pulse h (.storeW prev w) ∧ i = handleIndex h ∧ tag = .pulse ∧
      new = w &&& ~~~1 ∧ pc' = .pulse h (.walk prev .start)) ∨
    ∃ c q p, pc = .wait c q ∧ q.sat? = some p := by
  generalize hins : Instr.word h i tag new = ins at hg
  cases hg with
  | op hg =>
    cases hg with
    | swap hb => cases hins; exact .inl ⟨_, _, _, true, rfl, rfl, rfl, hb, rfl⟩
    | swapQuiet hb => cases hins; exact .inl ⟨_, _, _, false, rfl, rfl, rfl, hb, rfl⟩
    | walk hw | walked hw => subst hins; cases Walk.step_walks hw
    | _ => cases hins
  | pulse hg =>
    cases hg with
    | storeW => cases hins; exact .inr (.inl ⟨_, _, rfl, rfl, rfl, rfl, rfl⟩)
    | walk hw | walked hw => subst hins; cases Walk.step_walks hw
    | _ => cases hins
  | @wait c q _ _ hg =>
    refine .inr (.inr ⟨c, q, ?_⟩)
    cases hq : q.sat? with
    | some p => exact ⟨p, rfl, rfl⟩
    | none =>
      rcases hg.plain_instr hq with hw | ⟨_, hw⟩ <;> subst hins <;> cases hw
  | create hg =>
    cases hg with
    | run hs | retry hs | giveUp hs => subst hins; cases SweepPc.step_sweeps hs
    | _ => cases hins
  | close hg =>
    cases hg with
    | walk hw | walked hw => subst hins; cases Walk.step_walks hw
    | _ => cases hins
  | hold hg => cases hg <;> cases hins
  | sweepDead hg =>
    cases hg with
    | run hs | swept hs => subst hins; cases SweepPc.step_sweeps hs
    | _ => cases hins

/-- The stores of `try_satisfy`. -/
def Instr.attempt : Instr → Bool
  | .word _ _ (.acquire _ _) _ | .word _ _ (.rollback _) _ => true
  | _ => false

/-- **A step of a running `try_satisfy`**, in any thread. -/
theorem PcGo.sat {c : WaitCtx} {p : Sat} (hg : PcGo sh pid o pc ins pc')
    (hp : pc.sat? = some (c, p)) :
    ∃ w out, SatStep sh.region c.toWaitArgs c.seqs p w out ∧ ins = satInstr c.toWaitArgs w ∧
      pc'.args? = some c.toWaitArgs ∧ FollowsSat c pc' out := by
  cases hg with
  | @wait c' q _ _ hg =>
    simp only [Pc.sat?, Option.map_eq_some_iff, Prod.mk.injEq] at hp
    obtain ⟨p', hq, rfl, rfl⟩ := hp
    exact hg.sat hq
  | _ => cases hp

/-- A thread outside `try_satisfy` makes none of its stores; at most it enters a new run. -/
theorem PcGo.noSat (hg : PcGo sh pid o pc ins pc') (hp : pc.sat? = none) :
    ins.attempt = false ∧ (pc'.sat? = none ∨ ∃ c, pc'.sat? = some (c, .start c.all)) := by
  constructor
  · cases ins with
    | word h i tag new =>
      rcases hg.word with ⟨op, _, _, _, _, _, rfl, _⟩ | ⟨_, _, _, _, rfl, _⟩ | ⟨c, q, p, rfl, hq⟩
      · rfl
      · rfl
      · simp [Pc.sat?, hq] at hp
    | _ => rfl
  · cases hg with
    | op hg => cases hg <;> exact .inl rfl
    | pulse hg => cases hg <;> exact .inl rfl
    | @wait c q _ _ hg =>
      have hq : q.sat? = none := by simpa [Pc.sat?] using hp
      rcases (hg.plain hq).sat with h | ⟨c', h, ha⟩
      · exact .inl h
      · exact .inr ⟨c', by rw [h, ha]⟩
    | create hg => cases hg <;> exact .inl rfl
    | close hg => cases hg <;> exact .inl rfl
    | hold hg => cases hg <;> exact .inl rfl
    | sweepDead hg => cases hg <;> exact .inl rfl

/-- A settled outcome stays until the wait has returned. -/
theorem PcGo.report {r : WaitOutcome} (hg : PcGo sh pid o pc ins pc')
    (hr : pc.report = some r) : pc'.report = some r := by
  cases hg with
  | @wait c p _ _ hg =>
    cases hg with
    | clean hg =>
      cases hr
      cases hg <;> rfl
    | _ => cases hr
  | _ => cases hr

/-- A call starts with no attempt. -/
theorem Pc.start_sat (c : Call) : (Pc.start c).sat? = none := by
  cases c <;> simp only [Pc.start] <;> (try split) <;> rfl

/-! ### Stores to the table -/

/-- **Who stores to a slot's other fields.** -/
theorem PcGo.store {i : Nat} {w : SlotWrite} (hg : PcGo sh pid o pc (.store i w) pc') :
    (∃ k h ws, pc = .create k (.write h (w :: ws)) ∧ i = handleIndex h ∧
      pc' = .create k (.write h ws)) ∨
    (∃ h ws, pc = .close h (.write (w :: ws)) ∧ i = handleIndex h ∧ pc' = .close h (.write ws)) ∨
    (∃ h, pc = .close h .free ∧ i = handleIndex h ∧ w = .state .free ∧ pc' = .close h .gen) ∨
    (∃ h, pc = .close h .gen ∧ i = handleIndex h ∧
      w = .generation ((sh.region.slots i).generation + 1) ∧ pc' = .close h (.walk .start)) ∨
    (∃ add h ws, pc = .hold add h (.write (w :: ws)) ∧ i = handleIndex h ∧
      pc' = .hold add h (.write ws)) ∨
    ∃ auto st judged, pc.sweep? = some (auto, .reapGen st i judged) ∧
      w = .generation ((sh.region.slots i).generation + 1) ∧
      pc'.sweep? = some (auto, .reapWalk st i .start judged) := by
  cases hsw : pc.sweep? with
  | some x =>
    obtain ⟨auto, p⟩ := x
    obtain ⟨q, hq, hf⟩ := hg.sweep hsw
    generalize hins : Instr.store i w = ins at hq
    cases hq with
    -- a sweep stores a generation only
    | reapGen => cases hins; exact .inr (.inr (.inr (.inr (.inr ⟨_, _, _, rfl, rfl, hf⟩))))
    | walk hw | walked hw => subst hins; cases Walk.step_walks hw
    | _ => cases hins
  | none =>
    generalize hins : Instr.store i w = ins at hg
    cases hg with
    | op hg =>
      cases hg with
      | walk hw | walked hw => subst hins; cases Walk.step_walks hw
      | _ => cases hins
    | pulse hg =>
      cases hg with
      | walk hw | walked hw => subst hins; cases Walk.step_walks hw
      | _ => cases hins
    | @wait c q _ _ hg =>
      cases hq : q.sat? with
      | some p =>
        -- an attempt stores words, which are instructions of their own
        obtain ⟨v, out, _, hi, _⟩ := hg.sat hq
        rw [← hins] at hi
        rcases v with _ | v
        · cases hi
        · cases v <;> cases hi
      | none =>
        rcases hg.plain_instr hq with hw | ⟨hne, _⟩
        · subst hins
          cases hw
        · exact absurd hsw hne
    | create hg =>
      cases hg with
      | write => cases hins; exact .inl ⟨_, _, _, rfl, rfl, rfl⟩
      | run | retry | giveUp => cases hsw
      | _ => cases hins
    | close hg =>
      cases hg with
      | write => cases hins; exact .inr (.inl ⟨_, _, rfl, rfl, rfl⟩)
      | free => cases hins; exact .inr (.inr (.inl ⟨_, rfl, rfl, rfl, rfl⟩))
      | gen => cases hins; exact .inr (.inr (.inr (.inl ⟨_, rfl, rfl, rfl, rfl⟩)))
      | walk hw | walked hw => subst hins; cases Walk.step_walks hw
      | _ => cases hins
    | hold hg =>
      cases hg with
      | write => cases hins; exact .inr (.inr (.inr (.inr (.inl ⟨_, _, _, rfl, rfl, rfl⟩))))
      | _ => cases hins
    | sweepDead hg =>
      cases hg with
      | run | swept => cases hsw
      | _ => cases hins

/-- A slot is taken by a `create_*` that found it free. -/
theorem PcGo.takeSlot {i : Nat} (hg : PcGo sh pid o pc (.takeSlot i) pc') :
    ∃ k retry, pc = .create k (.alloc retry) ∧ sh.region.freeSlot = some i ∧
      pc' = .create k (.write (mkHandle (sh.region.slots i).generation i)
        (slotPublish k.objType k.word pid)) := by
  generalize hins : Instr.takeSlot i = ins at hg
  cases hg with
  | op hg =>
    cases hg with
    | walk hw | walked hw => subst hins; cases Walk.step_walks hw
    | _ => cases hins
  | pulse hg =>
    cases hg with
    | walk hw | walked hw => subst hins; cases Walk.step_walks hw
    | _ => cases hins
  | @wait c q _ _ hg =>
    cases hq : q.sat? with
    | some p =>
      obtain ⟨v, out, _, hi, _⟩ := hg.sat hq
      rw [← hins] at hi
      rcases v with _ | v
      · cases hi
      · cases v <;> cases hi
    | none => rcases hg.plain_instr hq with hw | ⟨_, hw⟩ <;> subst hins <;> cases hw
  | create hg =>
    cases hg with
    | take hf => cases hins; exact ⟨_, _, rfl, hf, rfl⟩
    | run hs | retry hs | giveUp hs => subst hins; cases SweepPc.step_sweeps hs
    | _ => cases hins
  | close hg =>
    cases hg with
    | walk hw | walked hw => subst hins; cases Walk.step_walks hw
    | _ => cases hins
  | hold hg => cases hg <;> cases hins
  | sweepDead hg =>
    cases hg with
    | run hs | swept hs => subst hins; cases SweepPc.step_sweeps hs
    | _ => cases hins

/-- A holder is recorded by a `retain`, or about to be removed by a `release`. -/
theorem PcGo.marks {add : Bool} {i : Nat} (hg : PcGo sh pid o pc (.hold add i) pc') :
    ∃ h ws, pc = .hold add h (.mark ws) ∧ i = handleIndex h ∧
      pc' = .hold add h (if add then .unlock (.ok ()) else .write ws) := by
  generalize hins : Instr.hold add i = ins at hg
  cases hg with
  | op hg =>
    cases hg with
    | walk hw | walked hw => subst hins; cases Walk.step_walks hw
    | _ => cases hins
  | pulse hg =>
    cases hg with
    | walk hw | walked hw => subst hins; cases Walk.step_walks hw
    | _ => cases hins
  | @wait c q _ _ hg =>
    cases hq : q.sat? with
    | some p =>
      obtain ⟨v, out, _, hi, _⟩ := hg.sat hq
      rw [← hins] at hi
      rcases v with _ | v
      · cases hi
      · cases v <;> cases hi
    | none => rcases hg.plain_instr hq with hw | ⟨_, hw⟩ <;> subst hins <;> cases hw
  | create hg =>
    cases hg with
    | run hs | retry hs | giveUp hs => subst hins; cases SweepPc.step_sweeps hs
    | _ => cases hins
  | close hg =>
    cases hg with
    | walk hw | walked hw => subst hins; cases Walk.step_walks hw
    | _ => cases hins
  | hold hg =>
    cases hg with
    | markAdd ha | markRemove ha => cases hins; exact ⟨_, _, by rw [ha], rfl, by rw [ha]; rfl⟩
    | _ => cases hins
  | sweepDead hg =>
    cases hg with
    | run hs | swept hs => subst hins; cases SweepPc.step_sweeps hs
    | _ => cases hins

/-- A slot is reaped by a sweep that judged its candidate dead and still finds it unchanged. -/
theorem PcGo.reap {i : Nat} (hg : PcGo sh pid o pc (.reap i) pc') :
    ∃ auto st c judged, pc.sweep? = some (auto, .reap st ((c, false) :: judged)) ∧
      c.node = false ∧ i = c.index ∧ c.slotStands sh.region = true ∧
      pc'.sweep? = some (auto, .reapGen st i judged) := by
  cases hsw : pc.sweep? with
  | some x =>
    obtain ⟨auto, p⟩ := x
    obtain ⟨q, hq, hf⟩ := hg.sweep hsw
    generalize hins : Instr.reap i = ins at hq
    cases hq with
    -- the sweep has looked at the candidate once more
    | reapSlot hn hs => cases hins; exact ⟨_, _, _, _, rfl, hn, rfl, hs, hf⟩
    | walk hw | walked hw => subst hins; cases Walk.step_walks hw
    | _ => cases hins
  | none =>
    generalize hins : Instr.reap i = ins at hg
    cases hg with
    | op hg =>
      cases hg with
      | walk hw | walked hw => subst hins; cases Walk.step_walks hw
      | _ => cases hins
    | pulse hg =>
      cases hg with
      | walk hw | walked hw => subst hins; cases Walk.step_walks hw
      | _ => cases hins
    | @wait c q _ _ hg =>
      cases hq : q.sat? with
      | some p =>
        -- an attempt reaps nothing
        obtain ⟨v, out, _, hi, _⟩ := hg.sat hq
        rw [← hins] at hi
        rcases v with _ | v
        · cases hi
        · cases v <;> cases hi
      | none =>
        rcases hg.plain_instr hq with hw | ⟨hne, _⟩
        · subst hins
          cases hw
        · exact absurd hsw hne
    | create hg =>
      cases hg with
      | run | retry | giveUp => cases hsw
      | _ => cases hins
    | close hg =>
      cases hg with
      | walk hw | walked hw => subst hins; cases Walk.step_walks hw
      | _ => cases hins
    | hold hg => cases hg <;> cases hins
    | sweepDead hg =>
      cases hg with
      | run | swept => cases hsw
      | _ => cases hins

end Views

end Ntsync
