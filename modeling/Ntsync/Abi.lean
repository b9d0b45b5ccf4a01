import Mathlib
import Ntsync.Conservation

namespace Ntsync

open Words Lts

/-!
# The C return codes

`ffi.rs` hands every core call out as one `i32`: 0 or a negative errno, for `ntsync_sweep_dead` the
number of freed objects.  On the way to it an error passes three layers: the producers in `core.rs`
(opening the region, taking the region lock, the call itself), the variant `Error::Init` that
carries an errno, and the translation `ffi::errno`.

* `Outcome` — what a call may return when the region is open and its lock can be taken;
  `run_outcome`: every run of the system returns such values;
* `coreCall` — a core call when opening the region or taking the lock may fail;
* `Export.run` — the exported functions;
* `abi_contract_iff` — **the contract holds unless a lock failure is reported**: `lock_guard`
  negates the errno that `ffi::errno` negates once more.
-/

/-! ### What the calls return -/

/-- The values a call may return. -/
def Outcome : Call → Ret → Prop
  | .op _ _, .op r | .pulse _, .op r => ∀ e, r ≠ .error (.init e)
  | .wait _ _, .wait _ | .close _, .bool _ => True
  | .create _, .handle r => ∀ e, r = .error (.init e) → e = enomem
  | .hold _ _, .unit r => ∀ e, r ≠ .error (.init e)
  | .sweepDead, .num n => n < 2 ^ 31
  | _, _ => False

/-- The slot candidates of a list. -/
def slotCands (cs : List DeadCand) : Nat := cs.countP fun c => !c.node

/-- The slots a sweep has freed or may still free of the chunk at hand. -/
def SweepPc.charge : SweepPc → Nat
  | .chunk st => st.freed
  | .drop st cands => st.freed + slotCands cands
  | .probe st judged c _ rest => st.freed + slotCands (judged.map Prod.fst) + slotCands (c :: rest)
  | .relock st judged | .reap st judged | .reapFree st _ judged =>
    st.freed + slotCands (judged.map Prod.fst)
  | .reapGen st _ judged | .reapWalk st _ _ judged =>
    st.freed + 1 + slotCands (judged.map Prod.fst)

def SweepPc.range : SweepPc → SweepScan
  | .chunk st | .drop st _ | .probe st _ _ _ _ | .relock st _ | .reap st _ | .reapFree st _ _
  | .reapGen st _ _ | .reapWalk st _ _ _ => st.scan

/-- A sweep frees at most the slots its scan has passed, and these are few. -/
structure SweepPc.Bounded (p : SweepPc) : Prop where
  charge_le : p.charge ≤ p.range.nextSlot
  slot_le : p.range.nextSlot ≤ p.range.slotHi
  hi_lt : p.range.slotHi < 2 ^ 31

section Chunk

variable {r : Region}

/-- The slot candidates of two lists add up. -/
theorem slotCands_append (xs ys : List DeadCand) :
    slotCands (xs ++ ys) = slotCands xs + slotCands ys := List.countP_append

/-- The loop collects at most one slot candidate for each slot it passes. -/
theorem nextChunkLoop_slots (fuel : Nat) (sc : SweepScan) (out : List DeadCand)
    (hle : sc.nextSlot ≤ sc.slotHi) :
    let res := nextChunkLoop r fuel sc out
    slotCands res.2 + sc.nextSlot ≤ slotCands out + res.1.nextSlot ∧
      res.1.nextSlot ≤ res.1.slotHi ∧ res.1.slotHi = sc.slotHi := by
  induction fuel generalizing sc out with
  | zero => exact ⟨le_refl _, hle, rfl⟩
  | succ fuel ih =>
    simp only [nextChunkLoop]
    split
    · exact ⟨le_refl _, hle, rfl⟩
    · split
      · obtain ⟨hcount, hslot, hhi⟩ := ih { sc with nextNode := sc.nextNode + 1 }
          (if (r.nodes sc.nextNode).registered then
            out ++ [.ofNode sc.nextNode (r.nodes sc.nextNode).pid] else out) hle
        refine ⟨le_trans hcount ?_, hslot, hhi⟩
        split
        · rw [slotCands_append]
          exact le_refl _
        · exact le_refl _
      · split
        · rename_i hlt
          obtain ⟨hcount, hslot, hhi⟩ := ih { sc with nextSlot := sc.nextSlot + 1 }
            (if (r.slots sc.nextSlot).state = .used ∧ (r.slots sc.nextSlot).pid ≠ 0 then
              out ++ [.ofSlot sc.nextSlot (r.slots sc.nextSlot)] else out) hlt
          have hout : slotCands (if (r.slots sc.nextSlot).state = .used ∧
              (r.slots sc.nextSlot).pid ≠ 0 then
              out ++ [.ofSlot sc.nextSlot (r.slots sc.nextSlot)] else out) ≤ slotCands out + 1 := by
            split
            · rw [slotCands_append]
              exact le_refl _
            · exact Nat.le_succ _
          refine ⟨?_, hslot, hhi⟩
          have hcount' := Nat.le_trans hcount (Nat.add_le_add_right hout _)
          rw [Nat.add_right_comm] at hcount'
          exact Nat.le_of_succ_le_succ hcount'
        · exact ⟨le_refl _, hle, rfl⟩

/-- A chunk collects at most the slots that the scan has passed in it. -/
theorem nextChunk_slots {sc sc' : SweepScan} {cands : List DeadCand}
    (h : sc.nextChunk r = (sc', cands)) (hle : sc.nextSlot ≤ sc.slotHi) :
    slotCands cands + sc.nextSlot ≤ sc'.nextSlot ∧ sc'.nextSlot ≤ sc'.slotHi ∧
      sc'.slotHi = sc.slotHi := by
  have hloop := nextChunkLoop_slots (r := r) sc.left sc [] hle
  rw [show nextChunkLoop r sc.left sc [] = (sc', cands) from h] at hloop
  have hnil : slotCands [] = 0 := rfl
  dsimp only at hloop
  rw [hnil, Nat.zero_add] at hloop
  exact hloop

/-- A sweep starts with nothing collected and nothing freed. -/
theorem SweepPc.bounded_start : (SweepPc.chunk (.new r)).Bounded := by
  refine ⟨le_refl _, Nat.zero_le _, ?_⟩
  show (if r.nextScan &&& scanWrapped ≠ 0 then slotCount else r.nextScan.toNat) < 2 ^ 31
  split
  · decide
  · rename_i h
    have hand := congrArg BitVec.toNat (not_not.mp h)
    have hlt := r.nextScan.isLt
    have hpow : (scanWrapped : U32).toNat = 2 ^ 31 := rfl
    rw [BitVec.toNat_and, hpow, Nat.and_two_pow, Nat.testBit_eq_decide_div_mod_eq] at hand
    by_contra hge
    have hbit : r.nextScan.toNat / 2 ^ 31 % 2 = 1 := by omega
    rw [decide_eq_true hbit] at hand
    cases hand

end Chunk

section Outcomes

variable {T : Type} {o : Oracle} {sh : Shared T} {pid : U32} {ins : Instr} {pc pc' : Pc}

/-- Judging a candidate moves it from one list to the other. -/
theorem SweepPc.judge_charge (auto : Bool) (st : SweepSt) (judged : List (DeadCand × Bool))
    (cands : List DeadCand) :
    (SweepPc.judge auto st judged cands).charge
        = st.freed + slotCands (judged.map Prod.fst) + slotCands cands ∧
      (SweepPc.judge auto st judged cands).range = st.scan := by
  cases cands with
  | nil => cases auto <;> exact ⟨rfl, rfl⟩
  | cons c cands => exact ⟨rfl, rfl⟩

/-- A sweep that goes on keeps the bound; one that returns has freed few slots. -/
def Out.Bounded : Out SweepPc Nat → Prop
  | .more p => p.Bounded
  | .done n => n < 2 ^ 31

/-- One more candidate counts if it is a slot. -/
theorem slotCands_cons (c : DeadCand) (cs : List DeadCand) :
    slotCands (c :: cs) = slotCands [c] + slotCands cs := slotCands_append [c] cs

/-- A verdict moves a candidate from the end of the list to the judged ones. -/
theorem slotCands_judged (judged : List (DeadCand × Bool)) (c : DeadCand) (b : Bool)
    (rest : List DeadCand) :
    slotCands ((judged ++ [(c, b)]).map Prod.fst) + slotCands rest =
      slotCands (judged.map Prod.fst) + slotCands (c :: rest) := by
  rw [List.map_append, slotCands_append, slotCands_cons c rest, Nat.add_assoc]
  rfl

/-- **A sweep frees no more slots than it has passed.** -/
theorem SweepPc.Bounded.step {auto : Bool} {p : SweepPc} {q : Out SweepPc Nat} (hb : p.Bounded)
    (hg : SweepGo auto sh p ins q) : q.Bounded := by
  obtain ⟨hcharge, hslot, hhi⟩ := hb
  -- outside the scan, the charge does not grow and the scan stands still
  have hkeep {p' : SweepPc} (hc : p'.charge ≤ p.charge) (hst : p'.range = p.range) :
      p'.Bounded := by
    refine ⟨?_, ?_, ?_⟩
    · rw [hst]
      exact le_trans hc hcharge
    · rw [hst]
      exact hslot
    · rw [hst]
      exact hhi
  cases hg with
  | finished => exact Nat.lt_of_le_of_lt (Nat.le_trans hcharge hslot) hhi
  | @chunkAuto st scan cands hchunk _ =>
    obtain ⟨hcount, hslot', heq⟩ := nextChunk_slots hchunk hslot
    have hfreed : st.freed ≤ st.scan.nextSlot := hcharge
    refine ⟨?_, hslot', lt_of_eq_of_lt heq hhi⟩
    show st.freed + slotCands cands ≤ scan.nextSlot
    omega
  | @chunk st scan cands hchunk _ =>
    obtain ⟨hcount, hslot', heq⟩ := nextChunk_slots hchunk hslot
    have hfreed : st.freed ≤ st.scan.nextSlot := hcharge
    obtain ⟨hc, hs⟩ := SweepPc.judge_charge auto { st with scan := scan } [] cands
    have hnil : slotCands (List.map Prod.fst ([] : List (DeadCand × Bool))) = 0 := rfl
    rw [hnil] at hc
    refine ⟨?_, ?_, ?_⟩
    · rw [hc, hs]
      show st.freed + 0 + slotCands cands ≤ scan.nextSlot
      omega
    · rw [hs]
      exact hslot'
    · rw [hs]
      exact lt_of_eq_of_lt heq hhi
  | @drop st cands hauto =>
    obtain ⟨hc, hs⟩ := SweepPc.judge_charge auto st [] cands
    exact hkeep (le_of_eq hc) hs
  | @probeDead st judged c rest =>
    obtain ⟨hc, hs⟩ := SweepPc.judge_charge auto st (judged ++ [(c, false)]) rest
    refine hkeep (le_of_eq ?_) hs
    rw [hc, Nat.add_assoc, slotCands_judged, ← Nat.add_assoc]
    rfl
  | @probeAlive st judged c _ _ rest cache =>
    obtain ⟨hc, hs⟩ :=
      SweepPc.judge_charge auto { st with cache := cache } (judged ++ [(c, true)]) rest
    refine hkeep (le_of_eq ?_) hs
    rw [hc, Nat.add_assoc, slotCands_judged, ← Nat.add_assoc]
    rfl
  | @skip st x judged =>
    refine hkeep ?_ rfl
    show st.freed + slotCands (judged.map Prod.fst) ≤
      st.freed + slotCands (x.1 :: judged.map Prod.fst)
    rw [slotCands_cons]
    omega
  | @reapNode st c judged _ _ =>
    refine hkeep ?_ rfl
    show st.freed + slotCands (judged.map Prod.fst) ≤
      st.freed + slotCands (c :: judged.map Prod.fst)
    rw [slotCands_cons]
    omega
  | @reapSlot st c judged hnode _ =>
    refine hkeep ?_ rfl
    have hone : slotCands [c] = 1 := by simp [slotCands, hnode]
    show st.freed + 1 + slotCands (judged.map Prod.fst) ≤
      st.freed + slotCands (c :: judged.map Prod.fst)
    rw [slotCands_cons, hone]
    omega
  | probe | relock | reaped | reapFree | reapGen | walk | walked => exact hkeep (le_refl _) rfl

/-- An operation that returns without a store reports none of the layers below it. -/
theorem Op.outcome_ret {h : U32} {op : Op} {w : U64} {r : OpRet} {wake : Bool}
    (hp : op.pass w = .ret (r, wake)) : Outcome (.op h op) (.op r) := by
  intro e he
  subst he
  cases op with
  | semRelease n =>
    simp only [Op.pass, Ntsync.semRelease] at hp
    split at hp <;> cases hp
  | eventSet =>
    simp only [Op.pass, Ntsync.eventSet] at hp
    split at hp <;> cases hp
  | eventReset =>
    simp only [Op.pass, Ntsync.eventReset] at hp
    split at hp <;> cases hp
  | mutexUnlock owner =>
    simp only [Op.pass, Ntsync.mutexUnlock] at hp
    split at hp <;> cases hp
  | mutexKill owner =>
    simp only [Op.pass, Ntsync.mutexKill] at hp
    split at hp <;> cases hp
  | readSem | readMutex | readEvent => cases hp

/-- What an operation returns after its swap is an answer of its kind. -/
theorem Op.outcome_cas {h : U32} {op : Op} {w new : U64} {r : OpRet} {wake : Bool}
    (hp : op.pass w = .cas new (r, wake)) : Outcome (.op h op) (.op r) := by
  obtain ⟨v, rfl⟩ := Op.pass_ok hp
  exact fun e he => by cases he

/-- What a thread carries along is a possible outcome of its call. -/
def Pc.Carries : Pc → Prop
  | .done c r => Outcome c r
  | .op h f p => ∀ r, p.result = some r → Outcome (.op h f) (.op r)
  | .pulse h (.unlock r) => Outcome (.pulse h) (.op r)
  | .create k (.unlock r) => Outcome (.create k) (.handle r)
  | .hold add h (.unlock r) => Outcome (.hold add h) (.unit r)
  | .sweepDead (.run p) => p.Bounded
  | .sweepDead (.unlock n) => Outcome .sweepDead (.num n)
  | _ => True

/-- A call starts with no answer. -/
theorem Pc.start_carries (c : Call) : (Pc.start c).Carries := by
  cases c with
  | op h op =>
    simp only [Pc.start]
    split
    · exact fun r hr => by cases hr
    · exact fun e he => by cases he
  | wait a timeout =>
    simp only [Pc.start]
    split <;> exact True.intro
  | create k =>
    simp only [Pc.start]
    split
    · exact True.intro
    · exact fun e he => by cases he
  | close h =>
    simp only [Pc.start]
    split <;> exact True.intro
  | hold add h =>
    simp only [Pc.start]
    split
    · exact fun e he => by cases he
    · exact True.intro
  | pulse | sweepDead => exact True.intro

/-- A lock-free operation carries an answer of its kind. -/
theorem OpGo.carries {h : U32} {op : Op} {p : OpPc} (hg : OpGo sh h op p ins pc')
    (hc : (Pc.op h op p).Carries) : pc'.Carries := by
  cases hg with
  | state | gen | typ | retry => exact fun r hr => by cases hr
  | bad => exact fun e he => by cases he
  | ret hp => exact Op.outcome_ret (h := h) hp
  | swapQuiet hp => exact Op.outcome_cas (h := h) hp
  | swap hp =>
    intro r hr
    cases hr
    exact Op.outcome_cas (h := h) hp
  | peekNone | unlock => exact hc _ rfl
  | peek | lock | walk | walked => exact hc

/-- A wait carries an outcome of a wait. -/
theorem WaitGo.carries {c : WaitCtx} {p : WaitPc} (hg : WaitGo o sh pid c p ins pc') :
    pc'.Carries := by
  cases hg with
  | fast hg => cases hg <;> exact True.intro
  | pass hg => cases hg <;> exact True.intro
  | spin hg => cases hg <;> exact True.intro
  | sweep hg => cases hg <;> exact True.intro
  | sleep hg => cases hg <;> exact True.intro
  | detach hg => cases hg <;> exact True.intro
  | clean hg => cases hg <;> exact True.intro
  | noSpin | spinStart => exact True.intro

/-- Every step keeps what is carried along a possible outcome. -/
theorem PcGo.carries (hg : PcGo sh pid o pc ins pc') (hc : pc.Carries) : pc'.Carries := by
  cases hg with
  | op hg => exact hg.carries hc
  | pulse hg =>
    cases hg with
    | bad | walked => exact fun e he => by cases he
    | unlock => exact hc
    | _ => exact True.intro
  | wait hg => exact hg.carries
  | create hg =>
    cases hg with
    | full | giveUp =>
      intro e he
      cases he
      rfl
    | written => exact fun e he => by cases he
    | unlock => exact hc
    | _ => exact True.intro
  | close hg => cases hg <;> exact True.intro
  | hold hg =>
    cases hg with
    | bad | writtenRemove | markAdd => exact fun e he => by cases he
    | unlock => exact hc
    | _ => exact True.intro
  | sweepDead hg =>
    cases hg with
    | lock => exact SweepPc.bounded_start
    | run hs | swept hs => exact SweepPc.Bounded.step hc (SweepPc.step_inv hs)
    | unlock => exact hc

end Outcomes

/-- **What the calls of any run return**, other threads, sweeps and deaths included. -/
theorem run_outcome {T : Type} [DecidableEq T] {r₀ : Region} {pid : T → U32}
    {hist : List (Label T)} {s : Sys T} {t : T} {c : Call} {r : Ret}
    (hr : Run Sys.step (fun _ _ _ => True) (Sys.rest r₀ pid) hist s)
    (ht : (s.threads t).pc = .done c r) : Outcome c r := by
  have hall : ∀ u, (s.threads u).pc.Carries := by
    refine hr.state_invariant (I := fun s => ∀ u, (s.threads u).pc.Carries)
      (fun _ => True.intro) ?_
    intro s a s' l hI hstep _ u
    cases Sys.step_inv hstep with
    | @call t c _ _ =>
      rw [Sys.entered_pc]
      split
      · exact Pc.start_carries c
      · exact hI u
    | @tick t o ins pc' _ htick =>
      rw [Sys.after_pc]
      split
      · exact (tick_inv htick).carries (hI t)
      · exact hI u
    | die => exact hI u
  have hc := hall t
  rw [ht] at hc
  exact hc

/-! ### Below the calls: the region and its lock -/

def eownerdead : Int := 130
def eintr : Int := 4

/-- The loop of `lock_guard` over what `pthread_mutex_lock` returns, one value a round; `none`: it
    is still waiting. -/
def lockGuard : List Int → Option (Except Int Unit)
  | [] => none
  | ret :: rets =>
    if ret = 0 ∨ ret = eownerdead then some (.ok ())
    else if ret = etimedout then lockGuard rets
    else if ret ≠ eintr then some (.error (-ret))
    else lockGuard rets

/-- What a call meets on its way: the memoized result of opening the region (its errors are
    `errno` after a failed system call, or a positive constant), what `pthread_mutex_lock` returns,
    and the clock. -/
structure Env where
  region : Except Int Unit
  region_pos : ∀ e, region = .error e → 0 < e
  rets : List Int
  rets_nonneg : ∀ x ∈ rets, 0 ≤ x
  lock : Except Int Unit
  locked : lockGuard rets = some lock
  now : U64

/-- `lock_guard` fails with a negated errno. -/
theorem lockGuard_error {rets : List Int} {e : Int} (h : lockGuard rets = some (.error e))
    (hpos : ∀ x ∈ rets, 0 ≤ x) : e < 0 := by
  induction rets with
  | nil => cases h
  | cons ret rets ih =>
    have hret : 0 ≤ ret := hpos ret (List.mem_cons_self ..)
    have hrets : ∀ x ∈ rets, 0 ≤ x := fun x hx => hpos x (List.mem_cons_of_mem _ hx)
    rw [lockGuard] at h
    split at h
    · cases h
    · rename_i hok
      split at h
      · exact ih h hrets
      · split at h
        · cases h
          have hne : ret ≠ 0 := fun h0 => hok (.inl h0)
          omega
        · exact ih h hrets

/-- A lock that fails gives a negative number. -/
theorem Env.lock_neg (env : Env) {e : Int} (h : env.lock = .error e) : e < 0 :=
  lockGuard_error (by rw [env.locked, h]) env.rets_nonneg

/-- What the core hands to the C layer. -/
inductive CoreRet where
  | val (r : Except Err Val)
  | handle (r : Except Err U32)
  | unit (r : Except Err Unit)
  | num (r : Except Err Nat)
  | bool (r : Bool)
  | wait (r : WaitOutcome)
  | init (r : Except Err Unit)

/-- The result of a call that has run. -/
def Ret.core : Ret → CoreRet
  | .op r => .val r
  | .wait r => .wait r
  | .handle r => .handle r
  | .bool r => .bool r
  | .unit r => .unit r
  | .num n => .num (.ok n)

/-- The result of a call that fails before it runs; `close` and the waits keep no error. -/
def Call.refused (e : Err) : Call → CoreRet
  | .op _ _ | .pulse _ => .val (.error e)
  | .wait _ _ => .wait .invalid
  | .create _ => .handle (.error e)
  | .close _ => .bool false
  | .hold _ _ => .unit (.error e)
  | .sweepDead => .num (.error e)

/-- The checks a call makes before it opens the region. -/
def Call.valid : Call → Bool
  | .op _ o => o.valid
  | .wait a _ => a.valid
  | .create k => k.valid
  | .close h | .hold _ h => decide (handleIndex h ≠ 0)
  | .pulse _ | .sweepDead => true

/-- The calls that run as a whole under the region lock.  The others take it inside, and go on or
    answer `Invalid` where that fails. -/
def Call.locks : Call → Bool
  | .pulse _ | .create _ | .close _ | .hold _ _ | .sweepDead => true
  | .op _ _ | .wait _ _ => false

/-- A core call: its argument checks, `region()?`, `lock_guard().map_err(Error::Init)?`, and then
    what it returns when it runs. -/
def coreCall (env : Env) (c : Call) (r : Ret) : CoreRet :=
  if c.valid then
    match env.region with
    | .error e => c.refused (.init e)
    | .ok () =>
      if c.locks then
        match env.lock with
        | .error e => c.refused (.init e)
        | .ok () => r.core
      else r.core
  else c.refused .invalid

/-- The checks are those of the calls in the system of threads. -/
theorem Call.start_of_invalid {c : Call} (h : c.valid = false) :
    ∃ r, Pc.start c = .done c r ∧ r.core = c.refused .invalid := by
  cases c with
  | op hd o => exact ⟨_, if_neg (by rw [show o.valid = false from h]; decide), rfl⟩
  | wait a timeout => exact ⟨_, if_neg (by rw [show a.valid = false from h]; decide), rfl⟩
  | create k => exact ⟨_, if_neg (by rw [show k.valid = false from h]; decide), rfl⟩
  | close hd => exact ⟨_, if_pos (by simpa [Call.valid] using h), rfl⟩
  | hold add hd => exact ⟨_, if_pos (by simpa [Call.valid] using h), rfl⟩
  | pulse | sweepDead => cases h

/-! ### The C layer -/

def eperm : Int := 1
def efault : Int := 14
def einval : Int := 22
def eoverflow : Int := 75

/-- `ffi::errno`. -/
def Err.errno : Err → Int
  | .invalid => -einval
  | .perm => -eperm
  | .overflow => -eoverflow
  | .init e => -e

/-- The `match` on the result of `retain` and `release`. -/
def Err.holdErrno : Err → Int
  | .invalid => -einval
  | .init e => -e
  | _ => -einval

/-- The returned `i32`. -/
def CoreRet.code : CoreRet → Int
  | .val (.ok (.mutex _ _ ownerDead)) => if ownerDead then -eownerdead else 0
  | .val (.ok _) => 0
  | .val (.error e) => e.errno
  | .handle (.ok _) => 0
  | .handle (.error e) => e.errno
  | .unit (.ok ()) => 0
  | .unit (.error e) => e.holdErrno
  | .num (.ok n) => (BitVec.ofNat 32 n).toInt -- `n as i32`
  | .num (.error e) => e.errno
  | .bool r => if r then 0 else -einval
  | .wait (.signaled _ ownerDead) => if ownerDead then -eownerdead else 0
  | .wait .timeout => -etimedout
  | .wait .invalid => -einval
  | .init (.ok ()) => 0
  | .init (.error e) => e.errno

/-- The words stored to the caller's memory. -/
def CoreRet.out : CoreRet → List U32
  | .val (.ok .unit) => []
  | .val (.ok (.num n)) => [n]
  | .val (.ok (.sem count max)) => [count, max]
  | .val (.ok (.mutex count owner _)) => [owner, count]
  | .val (.ok (.event manual signaled)) =>
    [if manual then 1 else 0, if signaled then 1 else 0]
  | .handle (.ok h) => [h]
  | .wait (.signaled index _) => [BitVec.ofNat 32 index]
  | _ => []

/-- `ntsync_wait_args`; `objs` is the array of handles at the pointer, `none` for a null one. -/
structure FfiWaitArgs where
  timeout : U64
  objs : Option (Nat → U32)
  count : U32
  owner : U32
  alert : U32

/-- `timeout_to_duration` for the clock value `now`. -/
def timeoutToDuration (timeout now : U64) : Timeout :=
  if timeout.toNat = maxWord then .never
  else if timeout.toNat - now.toNat = 0 then .zero
  else .after

/-- The exported functions with their arguments; `none` and `false` stand for null pointers. -/
inductive Export where
  /-- `some none`: a path that is not UTF-8 -/
  | init (path : Option (Option String))
  | sweepDead
  | createSem (out : Bool) (args : Option (U32 × U32))
  | createMutex (out : Bool) (args : Option (U32 × U32))
  | createEvent (out : Bool) (args : Option (U32 × U32))
  | close (handle : U32)
  | retain (handle : U32)
  | release (handle : U32)
  | semRelease (handle : U32) (count : Option U32)
  | semRead (handle : U32) (args : Bool)
  | mutexUnlock (handle : U32) (args : Option (U32 × U32))
  | mutexKill (handle owner : U32)
  | mutexRead (handle : U32) (args : Bool)
  | eventSet (handle : U32) (prev : Bool)
  | eventReset (handle : U32) (prev : Bool)
  | eventPulse (handle : U32) (prev : Bool)
  | eventRead (handle : U32) (args : Bool)
  | waitAny (args : Option FfiWaitArgs)
  | waitAll (args : Option FfiWaitArgs)

/-- What an exported function does with its arguments: return an error, initialise, or call the
    core. -/
inductive Entry where
  | fail (code : Int)
  | init
  | call (c : Call)

/-- A core call on behalf of a non-null pointer. -/
def Entry.unlessNull (ptr : Bool) (c : Call) : Entry := if ptr then .call c else .fail (-efault)

/-- The checks of `do_wait` and `read_wait`. -/
def doWait (now : U64) (all : Bool) : Option FfiWaitArgs → Entry
  | none => .fail (-efault)
  | some args =>
    if args.count = 0 ∨ maxWaitCount < args.count.toNat then .fail (-einval)
    else
      match args.objs with
      | none => .fail (-efault)
      | some objs =>
        .call (.wait ⟨(List.range args.count.toNat).map objs, args.owner, all, args.alert⟩
          (timeoutToDuration args.timeout now))

def Export.enter (now : U64) : Export → Entry
  | .init (some none) => .fail (-einval)
  | .init _ => .init
  | .sweepDead => .call .sweepDead
  | .createSem true (some (count, max)) => .call (.create (.sem count max))
  | .createMutex true (some (owner, count)) => .call (.create (.mutex owner count))
  | .createEvent true (some (manual, signaled)) =>
    .call (.create (.event (decide (manual ≠ 0)) (decide (signaled ≠ 0))))
  | .createSem _ _ | .createMutex _ _ | .createEvent _ _ => .fail (-efault)
  | .close handle => .call (.close handle)
  | .retain handle => .call (.hold true handle)
  | .release handle => .call (.hold false handle)
  | .semRelease handle (some count) => .call (.op handle (.semRelease count))
  | .semRelease _ none => .fail (-efault)
  | .semRead handle args => .unlessNull args (.op handle .readSem)
  | .mutexUnlock handle (some (owner, _)) => .call (.op handle (.mutexUnlock owner))
  | .mutexUnlock _ none => .fail (-efault)
  | .mutexKill handle owner => .call (.op handle (.mutexKill owner))
  | .mutexRead handle args => .unlessNull args (.op handle .readMutex)
  | .eventSet handle _ => .call (.op handle .eventSet)
  | .eventReset handle _ => .call (.op handle .eventReset)
  | .eventPulse handle _ => .call (.pulse handle)
  | .eventRead handle args => .unlessNull args (.op handle .readEvent)
  | .waitAny args => doWait now false args
  | .waitAll args => doWait now true args

/-- A null `prev` of the event functions takes no output. -/
def Export.takesOut : Export → Bool
  | .eventSet _ prev | .eventReset _ prev | .eventPulse _ prev => prev
  | _ => true

/-- The result of the core call under an exported function, if it makes one; `r` is what the call
    returns when it runs. -/
def Export.result (env : Env) (x : Export) (r : Ret) : Option CoreRet :=
  match x.enter env.now with
  | .fail _ => none
  | .init => some (.init (env.region.mapError .init))
  | .call c => some (coreCall env c r)

/-- **An exported function**: the returned `i32` and the words stored through its pointer. -/
def Export.run (env : Env) (x : Export) (r : Ret) : Int × List U32 :=
  match x.enter env.now with
  | .fail code => (code, [])
  | .init => let res := CoreRet.init (env.region.mapError .init); (res.code, res.out)
  | .call c =>
    let res := coreCall env c r
    (res.code, if x.takesOut then res.out else [])

/-! ### The contract -/

namespace CoreRet

def succeeded : CoreRet → Bool
  | .val (.ok _) | .handle (.ok _) | .unit (.ok _) | .num (.ok _) | .init (.ok _)
  | .wait (.signaled _ _) => true
  | .bool r => r
  | _ => false

/-- The mutex that was read or acquired had a dead owner. -/
def abandoned : CoreRet → Bool
  | .val (.ok (.mutex _ _ ownerDead)) | .wait (.signaled _ ownerDead) => ownerDead
  | _ => false

def err? : CoreRet → Option Err
  | .val (.error e) | .handle (.error e) | .unit (.error e) | .num (.error e)
  | .init (.error e) => some e
  | _ => none

/-- The code that stands for a result: 0 on success, `-EOWNERDEAD` on success with an abandoned
    mutex, and a negative value on failure. -/
structure Codes (res : CoreRet) (code : Int) : Prop where
  zero : code = 0 ↔ res.succeeded = true ∧ res.abandoned = false
  dead : res.succeeded = true → res.abandoned = true → code = -eownerdead
  fail : res.succeeded = false → code < 0

end CoreRet

/-- A sweep was performed and has freed `n` objects. -/
def Swept (env : Env) (r : Ret) (n : Nat) : Prop :=
  env.region = .ok () ∧ env.lock = .ok () ∧ r = .num n

/-- A failed call writes nothing to its out parameters. -/
theorem CoreRet.out_of_failed {res : CoreRet} (h : res.succeeded = false) : res.out = [] := by
  cases res with
  | val res =>
    cases res with
    | error e => rfl
    | ok v => cases h
  | handle res =>
    cases res with
    | error e => rfl
    | ok hd => cases h
  | wait res =>
    cases res with
    | signaled i dead => cases h
    | timeout | invalid => rfl
  | unit | num | bool | init => rfl

/-- A function that fails stores nothing through its pointer. -/
theorem Export.run_failed {env : Env} {x : Export} {r : Ret}
    (h : ∀ res, x.result env r = some res → res.succeeded = false) : (x.run env r).2 = [] := by
  unfold Export.result at h
  unfold Export.run
  cases henter : x.enter env.now with
  | fail code => rfl
  | init => rfl
  | call c =>
    rw [henter] at h
    show (if x.takesOut then (coreCall env c r).out else []) = []
    rw [CoreRet.out_of_failed (h _ rfl), ite_self]

/-- The contract of the returned code: `ntsync_sweep_dead` returns the number of freed objects, or
    a negative value where no sweep took place; the others return the code of their result, and a
    negative value where they do not call the core. -/
def Export.Contract (env : Env) (x : Export) (r : Ret) : Prop :=
  match x with
  | .sweepDead =>
    (∀ n, Swept env r n → (x.run env r).1 = n) ∧ (0 ≤ (x.run env r).1 → ∃ n, Swept env r n)
  | _ =>
    match x.result env r with
    | none => (x.run env r).1 < 0
    | some res => res.Codes (x.run env r).1

/-- The call fails at the region lock, and reports it. -/
structure Export.LockRefused (env : Env) (x : Export) (c : Call) : Prop where
  enter : x.enter env.now = .call c
  valid : c.valid = true
  locks : c.locks = true
  reports : ∀ h, c ≠ .close h
  region : env.region = .ok ()
  lock : ∃ e, env.lock = .error e

section Contract

variable {env : Env} {x : Export} {c : Call} {r : Ret}

/-- A result that reports no negated errno has the right code. -/
theorem CoreRet.codes_of {res : CoreRet} (hnum : ∀ n, res ≠ .num (.ok n))
    (herr : ∀ e, res.err? = some (.init e) → 0 < e) : res.Codes res.code := by
  -- an errno of each variant is negative
  have hneg {e : Err} (h : res.err? = some e) : e.errno < 0 ∧ e.holdErrno < 0 := by
    cases e with
    | init e =>
      have he := herr e h
      exact ⟨Int.neg_neg_of_pos he, Int.neg_neg_of_pos he⟩
    | _ => exact ⟨by decide, by decide⟩
  -- a failed result with a negative code
  have hfail (hs : res.succeeded = false) (hc : res.code < 0) : res.Codes res.code := by
    refine ⟨⟨fun h0 => ?_, fun h => ?_⟩, fun h => ?_, fun _ => hc⟩
    · exact absurd h0 (Int.ne_of_lt hc)
    · exact absurd (hs.symm.trans h.1) (by decide)
    · exact absurd (hs.symm.trans h) (by decide)
  -- a success, without and with an abandoned mutex
  have hok (hs : res.succeeded = true) (ha : res.abandoned = false) (hc : res.code = 0) :
      res.Codes res.code := by
    refine ⟨⟨fun _ => ⟨hs, ha⟩, fun _ => hc⟩, fun _ h => ?_, fun h => ?_⟩
    · exact absurd (ha.symm.trans h) (by decide)
    · exact absurd (hs.symm.trans h) (by decide)
  have hdead (hs : res.succeeded = true) (ha : res.abandoned = true)
      (hc : res.code = -eownerdead) : res.Codes res.code := by
    refine ⟨⟨fun h0 => ?_, fun h => ?_⟩, fun _ _ => hc, fun h => ?_⟩
    · exact absurd (hc.symm.trans h0) (by decide)
    · exact absurd (ha.symm.trans h.2) (by decide)
    · exact absurd (hs.symm.trans h) (by decide)
  cases res with
  | val res =>
    cases res with
    | error e => exact hfail rfl (hneg rfl).1
    | ok v =>
      cases v with
      | mutex _ _ dead =>
        cases dead
        · exact hok rfl rfl rfl
        · exact hdead rfl rfl rfl
      | _ => exact hok rfl rfl rfl
  | handle res =>
    cases res with
    | error e => exact hfail rfl (hneg rfl).1
    | ok h => exact hok rfl rfl rfl
  | unit res =>
    cases res with
    | error e => exact hfail rfl (hneg rfl).2
    | ok u => exact hok rfl rfl rfl
  | num res =>
    cases res with
    | error e => exact hfail rfl (hneg rfl).1
    | ok n => exact absurd rfl (hnum n)
  | bool b =>
    cases b
    · exact hfail rfl (by decide)
    · exact hok rfl rfl rfl
  | wait res =>
    cases res with
    | signaled i dead =>
      cases dead
      · exact hok rfl rfl rfl
      · exact hdead rfl rfl rfl
    | timeout => exact hfail rfl (by decide)
    | invalid => exact hfail rfl (by decide)
  | init res =>
    cases res with
    | error e => exact hfail rfl (hneg rfl).1
    | ok u => exact hok rfl rfl rfl

/-- A call refused with an error returns this error. -/
theorem Call.refused_err {e e' : Err} (h : (c.refused e).err? = some e') : e' = e := by
  cases c <;> cases h <;> rfl

/-- Only a lock failure reaches the C layer as a negated errno. -/
theorem coreCall_err (hx : x.enter env.now = .call c) (ho : Outcome c r)
    (hl : ¬ x.LockRefused env c) (e : Int) (he : (coreCall env c r).err? = some (.init e)) :
    0 < e := by
  -- what a call that runs returns
  have hcore (h : r.core.err? = some (.init e)) : 0 < e := by
    cases c <;> cases r <;> try exact ho.elim
    case op.op | pulse.op =>
      rename_i r
      cases r <;> cases h
      exact absurd rfl (ho e)
    case create.handle =>
      rename_i r
      cases r <;> cases h
      rw [ho e rfl]
      decide
    case hold.unit =>
      rename_i r
      cases r <;> cases h
      exact absurd rfl (ho e)
    all_goals cases h
  unfold coreCall at he
  split at he
  · rename_i hv
    split at he
    · rename_i e' hreg
      cases Call.refused_err he
      exact env.region_pos e hreg
    · rename_i hreg
      split at he
      · rename_i hlocks
        split at he
        · rename_i e' hlock
          refine absurd ⟨hx, hv, hlocks, fun h hc => ?_, hreg, e', hlock⟩ hl
          rw [hc] at he
          cases he
        · exact hcore he
      · exact hcore he
  · cases Call.refused_err he

/-- Only a sweep hands out a number. -/
theorem coreCall_num {n : Nat} (ho : Outcome c r) (h : coreCall env c r = .num (.ok n)) :
    c = .sweepDead := by
  have hrefused {c : Call} {e : Err} (hc : c.refused e = .num (.ok n)) : False := by
    cases c <;> cases hc
  have hcore (hr : r.core = .num (.ok n)) : c = .sweepDead := by
    cases r with
    | num m => cases c <;> first | rfl | exact ho.elim
    | _ => cases hr
  unfold coreCall at h
  split at h
  · split at h
    · exact (hrefused h).elim
    · split at h
      · split at h
        · exact (hrefused h).elim
        · exact hcore h
      · exact hcore h
  · exact (hrefused h).elim

/-- The codes of the C layer's own checks are negative. -/
theorem Export.enter_fail {now : U64} {code : Int} (h : x.enter now = .fail code) : code < 0 := by
  have hnull {ptr : Bool} {c : Call} (hp : Entry.unlessNull ptr c = .fail code) : code < 0 := by
    cases ptr <;> cases hp
    decide
  have hwait {all : Bool} {args : Option FfiWaitArgs} (hw : doWait now all args = .fail code) :
      code < 0 := by
    cases args with
    | none =>
      cases hw
      decide
    | some args =>
      simp only [doWait] at hw
      split at hw
      · cases hw
        decide
      · split at hw <;> cases hw
        decide
  unfold Export.enter at h
  split at h <;> first | exact hnull h | exact hwait h | (cases h <;> decide)

/-- Only `ntsync_sweep_dead` enters the sweep. -/
theorem Export.enter_sweepDead {now : U64} (h : x.enter now = .call .sweepDead) :
    x = .sweepDead := by
  have hnull {ptr : Bool} {hd : U32} {o : Op} :
      Entry.unlessNull ptr (.op hd o) ≠ .call .sweepDead := by
    cases ptr <;> exact fun he => by cases he
  have hwait {all : Bool} {args : Option FfiWaitArgs} : doWait now all args ≠ .call .sweepDead := by
    cases args with
    | none => exact fun he => by cases he
    | some args =>
      simp only [doWait]
      split
      · exact fun he => by cases he
      · split <;> exact fun he => by cases he
  unfold Export.enter at h
  split at h <;> first | rfl | exact (hnull h).elim | exact (hwait h).elim | cases h

/-- What the contract says of the exports other than `ntsync_sweep_dead`. -/
theorem Export.contract_of_ne (h : x ≠ .sweepDead) : x.Contract env r ↔
    match x.result env r with
    | none => (x.run env r).1 < 0
    | some res => res.Codes (x.run env r).1 := by
  cases x with
  | sweepDead => exact absurd rfl h
  | _ => exact Iff.rfl

/-- A call that cannot take the lock returns the negated error of the lock. -/
theorem Export.LockRefused.code {e : Int} (h : x.LockRefused env c) (he : env.lock = .error e) :
    coreCall env c r = c.refused (.init e) ∧ (c.refused (.init e)).succeeded = false ∧
      (c.refused (.init e)).code = -e := by
  have hrun : coreCall env c r = c.refused (.init e) := by
    unfold coreCall
    rw [if_pos h.valid, h.region]
    dsimp only
    rw [if_pos h.locks, he]
  have hlocks := h.locks
  have hreports := h.reports
  refine ⟨hrun, ?_⟩
  cases c with
  | pulse | create | hold | sweepDead => exact ⟨rfl, rfl⟩
  | op | wait => cases hlocks
  | close hd => exact absurd rfl (hreports hd)

end Contract

/-- **The contract of the return codes.** For every exported function, every argument, every way
    opening the region and taking its lock may go, and whatever the core call returns when it runs,
    the contract holds iff the call does not fail at the region lock: that errno has been negated
    twice. -/
theorem abi_contract_iff (env : Env) (x : Export) (r : Ret)
    (ho : ∀ c, x.enter env.now = .call c → Outcome c r) :
    x.Contract env r ↔ ∀ c, ¬ x.LockRefused env c := by
  constructor
  · -- the code of a refused call is positive
    intro hx c hl
    obtain ⟨e, he⟩ := hl.lock
    have hneg := env.lock_neg he
    obtain ⟨hrun, hsucc, hcode⟩ := hl.code (r := r) he
    have hfst : (x.run env r).1 = -e := by
      unfold Export.run
      rw [hl.enter]
      show (coreCall env c r).code = -e
      rw [hrun, hcode]
    by_cases hsw : x = .sweepDead
    · subst hsw
      have hpos : 0 ≤ (Export.run env .sweepDead r).1 := by
        rw [hfst]
        omega
      obtain ⟨n, _, hok, _⟩ := hx.2 hpos
      rw [he] at hok
      cases hok
    · have hres : x.result env r = some (c.refused (.init e)) := by
        unfold Export.result
        rw [hl.enter]
        show some (coreCall env c r) = _
        rw [hrun]
      have hcodes := (Export.contract_of_ne hsw).mp hx
      rw [hres] at hcodes
      have hlt := hcodes.fail hsucc
      rw [hfst] at hlt
      omega
  · intro hl
    by_cases hsw : x = .sweepDead
    · subst hsw
      have hcall : (Export.sweepDead).enter env.now = .call .sweepDead := rfl
      -- what a sweep returns is a count that fits into the signed code
      obtain ⟨n, rfl, hn⟩ : ∃ n, r = .num n ∧ n < 2 ^ 31 := by
        have h := ho .sweepDead hcall
        cases r with
        | num n => exact ⟨n, rfl, h⟩
        | _ => exact h.elim
      cases hreg : env.region with
      | error e =>
        -- the region cannot be opened, so no sweep takes place
        have hcode : (Export.run env .sweepDead (.num n)).1 = -e := by
          show (coreCall env .sweepDead (.num n)).code = -e
          rw [coreCall, if_pos (show Call.sweepDead.valid = true from rfl), hreg]
          rfl
        have he := env.region_pos e hreg
        refine ⟨fun m hm => ?_, fun h0 => ?_⟩
        · cases hreg.symm.trans hm.1
        · rw [hcode] at h0
          omega
      | ok u =>
        have hlock : env.lock = .ok () := by
          -- a refused lock is the case that is excluded
          cases hlk : env.lock with
          | ok u => rfl
          | error e => exact absurd ⟨hcall, rfl, rfl, nofun, hreg, e, hlk⟩ (hl .sweepDead)
        have hcode : (Export.run env .sweepDead (.num n)).1 = n := by
          show (coreCall env .sweepDead (.num n)).code = n
          rw [coreCall, if_pos (show Call.sweepDead.valid = true from rfl), hreg]
          dsimp only
          rw [if_pos (show Call.sweepDead.locks = true from rfl), hlock]
          show (BitVec.ofNat 32 n).toInt = n
          rw [BitVec.toInt_ofNat', Int.bmod_eq_of_le] <;> omega
        refine ⟨fun m hm => ?_, fun _ => ⟨n, hreg, hlock, rfl⟩⟩
        obtain ⟨_, _, heq⟩ := hm
        cases heq
        exact hcode
    · rw [Export.contract_of_ne hsw]
      unfold Export.result Export.run
      cases henter : x.enter env.now with
      | fail code => exact Export.enter_fail henter
      | init =>
        refine CoreRet.codes_of (fun n h => by cases h) (fun e he => ?_)
        cases hreg : env.region with
        | ok u =>
          rw [hreg] at he
          cases he
        | error e' =>
          rw [hreg] at he
          cases he
          exact env.region_pos _ hreg
      | call c =>
        -- only a sweep returns a number, and this is none
        refine CoreRet.codes_of (fun n hn => ?_) (coreCall_err henter (ho _ henter) (hl _))
        rw [coreCall_num (ho _ henter) hn] at henter
        exact hsw (Export.enter_sweepDead henter)

/-- The region is open, and `pthread_mutex_lock` returns `EINVAL`. -/
def Env.lockBroken : Env where
  region := .ok ()
  region_pos := fun _ h => nomatch h
  rets := [einval]
  rets_nonneg := by decide
  lock := .error (-einval)
  locked := rfl
  now := 0

/-- `ntsync_create_sem` returns +22 there. -/
theorem lock_failure_code_positive :
    ((Export.createSem true (some (0, 1))).run .lockBroken (.handle (.ok 1))).1 = 22 ∧
      ¬ (Export.createSem true (some (0, 1))).Contract .lockBroken (.handle (.ok 1)) := by
  refine ⟨rfl, fun h => ?_⟩
  have hlt := h.fail rfl
  exact absurd hlt (by decide)

/-- The condition at work: an `ntsync_create_sem` that takes the lock. -/
theorem abi_contract_create :
    (Export.createSem true (some (0, 1))).Contract
      ⟨.ok (), (fun _ h => by cases h), [etimedout, eownerdead], by decide, .ok (), rfl, 0⟩
      (.handle (.ok 1)) := by
  refine (abi_contract_iff _ _ _ fun c hc => ?_).mpr fun c hl => ?_
  · cases hc
    exact fun e he => by cases he
  · obtain ⟨e, he⟩ := hl.lock
    cases he

end Ntsync
