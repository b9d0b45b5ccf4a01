import Mathlib
import Ntsync.Semaphore

namespace Ntsync

open Words Lts

/-!
# Semaphores: no token is lost

Every token of a semaphore is in its word, was taken by a wait that returned, or is held by a wait
under way.  The books are kept from the history of a run alone:

* `standing t i` — how often the latest call of thread `t` has acquired slot `i` and not given it
  back;
* `signaledAcq`, `inFlight` — the standing acquisitions of the waits that returned `Signaled`, and
  those of the calls under way;
* `sem_conserved` — the balance, in every state of every run.
-/

variable {T : Type}

/-! ### The books -/

/-- What an instruction acquires of slot `i`: `-1` for a rollback. -/
def Instr.net (i : Nat) : Instr → ℤ
  | .word _ j (.acquire _ _) _ => if j = i then 1 else 0
  | .word _ j (.rollback _) _ => if j = i then -1 else 0
  | _ => 0

def Label.released (i : Nat) : Label T → ℤ
  | .instr _ _ ins => ins.released i
  | _ => 0

/-- The outcome of a wait that was satisfied. -/
def Pc.signaled : Pc → Bool
  | .done (.wait _ _) (.wait (.signaled _ _)) => true
  | _ => false

section Books

variable [DecidableEq T]

/-- The sum of `f` over the instructions of the latest call of thread `t`. -/
def sinceCall (f : Instr → ℤ) (t : T) : List (Label T) → ℤ
  | [] => 0
  | .call u _ :: h => if u = t then 0 else sinceCall f t h
  | .instr u _ ins :: h => sinceCall f t h + if u = t then f ins else 0
  | .die _ :: h => sinceCall f t h

/-- How often the latest call of thread `t` has acquired slot `i` and not given it back. -/
def standing (t : T) (i : Nat) (h : List (Label T)) : ℤ := sinceCall (Instr.net i) t h

/-- What the latest call of thread `t` has released to slot `i`. -/
def releasedBy (t : T) (i : Nat) (h : List (Label T)) : ℤ :=
  sinceCall (fun ins => ins.released i) t h

/-- The standing acquisitions of the call that the step returns from, if it is a wait that was
    satisfied. -/
def settled (i : Nat) (x : Trans (Sys T) (Label T)) (h : List (Label T)) : ℤ :=
  match x.label with
  | .instr t _ _ => if (x.after.threads t).pc.signaled then standing t i (x.label :: h) else 0
  | _ => 0

/-- The acquisitions of slot `i` by waits that returned `Signaled`. -/
def signaledAcq (i : Nat) : List (Trans (Sys T) (Label T)) → ℤ
  | [] => 0
  | x :: h => signaledAcq i h + settled i x (h.map Trans.label)

/-- The acquisitions of slot `i` by calls that have neither returned nor given them back. -/
def inFlight [Fintype T] (i : Nat) (h : List (Label T)) (s : Sys T) : ℤ :=
  ∑ t, if (s.threads t).pc.outside then 0 else standing t i h

/-- The tokens released to slot `i` by the calls of `sem_release` whose swap succeeded. -/
def releasedTo (i : Nat) (h : List (Label T)) : ℤ := (h.map (Label.released i)).sum

end Books

/-! ### What a call has standing -/

/-- The acquisitions of slot `i` that satisfy a wait with index `k`. -/
def WaitArgs.wonAt (a : WaitArgs) (i k : Nat) : Nat :=
  if k < a.handles.length then
    if a.all then (List.range a.handles.length).countP fun j => decide (a.slotOf j = i)
    else if a.slotOf k = i then 1 else 0
  else 0

/-- What an outcome leaves standing. -/
def WaitOutcome.standing (a : WaitArgs) (i : Nat) : WaitOutcome → Nat
  | .signaled k _ => a.wonAt i k
  | _ => 0

/-- What a call at `pc` has standing of slot `i`. -/
def Pc.standing (i : Nat) (pc : Pc) : Nat :=
  match pc.sat? with
  | some (c, p) => p.heldAt c.toWaitArgs i
  | none =>
    match pc.report, pc.args? with
    | some r, some a => r.standing a i
    | _, _ => 0

/-- Inside an attempt, what stands is what the attempt holds. -/
theorem Pc.standing_of_some {pc : Pc} {i : Nat} {c : WaitCtx} {p : Sat}
    (h : pc.sat? = some (c, p)) : pc.standing i = p.heldAt c.toWaitArgs i := by
  rw [Pc.standing, h]

/-- Past the attempt, what stands is what the outcome reports. -/
theorem Pc.standing_of_report {pc : Pc} {i : Nat} {a : WaitArgs} {r : WaitOutcome}
    (hs : pc.sat? = none) (hr : pc.report = some r) (ha : pc.args? = some a) :
    pc.standing i = r.standing a i := by
  rw [Pc.standing, hs, hr, ha]

/-- Without an attempt or an outcome nothing stands. -/
theorem Pc.standing_of_none {pc : Pc} {i : Nat} (hs : pc.sat? = none) (hr : pc.report = none) :
    pc.standing i = 0 := by
  rw [Pc.standing, hs, hr]

/-- What a step of `try_satisfy` leaves standing. -/
def Out.standing (a : WaitArgs) (i : Nat) : Out Sat (Option (Nat × Bool)) → Nat
  | .more p => p.heldAt a i
  | .done (some (k, _)) => a.wonAt i k
  | .done none => 0

/-- An alerted wait took no token. -/
theorem WaitArgs.wonAt_alerted (c : WaitCtx) (i : Nat) : c.alerted.standing c.toWaitArgs i = 0 :=
  if_neg (Nat.lt_irrefl _)

section SatStep

variable {r : Region} {a : WaitArgs} {seqs : Nat → U64} {p : Sat} {w : Option SatWrite}
  {out : Out Sat (Option (Nat × Bool))} {i k : Nat}

/-- An acquire at position `k` of a semaphore in slot `i`, or of another object. -/
theorem Acq.net_sem {q : Acq} {v : Option U64} {od : Bool} (hf : a.slotOf k = i → q.fits .sem)
    (hty : (r.slots i).objType = .sem)
    (hs : q.step (r.slots (a.slotOf k)) a.owner (seqs k) = (v, .done (some od))) :
    (satInstr a (v.map (.acquire k od))).net i = (if a.slotOf k = i then 1 else 0) ∧
      ((lo32 ((satInstr a (v.map (.acquire k od))).wordAfter i (r.slots i).w0)).toNat : ℤ) +
        (if a.slotOf k = i then 1 else 0) = (lo32 (r.slots i).w0).toNat := by
  rw [wordAfter_acquire]
  by_cases hk : a.slotOf k = i
  · have hq : q.fits (r.slots (a.slotOf k)).objType := by
      rw [hk, hty]
      exact hf hk
    obtain ⟨new, rfl, _, hlo⟩ := (Acq.step_take hq hs).sem (by rw [hk, hty])
    rw [hk] at hlo
    simp only [if_pos hk, Option.getD_some, Option.map_some, satInstr, SatWrite.instr, Instr.net]
    exact ⟨trivial, by omega⟩
  · have hnet : (satInstr a (v.map (.acquire k od))).net i = 0 := by
      cases v with
      | none => rfl
      | some new => exact if_neg hk
    simp [hk, hnet]

/-- A rollback at position `k` of a semaphore in slot `i`, or of another object. -/
theorem Undo.net_sem {u : Undo} {v : Option U64} {od : Bool} (hf : a.slotOf k = i → u.fits .sem)
    (hty : (r.slots i).objType = .sem)
    (hs : u.step (r.slots (a.slotOf k)) a.owner od = (v, .done ())) :
    (satInstr a (v.map (.rollback k))).net i = (if a.slotOf k = i then -1 else 0) ∧
      ((lo32 ((satInstr a (v.map (.rollback k))).wordAfter i (r.slots i).w0)).toNat : ℤ) ≡
        (lo32 (r.slots i).w0).toNat + (if a.slotOf k = i then 1 else 0) [ZMOD 2 ^ 32] := by
  rw [wordAfter_rollback]
  by_cases hk : a.slotOf k = i
  · have hu : u.fits (r.slots (a.slotOf k)).objType := by
      rw [hk, hty]
      exact hf hk
    have hgive := Undo.step_done hu hs
    simp only [UndoGives, hk, hty] at hgive
    subst hgive
    simp only [if_pos hk, Option.getD_some, Option.map_some, satInstr, SatWrite.instr, Instr.net,
      lo32_packSem, BitVec.toNat_add]
    refine ⟨trivial, ?_⟩
    push_cast
    exact Int.mod_modEq _ _
  · have hnet : (satInstr a (v.map (.rollback k))).net i = 0 := by
      cases v with
      | none => rfl
      | some new => exact if_neg hk
    simp [hk, hnet]

/-- A satisfied wait-all has acquired every position. -/
theorem Sat.Shape.wonAt {acquired : List (Nat × Bool)} {od : Bool} {q : Acq}
    (h : (Sat.all k acquired od q).Shape a) (hlast : ¬ k + 1 < a.handles.length) :
    a.wonAt i 0 = acquired.countP (fun x => decide (a.slotOf x.1 = i)) +
      if a.slotOf k = i then 1 else 0 := by
  obtain ⟨hk, hall, hacq, _⟩ := h
  have hlen : a.handles.length = k + 1 := by omega
  have hcount : acquired.countP (fun x => decide (a.slotOf x.1 = i)) =
      (List.range k).countP fun j => decide (a.slotOf j = i) := by
    rw [← hacq, List.countP_map]
    rfl
  rw [WaitArgs.wonAt, if_pos (by omega), if_pos hall, hlen, List.range_succ, List.countP_append,
    List.countP_singleton, hcount]
  simp

/-- **Step lemma.** A step of `try_satisfy` books what it acquires and gives back, and the
    semaphore's count changes accordingly. -/
theorem SatStep.net_sem (hst : SatStep r a seqs p w out) (hf : p.Fits a i .sem)
    (hshape : p.Shape a) (hty : (r.slots i).objType = .sem) :
    (out.standing a i : ℤ) = p.heldAt a i + (satInstr a w).net i ∧
      ((lo32 ((satInstr a w).wordAfter i (r.slots i).w0)).toNat : ℤ) + (satInstr a w).net i ≡
        (lo32 (r.slots i).w0).toNat [ZMOD 2 ^ 32] := by
  cases hst with
  -- these steps move no token
  | anyMore | anyNext | anyFail | allFail | undoNil | allMore | allUndo | undoMore =>
    exact ⟨(add_zero _).symm, by rw [show (satInstr a none).net i = 0 from rfl, add_zero]; rfl⟩
  | @anyWin k q v od hs =>
    obtain ⟨hnet, hlo⟩ := Acq.net_sem hf hty hs
    rw [hnet, hlo]
    refine ⟨?_, Int.ModEq.refl _⟩
    obtain ⟨hk, hany⟩ := hshape
    -- the token taken is the one the wait returns with
    simp only [Out.standing, WaitArgs.wonAt, if_pos hk, hany, Bool.false_eq_true, if_false,
      Sat.heldAt, Sat.held, List.countP_nil]
    split <;> rfl
  | @allTake k acquired od b q v hs _ =>
    obtain ⟨hnet, hlo⟩ := Acq.net_sem hf hty hs
    rw [hnet, hlo]
    refine ⟨?_, Int.ModEq.refl _⟩
    -- one more object is held
    simp only [Out.standing, Sat.heldAt, Sat.held, List.countP_append, List.countP_singleton,
      decide_eq_true_eq]
    push_cast
    rfl
  | @allWin k acquired od b q v hs hlast =>
    obtain ⟨hnet, hlo⟩ := Acq.net_sem hf hty hs
    rw [hnet, hlo]
    refine ⟨?_, Int.ModEq.refl _⟩
    -- the wait returns with all that it holds
    show (a.wonAt i 0 : ℤ) = _
    rw [hshape.wonAt hlast]
    push_cast
    rfl
  | @undoLast k b u v hs =>
    obtain ⟨hnet, hlo⟩ := Undo.net_sem hf hty hs
    rw [hnet]
    refine ⟨?_, (hlo.add_right _).trans ?_⟩
    -- one object less is held
    · simp only [Out.standing, Sat.heldAt, Sat.held, List.countP_singleton, decide_eq_true_eq]
      split <;> rfl
    · split <;> simp
  | @undoNext k b rest u v hs _ =>
    obtain ⟨hnet, hlo⟩ := Undo.net_sem hf hty hs
    rw [hnet]
    refine ⟨?_, (hlo.add_right _).trans ?_⟩
    · simp only [Out.standing, Sat.heldAt, Sat.held, List.countP_cons, decide_eq_true_eq]
      split <;> simp
    · split <;> simp

end SatStep

section PcStep

variable {sh : Shared T} {pid : U32} {o : Oracle} {pc pc' : Pc} {ins : Instr} {i : Nat} {g : U32}

/-- Outside `try_satisfy` nothing is acquired or given back. -/
theorem WaitGo.standing {c : WaitCtx} {q : WaitPc} (hg : WaitGo o sh pid c q ins pc')
    (hq : q.sat? = none) : pc'.standing i = (Pc.wait c q).standing i := by
  have hsat : (Pc.wait c q).sat? = none := by rw [Pc.sat?, hq]; rfl
  have hplain := hg.plain hq
  have hargs : ∀ r, pc'.report = some r → pc'.args? = some c.toWaitArgs := by
    intro r hr
    rcases hplain.args with rfl | ha
    · cases hr
    · exact ha
  cases hrep : (Pc.wait c q).report with
  | some r =>
    have hr := (PcGo.wait hg).report hrep
    have hs' : pc'.sat? = none := by
      rcases hplain.sat with h | ⟨c', h, _⟩
      · exact h
      · obtain ⟨q', rfl, hq'⟩ := Pc.sat_wait h
        unfold WaitPc.sat? at hq'
        split at hq' <;> cases hq' <;> cases hr
    rw [Pc.standing_of_report hsat hrep rfl, Pc.standing_of_report hs' hr (hargs r hr)]
  | none =>
    rw [Pc.standing_of_none hsat hrep]
    rcases hplain.sat with hs' | ⟨c', hs', _⟩
    · rcases hplain.report with hr | hr | hr | hr
      · exact Pc.standing_of_none hs' (hr.trans hrep)
      · rw [Pc.standing_of_report hs' hr (hargs _ hr)]
        rfl
      · rw [Pc.standing_of_report hs' hr (hargs _ hr)]
        rfl
      · rw [Pc.standing_of_report hs' hr (hargs _ hr)]
        exact WaitArgs.wonAt_alerted c i
    · rw [Pc.standing_of_some hs']
      exact Sat.heldAt_start _ _ _

/-- Outside of attempts a step leaves what stands. -/
theorem PcGo.standing (hg : PcGo sh pid o pc ins pc') (hp : pc.sat? = none) :
    pc'.standing i = pc.standing i := by
  cases hg with
  | op hg => cases hg <;> rfl
  | pulse hg => cases hg <;> rfl
  | wait hg => exact hg.standing (by simpa [Pc.sat?] using hp)
  | create hg => cases hg <;> rfl
  | close hg => cases hg <;> rfl
  | hold hg => cases hg <;> rfl
  | sweepDead hg => cases hg <;> rfl

/-- Only attempts take or give back tokens. -/
theorem Instr.net_of_attempt (h : ins.attempt = false) : ins.net i = 0 := by
  unfold Instr.net
  split <;> first | rfl | cases h

/-- **Step lemma.** Every step books what it acquires, gives back and releases. -/
theorem PcGo.net_sem (hg : PcGo sh pid o pc ins pc') (hs : Holds sh.region i g .sem)
    (hv : pc.Valid i g .sem) (hshape : pc.Shape) :
    (pc'.standing i : ℤ) = pc.standing i + ins.net i ∧
      ((lo32 (ins.wordAfter i (sh.region.slots i).w0)).toNat : ℤ) + ins.net i ≡
        (lo32 (sh.region.slots i).w0).toNat + ins.released i [ZMOD 2 ^ 32] := by
  cases hp : pc.sat? with
  | some x =>
    obtain ⟨c, p⟩ := x
    obtain ⟨q, rfl, hq⟩ := Pc.sat_wait hp
    obtain ⟨w, out, hst, rfl, hargs, hf⟩ := hg.sat hp
    obtain ⟨hstand, hlo⟩ := hst.net_sem (hv.fits p hq) (hshape.2 p hq) hs.typ
    have hrel : (satInstr c.toWaitArgs w).released i = 0 := by
      rcases w with _ | (_ | _) <;> rfl
    have hout : pc'.standing i = out.standing c.toWaitArgs i := by
      match out with
      | .more p' => exact Pc.standing_of_some hf
      | .done (some (k, od)) => exact Pc.standing_of_report hf.1 hf.2 hargs
      | .done none =>
        rcases hf.2 with hr | hr
        · exact Pc.standing_of_none hf.1 hr
        · exact Pc.standing_of_report hf.1 hr hargs
    rw [hout, Pc.standing_of_some hp, hrel]
    exact ⟨hstand, by simpa using hlo⟩
  | none =>
    rw [hg.standing hp, Instr.net_of_attempt (hg.noSat hp).1, add_zero, add_zero]
    refine ⟨rfl, ?_⟩
    by_cases hw : ∃ hd tag new, ins = .word hd i tag new
    · obtain ⟨hd, tag, new, rfl⟩ := hw
      -- a release stores the word here: pulses are for events, and this is no attempt
      rcases hg.word with ⟨op, cas, r, wake, rfl, hi, rfl, hb, _⟩ | ⟨prev, w, rfl, hi, _⟩ |
        ⟨c, q, p, rfl, hq⟩
      · obtain ⟨n, rfl, hn⟩ := Op.pass_sem ((hv hi.symm).2 rfl) hb
        obtain ⟨_, hlo⟩ := semRelease_cas hn
        simp only [Instr.wordAfter, if_true, Instr.released, hlo]
        push_cast
        exact Int.ModEq.refl _
      · cases ((hv hi.symm) rfl).2
      · simp [Pc.sat?, hq] at hp
    · have hrel : ins.released i = 0 := by
        unfold Instr.released
        split
        · rename_i j n new
          exact if_neg fun hj => hw ⟨_, _, _, by rw [hj]⟩
        · rfl
      rw [Instr.wordAfter_of_ne (fun hd tag new e => hw ⟨hd, tag, new, e⟩), hrel]
      simp

/-- A signal operation that has not made its store, or failed. -/
def Pc.quiet : Pc → Prop
  | .op _ _ p => p.result = none ∨ ∃ e, p.result = some (.error e)
  | .done (.op _ _) (.op (.error _)) => True
  | _ => False

/-- An operation that stores to its word does not fail. -/
theorem Op.pass_ok {op : Op} {w new : U64} {r : OpRet} {wake : Bool}
    (h : op.pass w = .cas new (r, wake)) : ∃ v, r = .ok v := by
  cases op with
  | semRelease n =>
    simp only [Op.pass, Ntsync.semRelease] at h
    split at h <;> cases h
    exact ⟨_, rfl⟩
  | eventSet =>
    simp only [Op.pass, Ntsync.eventSet] at h
    split at h <;> cases h
    exact ⟨_, rfl⟩
  | eventReset =>
    simp only [Op.pass, Ntsync.eventReset] at h
    split at h <;> cases h
    exact ⟨_, rfl⟩
  | mutexUnlock owner =>
    simp only [Op.pass, Ntsync.mutexUnlock] at h
    split at h <;> cases h
    exact ⟨_, rfl⟩
  | mutexKill owner =>
    simp only [Op.pass, Ntsync.mutexKill] at h
    split at h <;> cases h
    exact ⟨_, rfl⟩
  | readSem | readMutex | readEvent => cases h

/-- A wake walk releases no token. -/
theorem Instr.released_of_walks (h : ins.walks = true) : ins.released i = 0 := by
  cases ins <;> first | rfl | cases h

/-- An operation that failed has released nothing on the way. -/
theorem PcGo.quiet (hg : PcGo sh pid o pc ins pc') (hq : pc'.quiet) :
    pc.quiet ∧ ins.released i = 0 := by
  cases hg with
  | op hg =>
    cases hg with
    | state | gen | typ | retry => exact ⟨.inl rfl, rfl⟩
    | bad hp =>
      rename_i p
      exact ⟨.inl (by cases p <;> first | rfl | cases hp), rfl⟩
    | ret => exact ⟨.inl rfl, rfl⟩
    | swap hb =>
      obtain ⟨v, rfl⟩ := Op.pass_ok hb
      rcases hq with hq | ⟨e, hq⟩ <;> cases hq
    | swapQuiet hb =>
      obtain ⟨v, rfl⟩ := Op.pass_ok hb
      cases hq
    | peekNone =>
      rename_i r _
      cases r with
      | error e => exact ⟨.inr ⟨e, rfl⟩, rfl⟩
      | ok v => cases hq
    | peek | lock => exact ⟨hq, rfl⟩
    | walk hw | walked hw => exact ⟨hq, Instr.released_of_walks (Walk.step_walks hw)⟩
    | unlock =>
      rename_i r
      cases r with
      | error e => exact ⟨.inr ⟨e, rfl⟩, rfl⟩
      | ok v => cases hq
  | pulse hg => cases hg <;> cases hq
  | wait hg =>
    rcases hg.args with rfl | ha
    · cases hq
    · cases pc' with
      | op => cases ha
      | done c r =>
        cases c with
        | wait => cases hq
        | _ => cases ha
      | _ => cases hq
  | create hg => cases hg <;> cases hq
  | close hg => cases hg <;> cases hq
  | hold hg => cases hg <;> cases hq
  | sweepDead hg => cases hg <;> cases hq

end PcStep

/-! ### The balance -/

section Balance

variable [DecidableEq T] {f : Instr → ℤ} {t u : T} {h : List (Label T)} {s s' : Sys T} {i : Nat}

/-- The steps of other threads do not count. -/
theorem sinceCall_other (hut : u ≠ t) (pid : U32) (ins : Instr) :
    sinceCall f u (.instr t pid ins :: h) = sinceCall f u h := by
  rw [sinceCall, if_neg (Ne.symm hut), add_zero]

/-- A step of the thread counts. -/
theorem sinceCall_self (pid : U32) (ins : Instr) :
    sinceCall f t (.instr t pid ins :: h) = sinceCall f t h + f ins := by
  rw [sinceCall, if_pos rfl]

omit [DecidableEq T] in
/-- A thread outside all calls holds nothing, unless it has returned with it. -/
theorem Pc.standing_of_outside {pc : Pc} (ho : pc.outside = true) (hs : pc.signaled = false) :
    pc.standing i = 0 := by
  rcases Pc.outside_cases ho with rfl | ⟨c, r, rfl⟩
  · rfl
  · cases c with
    | wait a timeout =>
      cases r with
      | wait r =>
        rw [Pc.standing_of_report (r := r) (a := a) rfl rfl rfl]
        cases r with
        | signaled => cases hs
        | timeout | invalid => rfl
      | _ => rfl
    | _ => rfl

omit [DecidableEq T] in
/-- A call starts with nothing. -/
theorem Pc.start_standing (c : Call) : (Pc.start c).standing i = 0 := by
  cases c <;> simp only [Pc.start] <;> (try split) <;> rfl

variable [Fintype T]

/-- The books balance. -/
structure ConserveInv (i : Nat) (g count : U32) (h : List (Trans (Sys T) (Label T)))
    (s : Sys T) : Prop where
  isOpen : OpenInv i g .sem s
  shape : ShapeInv s
  stands : ∀ t, standing t i (h.map Trans.label) = (s.threads t).pc.standing i
  quiet : ∀ t, (s.threads t).pc.quiet → releasedBy t i (h.map Trans.label) = 0
  balance : ((lo32 (s.region.slots i).w0).toNat : ℤ) + signaledAcq i h +
      inFlight i (h.map Trans.label) s ≡
    count.toNat + releasedTo i (h.map Trans.label) [ZMOD 2 ^ 32]

/-- What a step of thread `t` adds to the books. -/
theorem inFlight_tick {h : List (Trans (Sys T) (Label T))} {ins : Instr} {pc' : Pc}
    (hin : (s.threads t).pc.outside = false)
    (hstand : pc'.outside = true → pc'.signaled = false →
      standing t i (.instr t (s.threads t).pid ins :: h.map Trans.label) = 0)
    (x : Trans (Sys T) (Label T))
    (hx : x = ⟨s, .instr t (s.threads t).pid ins, s.after t ins pc'⟩) :
    signaledAcq i (x :: h) + inFlight i ((x :: h).map Trans.label) (s.after t ins pc') =
      signaledAcq i h + inFlight i (h.map Trans.label) s + ins.net i := by
  subst hx
  -- only the account of thread `t` changes
  have hsum := sum_change
    (fun u => if (s.threads u).pc.outside then 0 else standing u i (h.map Trans.label))
    (fun u => if ((s.after t ins pc').threads u).pc.outside then 0 else
      standing u i (.instr t (s.threads t).pid ins :: h.map Trans.label)) t
    (fun u hut => by
      simp only [Sys.after_pc, if_neg hut, standing, sinceCall_other hut])
  simp only [hin, Bool.false_eq_true, if_false, Sys.after_pc, if_true] at hsum
  have hself : standing t i (.instr t (s.threads t).pid ins :: h.map Trans.label) =
      standing t i (h.map Trans.label) + ins.net i := sinceCall_self _ _
  have hset : settled i ⟨s, .instr t (s.threads t).pid ins, s.after t ins pc'⟩
      (h.map Trans.label) = if pc'.signaled then
        standing t i (.instr t (s.threads t).pid ins :: h.map Trans.label) else 0 := by
    simp only [settled, Sys.after_pc, if_true]
  have hinside : pc'.signaled = true → pc'.outside = true := by
    intro hsig
    unfold Pc.signaled at hsig
    split at hsig <;> first | rfl | cases hsig
  show signaledAcq i h + settled i _ _ + inFlight i (.instr t _ ins :: h.map Trans.label) _ = _
  rw [hset]
  simp only [inFlight, Sys.after_pc] at hsum ⊢
  cases hout : pc'.outside with
  | false =>
    -- the call goes on, and its account stays in flight
    have hsig : pc'.signaled = false := by
      by_contra hne
      rw [hinside (by simpa using hne)] at hout
      cases hout
    simp only [hout, hsig, Bool.false_eq_true, if_false] at hsum ⊢
    omega
  | true =>
    cases hsig : pc'.signaled with
    | true =>
      -- a wait that returns with success moves its account to the settled ones
      simp only [hout, if_true] at hsum ⊢
      omega
    | false =>
      -- a call that ends otherwise holds nothing
      have hzero := hstand hout hsig
      simp only [hout, if_true, Bool.false_eq_true, if_false] at hsum ⊢
      omega

/-- **Every step keeps the balance.** -/
theorem ConserveInv.step {g count : U32} {h : List (Trans (Sys T) (Label T))} {a : Action T}
    {x : Trans (Sys T) (Label T)} (hi : ConserveInv i g count h s)
    (hx : traced Sys.step s a = some (s', x)) (hu : Stays i s') :
    ConserveInv i g count (x :: h) s' := by
  obtain ⟨l, hs, rfl⟩ := traced_eq_some.mp hx
  have hopen := hi.isOpen.step hs hu
  have hshape := hi.shape.step hs
  cases Sys.step_inv hs with
  | @call t c ha hout =>
    -- a thread that enters a call begins a new account
    refine ⟨hopen, hshape, fun u => ?_, fun u hq => ?_, ?_⟩
    · show sinceCall _ u (.call t c :: h.map Trans.label) = _
      rw [Sys.entered_pc, sinceCall]
      by_cases hut : u = t
      · rw [if_pos hut.symm, if_pos hut, Pc.start_standing]
        rfl
      · rw [if_neg (Ne.symm hut), if_neg hut]
        exact hi.stands u
    · show sinceCall _ u (.call t c :: h.map Trans.label) = _
      rw [Sys.entered_pc] at hq
      rw [sinceCall]
      by_cases hut : u = t
      · rw [if_pos hut.symm]
      · rw [if_neg (Ne.symm hut)]
        rw [if_neg hut] at hq
        exact hi.quiet u hq
    · have hfly : inFlight i (.call t c :: h.map Trans.label) (s.entered t c) =
          inFlight i (h.map Trans.label) s := by
        refine Finset.sum_congr rfl fun u _ => ?_
        rw [Sys.entered_pc, standing, sinceCall]
        by_cases hut : u = t
        · subst hut
          rw [if_pos rfl, if_pos rfl, hout]
          simp
        · rw [if_neg hut, if_neg (Ne.symm hut)]
          rfl
      have hrel : releasedTo i (.call t c :: h.map Trans.label) =
          releasedTo i (h.map Trans.label) := by
        simp [releasedTo, Label.released]
      show _ + (signaledAcq i h + 0) + inFlight i (.call t c :: h.map Trans.label) _ ≡
        _ + releasedTo i (.call t c :: h.map Trans.label) [ZMOD _]
      rw [hfly, hrel, add_zero]
      exact hi.balance
  | @tick t o ins pc' ha ht =>
    have hg := tick_inv ht
    obtain ⟨hstand, hword⟩ := hg.net_sem hi.isOpen.holds (hi.isOpen.valid t) (hi.shape t)
    obtain ⟨hw, _⟩ := hi.isOpen.after_word ha hg hu
    have hself : standing t i (.instr t (s.threads t).pid ins :: h.map Trans.label) =
        pc'.standing i := by
      rw [standing, sinceCall_self, hstand, ← hi.stands t]
      rfl
    refine ⟨hopen, hshape, fun u => ?_, fun u hq => ?_, ?_⟩
    · rw [Sys.after_pc]
      by_cases hut : u = t
      · subst hut
        rw [if_pos rfl]
        exact hself
      · rw [if_neg hut]
        exact (sinceCall_other hut _ _).trans (hi.stands u)
    · rw [Sys.after_pc] at hq
      by_cases hut : u = t
      · subst hut
        rw [if_pos rfl] at hq
        obtain ⟨hq₀, hrel⟩ := hg.quiet (i := i) hq
        show sinceCall _ u (.instr u _ ins :: h.map Trans.label) = 0
        rw [sinceCall_self, hrel]
        simpa [releasedBy] using hi.quiet u hq₀
      · rw [if_neg hut] at hq
        exact (sinceCall_other hut _ _).trans (hi.quiet u hq)
    · have hbooks := inFlight_tick (i := i) (h := h) (tick_inv ht).inside (fun ho hsig => by
        -- what is left of a call that has returned without success is nothing
        rw [hself, Pc.standing_of_outside ho hsig]
        rfl) _ rfl
      have hrel : releasedTo i (.instr t (s.threads t).pid ins :: h.map Trans.label) =
          ins.released i + releasedTo i (h.map Trans.label) := by
        simp [releasedTo, Label.released]
      rw [add_assoc, hbooks, hw]
      show _ ≡ _ + releasedTo i (.instr t _ ins :: h.map Trans.label) [ZMOD _]
      rw [hrel]
      -- the word moves by what the step takes or gives, and the books record both
      calc ((lo32 (ins.wordAfter i (s.region.slots i).w0)).toNat : ℤ) +
            (signaledAcq i h + inFlight i (h.map Trans.label) s + ins.net i)
          = ((lo32 (ins.wordAfter i (s.region.slots i).w0)).toNat : ℤ) + ins.net i +
            (signaledAcq i h + inFlight i (h.map Trans.label) s) := by ring
        _ ≡ (lo32 (s.region.slots i).w0).toNat + ins.released i +
            (signaledAcq i h + inFlight i (h.map Trans.label) s) [ZMOD 2 ^ 32] :=
          hword.add_right _
        _ = (lo32 (s.region.slots i).w0).toNat + signaledAcq i h +
            inFlight i (h.map Trans.label) s + ins.released i := by ring
        _ ≡ count.toNat + releasedTo i (h.map Trans.label) + ins.released i [ZMOD 2 ^ 32] :=
          hi.balance.add_right _
        _ = count.toNat + (ins.released i + releasedTo i (h.map Trans.label)) := by ring
  | @die pid =>
    refine ⟨hopen, hshape, hi.stands, hi.quiet, ?_⟩
    have hrel : releasedTo i (.die pid :: h.map Trans.label) = releasedTo i (h.map Trans.label) := by
      simp [releasedTo, Label.released]
    show _ + (signaledAcq i h + 0) + inFlight i (.die pid :: h.map Trans.label) _ ≡
      _ + releasedTo i (.die pid :: h.map Trans.label) [ZMOD _]
    rw [hrel, add_zero]
    exact hi.balance

/-- The balance at rest. -/
theorem ConserveInv.of_start {count : U32} {max : U32} (hidle : s.Idle)
    (hu : (s.region.slots i).state = .used) (hty : (s.region.slots i).objType = .sem)
    (hw : (s.region.slots i).w0 = packSem count max)
    (hnone : ∀ t, (s.threads t).pc = .idle) :
    ConserveInv i (s.region.slots i).generation count [] s := by
  have hopen := OpenInv.of_idle hidle hu
  rw [hty] at hopen
  refine ⟨hopen, .of_idle hidle, fun t => by rw [hnone t]; rfl, fun t hq => rfl, ?_⟩
  have hfly : inFlight i [] s = 0 := Finset.sum_eq_zero fun t _ => by rw [hnone t]; rfl
  show _ + 0 + inFlight i [] s ≡ _ + 0 [ZMOD _]
  rw [hfly, hw, lo32_packSem]
  simp

/-- **Tokens are conserved.** In every state of every run that starts with all threads at rest and
    leaves the semaphore open, modulo `2 ^ 32`, the visible count, the acquisitions of the waits
    that returned `Signaled` and those of the calls under way add up to the initial count and
    everything released.  A wait that returned holds exactly what its outcome says, and a
    `sem_release` that failed has released nothing. -/
theorem sem_conserved {count max : U32} {s₀ : Sys T} {h : List (Trans (Sys T) (Label T))}
    (hnone : ∀ t, (s₀.threads t).pc = .idle) (hu : (s₀.region.slots i).state = .used)
    (hty : (s₀.region.slots i).objType = .sem) (hw : (s₀.region.slots i).w0 = packSem count max)
    (hr : Run (traced Sys.step) (fun _ _ s' => Stays i s') s₀ h s) :
    ((lo32 (s.region.slots i).w0).toNat : ℤ) + signaledAcq i h +
        inFlight i (h.map Trans.label) s ≡
      count.toNat + releasedTo i (h.map Trans.label) [ZMOD 2 ^ 32] ∧
    (∀ t a timeout r, (s.threads t).pc = .done (.wait a timeout) (.wait r) →
      standing t i (h.map Trans.label) = r.standing a i) ∧
    ∀ t hd n e, (s.threads t).pc = .done (.op hd (.semRelease n)) (.op (.error e)) →
      releasedBy t i (h.map Trans.label) = 0 := by
  have hidle : s₀.Idle := fun t => by rw [hnone t]; rfl
  have hinv : ConserveInv i (s₀.region.slots i).generation count h s :=
    hr.invariant (I := ConserveInv i _ count) (.of_start hidle hu hty hw hnone)
      (fun h s a s' x hi hs hok => hi.step hs hok)
  refine ⟨hinv.balance, fun t a timeout r hpc => ?_, fun t hd n e hpc => ?_⟩
  · rw [hinv.stands t, hpc, Pc.standing_of_report (r := r) (a := a) rfl rfl rfl]
  · exact hinv.quiet t (by rw [hpc]; trivial)

end Balance

/-- Thread 0 takes the only token with a wait for the semaphore alone; thread 1 releases one and
    takes it tentatively, with a wait for semaphore and event. -/
def tokenTrip : List (Action (Fin 2)) :=
  .call 0 (.wait { handles := [1], owner := 5, all := false, alert := 0 } .zero) ::
    List.replicate 6 (.tick 0 {}) ++
  .call 1 (.op 1 (.semRelease 1)) :: List.replicate 6 (.tick 1 {}) ++
  .call 1 (.wait { handles := [1, 2], owner := 6, all := true, alert := 0 } .zero) ::
    List.replicate 10 (.tick 1 {})

/-- One token is taken and returned, another one is in flight. -/
theorem sem_conserved_tokenTrip :
    ∃ h s, Run (traced Sys.step) (fun _ _ s' => Stays 1 s') semDemo h s ∧
      (lo32 (s.region.slots 1).w0).toNat = 0 ∧ signaledAcq 1 h = 1 ∧
      inFlight 1 (h.map Trans.label) s = 1 ∧
      (0 : ℤ) + 1 + 1 ≡ 1 + releasedTo 1 (h.map Trans.label) [ZMOD 2 ^ 32] := by
  obtain ⟨h, s, hr, hlo, hsig, hfly⟩ := exists_history_of_exec (traced Sys.step)
    (fun _ _ s' => Stays 1 s') semDemo
    (P := fun h s => (lo32 (s.region.slots 1).w0).toNat = 0 ∧ signaledAcq 1 h = 1 ∧
      inFlight 1 (h.map Trans.label) s = 1) tokenTrip (by decide +kernel)
  have hbal := (sem_conserved (fun _ => rfl) (by decide) (by decide)
    (show (semDemo.region.slots 1).w0 = packSem 1 1 by decide) hr).1
  rw [hlo, hsig, hfly] at hbal
  exact ⟨h, s, hr, hlo, hsig, hfly, hbal⟩

end Ntsync
