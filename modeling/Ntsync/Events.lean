import Mathlib
import Ntsync.Shape

namespace Ntsync

open Words Lts

/-!
# Events

`event_set` and `event_reset` swap the word of an event; `event_pulse` reads it twice and stores it
back; a wait-all takes the signal of an auto-reset event and may give it back.

* `SeqOk` — which entries of a wait's `entry_seqs` are snapshots of the pulse counter;
* `reset_stays_reset` — an event that was reset stays unsignaled until the next `event_set`, unless
  the reset came while a wait-all held the signal (`event_resignaled`).
-/

variable {T : Type}

/-! ### The word of an event -/

/-- The low half of an event's word is its signaled bit. -/
theorem lo32_packEvent (b m : Bool) : lo32 (packEvent b m) = if b then 1 else 0 := by
  cases b <;> cases m <;> decide

/-- Setting the low bit signals the event and leaves its kind. -/
theorem packEvent_or (b m : Bool) : packEvent b m ||| 1 = packEvent true m := by
  cases b <;> cases m <;> decide

/-- Clearing the low bit resets the event and leaves its kind. -/
theorem packEvent_and (b m : Bool) : packEvent b m &&& ~~~1 = packEvent false m := by
  cases b <;> cases m <;> decide

/-- An event whose low half is zero is unsignaled. -/
theorem lo32_packEvent_eq_zero {b m : Bool} : lo32 (packEvent b m) = 0 ↔ b = false := by
  cases b <;> cases m <;> decide

/-! ### Snapshots of the pulse counter -/

/-- How many of the wait's positions have their snapshot: the fast path takes one round of them, the
    first locked pass another one, later passes keep it. -/
def WaitCtx.seqTo (c : WaitCtx) : WaitPc → Nat
  | .fast (.look k _) | .fast (.seq k) => k
  | .pass .lock => if c.nodes = [] then 0 else c.handles.length
  | .pass (.validate k) => if c.nodes = [] then k else c.handles.length
  | .clean _ _ => 0
  | _ => c.handles.length

def WaitPc.isFast : WaitPc → Bool
  | .fast _ => true
  | _ => false

/-- The snapshots of the event in slot `i` satisfy `S`. -/
structure SeqOk (i : Nat) (S : U64 → Prop) (c : WaitCtx) (p : WaitPc) : Prop where
  fast : p.isFast = true → c.nodes = []
  seqs : ∀ k < c.seqTo p, c.slotOf k = i → S (c.seqs k)

def Pc.SeqOk (i : Nat) (S : U64 → Prop) : Pc → Prop
  | .wait c p => Ntsync.SeqOk i S c p
  | _ => True

section Seqs

variable {o : Oracle} {sh : Shared T} {pid : U32} {ins : Instr} {pc pc' : Pc} {i : Nat}
  {S : U64 → Prop} {c : WaitCtx}

/-- A snapshot changes one handle's entry. -/
theorem WaitCtx.setSeq_seqs (c : WaitCtx) (k j : Nat) (d : U64) :
    (c.setSeq k d).seqs j = if j = k then d else c.seqs j := by
  simp [WaitCtx.setSeq, Function.update_apply]

/-- One more snapshot. -/
theorem SeqOk.extend {k : Nat} {d : U64} (hd : c.slotOf k = i → S d)
    (hpre : ∀ j < k, c.slotOf j = i → S (c.seqs j)) :
    ∀ j < k + 1, c.slotOf j = i → S ((c.setSeq k d).seqs j) := by
  intro j hj hji
  rw [WaitCtx.setSeq_seqs]
  split
  · rename_i hjk
    exact hd (by rw [← hjk]; exact hji)
  · exact hpre j (by omega) hji

/-- The fast path has taken one more snapshot. -/
theorem WaitCtx.seqTo_fastNext (c : WaitCtx) (k : Nat) : c.seqTo (c.fastNext k) ≤ k + 1 := by
  unfold WaitCtx.fastNext
  split
  · exact Nat.le_refl _
  · split <;> show c.handles.length ≤ k + 1 <;> omega

/-- The fast path goes on within itself. -/
theorem WaitCtx.isFast_fastNext (c : WaitCtx) (k : Nat) : (c.fastNext k).isFast = true := by
  unfold WaitCtx.fastNext
  split
  · rfl
  · split <;> rfl

/-- The locked pass does not go back to the fast path. -/
theorem WaitCtx.isFast_validateNext (c : WaitCtx) (k : Nat) :
    (c.validateNext k).isFast = false := by
  unfold WaitCtx.validateNext WaitCtx.afterAlert
  split
  · rfl
  · split
    · rfl
    · split <;> rfl

/-- The first locked pass takes one more snapshot, and the later ones keep them all. -/
theorem WaitCtx.seqTo_validateNext (c : WaitCtx) (k : Nat) :
    c.seqTo (c.validateNext k) ≤ if c.nodes = [] then k + 1 else c.handles.length := by
  unfold WaitCtx.validateNext WaitCtx.afterAlert
  split
  · simp only [WaitCtx.seqTo]
    split <;> exact Nat.le_refl _
  · have hlen : c.handles.length ≤ k + 1 := by omega
    split
    · show c.handles.length ≤ _
      split <;> omega
    · split
      · show c.handles.length ≤ _
        omega
      · show c.handles.length ≤ _
        omega

/-- The snapshots of the fast path are pulse counts of the event. -/
theorem FastGo.seqs {p : FastPc} (hg : FastGo sh c p ins pc')
    (hty : (sh.region.slots i).objType = .event) (hd : S (sh.region.slots i).d)
    (hv : SeqOk i S c (.fast p)) : pc'.SeqOk i S := by
  have hnodes := hv.fast rfl
  have hlock : SeqOk i S c (.pass .lock) := by
    refine ⟨fun h => (by cases h), fun k hk => ?_⟩
    simp only [WaitCtx.seqTo, if_pos hnodes] at hk
    omega
  cases hg with
  | @lookOther k hk =>
    refine ⟨fun _ => hnodes, fun j hj hji => ?_⟩
    have hj' := Nat.lt_of_lt_of_le hj (c.seqTo_fastNext k)
    refine SeqOk.extend (k := k) (fun hki => ?_) hv.seqs j hj' hji
    rw [hki, hty] at hk
    rcases hk with hk | hk <;> cases hk
  | @seq k =>
    refine ⟨fun _ => hnodes, fun j hj hji => ?_⟩
    have hj' := Nat.lt_of_lt_of_le hj (c.seqTo_fastNext k)
    refine SeqOk.extend (k := k) (fun hki => ?_) hv.seqs j hj' hji
    rw [hki]
    exact hd
  | lookState | lookGen | lookEvent => exact ⟨fun _ => hnodes, hv.seqs⟩
  | lookBad | alertBad | fail => exact hlock
  | unwrapStateBad | unwrapGenBad | alerted | win | failZero => trivial
  | _ => exact ⟨fun _ => hnodes, hv.seqs⟩

/-- So are those of the locked pass. -/
theorem PassGo.seqs {p : PassPc} (hg : PassGo o sh pid c p ins pc')
    (hty : (sh.region.slots i).objType = .event) (hd : S (sh.region.slots i).d)
    (hv : SeqOk i S c (.pass p)) : pc'.SeqOk i S := by
  cases hg with
  | @validateFirst k j hj hev hnodes =>
    refine ⟨fun hf => ?_, fun m hm hmi => ?_⟩
    · rw [WaitCtx.isFast_validateNext] at hf
      cases hf
    -- on the first pass the snapshot of the position is taken anew
    · have hm' := Nat.lt_of_lt_of_le hm (c.seqTo_validateNext k)
      rw [if_pos hnodes] at hm'
      have hpre := hv.seqs
      simp only [WaitCtx.seqTo, if_pos hnodes] at hpre
      obtain ⟨rfl, _, _⟩ := Region.slot_eq_some.mp hj
      refine SeqOk.extend (fun hki => ?_) hpre m hm' hmi
      rw [show handleIndex (c.handle k) = i from hki]
      exact hd
  | @validate k j hj hother =>
    refine ⟨fun hf => ?_, fun m hm hmi => ?_⟩
    · rw [WaitCtx.isFast_validateNext] at hf
      cases hf
    · have hm' := Nat.lt_of_lt_of_le hm (c.seqTo_validateNext k)
      have hpre := hv.seqs
      simp only [WaitCtx.seqTo] at hpre
      -- only an event has a snapshot, and on later passes the old one stays
      by_cases hnodes : c.nodes = []
      · rw [if_pos hnodes] at hm'
        simp only [if_pos hnodes] at hpre
        obtain ⟨rfl, _, _⟩ := Region.slot_eq_some.mp hj
        by_cases hmk : m = k
        · subst hmk
          rw [show handleIndex (c.handle m) = i from hmi, hty] at hother
          rcases hother with h | h | ⟨_, h⟩
          · cases h
          · cases h
          · exact absurd hnodes h
        · exact hpre m (by omega) hmi
      · rw [if_neg hnodes] at hm'
        simp only [if_neg hnodes] at hpre
        exact hpre m hm' hmi
  | lock =>
    refine ⟨fun h => (by cases h), fun m hm hmi => hv.seqs m ?_ hmi⟩
    exact hm
  | alertPanic => trivial
  | alertClear =>
    refine ⟨fun hf => ?_, fun m hm hmi => hv.seqs m ?_ hmi⟩
    · unfold WaitCtx.afterAlert at hf
      split at hf <;> cases hf
    · unfold WaitCtx.afterAlert at hm
      split at hm <;> exact hm
  | alloc =>
    refine ⟨fun h => (by cases h), fun m hm hmi => hv.seqs m ?_ hmi⟩
    unfold WaitCtx.allocNext at hm
    split at hm <;> exact hm
  | registerSkip | register =>
    refine ⟨fun h => (by cases h), fun m hm hmi => hv.seqs m ?_ hmi⟩
    unfold WaitCtx.registerNext at hm
    split at hm <;> exact hm
  -- the wait leaves, and its snapshots with it
  | validateBad | validateAlertBad | alertSet | allocFail | win | expired =>
    exact ⟨fun h => (by cases h), fun m hm => absurd hm (Nat.not_lt_zero _)⟩
  | _ => exact ⟨fun h => (by cases h), hv.seqs⟩

/-- The phases that start the next locked pass over keep the snapshots the nodes were registered
    with. -/
theorem SeqOk.to_lock {p : WaitPc} (hto : c.seqTo p = c.handles.length) (hv : SeqOk i S c p) :
    SeqOk i S c (.pass .lock) := by
  refine ⟨fun h => (by cases h), fun k hk => hv.seqs k ?_⟩
  simp only [WaitCtx.seqTo] at hk
  split at hk
  · omega
  · omega

/-- So are those of a wait. -/
theorem WaitGo.seqs {p : WaitPc} (hg : WaitGo o sh pid c p ins pc')
    (hty : (sh.region.slots i).objType = .event) (hd : S (sh.region.slots i).d)
    (hv : SeqOk i S c p) : pc'.SeqOk i S := by
  cases hg with
  | fast hg => exact hg.seqs hty hd hv
  | pass hg => exact hg.seqs hty hd hv
  | noSpin | spinStart => exact ⟨fun h => (by cases h), hv.seqs⟩
  | spin hg =>
    cases hg with
    | alertStateBad | alertGenBad => trivial
    | alerted | win => exact ⟨fun h => (by cases h), fun m hm => absurd hm (Nat.not_lt_zero _)⟩
    | _ => exact ⟨fun h => (by cases h), hv.seqs⟩
  | @sweep seq timedOut p ins pc' hg =>
    cases hg with
    | skip | unlock => cases timedOut <;> exact ⟨fun h => (by cases h), hv.seqs⟩
    | _ => exact ⟨fun h => (by cases h), hv.seqs⟩
  | sleep hg =>
    cases hg with
    | again | woken =>
      unfold afterFutex
      split <;> exact ⟨fun h => (by cases h), hv.seqs⟩
    | tailDone => exact hv.to_lock rfl
    | _ => exact ⟨fun h => (by cases h), hv.seqs⟩
  | detach hg =>
    cases hg with
    | none | unlock => exact hv.to_lock rfl
    | _ => exact ⟨fun h => (by cases h), hv.seqs⟩
  | clean hg =>
    cases hg with
    | unlock => trivial
    | _ => exact ⟨fun h => (by cases h), fun m hm => absurd hm (Nat.not_lt_zero _)⟩

/-- **Snapshots.** A call takes its snapshots from the pulse counter and keeps them. -/
theorem PcGo.seqs (hg : PcGo sh pid o pc ins pc')
    (hty : (sh.region.slots i).objType = .event) (hd : S (sh.region.slots i).d)
    (hv : pc.SeqOk i S) : pc'.SeqOk i S := by
  cases hg with
  | op hg => cases hg <;> trivial
  | pulse hg => cases hg <;> trivial
  | wait hg => exact hg.seqs hty hd hv
  | create hg => cases hg <;> trivial
  | close hg => cases hg <;> trivial
  | hold hg => cases hg <;> trivial
  | sweepDead hg => cases hg <;> trivial

/-- A call starts without snapshots. -/
theorem Pc.start_seqs (call : Call) : (Pc.start call).SeqOk i S := by
  cases call with
  | wait a timeout =>
    simp only [Pc.start]
    split
    · exact ⟨fun _ => rfl, fun k hk => absurd hk (Nat.not_lt_zero _)⟩
    · trivial
  | op | create | close | hold =>
    simp only [Pc.start]
    split <;> trivial
  | pulse | sweepDead => trivial

/-- In `try_satisfy` every position has its snapshot. -/
theorem WaitCtx.seqTo_sat {q : WaitPc} {p : Sat} (h : q.sat? = some p) :
    c.seqTo q = c.handles.length := by
  unfold WaitPc.sat? at h
  split at h <;> first | rfl | cases h

end Seqs

/-! ### What a step makes of an event -/

section EventStep

variable {r : Region} {a : WaitArgs} {seqs : Nat → U64} {p : Sat} {w : Option SatWrite}
  {out : Out Sat (Option (Nat × Bool))} {i : Nat} {b m : Bool}

/-- An acquire of an event takes the signal of an auto-reset event, or leaves the word alone. -/
theorem AcqTakes.event {s : Slot} {owner : U32} {seq : U64} {od : Bool} {v : Option U64}
    (h : AcqTakes s owner seq od v) (hty : s.objType = .event) (hw : s.w0 = packEvent b m) :
    (b = true ∨ s.d ≠ seq) ∧ ∃ b', v.getD s.w0 = packEvent b' m := by
  simp only [AcqTakes, hty] at h
  obtain ⟨_, ⟨rfl, hsig | hd⟩ | ⟨rfl, hsig⟩⟩ := h
  · refine ⟨.inl ?_, b, hw⟩
    by_contra hb
    exact hsig.1 (by rw [hw]; exact lo32_packEvent_eq_zero.mpr (by simpa using hb))
  · exact ⟨.inr hd, b, hw⟩
  · refine ⟨.inl ?_, false, ?_⟩
    · by_contra hb
      exact hsig (by rw [hw]; exact lo32_packEvent_eq_zero.mpr (by simpa using hb))
    · rw [Option.getD_some, hw, packEvent_and]

/-- A rollback of an event gives the signal back, or leaves the word alone. -/
theorem UndoGives.event {s : Slot} {owner : U32} {od : Bool} {v : Option U64}
    (h : UndoGives s owner od v) (hty : s.objType = .event) (hw : s.w0 = packEvent b m) :
    ∃ b', v.getD s.w0 = packEvent b' m := by
  simp only [UndoGives, hty] at h
  rcases h with rfl | ⟨rfl, _⟩
  · exact ⟨b, hw⟩
  · exact ⟨true, by rw [Option.getD_some, hw, packEvent_or]⟩

/-- **Step lemma.** A step of `try_satisfy` keeps the word of an event well formed. -/
theorem SatStep.event (hst : SatStep r a seqs p w out) (hf : p.Fits a i .event)
    (hty : (r.slots i).objType = .event) (hw : (r.slots i).w0 = packEvent b m) :
    ∃ b', (satInstr a w).wordAfter i (r.slots i).w0 = packEvent b' m := by
  have htake : ∀ {k : Nat} {q : Acq} {v : Option U64} {od : Bool},
      (a.slotOf k = i → q.fits .event) →
      q.step (r.slots (a.slotOf k)) a.owner (seqs k) = (v, .done (some od)) →
      ∃ b', (satInstr a (v.map (.acquire k od))).wordAfter i (r.slots i).w0 = packEvent b' m := by
    intro k q v od hq hs
    rw [wordAfter_acquire]
    split
    · rename_i hk
      have hq' : q.fits (r.slots (a.slotOf k)).objType := by
        rw [hk, hty]
        exact hq hk
      have htakes := Acq.step_take hq' hs
      rw [hk] at htakes
      exact (htakes.event hty hw).2
    · exact ⟨b, hw⟩
  have hgive : ∀ {k : Nat} {u : Undo} {v : Option U64} {od : Bool},
      (a.slotOf k = i → u.fits .event) →
      u.step (r.slots (a.slotOf k)) a.owner od = (v, .done ()) →
      ∃ b', (satInstr a (v.map (.rollback k))).wordAfter i (r.slots i).w0 = packEvent b' m := by
    intro k u v od hu hs
    rw [wordAfter_rollback]
    split
    · rename_i hk
      have hu' : u.fits (r.slots (a.slotOf k)).objType := by
        rw [hk, hty]
        exact hu hk
      have hgives := Undo.step_done hu' hs
      rw [hk] at hgives
      exact hgives.event hty hw
    · exact ⟨b, hw⟩
  cases hst with
  | anyWin hs | allTake hs | allWin hs => exact htake hf hs
  | undoLast hs | undoNext hs => exact hgive hf hs
  | _ => exact ⟨b, hw⟩

/-- **Step lemma.** While an event is unsignaled and not pulsed, `try_satisfy` neither acquires it
    nor, holding nothing of it, changes its word. -/
theorem SatStep.unsignaled (hst : SatStep r a seqs p w out) (hf : p.Fits a i .event)
    (hshape : p.Shape a) (hty : (r.slots i).objType = .event)
    (hw : (r.slots i).w0 = packEvent false m)
    (hseq : ∀ k < a.handles.length, a.slotOf k = i → seqs k = (r.slots i).d)
    (hheld : p.heldAt a i = 0) :
    (satInstr a w).wordAfter i (r.slots i).w0 = (r.slots i).w0 ∧ out.heldAt a i = 0 := by
  -- what an attempt takes is another object
  have htake : ∀ {k : Nat} {q : Acq} {v : Option U64} {od : Bool}, k < a.handles.length →
      (a.slotOf k = i → q.fits .event) →
      q.step (r.slots (a.slotOf k)) a.owner (seqs k) = (v, .done (some od)) → a.slotOf k ≠ i := by
    intro k q v od hk hq hs hki
    have hq' : q.fits (r.slots (a.slotOf k)).objType := by
      rw [hki, hty]
      exact hq hki
    have htakes := Acq.step_take hq' hs
    rw [hki] at htakes
    rcases (htakes.event hty hw).1 with hb | hd
    · cases hb
    · exact hd (hseq k hk hki).symm
  have hword : ∀ {k : Nat} {v : Option U64} {od : Bool}, a.slotOf k ≠ i →
      (satInstr a (v.map (.acquire k od))).wordAfter i (r.slots i).w0 = (r.slots i).w0 := by
    intro k v od hk
    rw [wordAfter_acquire, if_neg hk]
  cases hst with
  | anyMore | anyNext | anyFail | allMore | allFail | undoNil | undoMore =>
    exact ⟨rfl, hheld⟩
  | allUndo => exact ⟨rfl, hheld⟩
  | anyWin hs => exact ⟨hword (htake hshape.1 hf hs), rfl⟩
  | allTake hs =>
    have hne := htake hshape.1 hf hs
    refine ⟨hword hne, ?_⟩
    simp only [Out.heldAt, Sat.heldAt, Sat.held, List.countP_append, List.countP_singleton,
      decide_eq_true_eq, if_neg hne]
    exact hheld
  | allWin hs => exact ⟨hword (htake hshape.1 hf hs), rfl⟩
  -- what is given back was held, so it is another object
  | @undoLast k od u v hs =>
    have hne : a.slotOf k ≠ i := by
      intro hk
      simp [Sat.heldAt, Sat.held, hk] at hheld
    exact ⟨by rw [wordAfter_rollback, if_neg hne], rfl⟩
  | @undoNext k od rest u v hs _ =>
    simp only [Sat.heldAt, Sat.held, List.countP_cons, decide_eq_true_eq] at hheld
    have hne : a.slotOf k ≠ i := by
      intro hk
      rw [if_pos hk] at hheld
      omega
    rw [if_neg hne] at hheld
    exact ⟨by rw [wordAfter_rollback, if_neg hne], hheld⟩

/-- The operations on an event that store to its word. -/
theorem Op.pass_event {op : Op} {w new : U64} {r : OpRet} {wake : Bool}
    (hty : op.objType = .event) (h : op.pass w = .cas new (r, wake)) :
    (op = .eventSet ∧ lo32 w = 0 ∧ new = w ||| 1 ∧ r = .ok (.num 0) ∧ wake = true) ∨
      (op = .eventReset ∧ lo32 w ≠ 0 ∧ new = w &&& ~~~1 ∧ r = .ok (.num (lo32 w)) ∧
        wake = false) := by
  cases op with
  | eventSet =>
    simp only [Op.pass, Ntsync.eventSet] at h
    split at h
    · cases h
    · rename_i h0
      cases h
      exact .inl ⟨rfl, by simpa using h0, rfl, rfl, rfl⟩
  | eventReset =>
    simp only [Op.pass, Ntsync.eventReset] at h
    split at h
    · cases h
    · cases h
      exact .inr ⟨rfl, by assumption, rfl, rfl, rfl⟩
  | readEvent => cases h
  | _ => cases hty

/-- A reset that swaps nothing has found the event unsignaled. -/
theorem eventReset_ret {w : U64} {x : OpRet × Bool} (h : Op.pass .eventReset w = .ret x) :
    lo32 w = 0 := by
  simp only [Op.pass, Ntsync.eventReset] at h
  split at h
  · assumption
  · cases h

variable {o : Oracle} {sh : Shared T} {pid : U32} {ins : Instr} {pc pc' : Pc} {g : U32}

/-- **Step lemma.** Every step but a pulse's keeps the word of an event well formed. -/
theorem PcGo.eventWord (hg : PcGo sh pid o pc ins pc') (hs : Holds sh.region i g .event)
    (hv : pc.Valid i g .event) (hw : (sh.region.slots i).w0 = packEvent b m)
    (hp : ∀ hd p, pc = .pulse hd p → handleIndex hd ≠ i) :
    ∃ b', ins.wordAfter i (sh.region.slots i).w0 = packEvent b' m := by
  cases hsat : pc.sat? with
  | some x =>
    obtain ⟨c, p⟩ := x
    obtain ⟨q, rfl, hq⟩ := Pc.sat_wait hsat
    obtain ⟨w, out, hst, rfl, _⟩ := hg.sat hsat
    exact hst.event (hv.fits p hq) hs.typ hw
  | none =>
    by_cases hword : ∃ hd tag new, ins = .word hd i tag new
    · obtain ⟨hd, tag, new, rfl⟩ := hword
      rw [Instr.wordAfter, if_pos rfl]
      rcases hg.word with ⟨op, cas, r, wake, rfl, hi, rfl, hb, _⟩ | ⟨prev, w, rfl, hi, _⟩ |
        ⟨c, q, p, rfl, hq⟩
      · rcases Op.pass_event ((hv hi.symm).2 rfl) hb with ⟨_, _, rfl, _⟩ | ⟨_, _, rfl, _⟩
        · exact ⟨true, by rw [hw, packEvent_or]⟩
        · exact ⟨false, by rw [hw, packEvent_and]⟩
      · exact absurd hi.symm (hp hd _ rfl)
      · simp [Pc.sat?, hq] at hsat
    · rw [Instr.wordAfter_of_ne (fun hd tag new e => hword ⟨hd, tag, new, e⟩)]
      exact ⟨b, hw⟩

/-- The swap of an `event_set` on slot `i`. -/
def Instr.sets (i : Nat) : Instr → Bool
  | .word _ j (.op .eventSet) _ => decide (j = i)
  | _ => false

def Label.sets (i : Nat) : Label T → Bool
  | .instr _ _ ins => ins.sets i
  | _ => false

/-- **Step lemma.** An unsignaled event that no wait-all holds stays so until it is set. -/
theorem PcGo.unsignaled (hg : PcGo sh pid o pc ins pc') (hs : Holds sh.region i g .event)
    (hv : pc.Valid i g .event) (hshape : pc.Shape)
    (hseq : pc.SeqOk i (· = (sh.region.slots i).d))
    (hw : (sh.region.slots i).w0 = packEvent false m)
    (hp : ∀ hd p, pc = .pulse hd p → handleIndex hd ≠ i) (hheld : pc.heldAt i = 0)
    (hset : ins.sets i = false) :
    ins.wordAfter i (sh.region.slots i).w0 = packEvent false m ∧ pc'.heldAt i = 0 := by
  cases hsat : pc.sat? with
  | some x =>
    obtain ⟨c, p⟩ := x
    obtain ⟨q, rfl, hq⟩ := Pc.sat_wait hsat
    obtain ⟨w, out, hst, rfl, _, hf⟩ := hg.sat hsat
    have hseqs : ∀ k < c.handles.length, c.slotOf k = i → c.seqs k = (sh.region.slots i).d :=
      fun k hk => hseq.seqs k (by rw [WaitCtx.seqTo_sat hq]; exact hk)
    rw [Pc.heldAt_of_some hsat] at hheld
    obtain ⟨hword, hout⟩ := hst.unsignaled (hv.fits p hq) (hshape.2 p hq) hs.typ hw hseqs hheld
    refine ⟨hword.trans hw, ?_⟩
    match out with
    | .more p' => exact (Pc.heldAt_of_some hf).trans hout
    | .done (some (k, od)) => exact Pc.heldAt_of_none hf.1
    | .done none => exact Pc.heldAt_of_none hf.1
  | none =>
    refine ⟨?_, ?_⟩
    · by_cases hword : ∃ hd tag new, ins = .word hd i tag new
      · obtain ⟨hd, tag, new, rfl⟩ := hword
        rcases hg.word with ⟨op, cas, r, wake, rfl, hi, rfl, hb, _⟩ | ⟨prev, w, rfl, hi, _⟩ |
          ⟨c, q, p, rfl, hq⟩
        · rcases Op.pass_event ((hv hi.symm).2 rfl) hb with ⟨rfl, _⟩ | ⟨_, hne, _⟩
          · simp [Instr.sets] at hset
          · rw [hw] at hne
            exact absurd (lo32_packEvent_eq_zero.mpr rfl) hne
        · exact absurd hi.symm (hp hd _ rfl)
        · simp [Pc.sat?, hq] at hsat
      · rw [Instr.wordAfter_of_ne (fun hd tag new e => hword ⟨hd, tag, new, e⟩)]
        exact hw
    · rcases (hg.noSat hsat).2 with h | ⟨c, h⟩
      · exact Pc.heldAt_of_none h
      · rw [Pc.heldAt_of_some h]
        exact Sat.heldAt_start _ _ _

/-- Only a pulse stores to the pulse counter. -/
theorem PcGo.storeD {v : U64} (hg : PcGo sh pid o pc (.storeD i v) pc') :
    ∃ hd prev d, pc = .pulse hd (.storeD prev d) ∧ i = handleIndex hd ∧ v = d + 1 ∧
      pc' = .pulse hd (.loadW prev) := by
  generalize hins : Instr.storeD i v = ins at hg
  cases hg with
  | op hg =>
    cases hg with
    | walk hw | walked hw => subst hins; cases Walk.step_walks hw
    | _ => cases hins
  | pulse hg =>
    cases hg with
    | storeD => cases hins; exact ⟨_, _, _, rfl, rfl, rfl, rfl⟩
    | walk hw | walked hw => subst hins; cases Walk.step_walks hw
    | _ => cases hins
  | @wait c q _ _ hg =>
    cases hq : q.sat? with
    | some p =>
      obtain ⟨v, out, _, hi, _⟩ := hg.sat hq
      rw [← hins] at hi
      rcases v with _ | (_ | _) <;> cases hi
    | none => rcases hg.plain_instr hq with hw | ⟨_, hw⟩ <;> subst hins <;> cases hw
  | create hg =>
    cases hg with
    | run hs | retry hs | giveUp hs => subst hins; cases SweepPc.step_sweeps hs
    | _ => cases hins
  | close hg =>
    cases hg with
    | walk hw | walked hw => subst hins; cases Walk.step_walks hw
    | _ => cases hins
  | hold hg => cases hg <;> cases hins
  | sweepDead hg =>
    cases hg with
    | run hs | swept hs => subst hins; cases SweepPc.step_sweeps hs
    | _ => cases hins

/-- A pulse under way was under way. -/
theorem PcGo.of_pulse {hd : U32} {p : PulsePc} (hg : PcGo sh pid o pc ins (.pulse hd p)) :
    ∃ p₀, pc = .pulse hd p₀ ∧ PulseGo sh hd p₀ ins (.pulse hd p) := by
  generalize hpc : Pc.pulse hd p = pc' at hg
  cases hg with
  | pulse hg =>
    cases hg <;> cases hpc <;> exact ⟨_, rfl, by constructor <;> assumption⟩
  | op hg => cases hg <;> cases hpc
  | wait hg =>
    subst hpc
    rcases hg.args with ha | ha <;> cases ha
  | create hg => cases hg <;> cases hpc
  | close hg => cases hg <;> cases hpc
  | hold hg => cases hg <;> cases hpc
  | sweepDead hg => cases hg <;> cases hpc

/-- Only a call of `event_pulse` starts a pulse. -/
theorem Pc.start_pulse {c : Call} {hd : U32} {p : PulsePc} (h : Pc.start c = .pulse hd p) :
    c = .pulse hd := by
  cases c with
  | pulse h' =>
    cases h
    rfl
  | sweepDead => cases h
  | _ =>
    simp only [Pc.start] at h
    split at h <;> cases h

end EventStep

/-! ### A reset event stays reset -/

section Reset

variable [DecidableEq T] {i : Nat} {g : U32} {m : Bool} {s s' : Sys T} {act : Action T} {l : Label T}

/-- The step decides an `event_reset` of slot `i` by thread `t`: it swapped the word, or found the
    event unsignaled. -/
def ResetDecides (i : Nat) (t : T) (s s' : Sys T) : Prop :=
  ∃ hd c r, handleIndex hd = i ∧ (s.threads t).pc = .op hd .eventReset (.loop c) ∧
    (s'.threads t).pc = .done (.op hd .eventReset) r

/-- If the step decides a reset of slot `i`, no live wait-all holds its signal. -/
def ResetClear (i : Nat) (s s' : Sys T) : Prop :=
  ∀ t, ResetDecides i t s s' → ∀ u, s.dead (s.threads u).pid = false →
    (s.threads u).pc.heldAt i = 0

/-- The step does not enter a pulse of slot `i`. -/
def NoPulse (i : Nat) (l : Label T) : Prop :=
  ∀ t hd, l = .call t (.pulse hd) → handleIndex hd ≠ i

/-- An event that stays open and is never pulsed. -/
structure UnpulsedInv (i : Nat) (g : U32) (m : Bool) (s : Sys T) : Prop where
  isOpen : OpenInv i g .event s
  shape : ShapeInv s
  word : ∃ b, (s.region.slots i).w0 = packEvent b m
  noPulse : ∀ t hd p, (s.threads t).pc = .pulse hd p → handleIndex hd ≠ i
  seqs : ∀ t, (s.threads t).pc.SeqOk i (· = (s.region.slots i).d)

omit [DecidableEq T] in
/-- At rest the event is as it was found. -/
theorem UnpulsedInv.of_idle {b : Bool} (hidle : s.Idle) (hu : (s.region.slots i).state = .used)
    (hty : (s.region.slots i).objType = .event) (hw : (s.region.slots i).w0 = packEvent b m) :
    UnpulsedInv i (s.region.slots i).generation m s := by
  have hopen := OpenInv.of_idle hidle hu
  rw [hty] at hopen
  refine ⟨hopen, .of_idle hidle, ⟨b, hw⟩, fun t hd p hpc => ?_, fun t => ?_⟩
  · have hout := hidle t
    rw [hpc] at hout
    cases hout
  · rcases Pc.outside_cases (hidle t) with hpc | ⟨c, r, hpc⟩ <;> rw [hpc] <;> trivial

/-- **Every step without a pulse keeps the event unpulsed.** -/
theorem UnpulsedInv.step (hi : UnpulsedInv i g m s) (hs : s.step act = some (s', l))
    (hu : Stays i s') (hnp : NoPulse i l) : UnpulsedInv i g m s' := by
  have hopen := hi.isOpen.step hs hu
  have hshape := hi.shape.step hs
  obtain ⟨b, hw⟩ := hi.word
  cases Sys.step_inv hs with
  | @call t c ha hout =>
    refine ⟨hopen, hshape, ⟨b, hw⟩, fun u hd p hpc => ?_, fun u => ?_⟩
    · rw [Sys.entered_pc] at hpc
      split at hpc
      · exact hnp t hd (by rw [Pc.start_pulse hpc])
      · exact hi.noPulse u hd p hpc
    · rw [Sys.entered_pc]
      split
      · exact Pc.start_seqs c
      · exact hi.seqs u
  | @tick t o ins pc' ha ht =>
    have hg := tick_inv ht
    obtain ⟨hw', hd'⟩ := hi.isOpen.after_word ha hg hu
    have hcount : ((s.after t ins pc').region.slots i).d = (s.region.slots i).d := by
      rw [hd']
      cases ins with
      | storeD j v =>
        obtain ⟨hd, prev, d, hpc, rfl, _⟩ := hg.storeD
        exact if_neg (Ne.symm (hi.noPulse t hd _ hpc))
      | _ => rfl
    refine ⟨hopen, hshape, ?_, fun u hd p hpc => ?_, fun u => ?_⟩
    · rw [hw']
      exact hg.eventWord hi.isOpen.holds (hi.isOpen.valid t) hw (hi.noPulse t)
    · rw [Sys.after_pc] at hpc
      split at hpc
      · subst hpc
        obtain ⟨p₀, hpc₀, _⟩ := hg.of_pulse
        exact hi.noPulse t hd p₀ hpc₀
      · exact hi.noPulse u hd p hpc
    · rw [hcount, Sys.after_pc]
      split
      · exact hg.seqs hi.isOpen.holds.typ rfl (hi.seqs t)
      · exact hi.seqs u
  | die => exact ⟨hopen, hshape, ⟨b, hw⟩, hi.noPulse, hi.seqs⟩

/-- A reset event that no live wait-all holds. -/
structure ResetInv (i : Nat) (g : U32) (m : Bool) (s : Sys T) : Prop extends
    UnpulsedInv i g m s where
  unsignaled : (s.region.slots i).w0 = packEvent false m
  clear : ∀ t, s.dead (s.threads t).pid = false → (s.threads t).pc.heldAt i = 0

/-- **Every step without a set or a pulse keeps the event reset.** -/
theorem ResetInv.step (hi : ResetInv i g m s) (hs : s.step act = some (s', l)) (hu : Stays i s')
    (hnp : NoPulse i l) (hset : l.sets i = false) : ResetInv i g m s' := by
  have hinv := hi.toUnpulsedInv.step hs hu hnp
  cases Sys.step_inv hs with
  | @call t c ha hout =>
    refine ⟨hinv, hi.unsignaled, fun u hua => ?_⟩
    rw [Sys.entered_dead, Sys.entered_pid] at hua
    rw [Sys.entered_pc]
    split
    · exact Pc.heldAt_of_none (Pc.start_sat c)
    · exact hi.clear u hua
  | @tick t o ins pc' ha ht =>
    have hg := tick_inv ht
    obtain ⟨hw', _⟩ := hi.isOpen.after_word ha hg hu
    obtain ⟨hword, hheld⟩ := hg.unsignaled hi.isOpen.holds (hi.isOpen.valid t) (hi.shape t)
      (hi.seqs t) hi.unsignaled (hi.noPulse t) (hi.clear t ha) hset
    refine ⟨hinv, hw'.trans hword, fun u hua => ?_⟩
    rw [Sys.after_dead, Sys.after_pid] at hua
    rw [Sys.after_pc]
    split
    · exact hheld
    · exact hi.clear u hua
  | @die pid =>
    refine ⟨hinv, hi.unsignaled, fun u hua => hi.clear u ?_⟩
    rw [Sys.died_dead, Sys.died_threads, Bool.or_eq_false_iff] at hua
    exact hua.2

/-- The deciding step of a reset leaves the event unsignaled. -/
theorem ResetInv.of_decides {t : T} (hi : UnpulsedInv i g m s) (hs : s.step act = some (s', l))
    (hu : Stays i s') (hnp : NoPulse i l) (hclear : ResetClear i s s') (hd : ResetDecides i t s s') :
    ResetInv i g m s' := by
  have hinv := hi.step hs hu hnp
  have hheld := hclear t hd
  obtain ⟨hdl, c, r, hidx, hpc, hpc'⟩ := hd
  obtain ⟨b, hw⟩ := hi.word
  cases Sys.step_inv hs with
  | @call u c' ha hout =>
    rw [Sys.entered_pc] at hpc'
    -- the deciding step is no call
    split at hpc'
    · rename_i htu
      subst htu
      rw [hpc] at hout
      cases hout
    · rw [hpc] at hpc'
      cases hpc'
  | @tick u o ins pc' ha ht =>
    rw [Sys.after_pc] at hpc'
    by_cases htu : t = u
    · subst htu
      rw [if_pos rfl] at hpc'
      subst hpc'
      have hg := tick_inv ht
      obtain ⟨hw', _⟩ := hi.isOpen.after_word ha hg hu
      refine ⟨hinv, ?_, fun u hua => ?_⟩
      -- a reset finds the event clear, or clears it
      · rw [hw']
        rw [hpc] at hg
        cases hg with
        | op hg =>
          cases hg with
          | bad hp => cases hp
          | ret hb =>
            have h0 := eventReset_ret hb
            rw [hidx, hw, lo32_packEvent_eq_zero] at h0
            rw [h0] at hw
            exact hw
          | swapQuiet hb =>
            rcases Op.pass_event rfl hb with ⟨he, _⟩ | ⟨_, _, rfl, _⟩
            · cases he
            · rw [Instr.wordAfter, if_pos hidx.symm, hidx, hw, packEvent_and]
      · rw [Sys.after_dead, Sys.after_pid] at hua
        rw [Sys.after_pc]
        -- nobody else holds the event tentatively, so nobody gives it back
        split
        · rfl
        · exact hheld u hua
    · rw [if_neg htu, hpc] at hpc'
      cases hpc'
  | die =>
    rw [Sys.died_threads, hpc] at hpc'
    cases hpc'

/-- **A reset event stays reset.** In every run that starts with no call under way, in which the
    event stays open and is not pulsed, and no reset of it is decided while a live wait-all holds
    its signal: from the deciding step of a reset on the event is unsignaled, in every state before
    the next swap of an `event_set`. -/
theorem reset_stays_reset {b : Bool} {s₀ s₁ s₂ s₃ : Sys T} {h₁ h₂ : List (Label T)} {t : T}
    (hidle : s₀.Idle) (hu : (s₀.region.slots i).state = .used)
    (hty : (s₀.region.slots i).objType = .event) (hw : (s₀.region.slots i).w0 = packEvent b m)
    (hr₁ : Run Sys.step (fun s l s' => Stays i s' ∧ NoPulse i l ∧ ResetClear i s s') s₀ h₁ s₁)
    (hs : s₁.step act = some (s₂, l)) (hok : Stays i s₂ ∧ NoPulse i l ∧ ResetClear i s₁ s₂)
    (hd : ResetDecides i t s₁ s₂)
    (hr₂ : Run Sys.step (fun s l s' => Stays i s' ∧ NoPulse i l ∧ ResetClear i s s') s₂ h₂ s₃)
    (hset : ∀ l ∈ h₂, l.sets i = false) :
    lo32 (s₃.region.slots i).w0 = 0 := by
  have hinv : UnpulsedInv i (s₀.region.slots i).generation m s₁ :=
    hr₁.state_invariant (.of_idle hidle hu hty hw) (fun s a s' l hi hs hok => hi.step hs hok.1 hok.2.1)
  have hreset := ResetInv.of_decides hinv hs hok.1 hok.2.1 hok.2.2 hd
  have hkeep : (∀ l ∈ h₂, l.sets i = false) →
      ResetInv i (s₀.region.slots i).generation m s₃ :=
    hr₂.invariant (I := fun (h : List (Label T)) s => (∀ l ∈ h, l.sets i = false) →
        ResetInv i (s₀.region.slots i).generation m s)
      (fun _ => hreset) (fun h s a s' l hi hs hok hall => ResetInv.step
        (hi fun x hx => hall x (List.mem_cons_of_mem _ hx)) hs hok.1 hok.2.1
        (hall l (List.mem_cons_self ..)))
  rw [(hkeep hset).unsignaled]
  exact lo32_packEvent_eq_zero.mpr rfl

/-- Both branches of `ResetDecides` as a test of the two program counters. -/
def Pc.decidesReset (i : Nat) : Pc → Pc → Bool
  | .op hd .eventReset (.loop _), .done (.op hd' .eventReset) _ =>
    decide (handleIndex hd = i) && decide (hd = hd')
  | _, _ => false

omit [DecidableEq T] in
/-- The deciding step of a reset, on the program counters. -/
theorem resetDecides_iff {t : T} :
    ResetDecides i t s s' ↔ Pc.decidesReset i (s.threads t).pc (s'.threads t).pc = true := by
  constructor
  · rintro ⟨hd, c, r, rfl, hpc, hpc'⟩
    rw [hpc, hpc']
    simp [Pc.decidesReset]
  · intro h
    unfold Pc.decidesReset at h
    split at h
    · rename_i hd c hd' r hpc hpc'
      simp only [Bool.and_eq_true, decide_eq_true_eq] at h
      obtain ⟨hi, rfl⟩ := h
      exact ⟨hd, c, r, hi, hpc, hpc'⟩
    · cases h

instance (i : Nat) (t : T) (s s' : Sys T) : Decidable (ResetDecides i t s s') :=
  decidable_of_iff _ resetDecides_iff.symm

instance [Fintype T] (i : Nat) (s s' : Sys T) : Decidable (ResetClear i s s') :=
  inferInstanceAs (Decidable (∀ _, _ → _))

instance (i : Nat) : (l : Label T) → Decidable (NoPulse i l)
  | .call _ (.pulse hd) =>
    decidable_of_iff (handleIndex hd ≠ i) ⟨fun h _ _ e => by cases e; exact h, fun h => h _ hd rfl⟩
  | .call _ (.op _ _) | .call _ (.wait _ _) | .call _ (.create _) | .call _ (.close _)
  | .call _ (.hold _ _) | .call _ .sweepDead | .instr _ _ _ | .die _ =>
    isTrue fun _ _ e => nomatch e

end Reset

/-- A signaled auto-reset event in slot 1 and an unsignaled one in slot 2. -/
def eventDemo : Sys (Fin 2) :=
  .rest ((Region.init.created 1 (.event false true) 7).created 2 (.event false false) 7) fun _ => 7

/-- Thread 1 resets event 1, up to the deciding step. -/
def plainReset : List (Action (Fin 2)) :=
  .call 1 (.op 1 .eventReset) :: List.replicate 4 (.tick 1 {})

/-- Thread 0 polls for both events. -/
def pollBoth : List (Action (Fin 2)) :=
  .call 0 (.wait { handles := [1, 2], owner := 5, all := true, alert := 0 } .zero) ::
    List.replicate 11 (.tick 0 {})

def resetting : Sys (Fin 2) × List (Label (Fin 2)) :=
  reach Sys.step (fun s l s' => Stays 1 s' ∧ NoPulse 1 l ∧ ResetClear 1 s s') eventDemo plainReset

/-- A wait-all that finds the event reset leaves it so. -/
theorem reset_stays_reset_plainReset :
    ∃ s₂ l h₂ s₃, resetting.1.step (.tick 1 {}) = some (s₂, l) ∧
      Run Sys.step (fun s l s' => Stays 1 s' ∧ NoPulse 1 l ∧ ResetClear 1 s s') s₂ h₂ s₃ ∧
      h₂.length = 12 ∧ lo32 (s₃.region.slots 1).w0 = 0 := by
  obtain ⟨s₂, l, h₂, s₃, hs, ⟨hok, hd⟩, hr₂, hlen, hset⟩ := exists_step_run_of_exec
    Sys.step (fun s l s' => Stays 1 s' ∧ NoPulse 1 l ∧ ResetClear 1 s s')
    (s := resetting.1) (a := .tick 1 {}) pollBoth
    (Q := fun s' l => (Stays 1 s' ∧ NoPulse 1 l ∧ ResetClear 1 resetting.1 s') ∧
      ResetDecides 1 1 resetting.1 s')
    (P := fun h _ => h.length = 12 ∧ ∀ l ∈ h, l.sets 1 = false) (by decide +kernel)
  exact ⟨s₂, l, h₂, s₃, hs, hr₂, hlen, reset_stays_reset (b := true) (m := false) (fun _ => rfl)
    (by decide) (by decide) (by decide) (run_reach (by decide +kernel)) hs hok hd hr₂ hset⟩

/-- The calls the race is made of. -/
def resetCalls : Fin 2 → Call → Bool
  | _, .wait a _ => a.all
  | _, .op _ .eventSet | _, .op _ .eventReset => true
  | _, _ => false

/-- Thread 0 polls for both events and takes the signal of event 1; thread 1 resets that event, up
    to the load that finds it unsignaled. -/
def resetRace : List (Action (Fin 2)) :=
  .call 0 (.wait { handles := [1, 2], owner := 5, all := true, alert := 0 } .zero) ::
    List.replicate 12 (.tick 0 {}) ++
  .call 1 (.op 1 .eventReset) :: List.replicate 3 (.tick 1 {})

def raced : Sys (Fin 2) × List (Label (Fin 2)) :=
  reach Sys.step (fun _ l s' => Stays 1 s' ∧ Only (fun t c => resetCalls t c = true) l) eventDemo
    resetRace

/-- The wait-all finds event 2 unsignaled and gives the signal of event 1 back, behind the reset. -/
theorem event_resignaled :
    eventDemo.Idle ∧ (eventDemo.region.slots 1).state = .used ∧
      (eventDemo.region.slots 1).objType = .event ∧
      (eventDemo.region.slots 1).w0 = packEvent true false ∧
      ∃ h₁ s₁ s₂ l h₂ s₃,
        Run Sys.step (fun _ l s' => Stays 1 s' ∧ Only (fun t c => resetCalls t c = true) l)
          eventDemo h₁ s₁ ∧
        s₁.step (.tick 1 {}) = some (s₂, l) ∧ ResetDecides 1 1 s₁ s₂ ∧
        Run Sys.step (fun _ l s' => Stays 1 s' ∧ Only (fun t c => resetCalls t c = true) l)
          s₂ h₂ s₃ ∧
        (∀ l ∈ h₂, l.sets 1 = false) ∧ lo32 (s₃.region.slots 1).w0 = 1 := by
  refine ⟨fun _ => rfl, by decide, by decide, by decide, raced.2, raced.1, ?_⟩
  obtain ⟨s₂, l, h₂, s₃, hs, hd, hr₂, hset, hlo⟩ := exists_step_run_of_exec Sys.step
    (fun _ l s' => Stays 1 s' ∧ Only (fun t c => resetCalls t c = true) l)
    (s := raced.1) (a := .tick 1 {}) (List.replicate 6 (.tick 0 {}))
    (Q := fun s' _ => ResetDecides 1 1 raced.1 s')
    (P := fun h s => (∀ l ∈ h, l.sets 1 = false) ∧ lo32 (s.region.slots 1).w0 = 1)
    (by decide +kernel)
  exact ⟨s₂, l, h₂, s₃, run_reach (by decide +kernel), hs, hd, hr₂, hset, hlo⟩

end Ntsync
