import Mathlib
import Ntsync.Live

namespace Ntsync

open Words Lts

/-!
# What a wait trusts

A wait that has looked a handle up goes on to load and store the object's word without another look:
on the fast path, in the locked pass, and in the spin before the sleep.  With its alert it does the
same, and `unwrap`s the second look.

* `Pc.trusts` — the wait has looked slot `i` up and does not look again before it may answer;
* `WaitPc.convinced` — it has looked up all of its handles and its alert;
* `WaitGo.settles` — only a wait that is convinced settles on an answer other than `Invalid`;
* `TrustInv.resolves` — in runs that free no slot that a wait outside the region lock trusts, whatever
  a convinced wait was given resolves.
-/

variable {T : Type}

/-! ### Handles and alerts that were looked up -/

/-- The wait has looked slot `i` up for one of its handles, and may take a token from there. -/
def Pc.trustsHandle (i : Nat) : Pc → Bool
  | .wait c p => decide (∃ k < p.usesTo c.handles.length, c.slotOf k = i)
  | _ => false

/-- The wait has found its alert's slot in use, and may answer without looking it up from scratch.
    -/
def WaitPc.trustsAlert : WaitPc → Bool
  | .fast .word | .fast (.sat _) => true
  | p => p.usesAlert

/-- The generation check of the alert has passed, too. -/
def WaitPc.vettedAlert : WaitPc → Bool
  | .fast (.alert .gen) => false
  | p => p.trustsAlert

def Pc.trustsAlert (i : Nat) : Pc → Bool
  | .wait c p => decide (c.alert ≠ 0 ∧ handleIndex c.alert = i) && p.trustsAlert
  | _ => false

/-- The alert that the wait found in its slot has generation `g`. -/
def Pc.Vetted (_ : Nat) (g : U32) (_ : ObjType) : Pc → Prop
  | .wait c p => p.vettedAlert = true → handleGen c.alert = g
  | _ => True

/-- The wait may answer by what it once found in slot `i`. -/
def Pc.trusts (i : Nat) (pc : Pc) : Bool := pc.trustsHandle i || pc.trustsAlert i

/-- The wait has looked up all of its handles and its alert. -/
def WaitPc.convinced : WaitPc → Bool
  | .fast .unwrapState | .fast .unwrapGen | .fast .word | .fast (.sat _) => true
  | .pass .lock | .pass (.validate _) | .pass .validateAlert => false
  | .pass _ | .spinStart _ | .spin _ _ _ => true
  | _ => false

section Trusting

variable {o : Oracle} {sh : Shared T} {pid : U32} {ins : Instr} {pc' : Pc} {c c' : WaitCtx}
  {p p' : WaitPc} {i : Nat}

/-- A wait that is convinced trusts each of its handles and its alert. -/
theorem WaitPc.convinced_trusts (h : p.convinced = true) (n : Nat) :
    p.usesTo n = n ∧ p.validTo n = n ∧ p.trustsAlert = true ∧ p.vettedAlert = true := by
  cases p with
  | fast q => cases q <;> first | (cases h; done) | exact ⟨rfl, rfl, rfl, rfl⟩
  | pass q => cases q <;> first | (cases h; done) | exact ⟨rfl, rfl, rfl, rfl⟩
  | spinStart | spin => exact ⟨rfl, rfl, rfl, rfl⟩
  | _ => cases h

/-- An alert that is going to be looked up again is trusted until then. -/
theorem WaitPc.trusts_of_uses (h : p.usesAlert = true) : p.trustsAlert = true := by
  unfold WaitPc.trustsAlert
  split
  · rfl
  · rfl
  · exact h

/-- The two notions of a checked generation agree where both speak. -/
theorem WaitPc.knows_of_vetted (hu : p.usesAlert = true) (h : p.vettedAlert = true) :
    p.knowsAlert = true := by
  unfold WaitPc.vettedAlert at h
  unfold WaitPc.knowsAlert
  split
  · cases h
  · exact hu

/-- They agree the other way round. -/
theorem WaitPc.vetted_of_knows (hu : p.usesAlert = true) (h : p.knowsAlert = true) :
    p.vettedAlert = true := by
  unfold WaitPc.knowsAlert at h
  unfold WaitPc.vettedAlert
  split
  · cases h
  · exact WaitPc.trusts_of_uses hu

/-- The end of the fast path, past the lookups of the alert. -/
def WaitPc.past : WaitPc → Bool
  | .fast .word | .fast (.sat _) => true
  | _ => false

/-- An alert is trusted before its next lookup, or at the end of the fast path. -/
theorem WaitPc.trusts_cases (h : p.trustsAlert = true) : p.usesAlert = true ∨ p.past = true := by
  unfold WaitPc.trustsAlert at h
  split at h
  · exact .inr rfl
  · exact .inr rfl
  · exact .inl h

/-- With an alert, the fast path goes on to its lookups after the last handle. -/
theorem WaitCtx.fastNext_past (c : WaitCtx) (i : Nat) (ha : c.alert ≠ 0) :
    (c.fastNext i).past = false := by
  unfold WaitCtx.fastNext
  split
  · rfl
  · rfl

/-- A wait with an alert gets there by looking the alert up a second time. -/
theorem WaitGo.past (hg : WaitGo o sh pid c p ins (.wait c' p')) (ha : c.alert ≠ 0)
    (h : p'.past = true) : p.trustsAlert = true ∧ p.vettedAlert = true := by
  generalize hpc : Pc.wait c' p' = pc' at hg
  cases hg with
  | fast hg =>
    cases hg with
    | lookOther | seq =>
      cases hpc
      rw [c.fastNext_past _ ha] at h
      cases h
    -- from the second look-up on the wait trusts what it has seen of the alert
    | unwrapGen | start | sat => exact ⟨rfl, rfl⟩
    | unwrapStateBad | unwrapGenBad | alerted | win | failZero => cases hpc
    | _ =>
      cases hpc
      cases h
  | pass hg =>
    cases hg with
    | validateFirst | validate =>
      cases hpc
      unfold WaitCtx.validateNext at h
      split at h <;> cases h
    | alertClear =>
      cases hpc
      unfold WaitCtx.afterAlert at h
      split at h <;> cases h
    | alertPanic => cases hpc
    | _ =>
      cases hpc
      cases h
  | noSpin | spinStart =>
    cases hpc
    cases h
  | spin hg =>
    cases hg with
    | alertStateBad | alertGenBad => cases hpc
    | _ =>
      cases hpc
      cases h
  | @sweep seq timedOut q _ _ hg =>
    cases hg with
    | skip | unlock =>
      cases hpc
      cases timedOut <;> cases h
    | _ =>
      cases hpc
      cases h
  | sleep hg =>
    cases hg with
    | again | woken =>
      cases hpc
      unfold afterFutex at h
      split at h <;> cases h
    | _ =>
      cases hpc
      cases h
  | detach hg => cases hg <;> cases hpc <;> cases h
  | clean hg => cases hg <;> cases hpc <;> cases h

/-- How a wait comes to trust its alert. -/
theorem WaitGo.trustsAlert (hg : WaitGo o sh pid c p ins (.wait c' p')) (ha : c.alert ≠ 0)
    (ht : p'.trustsAlert = true) :
    (p.trustsAlert = true ∨ (sh.region.slots (handleIndex c.alert)).state = .used) ∧
    (p'.vettedAlert = true → p.trustsAlert = true ∧ p.vettedAlert = true ∨
      (sh.region.slots (handleIndex c.alert)).generation = handleGen c.alert) := by
  rcases WaitPc.trusts_cases ht with hu | hpast
  · obtain ⟨hstate, hknown⟩ := hg.usesAlert ha c' p' rfl hu
    refine ⟨hstate.imp_left WaitPc.trusts_of_uses, fun hv => ?_⟩
    exact (hknown (WaitPc.knows_of_vetted hu hv)).imp_left fun h =>
      ⟨WaitPc.trusts_of_uses h.1, WaitPc.vetted_of_knows h.1 h.2⟩
  · have hp := hg.past ha hpast
    exact ⟨.inl hp.1, fun _ => .inl hp⟩

/-- A trusted handle is one that the wait may take a token from. -/
theorem Pc.uses_of_trusts {pc : Pc} (h : pc.trustsHandle i = true) : pc.uses i = true := by
  cases pc with
  | wait c p => exact h
  | _ => cases h

/-- **What a wait found out about its handles.** -/
theorem tracks_handles : Tracks Pc.trustsHandle Pc.Valid T where
  start := by
    intro i cl
    by_contra hne
    rw [Bool.not_eq_false] at hne
    have hu := Pc.uses_of_trusts hne
    rw [Pc.start_uses] at hu
    cases hu
  outside := by
    intro i pc h
    rcases Pc.outside_cases h with rfl | ⟨c, r, rfl⟩ <;> rfl
  works := by
    intro i pc h
    by_contra hne
    rw [Bool.not_eq_false] at hne
    have hu := Pc.uses_of_trusts hne
    rw [Pc.uses_of_works i pc h] at hu
    cases hu
  step := by
    intro o sh pid pc pc' ins i hg hu hi
    cases pc' with
    | wait c' p' =>
      obtain ⟨c, p, rfl, hg, _⟩ := hg.of_wait
      exact hg.relies hu hi
    | _ => cases hu

/-- **What a wait found out about its alert.** -/
theorem tracks_vetted : Tracks Pc.trustsAlert Pc.Vetted T where
  start := by
    intro i cl
    cases cl with
    | wait a timeout =>
      simp only [Pc.start]
      split
      · simp [Pc.trustsAlert, WaitPc.trustsAlert, WaitPc.usesAlert]
      · rfl
    | op | create | close | hold =>
      simp only [Pc.start]
      split <;> rfl
    | pulse | sweepDead => rfl
  outside := by
    intro i pc h
    rcases Pc.outside_cases h with rfl | ⟨c, r, rfl⟩ <;> rfl
  works := by
    intro i pc h
    cases pc with
    | wait c p =>
      cases p with
      | sweep seq timedOut p => simp [Pc.trustsAlert, WaitPc.trustsAlert, WaitPc.usesAlert]
      | _ => cases h
    | _ => rfl
  step := by
    intro o sh pid pc pc' ins i hg hu hi
    cases pc' with
    | wait c' p' =>
      obtain ⟨c, p, rfl, hg, hargs⟩ := hg.of_wait
      have halert : c'.alert = c.alert := congrArg WaitArgs.alert hargs
      simp only [Pc.trustsAlert, halert, Bool.and_eq_true, decide_eq_true_eq] at hu hi
      obtain ⟨⟨hne, rfl⟩, hp'⟩ := hu
      obtain ⟨hstate, hknown⟩ := hg.trustsAlert hne hp'
      refine ⟨?_, fun hv => ?_⟩
      · rcases hstate with hp | hs
        · exact (hi ⟨⟨hne, rfl⟩, hp⟩).1
        · exact hs
      · rw [halert]
        rcases hknown hv with ⟨hp, hvp⟩ | hgen
        · exact (hi ⟨⟨hne, rfl⟩, hp⟩).2 hvp
        · exact hgen.symm
    | _ => cases hu

/-- **Only a convinced wait settles** on an answer other than `Invalid`. -/
theorem WaitGo.settles (hg : WaitGo o sh pid c p ins pc') (hn : (Pc.wait c p).report = none)
    {r : WaitOutcome} (hr : pc'.report = some r) (hne : r ≠ .invalid) : p.convinced = true := by
  cases hg with
  | fast hg =>
    cases hg with
    | alerted | win | failZero => rfl
    | lookOther | seq =>
      have hnext : ∀ (c' : WaitCtx) i, (Pc.wait c' (c.fastNext i)).report = none := by
        intro c' i
        unfold WaitCtx.fastNext
        split
        · rfl
        · split <;> rfl
      rw [hnext] at hr
      cases hr
    | _ => cases hr
  | pass hg =>
    have hafter : ∀ c' : WaitCtx, (Pc.wait c' c.afterAlert).report = none := by
      intro c'
      unfold WaitCtx.afterAlert
      split <;> rfl
    cases hg with
    | validateFirst | validate =>
      have hnext : ∀ (c' : WaitCtx) i, (Pc.wait c' (c.validateNext i)).report = none := by
        intro c' i
        unfold WaitCtx.validateNext
        split
        · rfl
        · split
          · rfl
          · exact hafter c'
      rw [hnext] at hr
      cases hr
    -- a lookup that fails, and a node pool that is empty, make the wait return `Invalid`
    | validateBad | validateAlertBad | allocFail =>
      cases hr
      exact absurd rfl hne
    | alertSet | win | expired => rfl
    | alertClear =>
      rw [hafter] at hr
      cases hr
    | _ => cases hr
  | noSpin | spinStart => cases hr
  | spin hg => rfl
  | @sweep seq timedOut q _ _ hg =>
    cases hg with
    | skip | unlock => cases timedOut <;> cases hr
    | _ => cases hr
  | sleep hg =>
    cases hg with
    | again | woken =>
      unfold afterFutex at hr
      split at hr <;> cases hr
    | _ => cases hr
  | detach hg => cases hg <;> cases hr
  | clean => cases hn

end Trusting

/-! ### Runs that spare what waits trust -/

/-- The wait was given the handle, for one of its objects or as its alert. -/
def WaitArgs.Names (a : WaitArgs) (hd : U32) : Prop := hd ∈ a.handles ∨ a.alert ≠ 0 ∧ hd = a.alert

/-- Whatever a wait trusts is still there. -/
structure TrustInv (s : Sys T) : Prop where
  handles : Relies Pc.trustsHandle Pc.Valid s
  alerts : Relies Pc.trustsAlert Pc.Vetted s

section Runs

variable {s s' : Sys T} {a : Action T} {l : Label T} {t : T} {c : WaitCtx} {p : WaitPc} {hd : U32}

/-- At rest nobody trusts anything. -/
theorem TrustInv.of_idle (hidle : s.Idle) : TrustInv s :=
  ⟨.of_idle tracks_handles hidle, .of_idle tracks_vetted hidle⟩

/-- **What a wait trusts stays**, in every step that spares it. -/
theorem TrustInv.step [DecidableEq T] (hi : TrustInv s) (htab : TableInv s)
    (hs : s.step a = some (s', l)) (hok : Spares Pc.trusts s l) : TrustInv s' := by
  have hor : ∀ i (pc : Pc), pc.trusts i = false → pc.trustsHandle i = false ∧ pc.trustsAlert i = false :=
    fun i pc h => by simpa [Pc.trusts] using h
  exact ⟨tracks_handles.step_relies htab hi.handles hs fun i hf u hua hu =>
      (hor i _ (hok i hf u hua hu)).1,
    tracks_vetted.step_relies htab hi.alerts hs fun i hf u hua hu =>
      (hor i _ (hok i hf u hua hu)).2⟩

/-- **Whatever a convinced wait was given resolves.** -/
theorem TrustInv.resolves (hi : TrustInv s) (ha : s.dead (s.threads t).pid = false)
    (hpc : (s.threads t).pc = .wait c p) (hp : p.convinced = true) (hn : c.Names hd) :
    s.region.slot hd = some (handleIndex hd) := by
  obtain ⟨huses, hvalid, htrust, hvet⟩ := WaitPc.convinced_trusts hp c.handles.length
  rcases hn with hmem | ⟨hne, rfl⟩
  · obtain ⟨k, hk, rfl⟩ := List.mem_iff_getElem.mp hmem
    have hslot : c.slotOf k = handleIndex c.handles[k] := by
      rw [WaitArgs.slotOf, WaitArgs.handle, List.getD_eq_getElem _ _ hk]
    have hrel := hi.handles t (handleIndex c.handles[k]) ha
    rw [hpc] at hrel
    obtain ⟨hused, hv⟩ := hrel (decide_eq_true ⟨k, by rw [huses]; exact hk, hslot⟩)
    refine Region.slot_eq_some.mpr ⟨rfl, hused, ?_⟩
    have hgen := hv.handles k (by rw [hvalid]; exact hk) hslot
    rw [WaitArgs.handle, List.getD_eq_getElem _ _ hk] at hgen
    exact hgen.symm
  · have hrel := hi.alerts t (handleIndex c.alert) ha
    rw [hpc] at hrel
    obtain ⟨hused, hv⟩ := hrel (by
      simp only [Pc.trustsAlert, htrust, Bool.and_true, decide_eq_true_eq]
      exact ⟨hne, trivial⟩)
    exact Region.slot_eq_some.mpr ⟨rfl, hused, (hv hvet).symm⟩

/-- **A wait settles on an answer other than `Invalid`** only while all that it was given resolves.
    -/
theorem TrustInv.settles [DecidableEq T] (hi : TrustInv s) (hs : s.step a = some (s', l))
    (hpc : (s.threads t).pc = .wait c p) (hn : (s.threads t).pc.report = none) {r : WaitOutcome}
    (hr : (s'.threads t).pc.report = some r) (hne : r ≠ .invalid) (hd : U32) (hnames : c.Names hd) :
    s.region.slot hd = some (handleIndex hd) := by
  cases Sys.step_inv hs with
  | @call u cl ha hout =>
    rw [Sys.entered_pc] at hr
    split at hr
    · rename_i htu
      rw [← htu, hpc] at hout
      cases hout
    · rw [hn] at hr
      cases hr
  | @tick u o ins pc' ha ht =>
    rw [Sys.after_pc] at hr
    split at hr
    · rename_i htu
      subst htu
      have hg := tick_inv ht
      rw [hpc] at hg hn
      cases hg with
      | wait hg => exact hi.resolves ha hpc (hg.settles hn hr hne) hnames
    · rw [hn] at hr
      cases hr
  | die =>
    rw [Sys.died_threads, hn] at hr
    cases hr

end Runs

end Ntsync
