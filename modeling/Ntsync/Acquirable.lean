import Mathlib
import Ntsync.Events
import Ntsync.Live
import Ntsync.Mutex

namespace Ntsync

open Words

/-!
# What makes an object acquirable

* `NoEasier` — an acquire, a reset or an unlock that keeps the mutex makes no object acquirable;
* `QuietInv.easier` — so a step that does is a rollback, or a signal, which walks the waiters next;
* `LiveInv.signals` — a signal stays under way as long as there is a waiter.
-/

variable {T : Type}

/-! ### What makes an object acquirable -/

/-- Whether an attempt would succeed depends on type, word and pulse counter only. -/
theorem isLocked_congr {x y : Slot} {o : U32} {q : U64} (hty : y.objType = x.objType)
    (hw : y.w0 = x.w0) (hd : y.d = x.d) : isLocked y o q = isLocked x o q := by
  unfold isLocked
  rw [hty, hw, hd]

/-- The pulse counter is the same, and what `o` could not acquire before it cannot after. -/
structure NoEasier (o : U32) (x y : Slot) : Prop where
  d : y.d = x.d
  locked : ∀ q, isLocked y o q = true → isLocked x o q = true

/-- A slot with the same type, word and pulse counter is no easier to acquire. -/
theorem NoEasier.of_same {o : U32} {x y : Slot} (hty : y.objType = x.objType)
    (hw : y.w0 = x.w0) (hd : y.d = x.d) : NoEasier o x y :=
  ⟨hd, fun _ h => (isLocked_congr hty hw hd).symm.trans h⟩

/-- Nothing is easier to acquire than an object that can be acquired already. -/
theorem NoEasier.of_locked {o : U32} {x y : Slot} (hd : y.d = x.d)
    (h : ∀ q, isLocked x o q = true) : NoEasier o x y :=
  ⟨hd, fun q _ => h q⟩

section Words

variable {x y : Slot} {o owner : U32} {q : U64} {v : U64}

/-- A semaphore with tokens can be acquired. -/
theorem isLocked_of_sem (hty : x.objType = .sem) (h : lo32 x.w0 ≠ 0) : isLocked x o q = true := by
  have hpos : 0 < (lo32 x.w0).toNat := (BitVec.toNat_pos _).mpr ((BitVec.pos_iff_ne_zero _).mpr h)
  simp [isLocked, hty, hpos]

/-- A signaled event can be acquired. -/
theorem isLocked_of_event (hty : x.objType = .event) (h : lo32 x.w0 ≠ 0) :
    isLocked x o q = true := by
  unfold isLocked
  rw [hty]
  dsimp only
  rw [decide_eq_true h, Bool.true_or]

/-- A mutex that somebody else holds cannot be acquired. -/
theorem isLocked_foreign (hty : x.objType = .mutex) (h0 : lo32 x.w0 ≠ 0) (ho : lo32 x.w0 ≠ o) :
    isLocked x o q = false := by
  unfold isLocked
  rw [hty]
  dsimp only
  rw [decide_eq_false h0, decide_eq_false ho]
  rfl

/-- What was acquired could be acquired. -/
theorem AcqTakes.locked {seq : U64} {od : Bool} {w : Option U64} (h : AcqTakes x owner seq od w) :
    isLocked x owner seq = true := by
  unfold AcqTakes at h
  split at h
  · rename_i hsem
    exact isLocked_of_sem hsem h.1
  · rename_i hmut
    obtain ⟨new, _, hb⟩ := h
    obtain ⟨_, hcnt, hcase⟩ := acquireMutex_cas hb
    have hmax : (mutexCount x.w0).toNat < maxRecursion.toNat := by
      have := mutexCount_le new
      omega
    rcases hcase with ⟨h0, _⟩ | ⟨hown, _⟩
    · simp [isLocked, hmut, h0, hmax]
    · simp [isLocked, hmut, hown, hmax]
  · rename_i hev
    obtain ⟨_, ⟨_, ⟨hlo, _⟩ | hd⟩ | ⟨_, hlo⟩⟩ := h
    · exact isLocked_of_event hev hlo
    · simp [isLocked, hev, hd]
    · exact isLocked_of_event hev hlo
  · exact h.elim

/-- What an acquire leaves is not easier to acquire, for nobody. -/
theorem AcqTakes.noEasier {seq : U64} {od : Bool} (h : AcqTakes x owner seq od (some v))
    (ho : owner ≠ 0) (hty : y.objType = x.objType) (hw : y.w0 = v) (hd : y.d = x.d) :
    NoEasier o x y := by
  unfold AcqTakes at h
  split at h
  · rename_i hsem
    exact .of_locked hd fun _ => isLocked_of_sem hsem h.1
  · rename_i hmut
    by_cases hoo : owner = o
    · -- the owner could acquire it already
      subst hoo
      have hq : ∀ q, AcqTakes x owner q od (some v) := by
        intro q
        unfold AcqTakes
        rw [hmut]
        exact h
      exact .of_locked hd fun q => (hq q).locked
    · obtain ⟨new, hv, hb⟩ := h
      cases hv
      obtain ⟨hlo, _⟩ := acquireMutex_cas hb
      refine ⟨hd, fun q hq => ?_⟩
      rw [isLocked_foreign (hty.trans hmut) (by rw [hw, hlo]; exact ho)
        (by rw [hw, hlo]; exact hoo)] at hq
      cases hq
  · rename_i hev
    obtain ⟨_, ⟨hnone, _⟩ | ⟨_, hlo⟩⟩ := h
    · cases hnone
    · exact .of_locked hd fun _ => isLocked_of_event hev hlo
  · exact h.elim

/-- Nor does an operation that wakes nobody, unless it is the owner's own unlock. -/
theorem Op.noEasier {op : Op} {r : OpRet} (h : op.pass x.w0 = .cas v (r, false))
    (hop : op.objType = x.objType) (ho : ∀ z, op = .mutexUnlock z → z ≠ 0 ∧ z ≠ o)
    (hty : y.objType = x.objType) (hw : y.w0 = v) (hd : y.d = x.d) : NoEasier o x y := by
  cases op with
  | semRelease count =>
    simp only [Op.pass, Ntsync.semRelease] at h
    split at h <;> cases h
  | eventSet | eventReset =>
    rcases Op.pass_event rfl h with ⟨_, _, _, _, hwake⟩ | ⟨_, hlo, _⟩
    · cases hwake
    · exact .of_locked hd fun _ => isLocked_of_event hop.symm hlo
  | mutexUnlock z =>
    obtain ⟨h0, hz⟩ := ho z rfl
    obtain ⟨_, _, _, hwake, hlo, _⟩ := mutexUnlock_cas h
    have hone : mutexCount x.w0 ≠ 1 := by
      intro h1
      rw [h1] at hwake
      cases hwake
    rw [if_neg hone] at hlo
    refine ⟨hd, fun q hq => ?_⟩
    rw [isLocked_foreign (hty.trans hop.symm) (by rw [hw, hlo]; exact h0)
      (by rw [hw, hlo]; exact hz)] at hq
    cases hq
  | mutexKill owner =>
    simp only [Op.pass, Ntsync.mutexKill] at h
    split at h <;> cases h
  | readSem | readMutex | readEvent => cases h

end Words

/-! ### Signals and rollbacks -/

section Steps

variable [DecidableEq T] {s s' : Sys T} {a : Action T} {l : Label T} {t u : T} {o : Oracle}
  {ins : Instr} {pc' : Pc} {c : WaitCtx} {p : WaitPc} {i k : Nat}

omit [DecidableEq T] in
/-- A call that works on slot `i` without the lock knows the slot's object. -/
theorem QuietInv.knows (hi : QuietInv s) (hu : (s.threads t).pc.uses i = true) :
    (s.threads t).pc.Valid i (s.region.slots i).generation (s.region.slots i).objType :=
  (hi.relies t i (hi.alive _) hu).2

omit [DecidableEq T] in
/-- A wait checks the object of its handle. -/
theorem QuietInv.fits (hi : QuietInv s) (hpc : (s.threads t).pc = .wait c p) :
    ∀ q, p.sat? = some q → ∀ i, q.Fits c.toWaitArgs i (s.region.slots i).objType := by
  intro q hq i
  have hto : p.usesTo c.handles.length = c.handles.length := by
    unfold WaitPc.sat? at hq
    split at hq <;> first | rfl | cases hq
  have hshape := hi.nodes.shape t
  rw [hpc] at hshape
  have hsh := hshape.2 q hq
  have hknows : (∃ j < c.handles.length, c.slotOf j = i) →
      q.Fits c.toWaitArgs i (s.region.slots i).objType := by
    intro hj
    have hv := hi.knows (t := t) (i := i) (by
      rw [hpc]
      simp only [Pc.uses, hto, decide_eq_true_eq]
      exact hj)
    rw [hpc] at hv
    exact hv.fits q hq
  cases q with
  | any j q => exact fun hj => hknows ⟨j, hsh.1, hj⟩ hj
  | all j acquired od q => exact fun hj => hknows ⟨j, hsh.1, hj⟩ hj
  | undo todo u =>
    cases todo with
    | nil => trivial
    | cons y rest => exact fun hj => hknows ⟨y.1, hsh.2.2 y (List.mem_cons_self ..), hj⟩ hj

/-- An acquire's store comes from the object that is being tried. -/
theorem SatStep.acquire {r : Region} {x : WaitArgs} {seqs : Nat → U64} {q : Sat} {od : Bool}
    {v : U64} {out : Out Sat (Option (Nat × Bool))}
    (h : SatStep r x seqs q (some (.acquire k od v)) out)
    (hf : q.Fits x (x.slotOf k) (r.slots (x.slotOf k)).objType) :
    AcqTakes (r.slots (x.slotOf k)) x.owner (seqs k) od (some v) := by
  generalize hw : some (SatWrite.acquire k od v) = w at h
  cases h with
  | anyWin hs | allTake hs | allWin hs =>
    rename_i v' _
    cases v' <;> cases hw
    exact Acq.step_take (hf rfl) hs
  | @undoLast _ _ _ v' => cases v' <;> cases hw
  | @undoNext _ _ _ _ v' => cases v' <;> cases hw
  | _ => cases hw

/-- What a store to the word of an object is: an operation's swap, a pulse, an acquire or a
    rollback. -/
inductive WordGo (x : Slot) (i : Nat) (h : U32) (new : U64) (pc pc' : Pc) : Tag → Prop
  | op {op : Op} {p : OpPc} {r : OpRet} {wake : Bool} : pc = .op h op p →
      op.objType = x.objType → op.pass x.w0 = .cas new (r, wake) →
      (wake = true → pc'.signals? = some i) → WordGo x i h new pc pc' (.op op)
  | pulse : pc'.signals? = some i → WordGo x i h new pc pc' .pulse
  | acquire {owner : U32} {od : Bool} {seq : U64} : owner ≠ 0 →
      AcqTakes x owner seq od (some new) → WordGo x i h new pc pc' (.acquire owner od)
  | rollback {owner : U32} : WordGo x i h new pc pc' (.rollback owner)

omit [DecidableEq T] in
/-- **A store to the word of an object**, in a quiet run. -/
theorem QuietInv.stores (hi : QuietInv s) {h : U32} {tag : Tag} {new : U64}
    (ht : tick o s.toShared (s.threads t).pid (s.threads t).calls (s.threads t).pc =
      some (.word h i tag new, pc')) :
    WordGo (s.region.slots i) i h new (s.threads t).pc pc' tag := by
  have hg := tick_inv ht
  rcases hg.word with ⟨op, cas, r, wake, hpc, hj, rfl, hb, rfl⟩ | ⟨prev, w, _, hj, rfl, _, rfl⟩ |
    ⟨c, q, p, hpc, hsat⟩
  · have hv := hi.knows (t := t) (i := i) (by
      rw [hpc]
      simp [Pc.uses, OpPc.uses, hj, Op.stores_of_cas hb])
    rw [hpc] at hv
    refine .op hpc ((hv hj.symm).2 rfl) hb fun hwake => ?_
    rw [if_pos hwake]
    exact congrArg some hj.symm
  · exact .pulse (congrArg some hj.symm)
  · have hshape := hi.nodes.shape t
    rw [hpc] at hg hshape
    obtain ⟨w, out, hst, hins, _⟩ := hg.sat (c := c) (p := p) (by simp [Pc.sat?, hsat])
    cases w with
    | none => cases hins
    | some w =>
      cases w with
      | acquire k od v =>
        cases hins
        exact .acquire (WaitArgs.valid_iff.mp hshape.1).1 (hst.acquire (hi.fits hpc p hsat _))
      | rollback k v =>
        cases hins
        exact .rollback

/-- **What makes an object acquirable.** A step that does is a rollback, or a signal, which wakes
    the waiters next. -/
theorem QuietInv.easier (hi : QuietInv s) {owner : U32}
    (ht : tick o s.toShared (s.threads t).pid (s.threads t).calls (s.threads t).pc =
      some (ins, pc'))
    (hq : (Label.instr t (s.threads t).pid ins).quiet = true)
    (hu : (s.region.slots i).state = .used)
    (hown : ∀ h z p, (s.threads t).pc = .op h (.mutexUnlock z) p → z ≠ owner) :
    NoEasier owner (s.region.slots i) ((s.after t ins pc').region.slots i) ∨
      pc'.signals? = some i ∨ ∃ h z new, ins = .word h i (.rollback z) new := by
  obtain ⟨_, _, hty, hw, hd⟩ := hi.slot_after ht hq hu
  generalize (s.after t ins pc').region.slots i = y at hty hw hd ⊢
  cases ins with
  | word h j tag new =>
    by_cases hij : i = j
    · subst hij
      rw [show Instr.wordAfter i (s.region.slots i).w0 (.word h i tag new) = new from if_pos rfl]
        at hw
      cases hi.stores ht with
      | @op op p r wake hpc hop hb hwake =>
        cases wake with
        | true => exact .inr (.inl (hwake rfl))
        | false =>
          refine .inl (Op.noEasier hb hop (fun z hz => ?_) hty hw hd)
          subst hz
          have hshape := hi.nodes.shape t
          rw [hpc] at hshape
          exact ⟨Pc.Shape.actsFor_ne_zero hshape rfl, hown _ _ _ hpc⟩
      | pulse hsig => exact .inr (.inl hsig)
      | acquire hne htakes => exact .inl (htakes.noEasier hne hty hw hd)
      | rollback => exact .inr (.inr ⟨_, _, _, rfl⟩)
    · rw [show Instr.wordAfter i (s.region.slots i).w0 (.word h j tag new) = _ from if_neg hij] at hw
      exact .inl (.of_same hty hw hd)
  | storeD j v =>
    by_cases hij : i = j
    · subst hij
      obtain ⟨hd', prev, d, _, hj, _, rfl⟩ := (tick_inv ht).storeD
      exact .inr (.inl (congrArg some hj.symm))
    · rw [show Instr.countAfter i (s.region.slots i).d (.storeD j v) = _ from if_neg hij] at hd
      exact .inl (.of_same hty hw hd)
  | _ => exact .inl (.of_same hty hw hd)

omit [DecidableEq T] in
/-- A signal is under way until it finds no waiter left. -/
theorem PcGo.signals {sh : Shared T} {pid : U32} {pc : Pc} (hg : PcGo sh pid o pc ins pc')
    (h : pc.signals? = some i) : pc'.signals? = some i ∨
      (sh.region.slots i).waiterHead = none ∨ pc.walk? = some (i, .node none) := by
  cases hg with
  | @op hd op q _ _ hg =>
    cases hg with
    | peekNone hn =>
      cases h
      exact .inr (.inl hn)
    | @walked r w _ hw =>
      cases h
      cases w with
      | node idx =>
        cases idx with
        | none => exact .inr (.inr rfl)
        | some n => cases hw
      | start => cases hw
      | bump v next => cases v <;> cases hw
    | peek | lock | walk => exact .inl h
    | bad hlook => cases q <;> first | (cases h; done) | cases hlook
    | _ => cases h
  | pulse hg =>
    cases hg with
    | @walked r w _ hw =>
      cases h
      cases w with
      | node idx =>
        cases idx with
        | none => exact .inr (.inr rfl)
        | some n => cases hw
      | start => cases hw
      | bump v next => cases v <;> cases hw
    | loadW | storeW | walk => exact .inl h
    | bad | _ => cases h
  | wait => cases h
  | create => cases h
  | close => cases h
  | hold => cases h
  | sweepDead => cases h

omit [DecidableEq T] in
/-- A signal is under way as long as there is a waiter. -/
theorem LiveInv.signals (hi : LiveInv s)
    (ht : tick o s.toShared (s.threads t).pid (s.threads t).calls (s.threads t).pc =
      some (ins, pc'))
    (h : (s.threads t).pc.signals? = some i) {n : Nat}
    (hn : (s.region.nodes n).registered = true) (ho : (s.region.nodes n).obj = some i) :
    pc'.signals? = some i := by
  obtain ⟨L, F, U, hp⟩ := hi.nodes.pool
  have hmem : n ∈ L i := (hp.lists.mem i n).mpr ⟨hn, ho⟩
  have hne : (s.region.slots i).waiterHead ≠ none := by
    intro hh
    rw [hp.lists.nil_of_head (hp.lists.touched i (List.ne_nil_of_mem hmem)) hh] at hmem
    cases hmem
  rcases (tick_inv ht).signals h with h' | hh | hw
  · exact h'
  · exact absurd hh hne
  · exact absurd ((hp.knows t (hi.alive _)).walk i _ hw).symm hne

/-- The signal a thread has just begun is under way. -/
theorem Sys.signals_begun (h : pc'.signals? = some i) :
    ∃ v, ((s.after t ins pc').threads v).pc.signals? = some i :=
  ⟨t, by rw [Sys.after_pc, if_pos rfl]; exact h⟩

/-- A signal stays under way as long as the object has a waiter. -/
theorem LiveInv.signals_after (hi : LiveInv s)
    (ht : tick o s.toShared (s.threads t).pid (s.threads t).calls (s.threads t).pc =
      some (ins, pc'))
    {n : Nat} (hn : (s.region.nodes n).registered = true) (ho : (s.region.nodes n).obj = some i)
    (h : ∃ v, (s.threads v).pc.signals? = some i) :
    ∃ v, ((s.after t ins pc').threads v).pc.signals? = some i := by
  obtain ⟨v, hv⟩ := h
  by_cases hvt : v = t
  · subst hvt
    exact Sys.signals_begun (hi.signals ht hv hn ho)
  · exact ⟨v, by rw [Sys.after_pc, if_neg hvt]; exact hv⟩

/-- A wait is not the signal that is under way. -/
theorem Sys.signals_kept {c : WaitCtx} {p : WaitPc} (hpc : (s.threads t).pc = .wait c p)
    (h : ∃ v, (s.threads v).pc.signals? = some i) :
    ∃ v, ((s.after t ins pc').threads v).pc.signals? = some i := by
  obtain ⟨v, hv⟩ := h
  have hvt : v ≠ t := by
    rintro rfl
    rw [hpc] at hv
    cases hv
  exact ⟨v, by rw [Sys.after_pc, if_neg hvt]; exact hv⟩

/-- Nor is a thread that enters a call. -/
theorem Sys.signals_entered {cl : Call} (hout : (s.threads t).pc.outside = true)
    (h : ∃ v, (s.threads v).pc.signals? = some i) :
    ∃ v, ((s.entered t cl).threads v).pc.signals? = some i := by
  obtain ⟨v, hv⟩ := h
  have hvt : v ≠ t := by
    rintro rfl
    rcases Pc.outside_cases hout with hpc | ⟨_, _, hpc⟩ <;> rw [hpc] at hv <;> cases hv
  exact ⟨v, by rw [Sys.entered_pc, if_neg hvt]; exact hv⟩

end Steps

end Ntsync
