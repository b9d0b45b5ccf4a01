import Mathlib
import Ntsync.Events
import Ntsync.Lib.Linear

namespace Ntsync

open Words Lts Linear

/-!
# Event operations are linearizable

`event_set`, `event_reset` and `read_event` take effect at their last access to the event's word,
`event_pulse` at its store.  A pulse reports what it read before, so that the order of these points
is a linearization as long as every pulse still finds the signaled bit it reports.

* `eventSpec` — the operations as functions of the signaled bit;
* `eventHistory` — what the callers of a run see of the event behind a handle;
* `events_linearizable` — the run is linearizable if every pulse finds what it read;
* `pulse_erases_set` — and not in general: a pulse that reports "not signaled" erases a set.
-/

variable {T : Type}

/-! ### The specification -/

inductive EventOp where
  | set
  | reset
  | pulse
  | read
  deriving DecidableEq, Repr

/-- The previous state of the event, as the operations report it. -/
def prevState (b : Bool) : OpRet := .ok (.num (if b then 1 else 0))

/-- What an operation makes of the signaled bit, and what it returns. -/
def eventSpec (manual b : Bool) : EventOp → Bool × OpRet
  | .set => (true, prevState b)
  | .reset | .pulse => (false, prevState b)
  | .read => (b, .ok (.event manual b))

/-! ### What callers see -/

def Op.eventOp : Op → Option EventOp
  | .eventSet => some .set
  | .eventReset => some .reset
  | .readEvent => some .read
  | _ => none

/-- The event operation of a call on the handle `hd`. -/
def Call.eventOp (hd : U32) : Call → Option EventOp
  | .op h o => if h = hd then o.eventOp else none
  | .pulse h => if h = hd then some .pulse else none
  | _ => none

/-- The event operation on `hd` a thread is in, or has returned from. -/
def Pc.eventOp (hd : U32) : Pc → Option EventOp
  | .op h o _ => Call.eventOp hd (.op h o)
  | .pulse h _ => Call.eventOp hd (.pulse h)
  | .done c (.op _) => c.eventOp hd
  | _ => none

def PulsePc.result : PulsePc → Option OpRet
  | .walk prev _ => some (.ok (.num prev))
  | .unlock r => some r
  | _ => none

/-- What an operation is going to return, once it is decided. -/
def Pc.result : Pc → Option OpRet
  | .op _ _ p => p.result
  | .pulse _ p => p.result
  | .done _ (.op r) => some r
  | _ => none

/-- A decided operation on `hd` with its result. -/
def Pc.decided (hd : U32) (pc : Pc) : Option (EventOp × OpRet) :=
  match pc.eventOp hd, pc.result with
  | some e, some r => some (e, r)
  | _, _ => none

section History

variable [DecidableEq T]

/-- When thread `t` entered its latest call. -/
def lastCall (t : T) : List (Trans (Sys T) (Label T)) → Nat
  | [] => 0
  | x :: h =>
    match x.label with
    | .call u _ => if u = t then h.length else lastCall t h
    | _ => lastCall t h

/-- What the callers see of a step after the history `h`; a call is named by its thread and the
    moment it began. -/
def eventsOf (hd : U32) (h : List (Trans (Sys T) (Label T))) (x : Trans (Sys T) (Label T)) :
    List (Ev (T × Nat) EventOp OpRet) :=
  match x.label with
  | .call t c =>
    match c.eventOp hd with
    | some e => [.call (t, h.length) e]
    | none => []
  | .instr t _ _ =>
    match (x.after.threads t).pc.decided hd with
    | some (_, r) => if (x.after.threads t).pc.outside then [.ret (t, lastCall t h) r] else []
    | none => []
  | .die _ => []

/-- The calls on `hd` and their returns. -/
def eventHistory (hd : U32) :
    List (Trans (Sys T) (Label T)) → List (Ev (T × Nat) EventOp OpRet)
  | [] => []
  | x :: h => eventsOf hd h x ++ eventHistory hd h

/-- The same with the linearization points: an operation is linearized by the step that decides its
    result. -/
def marksOf (hd : U32) (h : List (Trans (Sys T) (Label T))) (x : Trans (Sys T) (Label T)) :
    List (Mark (T × Nat) EventOp OpRet) :=
  match x.label with
  | .call t c =>
    match c.eventOp hd with
    | some e => [.call (t, h.length) e]
    | none => []
  | .instr t _ _ =>
    match (x.after.threads t).pc.decided hd with
    | some (e, r) =>
      (if (x.after.threads t).pc.outside then [.ret (t, lastCall t h) r] else []) ++
        if (x.before.threads t).pc.result = none then [.point (t, lastCall t h) e r] else []
    | none => []
  | .die _ => []

def marks (hd : U32) : List (Trans (Sys T) (Label T)) → List (Mark (T × Nat) EventOp OpRet)
  | [] => []
  | x :: h => marksOf hd h x ++ marks hd h

/-- The events of a step are its calls and returns. -/
theorem marksOf_ev (hd : U32) (h : List (Trans (Sys T) (Label T))) (x : Trans (Sys T) (Label T)) :
    (marksOf hd h x).filterMap Mark.ev? = eventsOf hd h x := by
  unfold marksOf eventsOf
  split
  · split <;> rfl
  · split
    · rw [List.filterMap_append]
      split <;> split <;> rfl
    · rfl
  · rfl

/-- Without the deciding steps, the marks are the history. -/
theorem marks_ev (hd : U32) (h : List (Trans (Sys T) (Label T))) :
    (marks hd h).filterMap Mark.ev? = eventHistory hd h := by
  induction h with
  | nil => rfl
  | cons x h ih =>
    show (marksOf hd h x ++ marks hd h).filterMap Mark.ev? = eventsOf hd h x ++ eventHistory hd h
    rw [List.filterMap_append, marksOf_ev, ih]

end History

/-! ### Steps of the operations -/

section Steps

variable {o : Oracle} {sh : Shared T} {pid : U32} {calls : U64} {ins : Instr} {pc pc' : Pc}
  {hd : U32} {i : Nat} {b m : Bool} {e : EventOp} {r : OpRet}

/-- Each operation on events has a meaning in the abstract event. -/
theorem Op.eventOp_of_objType {op : Op} (h : op.objType = .event) : op.eventOp ≠ none := by
  cases op <;> first | (cases h; done) | exact Option.some_ne_none _

/-- One pass of an event operation is the specified operation, or a swap that makes it so. -/
theorem Op.pass_eventSpec {op : Op} (he : op.eventOp = some e) :
    op.pass (packEvent b m) = .ret ((eventSpec m b e).2, false) ∧ (eventSpec m b e).1 = b ∨
      ∃ wake, op.pass (packEvent b m) =
        .cas (packEvent (eventSpec m b e).1 m) ((eventSpec m b e).2, wake) := by
  cases op with
  | eventSet =>
    cases he
    cases b
    · exact .inr ⟨true, by cases m <;> rfl⟩
    · exact .inl ⟨by cases m <;> rfl, rfl⟩
  | eventReset =>
    cases he
    cases b
    · exact .inl ⟨by cases m <;> rfl, rfl⟩
    · exact .inr ⟨false, by cases m <;> rfl⟩
  | readEvent =>
    cases he
    exact .inl ⟨by cases b <;> cases m <;> rfl, rfl⟩
  | _ => cases he

/-- What a step of an undecided operation does: it stays undecided and leaves the word alone, or it
    takes effect. -/
def Takes (hd : U32) (i : Nat) (e : EventOp) (b m : Bool) (ins : Instr) (pc' : Pc) : Prop :=
  pc'.eventOp hd = some e ∧
    (pc'.result = none ∧ ins.wordAfter i (packEvent b m) = packEvent b m ∨
      pc'.result = some (eventSpec m b e).2 ∧
        ins.wordAfter i (packEvent b m) = packEvent (eventSpec m b e).1 m)

/-- On an open event the lookup succeeds. -/
theorem opTick_takes {op : Op} {p : OpPc} (ht : opTick sh hd op p = some (ins, pc'))
    (hs : Holds sh.region (handleIndex hd) (handleGen hd) .event)
    (hw : (sh.region.slots (handleIndex hd)).w0 = packEvent b m)
    (he : op.eventOp = some e) (hp : p.result = none) :
    Takes hd (handleIndex hd) e b m ins pc' := by
  have hev : ∀ q, (Pc.op hd op q).eventOp hd = some e := fun q => by
    simp [Pc.eventOp, Call.eventOp, he]
  have hdone : ∀ r, (Pc.done (.op hd op) (.op r)).eventOp hd = some e := fun r => by
    simp [Pc.eventOp, Call.eventOp, he]
  have hty : op.objType = .event := by cases op <;> first | rfl | cases he
  cases p with
  | state =>
    rw [opTick, if_pos hs.used] at ht
    cases ht
    exact ⟨hev _, .inl ⟨rfl, rfl⟩⟩
  | gen =>
    rw [opTick, if_pos hs.gen] at ht
    cases ht
    exact ⟨hev _, .inl ⟨rfl, rfl⟩⟩
  | typ =>
    rw [opTick, if_pos (hs.typ.trans hty.symm)] at ht
    cases ht
    exact ⟨hev _, .inl ⟨rfl, rfl⟩⟩
  | loop c =>
    have hg := opTick_inv ht
    cases hg with
    | bad hp => cases hp
    | retry => exact ⟨hev _, .inl ⟨rfl, rfl⟩⟩
    | ret hb =>
      rw [hw] at hb
      -- a swap that stores nothing is a read: the operation takes effect with the word as it is
      rcases Op.pass_eventSpec (b := b) (m := m) he with ⟨hpass, hsame⟩ | ⟨wake, hpass⟩
      · rw [hpass] at hb
        cases hb
        refine ⟨hdone _, .inr ⟨rfl, ?_⟩⟩
        rw [hsame]
        rfl
      · rw [hpass] at hb
        cases hb
    | swap hb =>
      rw [hw] at hb
      rcases Op.pass_eventSpec (b := b) (m := m) he with ⟨hpass, hsame⟩ | ⟨wake, hpass⟩
      · rw [hpass] at hb
        cases hb
      · rw [hpass] at hb
        -- the operation takes effect at its swap
        cases hb
        exact ⟨hev _, .inr ⟨rfl, if_pos rfl⟩⟩
    | swapQuiet hb =>
      rw [hw] at hb
      rcases Op.pass_eventSpec (b := b) (m := m) he with ⟨hpass, hsame⟩ | ⟨wake, hpass⟩
      · rw [hpass] at hb
        cases hb
      · rw [hpass] at hb
        cases hb
        exact ⟨hdone _, .inr ⟨rfl, if_pos rfl⟩⟩
  | peek | lockWake | walk | unlock => cases hp

/-- The pulse reports what it finds. -/
def PulsePc.Finds (b m : Bool) : PulsePc → Prop
  | .storeW prev w => prev = (if b then 1 else 0) ∧ ∃ b', w = packEvent b' m
  | _ => True

/-- What a pulse does to the event's word at each step. -/
theorem pulseTick_takes {p : PulsePc} (ht : pulseTick sh hd p = some (ins, pc'))
    (hs : Holds sh.region (handleIndex hd) (handleGen hd) .event) (hp : p.result = none)
    (hfinds : p.Finds b m) : Takes hd (handleIndex hd) .pulse b m ins pc' := by
  have hev : ∀ q, (Pc.pulse hd q).eventOp hd = some .pulse := fun q => by
    simp [Pc.eventOp, Call.eventOp]
  cases p with
  | lock =>
    obtain ⟨_, rfl, rfl⟩ := takeLock_inv ht
    exact ⟨hev _, .inl ⟨rfl, rfl⟩⟩
  | check =>
    have hslot : sh.region.slot hd = some (handleIndex hd) :=
      Region.slot_eq_some.mpr ⟨rfl, hs.used, hs.gen⟩
    simp only [pulseTick, hslot, hs.typ, if_true] at ht
    cases ht
    exact ⟨hev _, .inl ⟨rfl, rfl⟩⟩
  | storeW prev w =>
    cases ht
    obtain ⟨rfl, b', rfl⟩ := hfinds
    refine ⟨hev _, .inr ⟨rfl, ?_⟩⟩
    rw [Instr.wordAfter, if_pos rfl, packEvent_and]
    rfl
  | load | loadD | storeD | loadW =>
    cases ht
    exact ⟨hev _, .inl ⟨rfl, rfl⟩⟩
  | walk | unlock => cases hp

/-- A decided operation stays decided and leaves the word alone. -/
theorem PcGo.decided (hg : PcGo sh pid o pc ins pc') (he : pc.eventOp hd = some e)
    (hr : pc.result = some r) :
    pc'.eventOp hd = some e ∧ pc'.result = some r ∧
      ∀ i w, ins.wordAfter i w = w := by
  have hwalk : ins.walks = true → ∀ i w, ins.wordAfter i w = w := by
    intro h i w
    cases ins <;> first | rfl | cases h
  cases hg with
  | op hg =>
    cases hg with
    | walk hw | walked hw => exact ⟨he, hr, hwalk (Walk.step_walks hw)⟩
    | peekNone | peek | lock | unlock => exact ⟨he, hr, fun _ _ => rfl⟩
    | bad hp =>
      rename_i p
      cases p <;> first | (cases hr; done) | cases hp
    | _ => cases hr
  | pulse hg =>
    cases hg with
    | walk hw | walked hw => exact ⟨he, hr, hwalk (Walk.step_walks hw)⟩
    | unlock => exact ⟨he, hr, fun _ _ => rfl⟩
    | _ => cases hr
  | _ => cases he

/-- A step of `try_satisfy` that swaps the word of slot `i`. -/
def Instr.claims (i : Nat) : Instr → Bool
  | .word _ j (.acquire _ _) _ | .word _ j (.rollback _) _ => decide (j = i)
  | _ => false

/-- A call that returns an operation's result was that operation. -/
theorem PcGo.eventOp (hg : PcGo sh pid o pc ins pc') (he : pc.eventOp hd = none) :
    pc'.eventOp hd = none := by
  cases hg with
  | op hg => cases hg <;> exact he
  | pulse hg => cases hg <;> exact he
  | wait hg =>
    rcases hg.args with ha | ha
    · subst ha
      rfl
    · unfold Pc.args? at ha
      split at ha
      · unfold Pc.eventOp
        split <;> first | rfl | (rename_i hpc; cases hpc; rfl) | (rename_i hpc; cases hpc)
      · rfl
      · cases ha
  | create hg => cases hg <;> rfl
  | close hg => cases hg <;> rfl
  | hold hg => cases hg <;> rfl
  | sweepDead hg => cases hg <;> rfl

/-- Nothing but its own operations, pulses and waits changes the word of an event. -/
theorem PcGo.others (hg : PcGo sh pid o pc ins pc')
    (hv : pc.Valid (handleIndex hd) (handleGen hd) .event) (he : pc.eventOp hd = none)
    (hclaim : ins.claims (handleIndex hd) = false) (w : U64) :
    ins.wordAfter (handleIndex hd) w = w := by
  by_cases hword : ∃ h tag new, ins = .word h (handleIndex hd) tag new
  · obtain ⟨h, tag, new, rfl⟩ := hword
    rcases hg.word with ⟨op, cas, r, wake, rfl, hi, rfl, _⟩ | ⟨prev, w, rfl, hi, _⟩ |
      ⟨c, q, p, rfl, hq⟩
    · obtain ⟨hgen, hty⟩ := hv hi.symm
      obtain rfl := handle_ext hi.symm (hgen rfl)
      exact absurd (by simpa [Pc.eventOp, Call.eventOp] using he)
        (Op.eventOp_of_objType (hty rfl))
    · obtain ⟨hgen, _⟩ := hv hi.symm rfl
      obtain rfl := handle_ext hi.symm hgen
      simp [Pc.eventOp, Call.eventOp] at he
    · obtain ⟨v, out, _, hins, _⟩ := hg.sat (c := c) (p := p) (by simp [Pc.sat?, hq])
      have hat : (Instr.word h (handleIndex hd) tag new).attempt = true := by
        rcases v with _ | (_ | _)
        · cases hins
        · rw [hins]
          rfl
        · rw [hins]
          rfl
      cases tag with
      | acquire | rollback => simp [Instr.claims] at hclaim
      | _ => cases hat
  · exact Instr.wordAfter_of_ne (fun h tag new e => hword ⟨h, tag, new, e⟩)

end Steps

/-! ### The invariant -/

section Linearization

variable [DecidableEq T] {hd : U32} {m b₀ : Bool} {s s' : Sys T} {act : Action T} {l : Label T}
  {h : List (Trans (Sys T) (Label T))}

/-- What a pulse that is about to store is going to report. -/
def Pc.pulsePrev : Pc → Option U32
  | .pulse _ (.storeW prev _) => some prev
  | _ => none

/-- If the step is the store of a pulse to slot `i`, the signaled bit is the one the pulse read. -/
def PulseFinds (i : Nat) (s : Sys T) : Label T → Prop
  | .instr t _ (.word _ j .pulse _) =>
    j = i → (s.threads t).pc.pulsePrev = some (lo32 (s.region.slots i).w0)
  | _ => True

/-- If the step swaps the word of slot `i`, it is not a wait that does. -/
def Unclaimed (i : Nat) : Label T → Prop
  | .instr _ _ ins => ins.claims i = false
  | _ => True

structure LinInv (hd : U32) (m b₀ : Bool) (h : List (Trans (Sys T) (Label T))) (s : Sys T) :
    Prop where
  isOpen : OpenInv (handleIndex hd) (handleGen hd) .event s
  word : ∃ b, (s.region.slots (handleIndex hd)).w0 = packEvent b m ∧
    replay (eventSpec m) b₀ (points (marks hd h)) = some b
  marked : Marked (marks hd h)
  times : ∀ x ∈ marks hd h, x.id.2 < h.length
  pulses : ∀ t prev w, (s.threads t).pc = .pulse hd (.storeW prev w) → ∃ b, w = packEvent b m
  pending : ∀ t e, (s.threads t).pc.eventOp hd = some e → (s.threads t).pc.result = none →
    .call (t, lastCall t h) e ∈ marks hd h ∧
      ∀ op r, .point (t, lastCall t h) op r ∉ marks hd h
  decided : ∀ t e r, (s.threads t).pc.eventOp hd = some e → (s.threads t).pc.result = some r →
    (s.threads t).pc.outside = false → .point (t, lastCall t h) e r ∈ marks hd h

omit [DecidableEq T] in
/-- A call starts as the operation it is. -/
theorem Pc.start_eventOp (c : Call) : (Pc.start c).eventOp hd = c.eventOp hd := by
  cases c with
  | op h o =>
    simp only [Pc.start]
    split <;> rfl
  | pulse | sweepDead => rfl
  | _ =>
    simp only [Pc.start]
    split <;> rfl

omit [DecidableEq T] in
/-- An event operation begins undecided. -/
theorem Pc.start_result {c : Call} {e : EventOp} (he : c.eventOp hd = some e) :
    (Pc.start c).result = none := by
  cases c with
  | op h o =>
    have hvalid : o.valid = true := by
      simp only [Call.eventOp] at he
      split at he
      · cases o <;> first | rfl | cases he
      · cases he
    simp only [Pc.start, if_pos hvalid]
    rfl
  | pulse => rfl
  | _ => cases he

/-- A call is entered in the record. -/
theorem LinInv.call {t : T} {c : Call} (hi : LinInv hd m b₀ h s)
    (hopen : OpenInv (handleIndex hd) (handleGen hd) .event (s.entered t c)) :
    LinInv hd m b₀ (⟨s, .call t c, s.entered t c⟩ :: h) (s.entered t c) := by
  set x : Trans (Sys T) (Label T) := ⟨s, .call t c, s.entered t c⟩
  -- the new marks are those of a call under a name never used before
  have hlast : ∀ u, u ≠ t → lastCall u (x :: h) = lastCall u h := fun u hu =>
    if_neg (Ne.symm hu)
  have hnow : lastCall t (x :: h) = h.length := if_pos rfl
  have hmarks : marksOf hd h x = [] ∨ ∃ e, c.eventOp hd = some e ∧
      marksOf hd h x = [.call (t, h.length) e] := by
    cases he : c.eventOp hd with
    | none => exact .inl (by simp [marksOf, x, he])
    | some e => exact .inr ⟨e, rfl, by simp [marksOf, x, he]⟩
  have hpoints : points (marks hd (x :: h)) = points (marks hd h) := by
    show points (marksOf hd h x ++ marks hd h) = _
    rcases hmarks with hm | ⟨e, _, hm⟩ <;> rw [hm] <;> rfl
  have hpoint : ∀ id op r, .point id op r ∈ marks hd (x :: h) ↔ .point id op r ∈ marks hd h := by
    intro id op r
    show _ ∈ marksOf hd h x ++ marks hd h ↔ _
    rcases hmarks with hm | ⟨e, _, hm⟩ <;> rw [hm] <;> simp
  have hsub : ∀ y ∈ marks hd h, y ∈ marks hd (x :: h) := fun y hy => List.mem_append_right _ hy
  obtain ⟨b, hw, hrep⟩ := hi.word
  refine ⟨hopen, ⟨b, hw, by rw [hpoints]; exact hrep⟩, ?_, ?_, ?_, ?_, ?_⟩
  · show Marked (marksOf hd h x ++ marks hd h)
    rcases hmarks with hm | ⟨e, _, hm⟩ <;> rw [hm]
    · exact hi.marked
    · refine hi.marked.call fun y hy heq => ?_
      have hlt := hi.times y hy
      rw [heq] at hlt
      exact Nat.lt_irrefl _ hlt
  · intro y hy
    rcases List.mem_append.mp hy with hy | hy
    · rcases hmarks with hm | ⟨e, _, hm⟩ <;> rw [hm] at hy
      · cases hy
      · rw [List.mem_singleton] at hy
        subst hy
        exact Nat.lt_succ_self _
    · exact Nat.lt_succ_of_lt (hi.times y hy)
  · intro u prev w hpc
    rw [Sys.entered_pc] at hpc
    split at hpc
    · cases c with
      | pulse => cases hpc
      | sweepDead => cases hpc
      | _ =>
        simp only [Pc.start] at hpc
        split at hpc <;> cases hpc
    · exact hi.pulses u prev w hpc
  · intro u e he hres
    rw [Sys.entered_pc] at he hres
    split at he
    · rename_i hu
      subst hu
      rw [Pc.start_eventOp] at he
      rw [hnow]
      refine ⟨?_, fun op r hmem => ?_⟩
      · show _ ∈ marksOf hd h x ++ marks hd h
        simp [marksOf, x, he]
      · have hlt := hi.times _ ((hpoint _ _ _).mp hmem)
        exact Nat.lt_irrefl _ hlt
    · rename_i hu
      rw [if_neg hu] at hres
      obtain ⟨hcall, hno⟩ := hi.pending u e he hres
      rw [hlast u hu]
      exact ⟨hsub _ hcall, fun op r hmem => hno op r ((hpoint _ _ _).mp hmem)⟩
  · intro u e r he hres hin
    rw [Sys.entered_pc] at he hres hin
    split at he
    · rename_i hu
      rw [if_pos hu, Pc.start_result (by rw [← Pc.start_eventOp]; exact he)] at hres
      cases hres
    · rename_i hu
      rw [if_neg hu] at hres hin
      rw [hlast u hu]
      exact hsub _ (hi.decided u e r he hres hin)

/-- The marks of a step of thread `t` are about its running call. -/
theorem marksOf_id {t : T} {pid : U32} {ins : Instr} {y : Mark (T × Nat) EventOp OpRet}
    (hy : y ∈ marksOf hd h ⟨s, .instr t pid ins, s'⟩) : y.id = (t, lastCall t h) := by
  simp only [marksOf] at hy
  split at hy
  · rcases List.mem_append.mp hy with hy | hy
    · split at hy
      · rw [List.mem_singleton] at hy
        rw [hy]
        rfl
      · cases hy
    · split at hy
      · rw [List.mem_singleton] at hy
        rw [hy]
        rfl
      · cases hy
  · cases hy

/-- The last call is in the history. -/
theorem lastCall_le (t : T) (h : List (Trans (Sys T) (Label T))) : lastCall t h ≤ h.length := by
  induction h with
  | nil => exact Nat.le_refl _
  | cons x h ih =>
    simp only [lastCall]
    split
    · split
      · exact Nat.le_succ _
      · exact Nat.le_succ_of_le ih
    · exact Nat.le_succ_of_le ih

/-- What a step of thread `t` has to show: the new word, the new marks, and the bookkeeping of its
    own call. -/
theorem LinInv.tick {t : T} {ins : Instr} {pc' : Pc} (hi : LinInv hd m b₀ h s)
    (hopen : OpenInv (handleIndex hd) (handleGen hd) .event (s.after t ins pc'))
    (hword : ∃ b, ((s.after t ins pc').region.slots (handleIndex hd)).w0 = packEvent b m ∧
      replay (eventSpec m) b₀ (points (marksOf hd h
        ⟨s, .instr t (s.threads t).pid ins, s.after t ins pc'⟩ ++ marks hd h)) = some b)
    (hmarked : Marked (marksOf hd h
      ⟨s, .instr t (s.threads t).pid ins, s.after t ins pc'⟩ ++ marks hd h))
    (hpulse : ∀ prev w, pc' = .pulse hd (.storeW prev w) → ∃ b, w = packEvent b m)
    (hpend : ∀ e, pc'.eventOp hd = some e → pc'.result = none →
      (s.threads t).pc.eventOp hd = some e ∧ (s.threads t).pc.result = none)
    (hdec : ∀ e r, pc'.eventOp hd = some e → pc'.result = some r → pc'.outside = false →
      .point (t, lastCall t h) e r ∈ marksOf hd h
        ⟨s, .instr t (s.threads t).pid ins, s.after t ins pc'⟩ ++ marks hd h) :
    LinInv hd m b₀ (⟨s, .instr t (s.threads t).pid ins, s.after t ins pc'⟩ :: h)
      (s.after t ins pc') := by
  set x : Trans (Sys T) (Label T) := ⟨s, .instr t (s.threads t).pid ins, s.after t ins pc'⟩
    with hx
  have hlast : ∀ u, lastCall u (x :: h) = lastCall u h := fun u => rfl
  have hsub : ∀ y ∈ marks hd h, y ∈ marks hd (x :: h) := fun y hy => List.mem_append_right _ hy
  -- the marks of this step are the newest, and all of them belong to thread `t`
  refine ⟨hopen, hword, hmarked, ?_, ?_, ?_, ?_⟩
  · intro y hy
    rcases List.mem_append.mp hy with hy | hy
    · rw [marksOf_id hy]
      exact Nat.lt_succ_of_le (lastCall_le t h)
    · exact Nat.lt_succ_of_lt (hi.times y hy)
  · intro u prev w hpc
    rw [Sys.after_pc] at hpc
    split at hpc
    · exact hpulse prev w hpc
    · exact hi.pulses u prev w hpc
  · intro u e he hres
    rw [Sys.after_pc] at he hres
    split at he
    · rename_i hu
      subst hu
      rw [if_pos rfl] at hres
      obtain ⟨he₀, hres₀⟩ := hpend e he hres
      obtain ⟨hcall, hno⟩ := hi.pending u e he₀ hres₀
      refine ⟨hsub _ hcall, fun op r hmem => ?_⟩
      rcases List.mem_append.mp hmem with hmem | hmem
      · -- an undecided call adds no mark
        have hundecided : pc'.decided hd = none := by
          simp [Pc.decided, hres]
        simp [marksOf, hx, hundecided] at hmem
      · exact hno op r hmem
    · rename_i hu
      rw [if_neg hu] at hres
      obtain ⟨hcall, hno⟩ := hi.pending u e he hres
      refine ⟨hsub _ hcall, fun op r hmem => ?_⟩
      rcases List.mem_append.mp hmem with hmem | hmem
      · exact hu (congrArg Prod.fst (marksOf_id hmem))
      · exact hno op r hmem
  · intro u e r he hres hin
    rw [Sys.after_pc] at he hres hin
    split at he
    · rename_i hu
      subst hu
      rw [if_pos rfl] at hres hin
      exact hdec e r he hres hin
    · rename_i hu
      rw [if_neg hu] at hres hin
      exact hsub _ (hi.decided u e r he hres hin)

section Tick

variable {t : T} {o : Oracle} {ins : Instr} {pc' : Pc} {b : Bool} {e : EventOp}

omit [DecidableEq T] in
/-- A pulse that is about to store has read a well-formed word. -/
theorem LinInv.pulse_word (hg : PcGo s.toShared (s.threads t).pid o (s.threads t).pc ins pc')
    (hw : (s.region.slots (handleIndex hd)).w0 = packEvent b m) :
    ∀ prev w, pc' = .pulse hd (.storeW prev w) → ∃ b, w = packEvent b m := by
  rintro prev w rfl
  obtain ⟨p₀, _, hgo⟩ := hg.of_pulse
  cases hgo with
  | loadW => exact ⟨b, hw⟩

/-- A step without a mark that leaves the word alone. -/
theorem LinInv.tick_silent (hi : LinInv hd m b₀ h s)
    (hopen : OpenInv (handleIndex hd) (handleGen hd) .event (s.after t ins pc'))
    (hg : PcGo s.toShared (s.threads t).pid o (s.threads t).pc ins pc')
    (hw : (s.region.slots (handleIndex hd)).w0 = packEvent b m)
    (hrep : replay (eventSpec m) b₀ (points (marks hd h)) = some b)
    (hw' : ((s.after t ins pc').region.slots (handleIndex hd)).w0 = packEvent b m)
    (hundecided : pc'.decided hd = none)
    (hpend : ∀ e, pc'.eventOp hd = some e → pc'.result = none →
      (s.threads t).pc.eventOp hd = some e ∧ (s.threads t).pc.result = none) :
    LinInv hd m b₀ (⟨s, .instr t (s.threads t).pid ins, s.after t ins pc'⟩ :: h)
      (s.after t ins pc') := by
  have hmarks : marksOf hd h ⟨s, .instr t (s.threads t).pid ins, s.after t ins pc'⟩ = [] := by
    simp [marksOf, hundecided]
  refine hi.tick hopen ⟨b, hw', ?_⟩ ?_ (LinInv.pulse_word hg hw) hpend (fun e r he hr => ?_)
  · rw [hmarks]
    exact hrep
  · rw [hmarks]
    exact hi.marked
  · simp [Pc.decided, he, hr] at hundecided

/-- A step of a decided call: it at most returns. -/
theorem LinInv.tick_decided {r : OpRet} (hi : LinInv hd m b₀ h s)
    (hopen : OpenInv (handleIndex hd) (handleGen hd) .event (s.after t ins pc'))
    (hg : PcGo s.toShared (s.threads t).pid o (s.threads t).pc ins pc')
    (hw : (s.region.slots (handleIndex hd)).w0 = packEvent b m)
    (hrep : replay (eventSpec m) b₀ (points (marks hd h)) = some b)
    (hw' : ((s.after t ins pc').region.slots (handleIndex hd)).w0 = packEvent b m)
    (he : (s.threads t).pc.eventOp hd = some e) (hres : (s.threads t).pc.result = some r) :
    LinInv hd m b₀ (⟨s, .instr t (s.threads t).pid ins, s.after t ins pc'⟩ :: h)
      (s.after t ins pc') := by
  obtain ⟨he', hres', _⟩ := hg.decided he hres
  have hp := hi.decided t e r he hres hg.inside
  have hmarks : marksOf hd h ⟨s, .instr t (s.threads t).pid ins, s.after t ins pc'⟩ =
      if pc'.outside then [.ret (t, lastCall t h) r] else [] := by
    simp [marksOf, Pc.decided, he', hres', hres]
  refine hi.tick hopen ⟨b, hw', ?_⟩ ?_ (LinInv.pulse_word hg hw) (fun e' _ h' => ?_)
    (fun e' r' h₁ h₂ _ => ?_)
  · rw [hmarks]
    split
    · exact hrep
    · exact hrep
  · rw [hmarks]
    split
    · exact hi.marked.ret hp
    · exact hi.marked
  · rw [hres'] at h'
    cases h'
  · rw [he'] at h₁
    rw [hres'] at h₂
    cases h₁
    cases h₂
    exact List.mem_append_right _ hp

/-- The linearization point of a call. -/
theorem LinInv.tick_point (hi : LinInv hd m b₀ h s)
    (hopen : OpenInv (handleIndex hd) (handleGen hd) .event (s.after t ins pc'))
    (hg : PcGo s.toShared (s.threads t).pid o (s.threads t).pc ins pc')
    (hw : (s.region.slots (handleIndex hd)).w0 = packEvent b m)
    (hrep : replay (eventSpec m) b₀ (points (marks hd h)) = some b)
    (hw' : ((s.after t ins pc').region.slots (handleIndex hd)).w0 =
      packEvent (eventSpec m b e).1 m)
    (he : (s.threads t).pc.eventOp hd = some e) (hres : (s.threads t).pc.result = none)
    (he' : pc'.eventOp hd = some e) (hres' : pc'.result = some (eventSpec m b e).2) :
    LinInv hd m b₀ (⟨s, .instr t (s.threads t).pid ins, s.after t ins pc'⟩ :: h)
      (s.after t ins pc') := by
  obtain ⟨hcall, hno⟩ := hi.pending t e he hres
  have hmarks : marksOf hd h ⟨s, .instr t (s.threads t).pid ins, s.after t ins pc'⟩ =
      (if pc'.outside then [.ret (t, lastCall t h) (eventSpec m b e).2] else []) ++
        [.point (t, lastCall t h) e (eventSpec m b e).2] := by
    simp [marksOf, Pc.decided, he', hres', hres]
  have hpt : Marked (.point (t, lastCall t h) e (eventSpec m b e).2 :: marks hd h) :=
    hi.marked.point hcall hno
  have hreplay : replay (eventSpec m) b₀ (points
      (.point (t, lastCall t h) e (eventSpec m b e).2 :: marks hd h)) =
      some (eventSpec m b e).1 := by
    rw [points_point, replay_append hrep]
    simp [replay]
  refine hi.tick hopen ⟨(eventSpec m b e).1, hw', ?_⟩ ?_ (LinInv.pulse_word hg hw)
    (fun e' _ h' => ?_) (fun e' r' h₁ h₂ _ => ?_)
  · rw [hmarks, List.append_assoc]
    split
    · exact hreplay
    · exact hreplay
  · rw [hmarks, List.append_assoc]
    split
    · exact hpt.ret (List.mem_cons_self ..)
    · exact hpt
  · rw [hres'] at h'
    cases h'
  · rw [he'] at h₁
    rw [hres'] at h₂
    cases h₁
    cases h₂
    refine List.mem_append_left _ ?_
    rw [hmarks]
    exact List.mem_append_right _ (List.mem_singleton.mpr rfl)

/-- What an undecided call on an open event does next. -/
theorem LinInv.takes {calls : U64} (hi : LinInv hd m b₀ h s)
    (ht : Ntsync.tick o s.toShared (s.threads t).pid calls (s.threads t).pc = some (ins, pc'))
    (hf : PulseFinds (handleIndex hd) s (.instr t (s.threads t).pid ins))
    (hw : (s.region.slots (handleIndex hd)).w0 = packEvent b m)
    (he : (s.threads t).pc.eventOp hd = some e) (hres : (s.threads t).pc.result = none) :
    Takes hd (handleIndex hd) e b m ins pc' := by
  have hholds := hi.isOpen.holds
  cases hpc : (s.threads t).pc with
  | op hd' op p =>
    rw [hpc] at ht he hres
    obtain rfl : hd' = hd := by
      by_contra hne
      simp [Pc.eventOp, Call.eventOp, hne] at he
    exact opTick_takes ht hholds hw (by simpa [Pc.eventOp, Call.eventOp] using he) hres
  | pulse hd' p =>
    have hpull := hi.pulses t
    rw [hpc] at ht he hres hpull
    obtain rfl : hd' = hd := by
      by_contra hne
      simp [Pc.eventOp, Call.eventOp, hne] at he
    obtain rfl : e = .pulse := by
      simpa [Pc.eventOp, Call.eventOp] using he.symm
    refine pulseTick_takes ht hholds hres ?_
    cases p with
    | storeW prev w =>
      cases ht
      have hprev := hf rfl
      rw [hpc, hw, lo32_packEvent] at hprev
      exact ⟨by simpa [Pc.pulsePrev] using hprev, hpull prev w rfl⟩
    | _ => trivial
  | _ =>
    rw [hpc] at he ht
    first | cases he | cases ht

end Tick

/-- **Step lemma.** The points of the operations stay a linearization. -/
theorem LinInv.step {x : Trans (Sys T) (Label T)} (hi : LinInv hd m b₀ h s)
    (htr : traced Sys.step s act = some (s', x)) (hu : Stays (handleIndex hd) s')
    (hcl : Unclaimed (handleIndex hd) x.label) (hf : PulseFinds (handleIndex hd) s x.label) :
    LinInv hd m b₀ (x :: h) s' := by
  obtain ⟨l, hs, rfl⟩ := traced_eq_some.mp htr
  have hopen := hi.isOpen.step hs hu
  obtain ⟨b, hw, hrep⟩ := hi.word
  cases Sys.step_inv hs with
  | @call t c ha hout => exact hi.call hopen
  | @tick t o ins pc' ha ht =>
    have hg := tick_inv ht
    obtain ⟨hw', _⟩ := hi.isOpen.after_word ha hg hu
    rw [hw] at hw'
    cases he : (s.threads t).pc.eventOp hd with
    | none =>
      have he' := hg.eventOp he
      rw [hg.others (hi.isOpen.valid t) he hcl] at hw'
      refine hi.tick_silent hopen hg hw hrep hw' (by simp [Pc.decided, he']) (fun e h' => ?_)
      rw [he'] at h'
      cases h'
    | some e =>
      cases hres : (s.threads t).pc.result with
      | some r =>
        obtain ⟨_, _, hsame⟩ := hg.decided he hres
        rw [hsame] at hw'
        exact hi.tick_decided hopen hg hw hrep hw' he hres
      | none =>
        obtain ⟨he', ⟨hres', hsame⟩ | ⟨hres', hnew⟩⟩ := hi.takes ht hf hw he hres
        · rw [hsame] at hw'
          refine hi.tick_silent hopen hg hw hrep hw' (by simp [Pc.decided, hres'])
            (fun e'' h' _ => ⟨?_, hres⟩)
          rw [he'] at h'
          rw [he, h']
        · rw [hnew] at hw'
          exact hi.tick_point hopen hg hw hrep hw' he hres he' hres'
  | @die pid =>
    exact ⟨hopen, ⟨b, hw, hrep⟩, hi.marked, fun y hy => Nat.lt_succ_of_lt (hi.times y hy),
      hi.pulses, hi.pending, hi.decided⟩

/-- **Event signalling is linearizable.** In every run that starts with no call under way, in which
    the event behind `hd` stays open, no wait takes its signal, and every pulse finds the signaled
    bit it read: some sequential order of the calls that respects real time explains all returned
    values and the final state. -/
theorem events_linearizable {s₀ : Sys T} (hidle : s₀.Idle)
    (hu : (s₀.region.slots (handleIndex hd)).state = .used)
    (hgen : (s₀.region.slots (handleIndex hd)).generation = handleGen hd)
    (hty : (s₀.region.slots (handleIndex hd)).objType = .event)
    (hw : (s₀.region.slots (handleIndex hd)).w0 = packEvent b₀ m)
    (hr : Run (traced Sys.step) (fun s x s' => Stays (handleIndex hd) s' ∧
      Unclaimed (handleIndex hd) x.label ∧ PulseFinds (handleIndex hd) s x.label) s₀ h s) :
    ∃ b lin, (s.region.slots (handleIndex hd)).w0 = packEvent b m ∧
      Linearizes (eventSpec m) b₀ b (eventHistory hd h) lin := by
  have hopen := OpenInv.of_idle hidle hu
  rw [hgen, hty] at hopen
  have hstart : LinInv hd m b₀ [] s₀ := by
    refine ⟨hopen, ⟨b₀, hw, rfl⟩, .nil, fun _ hx => (by cases hx), fun t prev w hpc => ?_,
      fun t e he hres => ?_, fun t e r _ _ hin => ?_⟩
    · have hout := hidle t
      rw [hpc] at hout
      cases hout
    · rcases Pc.outside_cases (hidle t) with hpc | ⟨c, r, hpc⟩
      · rw [hpc] at he
        cases he
      · rw [hpc] at he hres
        cases r with
        | op => cases hres
        | _ => cases he
    · rw [hidle t] at hin
      cases hin
  have hinv : LinInv hd m b₀ h s :=
    hr.invariant (I := LinInv hd m b₀) hstart
      (fun h s a s' x hi hs hok => hi.step hs hok.1 hok.2.1 hok.2.2)
  obtain ⟨b, hb, hrep⟩ := hinv.word
  refine ⟨b, points (marks hd h), hb, ?_⟩
  rw [← marks_ev]
  exact hinv.marked.linearizes hrep

instance (i : Nat) (s : Sys T) : (l : Label T) → Decidable (PulseFinds i s l)
  | .instr t _ (.word _ j .pulse _) =>
    inferInstanceAs (Decidable (j = i →
      (s.threads t).pc.pulsePrev = some (lo32 (s.region.slots i).w0)))
  | .instr _ _ (.word _ _ (.op _) _) | .instr _ _ (.word _ _ (.acquire _ _) _)
  | .instr _ _ (.word _ _ (.rollback _) _) | .instr _ _ .silent | .instr _ _ .lock
  | .instr _ _ .unlock | .instr _ _ (.storeD _ _) | .instr _ _ .allocNode
  | .instr _ _ (.register _ _ _) | .instr _ _ (.detach _) | .instr _ _ (.freeNode _)
  | .instr _ _ (.bump _) | .instr _ _ (.takeSlot _) | .instr _ _ (.store _ _)
  | .instr _ _ (.reap _) | .instr _ _ (.hold _ _) | .instr _ _ (.claim _) | .instr _ _ .countCall
  | .call _ _ | .die _ => isTrue trivial

omit [DecidableEq T] in
instance (i : Nat) : (l : Label T) → Decidable (Unclaimed i l)
  | .instr _ _ ins => inferInstanceAs (Decidable (ins.claims i = false))
  | .call _ _ | .die _ => isTrue trivial

end Linearization

/-! ### A pulse that overtakes a set -/

/-- Thread 0 pulses event 2, up to its store. -/
def pulseUpToStore : List (Action (Fin 2)) :=
  .call 0 (.pulse 2) :: List.replicate 6 (.tick 0 {})

/-- Meanwhile thread 1 reads the event; then the pulse stores and returns, and thread 1 sets the
    event. -/
def readMeanwhile : List (Action (Fin 2)) :=
  pulseUpToStore ++ .call 1 (.op 2 .readEvent) :: List.replicate 4 (.tick 1 {}) ++
    List.replicate 4 (.tick 0 {}) ++ .call 1 (.op 2 .eventSet) :: List.replicate 6 (.tick 1 {})

/-- The calls of the schedule have a sequential order. -/
theorem events_linearizable_readMeanwhile :
    ∃ h s, Run (traced Sys.step) (fun s x s' => Stays 2 s' ∧ Unclaimed 2 x.label ∧
        PulseFinds 2 s x.label) eventDemo h s ∧ (eventHistory 2 h).length = 6 ∧
      ∃ b lin, (s.region.slots 2).w0 = packEvent b false ∧
        Linearizes (eventSpec false) false b (eventHistory 2 h) lin := by
  obtain ⟨h, s, hr, hlen⟩ := exists_history_of_exec (traced Sys.step)
    (fun s x s' => Stays 2 s' ∧ Unclaimed 2 x.label ∧ PulseFinds 2 s x.label)
    eventDemo (P := fun h _ => (eventHistory 2 h).length = 6) readMeanwhile
    (by decide +kernel)
  exact ⟨h, s, hr, hlen, events_linearizable (fun _ => rfl)
    (show (eventDemo.region.slots (handleIndex 2)).state = .used by decide) (by decide) (by decide)
    (by decide) hr⟩

/-- The calls of the race. -/
def eventCalls : Fin 2 → Call → Bool
  | _, c => (c.eventOp 2).isSome

/-- Meanwhile thread 1 sets the event; then the pulse stores. -/
def setMeanwhile : List (Action (Fin 2)) :=
  pulseUpToStore ++ .call 1 (.op 2 .eventSet) :: List.replicate 6 (.tick 1 {}) ++
    List.replicate 4 (.tick 0 {})

/-- Both calls report that the event was not signaled before, and it ends unsignaled: no order of
    the two explains that. -/
theorem pulse_erases_set :
    eventDemo.Idle ∧ (eventDemo.region.slots 2).state = .used ∧
      (eventDemo.region.slots 2).objType = .event ∧
      (eventDemo.region.slots 2).w0 = packEvent false false ∧
      ∃ h s, Run (traced Sys.step)
          (fun _ x s' => Stays 2 s' ∧ Only (fun t c => eventCalls t c = true) x.label)
          eventDemo h s ∧
        ¬ ∃ b lin, (s.region.slots 2).w0 = packEvent b false ∧
          Linearizes (eventSpec false) false b (eventHistory 2 h) lin := by
  refine ⟨fun _ => rfl, by decide, by decide, by decide, ?_⟩
  obtain ⟨h, s, hr, hh, hw⟩ := exists_history_of_exec (traced Sys.step)
    (fun _ x s' => Stays 2 s' ∧ Only (fun t c => eventCalls t c = true) x.label)
    eventDemo
    (P := fun h s => eventHistory 2 h = [.ret (0, 0) (prevState false),
      .ret (1, 7) (prevState false), .call (1, 7) .set, .call (0, 0) .pulse] ∧
      (s.region.slots 2).w0 = packEvent false false) setMeanwhile (by decide +kernel)
  refine ⟨h, s, hr, ?_⟩
  rintro ⟨b, lin, hb, hlin⟩
  obtain rfl : b = false := by
    rw [hw] at hb
    cases b with
    | false => rfl
    | true => exact absurd hb (by decide)
  rw [hh] at hlin
  -- the order is made of the two calls, with the results they returned
  have hcall : ∀ e ∈ lin, e.id = (0, 0) ∧ e.op = .pulse ∨ e.id = (1, 7) ∧ e.op = .set := by
    intro e he
    have hc := hlin.called e he
    simp only [List.mem_cons, reduceCtorEq, Ev.call.injEq, List.not_mem_nil, false_or,
      or_false] at hc
    exact hc.symm
  have hpulse : ⟨(0, 0), .pulse, prevState false⟩ ∈ lin := by
    obtain ⟨op, hop⟩ := hlin.returned (0, 0) (prevState false) (by simp)
    rcases hcall _ hop with ⟨_, rfl⟩ | ⟨hid, _⟩
    · exact hop
    · cases hid
  have hset : ⟨(1, 7), .set, prevState false⟩ ∈ lin := by
    obtain ⟨op, hop⟩ := hlin.returned (1, 7) (prevState false) (by simp)
    rcases hcall _ hop with ⟨hid, _⟩ | ⟨_, rfl⟩
    · cases hid
    · exact hop
  have hall : ∀ e ∈ lin, e = ⟨(0, 0), .pulse, prevState false⟩ ∨
      e = ⟨(1, 7), .set, prevState false⟩ := by
    intro e he
    rcases hcall e he with ⟨hid, _⟩ | ⟨hid, _⟩
    · exact .inl (List.inj_on_of_nodup_map hlin.nodup he hpulse hid)
    · exact .inr (List.inj_on_of_nodup_map hlin.nodup he hset hid)
  have hrep := hlin.replays
  -- the pulse first: the event ends signaled; the set first: the pulse reports it
  rcases hlin.eq_pair hpulse hset (by decide) hall with rfl | rfl
  · exact absurd hrep (by decide)
  · exact absurd hrep (by decide)

end Ntsync
