import Mathlib
import Ntsync.Nodes

namespace Ntsync

open Words Lts

/-!
# What a wait-any takes, and what it leaves behind

One call of `wait_any` among any calls of other threads, read off its history.

* `during t` — the steps of the whole system since thread `t` entered its latest call, up to the
  return of that call;
* `Took` — which words the call stored to: the one of the object it reports, or none;
* `nodeBook` — the nodes the call allocated, each with what was seen whenever it was freed since;
* `TakesInv`, `BookInv` — the invariants; `wait_any_takes` assembles them.
-/

variable {T : Type}

/-! ### Reading the history of one call -/

/-- A step with the states around it. -/
abbrev Occurrence (T : Type) := Trans (Sys T) (Label T)

/-- Among the steps `w`, those of thread `t` change no object's word or pulse counter. -/
def KeepsWords (t : T) (w : List (Occurrence T)) : Prop :=
  ∀ x ∈ w, ∀ pid ins, x.label = .instr t pid ins → ∀ i,
    (x.after.region.slots i).w0 = (x.before.region.slots i).w0 ∧
      (x.after.region.slots i).d = (x.before.region.slots i).d

/-- In this step position `k` of the wait satisfied it without a store: an event that is signaled
    and not auto-reset, or one whose pulse counter has left the snapshot. -/
def SatisfiedBare (t : T) (a : WaitArgs) (k : Nat) (x : Occurrence T) : Prop :=
  ∃ c q, (x.before.threads t).pc.sat? = some (c, .any k q) ∧ c.toWaitArgs = a ∧
    let s := x.before.region.slots (a.slotOf k)
    (q = .event ∧ lo32 s.w0 ≠ 0 ∧ s.w0 >>> 32 ≠ 0 ∨ q = .pulse ∧ s.d ≠ c.seqs k)

/-- What a wait-any with the outcome `r` has stored to, in the steps `w` of its call. -/
def Took (t : T) (a : WaitArgs) (w : List (Occurrence T)) : WaitOutcome → Prop
  | .signaled k od =>
    k < a.handles.length ∧
      ((∃ late x early pid new, w = late ++ x :: early ∧
          x.label = .instr t pid (.word (a.handle k) (a.slotOf k) (.acquire a.owner od) new) ∧
          KeepsWords t late ∧ KeepsWords t early) ∨
        od = false ∧ KeepsWords t w ∧ ∃ x ∈ w, SatisfiedBare t a k x) ∨
    k = a.handles.length ∧ od = false ∧ KeepsWords t w
  | .timeout | .invalid => KeepsWords t w

section History

variable [DecidableEq T]

/-- What happened while thread `t` was in its latest call, newest first. -/
def during (t : T) : List (Occurrence T) → List (Occurrence T)
  | [] => []
  | x :: h =>
    match x.label with
    | .call u _ =>
      if u = t then []
      else if (x.before.threads t).pc.outside then during t h else x :: during t h
    | _ => if (x.before.threads t).pc.outside then during t h else x :: during t h

/-- The nodes that thread `t` allocated, in order; each with one entry for every time it was freed
    since, by whomever: whether it was still registered then. -/
def nodeBook (t : T) : List (Occurrence T) → List (Nat × List Bool)
  | [] => []
  | x :: w =>
    match x.label with
    | .instr u pid .allocNode =>
      if u = t then
        match x.before.region.nodeAlloc pid with
        | some (n, _) => nodeBook t w ++ [(n, [])]
        | none => nodeBook t w
      else nodeBook t w
    | .instr _ _ (.freeNode n) =>
      (nodeBook t w).map fun e =>
        if e.1 = n then (e.1, (x.before.region.nodes n).registered :: e.2) else e
    | _ => nodeBook t w

end History

/-! ### The stores of a wait -/

section Stores

variable {o : Oracle} {sh : Shared T} {pid : U32} {ins : Instr} {pc pc' : Pc}

/-- The instructions that store to the word or the pulse counter of an object. -/
def Instr.touches : Instr → Bool
  | .word _ _ _ _ | .storeD _ _ | .store _ (.w0 _) | .store _ (.d _) => true
  | _ => false

/-- A sweep touches no word. -/
theorem Instr.touches_of_sweeps (h : ins.sweeps = true) : ins.touches = false := by
  cases ins with
  | store i w => cases w <;> first | rfl | cases h
  | _ => first | rfl | cases h

/-- What a wait does outside of its attempts touches no word. -/
theorem Instr.touches_of_waits (h : ins.waits = true) : ins.touches = false := by
  cases ins <;> first | rfl | cases h

/-- All other instructions leave words and counters alone. -/
theorem Instr.apply_keeps (t : T) (pid : U32) (sh : Shared T) (h : ins.touches = false) (i : Nat) :
    ((ins.apply t pid sh).region.slots i).w0 = (sh.region.slots i).w0 ∧
      ((ins.apply t pid sh).region.slots i).d = (sh.region.slots i).d := by
  obtain ⟨hd, he⟩ := ins.apply_slot t pid sh i
  rw [he]
  cases ins with
  | word | storeD => cases h
  | store j w =>
    simp only [Instr.slotAfter]
    split
    · cases w <;> first | exact ⟨rfl, rfl⟩ | cases h
    · exact ⟨rfl, rfl⟩
  | reap j =>
    simp only [Instr.slotAfter]
    split <;> exact ⟨rfl, rfl⟩
  | _ => exact ⟨rfl, rfl⟩

/-- Only a wait becomes, or ends, a wait. -/
theorem PcGo.args_back {a : WaitArgs} (hg : PcGo sh pid o pc ins pc') (h : pc'.args? = some a) :
    ∃ c p, pc = .wait c p ∧ c.toWaitArgs = a := by
  cases hg with
  | @wait c p _ _ hg =>
    rcases hg.args with rfl | ha
    · cases h
    · exact ⟨c, p, rfl, Option.some.inj (ha.symm.trans h)⟩
  | op hg => cases hg <;> cases h
  | pulse hg => cases hg <;> cases h
  | create hg => cases hg <;> cases h
  | close hg => cases hg <;> cases h
  | hold hg => cases hg <;> cases h
  | sweepDead hg => cases hg <;> cases h

/-- An acquire that succeeds without a store saw an event, set or pulsed. -/
theorem Acq.step_bare {s : Slot} {owner : U32} {seq : U64} {q : Acq} {od : Bool}
    (h : q.step s owner seq = (none, .done (some od))) :
    od = false ∧ (q = .event ∧ lo32 s.w0 ≠ 0 ∧ s.w0 >>> 32 ≠ 0 ∨ q = .pulse ∧ s.d ≠ seq) := by
  cases q with
  | typ =>
    simp only [Acq.step] at h
    split at h <;> cases h
  | sem c =>
    simp only [Acq.step] at h
    split at h <;> cases h
    rename_i hc
    -- a semaphore or a mutex is never taken without a store
    rcases casStep_done hc with ⟨_, hb⟩ | ⟨new, hw, _⟩
    · unfold acquireSem at hb
      split at hb <;> cases hb
    · cases hw
  | mutex c =>
    simp only [Acq.step] at h
    split at h <;> cases h
    rename_i hc
    rcases casStep_done hc with ⟨_, hb⟩ | ⟨new, hw, _⟩
    · simp only [acquireMutex] at hb
      split at hb
      · cases hb
      · split at hb
        · cases hb
        · split at hb <;> cases hb
    · cases hw
  | event =>
    simp only [Acq.step] at h
    split at h
    · split at h <;> cases h
      exact ⟨rfl, .inl ⟨rfl, by assumption, by assumption⟩⟩
    · cases h
  | auto c =>
    simp only [Acq.step] at h
    split at h <;> cases h
    rename_i hc
    rcases casStep_done hc with ⟨_, hb⟩ | ⟨new, hw, _⟩
    · unfold acquireAuto at hb
      split at hb <;> cases hb
    · cases hw
  | pulse =>
    simp only [Acq.step] at h
    split at h <;> cases h
    exact ⟨rfl, .inr ⟨rfl, by assumption⟩⟩

end Stores

/-! ### What the call has taken -/

section Takes

variable [DecidableEq T] {t u : T} {s s' : Sys T} {h w : List (Occurrence T)} {a : WaitArgs}
  {ins : Instr} {pc' : Pc} {l : Label T}

/-- A step during the call is on its record. -/
theorem during_inside (hl : ∀ c, l ≠ .call t c) (hin : (s.threads t).pc.outside = false) :
    during t (⟨s, l, s'⟩ :: h) = ⟨s, l, s'⟩ :: during t h := by
  cases l with
  | call u c =>
    have hut : u ≠ t := by
      rintro rfl
      exact hl c rfl
    simp [during, hin, hut]
  | _ => simp [during, hin]

/-- A step outside of calls is not. -/
theorem during_outside (hl : ∀ c, l ≠ .call t c) (hout : (s.threads t).pc.outside = true) :
    during t (⟨s, l, s'⟩ :: h) = during t h := by
  cases l with
  | call u c =>
    have hut : u ≠ t := by
      rintro rfl
      exact hl c rfl
    simp [during, hout, hut]
  | _ => simp [during, hout]

/-- A call starts a new record. -/
theorem during_call (c : Call) : during t (⟨s, .call t c, s'⟩ :: h) = [] := by
  simp [during]

omit [DecidableEq T] in
/-- No step, no store. -/
theorem KeepsWords.nil (t : T) : KeepsWords t [] := by
  intro x hx
  cases hx

omit [DecidableEq T] in
/-- A step that is not of thread `t`. -/
theorem KeepsWords.cons_other (hk : KeepsWords t w) {x : Occurrence T}
    (hx : ∀ pid ins, x.label ≠ .instr t pid ins) : KeepsWords t (x :: w) := by
  intro y hy pid ins hl
  rcases List.mem_cons.mp hy with rfl | hy
  · exact absurd hl (hx pid ins)
  · exact hk y hy pid ins hl

variable (s pc') in
/-- A step of thread `t` that stores to no object. -/
theorem KeepsWords.cons_own (hk : KeepsWords t w) (hins : ins.touches = false) :
    KeepsWords t (⟨s, .instr t (s.threads t).pid ins, s.after t ins pc'⟩ :: w) := by
  intro y hy pid ins' hl
  rcases List.mem_cons.mp hy with rfl | hy
  · cases hl
    exact Instr.apply_keeps t _ s.toShared hins
  · exact hk y hy pid ins' hl

omit [DecidableEq T] in
/-- What was taken stays taken. -/
theorem Took.cons {x : Occurrence T} {r : WaitOutcome} (hr : Took t a w r)
    (hx : ∀ w, KeepsWords t w → KeepsWords t (x :: w)) : Took t a (x :: w) r := by
  cases r with
  | signaled k od =>
    rcases hr with ⟨hk, hacq | ⟨hod, hkeep, y, hy, hbare⟩⟩ | ⟨hk, hod, hkeep⟩
    · obtain ⟨late, y, early, pid, new, rfl, hl, hlate, hearly⟩ := hacq
      exact .inl ⟨hk, .inl ⟨x :: late, y, early, pid, new, rfl, hl, hx _ hlate, hearly⟩⟩
    · exact .inl ⟨hk, .inr ⟨hod, hx _ hkeep, y, List.mem_cons_of_mem _ hy, hbare⟩⟩
    · exact .inr ⟨hk, hod, hx _ hkeep⟩
  | timeout | invalid => exact hx _ hr

/-- What the call has taken so far: nothing before its outcome is settled. -/
def TookSoFar (t : T) (a : WaitArgs) (w : List (Occurrence T)) : Option WaitOutcome → Prop
  | some r => Took t a w r
  | none => KeepsWords t w

omit [DecidableEq T] in
/-- A step without a store of the wait leaves what it took. -/
theorem TookSoFar.cons {x : Occurrence T} {r : Option WaitOutcome} (hr : TookSoFar t a w r)
    (hx : ∀ w, KeepsWords t w → KeepsWords t (x :: w)) : TookSoFar t a (x :: w) r := by
  cases r with
  | none => exact hx _ hr
  | some r => exact Took.cons hr hx

/-- Every wait-any has taken what its outcome says, and nothing before. -/
def TakesInv (h : List (Occurrence T)) (s : Sys T) : Prop :=
  ∀ t a, (s.threads t).pc.args? = some a → a.all = false →
    TookSoFar t a (during t h) (s.threads t).pc.report

/-- One step of a wait-any. -/
theorem PcGo.takes {o : Oracle} {c : WaitCtx} {p : WaitPc}
    (hg : PcGo s.toShared (s.threads t).pid o (.wait c p) ins pc') (hpc : (s.threads t).pc = .wait c p)
    (hsh : (Pc.wait c p).Shape) (hall : c.all = false) (ha : pc'.args? = some c.toWaitArgs)
    (hi : TookSoFar t c.toWaitArgs w (Pc.wait c p).report) :
    TookSoFar t c.toWaitArgs (⟨s, .instr t (s.threads t).pid ins, s.after t ins pc'⟩ :: w)
      pc'.report := by
  cases hsat : p.sat? with
  | some q =>
    have hsome : (Pc.wait c p).sat? = some (c, q) := by simp [Pc.sat?, hsat]
    -- the outcome is open while `try_satisfy` runs
    have hopen : (Pc.wait c p).report = none := by
      cases p with
      | clean => cases hsat
      | _ => rfl
    rw [hopen] at hi
    obtain ⟨v, out, hst, rfl, -, hf⟩ := hg.sat hsome
    have hsilent (r : Option WaitOutcome) (hr : r = none ∨ r = some .timeout) (hv : v = none) :
        TookSoFar t c.toWaitArgs (⟨s, .instr t (s.threads t).pid (satInstr c.toWaitArgs v),
          s.after t (satInstr c.toWaitArgs v) pc'⟩ :: w) r := by
      subst hv
      rcases hr with rfl | rfl <;> exact KeepsWords.cons_own _ _ hi rfl
    have hmore {q' : Sat} (hq : pc'.sat? = some (c, q')) : pc'.report = none := by
      obtain ⟨p', rfl, hp'⟩ := Pc.sat_wait hq
      cases p' with
      | clean => cases hp'
      | _ => rfl
    obtain ⟨-, hshape⟩ := hsh
    have hq := hshape q hsat
    cases hst with
    | anyMore | anyNext => exact hsilent _ (.inl (hmore hf)) rfl
    | anyFail => exact hsilent _ hf.2 rfl
    | @anyWin k q v od hs =>
      rw [hf.2]
      refine .inl ⟨hq.1, ?_⟩
      cases v with
      | some new => exact .inl ⟨[], _, w, _, new, rfl, rfl, .nil t, hi⟩
      | none =>
        obtain ⟨rfl, hbare⟩ := Acq.step_bare hs
        refine .inr ⟨rfl, KeepsWords.cons_own _ _ hi rfl, _, List.mem_cons_self .., c, q, ?_, rfl, hbare⟩
        show (s.threads t).pc.sat? = _
        rw [hpc, hsome]
    | allMore | allTake | allWin | allFail | allUndo =>
      have hyes : c.all = true := hq.2.1
      rw [hall] at hyes
      cases hyes
    | undoNil | undoMore | undoLast | undoNext =>
      have hyes : c.all = true := hq.1
      rw [hall] at hyes
      cases hyes
  | none =>
    cases hg with
    | wait hg =>
      have hins : ins.touches = false := by
        rcases hg.plain_instr hsat with h | ⟨_, h⟩
        · exact Instr.touches_of_waits h
        · exact Instr.touches_of_sweeps h
      cases hrep : (Pc.wait c p).report with
      | some r =>
        rw [(PcGo.wait hg).report hrep]
        rw [hrep] at hi
        exact hi.cons fun _ hk => hk.cons_own _ _ hins
      | none =>
        rw [hrep] at hi
        have hkeep := KeepsWords.cons_own s pc' hi hins
        -- at most an outcome without acquisition is settled
        rcases (hg.plain hsat).report with h | h | h | h
        · rw [h, hrep]
          exact hkeep
        · rw [h]
          exact hkeep
        · rw [h]
          exact hkeep
        · rw [h]
          exact .inr ⟨rfl, rfl, hkeep⟩

omit [DecidableEq T] in
/-- A call starts with nothing taken. -/
theorem Pc.start_takes {c : Call} (ha : (Pc.start c).args? = some a) :
    TookSoFar t a [] (Pc.start c).report := by
  cases c with
  | wait b timeout =>
    simp only [Pc.start] at ha ⊢
    split <;> exact .nil t
  | op | create | close | hold =>
    simp only [Pc.start] at ha
    split at ha <;> cases ha
  | pulse | sweepDead => cases ha

/-- **Every step keeps the record of what was taken.** -/
theorem TakesInv.step {x : Occurrence T} {act : Action T} (hi : TakesInv h s) (hsh : ShapeInv s)
    (hx : traced Sys.step s act = some (s', x)) : TakesInv (x :: h) s' := by
  obtain ⟨l, hs, rfl⟩ := traced_eq_some.mp hx
  intro u b hargs hall
  -- the step of another thread, or a death
  have hother (hl : ∀ pid ins, l ≠ .instr u pid ins) (hc : ∀ c, l ≠ .call u c)
      (hpc : (s'.threads u).pc = (s.threads u).pc) :
      TookSoFar u b (during u (⟨s, l, s'⟩ :: h)) (s'.threads u).pc.report := by
    rw [hpc] at hargs ⊢
    have hold := hi u b hargs hall
    cases hin : (s.threads u).pc.outside with
    | true => rwa [during_outside hc hin]
    | false =>
      rw [during_inside hc hin]
      exact hold.cons fun _ hk => hk.cons_other hl
  cases Sys.step_inv hs with
  | @call t c ha hout =>
    by_cases hut : u = t
    · subst hut
      rw [Sys.entered_pc, if_pos rfl] at hargs ⊢
      rw [during_call]
      exact Pc.start_takes hargs
    · refine hother (fun _ _ he => by cases he) (fun c' he => ?_) ?_
      · cases he
        exact hut rfl
      · rw [Sys.entered_pc, if_neg hut]
  | @tick t o ins pc' ha ht =>
    by_cases hut : u = t
    · subst hut
      rw [Sys.after_pc, if_pos rfl] at hargs ⊢
      have hg := tick_inv ht
      rw [during_inside (by nofun) hg.inside]
      obtain ⟨c, p, hpc, rfl⟩ := hg.args_back hargs
      have hold := hi u c.toWaitArgs (by rw [hpc]; rfl) hall
      have hshape := hsh u
      rw [hpc] at hold hshape hg
      exact hg.takes hpc hshape hall hargs hold
    · refine hother (fun _ _ he => ?_) (by nofun) ?_
      · cases he
        exact hut rfl
      · rw [Sys.after_pc, if_neg hut]
  | die => exact hother (fun _ _ he => by cases he) (by nofun) rfl

end Takes

/-! ### What becomes of the nodes -/

/-- The wait is giving its nodes back, or has done so. -/
def Pc.givesBack : Pc → Bool
  | .wait _ (.clean _ (.free _)) | .wait _ (.clean _ .unlock) | .done _ _ => true
  | _ => false

/-- The book of a wait: the nodes it has given back, each freed once and not registered then, and
    those it still owns, never freed. -/
def Booked (pc : Pc) (book : List (Nat × List Bool)) : Prop :=
  ∃ given, (given ++ pc.waitNodes).Nodup ∧ (given ≠ [] → pc.givesBack = true) ∧
    book = given.map (fun n => (n, [false])) ++ pc.waitNodes.map (fun n => (n, []))

section Book

variable {o : Oracle} {sh : Shared T} {pid : U32} {ins : Instr} {pc pc' : Pc}
  {book : List (Nat × List Bool)} {n : Nat}

/-- The entry of a freed node gets one more mark. -/
def markFreed (n : Nat) (registered : Bool) (book : List (Nat × List Bool)) :
    List (Nat × List Bool) :=
  book.map fun e => if e.1 = n then (e.1, registered :: e.2) else e

/-- Before the first node is given back nothing is. -/
theorem Booked.open (h : Booked pc book) (hno : pc.givesBack = false) :
    pc.waitNodes.Nodup ∧ book = pc.waitNodes.map (fun n => (n, [])) := by
  obtain ⟨given, hnd, hgiven, rfl⟩ := h
  have hnil : given = [] := by
    by_contra hne
    rw [hgiven hne] at hno
    cases hno
  subst hnil
  exact ⟨hnd, rfl⟩

/-- The nodes of an open wait are on the book. -/
theorem Booked.of_open (hnd : pc.waitNodes.Nodup)
    (h : book = pc.waitNodes.map (fun n => (n, []))) : Booked pc book :=
  ⟨[], hnd, fun hne => absurd rfl hne, h⟩

/-- A step that leaves the nodes of the wait leaves the book. -/
theorem Booked.keep (h : Booked pc book) (hw : pc'.waitNodes = pc.waitNodes)
    (hg : pc.givesBack = true → pc'.givesBack = true) : Booked pc' book := by
  obtain ⟨given, hnd, hgiven, hbook⟩ := h
  rw [← hw] at hnd hbook
  exact ⟨given, hnd, fun hne => hg (hgiven hne), hbook⟩

/-- Freeing somebody else's node leaves the book alone. -/
theorem markFreed_other {l : List Nat} {v : List Bool} (b : Bool) (h : n ∉ l) :
    markFreed n b (l.map fun m => (m, v)) = l.map fun m => (m, v) := by
  unfold markFreed
  rw [List.map_map]
  refine List.map_congr_left fun m hm => ?_
  have hmn : m ≠ n := by
    rintro rfl
    exact h hm
  exact if_neg hmn

/-- Freeing one of the wait's own nodes. -/
theorem Booked.free {c : WaitCtx} {out : WaitOutcome} {todo : List Nat}
    (h : Booked (.wait c (.clean out (.free (n :: todo)))) book) :
    Booked (.wait c (.clean out (.free todo))) (markFreed n false book) := by
  obtain ⟨given, hnd, -, rfl⟩ := h
  change (given ++ n :: todo).Nodup at hnd
  have hperm : given ++ [n] ++ todo = given ++ n :: todo := by simp
  obtain ⟨hgiven, htodo, hne⟩ := List.nodup_append.mp hnd
  have hng : n ∉ given := fun hm => hne n hm n (List.mem_cons_self ..) rfl
  have hnt : n ∉ todo := (List.nodup_cons.mp htodo).1
  refine ⟨given ++ [n], ?_, fun _ => rfl, ?_⟩
  · show (given ++ [n] ++ todo).Nodup
    rw [hperm]
    exact hnd
  · show markFreed n false (given.map (fun m => (m, [false])) ++ (n :: todo).map (fun m => (m, [])))
      = (given ++ [n]).map (fun m => (m, [false])) ++ todo.map (fun m => (m, []))
    have hg := markFreed_other (v := [false]) false hng
    have ht := markFreed_other (v := []) false hnt
    unfold markFreed at hg ht ⊢
    rw [List.map_append, List.map_cons, List.map_cons, hg, ht]
    simp

/-- Who gives back its nodes goes on doing so. -/
theorem PcGo.givesBack (hg : PcGo sh pid o pc ins pc') (h : pc.givesBack = true) :
    pc'.givesBack = true := by
  cases hg with
  | wait hg =>
    cases hg with
    | clean hg =>
      cases hg with
      | lock | detach | detached => cases h
      | _ => rfl
    | _ => cases h
  | _ => cases h

/-- A wait that gives its nodes back holds the lock until it returns. -/
theorem Pc.locked_of_givesBack (h : pc.givesBack = true) (hin : pc.outside = false) :
    pc.locked = true := by
  unfold Pc.givesBack at h
  split at h
  · rfl
  · rfl
  · cases hin
  · cases h

end Book

section BookSteps

variable [DecidableEq T] {t u : T} {s s' : Sys T} {h w : List (Occurrence T)} {ins : Instr}
  {pc' : Pc} {l : Label T} {L : Nat → List Nat} {F : List Nat} {U : Nat → Prop}

/-- A node that is freed is closed in the book. -/
theorem nodeBook_free {pid : U32} {n : Nat} :
    nodeBook t (⟨s, .instr u pid (.freeNode n), s'⟩ :: w) =
      markFreed n (s.region.nodes n).registered (nodeBook t w) := rfl

/-- A step that neither allocates for the thread nor frees. -/
theorem nodeBook_keep (ha : ∀ pid, l ≠ .instr t pid .allocNode)
    (hf : ∀ u pid n, l ≠ .instr u pid (.freeNode n)) :
    nodeBook t (⟨s, l, s'⟩ :: w) = nodeBook t w := by
  cases l with
  | instr u pid ins =>
    cases ins with
    | allocNode =>
      have hut : u ≠ t := by
        rintro rfl
        exact ha pid rfl
      simp [nodeBook, hut]
    | freeNode n => exact absurd rfl (hf u pid n)
    | _ => rfl
  | _ => rfl

/-- **One step of a wait** and its book. -/
theorem PoolGo.booked {o : Oracle} (hp : PoolInv s L F U)
    (ha : s.dead (s.threads t).pid = false)
    (hg : PcGo s.toShared (s.threads t).pid o (s.threads t).pc ins pc')
    (hgo : PoolGo s.region (s.threads t).pid (s.threads t).pc ins pc')
    (hwait : ∃ c p, (s.threads t).pc = .wait c p) (hargs : pc' ≠ .panicked)
    (hi : Booked (s.threads t).pc (nodeBook t w)) :
    Booked pc' (nodeBook t (⟨s, .instr t (s.threads t).pid ins, s.after t ins pc'⟩ :: w)) := by
  have hown := hp.own t ha
  have hnodup := hp.nodup t ha
  have hknows := hp.knows t ha
  have hnew (n : Nat) (r' : Region) (hn : s.region.nodeAlloc (s.threads t).pid = some (n, r')) :
      n ∉ (s.threads t).pc.waitNodes := by
    obtain ⟨F', -, hal⟩ := hp.lists.alloc hn
    exact fun hm => hp.unowned hal ha (List.mem_append_left _ hm)
  generalize hpc : (s.threads t).pc = pc at hg hgo hwait hi hnodup hknows hnew
  -- what all other cases come to
  have hkeep (hins : (∀ n, ins ≠ .freeNode n) ∧ ins ≠ .allocNode)
      (hw : pc'.waitNodes = pc.waitNodes) :
      Booked pc' (nodeBook t (⟨s, .instr t (s.threads t).pid ins, s.after t ins pc'⟩ :: w)) := by
    rw [nodeBook_keep (fun _ he => hins.2 (by cases he; rfl))
      (fun _ _ n he => hins.1 n (by cases he; rfl))]
    exact hi.keep hw hg.givesBack
  cases hgo with
  | @alloc c n r' hn =>
    obtain ⟨hnd, hbook⟩ := hi.open rfl
    have hentry : nodeBook t (⟨s, .instr t (s.threads t).pid .allocNode,
        s.after t .allocNode (.wait (c.addNode n) (.pass (c.addNode n).allocNext))⟩ :: w) =
        nodeBook t w ++ [(n, [])] := by
      simp [nodeBook, hn]
    rw [hentry, hbook]
    refine .of_open ?_ ?_
    · show (c.nodes ++ [n]).Nodup
      refine List.nodup_append.mpr ⟨hnd, List.nodup_singleton n, fun m hm k hk => ?_⟩
      obtain rfl := List.mem_singleton.mp hk
      rintro rfl
      exact hnew m r' hn hm
    · show c.nodes.map _ ++ [(n, [])] = (c.nodes ++ [n]).map _
      rw [List.map_append]
      rfl
  | register => exact hkeep ⟨fun _ => nofun, nofun⟩ rfl
  | wake _ hw => exact hkeep ⟨fun _ => nofun, nofun⟩ hw
  | detach _ hcase =>
    refine hkeep ⟨fun _ => nofun, nofun⟩ ?_
    rcases hcase with ⟨k, rfl, _, hw⟩ | ⟨out, todo, rfl, rfl⟩
    · exact hw
    · rfl
  | reap _ _ _ _ hw => exact hkeep ⟨fun _ => nofun, nofun⟩ hw
  | @free c out n todo =>
    have hun : (s.region.nodes n).registered = false :=
      hknows.nodes c _ rfl n (List.mem_cons_self ..)
    rw [nodeBook_free, hun]
    exact hi.free
  | @reapFree _ _ auto st n judged hsw _ hw =>
    -- the reaped node is none of the wait's
    have hno : pc.givesBack = false := by
      unfold Pc.sweep? at hsw
      split at hsw <;> first | rfl | cases hsw
    obtain ⟨hnd, hbook⟩ := hi.open hno
    have hnw : n ∉ pc.waitNodes := by
      intro hm
      have hreap : n ∈ pc.reaped := by
        rw [Pc.reaped_sweep hsw]
        exact List.mem_singleton_self n
      exact (List.nodup_append.mp hnodup).2.2 n hm n hreap rfl
    rw [nodeBook_free, hbook, markFreed_other _ hnw, ← hw]
    exact .of_open (hw ▸ hnd) rfl
  | take =>
    obtain ⟨c, p, hp⟩ := hwait
    cases hp
  | other hins hw =>
    refine hkeep ⟨fun n he => ?_, fun he => ?_⟩ ?_
    · rw [he] at hins
      cases hins
    · rw [he] at hins
      cases hins
    · rcases hw with hw | ⟨hw, hpan | ⟨c, p, rfl⟩⟩
      · exact hw
      · exact absurd hpan hargs
      · -- the fast path has no nodes
        rw [hw]
        exact (hknows.nodes c _ rfl).symm

omit [DecidableEq T] in
/-- **Another thread frees a node**: it is none of the wait's. -/
theorem NodesInv.free_other {o : Oracle} {n : Nat} (hi : NodesInv s)
    (hua : s.dead (s.threads u).pid = false)
    (ht : tick o s.toShared (s.threads u).pid (s.threads u).calls (s.threads u).pc =
      some (.freeNode n, pc')) (hut : u ≠ t) (ha : s.dead (s.threads t).pid = false)
    (hin : (s.threads t).pc.outside = false) :
    (s.threads t).pc.givesBack = false ∧ n ∉ (s.threads t).pc.waitNodes := by
  obtain ⟨L, F, U, hp⟩ := hi.pool
  constructor
  · by_contra hne
    rw [Bool.not_eq_false] at hne
    have hgd := hi.table.lock.others hua ht (Ne.symm hut) ha (Pc.locked_of_givesBack hne hin)
    cases hgd
  · have hown : n ∈ (s.threads u).pc.owned := by
      have hgo := (tick_inv ht).pool
      generalize (s.threads u).pc = pc at hgo
      generalize hins : Instr.freeNode n = ins at hgo
      cases hgo with
      | free =>
        cases hins
        exact List.mem_append_left _ (List.mem_cons_self ..)
      | reapFree hsw =>
        cases hins
        refine List.mem_append_right _ ?_
        rw [Pc.reaped_sweep hsw]
        exact List.mem_singleton_self n
      | other hno =>
        rw [← hins] at hno
        cases hno
      | _ => cases hins
    exact fun hm => hut (hp.apart u t n hua ha hown (List.mem_append_left _ hm))

/-- The books of all waits are in order. -/
def BookInv (h : List (Occurrence T)) (s : Sys T) : Prop :=
  ∀ t a, (s.threads t).pc.args? = some a →
    (s.threads t).pc.outside = true ∨ s.dead (s.threads t).pid = false →
    Booked (s.threads t).pc (nodeBook t (during t h))

omit [DecidableEq T] in
/-- A call starts with no node. -/
theorem Pc.start_waitNodes (c : Call) : (Pc.start c).waitNodes = [] := by
  cases c <;> simp only [Pc.start] <;> (try split) <;> rfl

/-- **Every step keeps the book of the nodes.** -/
theorem BookInv.step {x : Occurrence T} {act : Action T} (hi : BookInv h s) (hn : NodesInv s)
    (hx : traced Sys.step s act = some (s', x)) : BookInv (x :: h) s' := by
  obtain ⟨l, hs, rfl⟩ := traced_eq_some.mp hx
  intro v b hargs halive
  cases Sys.step_inv hs with
  | @call t c ha hout =>
    rw [Sys.entered_pc] at hargs halive ⊢
    by_cases hvt : v = t
    · subst hvt
      rw [if_pos rfl, during_call]
      exact .of_open (by rw [Pc.start_waitNodes]; exact List.nodup_nil)
        (by rw [Pc.start_waitNodes]; rfl)
    · rw [if_neg hvt] at hargs halive ⊢
      rw [Sys.entered_dead, Sys.entered_pid] at halive
      have hold := hi v b hargs halive
      have hne : ∀ c', (Label.call t c : Label T) ≠ .call v c' := by
        rintro c' he
        cases he
        exact hvt rfl
      cases hin : (s.threads v).pc.outside with
      | true => rwa [during_outside hne hin]
      | false =>
        rw [during_inside hne hin, nodeBook_keep (by nofun) (by nofun)]
        exact hold
  | @tick t o ins pc' ha ht =>
    have hg := tick_inv ht
    obtain ⟨L, F, U, hp⟩ := hn.pool
    rw [Sys.after_pc] at hargs halive ⊢
    by_cases hvt : v = t
    · subst hvt
      rw [if_pos rfl] at hargs ⊢
      rw [during_inside (by nofun) hg.inside]
      obtain ⟨c, p, hpc, rfl⟩ := hg.args_back hargs
      refine PoolGo.booked hp ha hg hg.pool ⟨c, p, hpc⟩ ?_
        (hi v c.toWaitArgs (by rw [hpc]; rfl) (.inr ha))
      rintro rfl
      cases hargs
    · rw [if_neg hvt] at hargs halive ⊢
      rw [Sys.after_dead, Sys.after_pid] at halive
      have hold := hi v b hargs halive
      cases hin : (s.threads v).pc.outside with
      | true => rwa [during_outside (by nofun) hin]
      | false =>
        rw [during_inside (by nofun) hin]
        have hva : s.dead (s.threads v).pid = false := by
          rcases halive with h | h
          · rw [hin] at h
            cases h
          · exact h
        by_cases hfree : ∃ n, ins = .freeNode n
        · obtain ⟨n, rfl⟩ := hfree
          obtain ⟨hno, hnw⟩ := hn.free_other ha ht (Ne.symm hvt) hva hin
          obtain ⟨hnd, hbook⟩ := hold.open hno
          rw [nodeBook_free, hbook, markFreed_other _ hnw]
          exact .of_open hnd rfl
        · rw [nodeBook_keep (fun _ he => hvt (by cases he; rfl))
            (fun _ _ n he => hfree ⟨n, by cases he; rfl⟩)]
          exact hold
  | die =>
    have hold := hi v b hargs (halive.imp_right fun h => by
      rw [Sys.died_dead, Bool.or_eq_false_iff] at h
      exact h.2)
    show Booked (s.threads v).pc _
    cases hin : (s.threads v).pc.outside with
    | true => rwa [during_outside (by nofun) hin]
    | false =>
      rw [during_inside (by nofun) hin, nodeBook_keep (by nofun) (by nofun)]
      exact hold

/-- **A wait-any takes exactly what it reports and leaves nothing behind.** In every run of any
    calls, when a wait-any has returned: with `Signaled` at a position below the number of handles
    it has stored to one word, that of the object at this position, or to none when an event
    satisfied it that is not consumed; with any other outcome it has stored to no word and no pulse
    counter; and every node it ever allocated was freed exactly once since, while unregistered. -/
theorem wait_any_takes {pid : T → U32} (hpid : ∀ t, pid t ≠ 0) {h : List (Occurrence T)}
    {s : Sys T} (hr : Run (traced Sys.step) (fun s x _ => CleanDeath s x.label)
      (Sys.rest Region.init pid) h s) {t : T} {a : WaitArgs} {timeout : Timeout} {r : WaitOutcome}
    (hpc : (s.threads t).pc = .done (.wait a timeout) (.wait r)) (hany : a.all = false) :
    Took t a (during t h) r ∧
    ((nodeBook t (during t h)).map Prod.fst).Nodup ∧
      ∀ e ∈ nodeBook t (during t h), e.2 = [false] := by
  obtain ⟨-, hshape, htakes, hbook⟩ : NodesInv s ∧ ShapeInv s ∧ TakesInv h s ∧ BookInv h s := by
    refine hr.invariant (I := fun h s => NodesInv s ∧ ShapeInv s ∧ TakesInv h s ∧ BookInv h s)
      ⟨.of_init hpid, .of_idle (fun _ => rfl), (by nofun), by nofun⟩
      fun h s a s' x hi hx hok => ?_
    obtain ⟨hn, hsh, ht, hb⟩ := hi
    obtain ⟨l, hs, rfl⟩ := traced_eq_some.mp hx
    exact ⟨hn.step hs hok, hsh.step hs, ht.step hsh hx, hb.step hn hx⟩
  have htook := htakes t a (by rw [hpc]; rfl) hany
  obtain ⟨given, hnd, -, hgiven⟩ := hbook t a (by rw [hpc]; rfl) (.inl (by rw [hpc]; rfl))
  rw [hpc] at htook hnd hgiven
  have hall : nodeBook t (during t h) = given.map fun n => (n, [false]) := by
    rw [hgiven]
    exact List.append_nil _
  refine ⟨htook, ?_, fun e he => ?_⟩
  · rw [hall, List.map_map]
    have hid : (Prod.fst ∘ fun n : Nat => (n, [false])) = id := rfl
    rw [hid, List.map_id]
    exact (List.nodup_append.mp hnd).1
  · rw [hall] at he
    obtain ⟨n, -, rfl⟩ := List.mem_map.mp he
    rfl

end BookSteps

/-- Process 7 creates an event, process 8 sleeps on it; process 7 sets it and process 8 returns. -/
def wokenWait : List (Action (Fin 2)) :=
  .call 0 (.create (.event false false)) :: List.replicate 18 (.tick 0 {}) ++
  .call 1 (.wait ⟨[1], 6, false, 0⟩ .never) :: List.replicate 20 (.tick 1 {}) ++
  .call 0 (.op 1 .eventSet) :: List.replicate 12 (.tick 0 {}) ++ List.replicate 14 (.tick 1 {})

/-- A wait-any that returned its first object. -/
def Pc.gotFirst : Pc → Bool
  | .done (.wait a _) (.wait (.signaled 0 false)) => !a.all
  | _ => false

/-- A wait is woken and takes the signal. -/
theorem wait_any_takes_wokenWait :
    ∃ h s a timeout, Run (traced Sys.step) (fun s x _ => CleanDeath s x.label)
        (Sys.rest Region.init twoWaitersPid) h s ∧
      (s.threads 1).pc = .done (.wait a timeout) (.wait (.signaled 0 false)) ∧
      nodeBook 1 (during 1 h) = [(0, [false])] ∧
      Took (1 : Fin 2) a (during 1 h) (.signaled 0 false) := by
  obtain ⟨h, s, hr, hpc, hbook⟩ := exists_history_of_exec (traced Sys.step)
    (fun s x _ => DiesOutside s x.label) (Sys.rest Region.init twoWaitersPid)
    (P := fun h s => (s.threads 1).pc.gotFirst = true ∧ nodeBook 1 (during 1 h) = [(0, [false])])
    wokenWait (by decide +kernel)
  have hclean := hr.mono fun _ _ _ hd => hd.clean
  unfold Pc.gotFirst at hpc
  split at hpc
  · rename_i a timeout hdone
    have hany : a.all = false := by simpa using hpc
    obtain ⟨htook, -⟩ := wait_any_takes (by decide) hclean hdone hany
    exact ⟨h, s, a, timeout, hclean, hdone, hbook, htook⟩
  · cases hpc

end Ntsync
