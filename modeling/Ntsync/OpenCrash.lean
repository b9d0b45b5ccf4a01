import Mathlib
import Ntsync.OpenMap

namespace Ntsync

open Lts

/-!
# A death inside the initialisation

`try_open_and_map` decides by four header fields whether a file is valid, and writes them before
the rest of the header and slot 0.

* `writtenImage_region` — all stores together leave the region every other module starts from;
* `crashState_run` — the state in which the initialising process died after `n` of its stores;
* `crash_atomic_iff` — from there every later opener finds the file initialised or recreates it iff
  the death came before the last of the four fields or after the last store.
-/

/-- Every field the initialisation is meant to set has its value, and slot 0 is reserved. -/
structure Image.Initialised (f : Image) : Prop where
  lock : f.lock = true
  accepted : f.accepted = true
  nodeFreeHead : f.region.nodeFreeHead = none
  nodeFresh : f.region.nodeFresh = 0
  nextScan : f.region.nextScan = 0
  sweepNs : f.region.sweepNs = 0
  used : (f.region.slots 0).state = .used
  reserved : (f.region.slots 0).objType = .reserved

/-- The complete initialisation leaves `Region.init`. -/
theorem writtenImage_region : (writtenImage initWrites.length).region = Region.init := by
  have hslots : (writtenImage initWrites.length).region.slots = Region.init.slots := by
    funext i
    simp only [writtenImage, initWrites, List.length_cons, List.length_nil, List.take_succ_cons,
      List.take_zero, List.foldl_cons, List.foldl_nil, ImageWrite.apply, Region.setSlot_slots,
      Region.init]
    split
    · rfl
    · rfl
  calc (writtenImage initWrites.length).region
      = { (writtenImage initWrites.length).region with
          slots := (writtenImage initWrites.length).region.slots } := rfl
    _ = Region.init := by rw [hslots]; rfl

/-- All the stores together make an initialised file. -/
theorem initialised_full : (writtenImage initWrites.length).Initialised where
  lock := rfl
  accepted := by decide
  nodeFreeHead := rfl
  nodeFresh := rfl
  nextScan := rfl
  sweepNs := rfl
  used := by rw [writtenImage_region]; rfl
  reserved := by rw [writtenImage_region]; rfl

/-- The header test passes from the fifth store on. -/
theorem accepted_writtenImage {n : Nat} (hn : n ≤ initWrites.length) :
    (writtenImage n).accepted = true ↔ 5 ≤ n := by
  have hlen : initWrites.length = 13 := rfl
  rw [hlen] at hn
  interval_cases n <;> decide

/-- Slot 0 is used only after the last store. -/
theorem used_writtenImage {n : Nat} (hn : n < initWrites.length) :
    ((writtenImage n).region.slots 0).state = .free := by
  have hlen : initWrites.length = 13 := rfl
  rw [hlen] at hn
  interval_cases n <;> decide

/-! ### The crash -/

section Crash

variable {P : Type} [DecidableEq P]

/-- Process `p` alone at work on the one file `f` there is. -/
def alone (p : P) (f : File) (lock : Option P) (pc : OpenPc) : OpenSys P where
  files := Function.update (fun _ => .empty) 0 f
  fresh := 1
  path := some 0
  locks := Function.update (fun _ => none) 0 lock
  pcs := Function.update (fun _ => .idle) p pc

/-- It has made the first `n` stores. -/
def initialising (p : P) (n : Nat) : OpenSys P :=
  alone p { size := regionSize, image := writtenImage n } (some p) (.init 3 0 (initWrites.drop n))

/-- And then died. -/
def crashState (p : P) (n : Nat) : OpenSys P :=
  alone p { size := regionSize, image := writtenImage n } none .dead

section Alone

variable (p : P) (f f' : File) (lock lock' : Option P) (pc pc' : OpenPc)

@[simp] theorem alone_pcs : (alone p f lock pc).pcs p = pc := by simp [alone]
@[simp] theorem alone_files : (alone p f lock pc).files 0 = f := by simp [alone]
@[simp] theorem alone_locks : (alone p f lock pc).locks 0 = lock := by simp [alone]

@[simp] theorem alone_goto : (alone p f lock pc).goto p pc' = alone p f lock pc' := by
  simp [alone, OpenSys.goto]

@[simp] theorem alone_setFile : (alone p f lock pc).setFile 0 f' = alone p f' lock pc := by
  simp [alone, OpenSys.setFile]

@[simp] theorem alone_setLocks :
    { alone p f lock pc with locks := Function.update (alone p f lock pc).locks 0 lock' } =
      alone p f lock' pc := by
  simp [alone]

/-- The state after the death of the only opener. -/
theorem alone_kill : (alone p f (some p) pc).kill p = alone p f none .dead := by
  simp only [OpenSys.kill, OpenSys.goto, alone, Function.update_idem]
  congr 1
  funext x
  by_cases hx : x = 0
  · subst hx
    simp
  · simp [hx]

end Alone

/-- One more store of the initialisation. -/
theorem initialising_succ (p : P) {n : Nat} (hn : n < initWrites.length) :
    openTick (initialising p n) p none = some (initialising p (n + 1)) := by
  have hdrop := List.drop_eq_getElem_cons hn
  obtain ⟨happ, _⟩ := writtenImage_succ hdrop
  rw [openTick, if_neg (by decide), initialising, alone_pcs, hdrop]
  simp only [alone_files, happ, alone_setFile, alone_goto]
  rfl

/-- The way to the first store. -/
theorem initialising_start (p : P) :
    ∃ h, Run openStep (fun _ _ _ => True) (OpenSys.start none) h (initialising p 0) := by
  have hrun : Run openStep (fun _ _ _ => True) (OpenSys.start none) [.call p]
      ((OpenSys.start none : OpenSys P).goto p (.opening 3)) := Run.nil.snoc (a := .call p) rfl trivial
  have htick : ∀ {s : OpenSys P} {h : List (OpenAct P)} (s' : OpenSys P),
      openTick s p none = some s' →
      Run openStep (fun _ _ _ => True) (OpenSys.start none) h s →
      Run openStep (fun _ _ _ => True) (OpenSys.start none) (.tick p none :: h) s' := by
    intro s h s' ht hr
    exact hr.snoc (a := .tick p none) (by rw [openStep, ht]; rfl) trivial
  have hopen := htick (alone p .empty none (.flock 3 0)) (by
    rw [openTick, if_neg (by decide), OpenSys.goto_pcs, if_pos rfl]
    simp [OpenSys.start, OpenSys.goto, OpenSys.setFile, alone]) hrun
  have hflock := htick (alone p .empty (some p) (.fstat 3 0)) (by
    rw [openTick, if_neg (by decide), alone_pcs]
    simp) hopen
  have hstat := htick (alone p .empty (some p) (.ftruncate 3 0)) (by
    rw [openTick, if_neg (by decide), alone_pcs]
    simp [File.empty]) hflock
  have htrunc := htick (alone p { size := regionSize, image := .zero } (some p)
      (.mmap 3 0 true)) (by
    rw [openTick, if_neg (by decide), alone_pcs]
    simp) hstat
  have hmap := htick (initialising p 0) (by
    rw [openTick, if_neg (by decide), alone_pcs]
    simp [initialising, writtenImage]) htrunc
  exact ⟨_, hmap⟩

/-- The stores of the initialisation can be reached one after another. -/
theorem initialising_run (p : P) {n : Nat} (hn : n ≤ initWrites.length) :
    ∃ h, Run openStep (fun _ _ _ => True) (OpenSys.start none) h (initialising p n) := by
  induction n with
  | zero => exact initialising_start p
  | succ n ih =>
    obtain ⟨h, hr⟩ := ih (Nat.le_of_succ_le hn)
    refine ⟨_, hr.snoc (a := .tick p none) (l := .tick p none) ?_ trivial⟩
    simp only [openStep, initialising_succ p hn]
    rfl

/-- The crash is reached from a path that names no file. -/
theorem crashState_run (p : P) {n : Nat} (hn : n ≤ initWrites.length) :
    ∃ h, Run openStep (fun _ _ _ => True) (OpenSys.start none) h (crashState p n) := by
  obtain ⟨h, hr⟩ := initialising_run p hn
  refine ⟨_, hr.snoc (a := .die p) (l := .die p) ?_ trivial⟩
  rw [openStep, initialising, alone_kill]
  rfl

/-! ### Later openers -/

/-- Nobody else dies. -/
def OpenAct.alive : OpenAct P → Prop
  | .die _ => False
  | _ => True

variable {p q : P} {n : Nat}

/-- After a death before the ready flag is claimed, or after the last store, the file serves the
    openers that follow. -/
theorem crashState_opened (hn : n ≤ initWrites.length) (h : n < 5 ∨ n = initWrites.length) :
    OpenedInv Image.Initialised (crashState p n) := by
  have hquiet : ∀ r, ((crashState p n).pcs r).file? = none ∧ ((crashState p n).pcs r).holds? = none ∧
      ((crashState p n).pcs r).ok? = none ∧ ((crashState p n).pcs r).InitOk (crashState p n).files := by
    intro r
    by_cases hr : r = p
    · subst hr
      rw [crashState, alone_pcs]
      exact ⟨rfl, rfl, rfl, trivial⟩
    · rw [show (crashState p n).pcs r = .idle by simp [crashState, alone, hr]]
      exact ⟨rfl, rfl, rfl, trivial⟩
  refine ⟨fun r x hx => ?_, fun x hx => ?_, fun r x hx => ?_, fun r => (hquiet r).2.2.2,
    fun x hx _ hacc => ?_, fun r x hx => ?_⟩
  · rw [(hquiet r).1] at hx
    cases hx
  · cases hx
    exact Nat.one_pos
  · rw [(hquiet r).2.1] at hx
    cases hx
  · by_cases h0 : x = 0
    · subst h0
      rw [crashState, alone_files] at hacc ⊢
      rcases h with h | rfl
      · have := (accepted_writtenImage hn).mp hacc
        omega
      · exact initialised_full
    · rw [show (crashState p n).files x = .empty by simp [crashState, alone, h0]] at hx
      exact absurd rfl hx
  · rw [(hquiet r).2.2.1] at hx
    cases hx

@[simp] theorem OpenSys.goto_goto (s : OpenSys P) (pc pc' : OpenPc) :
    (s.goto q pc).goto q pc' = s.goto q pc' := by
  simp [OpenSys.goto]

/-- In the window a later opener accepts the file. -/
theorem crashState_accepted (hq : q ≠ p) (hn : n ≤ initWrites.length) (h5 : 5 ≤ n) :
    ∃ h s, Run openStep (fun _ a _ => a.alive) (crashState p n) h s ∧
      s.pcs q = .done (.ok 0) ∧ (s.files 0).image = writtenImage n := by
  set s₀ := crashState p n with hs₀
  have hfile : s₀.files 0 = { size := regionSize, image := writtenImage n } := alone_files ..
  have hidle : s₀.pcs q = .idle := by simp [hs₀, crashState, alone, hq]
  have hpath : s₀.path = some 0 := rfl
  have hlock : s₀.locks 0 = none := alone_locks ..
  have hacc := (accepted_writtenImage hn).mpr h5
  have hrun : Run openStep (fun _ a _ => a.alive) s₀ [.call q] (s₀.goto q (.opening 3)) :=
    Run.nil.snoc (a := .call q) (by rw [openStep, hidle]) trivial
  have htick : ∀ {s : OpenSys P} {h : List (OpenAct P)} (s' : OpenSys P),
      openTick s q none = some s' →
      Run openStep (fun _ a _ => a.alive) s₀ h s →
      Run openStep (fun _ a _ => a.alive) s₀ (.tick q none :: h) s' := by
    intro s h s' ht hr
    exact hr.snoc (a := .tick q none) (by rw [openStep, ht]; rfl) trivial
  have hopen := htick (s₀.goto q (.flock 3 0)) (by
    rw [openTick, if_neg (by decide), OpenSys.goto_pcs, if_pos rfl]
    simp [hpath]) hrun
  set s₁ : OpenSys P := { s₀ with locks := Function.update s₀.locks 0 (some q) } with hs₁
  have hfile₁ : s₁.files 0 = { size := regionSize, image := writtenImage n } := hfile
  have hflock := htick (s₁.goto q (.fstat 3 0)) (by
    rw [openTick, if_neg (by decide), OpenSys.goto_pcs, if_pos rfl]
    simp [hlock, hs₁, OpenSys.goto]) hopen
  have hsize : regionSize ≠ 0 := by decide
  have hstat := htick (s₁.goto q (.mmap 3 0 false)) (by
    rw [openTick, if_neg (by decide), OpenSys.goto_pcs, if_pos rfl]
    simp [hfile₁, hsize]) hflock
  have hmap := htick (s₁.goto q (.check 3 0)) (by
    rw [openTick, if_neg (by decide), OpenSys.goto_pcs, if_pos rfl]
    simp) hstat
  have hcheck := htick (s₁.goto q (.unlock 3 0 (.ok ()))) (by
    rw [openTick, if_neg (by decide), OpenSys.goto_pcs, if_pos rfl]
    simp [hfile₁, hacc]) hmap
  have hdone := htick ({ s₁ with locks := Function.update s₁.locks 0 none }.goto q
      (.done (.ok 0))) (by
    rw [openTick, if_neg (by decide), OpenSys.goto_pcs, if_pos rfl]
    simp [OpenSys.goto, afterTry]) hcheck
  refine ⟨_, _, hdone, ?_, ?_⟩
  · rw [OpenSys.goto_pcs, if_pos rfl]
  · rw [OpenSys.goto_files]
    show (s₁.files 0).image = _
    rw [hfile₁]

/-- **Initialisation is crash-atomic outside a window.** Let the initialising process die after `n`
    of its stores.  In every run of later openers whoever returns `Ok` finds a file with all its
    initial values, iff the header test cannot pass yet or everything is written. -/
theorem crash_atomic_iff (hq : q ≠ p) (hn : n ≤ initWrites.length) :
    (∀ h s, Run openStep (fun _ a _ => a.alive) (crashState p n) h s →
      ∀ r x, s.pcs r = .done (.ok x) → (s.files x).image.Initialised) ↔
    n < 5 ∨ n = initWrites.length := by
  constructor
  · intro hall
    by_contra hn'
    rw [not_or] at hn'
    obtain ⟨h, s, hr, hpc, himg⟩ := crashState_accepted hq hn (Nat.le_of_not_lt hn'.1)
    have hused := (hall h s hr q 0 hpc).used
    rw [himg, used_writtenImage (Nat.lt_of_le_of_ne hn hn'.2)] at hused
    cases hused
  · intro hout h s hr r x hpc
    have hinv : OpenedInv Image.Initialised s := by
      refine hr.state_invariant (crashState_opened hn hout) (fun s a s' l hi hs hok => ?_)
      cases openStep_inv hs with
      | call hp => exact hi.call hp
      | tick hg =>
        refine hi.tick (fun m hm => ?_) hg
        rw [writtenImage_full hm]
        exact initialised_full
      | die => exact hok.elim
    exact (hinv.okay r x (by rw [hpc]; rfl)).image

/-- A death after four stores is one of them. -/
theorem crash_atomic_iff_four :
    4 < initWrites.length ∧
    ∀ h s, Run openStep (fun _ a _ => a.alive) (crashState (0 : Fin 2) 4) h s →
      ∀ r x, s.pcs r = .done (.ok x) → (s.files x).image.Initialised :=
  ⟨by decide, (crash_atomic_iff (q := 1) (by decide) (by decide)).mpr (.inl (by decide))⟩

/-- A death right after the four fields: the next opener accepts a file whose pool hands node 0 out
    and whose slot 0 is free. -/
theorem half_initialised_accepted :
    ∃ h₀ h s, Run openStep (fun _ _ _ => True) (OpenSys.start none) h₀ (crashState (0 : Fin 2) 5) ∧
      Run openStep (fun _ a _ => a.alive) (crashState (0 : Fin 2) 5) h s ∧ s.pcs 1 = .done (.ok 0) ∧
      (s.files 0).image.region.nodeFreeHead = some 0 ∧
      ((s.files 0).image.region.slots 0).state = .free := by
  obtain ⟨h₀, hr₀⟩ := crashState_run (0 : Fin 2) (n := 5) (by decide)
  obtain ⟨h, s, hr, hpc, himg⟩ := crashState_accepted (p := (0 : Fin 2)) (q := 1) (n := 5)
    (by decide) (by decide) (by decide)
  refine ⟨h₀, h, s, hr₀, hr, hpc, ?_, ?_⟩
  · rw [himg]
    rfl
  · rw [himg]
    exact used_writtenImage (by decide)

end Crash

end Ntsync
