import Mathlib
import Ntsync.Region
import Ntsync.Lib.Lts

namespace Ntsync

open Lts

/-!
# Opening and mapping the region file

`open_and_map` as a system of its own: any number of processes run it on one path of a file system
that behaves as POSIX says (`open(O_CREAT)`, `flock`, `fstat`, `ftruncate`, `mmap`, `unlink`), one
system call or one store to the mapped file a step.

* `openStep` — the step function: `try_open_and_map` with its error paths inside the retry loop of
  `open_and_map`;
* `one_inode` — all processes that return `Ok` map the same file, as long as every `unlink` removes
  the file its process judged stale; `two_inodes` — they do not in general;
* `crash_atomic_iff` — after which stores of the initialisation a death leaves a file that every
  later opener either rejects or finds fully initialised.
-/

/-! ### The file -/

def magic : U64 := 0x6E7473796E635F75
def version : U32 := 10

def headerSize : Nat := 88
def slotSize : Nat := 72
def nodeSize : Nat := 40

/-- `region_size()`; the mutex of the header takes 40 bytes. -/
def regionSize : Nat := headerSize + slotCount * slotSize + nodeCount * nodeSize

/-- The contents of a region file: the part of the header that is written once, and the region. -/
structure Image where
  /-- `pthread_mutex_init` has run on the robust, process-shared lock -/
  lock : Bool
  magic : U64
  version : U32
  capacity : U32
  nodeCapacity : U32
  region : Region

/-- What a freshly truncated file reads as. -/
def Image.zero : Image where
  lock := false
  magic := 0
  version := 0
  capacity := 0
  nodeCapacity := 0
  region :=
    { slots := fun _ => Slot.zero, nodes := fun _ => WaitNode.zero, nodeFreeHead := some 0,
      nodeFresh := 0, nextScan := 0, sweepNs := 0 }

/-- A single store of the initialisation. -/
inductive ImageWrite where
  | lock
  | magic (v : U64)
  | version (v : U32)
  | capacity (v : U32)
  | nodeCapacity (v : U32)
  | nodeFreeHead (v : Option Nat)
  | nodeFresh (v : Nat)
  | nextScan (v : U32)
  | sweepNs (v : U64)
  | slot0Head (v : Option Nat)
  | slot0 (w : SlotWrite)

def ImageWrite.apply (f : Image) : ImageWrite → Image
  | .lock => { f with lock := true }
  | .magic v => { f with magic := v }
  | .version v => { f with version := v }
  | .capacity v => { f with capacity := v }
  | .nodeCapacity v => { f with nodeCapacity := v }
  | .nodeFreeHead v => { f with region := { f.region with nodeFreeHead := v } }
  | .nodeFresh v => { f with region := { f.region with nodeFresh := v } }
  | .nextScan v => { f with region := { f.region with nextScan := v } }
  | .sweepNs v => { f with region := { f.region with sweepNs := v } }
  | .slot0Head v => { f with region := f.region.setSlot 0 fun s => { s with waiterHead := v } }
  | .slot0 w => { f with region := f.region.setSlot 0 w.apply }

/-- The stores of the `need_init` branch, in program order. -/
def initWrites : List ImageWrite :=
  [.lock, .magic Ntsync.magic, .version Ntsync.version, .capacity (BitVec.ofNat 32 slotCount),
    .nodeCapacity (BitVec.ofNat 32 nodeCount), .nodeFreeHead none, .nodeFresh 0, .nextScan 0,
    .sweepNs 0, .slot0Head none, .slot0 (.objType .reserved), .slot0 (.pid 0),
    .slot0 (.state .used)]

/-- The header test of an opener that finds a file of the right size. -/
def Image.accepted (f : Image) : Bool :=
  decide (f.magic = Ntsync.magic) && decide (f.version = Ntsync.version) &&
    decide (f.capacity = BitVec.ofNat 32 slotCount) &&
    decide (f.nodeCapacity = BitVec.ofNat 32 nodeCount)

/-- A file as `fstat` and the mapping show it. -/
structure File where
  size : Nat
  image : Image

def File.empty : File where
  size := 0
  image := .zero

/-! ### The system -/

def estale : Int := 116

/-- Where a process is.  `left` counts the rounds of the retry loop that remain after the current
    one, `x` is the file behind the descriptor. -/
inductive OpenPc where
  | idle
  | opening (left : Nat)
  | flock (left x : Nat)
  | fstat (left x : Nat)
  | ftruncate (left x : Nat)
  | mmap (left x : Nat) (needInit : Bool)
  | init (left x : Nat) (ws : List ImageWrite)
  | check (left x : Nat)
  /-- before `flock(LOCK_UN)`, with the result of `try_open_and_map` -/
  | unlock (left x : Nat) (r : Except Int Unit)
  /-- before the `unlink` by path; the source has forgotten that it was `x` it judged stale -/
  | unlink (left x : Nat)
  | done (r : Except Int Nat)
  | dead

/-- The file system: the files by inode number, which of them were ever created, the one the path
    names, and who holds which `flock`. -/
structure OpenSys (P : Type) where
  files : Nat → File
  fresh : Nat
  path : Option Nat
  locks : Nat → Option P
  pcs : P → OpenPc

variable {P : Type} [DecidableEq P]

namespace OpenSys

def goto (s : OpenSys P) (p : P) (pc : OpenPc) : OpenSys P :=
  { s with pcs := Function.update s.pcs p pc }

def setFile (s : OpenSys P) (x : Nat) (f : File) : OpenSys P :=
  { s with files := Function.update s.files x f }

end OpenSys

/-- What `open_and_map` does with the result of a try. -/
def afterTry (left x : Nat) : Except Int Unit → OpenPc
  | .ok () => .done (.ok x)
  | .error e => if e = estale then .unlink left x else .done (.error e)

/-- After the `unlink`: another round, or the end of the loop. -/
def afterUnlink : Nat → OpenPc
  | 0 => .done (.error estale)
  | left + 1 => .opening left

/-- What becomes of an attempt: it is done, tries again, or fails. -/
theorem afterTry_cases (left x : Nat) (r : Except Int Unit) :
    r = .ok () ∧ afterTry left x r = .done (.ok x) ∨
      r = .error estale ∧ afterTry left x r = .unlink left x ∨
      ∃ e, afterTry left x r = .done (.error e) := by
  cases r with
  | ok u => exact .inl ⟨rfl, rfl⟩
  | error e =>
    by_cases he : e = estale
    · subst he
      exact .inr (.inl ⟨rfl, by simp [afterTry]⟩)
    · exact .inr (.inr ⟨e, by simp [afterTry, he]⟩)

inductive OpenAct (P : Type) where
  /-- process `p` calls `open_and_map` -/
  | call (p : P)
  /-- its next step; `err` is the errno if a system call fails -/
  | tick (p : P) (err : Option Int)
  | die (p : P)

/-- One step of a process.  A failing system call never answers `ESTALE` on a local file. -/
def openTick (s : OpenSys P) (p : P) (err : Option Int) : Option (OpenSys P) :=
  if err = some estale then none
  else match s.pcs p with
    | .idle | .done _ | .dead => none
    | .opening left =>
      match err with
      | some e => some (s.goto p (.done (.error e)))
      | none =>
        match s.path with
        | some x => some (s.goto p (.flock left x))
        | none =>
          -- `O_CREAT`
          some ({ s.setFile s.fresh .empty with fresh := s.fresh + 1, path := some s.fresh }.goto p
            (.flock left s.fresh))
    | .flock left x =>
      match err with
      | some e => some (s.goto p (.done (.error e)))
      | none =>
        match s.locks x with
        | none => some ({ s with locks := Function.update s.locks x (some p) }.goto p
            (.fstat left x))
        | some _ => none
    | .fstat left x =>
      match err with
      | some e => some (s.goto p (.unlock left x (.error e)))
      | none =>
        if (s.files x).size ≠ 0 ∧ (s.files x).size ≠ regionSize then
          some (s.goto p (.unlock left x (.error estale)))
        else if (s.files x).size = 0 then some (s.goto p (.ftruncate left x))
        else some (s.goto p (.mmap left x false))
    | .ftruncate left x =>
      match err with
      | some e => some (s.goto p (.unlock left x (.error e)))
      | none =>
        -- the file grows from nothing and reads as zeros
        some ((s.setFile x { size := regionSize, image := .zero }).goto p (.mmap left x true))
    | .mmap left x needInit =>
      match err with
      | some e => some (s.goto p (.unlock left x (.error e)))
      | none => some (s.goto p (if needInit then .init left x initWrites else .check left x))
    | .init left x [] => some (s.goto p (.unlock left x (.ok ())))
    | .init left x (w :: ws) =>
      some ((s.setFile x { s.files x with image := w.apply (s.files x).image }).goto p
        (.init left x ws))
    | .check left x =>
      some (s.goto p (.unlock left x (if (s.files x).image.accepted then .ok ()
        else .error estale)))
    | .unlock left x r =>
      some ({ s with locks := Function.update s.locks x none }.goto p (afterTry left x r))
    | .unlink left _ => some ({ s with path := none }.goto p (afterUnlink left))

/-- The kernel drops the locks of a dead process. -/
def OpenSys.kill (s : OpenSys P) (p : P) : OpenSys P :=
  { s with locks := fun x => if s.locks x = some p then none else s.locks x }.goto p .dead

/-- **The step function.** The label of a step is its action. -/
def openStep (s : OpenSys P) : OpenAct P → Option (OpenSys P × OpenAct P)
  | .call p =>
    match s.pcs p with
    | .idle => some (s.goto p (.opening 3), .call p)
    | _ => none
  | .tick p err => (openTick s p err).map (·, .tick p err)
  | .die p => some (s.kill p, .die p)

/-! ### The transitions -/

/-- The transitions of a process inside `open_and_map`. -/
inductive OpenGo (s : OpenSys P) (p : P) : OpenPc → OpenSys P → Prop
  | openFail {left : Nat} {e : Int} : OpenGo s p (.opening left) (s.goto p (.done (.error e)))
  | opened {left x : Nat} : s.path = some x →
      OpenGo s p (.opening left) (s.goto p (.flock left x))
  | created {left : Nat} : s.path = none → OpenGo s p (.opening left)
      ({ s.setFile s.fresh .empty with fresh := s.fresh + 1, path := some s.fresh }.goto p
        (.flock left s.fresh))
  | flockFail {left x : Nat} {e : Int} : OpenGo s p (.flock left x) (s.goto p (.done (.error e)))
  | flock {left x : Nat} : s.locks x = none → OpenGo s p (.flock left x)
      ({ s with locks := Function.update s.locks x (some p) }.goto p (.fstat left x))
  | fstatFail {left x : Nat} {e : Int} : e ≠ estale →
      OpenGo s p (.fstat left x) (s.goto p (.unlock left x (.error e)))
  | fstatStale {left x : Nat} : (s.files x).size ≠ 0 → (s.files x).size ≠ regionSize →
      OpenGo s p (.fstat left x) (s.goto p (.unlock left x (.error estale)))
  | fstatEmpty {left x : Nat} : (s.files x).size = 0 →
      OpenGo s p (.fstat left x) (s.goto p (.ftruncate left x))
  | fstat {left x : Nat} : (s.files x).size = regionSize →
      OpenGo s p (.fstat left x) (s.goto p (.mmap left x false))
  | ftruncateFail {left x : Nat} {e : Int} : e ≠ estale →
      OpenGo s p (.ftruncate left x) (s.goto p (.unlock left x (.error e)))
  | ftruncate {left x : Nat} : OpenGo s p (.ftruncate left x)
      ((s.setFile x { size := regionSize, image := .zero }).goto p (.mmap left x true))
  | mmapFail {left x : Nat} {b : Bool} {e : Int} : e ≠ estale →
      OpenGo s p (.mmap left x b) (s.goto p (.unlock left x (.error e)))
  | mmapInit {left x : Nat} :
      OpenGo s p (.mmap left x true) (s.goto p (.init left x initWrites))
  | mmap {left x : Nat} : OpenGo s p (.mmap left x false) (s.goto p (.check left x))
  | written {left x : Nat} : OpenGo s p (.init left x []) (s.goto p (.unlock left x (.ok ())))
  | write {left x : Nat} {w : ImageWrite} {ws : List ImageWrite} :
      OpenGo s p (.init left x (w :: ws))
        ((s.setFile x { s.files x with image := w.apply (s.files x).image }).goto p
          (.init left x ws))
  | accept {left x : Nat} : (s.files x).image.accepted = true →
      OpenGo s p (.check left x) (s.goto p (.unlock left x (.ok ())))
  | reject {left x : Nat} : (s.files x).image.accepted = false →
      OpenGo s p (.check left x) (s.goto p (.unlock left x (.error estale)))
  | unlock {left x : Nat} {r : Except Int Unit} : OpenGo s p (.unlock left x r)
      ({ s with locks := Function.update s.locks x none }.goto p (afterTry left x r))
  | unlink {left x : Nat} : OpenGo s p (.unlink left x)
      ({ s with path := none }.goto p (afterUnlink left))

section Inversion

variable {s s' : OpenSys P} {p : P} {err : Option Int}

/-- What a step of an opener is. -/
theorem openTick_inv (h : openTick s p err = some s') : OpenGo s p (s.pcs p) s' := by
  unfold openTick at h
  split at h
  · cases h
  rename_i hne
  have hne' : ∀ {e : Int}, err = some e → e ≠ estale := by
    rintro e rfl rfl
    exact hne rfl
  split at h <;> rename_i hpc <;> rw [hpc]
  · cases h
  · cases h
  -- a call that has not begun, or is over, makes no step
  · cases h
  -- `open`
  · split at h
    · cases h
      exact .openFail
    · split at h <;> rename_i hpath <;> cases h
      · exact .opened hpath
      · exact .created hpath
  -- `flock`
  · split at h
    · cases h
      exact .flockFail
    · split at h <;> rename_i hl <;> cases h
      exact .flock hl
  -- `fstat`, with the three outcomes of the size
  · split at h
    · cases h
      exact .fstatFail (hne' rfl)
    · split at h
      · rename_i hs
        cases h
        exact .fstatStale hs.1 hs.2
      · rename_i hs
        split at h <;> rename_i h0 <;> cases h
        · exact .fstatEmpty h0
        · exact .fstat (by by_contra hS; exact hs ⟨h0, hS⟩)
  -- `ftruncate`
  · split at h <;> cases h
    · exact .ftruncateFail (hne' rfl)
    · exact .ftruncate
  -- `mmap`, to write the header or to check it
  · split at h
    · cases h
      exact .mmapFail (hne' rfl)
    · cases h
      split <;> rename_i hb
      · subst hb
        exact .mmapInit
      · rw [Bool.not_eq_true] at hb
        subst hb
        exact .mmap
  -- the header, store by store, and its check
  · cases h
    exact .written
  · cases h
    exact .write
  · cases h
    split <;> rename_i ha
    · exact .accept ha
    · exact .reject (by simpa using ha)
  -- the lock goes, before a retry or at the end
  · cases h
    exact .unlock
  · cases h
    exact .unlink

/-- The steps of the system. -/
inductive OpenStep (s : OpenSys P) : OpenAct P → OpenSys P → Prop
  | call {p : P} : s.pcs p = .idle → OpenStep s (.call p) (s.goto p (.opening 3))
  | tick {p : P} {err : Option Int} {s' : OpenSys P} :
      OpenGo s p (s.pcs p) s' → OpenStep s (.tick p err) s'
  | die {p : P} : OpenStep s (.die p) (s.kill p)

/-- **What a step of the system is.** -/
theorem openStep_inv {a l : OpenAct P} (h : openStep s a = some (s', l)) : OpenStep s l s' := by
  cases a with
  | call p =>
    simp only [openStep] at h
    split at h <;> cases h
    exact .call (by assumption)
  | tick p err =>
    simp only [openStep, Option.map_eq_some_iff] at h
    obtain ⟨s₁, h, he⟩ := h
    cases he
    exact .tick (openTick_inv h)
  | die p =>
    cases h
    exact .die

@[simp] theorem OpenSys.goto_files (pc : OpenPc) : (s.goto p pc).files = s.files := rfl
@[simp] theorem OpenSys.goto_fresh (pc : OpenPc) : (s.goto p pc).fresh = s.fresh := rfl
@[simp] theorem OpenSys.goto_path (pc : OpenPc) : (s.goto p pc).path = s.path := rfl
@[simp] theorem OpenSys.goto_locks (pc : OpenPc) : (s.goto p pc).locks = s.locks := rfl

@[simp] theorem OpenSys.goto_pcs (pc : OpenPc) (q : P) :
    (s.goto p pc).pcs q = if q = p then pc else s.pcs q := by
  simp [OpenSys.goto, Function.update_apply]

omit [DecidableEq P] in
@[simp] theorem OpenSys.setFile_files (x y : Nat) (f : File) :
    (s.setFile x f).files y = if y = x then f else s.files y := by
  simp [OpenSys.setFile, Function.update_apply]

end Inversion

/-! ### What an opener has established -/

namespace OpenPc

/-- The file a process has open, judged, or mapped. -/
def file? : OpenPc → Option Nat
  | .flock _ x | .fstat _ x | .ftruncate _ x | .mmap _ x _ | .init _ x _ | .check _ x
  | .unlock _ x _ | .unlink _ x | .done (.ok x) => some x
  | _ => none

/-- The file whose `flock` a process holds. -/
def holds? : OpenPc → Option Nat
  | .fstat _ x | .ftruncate _ x | .mmap _ x _ | .init _ x _ | .check _ x | .unlock _ x _ => some x
  | _ => none

/-- The file a process initialises. -/
def inits? : OpenPc → Option Nat
  | .ftruncate _ x | .mmap _ x true | .init _ x _ => some x
  | _ => none

/-- The file of a successful try. -/
def ok? : OpenPc → Option Nat
  | .unlock _ x (.ok ()) | .done (.ok x) => some x
  | _ => none

/-- The file a process has judged stale. -/
def stale? : OpenPc → Option Nat
  | .unlock _ x (.error e) => if e = estale then some x else none
  | .unlink _ x => some x
  | _ => none

end OpenPc

/-- The file after the first `n` stores of the initialisation. -/
def writtenImage (n : Nat) : Image := (initWrites.take n).foldl ImageWrite.apply .zero

/-- One more store of the initialisation. -/
theorem writtenImage_succ {n : Nat} {w : ImageWrite} {ws : List ImageWrite}
    (h : initWrites.drop n = w :: ws) :
    w.apply (writtenImage n) = writtenImage (n + 1) ∧ initWrites.drop (n + 1) = ws := by
  have hlt : n < initWrites.length := by
    by_contra hge
    rw [List.drop_eq_nil_of_le (Nat.le_of_not_lt hge)] at h
    cases h
  rw [List.drop_eq_getElem_cons hlt] at h
  obtain ⟨hw, hws⟩ := List.cons.inj h
  refine ⟨?_, hws⟩
  rw [writtenImage, writtenImage, List.take_succ_eq_append_getElem hlt, List.foldl_append, hw]
  rfl

/-- With no store left the image is complete. -/
theorem writtenImage_full {n : Nat} (h : initWrites.drop n = []) :
    writtenImage n = writtenImage initWrites.length := by
  rw [writtenImage, writtenImage, List.take_length, List.take_of_length_le]
  exact List.drop_eq_nil_iff.mp h

/-- How far the process is with the file. -/
def OpenPc.InitOk (files : Nat → File) : OpenPc → Prop
  | .ftruncate _ x => (files x).size = 0
  | .mmap _ x true => files x = { size := regionSize, image := .zero }
  | .init _ x ws => ∃ n, ws = initWrites.drop n ∧
    files x = { size := regionSize, image := writtenImage n }
  | .mmap _ x false | .check _ x => (files x).size = regionSize
  | _ => True

/-- File `x` is complete: it has its size, nobody initialises it, and its contents satisfy `G`. -/
structure Complete (G : Image → Prop) (s : OpenSys P) (x : Nat) : Prop where
  size : (s.files x).size = regionSize
  image : G (s.files x).image
  quiet : ∀ p, (s.pcs p).inits? ≠ some x

/-- What holds of all openers, where `G` is what a process that returns `Ok` relies on. -/
structure OpenedInv (G : Image → Prop) (s : OpenSys P) : Prop where
  named : ∀ p x, (s.pcs p).file? = some x → x < s.fresh
  linked : ∀ x, s.path = some x → x < s.fresh
  holds : ∀ p x, (s.pcs p).holds? = some x → s.locks x = some p
  inits : ∀ p, (s.pcs p).InitOk s.files
  sound : ∀ x, (s.files x).size ≠ 0 → (∀ p, (s.pcs p).inits? ≠ some x) →
    (s.files x).image.accepted = true → G (s.files x).image
  okay : ∀ p x, (s.pcs p).ok? = some x → Complete G s x

section Opened

variable {G : Image → Prop} {s s' : OpenSys P} {p q : P} {x : Nat} {pc' : OpenPc}

omit [DecidableEq P] in
/-- Who initialises a file holds its lock. -/
theorem OpenPc.holds_of_inits {pc : OpenPc} (h : pc.inits? = some x) : pc.holds? = some x := by
  unfold OpenPc.inits? at h
  split at h
  · exact h
  · exact h
  · exact h
  · cases h

omit [DecidableEq P] in
/-- Who holds the lock of a file has it open. -/
theorem OpenPc.file_of_holds {pc : OpenPc} (h : pc.holds? = some x) : pc.file? = some x := by
  unfold OpenPc.holds? at h
  split at h <;> first | exact h | cases h

omit [DecidableEq P] in
/-- Who has found a file in order has it open. -/
theorem OpenPc.file_of_ok {pc : OpenPc} (h : pc.ok? = some x) : pc.file? = some x := by
  unfold OpenPc.ok? at h
  split at h <;> first | exact h | cases h

omit [DecidableEq P] in
/-- How far a process is depends only on the file it has locked. -/
theorem OpenPc.InitOk.congr {pc : OpenPc} {files files' : Nat → File}
    (h : ∀ y, pc.holds? = some y → files' y = files y) (hi : pc.InitOk files) :
    pc.InitOk files' := by
  cases pc with
  | ftruncate left y | check left y =>
    show (files' y).size = _
    rw [h y rfl]
    exact hi
  | mmap left y b =>
    cases b
    · show (files' y).size = _
      rw [h y rfl]
      exact hi
    · show files' y = _
      rw [h y rfl]
      exact hi
  | init left y ws =>
    obtain ⟨n, hn, hf⟩ := hi
    exact ⟨n, hn, by rw [h y rfl]; exact hf⟩
  | _ => trivial

omit [DecidableEq P] in
/-- The `flock` excludes two processes on one file. -/
theorem OpenedInv.excludes (hi : OpenedInv G s) (hp : (s.pcs p).holds? = some x)
    (hq : (s.pcs q).holds? = some x) : q = p := by
  have h := (hi.holds p x hp).symm.trans (hi.holds q x hq)
  exact (Option.some.inj h).symm

omit [DecidableEq P] in
/-- Holding the lock of a file without initialising it: nobody does. -/
theorem OpenedInv.quiet (hi : OpenedInv G s) (hp : (s.pcs p).holds? = some x)
    (hn : (s.pcs p).inits? ≠ some x) (q : P) : (s.pcs q).inits? ≠ some x := by
  intro hq
  obtain rfl := hi.excludes hp (OpenPc.holds_of_inits hq)
  exact hn hq

/-- A step that changes nothing but where the process is. -/
theorem OpenedInv.goto (hi : OpenedInv G s)
    (hfile : ∀ x, pc'.file? = some x → x < s.fresh)
    (hholds : ∀ x, pc'.holds? = some x → s.locks x = some p)
    (hinit : pc'.InitOk s.files)
    (hnew : ∀ x, pc'.inits? = some x → (s.pcs p).inits? = some x ∨ (s.files x).size = 0)
    (hsound : ∀ x, (s.pcs p).inits? = some x → (s.files x).size ≠ 0 →
      (s.files x).image.accepted = true → pc'.inits? = some x ∨ G (s.files x).image)
    (hok : ∀ x, pc'.ok? = some x → (s.files x).size = regionSize ∧ G (s.files x).image ∧
      pc'.inits? ≠ some x ∧ (s.pcs p).holds? = some x ∨ (s.pcs p).ok? = some x) :
    OpenedInv G (s.goto p pc') := by
  have hsize : regionSize ≠ 0 := by decide
  -- a complete file is not being written, and this process does not begin to
  have hquiet : ∀ {y}, Complete G s y → ∀ r, ((s.goto p pc').pcs r).inits? ≠ some y := by
    intro y hy r
    rw [OpenSys.goto_pcs]
    split
    · intro h
      rcases hnew y h with h | h
      · exact hy.quiet p h
      · exact hsize (hy.size.symm.trans h)
    · exact hy.quiet r
  refine ⟨fun r y hr => ?_, hi.linked, fun r y hr => ?_, fun r => ?_, fun y hy hr hacc => ?_,
    fun r y hr => ?_⟩
  · rw [OpenSys.goto_pcs] at hr
    split at hr
    · exact hfile y hr
    · exact hi.named r y hr
  · rw [OpenSys.goto_pcs] at hr
    split at hr
    · rename_i h
      rw [h]
      exact hholds y hr
    · exact hi.holds r y hr
  · rw [OpenSys.goto_pcs]
    split
    · exact hinit
    · exact hi.inits r
  -- the process that wrote the header has finished it, or still writes
  · by_cases hp : (s.pcs p).inits? = some y
    · rcases hsound y hp hy hacc with h | h
      · have := hr p
        rw [OpenSys.goto_pcs, if_pos rfl] at this
        exact absurd h this
      · exact h
    · refine hi.sound y hy (fun r => ?_) hacc
      have := hr r
      rw [OpenSys.goto_pcs] at this
      split at this
      · rename_i h
        rw [h]
        exact hp
      · exact this
  · rw [OpenSys.goto_pcs] at hr
    split at hr
    · rcases hok y hr with ⟨hsz, hG, hno, hhold⟩ | hprev
      -- the file's lock keeps the others from writing its header
      · refine ⟨hsz, hG, fun r' => ?_⟩
        rw [OpenSys.goto_pcs]
        split
        · exact hno
        · rename_i hne
          intro h
          exact hne (hi.excludes hhold (OpenPc.holds_of_inits h))
      · have hc := hi.okay p y hprev
        exact ⟨hc.size, hc.image, hquiet hc⟩
    · have hc := hi.okay r y hr
      exact ⟨hc.size, hc.image, hquiet hc⟩

omit [DecidableEq P] in
/-- Taking or dropping a lock that no other process relies on. -/
theorem OpenedInv.setLocks (hi : OpenedInv G s) {locks : Nat → Option P}
    (hl : ∀ p x, (s.pcs p).holds? = some x → locks x = some p) :
    OpenedInv G { s with locks := locks } :=
  ⟨hi.named, hi.linked, hl, hi.inits, hi.sound,
    fun p x h => ⟨(hi.okay p x h).size, (hi.okay p x h).image, (hi.okay p x h).quiet⟩⟩

/-- A store to a file by the process that initialises it. -/
theorem OpenedInv.setFile {f : File} (hi : OpenedInv G s) (hp : (s.pcs p).inits? = some x)
    (hfile : pc'.file? = some x) (hholds : pc'.holds? = some x) (hinit : pc'.inits? = some x)
    (hok : pc'.ok? = none) (hpc : pc'.InitOk (s.setFile x f).files) :
    OpenedInv G ((s.setFile x f).goto p pc') := by
  have hhold := OpenPc.holds_of_inits hp
  have hother : ∀ r, r ≠ p → ∀ y, (s.pcs r).holds? = some y → y ≠ x := by
    rintro r hr y hy rfl
    exact hr (hi.excludes hhold hy)
  refine ⟨fun r y hr => ?_, hi.linked, fun r y hr => ?_, fun r => ?_, fun y hy hr hacc => ?_,
    fun r y hr => ?_⟩
  · rw [OpenSys.goto_pcs] at hr
    split at hr
    · rw [hfile] at hr
      cases hr
      exact hi.named p x (OpenPc.file_of_holds hhold)
    · exact hi.named r y hr
  · rw [OpenSys.goto_pcs] at hr
    split at hr
    · rename_i h
      rw [hholds] at hr
      cases hr
      rw [h]
      exact hi.holds p x hhold
    · exact hi.holds r y hr
  · rw [OpenSys.goto_pcs]
    split
    · exact hpc
    · rename_i hne
      -- the file of another process is another one
      refine OpenPc.InitOk.congr (fun y hy => ?_) (hi.inits r)
      rw [OpenSys.goto_files, OpenSys.setFile_files, if_neg (hother r hne y hy)]
  · have hne : y ≠ x := by
      rintro rfl
      have h := hr p
      rw [OpenSys.goto_pcs, if_pos rfl] at h
      exact h hinit
    rw [OpenSys.goto_files, OpenSys.setFile_files, if_neg hne] at hy hacc ⊢
    refine hi.sound y hy (fun r => ?_) hacc
    have h := hr r
    rw [OpenSys.goto_pcs] at h
    split at h
    · rename_i hrp
      rw [hrp, hp]
      intro he
      exact hne (Option.some.inj he).symm
    · exact h
  · rw [OpenSys.goto_pcs] at hr
    split at hr
    · rw [hok] at hr
      cases hr
    · have hc := hi.okay r y hr
      have hne : y ≠ x := by
        rintro rfl
        exact hc.quiet p hp
      refine ⟨?_, ?_, fun r' => ?_⟩
      · rw [OpenSys.goto_files, OpenSys.setFile_files, if_neg hne]
        exact hc.size
      · rw [OpenSys.goto_files, OpenSys.setFile_files, if_neg hne]
        exact hc.image
      · rw [OpenSys.goto_pcs]
        split
        · rw [hinit]
          intro he
          exact hne (Option.some.inj he).symm
        · exact hc.quiet r'

/-- A new file is empty, and nobody else has it open. -/
theorem OpenedInv.create {left : Nat} (hi : OpenedInv G s) (hp : s.pcs p = .opening left) :
    OpenedInv G ({ s.setFile s.fresh .empty with
      fresh := s.fresh + 1, path := some s.fresh }.goto p (.flock left s.fresh)) := by
  -- the files of the others are old ones
  have hold : ∀ y, y < s.fresh → (s.setFile s.fresh .empty).files y = s.files y := by
    intro y hy
    rw [OpenSys.setFile_files, if_neg (by omega)]
  have hnamed : ∀ r y, (s.pcs r).holds? = some y → y < s.fresh := by
    intro r y hr
    exact hi.named r y (OpenPc.file_of_holds hr)
  refine ⟨fun r y hr => ?_, fun y hy => ?_, fun r y hr => ?_, fun r => ?_, fun y hy hr hacc => ?_,
    fun r y hr => ?_⟩
  · rw [OpenSys.goto_pcs] at hr
    split at hr
    · cases hr
      exact Nat.lt_succ_self _
    · exact Nat.lt_succ_of_lt (hi.named r y hr)
  · cases hy
    exact Nat.lt_succ_self _
  -- nobody has locked the new file yet
  · rw [OpenSys.goto_pcs] at hr
    split at hr
    · cases hr
    · exact hi.holds r y hr
  · rw [OpenSys.goto_pcs]
    split
    · trivial
    · exact OpenPc.InitOk.congr (fun y hy => hold y (hnamed r y hy)) (hi.inits r)
  -- the new file is empty, so it has no header that could be wrong
  · have hne : y ≠ s.fresh := by
      rintro rfl
      exact hy (by show ((s.setFile _ _).files _).size = 0; rw [OpenSys.setFile_files, if_pos rfl]; rfl)
    have hsame : (s.setFile s.fresh .empty).files y = s.files y := by
      rw [OpenSys.setFile_files, if_neg hne]
    show G ((s.setFile s.fresh .empty).files y).image
    rw [hsame]
    refine hi.sound y (by rw [← hsame]; exact hy) (fun r => ?_) (by rw [← hsame]; exact hacc)
    have h := hr r
    rw [OpenSys.goto_pcs] at h
    split at h
    · rename_i hrp
      rw [hrp, hp]
      intro h
      cases h
    · exact h
  · rw [OpenSys.goto_pcs] at hr
    split at hr
    -- a process that has its file mapped keeps it
    · cases hr
    · have hc := hi.okay r y hr
      have hsame := hold y (hi.named r y (OpenPc.file_of_ok hr))
      refine ⟨?_, ?_, fun r' => ?_⟩
      · show ((s.setFile s.fresh .empty).files y).size = regionSize
        rw [hsame]
        exact hc.size
      · show G ((s.setFile s.fresh .empty).files y).image
        rw [hsame]
        exact hc.image
      · rw [OpenSys.goto_pcs]
        split
        · intro h
          cases h
        · exact hc.quiet r'

/-- A process that goes on with the file it has locked. -/
theorem OpenedInv.stay (hi : OpenedInv G s) (hx : (s.pcs p).holds? = some x)
    (hf : pc'.file? = some x) (hh : pc'.holds? = some x) (hinit : pc'.InitOk s.files)
    (hnew : ∀ x, pc'.inits? = some x → (s.pcs p).inits? = some x ∨ (s.files x).size = 0)
    (hsound : ∀ x, (s.pcs p).inits? = some x → (s.files x).size ≠ 0 →
      (s.files x).image.accepted = true → pc'.inits? = some x ∨ G (s.files x).image)
    (hok : ∀ x, pc'.ok? = some x → (s.files x).size = regionSize ∧ G (s.files x).image ∧
      pc'.inits? ≠ some x ∧ (s.pcs p).holds? = some x ∨ (s.pcs p).ok? = some x) :
    OpenedInv G (s.goto p pc') := by
  refine hi.goto (fun y h => ?_) (fun y h => ?_) hinit hnew hsound hok
  · rw [hf] at h
    cases h
    exact hi.named p x (OpenPc.file_of_holds hx)
  · rw [hh] at h
    cases h
    exact hi.holds p x hx

/-- **Step lemma.** Every step of a process keeps the invariant, if a complete initialisation gives
    `G`. -/
theorem OpenedInv.tick (hi : OpenedInv G s) (hG : ∀ n, initWrites.drop n = [] → G (writtenImage n))
    (hg : OpenGo s p (s.pcs p) s') : OpenedInv G s' := by
  have hinit := hi.inits p
  have hheld := hi.holds p
  have hname := hi.named p
  generalize hpc : s.pcs p = pc at hg hinit hheld hname
  cases hg with
  | openFail | flockFail =>
    refine hi.goto (fun _ h => by cases h) (fun _ h => by cases h) trivial
      (fun _ h => by cases h) (fun y h => ?_) (fun _ h => by cases h)
    rw [hpc] at h
    cases h
  | opened hx =>
    refine hi.goto (fun y h => ?_) (fun _ h => by cases h) trivial
      (fun _ h => by cases h) (fun y h => ?_) (fun _ h => by cases h)
    · cases h
      exact hi.linked _ hx
    · rw [hpc] at h
      cases h
  | created => exact hi.create hpc
  | @flock left x hx =>
    have hset : OpenedInv G { s with locks := Function.update s.locks x (some p) } := by
      refine hi.setLocks fun r y hr => ?_
      rw [Function.update_apply]
      split
      · rename_i hyx
        rw [← hyx, hi.holds r y hr] at hx
        -- the file is locked by nobody, so none of the locks that are held changes
        cases hx
      · exact hi.holds r y hr
    refine hset.goto (fun y h => ?_) (fun y h => ?_) trivial (fun _ h => by cases h)
      (fun y h => ?_) (fun _ h => by cases h)
    · cases h
      exact hname _ rfl
    · cases h
      exact Function.update_self ..
    · rw [show (s.pcs p).inits? = none by rw [hpc]; rfl] at h
      cases h
  | fstatFail | fstatStale =>
    refine hi.stay (by rw [hpc]; rfl) rfl rfl trivial (fun _ h => by cases h) (fun y h => ?_)
      (fun _ h => by cases h)
    · rw [hpc] at h
      cases h
  | fstatEmpty h0 =>
    refine hi.stay (by rw [hpc]; rfl) rfl rfl h0 (fun y h => ?_) (fun y h => ?_)
      (fun _ h => by cases h)
    · cases h
      exact .inr h0
    · rw [hpc] at h
      cases h
  | fstat hS =>
    refine hi.stay (by rw [hpc]; rfl) rfl rfl hS (fun _ h => by cases h) (fun y h => ?_)
      (fun _ h => by cases h)
    · rw [hpc] at h
      cases h
  | @ftruncateFail left x =>
    refine hi.stay (by rw [hpc]; rfl) rfl rfl trivial (fun _ h => by cases h)
      (fun y h hne => ?_) (fun _ h => by cases h)
    · rw [hpc] at h
      cases h
      exact absurd hinit hne
  | @ftruncate left x =>
    refine hi.setFile (by rw [hpc]; rfl) rfl rfl rfl rfl ?_
    show (s.setFile x _).files x = _
    rw [OpenSys.setFile_files, if_pos rfl]
  | @mmapFail left x b =>
    refine hi.stay (by rw [hpc]; rfl) rfl rfl trivial (fun _ h => by cases h)
      (fun y h _ hacc => ?_) (fun _ h => by cases h)
    · rw [hpc] at h
      cases b
      · cases h
      · -- the file is left truncated and without a header
        cases h
        have hzero : s.files x = { size := regionSize, image := .zero } := hinit
        rw [hzero] at hacc
        exact absurd hacc (by decide)
  | @mmapInit left x =>
    -- the file is still as it was extended
    have hzero : s.files x = { size := regionSize, image := .zero } := hinit
    refine hi.stay (by rw [hpc]; rfl) rfl rfl ⟨0, rfl, hzero⟩ (fun y h => ?_)
      (fun y h _ _ => ?_) (fun _ h => by cases h)
    · rw [hpc]
      exact .inl h
    · rw [hpc] at h
      exact .inl h
  | @mmap left x =>
    refine hi.stay (by rw [hpc]; rfl) rfl rfl hinit (fun _ h => by cases h) (fun y h => ?_)
      (fun _ h => by cases h)
    · rw [hpc] at h
      cases h
  | @written left x =>
    obtain ⟨n, hn, hf⟩ := hinit
    have hdone := hG n hn.symm
    refine hi.stay (by rw [hpc]; rfl) rfl rfl trivial (fun _ h => by cases h)
      (fun y h _ _ => ?_) (fun y h => ?_)
    · rw [hpc] at h
      cases h
      rw [hf]
      exact .inr hdone
    · cases h
      rw [hf, hpc]
      exact .inl ⟨rfl, hdone, fun h => (by cases h), rfl⟩
  | @write left x w ws =>
    -- one more store of the header is done
    obtain ⟨n, hn, hf⟩ := hinit
    obtain ⟨happ, hws⟩ := writtenImage_succ hn.symm
    refine hi.setFile (by rw [hpc]; rfl) rfl rfl rfl rfl ⟨n + 1, hws.symm, ?_⟩
    show (s.setFile x _).files x = _
    rw [OpenSys.setFile_files, if_pos rfl, hf, happ]
  | @accept left x hacc =>
    refine hi.stay (by rw [hpc]; rfl) rfl rfl trivial (fun _ h => by cases h) (fun y h => ?_)
      (fun y h => ?_)
    · rw [hpc] at h
      cases h
    · cases h
      have hsize : (s.files x).size = regionSize := hinit
      have hquiet := hi.quiet (p := p) (x := x) (by rw [hpc]; rfl) (by rw [hpc]; intro h; cases h)
      have hne : (s.files x).size ≠ 0 := by
        rw [hsize]
        decide
      rw [hpc]
      exact .inl ⟨hsize, hi.sound x hne hquiet hacc, fun h => (by cases h), rfl⟩
  | @reject left x hrej =>
    refine hi.stay (by rw [hpc]; rfl) rfl rfl trivial (fun _ h => by cases h) (fun y h => ?_)
      (fun _ h => by cases h)
    · rw [hpc] at h
      cases h
  | @unlock left x r =>
    have hlast : (afterTry left x r).holds? = none ∧ (afterTry left x r).inits? = none ∧
        (afterTry left x r).InitOk s.files := by
      rcases afterTry_cases left x r with ⟨_, h⟩ | ⟨_, h⟩ | ⟨e, h⟩ <;> rw [h] <;>
        exact ⟨rfl, rfl, trivial⟩
    obtain ⟨hnone, hquiet, hok⟩ := hlast
    have hgo : OpenedInv G (s.goto p (afterTry left x r)) := by
      refine hi.goto (fun y h => ?_) (fun y h => ?_) hok (fun y h => ?_) (fun y h => ?_)
        (fun y h => .inr ?_)
      · refine hname y ?_
        rcases afterTry_cases left x r with ⟨_, ha⟩ | ⟨_, ha⟩ | ⟨e, ha⟩ <;> rw [ha] at h
        · exact h
        · exact h
        · cases h
      · rw [hnone] at h
        cases h
      · rw [hquiet] at h
        cases h
      · rw [hpc] at h
        cases h
      · rw [hpc]
        rcases afterTry_cases left x r with ⟨rfl, ha⟩ | ⟨_, ha⟩ | ⟨e, ha⟩ <;> rw [ha] at h
        · exact h
        · cases h
        · cases h
    refine OpenedInv.setLocks hgo fun r' y hr => ?_
    show Function.update s.locks x none y = some r'
    rw [Function.update_apply]
    split
    · rename_i hyx
      have hx := hgo.holds r' y hr
      rw [hyx, OpenSys.goto_locks, hheld x rfl] at hx
      cases hx
      rw [OpenSys.goto_pcs, if_pos rfl, hnone] at hr
      cases hr
    · exact hgo.holds r' y hr
  | @unlink left x =>
    have hpath : OpenedInv G { s with path := none } :=
      ⟨hi.named, fun _ h => (by cases h), hi.holds, hi.inits, hi.sound,
        fun p x h => ⟨(hi.okay p x h).size, (hi.okay p x h).image, (hi.okay p x h).quiet⟩⟩
    cases left with
    | zero | succ =>
      refine hpath.goto (fun _ h => by cases h) (fun _ h => by cases h) trivial
        (fun _ h => by cases h) (fun y h => ?_) (fun _ h => by cases h)
      rw [show (s.pcs p).inits? = none by rw [hpc]; rfl] at h
      cases h

/-- A call opens nothing yet. -/
theorem OpenedInv.call (hi : OpenedInv G s) (hp : s.pcs p = .idle) :
    OpenedInv G (s.goto p (.opening 3)) := by
  refine hi.goto (fun _ h => by cases h) (fun _ h => by cases h) trivial
    (fun _ h => by cases h) (fun y h => ?_) (fun _ h => by cases h)
  rw [hp] at h
  cases h

/-- A dead process leaves its file half initialised, which is sound only as long as nothing is
    expected of an accepted file. -/
theorem OpenedInv.die (hi : OpenedInv G s) (hG : ∀ f : Image, f.accepted = true → G f) :
    OpenedInv G (s.kill p) := by
  have hgo : OpenedInv G (s.goto p .dead) :=
    hi.goto (fun _ h => by cases h) (fun _ h => by cases h) trivial (fun _ h => by cases h)
      (fun y _ _ hacc => .inr (hG _ hacc)) (fun _ h => by cases h)
  refine OpenedInv.setLocks hgo fun r y hr => ?_
  have hl := hgo.holds r y hr
  rw [OpenSys.goto_locks] at hl
  show (if s.locks y = some p then none else s.locks y) = some r
  split
  · rename_i h
    rw [h] at hl
    cases hl
    rw [OpenSys.goto_pcs, if_pos rfl] at hr
    cases hr
  · exact hl

end Opened

/-! ### All processes map one file -/

section Shared

variable {s s' : OpenSys P} {p q : P} {x : Nat}

/-- File `x` is stale for good: it has some size, is no valid region, and nobody initialises it. -/
structure Stale (s : OpenSys P) (x : Nat) : Prop where
  size : (s.files x).size ≠ 0
  invalid : (s.files x).size = regionSize → (s.files x).image.accepted = false
  quiet : ∀ p, (s.pcs p).inits? ≠ some x

/-- A step of an opener leaves the other openers where they are. -/
theorem OpenGo.others {pc : OpenPc} (hg : OpenGo s p pc s') (hq : q ≠ p) :
    s'.pcs q = s.pcs q := by
  cases hg <;> rw [OpenSys.goto_pcs, if_neg hq] <;> rfl

/-- A process changes only the file it initialises, or a new one. -/
theorem OpenGo.files {pc : OpenPc} (hg : OpenGo s p pc s') (hx : pc.inits? ≠ some x)
    (hold : x < s.fresh) : s'.files x = s.files x := by
  cases hg with
  | created =>
    show (s.setFile s.fresh .empty).files x = s.files x
    rw [OpenSys.setFile_files, if_neg (by omega)]
  | @ftruncate left y | @write left y =>
    have hne : x ≠ y := by
      rintro rfl
      exact hx rfl
    rw [OpenSys.goto_files, OpenSys.setFile_files, if_neg hne]
  | _ => rfl

/-- A process begins to initialise only an empty file. -/
theorem OpenGo.inits {pc : OpenPc} (hg : OpenGo s p pc s') (hx : (s'.pcs p).inits? = some x) :
    pc.inits? = some x ∨ (s.files x).size = 0 := by
  cases hg with
  | @fstatEmpty left y h0 =>
    rw [OpenSys.goto_pcs, if_pos rfl] at hx
    cases hx
    exact .inr h0
  | ftruncate | mmapInit | write =>
    rw [OpenSys.goto_pcs, if_pos rfl] at hx
    exact .inl hx
  | @unlock left y r =>
    rw [OpenSys.goto_pcs, if_pos rfl] at hx
    rcases afterTry_cases left y r with ⟨_, h⟩ | ⟨_, h⟩ | ⟨e, h⟩ <;> rw [h] at hx <;> cases hx
  | @unlink left y =>
    rw [OpenSys.goto_pcs, if_pos rfl] at hx
    cases left <;> cases hx
  | _ =>
    rw [OpenSys.goto_pcs, if_pos rfl] at hx
    cases hx

/-- The path changes when a file is created or unlinked. -/
theorem OpenGo.path {pc : OpenPc} (hg : OpenGo s p pc s') :
    (s'.path = s.path ∧ s'.fresh = s.fresh) ∨
      (s.path = none ∧ s'.path = some s.fresh ∧ s'.fresh = s.fresh + 1) ∨
      ∃ left y, pc = .unlink left y ∧ s'.path = none ∧ s'.fresh = s.fresh := by
  cases hg with
  | created hnone => exact .inr (.inl ⟨hnone, rfl, rfl⟩)
  | unlink => exact .inr (.inr ⟨_, _, rfl, rfl, rfl⟩)
  | _ => exact .inl ⟨rfl, rfl⟩

/-- A stale file stays stale. -/
theorem Stale.tick (hst : Stale s x) (hold : x < s.fresh) (hg : OpenGo s p (s.pcs p) s') :
    Stale s' x := by
  have hsame := hg.files (hst.quiet p) hold
  refine ⟨by rw [hsame]; exact hst.size, by rw [hsame]; exact hst.invalid, fun q hq => ?_⟩
  by_cases hqp : q = p
  · subst hqp
    rcases hg.inits hq with h | h
    · exact hst.quiet q h
    · exact hst.size h
  · rw [hg.others hqp] at hq
    exact hst.quiet q hq

/-- A death makes no file fresh. -/
theorem Stale.kill (hst : Stale s x) : Stale (s.kill p) x := by
  refine ⟨hst.size, hst.invalid, fun q => ?_⟩
  rw [OpenSys.kill, OpenSys.goto_pcs]
  split
  · intro h
    cases h
  · exact hst.quiet q

/-- The invariant of `open_and_map`: whatever was judged stale is, and whatever the path no longer
    names was judged stale. -/
structure SharedInv (s : OpenSys P) : Prop extends
    OpenedInv (fun f => f.accepted = true) s where
  stale : ∀ p x, (s.pcs p).stale? = some x → Stale s x
  gone : ∀ x, x < s.fresh → s.path ≠ some x → Stale s x

/-- If the step is an `unlink`, the path names the file that was judged stale, or nothing. -/
def UnlinkHits (s : OpenSys P) : OpenAct P → Prop
  | .tick p _ => ∀ left x, s.pcs p = .unlink left x → s.path = none ∨ s.path = some x
  | _ => True

omit [DecidableEq P] in
/-- Who has found a file stale has it open. -/
theorem OpenPc.file_of_stale {pc : OpenPc} (h : pc.stale? = some x) : pc.file? = some x := by
  unfold OpenPc.stale? at h
  split at h
  · split at h
    · exact h
    · cases h
  · exact h
  · cases h

/-- What a process judges stale is stale. -/
theorem SharedInv.judged (hi : SharedInv s) (hg : OpenGo s p (s.pcs p) s')
    (hx : (s'.pcs p).stale? = some x) : Stale s x ∧ x < s.fresh := by
  have hname := hi.named p
  have hinit := hi.inits p
  have hst := hi.stale p
  have hquiet : ∀ y, (s.pcs p).holds? = some y → (s.pcs p).inits? ≠ some y →
      ∀ q, (s.pcs q).inits? ≠ some y := fun y => hi.quiet
  generalize s.pcs p = pc at hg hinit hst hquiet hname
  cases hg with
  | @fstatStale left y h0 hS =>
    rw [OpenSys.goto_pcs, if_pos rfl] at hx
    cases hx
    exact ⟨⟨h0, fun h => absurd h hS, hquiet x rfl (by intro h; cases h)⟩, hname x rfl⟩
  | @reject left y hrej =>
    rw [OpenSys.goto_pcs, if_pos rfl] at hx
    cases hx
    have hsize : (s.files x).size = regionSize := hinit
    refine ⟨⟨?_, fun _ => hrej, hquiet x rfl (by intro h; cases h)⟩, hname x rfl⟩
    rw [hsize]
    decide
  | fstatFail he | ftruncateFail he | mmapFail he =>
    rw [OpenSys.goto_pcs, if_pos rfl] at hx
    simp [OpenPc.stale?, he] at hx
  | @unlock left y r =>
    rw [OpenSys.goto_pcs, if_pos rfl] at hx
    rcases afterTry_cases left y r with ⟨_, h⟩ | ⟨rfl, h⟩ | ⟨e, h⟩ <;> rw [h] at hx
    · cases hx
    · cases hx
      exact ⟨hst x (by simp [OpenPc.stale?]), hname x rfl⟩
    · cases hx
  | @unlink left y =>
    rw [OpenSys.goto_pcs, if_pos rfl] at hx
    cases left <;> cases hx
  | _ =>
    rw [OpenSys.goto_pcs, if_pos rfl] at hx
    cases hx

/-- **Every step keeps the openers on one file**, if each unlink hits the file it was meant for. -/
theorem SharedInv.step {a l : OpenAct P} (hi : SharedInv s) (h : openStep s a = some (s', l))
    (hok : UnlinkHits s l) : SharedInv s' := by
  cases openStep_inv h with
  | @call p hp =>
    -- an opener that starts has judged nothing
    refine ⟨hi.toOpenedInv.call hp, fun q x hx => ?_, fun x hx hpath => ?_⟩
    · rw [OpenSys.goto_pcs] at hx
      split at hx
      · cases hx
      · have hst := hi.stale q x hx
        refine ⟨hst.size, hst.invalid, fun r => ?_⟩
        rw [OpenSys.goto_pcs]
        split
        · intro h
          cases h
        · exact hst.quiet r
    · have hst := hi.gone x hx hpath
      refine ⟨hst.size, hst.invalid, fun r => ?_⟩
      rw [OpenSys.goto_pcs]
      split
      · intro h
        cases h
      · exact hst.quiet r
  | @tick p err _ hg =>
    refine ⟨hi.toOpenedInv.tick (fun n hn => ?_) hg, fun q x hx => ?_, fun x hx hpath => ?_⟩
    -- the header that is written in full passes the check
    · rw [writtenImage_full hn]
      decide
    · by_cases hqp : q = p
      · subst hqp
        exact (hi.judged hg hx).1.tick (hi.judged hg hx).2 hg
      · rw [hg.others hqp] at hx
        exact (hi.stale q x hx).tick (hi.named q x (OpenPc.file_of_stale hx)) hg
    -- the path is kept, created, or unlinked
    · rcases hg.path with ⟨h₁, h₂⟩ | ⟨hnone, h₁, h₂⟩ | ⟨left, y, hpc, h₁, h₂⟩
      · rw [h₁] at hpath
        rw [h₂] at hx
        exact (hi.gone x hx hpath).tick hx hg
      · have hne : x ≠ s.fresh := by
          rintro rfl
          exact hpath h₁
        have hold : x < s.fresh := by omega
        exact (hi.gone x hold (by rw [hnone]; intro h; cases h)).tick hold hg
      · -- the file the path named was judged stale
        rw [h₂] at hx
        by_cases hpx : s.path = some x
        · rcases hok left y hpc with h | h
          · rw [h] at hpx
            cases hpx
          · rw [h] at hpx
            cases hpx
            exact (hi.stale p x (by rw [hpc]; rfl)).tick hx hg
        · exact (hi.gone x hx hpx).tick hx hg
  | @die p =>
    refine ⟨hi.toOpenedInv.die fun _ h => h, fun q x hx => ?_, fun x hx hpath => ?_⟩
    -- who has died has judged nothing
    · have hq : (s.pcs q).stale? = some x := by
        by_cases hqp : q = p
        · subst hqp
          rw [OpenSys.kill, OpenSys.goto_pcs, if_pos rfl] at hx
          cases hx
        · rw [OpenSys.kill, OpenSys.goto_pcs, if_neg hqp] at hx
          exact hx
      exact (hi.stale q x hq).kill
    · exact (hi.gone x hx hpath).kill

/-- A path with the given file behind it, and nobody at work. -/
def OpenSys.start (f : Option File) : OpenSys P where
  files := fun _ => f.getD .empty
  fresh := if f.isSome then 1 else 0
  path := f.map fun _ => 0
  locks := fun _ => none
  pcs := fun _ => .idle

/-- **All processes share one region.** Whatever file the path names at first: in every run, with
    deaths, in which every `unlink` removes the file its process judged stale, any two processes
    that return `Ok` map the same file. -/
theorem one_inode {f : Option File} {h : List (OpenAct P)} {y : Nat}
    (hr : Run openStep (fun s a _ => UnlinkHits s a) (OpenSys.start f) h s)
    (hp : s.pcs p = .done (.ok x)) (hq : s.pcs q = .done (.ok y)) : x = y := by
  have hstart : SharedInv (OpenSys.start f : OpenSys P) := by
    refine ⟨⟨fun _ _ h => (by cases h), fun x hx => ?_, fun _ _ h => (by cases h), fun _ => trivial,
      fun _ _ _ h => h, fun _ _ h => (by cases h)⟩, fun _ _ h => (by cases h), fun x hx hpath => ?_⟩
    · cases f with
      | none => cases hx
      | some f =>
        cases hx
        exact Nat.one_pos
    · cases f with
      | none => exact absurd hx (Nat.not_lt_zero x)
      | some f =>
        obtain rfl : x = 0 := Nat.lt_one_iff.mp hx
        exact absurd rfl hpath
  have hinv : SharedInv s :=
    hr.state_invariant hstart (fun s a s' l hi hs hok => hi.step hs hok)
  -- a valid file is not stale, so the path still names it
  have hnamed : ∀ {r z}, s.pcs r = .done (.ok z) → s.path = some z := by
    intro r z hz
    by_contra hpath
    have hc := hinv.okay r z (by rw [hz]; rfl)
    have hst := hinv.gone z (hinv.named r z (by rw [hz]; rfl)) hpath
    have hvalid : (s.files z).image.accepted = true := hc.image
    rw [hst.invalid hc.size] at hvalid
    cases hvalid
  have hxy := (hnamed hp).symm.trans (hnamed hq)
  exact Option.some.inj hxy

/-- The file an `unlink` is meant for. -/
def OpenPc.unlinks : OpenPc → Option Nat
  | .unlink _ x => some x
  | _ => none

instance (s : OpenSys P) : (a : OpenAct P) → Decidable (UnlinkHits s a)
  | .tick p _ =>
    decidable_of_iff (∀ x ∈ (s.pcs p).unlinks, s.path = none ∨ s.path = some x) (by
      constructor
      · intro h left x hpc
        exact h x (by rw [hpc]; rfl)
      · intro h x hx
        unfold OpenPc.unlinks at hx
        split at hx
        · rename_i left _ hpc
          cases hx
          exact h left x hpc
        · cases hx)
  | .call _ | .die _ => isTrue trivial

/-- The file of a process that returned `Ok`. -/
def OpenPc.mapped : OpenPc → Option Nat
  | .done (.ok x) => some x
  | _ => none

omit [DecidableEq P] in
/-- The program counter of an opener that has returned, from its file. -/
theorem OpenPc.eq_of_mapped {pc : OpenPc} (h : pc.mapped = some x) : pc = .done (.ok x) := by
  unfold OpenPc.mapped at h
  split at h <;> cases h
  rfl

end Shared

/-- A file of another size, as an older build may have left it. -/
def leftover : File where
  size := 1
  image := .zero

/-- Process `p` opens the leftover, judges it stale and is about to unlink it. -/
def judging (p : Fin 2) : List (OpenAct (Fin 2)) :=
  .call p :: List.replicate 4 (.tick p none)

/-- Process `p` unlinks, creates the file anew, initialises it and returns. -/
def recreating (p : Fin 2) : List (OpenAct (Fin 2)) := List.replicate 21 (.tick p none)

/-- Two openers, one after the other, replace a leftover file and share the new one. -/
theorem one_inode_inTurn :
    ∃ h s x y, Run openStep (fun s a _ => UnlinkHits s a) (OpenSys.start (some leftover)) h s ∧
      s.pcs (0 : Fin 2) = .done (.ok x) ∧ s.pcs 1 = .done (.ok y) ∧ x = y := by
  obtain ⟨h, s, hr, h₀, h₁⟩ := exists_run_of_exec openStep
    (fun s a _ => UnlinkHits s a) (OpenSys.start (some leftover))
    (P := fun s : OpenSys (Fin 2) => (s.pcs 0).mapped = some 1 ∧ (s.pcs 1).mapped = some 1)
    (judging 0 ++ recreating 0 ++ .call 1 :: List.replicate 6 (.tick 1 none)) (by decide +kernel)
  have hp := OpenPc.eq_of_mapped h₀
  have hq := OpenPc.eq_of_mapped h₁
  exact ⟨h, s, 1, 1, hr, hp, hq, one_inode hr hp hq⟩

/-- Both processes judge the leftover stale; the first recreates the file and maps it, and the
    second unlinks that one and maps another. -/
theorem two_inodes :
    ∃ h s, Run openStep (fun _ _ _ => True) (OpenSys.start (some leftover)) h s ∧
      s.pcs (0 : Fin 2) = .done (.ok 1) ∧ s.pcs 1 = .done (.ok 2) := by
  obtain ⟨h, s, hr, h₀, h₁⟩ := exists_run_of_exec openStep (fun _ _ _ => True)
    (OpenSys.start (some leftover))
    (P := fun s : OpenSys (Fin 2) => (s.pcs 0).mapped = some 1 ∧ (s.pcs 1).mapped = some 2)
    (judging 0 ++ judging 1 ++ recreating 0 ++ recreating 1) (by decide +kernel)
  exact ⟨h, s, hr, OpenPc.eq_of_mapped h₀, OpenPc.eq_of_mapped h₁⟩

end Ntsync
