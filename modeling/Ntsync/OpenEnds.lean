import Mathlib
import Ntsync.OpenCrash

namespace Ntsync

open Lts

/-!
# How a call of `open_and_map` ends

For any number of processes on one path, with failing system calls and deaths anywhere.

* `opens_return` — every call ends after at most 41 of its own steps, and a process inside a call
  can make its next step unless it waits for the `flock` of a process that can;
* `opens_give_up` — a call answers the errno of one of its own system calls, or `ESTALE` in a run
  with at least three deaths or failures: four rounds are enough for two;
* `opens_keep` — a file with contents that nobody initialises is never written again;
* `open_alone` — what a call does without others: it keeps a valid file and recreates any other.
-/

variable {P : Type} [DecidableEq P] {s s' : OpenSys P} {p q : P} {x : Nat} {err : Option Int}

@[simp] theorem OpenSys.goto_self {pc : OpenPc} : (s.goto p pc).pcs p = pc := by
  rw [OpenSys.goto_pcs, if_pos rfl]

/-! ### The steps of one call -/

/-- Steps of process `p` inside its call. -/
def OpenAct.stepOf (p : P) : OpenAct P → Bool
  | .tick q _ => decide (q = p)
  | _ => false

namespace OpenPc

def inCall : OpenPc → Bool
  | .idle | .done _ | .dead => false
  | _ => true

/-- An upper bound on the steps to the end of the call.  A round that finds the file stale takes
    seven steps, and one that initialises it takes twenty and is the last. -/
def rank : OpenPc → Nat
  | .idle => 41
  | .opening left => 7 * left + 20
  | .flock left _ => 7 * left + 19
  | .fstat left _ => 7 * left + 18
  | .ftruncate _ _ => 17
  | .mmap _ _ true => 16
  | .mmap left _ false => 7 * left + 17
  | .init _ _ ws => ws.length + 2
  | .check left _ => 7 * left + 16
  | .unlock left _ (.error e) => if e = estale then 7 * left + 15 else 1
  | .unlock _ _ (.ok _) => 1
  | .unlink left _ => 7 * left + 14
  | .done _ | .dead => 0

end OpenPc

/-- After its unlink an opener is nearer to its end. -/
theorem afterUnlink_rank (left : Nat) : (afterUnlink left).rank < (OpenPc.unlink left x).rank := by
  cases left with
  | zero => show 0 < 7 * 0 + 14; omega
  | succ left => show 7 * left + 20 < 7 * (left + 1) + 14; omega

/-- After an attempt on the file an opener is nearer to its end. -/
theorem afterTry_rank (left : Nat) (r : Except Int Unit) :
    (afterTry left x r).rank < (OpenPc.unlock left x r).rank := by
  rcases afterTry_cases left x r with ⟨rfl, h⟩ | ⟨rfl, h⟩ | ⟨e, h⟩ <;> rw [h]
  · exact Nat.one_pos
  · -- the unlink of a stale file
    show 7 * left + 14 < if estale = estale then 7 * left + 15 else 1
    rw [if_pos rfl]
    omega
  · show 0 < _
    cases r with
    | ok u => exact Nat.one_pos
    | error e =>
      show 0 < if e = estale then 7 * left + 15 else 1
      split <;> omega

/-- Every step of a call brings it closer to its end. -/
theorem OpenGo.rank {pc : OpenPc} (hg : OpenGo s p pc s') : (s'.pcs p).rank < pc.rank := by
  cases hg with
  | unlock =>
    rw [OpenSys.goto_self]
    exact afterTry_rank _ _
  | unlink =>
    rw [OpenSys.goto_self]
    exact afterUnlink_rank _
  | fstatStale | reject =>
    rw [OpenSys.goto_self]
    simp only [OpenPc.rank, if_true]
    omega
  | fstatFail he | ftruncateFail he =>
    rw [OpenSys.goto_self]
    simp only [OpenPc.rank, if_neg he]
    omega
  | @mmapFail left y b e he =>
    rw [OpenSys.goto_self]
    cases b <;> simp only [OpenPc.rank, if_neg he] <;> omega
  | mmapInit =>
    rw [OpenSys.goto_self]
    show 13 + 2 < 16
    omega
  | _ =>
    rw [OpenSys.goto_self]
    simp only [OpenPc.rank, List.length_cons, List.length_nil]
    omega

/-- **Every step of an opener brings it nearer to its end**, and the others do not set it back. -/
theorem OpenStep.rank {a : OpenAct P} (hs : OpenStep s a s') (p : P) :
    (s'.pcs p).rank + (if a.stepOf p then 1 else 0) ≤ (s.pcs p).rank := by
  cases hs with
  | @call q hq =>
    rw [OpenSys.goto_pcs, show (OpenAct.call q).stepOf p = false from rfl]
    split
    · rename_i h
      rw [h, hq]
      show 7 * 3 + 20 + 0 ≤ 41
      omega
    · exact Nat.le_refl _
  | @tick q err _ hg =>
    by_cases h : q = p
    · subst h
      rw [show (OpenAct.tick q err).stepOf q = true from decide_eq_true rfl]
      exact hg.rank
    · rw [show (OpenAct.tick q err).stepOf p = false from decide_eq_false h,
        hg.others (Ne.symm h)]
      exact Nat.le_refl _
  | @die q =>
    rw [OpenSys.kill, OpenSys.goto_pcs, show (OpenAct.die q).stepOf p = false from rfl]
    split
    · exact Nat.zero_le _
    · exact Nat.le_refl _

/-- The steps a call has made and those left to it. -/
theorem openRun_rank {ok : OpenSys P → OpenAct P → OpenSys P → Prop} {s₀ : OpenSys P}
    {h : List (OpenAct P)} (hr : Run openStep ok s₀ h s) (p : P) :
    (s.pcs p).rank + h.countP (OpenAct.stepOf p) ≤ (s₀.pcs p).rank := by
  refine hr.invariant (I := fun h s => (s.pcs p).rank + h.countP (OpenAct.stepOf p) ≤
    (s₀.pcs p).rank) (Nat.le_refl _) (fun h s a s' l hi hs _ => ?_)
  have hrank := (openStep_inv hs).rank p
  rw [List.countP_cons]
  omega

/-! ### Waiting for the lock of a file -/

/-- The `flock` of a file belongs to a process on its way to the `LOCK_UN`. -/
def LocksHeld (s : OpenSys P) : Prop := ∀ y q, s.locks y = some q → (s.pcs q).holds? = some y

omit [DecidableEq P] in
/-- Who holds a file lock is in the middle of an opening. -/
theorem OpenPc.holds_inCall {pc : OpenPc} (h : pc.holds? = some x) :
    pc.inCall = true ∧ ∀ left y, pc ≠ .flock left y := by
  cases pc <;> cases h <;> exact ⟨rfl, fun _ _ he => by cases he⟩

/-- Only a taken lock keeps a process from its next step. -/
theorem openTick_isSome (hcall : (s.pcs p).inCall = true)
    (hfree : ∀ left x, s.pcs p = .flock left x → s.locks x = none) :
    (openTick s p none).isSome = true := by
  unfold openTick
  rw [if_neg (by decide)]
  split
  · rename_i h
    rw [h] at hcall
    cases hcall
  · rename_i h
    rw [h] at hcall
    cases hcall
  · rename_i h
    rw [h] at hcall
    cases hcall
  · cases s.path <;> rfl
  · rename_i left x h
    rw [hfree left x h]
    rfl
  · show (if _ then _ else if _ then _ else _ : Option (OpenSys P)).isSome = true
    split
    · rfl
    · split <;> rfl
  all_goals rfl

/-- The lock a step takes, and what becomes of the others. -/
theorem OpenGo.locks {pc : OpenPc} (hg : OpenGo s p pc s') (y : Nat) :
    s'.locks y = s.locks y ∧ (pc.holds? = some y → (s'.pcs p).holds? = some y) ∨
      s'.locks y = some p ∧ (s'.pcs p).holds? = some y ∨ s'.locks y = none := by
  cases hg with
  | @flock left x hl =>
    by_cases h : y = x
    · subst h
      refine .inr (.inl ⟨?_, ?_⟩)
      · rw [OpenSys.goto_locks]
        exact Function.update_self ..
      · rw [OpenSys.goto_self]
        rfl
    · refine .inl ⟨?_, fun h => by cases h⟩
      rw [OpenSys.goto_locks]
      exact Function.update_of_ne h ..
  | @unlock left x r =>
    by_cases h : y = x
    · subst h
      refine .inr (.inr ?_)
      rw [OpenSys.goto_locks]
      exact Function.update_self ..
    · refine .inl ⟨?_, fun h' => ?_⟩
      · rw [OpenSys.goto_locks]
        exact Function.update_of_ne h ..
      · cases h'
        exact absurd rfl h
  | openFail | opened | created | flockFail | unlink => exact .inl ⟨rfl, fun h => by cases h⟩
  | _ =>
    refine .inl ⟨rfl, fun h => ?_⟩
    rw [OpenSys.goto_self]
    exact h

/-- Every step keeps the locks with their openers. -/
theorem LocksHeld.step {a l : OpenAct P} (hi : LocksHeld s) (h : openStep s a = some (s', l)) :
    LocksHeld s' := by
  intro y q hq
  cases openStep_inv h with
  | @call p hp =>
    have hold := hi y q hq
    rw [OpenSys.goto_pcs]
    split
    · rename_i he
      rw [he, hp] at hold
      cases hold
    · exact hold
  | @tick p err _ hg =>
    rcases hg.locks y with ⟨hsame, hkeep⟩ | ⟨hnew, hheld⟩ | hnone
    · rw [hsame] at hq
      have hold := hi y q hq
      by_cases he : q = p
      · subst he
        exact hkeep hold
      · rw [hg.others he]
        exact hold
    · rw [hnew] at hq
      cases hq
      exact hheld
    · rw [hnone] at hq
      cases hq
  | @die p =>
    have hlock : (if s.locks y = some p then none else s.locks y) = some q := hq
    split at hlock
    · cases hlock
    · rename_i hne
      have hqp : q ≠ p := by
        rintro rfl
        exact hne hlock
      rw [OpenSys.kill, OpenSys.goto_pcs, if_neg hqp]
      exact hi y q hlock

/-- **Every call returns.** In every run, from whatever file, with any deaths and any failing system
    calls: a process makes at most 41 steps inside its call, and as long as it is inside, it can
    make the next one, or the process whose `flock` it waits for is inside its own call and can. -/
theorem opens_return {f : Option File} {h : List (OpenAct P)}
    (hr : Run openStep (fun _ _ _ => True) (OpenSys.start f) h s) (p : P) :
    h.countP (OpenAct.stepOf p) ≤ 41 ∧ ((s.pcs p).inCall = true →
      (openTick s p none).isSome = true ∨
      ∃ left x q, s.pcs p = .flock left x ∧ s.locks x = some q ∧ (s.pcs q).inCall = true ∧
        (openTick s q none).isSome = true) := by
  have hlocks : LocksHeld s :=
    hr.state_invariant (fun _ _ hl => by cases hl) (fun s a s' l hi hs _ => hi.step hs)
  refine ⟨?_, fun hcall => ?_⟩
  · have hrank := openRun_rank hr p
    have hstart : ((OpenSys.start f).pcs p).rank = 41 := rfl
    omega
  · by_cases hfree : ∀ left x, s.pcs p = .flock left x → s.locks x = none
    · exact .inl (openTick_isSome hcall hfree)
    · push Not at hfree
      obtain ⟨left, x, hpc, hx⟩ := hfree
      obtain ⟨q, hq⟩ := Option.ne_none_iff_exists'.mp hx
      -- the holder is past its own `flock`
      obtain ⟨hin, hnot⟩ := OpenPc.holds_inCall (hlocks x q hq)
      exact .inr ⟨left, x, q, hpc, hq, hin,
        openTick_isSome hin (fun left' y he => absurd he (hnot left' y))⟩

/-- Process 1 waits for the lock that process 0 has taken. -/
theorem opens_return_waiting :
    ∃ h s left x q, Run openStep (fun _ _ _ => True) (OpenSys.start none) h s ∧
      h.countP (OpenAct.stepOf (1 : Fin 2)) ≤ 41 ∧ s.pcs 1 = .flock left x ∧ s.locks x = some q ∧
      (openTick s q none).isSome = true := by
  obtain ⟨h, s, hr, hin, hstuck⟩ := exists_run_of_exec openStep (fun _ _ _ => True)
    (OpenSys.start none)
    (P := fun s : OpenSys (Fin 2) => (s.pcs 1).inCall = true ∧ (openTick s 1 none).isSome = false)
    [.call 0, .call 1, .tick 0 none, .tick 1 none, .tick 0 none] (by decide +kernel)
  obtain ⟨hcount, hgo⟩ := opens_return hr 1
  rcases hgo hin with hstep | ⟨left, x, q, hpc, hlock, _, hstep⟩
  · rw [hstuck] at hstep
    cases hstep
  · exact ⟨h, s, left, x, q, hr, hcount, hpc, hlock, hstep⟩

/-! ### Why a call fails -/

namespace OpenPc

/-- The error a process is about to return, or has. -/
def error? : OpenPc → Option Int
  | .unlock _ _ (.error e) | .done (.error e) => some e
  | _ => none

/-- How many files a process has judged stale, at least. -/
def judged : OpenPc → Nat
  | .opening left | .flock left _ | .fstat left _ | .mmap left _ false | .check left _ => 3 - left
  | .unlock left _ (.error e) => if e = estale then 4 - left else 0
  | .unlink left _ => 4 - left
  | .done (.error e) => if e = estale then 4 else 0
  | _ => 0

end OpenPc

/-- A death, or a system call that fails. -/
def OpenAct.fails : OpenAct P → Bool
  | .tick _ err => err.isSome
  | .die _ => true
  | .call _ => false

omit [DecidableEq P] in
/-- The error of a failed attempt is passed on, unless the file is to be replaced. -/
theorem afterTry_error {left : Nat} {r : Except Int Unit} {e : Int}
    (h : (afterTry left x r).error? = some e) : (OpenPc.unlock left x r).error? = some e ∧ e ≠ estale := by
  rcases afterTry_cases left x r with ⟨rfl, hr⟩ | ⟨rfl, hr⟩ | ⟨e', hr⟩
  · rw [hr] at h
    cases h
  · rw [hr] at h
    cases h
  · rw [hr] at h
    cases h
    cases r with
    | ok u => cases hr
    | error e' =>
      have hne : e' ≠ estale := by
        rintro rfl
        simp [afterTry] at hr
      rw [afterTry, if_neg hne] at hr
      cases hr
      exact ⟨rfl, hne⟩

/-- Where an error comes from: the failing system call, the verdict on the file, or the end of the
    retry loop. -/
theorem openTick_error {e : Int} (h : openTick s p err = some s') (he : (s'.pcs p).error? = some e) :
    err = some e ∧ e ≠ estale ∨ (s.pcs p).error? = some e ∧ e ≠ estale ∨
      e = estale ∧ ((s'.pcs p).stale? ≠ none ∨ ∃ x, s.pcs p = .unlink 0 x) := by
  unfold openTick at h
  split at h
  · cases h
  rename_i hne
  -- the failing call itself
  have hfail : ∀ {e' : Int}, err = some e' → e' = e → err = some e ∧ e ≠ estale := by
    rintro e' rfl rfl
    exact ⟨rfl, fun h => hne (by rw [h])⟩
  split at h <;> rename_i hpc
  · cases h
  · cases h
  · cases h
  · split at h
    · cases h
      rw [OpenSys.goto_self] at he
      exact .inl (hfail rfl (Option.some.inj he))
    · split at h <;> cases h <;> rw [OpenSys.goto_self] at he <;> cases he
  · split at h
    · cases h
      rw [OpenSys.goto_self] at he
      exact .inl (hfail rfl (Option.some.inj he))
    · split at h <;> cases h
      rw [OpenSys.goto_self] at he
      cases he
  · split at h
    · cases h
      rw [OpenSys.goto_self] at he
      exact .inl (hfail rfl (Option.some.inj he))
    · split at h
      · cases h
        rw [OpenSys.goto_self] at he ⊢
        cases he
        exact .inr (.inr ⟨rfl, .inl (by simp [OpenPc.stale?])⟩)
      · split at h <;> cases h <;> rw [OpenSys.goto_self] at he <;> cases he
  · split at h
    · cases h
      rw [OpenSys.goto_self] at he
      exact .inl (hfail rfl (Option.some.inj he))
    · cases h
      rw [OpenSys.goto_self] at he
      cases he
  · split at h
    · cases h
      rw [OpenSys.goto_self] at he
      exact .inl (hfail rfl (Option.some.inj he))
    · cases h
      rw [OpenSys.goto_self] at he
      split at he <;> cases he
  · cases h
    rw [OpenSys.goto_self] at he
    cases he
  · cases h
    rw [OpenSys.goto_self] at he
    cases he
  · cases h
    rw [OpenSys.goto_self] at he ⊢
    split at he
    · cases he
    · rename_i hacc
      cases he
      exact .inr (.inr ⟨rfl, .inl (by simp [OpenPc.stale?, hacc])⟩)
  · cases h
    rw [OpenSys.goto_self] at he
    rw [hpc]
    exact .inr (.inl (afterTry_error he))
  · rename_i left x
    cases h
    rw [OpenSys.goto_self] at he
    cases left with
    | zero =>
      cases he
      exact .inr (.inr ⟨rfl, .inr ⟨_, hpc⟩⟩)
    | succ left => cases he

/-! ### How many files can be stale -/

/-- The rounds of a call so far: it judged the files of `J` stale, and the path names none of them
    any more, except the one it is about to unlink. -/
structure Tried (s : OpenSys P) (pc : OpenPc) (J : Finset Nat) : Prop where
  many : pc.judged ≤ J.card
  stale : ∀ x ∈ J, x < s.fresh ∧ Stale s x
  gone : ∀ x ∈ J, s.path = some x → pc.stale? = some x
  other : ∀ x, pc.file? = some x → pc.stale? = none → x ∉ J

/-- At most `n` files are stale for good. -/
def FewStale (n : Nat) (s : OpenSys P) : Prop :=
  ∀ J : Finset Nat, (∀ x ∈ J, x < s.fresh ∧ Stale s x) → J.card ≤ n

section Rounds

variable {J : Finset Nat} {pc : OpenPc} {n z : Nat}

omit [DecidableEq P] in
/-- At first no file has been judged. -/
theorem Tried.empty (h : pc.judged = 0) : Tried s pc ∅ :=
  ⟨Nat.le_of_eq h, fun _ hx => absurd hx (Finset.notMem_empty _),
    fun _ hx => absurd hx (Finset.notMem_empty _), fun _ _ _ => Finset.notMem_empty _⟩

omit [DecidableEq P] in
/-- The steps of others. -/
theorem Tried.frame (ht : Tried s pc J) (hkeep : ∀ x ∈ J, x < s'.fresh ∧ Stale s' x)
    (hpath : ∀ x ∈ J, s'.path = some x → s.path = some x) : Tried s' pc J :=
  ⟨ht.many, hkeep, fun x hx h => ht.gone x hx (hpath x hx h), ht.other⟩

omit [DecidableEq P] in
/-- A round goes on with the files judged so far, none of which the path names. -/
theorem Tried.goes (hmany : pc.judged ≤ J.card) (hstale : ∀ x ∈ J, x < s.fresh ∧ Stale s x)
    (hpath : ∀ x ∈ J, s.path ≠ some x) (hother : ∀ x, pc.file? = some x → x ∉ J) : Tried s pc J :=
  ⟨hmany, hstale, fun x hx h => absurd h (hpath x hx), fun x hx _ => hother x hx⟩

omit [DecidableEq P] in
/-- A round ends with one more file judged stale, which the path may still name. -/
theorem Tried.judge {left : Nat} (hmany : 3 - left ≤ J.card) (hnew : x ∉ J)
    (hstale : ∀ y ∈ insert x J, y < s.fresh ∧ Stale s y) (hpath : ∀ y ∈ J, s.path ≠ some y) :
    Tried s (.unlock left x (.error estale)) (insert x J) := by
  refine ⟨?_, hstale, fun y hy h => ?_, fun y _ hst => ?_⟩
  · rw [Finset.card_insert_of_notMem hnew]
    show (if estale = estale then 4 - left else 0) ≤ _
    rw [if_pos rfl]
    omega
  · rcases Finset.mem_insert.mp hy with rfl | hy
    · simp [OpenPc.stale?]
    · exact absurd h (hpath y hy)
  · simp [OpenPc.stale?] at hst

/-- File numbers are not used again. -/
theorem OpenGo.fresh (hg : OpenGo s p pc s') : s.fresh ≤ s'.fresh := by
  rcases hg.path with ⟨_, h⟩ | ⟨_, _, h⟩ | ⟨_, _, _, _, h⟩ <;> omega

/-- A path that comes to name a file names a new one. -/
theorem OpenGo.path_old (hg : OpenGo s p pc s') (hold : x < s.fresh) (hx : s'.path = some x) :
    s.path = some x := by
  rcases hg.path with ⟨h, _⟩ | ⟨_, h, _⟩ | ⟨_, _, _, h, _⟩ <;> rw [h] at hx
  · exact hx
  · cases hx
    exact absurd hold (Nat.lt_irrefl _)
  · cases hx

/-- A step of the call itself. -/
theorem Tried.tick {G : Image → Prop} (hi : OpenedInv G s) (ht : Tried s (s.pcs p) J)
    (h : openTick s p err = some s') : ∃ J', Tried s' (s'.pcs p) J' := by
  have hg := openTick_inv h
  have hkeep : ∀ x ∈ J, x < s'.fresh ∧ Stale s' x := by
    intro x hx
    obtain ⟨hlt, hst⟩ := ht.stale x hx
    exact ⟨Nat.lt_of_lt_of_le hlt hg.fresh, hst.tick hlt hg⟩
  have hpath : ∀ x ∈ J, s'.path = some x → (s.pcs p).stale? = some x := by
    intro x hx hpx
    exact ht.gone x hx (hg.path_old (ht.stale x hx).1 hpx)
  have herr : ∀ e, s'.pcs p = .done (.error e) → (∀ x, s.pcs p ≠ .unlink 0 x) → e ≠ estale := by
    intro e hpc hnot
    rcases openTick_error h (by rw [hpc]; rfl) with ⟨_, hne⟩ | ⟨_, hne⟩ | ⟨_, hst | ⟨x, hx⟩⟩
    · exact hne
    · exact hne
    · rw [hpc] at hst
      exact absurd rfl hst
    · exact absurd hx (hnot x)
  -- whoever judges a file holds its lock, so nobody is initialising it
  have hjudge : ∀ {x}, (s.pcs p).file? = some x → (s.pcs p).stale? = none →
      (s.pcs p).holds? = some x → (s.pcs p).inits? ≠ some x → (s.files x).size ≠ 0 →
      ((s.files x).size = regionSize → (s.files x).image.accepted = false) →
      ∀ y ∈ insert x J, y < s'.fresh ∧ Stale s' y := by
    intro x hf hst hh hin h0 hbad y hy
    rcases Finset.mem_insert.mp hy with rfl | hy
    · have hlt := hi.named p y hf
      exact ⟨Nat.lt_of_lt_of_le hlt hg.fresh, Stale.tick ⟨h0, hbad, hi.quiet hh hin⟩ hlt hg⟩
    · exact hkeep y hy
  have hinit := hi.inits p
  have hmany := ht.many
  have hold := ht.other
  have hgone := ht.gone
  have hlt := fun x hx => (ht.stale x hx).1
  generalize s.pcs p = pc at hg hpath herr hjudge hmany hold hgone hinit
  -- a call that will not try again needs no account
  have hnew : ∀ {pc'}, s'.pcs p = pc' → pc'.judged = 0 → ∃ J', Tried s' (s'.pcs p) J' := by
    intro pc' hpc hzero
    exact ⟨∅, Tried.empty (by rw [hpc]; exact hzero)⟩
  cases hg with
  | openFail | flockFail =>
    rw [OpenSys.goto_self] at herr hnew ⊢
    exact hnew rfl (if_neg (herr _ rfl (fun _ h => by cases h)))
  | @opened left x hx =>
    rw [OpenSys.goto_self]
    refine ⟨J, .goes hmany hkeep (fun y hy hyp => ?_) fun y hy hyJ => ?_⟩
    · cases hpath y hy hyp
    · cases hy
      cases hgone x hyJ hx
  | created =>
    rw [OpenSys.goto_self]
    refine ⟨J, .goes hmany hkeep (fun y hy hyp => ?_) fun y hy hyJ => ?_⟩
    · cases hpath y hy hyp
    · cases hy
      exact absurd (hlt _ hyJ) (Nat.lt_irrefl _)
  | @flock left x _ | @fstat left x _ | @mmap left x =>
    rw [OpenSys.goto_self]
    refine ⟨J, .goes hmany hkeep (fun y hy hyp => ?_) fun y hy hyJ => hold y hy rfl hyJ⟩
    cases hpath y hy hyp
  | @fstatStale left x h0 hS =>
    rw [OpenSys.goto_self]
    refine ⟨insert x J, .judge hmany (hold x rfl rfl)
      (hjudge rfl rfl rfl (fun h => by cases h) h0 fun h => absurd h hS) fun y hy hyp => ?_⟩
    cases hpath y hy hyp
  | @reject left x hrej =>
    have hsize : (s.files x).size = regionSize := hinit
    have h0 : (s.files x).size ≠ 0 := by
      rw [hsize]
      decide
    rw [OpenSys.goto_self]
    refine ⟨insert x J, .judge hmany (hold x rfl rfl)
      (hjudge rfl rfl rfl (fun h => by cases h) h0 fun _ => hrej) fun y hy hyp => ?_⟩
    cases hpath y hy hyp
  | fstatFail he | ftruncateFail he | mmapFail he =>
    rw [OpenSys.goto_self] at hnew ⊢
    exact hnew rfl (if_neg he)
  | fstatEmpty | ftruncate | mmapInit | written | write | accept =>
    rw [OpenSys.goto_self] at hnew ⊢
    exact hnew rfl rfl
  | @unlock left x r =>
    rw [OpenSys.goto_self] at herr hnew ⊢
    rcases afterTry_cases left x r with ⟨rfl, ha⟩ | ⟨rfl, ha⟩ | ⟨e, ha⟩
    · exact hnew ha rfl
    · rw [ha]
      refine ⟨J, ?_, hkeep, fun y hy hyp => ?_, fun y _ hst => by cases hst⟩
      · have hm : (if estale = estale then 4 - left else 0) ≤ J.card := hmany
        rwa [if_pos rfl] at hm
      · have hst := hpath y hy hyp
        simp only [OpenPc.stale?, if_true] at hst
        exact hst
    · exact hnew ha (if_neg (herr e ha (fun _ h => by cases h)))
  -- the path names none of the judged files any more
  | @unlink left x =>
    rw [OpenSys.goto_self]
    refine ⟨J, ?_, hkeep, fun y hy hyp => ?_, fun y hy _ => ?_⟩
    · have hm : 4 - left ≤ J.card := hmany
      cases left with
      | zero =>
        show (if estale = estale then 4 else 0) ≤ _
        rw [if_pos rfl]
        omega
      | succ left =>
        show 3 - left ≤ _
        omega
    · cases hyp
    · cases left <;> cases hy

/-- A new file is empty. -/
theorem OpenGo.new (hg : OpenGo s p pc s') (hx : x < s'.fresh) (hnew : ¬ x < s.fresh) :
    (s'.files x).size = 0 := by
  rcases hg.path with ⟨_, hf⟩ | ⟨_, _, hf⟩ | ⟨_, _, _, _, hf⟩
  · omega
  · obtain rfl : x = s.fresh := by omega
    cases hg with
    | created =>
      rw [OpenSys.goto_files]
      show ((s.setFile s.fresh .empty).files s.fresh).size = 0
      rw [OpenSys.setFile_files, if_pos rfl]
      rfl
    | _ => exact absurd hf (Nat.ne_of_lt (Nat.lt_succ_self _))
  · omega

/-- Only a failure leaves a file stale. -/
theorem Stale.back {G : Image → Prop} (hi : OpenedInv G s) (h : openTick s p err = some s')
    (hst : Stale s' x) (hx : x < s'.fresh) :
    x < s.fresh ∧ Stale s x ∨ err.isSome = true ∧ (s.pcs p).inits? = some x := by
  have hg := openTick_inv h
  by_cases hin : (s.pcs p).inits? = some x
  · refine .inr ⟨?_, hin⟩
    have herr : ∀ {left y e}, s'.pcs p = .unlock left y (.error e) → e ≠ estale →
        (s.pcs p).error? = none → err.isSome = true := by
      intro left y e hpc hne hno
      rcases openTick_error h (by rw [hpc]; rfl) with ⟨he, _⟩ | ⟨he, _⟩ | ⟨he, _⟩
      · rw [he]
        rfl
      · rw [hno] at he
        cases he
      · exact absurd he hne
    have hpost := hst.quiet p
    have hinit := hi.inits p
    generalize s.pcs p = pc at hg herr hin hinit
    cases hg with
    | ftruncate | mmapInit | write =>
      rw [OpenSys.goto_self] at hpost
      exact absurd hin hpost
    | ftruncateFail he | mmapFail he =>
      rw [OpenSys.goto_self] at herr
      exact herr rfl he rfl
    | written =>
      -- a file with all the stores passes the header test
      obtain ⟨n, hn, hf⟩ := hinit
      cases hin
      have hbad := hst.invalid
      rw [OpenSys.goto_files, hf, writtenImage_full hn.symm] at hbad
      cases hbad rfl
    | _ => cases hin
  · -- nobody initialises it in this step, so the file has not changed
    have hold : x < s.fresh := by
      by_contra hge
      exact hst.size (hg.new hx hge)
    have hsame := hg.files hin hold
    refine .inl ⟨hold, by rw [← hsame]; exact hst.size, by rw [← hsame]; exact hst.invalid,
      fun q => ?_⟩
    by_cases hq : q = p
    · rw [hq]
      exact hin
    · rw [← hg.others hq]
      exact hst.quiet q

omit [DecidableEq P] in
/-- A step after which at most the file `z` is newly stale. -/
theorem FewStale.of_back (hf : FewStale n s) (z : Option Nat)
    (hback : ∀ x, x < s'.fresh → Stale s' x → z ≠ some x → x < s.fresh ∧ Stale s x) :
    FewStale (n + if z.isSome then 1 else 0) s' := by
  intro J hJ
  cases z with
  | none =>
    refine hf J fun x hx => hback x (hJ x hx).1 (hJ x hx).2 ?_
    intro h
    cases h
  | some z =>
    have hcard : (J.erase z).card ≤ n := by
      refine hf _ fun x hx => ?_
      obtain ⟨hne, hx⟩ := Finset.mem_erase.mp hx
      refine hback x (hJ x hx).1 (hJ x hx).2 ?_
      intro h
      exact hne (Option.some.inj h).symm
    have hle := Finset.pred_card_le_card_erase (s := J) (a := z)
    show J.card ≤ n + 1
    omega

omit [DecidableEq P] in
/-- At most so many, at most more. -/
theorem FewStale.mono {m : Nat} (hf : FewStale n s) (hle : n ≤ m) : FewStale m s :=
  fun J hJ => Nat.le_trans (hf J hJ) hle

/-- A call makes no file stale. -/
theorem stale_call (hp : s.pcs p = .idle) : Stale (s.goto p (.opening 3)) x ↔ Stale s x := by
  have hsame : ∀ q, ((s.goto p (.opening 3)).pcs q).inits? = (s.pcs q).inits? := by
    intro q
    rw [OpenSys.goto_pcs]
    split
    · rename_i hq
      rw [hq, hp]
      rfl
    · rfl
  constructor
  · intro hst
    exact ⟨hst.size, hst.invalid, fun q => by rw [← hsame]; exact hst.quiet q⟩
  · intro hst
    exact ⟨hst.size, hst.invalid, fun q => by rw [hsame]; exact hst.quiet q⟩

/-- What holds of every run: each error is accounted for. -/
structure ErrorInv (h : List (OpenAct P)) (s : OpenSys P) : Prop extends
    OpenedInv (fun _ => True) s where
  few : FewStale (1 + h.countP OpenAct.fails) s
  tried : ∀ p, ∃ J, Tried s (s.pcs p) J
  told : ∀ p e, (s.pcs p).error? = some e → e ≠ estale → .tick p (some e) ∈ h

variable {h : List (OpenAct P)}

/-- A call keeps the errors accounted for. -/
theorem ErrorInv.call (hi : ErrorInv h s) (hp : s.pcs p = .idle) :
    ErrorInv (.call p :: h) (s.goto p (.opening 3)) := by
  refine ⟨hi.toOpenedInv.call hp, ?_, fun q => ?_, fun q e he hne => ?_⟩
  · have hback : FewStale (1 + h.countP OpenAct.fails + 0) (s.goto p (.opening 3)) :=
      hi.few.of_back none fun x hx hst _ => ⟨hx, (stale_call hp).mp hst⟩
    exact hback.mono (Nat.le_refl _)
  · rw [OpenSys.goto_pcs]
    split
    · exact ⟨∅, Tried.empty rfl⟩
    · obtain ⟨J, hJ⟩ := hi.tried q
      exact ⟨J, hJ.frame (fun x hx => ⟨(hJ.stale x hx).1, (stale_call hp).mpr (hJ.stale x hx).2⟩)
        (fun _ _ h => h)⟩
  · rw [OpenSys.goto_pcs] at he
    split at he
    · cases he
    · exact List.mem_cons_of_mem _ (hi.told q e he hne)

/-- A step keeps the errors accounted for. -/
theorem ErrorInv.tick (hi : ErrorInv h s) (ht : openTick s p err = some s') :
    ErrorInv (.tick p err :: h) s' := by
  have hg := openTick_inv ht
  refine ⟨hi.toOpenedInv.tick (fun _ _ => trivial) hg, ?_, fun q => ?_, fun q e he hne => ?_⟩
  · have hback : FewStale (1 + h.countP OpenAct.fails +
        if (if err.isSome then (s.pcs p).inits? else none).isSome then 1 else 0) s' := by
      refine hi.few.of_back _ fun x hx hst hz => ?_
      rcases hst.back hi.toOpenedInv ht hx with hold | ⟨herr, hin⟩
      · exact hold
      · rw [if_pos herr] at hz
        exact absurd hin hz
    refine hback.mono ?_
    rw [List.countP_cons]
    have hle : (if (if err.isSome then (s.pcs p).inits? else none).isSome then 1 else 0) ≤
        if (OpenAct.tick p err).fails then 1 else 0 := by
      cases err with
      | none => exact Nat.le_refl _
      | some e => exact (by decide : ∀ b : Bool, (if b then 1 else 0) ≤ 1) _
    omega
  · by_cases hq : q = p
    · subst hq
      obtain ⟨J, hJ⟩ := hi.tried q
      exact hJ.tick hi.toOpenedInv ht
    · obtain ⟨J, hJ⟩ := hi.tried q
      rw [hg.others hq]
      refine ⟨J, hJ.frame (fun x hx => ?_) (fun x hx => hg.path_old (hJ.stale x hx).1)⟩
      obtain ⟨hlt, hst⟩ := hJ.stale x hx
      exact ⟨Nat.lt_of_lt_of_le hlt hg.fresh, hst.tick hlt hg⟩
  · -- an error is a failed call of its own, or `ESTALE`
    by_cases hq : q = p
    · subst hq
      rcases openTick_error ht he with ⟨herr, _⟩ | ⟨hold, _⟩ | ⟨hst, _⟩
      · rw [herr]
        exact List.mem_cons_self
      · exact List.mem_cons_of_mem _ (hi.told q e hold hne)
      · exact absurd hst hne
    · rw [hg.others hq] at he
      exact List.mem_cons_of_mem _ (hi.told q e he hne)

/-- A death keeps the errors accounted for. -/
theorem ErrorInv.die (hi : ErrorInv h s) : ErrorInv (.die p :: h) (s.kill p) := by
  refine ⟨hi.toOpenedInv.die (fun _ _ => trivial), ?_, fun q => ?_, fun q e he hne => ?_⟩
  · have hback : FewStale (1 + h.countP OpenAct.fails +
        if ((s.pcs p).inits?).isSome then 1 else 0) (s.kill p) := by
      refine hi.few.of_back _ fun x hx hst hz => ⟨hx, hst.size, hst.invalid, fun q => ?_⟩
      by_cases hq : q = p
      · rw [hq]
        exact hz
      · have hquiet := hst.quiet q
        rw [OpenSys.kill, OpenSys.goto_pcs, if_neg hq] at hquiet
        exact hquiet
    refine hback.mono ?_
    rw [List.countP_cons, show (OpenAct.die p).fails = true from rfl]
    split <;> simp
  · rw [OpenSys.kill, OpenSys.goto_pcs]
    split
    · exact ⟨∅, Tried.empty rfl⟩
    · obtain ⟨J, hJ⟩ := hi.tried q
      exact ⟨J, hJ.frame (fun x hx => ⟨(hJ.stale x hx).1, (hJ.stale x hx).2.kill⟩)
        (fun _ _ h => h)⟩
  · rw [OpenSys.kill, OpenSys.goto_pcs] at he
    split at he
    · cases he
    · exact List.mem_cons_of_mem _ (hi.told q e he hne)

/-- **Every step keeps the errors accounted for.** -/
theorem ErrorInv.step {a l : OpenAct P} (hi : ErrorInv h s) (hs : openStep s a = some (s', l)) :
    ErrorInv (l :: h) s' := by
  cases a with
  | call p =>
    simp only [openStep] at hs
    split at hs <;> cases hs
    exact hi.call (by assumption)
  | tick p err =>
    simp only [openStep, Option.map_eq_some_iff] at hs
    obtain ⟨s₁, ht, he⟩ := hs
    cases he
    exact hi.tick ht
  | die p =>
    cases hs
    exact hi.die

omit [DecidableEq P] in
/-- At the start there are no errors. -/
theorem errorInv_start (f : Option File) : ErrorInv [] (OpenSys.start f : OpenSys P) := by
  have hfresh : ∀ x, x < (OpenSys.start f : OpenSys P).fresh → x = 0 := by
    intro x hx
    cases f with
    | none => exact absurd hx (Nat.not_lt_zero x)
    | some f => exact Nat.lt_one_iff.mp hx
  refine ⟨⟨fun _ _ h => (by cases h), fun x hx => ?_, fun _ _ h => (by cases h), fun _ => trivial,
    fun _ _ _ _ => trivial, fun _ _ h => (by cases h)⟩, fun J hJ => ?_, fun _ => ⟨∅, Tried.empty rfl⟩,
    fun _ _ h => (by cases h)⟩
  · cases f with
    | none => cases hx
    | some f =>
      cases hx
      exact Nat.one_pos
  · have hsub : J ⊆ {0} := by
      intro x hx
      exact Finset.mem_singleton.mpr (hfresh x (hJ x hx).1)
    exact Finset.card_le_card hsub

/-- **Four rounds are enough for two accidents.** In every run, from whatever file: a call that
    fails answers the errno of one of its own system calls, or `ESTALE` after at least three deaths
    or failing system calls anywhere. -/
theorem opens_give_up {f : Option File} {e : Int}
    (hr : Run openStep (fun _ _ _ => True) (OpenSys.start f) h s) (hp : s.pcs p = .done (.error e)) :
    e ≠ estale ∧ .tick p (some e) ∈ h ∨ e = estale ∧ 3 ≤ h.countP OpenAct.fails := by
  have hi : ErrorInv h s :=
    hr.invariant (I := ErrorInv) (errorInv_start f) (fun h s a s' l hi hs _ => hi.step hs)
  by_cases he : e = estale
  · subst he
    -- it judged four files stale
    obtain ⟨J, hJ⟩ := hi.tried p
    have hmany := hJ.many
    rw [hp, show (OpenPc.done (.error estale)).judged = 4 from by decide] at hmany
    have hfew := hi.few J hJ.stale
    exact .inr ⟨rfl, by omega⟩
  · exact .inl ⟨he, hi.told p e (by rw [hp]; rfl) he⟩

end Rounds

/-- The errno of a process that failed. -/
def OpenPc.failed? : OpenPc → Option Int
  | .done (.error e) => some e
  | _ => none

omit [DecidableEq P] in
/-- The program counter of a failed opening, from its error. -/
theorem OpenPc.eq_of_failed {pc : OpenPc} {e : Int} (h : pc.failed? = some e) :
    pc = .done (.error e) := by
  unfold OpenPc.failed? at h
  split at h <;> cases h
  rfl

/-- Process `p` creates the file and dies before it has written the header. -/
def dyingEarly (p : Fin 4) : List (OpenAct (Fin 4)) :=
  .call p :: List.replicate 4 (.tick p none) ++ [.die p]

/-- Three deaths do exhaust the rounds. -/
theorem opens_give_up_threeDeaths :
    ∃ h s, Run openStep (fun _ _ _ => True) (OpenSys.start (some leftover)) h s ∧
      s.pcs (0 : Fin 4) = .done (.error estale) ∧ 3 ≤ h.countP OpenAct.fails := by
  obtain ⟨h, s, hr, hp⟩ := exists_run_of_exec openStep (fun _ _ _ => True)
    (OpenSys.start (some leftover))
    (P := fun s : OpenSys (Fin 4) => (s.pcs 0).failed? = some estale)
    (.call 0 :: List.replicate 5 (.tick 0 none) ++
      (dyingEarly 1 ++ List.replicate 7 (.tick 0 none)) ++
      (dyingEarly 2 ++ List.replicate 7 (.tick 0 none)) ++
      (dyingEarly 3 ++ List.replicate 7 (.tick 0 none))) (by decide +kernel)
  have hpc := OpenPc.eq_of_failed hp
  rcases opens_give_up hr hpc with ⟨hne, _⟩ | ⟨_, hthree⟩
  · exact absurd rfl hne
  · exact ⟨h, s, hr, hpc, hthree⟩

/-! ### What happens to the files -/

/-- File `x` has contents and nobody initialises it. -/
structure Settled (s : OpenSys P) (x : Nat) : Prop where
  old : x < s.fresh
  size : (s.files x).size ≠ 0
  quiet : ∀ p, (s.pcs p).inits? ≠ some x

/-- **A settled file stays as it is**, whatever openers do. -/
theorem Settled.step {a l : OpenAct P} (hx : Settled s x) (h : openStep s a = some (s', l)) :
    Settled s' x ∧ s'.files x = s.files x := by
  cases openStep_inv h with
  | @call p hp =>
    refine ⟨⟨hx.old, hx.size, fun q => ?_⟩, rfl⟩
    rw [OpenSys.goto_pcs]
    split
    · intro hin
      cases hin
    · exact hx.quiet q
  | @tick p err _ hg =>
    have hsame := hg.files (hx.quiet p) hx.old
    refine ⟨⟨Nat.lt_of_lt_of_le hx.old hg.fresh, by rw [hsame]; exact hx.size, fun q hin => ?_⟩,
      hsame⟩
    by_cases hq : q = p
    · subst hq
      rcases hg.inits hin with h' | h'
      · exact hx.quiet q h'
      · exact hx.size h'
    · rw [hg.others hq] at hin
      exact hx.quiet q hin
  | @die p =>
    refine ⟨⟨hx.old, hx.size, fun q => ?_⟩, rfl⟩
    rw [OpenSys.kill, OpenSys.goto_pcs]
    split
    · intro hin
      cases hin
    · exact hx.quiet q

/-- **No file is changed in place.** Once a process has mapped a file, or once a file has contents
    and nobody is initialising it, `open_and_map` never writes to it again, whoever still calls it
    and whatever it finds wrong with it. -/
theorem opens_keep {f : Option File} {h h' : List (OpenAct P)}
    (hr : Run openStep (fun _ _ _ => True) (OpenSys.start f) h s)
    (hx : (s.pcs p).ok? = some x ∨ Settled s x)
    (hr' : Run openStep (fun _ _ _ => True) s h' s') : s'.files x = s.files x := by
  have hi : ErrorInv h s :=
    hr.invariant (I := ErrorInv) (errorInv_start f) (fun h s a s' l hi hs _ => hi.step hs)
  have hset : Settled s x := by
    rcases hx with hok | hset
    · have hc := hi.okay p x hok
      refine ⟨hi.named p x (OpenPc.file_of_ok hok), ?_, hc.quiet⟩
      rw [hc.size]
      decide
    · exact hset
  have hkept : Settled s' x ∧ s'.files x = s.files x := by
    refine hr'.state_invariant (I := fun s' => Settled s' x ∧ s'.files x = s.files x) ⟨hset, rfl⟩
      (fun s₁ a s₂ l hi hs _ => ?_)
    obtain ⟨hset', hsame⟩ := hi.1.step hs
    exact ⟨hset', hsame.trans hi.2⟩
  exact hkept.2

/-- Process `p` opens the path alone. -/
def opening (p : Fin 2) (n : Nat) : List (OpenAct (Fin 2)) :=
  .call p :: List.replicate n (.tick p none)

/-- Process 0 has created and mapped the file. -/
def mappedOnce : OpenSys (Fin 2) × List (OpenAct (Fin 2)) :=
  reach openStep (fun _ _ _ => True) (OpenSys.start none) (opening 0 20)

/-- A second opener maps the file of the first one and changes nothing in it. -/
theorem opens_keep_mappedOnce :
    mappedOnce.1.pcs 0 = .done (.ok 0) ∧ ∃ h s, Run openStep (fun _ _ _ => True) mappedOnce.1 h s ∧
      s.pcs 1 = .done (.ok 0) ∧ s.files 0 = mappedOnce.1.files 0 := by
  have hmapped : (mappedOnce.1.pcs 0).mapped = some 0 := by decide +kernel
  have hpc := OpenPc.eq_of_mapped hmapped
  obtain ⟨h, s, hr, hq⟩ := exists_run_of_exec openStep (fun _ _ _ => True) mappedOnce.1
    (P := fun s : OpenSys (Fin 2) => (s.pcs 1).mapped = some 0) (opening 1 6) (by decide +kernel)
  exact ⟨hpc, h, s, hr, OpenPc.eq_of_mapped hq,
    opens_keep (run_reach (by decide +kernel)) (.inl (by rw [hpc]; rfl)) hr⟩

/-! ### A call without others -/

/-- What an opener accepts. -/
def File.valid (f : File) : Bool := decide (f.size = regionSize) && f.image.accepted

/-- The path names a valid file. -/
def OpenSys.Valid (s : OpenSys P) : Prop := ∃ y, s.path = some y ∧ (s.files y).valid = true

/-- The path names `x` in the end: the valid file it named before, unchanged, or a new region. -/
structure Opened (s₀ s : OpenSys P) (x : Nat) : Prop where
  path : s.path = some x
  file : s₀.path = some x ∧ (s₀.files x).valid = true ∧ s.files x = s₀.files x ∨
    ¬ s₀.Valid ∧ s.files x = { size := regionSize, image := writtenImage initWrites.length }

/-- How far the one call is that runs from `s₀`. -/
def OpenPc.Alone (s₀ s : OpenSys P) : OpenPc → Prop
  | .idle => s.path = s₀.path ∧ s.files = s₀.files
  | .opening left =>
    left = 3 ∧ s.path = s₀.path ∧ s.files = s₀.files ∨ left = 2 ∧ s.path = none ∧ ¬ s₀.Valid
  | .flock left x | .fstat left x =>
    s.path = some x ∧ (left = 3 ∧ s₀.path = some x ∧ s.files x = s₀.files x ∨
      ¬ s₀.Valid ∧ (s.files x).size = 0)
  | .mmap left x false | .check left x =>
    left = 3 ∧ s.path = some x ∧ s₀.path = some x ∧ s.files x = s₀.files x ∧
      (s.files x).size = regionSize
  | .ftruncate _ x => s.path = some x ∧ ¬ s₀.Valid
  | .mmap _ x true =>
    s.path = some x ∧ ¬ s₀.Valid ∧ s.files x = { size := regionSize, image := .zero }
  | .init _ x ws => s.path = some x ∧ ¬ s₀.Valid ∧ ∃ n, ws = initWrites.drop n ∧
    s.files x = { size := regionSize, image := writtenImage n }
  | .unlock _ x (.ok _) | .done (.ok x) => Opened s₀ s x
  | .unlock left _ (.error e) => left = 3 ∧ e = estale ∧ ¬ s₀.Valid
  | .unlink left _ => left = 3 ∧ ¬ s₀.Valid
  | .done (.error _) | .dead => False

omit [DecidableEq P] in
/-- A path to a file that is not valid. -/
theorem OpenSys.not_valid {s₀ : OpenSys P} (hx : s₀.path = some x)
    (hbad : (s₀.files x).valid = false) : ¬ s₀.Valid := by
  rintro ⟨y, hy, hv⟩
  rw [hx] at hy
  cases hy
  rw [hbad] at hv
  cases hv

/-- A lone opener's step goes on alone. -/
theorem OpenPc.Alone.tick {s₀ : OpenSys P} (ha : (s.pcs p).Alone s₀ s)
    (h : openTick s p none = some s') : (s'.pcs p).Alone s₀ s' := by
  have hg := openTick_inv h
  have hfail : ∀ e, (s'.pcs p).error? = some e → (s.pcs p).error? = none →
      (s'.pcs p).stale? ≠ none ∨ ∃ x, s.pcs p = .unlink 0 x := by
    intro e he hno
    rcases openTick_error h he with ⟨h, _⟩ | ⟨h, _⟩ | ⟨_, h⟩
    · cases h
    · rw [hno] at h
      cases h
    · exact h
  generalize s.pcs p = pc at hg ha hfail
  cases hg with
  -- no system call fails
  | openFail | flockFail =>
    rw [OpenSys.goto_self] at hfail
    rcases hfail _ rfl rfl with h | ⟨x, h⟩
    · exact absurd rfl h
    · cases h
  | fstatFail he | ftruncateFail he | mmapFail he =>
    rw [OpenSys.goto_self] at hfail
    rcases hfail _ rfl rfl with h | ⟨x, h⟩
    · exact absurd (if_neg he) h
    · cases h
  | @opened left x hx =>
    rw [OpenSys.goto_self]
    rcases ha with ⟨hl, hpath, hfiles⟩ | ⟨_, hpath, _⟩
    · exact ⟨hx, .inl ⟨hl, hpath.symm.trans hx, congrFun hfiles x⟩⟩
    · rw [hpath] at hx
      cases hx
  | @created left hnone =>
    rw [OpenSys.goto_self]
    have hbad : ¬ s₀.Valid := by
      rcases ha with ⟨_, hpath, _⟩ | ⟨_, _, hbad⟩
      · rintro ⟨y, hy, _⟩
        rw [← hpath, hnone] at hy
        cases hy
      · exact hbad
    refine ⟨rfl, .inr ⟨hbad, ?_⟩⟩
    rw [OpenSys.goto_files]
    show ((s.setFile s.fresh .empty).files s.fresh).size = 0
    rw [OpenSys.setFile_files, if_pos rfl]
    rfl
  | flock hl =>
    rw [OpenSys.goto_self]
    exact ha
  -- only the file that was there can have another size
  | @fstatStale left x h0 hS =>
    rw [OpenSys.goto_self]
    obtain ⟨_, ⟨hl, hpath, hsame⟩ | ⟨_, hz⟩⟩ := ha
    · refine ⟨hl, rfl, OpenSys.not_valid hpath ?_⟩
      rw [← hsame, File.valid, decide_eq_false hS]
      rfl
    · exact absurd hz h0
  | @fstatEmpty left x h0 =>
    rw [OpenSys.goto_self]
    obtain ⟨hx, ⟨hl, hpath, hsame⟩ | ⟨hbad, _⟩⟩ := ha
    · refine ⟨hx, OpenSys.not_valid hpath ?_⟩
      rw [← hsame, File.valid, h0]
      rfl
    · exact ⟨hx, hbad⟩
  | @fstat left x hS =>
    rw [OpenSys.goto_self]
    obtain ⟨hx, ⟨hl, hpath, hsame⟩ | ⟨_, hz⟩⟩ := ha
    · exact ⟨hl, hx, hpath, hsame, hS⟩
    · rw [hz] at hS
      cases hS
  | @ftruncate left x =>
    rw [OpenSys.goto_self]
    refine ⟨ha.1, ha.2, ?_⟩
    rw [OpenSys.goto_files, OpenSys.setFile_files, if_pos rfl]
  | mmapInit =>
    rw [OpenSys.goto_self]
    exact ⟨ha.1, ha.2.1, 0, rfl, ha.2.2⟩
  | mmap =>
    rw [OpenSys.goto_self]
    exact ha
  | @write left x w ws =>
    rw [OpenSys.goto_self]
    obtain ⟨hx, hbad, n, hn, hf⟩ := ha
    obtain ⟨hw, hdrop⟩ := writtenImage_succ hn.symm
    refine ⟨hx, hbad, n + 1, hdrop.symm, ?_⟩
    rw [OpenSys.goto_files, OpenSys.setFile_files, if_pos rfl, hf, ← hw]
  | @written left x =>
    rw [OpenSys.goto_self]
    obtain ⟨hx, hbad, n, hn, hf⟩ := ha
    refine ⟨hx, .inr ⟨hbad, ?_⟩⟩
    rw [OpenSys.goto_files, hf, writtenImage_full hn.symm]
  | @accept left x hacc =>
    rw [OpenSys.goto_self]
    obtain ⟨_, hx, hpath, hsame, hS⟩ := ha
    refine ⟨hx, .inl ⟨hpath, ?_, hsame⟩⟩
    rw [← hsame, File.valid, hS, hacc]
    rfl
  | @reject left x hrej =>
    rw [OpenSys.goto_self]
    obtain ⟨hl, _, hpath, hsame, _⟩ := ha
    refine ⟨hl, rfl, OpenSys.not_valid hpath ?_⟩
    rw [← hsame, File.valid, hrej, Bool.and_false]
  | @unlock left x r =>
    rw [OpenSys.goto_self]
    cases r with
    | ok u => exact ⟨ha.path, ha.file⟩
    | error e =>
      obtain ⟨hl, rfl, hbad⟩ := ha
      exact ⟨hl, hbad⟩
  | @unlink left x =>
    rw [OpenSys.goto_self]
    obtain ⟨rfl, hbad⟩ := ha
    exact .inr ⟨rfl, rfl, hbad⟩

/-- The steps of the call that process `p` makes without others and without failures. -/
def OpenAct.only (p : P) : OpenAct P → Prop
  | .call q => q = p
  | .tick q err => q = p ∧ err = none
  | .die _ => False

/-- In a run of one opener all others stay where they are. -/
theorem OpenPc.Alone.step {s₀ : OpenSys P} {a l : OpenAct P} (ha : (s.pcs p).Alone s₀ s)
    (h : openStep s a = some (s', l)) (hok : l.only p) :
    (s'.pcs p).Alone s₀ s' ∧ ∀ q, q ≠ p → s'.pcs q = s.pcs q := by
  cases a with
  | call q =>
    simp only [openStep] at h
    split at h <;> cases h
    rename_i hp
    obtain rfl : q = p := hok
    rw [hp] at ha
    refine ⟨?_, fun r hr => ?_⟩
    · rw [OpenSys.goto_self]
      exact .inl ⟨rfl, ha⟩
    · rw [OpenSys.goto_pcs, if_neg hr]
  | tick q err =>
    simp only [openStep, Option.map_eq_some_iff] at h
    obtain ⟨s₁, ht, he⟩ := h
    cases he
    obtain ⟨rfl, rfl⟩ := hok
    exact ⟨ha.tick ht, fun r hr => (openTick_inv ht).others hr⟩
  | die q =>
    cases h
    exact hok.elim

/-- **What `open_and_map` is for.** A process opens the path while nobody else is in a call, from
    whatever a run has left there.  If none of its system calls fails, it is never stuck, ends
    within 41 steps, and answers `Ok` with the file the path then names: the file that was there,
    untouched, if its size and header are right, and a new region with all its initial values
    otherwise. -/
theorem open_alone {f : Option File} {s₀ : OpenSys P} {h₀ h : List (OpenAct P)}
    (hr₀ : Run openStep (fun _ _ _ => True) (OpenSys.start f) h₀ s₀) (hidle : s₀.pcs p = .idle)
    (hquiet : ∀ q, (s₀.pcs q).inCall = false)
    (hr : Run openStep (fun _ a _ => a.only p) s₀ h s) :
    h.countP (OpenAct.stepOf p) ≤ 41 ∧
    ((s.pcs p).inCall = true → (openTick s p none).isSome = true) ∧
    ∀ r, s.pcs p = .done r → ∃ x, r = .ok x ∧ s.path = some x ∧
      (s₀.path = some x ∧ (s₀.files x).valid = true ∧ s.files x = s₀.files x ∨
        ¬ s₀.Valid ∧ (s.files x).size = regionSize ∧ (s.files x).image.Initialised ∧
          (s.files x).image.region = Region.init) := by
  have hlocks₀ : LocksHeld s₀ :=
    hr₀.state_invariant (fun _ _ hl => by cases hl) (fun s a s' l hi hs _ => hi.step hs)
  obtain ⟨halone, hothers, hlocks⟩ : (s.pcs p).Alone s₀ s ∧ (∀ q, q ≠ p → s.pcs q = s₀.pcs q) ∧
      LocksHeld s := by
    refine hr.state_invariant (I := fun s => (s.pcs p).Alone s₀ s ∧
      (∀ q, q ≠ p → s.pcs q = s₀.pcs q) ∧ LocksHeld s) ⟨?_, fun _ _ => rfl, hlocks₀⟩
      (fun s₁ a s₂ l hi hs hok => ?_)
    · rw [hidle]
      exact ⟨rfl, rfl⟩
    · obtain ⟨ha, hsame⟩ := hi.1.step hs hok
      exact ⟨ha, fun q hq => (hsame q hq).trans (hi.2.1 q hq), hi.2.2.step hs⟩
  refine ⟨?_, fun hcall => ?_, fun r hp => ?_⟩
  · have hrank := openRun_rank hr p
    rw [hidle, show (OpenPc.idle).rank = 41 from rfl] at hrank
    omega
  · refine openTick_isSome hcall fun left x hpc => ?_
    -- whoever holds the lock is in a call
    by_contra hne
    obtain ⟨q, hq⟩ := Option.ne_none_iff_exists'.mp hne
    obtain ⟨hin, hnot⟩ := OpenPc.holds_inCall (hlocks x q hq)
    by_cases he : q = p
    · rw [he] at hnot
      exact hnot left x hpc
    · rw [hothers q he, hquiet q] at hin
      cases hin
  · rw [hp] at halone
    cases r with
    | error e => exact halone.elim
    | ok x =>
      refine ⟨x, rfl, halone.path, ?_⟩
      rcases halone.file with hkept | ⟨hbad, hnew⟩
      · exact .inl hkept
      · rw [hnew]
        exact .inr ⟨hbad, rfl, initialised_full, writtenImage_region⟩

instance decidableOnly (p : P) : (a : OpenAct P) → Decidable (a.only p)
  | .call q => inferInstanceAs (Decidable (q = p))
  | .tick q err => inferInstanceAs (Decidable (q = p ∧ err = none))
  | .die _ => isFalse id

/-- A lone opener replaces a leftover file by a fresh region. -/
theorem open_alone_leftover :
    ∃ h s x, Run openStep (fun _ a _ => a.only (0 : Fin 2)) (OpenSys.start (some leftover)) h s ∧
      s.pcs 0 = .done (.ok x) ∧ s.path = some x ∧ (s.files x).image.region = Region.init := by
  obtain ⟨h, s, hr, hp⟩ := exists_run_of_exec openStep (fun _ a _ => a.only 0)
    (OpenSys.start (some leftover))
    (P := fun s : OpenSys (Fin 2) => (s.pcs 0).mapped = some 1) (opening 0 25) (by decide +kernel)
  have hpc := OpenPc.eq_of_mapped hp
  have hr₀ : Run openStep (fun _ _ _ => True) (OpenSys.start (some leftover) : OpenSys (Fin 2)) []
      (OpenSys.start (some leftover)) := .nil
  obtain ⟨_, _, hend⟩ := open_alone hr₀ rfl (fun _ => rfl) hr
  obtain ⟨x, hx, hpath, hfile⟩ := hend _ hpc
  cases hx
  rcases hfile with ⟨_, hvalid, _⟩ | ⟨_, _, _, hregion⟩
  · exact absurd hvalid (by decide)
  · exact ⟨h, s, 1, hr, hpc, hpath, hregion⟩

end Ntsync
