import Mathlib
import Ntsync.Mutex

namespace Ntsync

open Words Lts

/-!
# The ledger of a mutex

Who holds a mutex, and how often, read off the history of a run (`holds`): acquires count up,
unlocks and rollbacks down, a kill wipes the owner's holds out.  `sinceKill` counts the acquires
since the last kill that were not rolled back, so a mutex is abandoned when it is zero.

* `LedgerInv` — the word says what the ledger says, when the operations naming one owner id are
  issued one at a time (`OneAtATime`);
* `UnlockInv` — a `mutex_unlock` returns the ledger's previous count;
* `Tracks` — a wait reports a dead owner iff a mutex it acquired was abandoned.
* `mutex_ledger` — the three together, for every run.
-/

variable {T : Type}

/-! ### Reading the history -/

/-- The store of a step to the word of slot `i`. -/
def Label.tagAt (i : Nat) : Label T → Option Tag
  | .instr _ _ (.word _ j tag _) => if j = i then some tag else none
  | _ => none

/-- The holds of each owner after a store. -/
def Tag.ledger : Tag → (U32 → Int) → U32 → Int
  | .acquire x _, f, o => if o = x then f o + 1 else f o
  | .rollback x, f, o => if o = x then f o - 1 else f o
  | .op (.mutexUnlock x), f, o => if o = x then f o - 1 else f o
  | .op (.mutexKill x), f, o => if o = x then 0 else f o
  | _, f, o => f o

/-- **The ledger.** The outstanding holds of each owner of the mutex in slot `i`, by the history of
    a run and the holds at its start. -/
def holds (i : Nat) (init : U32 → Int) : List (Label T) → U32 → Int
  | [] => init
  | l :: h =>
    match l.tagAt i with
    | some tag => tag.ledger (holds i init h)
    | none => holds i init h

/-- The acquires since the last kill that were not rolled back. -/
def Tag.since : Tag → Option Nat → Option Nat
  | .acquire _ _, k => k.map (· + 1)
  | .rollback _, k => k.map (· - 1)
  | .op (.mutexKill _), _ => some 0
  | _, k => k

def sinceKill (i : Nat) : List (Label T) → Option Nat
  | [] => none
  | l :: h =>
    match l.tagAt i with
    | some tag => tag.since (sinceKill i h)
    | none => sinceKill i h

/-- The mutex in slot `i` was killed and no acquire of it since then stands. -/
def Abandoned (i : Nat) (h : List (Label T)) : Prop := sinceKill i h = some 0

/-- The holds a word stands for. -/
def wordHolds (w : U64) (o : U32) : Int := if lo32 w = o then (mutexCount w).toNat else 0

/-- A step without a word store leaves the ledger. -/
theorem holds_cons_none {i : Nat} {init : U32 → Int} {l : Label T} {h : List (Label T)}
    (hl : l.tagAt i = none) : holds i init (l :: h) = holds i init h := by
  rw [holds, hl]

/-- A word store is entered in the ledger. -/
theorem holds_cons_some {i : Nat} {init : U32 → Int} {l : Label T} {h : List (Label T)} {tag : Tag}
    (hl : l.tagAt i = some tag) : holds i init (l :: h) = tag.ledger (holds i init h) := by
  rw [holds, hl]

/-- A step without a word store leaves the kill record. -/
theorem sinceKill_cons_none {i : Nat} {l : Label T} {h : List (Label T)}
    (hl : l.tagAt i = none) : sinceKill i (l :: h) = sinceKill i h := by
  rw [sinceKill, hl]

/-- A word store is entered in the kill record. -/
theorem sinceKill_cons_some {i : Nat} {l : Label T} {h : List (Label T)} {tag : Tag}
    (hl : l.tagAt i = some tag) : sinceKill i (l :: h) = tag.since (sinceKill i h) := by
  rw [sinceKill, hl]

/-- The tag of a word store. -/
theorem Label.tagAt_word (t : T) (pid hd : U32) (i : Nat) (tag : Tag) (new : U64) :
    (Label.instr t pid (.word hd i tag new)).tagAt i = some tag := by
  simp [Label.tagAt]

/-- Other instructions have no tag. -/
theorem Label.tagAt_of_ne {t : T} {pid : U32} {ins : Instr} {i : Nat}
    (h : ∀ hd tag new, ins ≠ .word hd i tag new) : (Label.instr t pid ins).tagAt i = none := by
  cases ins with
  | word hd j tag new =>
    simp only [Label.tagAt]
    split
    · rename_i hji
      subst hji
      exact absurd rfl (h hd tag new)
    · rfl
  | _ => rfl

/-! ### One at a time -/

def Op.names : Op → Option U32
  | .mutexUnlock owner | .mutexKill owner => some owner
  | _ => none

/-- The owner id a call under way names. -/
def Pc.names : Pc → Option U32
  | .wait c _ => some c.owner
  | .op _ o _ => o.names
  | _ => none

/-- An operation names the owner it acts for. -/
theorem Pc.names_of_actsFor {pc : Pc} {owner : U32} (h : pc.actsFor = some owner) :
    pc.names = some owner := by
  cases pc with
  | wait c p => exact h
  | op hd o p =>
    cases o with
    | mutexUnlock x => exact h
    | _ => cases h
  | _ => cases h

/-- A kill names the owner it kills. -/
theorem Pc.names_of_kills {pc : Pc} {owner : U32} (h : pc.kills = some owner) :
    pc.names = some owner := by
  cases pc with
  | op hd o p =>
    cases o with
    | mutexKill x => exact h
    | _ => cases h
  | _ => cases h

/-- A kill acts for nobody. -/
theorem Pc.actsFor_of_kills {pc : Pc} {owner : U32} (h : pc.kills = some owner) :
    pc.actsFor = none := by
  cases pc with
  | op hd o p =>
    cases o with
    | mutexKill x => rfl
    | _ => cases h
  | _ => cases h

/-- A call goes on naming its owner, or ends. -/
theorem PcGo.names {sh : Shared T} {pid : U32} {o : Oracle} {pc pc' : Pc} {ins : Instr}
    (hg : PcGo sh pid o pc ins pc') : pc'.names = none ∨ pc'.names = pc.names := by
  cases hg with
  | op hg => cases hg <;> first | exact .inr rfl | exact .inl rfl
  | pulse hg => cases hg <;> exact .inl rfl
  | @wait c p _ _ hg =>
    match pc' with
    | .wait c' p' =>
      have ha : c'.owner = c.owner := congrArg WaitArgs.owner (hg.sameArgs rfl)
      exact .inr (by rw [Pc.names, Pc.names, ha])
    | .op _ _ _ =>
      rcases hg.args with ha | ha <;> cases ha
    | .idle | .done _ _ | .panicked | .pulse _ _ | .create _ _ | .close _ _ | .hold _ _ _
    | .sweepDead _ => exact .inl rfl
  | create hg => cases hg <;> exact .inl rfl
  | close hg => cases hg <;> exact .inl rfl
  | hold hg => cases hg <;> exact .inl rfl
  | sweepDead hg => cases hg <;> exact .inl rfl

/-- A call naming an owner id is issued only while no other live thread is in a call naming it. -/
def OneAtATime (s : Sys T) : Label T → Prop
  | .call t c => ∀ u, u ≠ t → s.dead (s.threads u).pid = false → (Pc.start c).names ≠ none →
    (s.threads u).pc.names ≠ (Pc.start c).names
  | _ => True

instance [Fintype T] [DecidableEq T] (s : Sys T) : (l : Label T) → Decidable (OneAtATime s l)
  | .call _ _ => inferInstanceAs (Decidable (∀ _, _))
  | .instr _ _ _ => inferInstanceAs (Decidable True)
  | .die _ => inferInstanceAs (Decidable True)

/-- No two live threads are in calls naming one owner. -/
def NamesInv (s : Sys T) : Prop :=
  ∀ t u owner, s.dead (s.threads t).pid = false → s.dead (s.threads u).pid = false →
    (s.threads t).pc.names = some owner → (s.threads u).pc.names = some owner → t = u

/-- At rest nobody is named. -/
theorem NamesInv.of_idle {s : Sys T} (hidle : s.Idle) : NamesInv s := by
  intro t u owner _ _ ht
  rcases Pc.outside_cases (hidle t) with hpc | ⟨c, r, hpc⟩ <;> rw [hpc] at ht <;> cases ht

/-- One thread at a time acts for an owner. -/
theorem NamesInv.excl {s : Sys T} (h : NamesInv s) : Excl s :=
  fun t u owner ht hu hta hua =>
    h t u owner ht hu (Pc.names_of_actsFor hta) (Pc.names_of_actsFor hua)

section NamesStep

variable [DecidableEq T] {s s' : Sys T} {a : Action T} {l : Label T}

/-- Calls for each owner, in turn, stay in turn. -/
theorem NamesInv.step (hi : NamesInv s) (h : s.step a = some (s', l)) (hok : OneAtATime s l) :
    NamesInv s' := by
  cases Sys.step_inv h with
  | @call t c ha hout =>
    -- the entering thread is the only one in a call naming its owner
    have hnew : ∀ u owner, u ≠ t → s.dead (s.threads u).pid = false →
        (s.threads u).pc.names = some owner → (Pc.start c).names ≠ some owner := by
      intro u owner hut hua hu hs
      exact hok u hut hua (by rw [hs]; exact Option.some_ne_none _) (hu.trans hs.symm)
    intro u v owner hua hva hu hv
    rw [Sys.entered_dead, Sys.entered_pid] at hua hva
    rw [Sys.entered_pc] at hu hv
    by_cases hut : u = t <;> by_cases hvt : v = t
    · exact hut.trans hvt.symm
    · rw [if_pos hut] at hu
      rw [if_neg hvt] at hv
      exact absurd hu (hnew v owner hvt hva hv)
    · rw [if_neg hut] at hu
      rw [if_pos hvt] at hv
      exact absurd hv (hnew u owner hut hua hu)
    · rw [if_neg hut] at hu
      rw [if_neg hvt] at hv
      exact hi u v owner hua hva hu hv
  | @tick t o ins pc' ha ht =>
    have hold : ∀ u owner, ((s.after t ins pc').threads u).pc.names = some owner →
        (s.threads u).pc.names = some owner := by
      intro u owner hu
      rw [Sys.after_pc] at hu
      by_cases hut : u = t
      · rw [if_pos hut] at hu
        rcases (tick_inv ht).names with hn | he
        · rw [hn] at hu
          cases hu
        · rw [hut, ← he]
          exact hu
      · rw [if_neg hut] at hu
        exact hu
    intro u v owner hua hva hu hv
    rw [Sys.after_dead, Sys.after_pid] at hua hva
    exact hi u v owner hua hva (hold u owner hu) (hold v owner hv)
  | @die pid =>
    intro u v owner hua hva hu hv
    rw [Sys.died_dead, Sys.died_threads, Bool.or_eq_false_iff] at hua hva
    exact hi u v owner hua.2 hva.2 hu hv

omit [DecidableEq T] in
/-- A kill issued one at a time spares the tentative holders. -/
theorem NamesInv.killSpares {i : Nat} {t : T} {ins : Instr} {pc' : Pc}
    (hi : NamesInv s) (ha : s.dead (s.threads t).pid = false)
    (hm : MutexStep i (s.region.slots i).w0 (s.threads t).pc pc' ins) :
    KillSpares i s (.instr t (s.threads t).pid ins) := by
  unfold KillSpares
  split
  · rename_i heq
    cases heq
    rintro rfl u ⟨hua, _, hacts⟩
    cases hm with
    | keep hne => exact absurd rfl (hne _ _ _)
    | kill hk =>
      have hut := hi u t _ hua ha (Pc.names_of_actsFor hacts) (Pc.names_of_kills hk)
      subst hut
      rw [Pc.actsFor_of_kills hk] at hacts
      cases hacts
  · trivial

end NamesStep

/-! ### The word says what the ledger says -/

/-- The word of the mutex in slot `i` agrees with the history of the run. -/
structure LedgerInv (i : Nat) (g : U32) (init : U32 → Int) (h : List (Label T)) (s : Sys T) :
    Prop where
  base : MutexInv i g s
  holds_eq : ∀ o, holds i init h o = wordHolds (s.region.slots i).w0 o
  dead_iff : mutexDead (s.region.slots i).w0 = true ↔ sinceKill i h = some 0
  flag : ∀ t b, s.dead (s.threads t).pid = false → (s.threads t).pc.flagsAt i = [b] →
    (b = true ↔ sinceKill i h = some 1) ∧
      (b = true → (mutexCount (s.region.slots i).w0).toNat = 1)

section LedgerStep

variable {i : Nat} {g : U32} {init : U32 → Int} {h : List (Label T)} {s s' : Sys T}
  {a : Action T} {l : Label T} {t : T}

/-- A free mutex is held by nobody. -/
theorem wordHolds_free {w : U64} (hw : WordOk w) (h0 : lo32 w = 0) (o : U32) :
    wordHolds w o = 0 := by
  unfold wordHolds
  split
  · have hc := hw.1.mp h0
    rw [hc]
    rfl
  · rfl

/-- What the ledger records for each store to the mutex, given that it agreed before. -/
theorem wordHolds_take {owner : U32} {w new : U64} {od : Bool} (hw : WordOk w)
    (hb : acquireMutex owner w = .cas new (some od)) (o : U32) :
    wordHolds new o = if o = owner then wordHolds w o + 1 else wordHolds w o := by
  obtain ⟨hlo, hcnt, hcase⟩ := acquireMutex_cas hb
  by_cases ho : o = owner
  · subst ho
    rw [if_pos rfl, wordHolds, if_pos hlo, hcnt]
    rcases hcase with ⟨h0, _⟩ | ⟨ho, _⟩
    · rw [wordHolds_free hw h0, hw.1.mp h0]
      rfl
    · rw [wordHolds, if_pos ho]
      push_cast
      rfl
  · have hne : ¬ lo32 new = o := fun e => ho (e.symm.trans hlo)
    rw [if_neg ho, wordHolds, if_neg hne]
    rcases hcase with ⟨h0, _⟩ | ⟨ho', _⟩
    · rw [wordHolds_free hw h0]
    · rw [wordHolds, if_neg (fun e => ho (e.symm.trans ho'))]

/-- One recursion less in the word is one less held. -/
theorem wordHolds_drop {owner : U32} {w new : U64} (hw' : WordOk new) (hlo : lo32 w = owner)
    (hcnt : (mutexCount new).toNat + 1 = (mutexCount w).toNat)
    (hnew : lo32 new = owner ∨ lo32 new = 0) (o : U32) :
    wordHolds new o = if o = owner then wordHolds w o - 1 else wordHolds w o := by
  have hself : wordHolds new owner = ((mutexCount new).toNat : Int) := by
    rcases hnew with hn | h0
    · rw [wordHolds, if_pos hn]
    · rw [wordHolds_free hw' h0, hw'.1.mp h0]
      rfl
  by_cases ho : o = owner
  · subst ho
    rw [if_pos rfl, hself, wordHolds, if_pos hlo]
    omega
  · have hold : wordHolds w o = 0 := by
      rw [wordHolds, if_neg (fun e => ho (e.symm.trans hlo))]
    rw [if_neg ho, hold]
    rcases hnew with hn | h0
    · rw [wordHolds, if_neg (fun e => ho (e.symm.trans hn))]
    · exact wordHolds_free hw' h0 o

/-- An acquire reports a dead owner iff the mutex was abandoned. -/
theorem LedgerInv.take_dead (hi : LedgerInv i g init h s) {owner : U32} {new : U64} {od : Bool}
    (hb : acquireMutex owner (s.region.slots i).w0 = .cas new (some od)) :
    od = true ↔ Abandoned i h := by
  rw [Abandoned, ← hi.dead_iff]
  obtain ⟨_, _, hcase⟩ := acquireMutex_cas hb
  rcases hcase with ⟨_, rfl, _⟩ | ⟨_, h0, rfl, _⟩
  · exact Iff.rfl
  · exact ⟨fun he => (by cases he), fun hd => absurd (hi.base.word.2 hd) h0⟩

variable [DecidableEq T]

/-- **The ledger stays right** along every step, when owner ids are used one at a time. -/
theorem LedgerInv.step (hi : LedgerInv i g init h s) (hn : NamesInv s)
    (hs : s.step a = some (s', l)) (hu : Stays i s') : LedgerInv i g init (l :: h) s' := by
  cases Sys.step_inv hs with
  | @call t c ha hout =>
    have hbase := hi.base.step hs hu hn.excl trivial
    refine ⟨hbase, ?_, ?_, fun u b hua hfl => ?_⟩
    · rw [holds_cons_none rfl]
      exact hi.holds_eq
    · rw [sinceKill_cons_none rfl]
      exact hi.dead_iff
    · rw [sinceKill_cons_none rfl]
      rw [Sys.entered_pc] at hfl
      by_cases hut : u = t
      · rw [if_pos hut, Pc.flagsAt_of_none (Pc.start_sat c)] at hfl
        cases hfl
      · rw [if_neg hut] at hfl
        exact hi.flag u b (by simpa using hua) hfl
  | @die pid =>
    have hbase := hi.base.step hs hu hn.excl trivial
    refine ⟨hbase, ?_, ?_, fun u b hua hfl => ?_⟩
    · rw [holds_cons_none rfl]
      exact hi.holds_eq
    · rw [sinceKill_cons_none rfl]
      exact hi.dead_iff
    · rw [sinceKill_cons_none rfl]
      rw [Sys.died_dead, Sys.died_threads, Bool.or_eq_false_iff] at hua
      exact hi.flag u b hua.2 hfl
  | @tick t o ins pc' ha ht =>
    have hg := tick_inv ht
    have hm := hg.mutex hi.base.isOpen.holds (hi.base.isOpen.valid t) (hi.base.shape t)
    have hbase := hi.base.step hs hu hn.excl (hn.killSpares ha hm)
    obtain ⟨hw, _⟩ := hi.base.isOpen.after_word ha hg hu
    have hok := hi.base.word
    have hok' := hbase.word
    -- what is left to show about the flags: the acting thread's, and that nobody else has one
    -- unless word and history are untouched
    have hflags : ∀ {k' : Option Nat} {n' : Nat},
        (∀ b, pc'.flagsAt i = [b] → (b = true ↔ k' = some 1) ∧ (b = true → n' = 1)) →
        (∀ u, u ≠ t → s.dead (s.threads u).pid = false → (s.threads u).pc.flagsAt i = []) →
        ∀ u b, (s.after t ins pc').dead ((s.after t ins pc').threads u).pid = false →
          ((s.after t ins pc').threads u).pc.flagsAt i = [b] →
          (b = true ↔ k' = some 1) ∧ (b = true → n' = 1) := by
      intro k' n' hown hoth u b hua hfl
      rw [Sys.after_dead, Sys.after_pid] at hua
      rw [Sys.after_pc] at hfl
      by_cases hut : u = t
      · rw [if_pos hut] at hfl
        exact hown b hfl
      · rw [if_neg hut, hoth u hut hua] at hfl
        cases hfl
    cases hm with
    | keep hne hfl =>
      rw [Instr.wordAfter_of_ne hne] at hw
      refine ⟨hbase, ?_, ?_, fun u b hua hfl' => ?_⟩
      · rw [holds_cons_none (Label.tagAt_of_ne hne), hw]
        exact hi.holds_eq
      · rw [sinceKill_cons_none (Label.tagAt_of_ne hne), hw]
        exact hi.dead_iff
      · rw [sinceKill_cons_none (Label.tagAt_of_ne hne), hw]
        rw [Sys.after_dead, Sys.after_pid] at hua
        rw [Sys.after_pc] at hfl'
        by_cases hut : u = t
        · rw [if_pos hut] at hfl'
          rcases hfl with hfl | ⟨hfl, _⟩
          · exact hi.flag t b ha (hfl.symm.trans hfl')
          · rw [hfl] at hfl'
            cases hfl'
        · rw [if_neg hut] at hfl'
          exact hi.flag u b hua hfl'
    | @take hd owner od new hacts hb hnil hfl =>
      obtain ⟨hlo, hcnt, hcase⟩ := acquireMutex_cas hb
      have htag := Label.tagAt_word t (s.threads t).pid hd i (.acquire owner od) new
      simp only [Instr.wordAfter, if_true] at hw
      have hfree : lo32 (s.region.slots i).w0 = owner ∨ lo32 (s.region.slots i).w0 = 0 :=
        hcase.elim (fun h => .inr h.1) (fun h => .inl h.1)
      have hod : od = true ↔ sinceKill i h = some 0 := hi.take_dead hb
      have hsince : Tag.since (.acquire owner od) (sinceKill i h) = some 1 ↔
          sinceKill i h = some 0 := by
        cases hk : sinceKill i h with
        | none => simp [Tag.since]
        | some k => simp only [Tag.since, Option.map_some, Option.some.injEq]; omega
      refine ⟨hbase, ?_, ?_, ?_⟩
      · intro x
        rw [holds_cons_some htag, hw, wordHolds_take hok hb x, Tag.ledger, hi.holds_eq]
      · rw [sinceKill_cons_some htag, hw]
        have hnot : Tag.since (.acquire owner od) (sinceKill i h) ≠ some 0 := by
          cases hk : sinceKill i h <;> simp [Tag.since]
        refine ⟨fun hd => ?_, fun hz => absurd hz hnot⟩
        rcases hcase with ⟨_, _, hd0⟩ | ⟨_, h0, _, hd0⟩
        · rw [hd0] at hd
          cases hd
        · rw [hd0] at hd
          exact absurd (hok.2 hd) h0
      · rw [sinceKill_cons_some htag, hw]
        refine hflags ?_ (hi.base.nobody hn.excl ha hacts hfree)
        intro b hfl'
        rcases hfl with ⟨hfl, _⟩ | ⟨hfl, _⟩
        · rw [hfl] at hfl'
          cases hfl'
        · rw [hfl] at hfl'
          cases hfl'
          refine ⟨by rw [hsince]; exact hod, fun hod' => ?_⟩
          rcases hcase with ⟨h0, _⟩ | ⟨_, _, rfl, _⟩
          · rw [hcnt, hok.1.mp h0]
          · cases hod'
    | @give hd owner od new hacts hb hone hnil =>
      have hlo := hi.base.held t ha (by rw [hone]; exact List.cons_ne_nil _ _)
      rw [hacts, Option.some.injEq] at hlo
      have hpos := hi.base.count_pos hacts hlo.symm
      have hne0 : owner ≠ 0 := (hi.base.shape t).actsFor_ne_zero hacts
      obtain ⟨hcnt, hcase⟩ := rollbackMutex_cas hb hpos
      obtain ⟨hod, hod1⟩ := hi.flag t od ha hone
      have htag := Label.tagAt_word t (s.threads t).pid hd i (.rollback owner) new
      simp only [Instr.wordAfter, if_true] at hw
      rw [hw] at hok'
      -- an owned mutex is not abandoned
      have halive : mutexDead (s.region.slots i).w0 ≠ true := fun hd =>
        hne0 (hlo.trans (hok.2 hd))
      have hnot : sinceKill i h ≠ some 0 := fun hz => halive (hi.dead_iff.mpr hz)
      have hsince : Tag.since (.rollback owner) (sinceKill i h) = some 0 ↔
          sinceKill i h = some 1 := by
        cases hk : sinceKill i h with
        | none => simp [Tag.since]
        | some k =>
          have hk0 : k ≠ 0 := fun e => hnot (by rw [hk, e])
          simp only [Tag.since, Option.map_some, Option.some.injEq]
          omega
      have hnew : lo32 new = owner ∨ lo32 new = 0 :=
        hcase.elim (fun h => .inr h.2.1) (fun h => .inl h.2.1)
      refine ⟨hbase, ?_, ?_, ?_⟩
      · intro x
        rw [holds_cons_some htag, hw, wordHolds_drop hok' hlo.symm hcnt hnew x, Tag.ledger,
          hi.holds_eq]
      · rw [sinceKill_cons_some htag, hw, hsince, ← hod]
        rcases hcase with ⟨_, _, hd0⟩ | ⟨h1, _, hd0⟩
        · rw [hd0]
        · rw [hd0]
          refine ⟨fun hd => absurd hd halive, fun hod' => ?_⟩
          have := hod1 hod'
          omega
      · rw [sinceKill_cons_some htag, hw]
        refine hflags ?_ (hi.base.nobody hn.excl ha hacts (.inl hlo.symm))
        intro b hfl'
        rw [hnil] at hfl'
        cases hfl'
    | @unlock hd owner new r wake hacts hb hnil hnil' =>
      obtain ⟨hlo, _, hdead, _, hlo', hcnt⟩ := mutexUnlock_cas hb
      have hcnt := hcnt (hi.base.count_pos hacts hlo)
      have htag := Label.tagAt_word t (s.threads t).pid hd i (.op (.mutexUnlock owner)) new
      simp only [Instr.wordAfter, if_true] at hw
      rw [hw] at hok'
      have hnew : lo32 new = owner ∨ lo32 new = 0 := by
        rw [hlo']
        split
        · exact .inr rfl
        · exact .inl rfl
      refine ⟨hbase, ?_, ?_, ?_⟩
      · intro x
        rw [holds_cons_some htag, hw, wordHolds_drop hok' hlo hcnt hnew x, Tag.ledger, hi.holds_eq]
      · rw [sinceKill_cons_some htag, hw, hdead]
        exact hi.dead_iff
      · rw [sinceKill_cons_some htag, hw]
        refine hflags ?_ (hi.base.nobody hn.excl ha hacts (.inl hlo))
        intro b hfl'
        rw [hnil'] at hfl'
        cases hfl'
    | @kill hd owner new r wake hk hb hnil hnil' =>
      obtain ⟨hlo, hlo', hcnt, hdead⟩ := mutexKill_cas hb
      have htag := Label.tagAt_word t (s.threads t).pid hd i (.op (.mutexKill owner)) new
      have hspare : KillSpares i s
          (.instr t (s.threads t).pid (.word hd i (.op (.mutexKill owner)) new)) :=
        hn.killSpares ha (.kill hk hb hnil hnil')
      simp only [Instr.wordAfter, if_true] at hw
      rw [hw] at hok'
      refine ⟨hbase, ?_, ?_, ?_⟩
      · intro x
        rw [holds_cons_some htag, hw, wordHolds_free hok' hlo', Tag.ledger, hi.holds_eq]
        split
        · rfl
        · rename_i hx
          rw [wordHolds, if_neg (fun e => hx (e.symm.trans hlo))]
      · rw [sinceKill_cons_some htag, hw]
        exact ⟨fun _ => rfl, fun _ => hdead⟩
      · rw [sinceKill_cons_some htag, hw]
        refine hflags ?_ ?_
        · intro b hfl'
          rw [hnil'] at hfl'
          cases hfl'
        · intro u hut hua
          by_contra hfl
          have hheld := hi.base.held u hua hfl
          rw [hlo] at hheld
          exact hspare rfl u ⟨hua, hfl, hheld⟩

end LedgerStep

/-! ### What an unlock returns -/

/-- The result an operation has settled on: returned, or about to be after the wake walk. -/
def Pc.opResult : Pc → Option (U32 × Op × OpRet)
  | .op h o (.peek r) | .op h o (.lockWake r) | .op h o (.walk r _) | .op h o (.unlock r) =>
    some (h, o, r)
  | .done (.op h o) (.op r) => some (h, o, r)
  | _ => none

/-- A result is kept, or settled by the loop of the operation, or the handle was invalid. -/
theorem PcGo.opResult {sh : Shared T} {pid : U32} {o : Oracle} {pc pc' : Pc} {ins : Instr}
    (hg : PcGo sh pid o pc ins pc') {hd : U32} {op : Op} {r : OpRet}
    (hr : pc'.opResult = some (hd, op, r)) :
    pc.opResult = some (hd, op, r) ∨
    (∃ new wake, ins = .word hd (handleIndex hd) (.op op) new ∧
      op.pass (sh.region.slots (handleIndex hd)).w0 = .cas new (r, wake)) ∨
    (∃ wake, op.pass (sh.region.slots (handleIndex hd)).w0 = .ret (r, wake)) ∨
    r = .error .invalid := by
  cases hg with
  | op hg =>
    cases hg with
    | bad => cases hr; exact .inr (.inr (.inr rfl))
    | ret hb => cases hr; exact .inr (.inr (.inl ⟨_, hb⟩))
    | swap hb => cases hr; exact .inr (.inl ⟨_, _, rfl, hb⟩)
    | swapQuiet hb => cases hr; exact .inr (.inl ⟨_, _, rfl, hb⟩)
    | peekNone | peek | lock | walk | walked | unlock => exact .inl hr
    | state | gen | typ | retry => cases hr
  | pulse hg => cases hg <;> cases hr
  | @wait c p _ _ hg =>
    have hnone : pc'.opResult = none := by
      rcases hg.args with rfl | ha
      · rfl
      · cases pc' with
        | done c' r' => cases c' <;> first | rfl | cases ha
        | wait => rfl
        | _ => cases ha
    rw [hnone] at hr
    cases hr
  | create hg => cases hg <;> cases hr
  | close hg => cases hg <;> cases hr
  | hold hg => cases hg <;> cases hr
  | sweepDead hg => cases hg <;> cases hr

/-- Thread `t`'s last call swapped the word of slot `i` for an unlock by `x`, when the ledger
    stood at `n` holds. -/
def UnlockedAt (i : Nat) (init : U32 → Int) (h : List (Label T)) (t : T) (hd x n : U32) : Prop :=
  ∃ h₂ h₁ pid new, h = h₂ ++ .instr t pid (.word hd i (.op (.mutexUnlock x)) new) :: h₁ ∧
    (∀ c, Label.call t c ∉ h₂) ∧ (n.toNat : Int) = holds i init h₁ x

/-- Every successful unlock returns the ledger's count before its swap. -/
def UnlockInv (i : Nat) (init : U32 → Int) (h : List (Label T)) (s : Sys T) : Prop :=
  ∀ t hd x v, (s.threads t).pc.opResult = some (hd, .mutexUnlock x, .ok v) → handleIndex hd = i →
    ∃ n, v = .num n ∧ UnlockedAt i init h t hd x n

/-- At rest nobody has unlocked. -/
theorem UnlockInv.of_idle {i : Nat} {init : U32 → Int} {s : Sys T}
    (hidle : ∀ t, (s.threads t).pc = .idle) : UnlockInv i init [] s := by
  intro t hd x v hr
  rw [hidle t] at hr
  cases hr

/-- What an unlock has done stays on record until the thread's next call. -/
theorem UnlockedAt.cons {i : Nat} {init : U32 → Int} {h : List (Label T)} {t : T} {hd x n : U32}
    {l : Label T} (hu : UnlockedAt i init h t hd x n) (hl : ∀ c, l ≠ .call t c) :
    UnlockedAt i init (l :: h) t hd x n := by
  obtain ⟨h₂, h₁, pid, new, rfl, hc, hn⟩ := hu
  refine ⟨l :: h₂, h₁, pid, new, rfl, fun c hmem => ?_, hn⟩
  rcases List.mem_cons.mp hmem with he | hmem
  · exact hl c he.symm
  · exact hc c hmem

/-- A call starts without a result. -/
theorem Pc.start_opResult {c : Call} {hd : U32} {o : Op} {v : Val} :
    (Pc.start c).opResult ≠ some (hd, o, .ok v) := by
  intro hr
  cases c with
  | op h o' =>
    simp only [Pc.start] at hr
    split at hr <;> cases hr
  | pulse | sweepDead => cases hr
  | wait | create | close | hold =>
    simp only [Pc.start] at hr
    split at hr <;> cases hr

/-- **Every step keeps the unlocks on record.** -/
theorem UnlockInv.step [DecidableEq T] {i : Nat} {g : U32} {init : U32 → Int} {h : List (Label T)}
    {s s' : Sys T} {a : Action T} {l : Label T} (hi : UnlockInv i init h s)
    (hl : LedgerInv i g init h s) (hs : s.step a = some (s', l)) :
    UnlockInv i init (l :: h) s' := by
  cases Sys.step_inv hs with
  | @call t c ha hout =>
    intro u hd x v hr hidx
    rw [Sys.entered_pc] at hr
    by_cases hut : u = t
    · rw [if_pos hut] at hr
      exact absurd hr Pc.start_opResult
    · rw [if_neg hut] at hr
      obtain ⟨n, rfl, hat⟩ := hi u hd x v hr hidx
      exact ⟨n, rfl, hat.cons fun c he => hut (by cases he; rfl)⟩
  | @tick t o ins pc' ha ht =>
    intro u hd x v hr hidx
    rw [Sys.after_pc] at hr
    by_cases hut : u = t
    · subst hut
      rw [if_pos rfl] at hr
      rcases (tick_inv ht).opResult hr with hold | ⟨new, wake, rfl, hb⟩ | ⟨wake, hb⟩ | he
      · obtain ⟨n, rfl, hat⟩ := hi u hd x v hold hidx
        exact ⟨n, rfl, hat.cons fun c he => (by cases he)⟩
      · rw [hidx] at hb
        obtain ⟨hlo, hv, _⟩ := mutexUnlock_cas hb
        cases hv
        rw [hidx]
        refine ⟨_, rfl, [], h, _, new, rfl, fun c hmem => (by cases hmem), ?_⟩
        rw [hl.holds_eq, wordHolds, if_pos hlo]
      · simp only [Op.pass, mutexUnlock] at hb
        split at hb <;> cases hb
      · cases he
    · rw [if_neg hut] at hr
      obtain ⟨n, rfl, hat⟩ := hi u hd x v hr hidx
      exact ⟨n, rfl, hat.cons fun c he => (by cases he)⟩
  | die =>
    intro u hd x v hr hidx
    obtain ⟨n, rfl, hat⟩ := hi u hd x v hr hidx
    exact ⟨n, rfl, hat.cons fun c he => (by cases he)⟩

/-! ### When a wait reports a dead owner -/

instance (i : Nat) (h : List (Label T)) : Decidable (Abandoned i h) :=
  inferInstanceAs (Decidable (_ = _))

section Acquired

variable [DecidableEq T]

/-- The history before thread `t`'s acquire of slot `i` in its current call, if it made one there
    and has not given it back. -/
def acquiredAt (t : T) (i : Nat) : List (Label T) → Option (List (Label T))
  | [] => none
  | .call u _ :: h => if u = t then none else acquiredAt t i h
  | .instr u _ (.word _ j (.acquire _ _) _) :: h =>
    if u = t ∧ j = i then some h else acquiredAt t i h
  | .instr u _ (.word _ j (.rollback _) _) :: h =>
    if u = t ∧ j = i then none else acquiredAt t i h
  | _ :: h => acquiredAt t i h

variable {t u : T} {i : Nat} {h : List (Label T)}

/-- A step of another thread leaves the record alone. -/
theorem acquiredAt_other {pid : U32} {ins : Instr} (hut : u ≠ t) :
    acquiredAt t i (.instr u pid ins :: h) = acquiredAt t i h := by
  cases ins with
  | word hd j tag new => cases tag <;> simp [acquiredAt, hut]
  | _ => rfl

/-- So does a step that is not a store of `try_satisfy` to the slot. -/
theorem acquiredAt_plain {pid : U32} {ins : Instr} (ha : ∀ hd tag new, ins = .word hd i tag new →
    ins.attempt = false) : acquiredAt t i (.instr u pid ins :: h) = acquiredAt t i h := by
  cases ins with
  | word hd j tag new =>
    cases tag with
    | acquire | rollback =>
      have hji : j ≠ i := by
        rintro rfl
        exact absurd (ha _ _ _ rfl) (by simp [Instr.attempt])
      simp [acquiredAt, hji]
    | _ => rfl
  | _ => rfl

/-- The record as the answers a wait-all keeps with its tentative holds. -/
def recorded (t : T) (i : Nat) (h : List (Label T)) : List Bool :=
  (acquiredAt t i h).toList.map fun h₁ => decide (Abandoned i h₁)

/-- A wait that has not settled on an outcome holds exactly the mutexes on record, each with the
    right answer about a dead owner. -/
def RecordInv (i : Nat) (h : List (Label T)) (s : Sys T) : Prop :=
  ∀ t, (s.threads t).pc.report = none → (s.threads t).pc.flagsAt i = recorded t i h

/-- At rest nothing is held tentatively. -/
theorem RecordInv.of_idle {s : Sys T} (hidle : s.Idle) : RecordInv i [] s := by
  intro t _
  rcases Pc.outside_cases (hidle t) with hpc | ⟨c, r, hpc⟩ <;> rw [hpc] <;> rfl

omit [DecidableEq T] in
/-- An outcome is settled once. -/
theorem PcGo.report_none {sh : Shared T} {pid : U32} {o : Oracle} {pc pc' : Pc} {ins : Instr}
    (hg : PcGo sh pid o pc ins pc') (h : pc'.report = none) :
    pc.report = none := by
  cases hg with
  | @wait c p _ _ hg =>
    cases hg with
    | clean hg => cases hg <;> cases h
    | _ => rfl
  | _ => rfl

/-- **Every step keeps the abandoned marks on record.** -/
theorem RecordInv.step {g : U32} {init : U32 → Int} {s s' : Sys T} {a : Action T} {l : Label T}
    (hi : RecordInv i h s) (hl : LedgerInv i g init h s) (hs : s.step a = some (s', l)) :
    RecordInv i (l :: h) s' := by
  cases Sys.step_inv hs with
  | @call t c ha hout =>
    intro u hr
    rw [Sys.entered_pc] at hr ⊢
    by_cases hut : u = t
    · rw [if_pos hut, Pc.flagsAt_of_none (Pc.start_sat c)]
      simp [recorded, acquiredAt, hut]
    · rw [if_neg hut] at hr ⊢
      rw [hi u hr]
      simp [recorded, acquiredAt, Ne.symm hut]
  | @tick t o ins pc' ha ht =>
    have hg := tick_inv ht
    intro u hr
    rw [Sys.after_pc] at hr ⊢
    by_cases hut : u = t
    · subst hut
      rw [if_pos rfl] at hr ⊢
      have hold := hi u (hg.report_none hr)
      cases hg.mutex hl.base.isOpen.holds (hl.base.isOpen.valid u) (hl.base.shape u) with
      | keep hne hfl =>
        rcases hfl with hfl | ⟨_, hrep⟩
        · rw [hfl, hold, recorded, recorded,
            acquiredAt_plain fun hd tag new e => absurd e (hne hd tag new)]
        · exact absurd hr hrep
      | take hacts hb hnil hfl =>
        rcases hfl with ⟨_, hrep⟩ | ⟨hfl, _⟩
        · exact absurd hr hrep
        · rw [hfl]
          have hdead := hl.take_dead hb
          simp [recorded, acquiredAt, ← hdead]
      | give hacts hb hone hnil =>
        rw [hnil]
        simp [recorded, acquiredAt]
      | unlock hacts hb hnil hnil' | kill hk hb hnil hnil' =>
        rw [hnil', ← hnil, hold]
        rfl
    · rw [if_neg hut] at hr ⊢
      rw [hi u hr, recorded, recorded, acquiredAt_other (fun e => hut e.symm)]
  | @die pid =>
    intro u hr
    exact hi u hr

omit [DecidableEq T] in
/-- How a wait comes to report success: it did before, it was alerted, or `try_satisfy` won. -/
theorem PcGo.report_signaled {sh : Shared T} {pid : U32} {o : Oracle} {pc pc' : Pc} {ins : Instr}
    (hg : PcGo sh pid o pc ins pc') {idx : Nat} {od : Bool}
    (hr : pc'.report = some (.signaled idx od)) :
    (pc.sat? = none ∧ (pc.report = some (.signaled idx od) ∧ pc'.args? = pc.args? ∨
      pc.report = none ∧ od = false)) ∨
    ∃ c p w, pc.sat? = some (c, p) ∧
      SatStep sh.region c.toWaitArgs c.seqs p w (.done (some (idx, od))) ∧
      ins = satInstr c.toWaitArgs w ∧ pc'.args? = some c.toWaitArgs := by
  cases hg with
  | op hg => cases hg <;> cases hr
  | pulse hg => cases hg <;> cases hr
  | @wait c q _ _ hg =>
    cases hq : q.sat? with
    | some p =>
      refine .inr ?_
      obtain ⟨w, out, hst, hi, ha, hf⟩ := hg.sat hq
      have hout : out = .done (some (idx, od)) := by
        match out with
        | .more p' =>
          obtain ⟨q', rfl, hq'⟩ := Pc.sat_wait hf
          cases q' with
          | clean => cases hq'
          | _ => cases hr
        | .done (some x) =>
          have hx := hf.2.symm.trans hr
          cases hx
          rfl
        | .done none => rcases hf.2 with h | h <;> rw [h] at hr <;> cases hr
      subst hout
      -- so the attempt has won
      exact ⟨c, p, w, by simp [Pc.sat?, hq], hst, hi, ha⟩
    | none =>
      refine .inl ⟨by simp [Pc.sat?, hq], ?_⟩
      have hpl := hg.plain hq
      have hargs : pc'.args? = some c.toWaitArgs := by
        rcases hpl.args with rfl | ha
        · cases hr
        · exact ha
      cases hrep : (Pc.wait c q).report with
      | none =>
        refine .inr ⟨rfl, ?_⟩
        -- without an attempt only the alert lets a wait succeed
        rcases hpl.report with h | h | h | h <;> rw [h] at hr
        · rw [hrep] at hr
          cases hr
        · cases hr
        · cases hr
        · cases hr
          rfl
      | some r =>
        -- a wait that cleans up has decided before
        refine .inl ⟨?_, hargs⟩
        cases q with
        | clean r' p =>
          cases hg with
          | clean hg => cases hg <;> cases hr <;> exact hrep.symm
        | _ => cases hrep
  | create hg => cases hg <;> cases hr
  | close hg => cases hg <;> cases hr
  | hold hg => cases hg <;> cases hr
  | sweepDead hg => cases hg <;> cases hr

/-- The tentative holds of objects other than mutexes never say anything about a dead owner. -/
def PlainInv (i : Nat) (s : Sys T) : Prop := ∀ t, ∀ b ∈ (s.threads t).pc.flagsAt i, b = false

omit [DecidableEq T] in
/-- At rest nothing is held tentatively. -/
theorem PlainInv.of_idle {s : Sys T} (hidle : s.Idle) : PlainInv i s := by
  intro t b hb
  rcases Pc.outside_cases (hidle t) with hpc | ⟨c, r, hpc⟩ <;> rw [hpc] at hb <;> cases hb

/-- Acquiring anything but a mutex says nothing about a dead owner. -/
theorem AcqTakes.plain {s : Slot} {owner : U32} {seq : U64} {od : Bool} {w : Option U64}
    (h : AcqTakes s owner seq od w) (hty : s.objType ≠ .mutex) : od = false := by
  unfold AcqTakes at h
  split at h
  · exact h.2.1
  · exact absurd (by assumption) hty
  · exact h.1
  · exact h.elim

/-- Only mutexes give an abandoned mark. -/
theorem SatStep.plain {r : Region} {a : WaitArgs} {seqs : Nat → U64} {p : Sat}
    {w : Option SatWrite} {out : Out Sat (Option (Nat × Bool))} {i : Nat}
    (hst : SatStep r a seqs p w out) (hf : p.Fits a i (r.slots i).objType)
    (hty : (r.slots i).objType ≠ .mutex) (hp : ∀ b ∈ p.flagsAt a i, b = false) :
    ∀ b ∈ out.flagsAt a i, b = false := by
  cases hst with
  | anyMore | anyNext | anyFail | allMore | allUndo | undoMore | allFail | undoNil => exact hp
  | anyWin | allWin | undoLast => exact fun b hb => (by cases hb)
  | @allTake k acquired od b q v hs _ =>
    intro b' hb'
    simp only [Out.flagsAt, Sat.flagsAt, Sat.held, List.filter_append, List.map_append,
      List.mem_append] at hb'
    rcases hb' with hb' | hb'
    · exact hp b' hb'
    · -- the new hold is of slot `i`, which is no mutex
      simp only [List.mem_map, List.mem_filter, List.mem_singleton, decide_eq_true_eq] at hb'
      obtain ⟨x, ⟨rfl, hk⟩, rfl⟩ := hb'
      subst hk
      exact (Acq.step_take (hf rfl) hs).plain hty
  | @undoNext k b rest u v hs _ =>
    intro b' hb'
    refine hp b' ?_
    simp only [Out.flagsAt, Sat.flagsAt, Sat.held, List.mem_map, List.mem_filter] at hb' ⊢
    obtain ⟨x, ⟨hx, hxi⟩, rfl⟩ := hb'
    exact ⟨x, ⟨List.mem_cons_of_mem _ hx, hxi⟩, rfl⟩

/-- **Every step keeps the marks of other objects clear.** -/
theorem PlainInv.step {g : U32} {ty : ObjType} {s s' : Sys T} {a : Action T} {l : Label T}
    (hi : PlainInv i s) (ho : OpenInv i g ty s) (hty : ty ≠ .mutex)
    (hs : s.step a = some (s', l)) : PlainInv i s' := by
  cases Sys.step_inv hs with
  | @call t c ha hout =>
    intro u b hb
    rw [Sys.entered_pc] at hb
    split at hb
    · rw [Pc.flagsAt_of_none (Pc.start_sat c)] at hb
      cases hb
    · exact hi u b hb
  | @tick t o ins pc' ha ht =>
    have hg := tick_inv ht
    intro u b hb
    rw [Sys.after_pc] at hb
    split at hb
    · cases hp : (s.threads t).pc.sat? with
      | none =>
        rw [(hg.flagsAt_noSat hp).2] at hb
        cases hb
      | some x =>
        obtain ⟨c, p⟩ := x
        obtain ⟨w, out, hst, _, _, hf⟩ := hg.sat hp
        have hv := ho.valid t
        have hold := hi t
        rw [Pc.flagsAt_of_some hp] at hold
        obtain ⟨q, hpc, hq⟩ := Pc.sat_wait hp
        rw [hpc] at hv
        have hfits := hv.fits p hq
        rw [← ho.holds.typ] at hfits hty
        rw [hf.flagsAt] at hb
        exact hst.plain hfits hty hold b hb
    · exact hi u b hb
  | die => exact hi

/-- **The report of a dead owner.** A wait on objects of `K` that reports success reports a dead
    owner iff one of the mutexes it acquired was abandoned then. -/
def ReportInv (K : Finset Nat) (ty : Nat → ObjType) (h : List (Label T)) (s : Sys T) : Prop :=
  ∀ t a idx od, (s.threads t).pc.report = some (.signaled idx od) →
    (s.threads t).pc.args? = some a → (∀ k < a.handles.length, a.slotOf k ∈ K) →
    (od = true ↔ ∃ k < a.handles.length, ty (a.slotOf k) = .mutex ∧
      ∃ h₁, acquiredAt t (a.slotOf k) h = some h₁ ∧ Abandoned (a.slotOf k) h₁)

/-- At rest nothing is reported. -/
theorem ReportInv.of_idle {K : Finset Nat} {ty : Nat → ObjType} {s : Sys T}
    (hidle : ∀ t, (s.threads t).pc = .idle) : ReportInv K ty [] s := by
  intro t a idx od hr
  rw [hidle t] at hr
  cases hr

omit [DecidableEq T] in
/-- A call starts without an outcome. -/
theorem Pc.start_report {c : Call} {idx : Nat} {od : Bool} :
    (Pc.start c).report ≠ some (.signaled idx od) := by
  intro hr
  cases c with
  | pulse | sweepDead => cases hr
  | op | wait | create | close | hold =>
    simp only [Pc.start] at hr
    split at hr <;> cases hr

/-- The attempt that wins: it acquired the last position with the answer `b`, and reports a dead
    owner if that answer or one of the held ones says so. -/
theorem SatStep.win {r : Region} {a : WaitArgs} {seqs : Nat → U64} {p : Sat}
    {w : Option SatWrite} {idx : Nat} {od : Bool}
    (hst : SatStep r a seqs p w (.done (some (idx, od)))) (hsh : p.Shape a) :
    ∃ (k : Nat) (b : Bool) (q : Acq) (v : Option U64), k < a.handles.length ∧
      (∀ x ∈ p.held, x.1 < k) ∧ (∀ i ty, p.Fits a i ty → a.slotOf k = i → q.fits ty) ∧
      q.step (r.slots (a.slotOf k)) a.owner (seqs k) = (v, .done (some b)) ∧
      w = v.map (.acquire k b) ∧ od = (p.held.any Prod.snd || b) := by
  cases hst with
  | @anyWin _ q v _ hs =>
    exact ⟨idx, od, q, v, hsh.1, fun x hx => (by cases hx), fun i ty hf => hf, hs, rfl, rfl⟩
  | @allWin k acquired od₀ b q v hs hlt =>
    refine ⟨k, b, q, v, hsh.1, fun x hx => hsh.below hx, fun i ty hf => hf, hs, rfl, ?_⟩
    rw [hsh.2.2.2]
    rfl

/-- What the invariants of the single objects of `K` say together. -/
structure LedgersInv (K : Finset Nat) (g : Nat → U32) (ty : Nat → ObjType) (init : Nat → U32 → Int)
    (h : List (Label T)) (s : Sys T) : Prop where
  isOpen : ∀ i ∈ K, OpenInv i (g i) (ty i) s
  shape : ShapeInv s
  names : NamesInv s
  ledger : ∀ i ∈ K, ty i = .mutex → LedgerInv i (g i) (init i) h s
  unlocks : ∀ i ∈ K, ty i = .mutex → UnlockInv i (init i) h s
  record : ∀ i ∈ K, ty i = .mutex → RecordInv i h s
  plain : ∀ i ∈ K, ty i ≠ .mutex → PlainInv i s
  report : ReportInv K ty h s

section Ledgers

variable {K : Finset Nat} {g : Nat → U32} {ty : Nat → ObjType} {init : Nat → U32 → Int}
  {h : List (Label T)} {s s' : Sys T} {a : Action T} {l : Label T}

/-- The report of an attempt that wins. -/
theorem LedgersInv.win (hi : LedgersInv K g ty init h s) {t : T} {pid : U32} {c : WaitCtx} {p : Sat}
    {w : Option SatWrite} {idx : Nat} {od : Bool} (hp : (s.threads t).pc.sat? = some (c, p))
    (hst : SatStep s.region c.toWaitArgs c.seqs p w (.done (some (idx, od))))
    (hK : ∀ k < c.handles.length, c.slotOf k ∈ K) :
    od = true ↔ ∃ k < c.handles.length, ty (c.slotOf k) = .mutex ∧
      ∃ h₁, acquiredAt t (c.slotOf k) (.instr t pid (satInstr c.toWaitArgs w) :: h) = some h₁ ∧
        Abandoned (c.slotOf k) h₁ := by
  obtain ⟨q, hpc, hq⟩ := Pc.sat_wait hp
  have hshape := hi.shape t
  rw [hpc] at hshape
  obtain ⟨k, b, q', v, hk, hbelow, hfits, hs, rfl, rfl⟩ := hst.win (hshape.2 p hq)
  -- what is held of a slot is on record, if it is a mutex's, and says nothing otherwise
  have hrec : ∀ j < c.handles.length, ty (c.slotOf j) = .mutex →
      p.flagsAt c.toWaitArgs (c.slotOf j) = recorded t (c.slotOf j) h := by
    intro j hj hm
    have hr : (s.threads t).pc.report = none := by
      rw [hpc]
      cases q with
      | clean => cases hq
      | _ => rfl
    rw [← Pc.flagsAt_of_some hp]
    exact hi.record _ (hK j hj) hm t hr
  have hmem : ∀ x ∈ p.held, x.2 ∈ p.flagsAt c.toWaitArgs (c.slotOf x.1) := fun x hx =>
    List.mem_map_of_mem (List.mem_filter.mpr ⟨hx, by simp⟩)
  have hfit : q'.fits (s.region.slots (c.slotOf k)).objType := by
    have hv := (hi.isOpen _ (hK k hk)).valid t
    rw [hpc] at hv
    rw [(hi.isOpen _ (hK k hk)).holds.typ]
    exact hfits _ _ (hv.fits p hq) rfl
  have htakes := Acq.step_take hfit hs
  -- the last acquire is of another slot than the held ones
  have hother : ∀ j < c.handles.length, c.slotOf j ≠ c.slotOf k →
      acquiredAt t (c.slotOf j) (.instr t pid (satInstr c.toWaitArgs (v.map (.acquire k b))) :: h) =
        acquiredAt t (c.slotOf j) h := by
    intro j hj hne
    refine acquiredAt_plain fun hd tag new he => ?_
    cases v with
    | none => cases he
    | some u =>
      simp only [Option.map_some, satInstr, SatWrite.instr, Instr.word.injEq] at he
      exact absurd he.2.1.symm hne
  -- the last acquire is on record if it is a mutex's
  have hlast : ty (c.slotOf k) = .mutex →
      acquiredAt t (c.slotOf k) (.instr t pid (satInstr c.toWaitArgs (v.map (.acquire k b))) :: h) =
        some h ∧ (b = true ↔ Abandoned (c.slotOf k) h) := by
    intro hm
    have hty := (hi.isOpen _ (hK k hk)).holds.typ
    rw [hm] at hty
    simp only [AcqTakes, hty] at htakes
    obtain ⟨new, rfl, hb⟩ := htakes
    exact ⟨by simp [satInstr, SatWrite.instr, acquiredAt],
      (hi.ledger _ (hK k hk) hm).take_dead hb⟩
  rw [Bool.or_eq_true, List.any_eq_true]
  constructor
  · rintro (⟨x, hx, hxb⟩ | rfl)
    · have hxk := hbelow x hx
      have hxl : x.1 < c.handles.length := hxk.trans hk
      have hm : ty (c.slotOf x.1) = .mutex := by
        by_contra hne
        have hflag := hi.plain _ (hK _ hxl) hne t x.2
        rw [Pc.flagsAt_of_some hp] at hflag
        rw [hflag (hmem x hx)] at hxb
        cases hxb
      have hin := hmem x hx
      rw [hrec _ hxl hm, recorded, List.mem_map] at hin
      obtain ⟨h₁, hin, hdec⟩ := hin
      refine ⟨x.1, hxl, hm, h₁, ?_, by rw [hxb] at hdec; exact of_decide_eq_true hdec⟩
      have hne : c.slotOf x.1 ≠ c.slotOf k := by
        intro he
        have hv := (hi.isOpen _ (hK k hk)).valid t
        have := Pc.Valid.slot_inj hp hv (hi.shape t) hxl hk he rfl
        omega
      rw [hother _ hxl hne]
      exact Option.mem_toList.mp hin
    · have hm : ty (c.slotOf k) = .mutex := by
        by_contra hne
        rw [← (hi.isOpen _ (hK k hk)).holds.typ] at hne
        cases htakes.plain hne
      obtain ⟨hat, hb⟩ := hlast hm
      exact ⟨k, hk, hm, h, hat, hb.mp rfl⟩
  · rintro ⟨j, hj, hm, h₁, hat, hab⟩
    by_cases hjk : c.slotOf j = c.slotOf k
    · rw [hjk] at hat hab hm
      obtain ⟨hat', hb⟩ := hlast hm
      rw [hat', Option.some.injEq] at hat
      subst hat
      exact .inr (hb.mpr hab)
    · rw [hother j hj hjk] at hat
      have hfl := hrec j hj hm
      have htrue : true ∈ p.flagsAt c.toWaitArgs (c.slotOf j) := by
        rw [hfl, recorded, hat]
        simpa using hab
      obtain ⟨x, hx, hxb⟩ := List.mem_map.mp htrue
      exact .inl ⟨x, (List.mem_filter.mp hx).1, hxb⟩

/-- Every step keeps the reports true. -/
theorem LedgersInv.reportStep (hi : LedgersInv K g ty init h s) (hs : s.step a = some (s', l)) :
    ReportInv K ty (l :: h) s' := by
  cases Sys.step_inv hs with
  | @call t c ha hout =>
    intro u a' idx od hr hargs hK
    rw [Sys.entered_pc] at hr hargs
    by_cases hut : u = t
    · rw [if_pos hut] at hr
      exact absurd hr Pc.start_report
    · rw [if_neg hut] at hr hargs
      rw [hi.report u a' idx od hr hargs hK]
      simp only [acquiredAt, if_neg (Ne.symm hut)]
  | @die pid => exact hi.report
  | @tick t o ins pc' ha ht =>
    have hg := tick_inv ht
    intro u a' idx od hr hargs hK
    rw [Sys.after_pc] at hr hargs
    by_cases hut : u = t
    · subst hut
      rw [if_pos rfl] at hr hargs
      rcases hg.report_signaled hr with ⟨hnone, hcase⟩ | ⟨c, p, w, hp, hst, rfl, hargs'⟩
      · -- no store of `try_satisfy` in this step
        have hat : ∀ i, acquiredAt u i (.instr u (s.threads u).pid ins :: h) = acquiredAt u i h :=
          fun i => acquiredAt_plain fun _ _ _ _ => (hg.noSat hnone).1
        simp only [hat]
        rcases hcase with ⟨hr', hsame⟩ | ⟨hr', rfl⟩
        · exact hi.report u a' idx od hr' (hsame.symm.trans hargs) hK
        · refine ⟨fun hf => (by cases hf), ?_⟩
          rintro ⟨k, hk, hm, h₁, hacq, _⟩
          have hrec := hi.record _ (hK k hk) hm u hr'
          rw [Pc.flagsAt_of_none hnone, recorded, hacq] at hrec
          cases hrec
      · rw [hargs', Option.some.injEq] at hargs
        subst hargs
        exact hi.win hp hst hK
    · rw [if_neg hut] at hr hargs
      rw [hi.report u a' idx od hr hargs hK]
      simp only [acquiredAt_other (Ne.symm hut)]

/-- **Every step keeps the ledgers.** -/
theorem LedgersInv.step (hi : LedgersInv K g ty init h s) (hs : s.step a = some (s', l))
    (hst : ∀ i ∈ K, Stays i s') (hone : OneAtATime s l) : LedgersInv K g ty init (l :: h) s' where
  isOpen i hK := (hi.isOpen i hK).step hs (hst i hK)
  shape := hi.shape.step hs
  names := hi.names.step hs hone
  ledger i hK hm := (hi.ledger i hK hm).step hi.names hs (hst i hK)
  unlocks i hK hm := (hi.unlocks i hK hm).step (hi.ledger i hK hm) hs
  record i hK hm := (hi.record i hK hm).step (hi.ledger i hK hm) hs
  plain i hK hm := (hi.plain i hK hm).step (hi.isOpen i hK) hm hs
  report := hi.reportStep hs

omit [DecidableEq T] in
/-- A mutex as `create_mutex` leaves it agrees with the ledger that starts from its count. -/
theorem LedgerInv.of_start {i : Nat} {owner count : U32} {s : Sys T} (hidle : s.Idle)
    (hu : (s.region.slots i).state = .used) (hty : (s.region.slots i).objType = .mutex)
    (hw : (s.region.slots i).w0 = packMutex owner count false)
    (hoc : owner = 0 ↔ count = 0) (hle : count.toNat ≤ maxRecursion.toNat) :
    LedgerInv i (s.region.slots i).generation (wordHolds (s.region.slots i).w0) [] s := by
  refine ⟨MutexInv.of_start hidle hu hty hw hoc hle, fun o => rfl, ?_, fun t b _ hfl => ?_⟩
  · rw [hw, mutexDead_packMutex]
    exact ⟨fun h => (by cases h), fun h => (by cases h)⟩
  · rcases Pc.outside_cases (hidle t) with hpc | ⟨c, r, hpc⟩ <;> rw [hpc] at hfl <;> cases hfl

end Ledgers

/-- The objects of `K` stay open, and the operations naming one owner id are issued one at a
    time. -/
def InTurn (K : Finset Nat) (s : Sys T) (l : Label T) (s' : Sys T) : Prop :=
  (∀ i ∈ K, Stays i s') ∧ OneAtATime s l

instance [Fintype T] (K : Finset Nat) (s : Sys T) (l : Label T) (s' : Sys T) :
    Decidable (InTurn K s l s') :=
  inferInstanceAs (Decidable (_ ∧ _))

/-- The word of a mutex fresh from `create_mutex`. -/
def FreshMutex (w : U64) : Prop :=
  ∃ owner count : U32, w = packMutex owner count false ∧ (owner = 0 ↔ count = 0) ∧
    count.toNat ≤ maxRecursion.toNat

/-- **The ledger of every mutex.** In every run that starts with all threads at rest, and in which
    the objects of `K` stay open and the operations naming one owner id are issued one at a time: at
    most one owner has outstanding holds of a mutex; its word tells that owner and the number of
    holds, or owner 0 and count 0 when there are none; a successful unlock returned the ledger's
    count before it; and a wait on objects of `K` reports a dead owner iff one of the mutexes it
    acquired had been killed with no acquire of it since that was not rolled back. -/
theorem mutex_ledger {K : Finset Nat} {s₀ s : Sys T} {h : List (Label T)}
    (hidle : ∀ t, (s₀.threads t).pc = .idle) (hused : ∀ i ∈ K, (s₀.region.slots i).state = .used)
    (hfresh : ∀ i ∈ K, (s₀.region.slots i).objType = .mutex → FreshMutex (s₀.region.slots i).w0)
    (hr : Run Sys.step (InTurn K) s₀ h s) :
    (∀ i ∈ K, (s₀.region.slots i).objType = .mutex →
      let ledger := holds i (wordHolds (s₀.region.slots i).w0) h
      let w := (s.region.slots i).w0
      (∀ o o', ledger o ≠ 0 → ledger o' ≠ 0 → o = o') ∧
      (∀ o, ledger o ≠ 0 → lo32 w = o ∧ ((mutexCount w).toNat : Int) = ledger o) ∧
      ((∀ o, ledger o = 0) → lo32 w = 0 ∧ mutexCount w = 0) ∧
      ∀ t hd x v, handleIndex hd = i →
        (s.threads t).pc = .done (.op hd (.mutexUnlock x)) (.op (.ok v)) →
        ∃ n, v = .num n ∧ UnlockedAt i (wordHolds (s₀.region.slots i).w0) h t hd x n) ∧
    ∀ t args timeout idx od,
      (s.threads t).pc = .done (.wait args timeout) (.wait (.signaled idx od)) →
      (∀ k < args.handles.length, args.slotOf k ∈ K) →
      (od = true ↔ ∃ k < args.handles.length,
        (s₀.region.slots (args.slotOf k)).objType = .mutex ∧
        ∃ h₁, acquiredAt t (args.slotOf k) h = some h₁ ∧ Abandoned (args.slotOf k) h₁) := by
  have hidle' : s₀.Idle := fun t => by rw [hidle t]; rfl
  have hinv : LedgersInv K (fun i => (s₀.region.slots i).generation)
      (fun i => (s₀.region.slots i).objType) (fun i => wordHolds (s₀.region.slots i).w0) h s := by
    refine hr.invariant (I := LedgersInv K _ _ _) ?_ ?_
    · refine ⟨fun i hK => OpenInv.of_idle hidle' (hused i hK), ShapeInv.of_idle hidle',
        NamesInv.of_idle hidle', fun i hK hm => ?_, fun i _ _ => UnlockInv.of_idle hidle,
        fun i _ _ => RecordInv.of_idle hidle', fun i _ _ => PlainInv.of_idle hidle',
        ReportInv.of_idle hidle⟩
      obtain ⟨owner, count, hw, hoc, hle⟩ := hfresh i hK hm
      exact LedgerInv.of_start hidle' (hused i hK) hm hw hoc hle
    · rintro h s a s' l hi hs ⟨hst, hone⟩
      exact hi.step hs hst hone
  refine ⟨fun i hK hm => ?_, fun t args timeout idx od hpc hall => ?_⟩
  -- the word's owner is the only one with holds, and it has as many as the word counts
  · have hl := hinv.ledger i hK hm
    have hone : ∀ o, holds i (wordHolds (s₀.region.slots i).w0) h o ≠ 0 →
        lo32 (s.region.slots i).w0 = o ∧ ((mutexCount (s.region.slots i).w0).toNat : Int) =
          holds i (wordHolds (s₀.region.slots i).w0) h o := by
      intro o ho
      have heq := hl.holds_eq o
      rw [heq] at ho ⊢
      unfold wordHolds at ho ⊢
      split at ho
      · rename_i hlo
        exact ⟨hlo, by rw [if_pos hlo]⟩
      · exact absurd rfl ho
    refine ⟨fun o o' ho ho' => (hone o ho).1.symm.trans (hone o' ho').1, hone, fun hz => ?_, ?_⟩
    -- nobody holds it, not even the owner in the word
    · have hz' := (hl.holds_eq (lo32 (s.region.slots i).w0)).symm.trans (hz _)
      rw [wordHolds, if_pos rfl] at hz'
      have hc : (mutexCount (s.region.slots i).w0).toNat = 0 := by omega
      exact ⟨hl.base.word.1.mpr hc, BitVec.eq_of_toNat_eq hc⟩
    · intro t hd x v hidx hpc
      exact hinv.unlocks i hK hm t hd x v (by rw [hpc]; rfl) hidx
  · exact hinv.report t args idx od (by rw [hpc]; rfl) (by rw [hpc]; rfl) hall

end Acquired

/-- A kill by thread 1, then thread 0 acquires the mutex as another owner. -/
def killThenTake : List (Action (Fin 2)) :=
  killPlain ++ .call 0 (.wait { handles := [1], owner := 6, all := false, alert := 0 } .zero) ::
    List.replicate 6 (.tick 0 {})

/-- The thread's wait on handle 1 reports success and a dead owner. -/
def Pc.tookDead : Pc → Bool
  | .done (.wait a _) (.wait (.signaled _ true)) => decide (a.handles = [1])
  | _ => false

/-- A wait takes a mutex that was abandoned and reports it. -/
theorem mutex_ledger_mutexDemo :
    ∃ h s, Run Sys.step (InTurn {1}) (mutexDemo 5 1) h s ∧ (s.threads 0).pc.tookDead = true ∧
      ∃ h₁, acquiredAt 0 1 h = some h₁ ∧ Abandoned 1 h₁ := by
  obtain ⟨h, s, hr, hdead⟩ := exists_run_of_exec Sys.step (InTurn {1})
    (mutexDemo 5 1) (P := fun s => (s.threads 0).pc.tookDead = true) killThenTake
    (by decide +kernel)
  refine ⟨h, s, hr, hdead, ?_⟩
  have hfresh : ∀ i ∈ ({1} : Finset Nat), ((mutexDemo 5 1).region.slots i).objType = .mutex →
      FreshMutex ((mutexDemo 5 1).region.slots i).w0 := by
    intro i hi _
    rw [Finset.mem_singleton] at hi
    subst hi
    exact ⟨5, 1, by decide, by decide, by decide⟩
  have hreport := (mutex_ledger (K := {1}) (fun _ => rfl) (by decide) hfresh hr).2
  match hpc : (s.threads 0).pc with
  | .done (.wait a timeout) (.wait (.signaled idx true)) =>
    rw [hpc] at hdead
    have ha : a.handles = [1] := of_decide_eq_true hdead
    have hslot : ∀ k < a.handles.length, a.slotOf k = 1 := by
      intro k hk
      rw [ha] at hk
      have hk0 : k = 0 := by simpa using hk
      rw [WaitArgs.slotOf, WaitArgs.handle, ha, hk0]
      decide
    obtain ⟨k, hk, _, h₁, hat, hab⟩ := (hreport 0 a timeout idx true hpc
      (fun k hk => by rw [hslot k hk]; decide)).mp rfl
    rw [hslot k hk] at hat hab
    exact ⟨h₁, hat, hab⟩
  | .done (.wait _ _) (.wait (.signaled _ false)) => rw [hpc] at hdead; cases hdead
  | .done (.wait _ _) (.wait .timeout) | .done (.wait _ _) (.wait .invalid) =>
    rw [hpc] at hdead; cases hdead
  | .done (.wait _ _) (.op _) | .done (.wait _ _) (.handle _) | .done (.wait _ _) (.bool _)
  | .done (.wait _ _) (.unit _) | .done (.wait _ _) (.num _) => rw [hpc] at hdead; cases hdead
  | .done (.op _ _) _ | .done (.pulse _) _ | .done (.create _) _ | .done (.close _) _
  | .done (.hold _ _) _ | .done .sweepDead _ => rw [hpc] at hdead; cases hdead
  | .idle | .panicked | .op _ _ _ | .pulse _ _ | .wait _ _ | .create _ _ | .close _ _
  | .hold _ _ _ | .sweepDead _ => rw [hpc] at hdead; cases hdead

end Ntsync
