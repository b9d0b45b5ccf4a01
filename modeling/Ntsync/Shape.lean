import Mathlib
import Ntsync.Open

namespace Ntsync

open Words

/-!
# The shape of a running call

Facts about a thread's local state alone, kept by every step whatever the other threads do: the
arguments passed the checks at entry, the positions a wait-all has acquired are the ones below the
position it tries, a rollback gives them back in order.

* `Pc.Shape` — the invariant; `PcGo.shape` its step lemma, `ShapeInv` its form for the system;
* `OpenInv.slot_inj` — a wait never works on one open object at two positions.
-/

variable {T : Type}

/-- The shape of a run of `try_satisfy`. -/
def Sat.Shape (a : WaitArgs) : Sat → Prop
  | .any k _ => k < a.handles.length ∧ a.all = false
  | .all k acquired od _ => k < a.handles.length ∧ a.all = true ∧
    acquired.map Prod.fst = List.range k ∧ od = acquired.any Prod.snd
  | .undo todo _ => a.all = true ∧ (todo.map Prod.fst).Pairwise (· < ·) ∧
    ∀ x ∈ todo, x.1 < a.handles.length

/-- The shape of a call under way. -/
def Pc.Shape : Pc → Prop
  | .op _ o _ => o.valid = true
  | .wait c p => c.toWaitArgs.valid = true ∧ ∀ q, p.sat? = some q → q.Shape c.toWaitArgs
  | _ => True

/-- What `validate_wait_args` accepts. -/
theorem WaitArgs.valid_iff {a : WaitArgs} : a.valid = true ↔
    a.owner ≠ 0 ∧ a.handles ≠ [] ∧ a.handles.length ≤ maxWaitCount ∧ a.handles.Nodup := by
  simp [WaitArgs.valid, and_assoc]

/-- A wait-all has acquired the positions below the one it tries. -/
theorem Sat.Shape.below {a : WaitArgs} {k : Nat} {acquired : List (Nat × Bool)} {od : Bool}
    {q : Acq} (h : (Sat.all k acquired od q).Shape a) {x : Nat × Bool} (hx : x ∈ acquired) :
    x.1 < k := by
  have hx' : x.1 ∈ acquired.map Prod.fst := List.mem_map_of_mem hx
  rwa [h.2.2.1, List.mem_range] at hx'

/-- A rollback gives the acquired positions back in increasing order. -/
theorem Sat.Shape.above {a : WaitArgs} {k : Nat} {b : Bool} {rest : List (Nat × Bool)} {u : Undo}
    (h : (Sat.undo ((k, b) :: rest) u).Shape a) {x : Nat × Bool} (hx : x ∈ rest) : k < x.1 := by
  have hlt := h.2.1
  rw [List.map_cons, List.pairwise_cons] at hlt
  exact hlt.1 x.1 (List.mem_map_of_mem hx)

/-- An attempt starts at the first handle. -/
theorem Sat.shape_start {a : WaitArgs} (h : a.valid = true) : (Sat.start a.all).Shape a := by
  have hne : a.handles ≠ [] := (WaitArgs.valid_iff.mp h).2.1
  have hpos : 0 < a.handles.length := List.length_pos_of_ne_nil hne
  unfold Sat.start
  split
  · rename_i hall
    exact ⟨hpos, hall, rfl, rfl⟩
  · rename_i hall
    exact ⟨hpos, by simpa using hall⟩

/-- An attempt stays in the bounds of the handles. -/
theorem SatStep.shape {r : Region} {a : WaitArgs} {seqs : Nat → U64} {p p' : Sat}
    {w : Option SatWrite} (h : SatStep r a seqs p w (.more p')) (hp : p.Shape a) : p'.Shape a := by
  cases h with
  | anyMore => exact hp
  | anyNext _ hlt => exact ⟨hlt, hp.2⟩
  | allMore => exact hp
  | @allTake k acquired od b q v _ hlt =>
    obtain ⟨_, hall, hmap, hod⟩ := hp
    refine ⟨hlt, hall, ?_, ?_⟩
    · rw [List.map_append, hmap, List.range_succ]
      rfl
    · rw [List.any_append, ← hod]
      simp
  | @allUndo k acquired od q v _ hne =>
    obtain ⟨hk, hall, hmap, _⟩ := hp
    refine ⟨hall, ?_, fun x hx => ?_⟩
    · rw [hmap]
      exact List.pairwise_lt_range
    · have hx' : x.1 ∈ acquired.map Prod.fst := List.mem_map_of_mem hx
      rw [hmap, List.mem_range] at hx'
      omega
  | undoMore => exact hp
  | undoNext _ _ =>
    obtain ⟨hall, hlt, hle⟩ := hp
    rw [List.map_cons, List.pairwise_cons] at hlt
    exact ⟨hall, hlt.2, fun x hx => hle x (List.mem_cons_of_mem _ hx)⟩

section ShapeStep

variable {o : Oracle} {sh : Shared T} {pid : U32} {ins : Instr} {pc pc' : Pc}

/-- A call starts in shape: a wait is checked before its first attempt. -/
theorem Pc.start_shape (c : Call) : (Pc.start c).Shape := by
  cases c with
  | op h o =>
    simp only [Pc.start]
    split
    · assumption
    · trivial
  | wait a timeout =>
    simp only [Pc.start]
    split
    · rename_i hv
      exact ⟨hv, fun q hq => (by cases hq)⟩
    · trivial
  | pulse => trivial
  | create | close | hold =>
    simp only [Pc.start]
    split <;> trivial
  | sweepDead => trivial

/-- A wait that goes on after a step is the same wait. -/
theorem WaitGo.shape {c : WaitCtx} {p : WaitPc} (hg : WaitGo o sh pid c p ins pc')
    (hs : (Pc.wait c p).Shape) : pc'.Shape := by
  obtain ⟨hv, hsat⟩ := hs
  cases hp : p.sat? with
  | some q =>
    obtain ⟨w, out, hst, _, ha, hf⟩ := hg.sat hp
    cases pc' with
    | wait c' p' =>
      have hca : c'.toWaitArgs = c.toWaitArgs := by simpa [Pc.args?] using ha
      refine ⟨by rw [hca]; exact hv, fun q' hq' => ?_⟩
      rcases out with q₁ | (_ | ⟨k, od⟩)
      · have hsome : (Pc.wait c' p').sat? = some (c, q₁) := hf
        simp only [Pc.sat?, hq', Option.map_some, Option.some.injEq, Prod.mk.injEq] at hsome
        obtain ⟨_, rfl⟩ := hsome
        rw [hca]
        exact hst.shape (hsat _ hp)
      · have hnone : (Pc.wait c' p').sat? = none := hf.1
        simp [Pc.sat?, hq'] at hnone
      · have hnone : (Pc.wait c' p').sat? = none := hf.1
        simp [Pc.sat?, hq'] at hnone
    | op => cases ha
    | idle | done | panicked | pulse | create | close | hold | sweepDead => trivial
  | none =>
    have hpl := hg.plain hp
    cases pc' with
    | wait c' p' =>
      have hca : c'.toWaitArgs = c.toWaitArgs := hg.sameArgs rfl
      refine ⟨by rw [hca]; exact hv, fun q' hq' => ?_⟩
      rcases hpl.sat with hnone | ⟨c₁, hsome, _⟩
      · simp [Pc.sat?, hq'] at hnone
      · simp only [Pc.sat?, hq', Option.map_some, Option.some.injEq, Prod.mk.injEq] at hsome
        obtain ⟨_, rfl⟩ := hsome
        rw [hca]
        exact Sat.shape_start hv
    | op => rcases hpl.args with ha | ha <;> cases ha
    | idle | done | panicked | pulse | create | close | hold | sweepDead => trivial

/-- **The shape is kept by every step.** -/
theorem PcGo.shape (hg : PcGo sh pid o pc ins pc') (hs : pc.Shape) : pc'.Shape := by
  cases hg with
  | op hg => cases hg <;> first | exact hs | trivial
  | pulse hg => cases hg <;> trivial
  | wait hg => exact hg.shape hs
  | create hg => cases hg <;> trivial
  | close hg => cases hg <;> trivial
  | hold hg => cases hg <;> trivial
  | sweepDead hg => cases hg <;> trivial

end ShapeStep

/-- Every thread has the shape. -/
def ShapeInv (s : Sys T) : Prop := ∀ t, (s.threads t).pc.Shape

/-- At rest there is nothing to check. -/
theorem ShapeInv.of_idle {s : Sys T} (hidle : s.Idle) : ShapeInv s := by
  intro t
  rcases Pc.outside_cases (hidle t) with hpc | ⟨c, r, hpc⟩ <;> rw [hpc] <;> trivial

/-- **Every step keeps the shape.** -/
theorem ShapeInv.step [DecidableEq T] {s s' : Sys T} {a : Action T} {l : Label T}
    (hi : ShapeInv s) (h : s.step a = some (s', l)) : ShapeInv s' := by
  cases Sys.step_inv h with
  | @call t c ha hout =>
    intro u
    rw [Sys.entered_pc]
    split
    · exact Pc.start_shape c
    · exact hi u
  | @tick t o ins pc' ha ht =>
    intro u
    rw [Sys.after_pc]
    split
    · exact (tick_inv ht).shape (hi t)
    · exact hi u
  | die => exact hi

/-- The wait in a run of `try_satisfy`, with its facts. -/
theorem Pc.sat_wait {pc : Pc} {c : WaitCtx} {p : Sat} (h : pc.sat? = some (c, p)) :
    ∃ q, pc = .wait c q ∧ q.sat? = some p := by
  cases pc with
  | wait c' q =>
    simp only [Pc.sat?, Option.map_eq_some_iff, Prod.mk.injEq] at h
    obtain ⟨p', hq, rfl, rfl⟩ := h
    exact ⟨q, rfl, hq⟩
  | _ => cases h

/-- In `try_satisfy` every handle has been validated. -/
theorem WaitPc.validTo_sat {q : WaitPc} {p : Sat} {n : Nat} (h : q.sat? = some p) :
    q.validTo n = n := by
  unfold WaitPc.sat? at h
  split at h <;> first | rfl | cases h

/-- **One object, one position.** Two positions of a running `try_satisfy` on one open object are
    the same. -/
theorem Pc.Valid.slot_inj {pc : Pc} {c : WaitCtx} {p : Sat} {i j k : Nat} {g : U32} {ty : ObjType}
    (hsat : pc.sat? = some (c, p)) (hv : pc.Valid i g ty) (hs : pc.Shape)
    (hj : j < c.handles.length) (hk : k < c.handles.length) (hji : c.slotOf j = i)
    (hki : c.slotOf k = i) : j = k := by
  obtain ⟨q, rfl, hq⟩ := Pc.sat_wait hsat
  have hnd : c.handles.Nodup := (WaitArgs.valid_iff.mp hs.1).2.2.2
  have hgj : handleGen (c.handle j) = g :=
    hv.handles j (by rw [WaitPc.validTo_sat hq]; exact hj) hji
  have hgk : handleGen (c.handle k) = g :=
    hv.handles k (by rw [WaitPc.validTo_sat hq]; exact hk) hki
  have hh : c.handle j = c.handle k := handle_ext (hji.trans hki.symm) (hgj.trans hgk.symm)
  simp only [WaitArgs.handle, List.getD_eq_getElem _ _ hj, List.getD_eq_getElem _ _ hk] at hh
  exact (List.Nodup.getElem_inj_iff hnd).mp hh

/-! ### What a wait-all holds -/

/-- How often a run of `try_satisfy` holds slot `i` tentatively. -/
def Sat.heldAt (a : WaitArgs) (i : Nat) (p : Sat) : Nat :=
  p.held.countP fun x => decide (a.slotOf x.1 = i)

/-- How often a thread holds slot `i` tentatively. -/
def Pc.heldAt (i : Nat) (pc : Pc) : Nat :=
  match pc.sat? with
  | some (c, p) => p.heldAt c.toWaitArgs i
  | none => 0

/-- A thread in no attempt holds nothing tentatively. -/
theorem Pc.heldAt_of_none {pc : Pc} {i : Nat} (h : pc.sat? = none) : pc.heldAt i = 0 := by
  rw [Pc.heldAt, h]

/-- What a thread holds tentatively is what its attempt holds. -/
theorem Pc.heldAt_of_some {pc : Pc} {i : Nat} {c : WaitCtx} {p : Sat} (h : pc.sat? = some (c, p)) :
    pc.heldAt i = p.heldAt c.toWaitArgs i := by
  rw [Pc.heldAt, h]

/-- An attempt starts with nothing. -/
theorem Sat.heldAt_start (a : WaitArgs) (i : Nat) (all : Bool) :
    (Sat.start all).heldAt a i = 0 := by
  cases all <;> rfl

/-- What a step of `try_satisfy` holds afterwards; a run that returned holds nothing tentatively. -/
def Out.heldAt (a : WaitArgs) (i : Nat) : Out Sat (Option (Nat × Bool)) → Nat
  | .more p => p.heldAt a i
  | .done _ => 0

/-! ### The word after a step -/

section WordAfter

variable {a : WaitArgs} {i k : Nat}

/-- The word of slot `i` after a store of `try_satisfy` to position `k`. -/
theorem wordAfter_sat {x : U64} {v : Option U64} {f : U64 → SatWrite}
    (hf : ∀ u, ∃ tag, (f u).instr a = .word (a.handle k) (a.slotOf k) tag u) :
    (satInstr a (v.map f)).wordAfter i x =
      if a.slotOf k = i then v.getD x else x := by
  cases v with
  | none => simp [satInstr, Instr.wordAfter]
  | some u =>
    obtain ⟨tag, hu⟩ := hf u
    simp only [Option.map_some, satInstr, hu, Instr.wordAfter, Option.getD_some]
    by_cases h : a.slotOf k = i
    · rw [if_pos h.symm, if_pos h]
    · rw [if_neg (fun e => h e.symm), if_neg h]

/-- The word of a slot after an acquire by `try_satisfy`: the new value if the acquire stores one,
    and only on the handle's slot. -/
theorem wordAfter_acquire (x : U64) (v : Option U64) (od : Bool) :
    (satInstr a (v.map (.acquire k od))).wordAfter i x =
      if a.slotOf k = i then v.getD x else x :=
  wordAfter_sat fun _ => ⟨_, rfl⟩

/-- The word of a slot after a rollback, likewise. -/
theorem wordAfter_rollback (x : U64) (v : Option U64) :
    (satInstr a (v.map (.rollback k))).wordAfter i x =
      if a.slotOf k = i then v.getD x else x :=
  wordAfter_sat fun _ => ⟨_, rfl⟩

/-- No other instruction writes the word. -/
theorem Instr.wordAfter_of_ne {ins : Instr} {i : Nat} {w : U64}
    (h : ∀ hd tag new, ins ≠ .word hd i tag new) : ins.wordAfter i w = w := by
  cases ins with
  | word hd j tag new =>
    simp only [Instr.wordAfter]
    split
    · rename_i hij
      subst hij
      exact absurd rfl (h hd tag new)
    · rfl
  | _ => rfl

end WordAfter

end Ntsync
