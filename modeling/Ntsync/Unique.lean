import Mathlib
import Ntsync.Handles
import Ntsync.Nodes

namespace Ntsync

open Words Lts

/-!
# No handle is handed out twice

Whatever is created, closed and reaped in between, two calls of `create_*` never answer the same
handle, until a slot has been bumped so often that its generation no longer fits the handle.

* `returned` — the handles that the creates of a run have returned;
* `Occupied i` — slot `i` is used and finished, or its freeing is under way: nobody creates an object
  in it before its generation is bumped (`Occupied.step`);
* `handles_unique` — so the generation in every handle that a create returns is new for its slot.
-/

variable {T : Type}

/-! ### Creating and freeing -/

/-- The slot in which the thread's `create_*` makes its object. -/
def Pc.making? : Pc → Option Nat
  | .create _ (.write h _) | .create _ (.unlock (.ok h)) => some (handleIndex h)
  | _ => none

section Moves

variable {o : Oracle} {sh : Shared T} {pid : U32} {ins : Instr} {pc pc' : Pc} {i : Nat}

/-- Slots are made under the lock. -/
theorem Pc.locked_of_making (h : pc.making? = some i) : pc.locked = true := by
  unfold Pc.making? at h
  split at h <;> first | rfl | cases h

/-- A create takes its slot first. -/
theorem PcGo.making (hg : PcGo sh pid o pc ins pc') (h : pc'.making? = some i) :
    pc.making? = some i ∨ ins = .takeSlot i := by
  cases hg with
  | op hg => cases hg <;> cases h
  | pulse hg => cases hg <;> cases h
  | wait hg =>
    unfold Pc.making? at h
    split at h
    · rcases hg.args with ha | ha <;> cases ha
    · rcases hg.args with ha | ha <;> cases ha
    · cases h
  | create hg =>
    cases hg with
    | take hf =>
      obtain ⟨hlt, _⟩ := Region.freeSlot_spec hf
      have hi : some (handleIndex (mkHandle _ _)) = some i := h
      rw [handleIndex_mkHandle _ hlt] at hi
      cases hi
      exact .inr rfl
    | written | write => exact .inl h
    | _ => cases h
  | close hg => cases hg <;> cases h
  | hold hg => cases hg <;> cases h
  | sweepDead hg => cases hg <;> cases h

/-- Whoever has marked a slot free bumps its generation next. -/
theorem PcGo.bump_next (hg : PcGo sh pid o pc ins pc') (hv : pc.overwrites i)
    (hm : pc.making? ≠ some i) : ∃ v, ins = .store i (.generation v) := by
  unfold Pc.overwrites at hv
  split at hv
  · exact absurd (congrArg some hv) hm
  · cases hg with
    | close hg =>
      cases hg
      rw [hv]
      exact ⟨_, rfl⟩
  · obtain ⟨auto, st, judged, hsw⟩ := hv
    obtain ⟨q, hq, _⟩ := hg.sweep hsw
    cases hq
    exact ⟨_, rfl⟩

/-- Slots are overwritten under the lock. -/
theorem Pc.locked_of_overwrites (h : pc.overwrites i) : pc.locked = true := by
  unfold Pc.overwrites at h
  split at h
  · rfl
  · rfl
  · obtain ⟨auto, st, judged, hsw⟩ := h
    exact Pc.locked_of_reapGen hsw

end Moves

/-! ### Occupied slots -/

/-- Slot `i` is in use, or somebody alive is freeing it; and nobody creates an object in it. -/
structure Occupied (i : Nat) (s : Sys T) : Prop where
  free : ∀ t, s.dead (s.threads t).pid = false → (s.threads t).pc.making? ≠ some i
  used : (s.region.slots i).state = .used ∨
    ∃ t, s.dead (s.threads t).pid = false ∧ (s.threads t).pc.overwrites i

section Steps

variable [DecidableEq T] {s s' : Sys T} {a : Action T} {l : Label T} {t : T} {i : Nat}

omit [DecidableEq T] in
/-- An occupied slot is not handed out. -/
theorem Occupied.not_taken (ho : Occupied i s) (hi : TableInv s) {o : Oracle} {pc' : Pc}
    (ha : s.dead (s.threads t).pid = false)
    (hg : PcGo s.toShared (s.threads t).pid o (s.threads t).pc (.takeSlot i) pc') : False := by
  obtain ⟨k, retry, hpc, hf, _⟩ := hg.takeSlot
  rcases ho.used with hu | ⟨v, hva, hv⟩
  · have hfree := (Region.freeSlot_spec hf).2
    rw [hu] at hfree
    cases hfree
  · obtain rfl : v = t := hi.lock.unique (Pc.locked_of_overwrites hv) hva (by rw [hpc]; rfl) ha
    rw [hpc] at hv
    obtain ⟨auto, st, judged, hsw⟩ := hv
    cases hsw

/-- The state of a slot after a step of a live thread: used as before, or being freed. -/
theorem Occupied.used_after (ho : Occupied i s) {o : Oracle} {ins : Instr} {pc' : Pc}
    (hi : TableInv s) (ha : s.dead (s.threads t).pid = false)
    (ht : tick o s.toShared (s.threads t).pid (s.threads t).calls (s.threads t).pc =
      some (ins, pc'))
    (hu : (s.region.slots i).state = .used) :
    ((s.after t ins pc').region.slots i).state = .used ∨ pc'.overwrites i := by
  have hg := tick_inv ht
  obtain ⟨hd, hr⟩ := Instr.apply_slot t (s.threads t).pid s.toShared ins i
  have hr' : (s.after t ins pc').region.slots i =
    { ins.slotAfter i (s.region.slots i) with waiterHead := hd } := hr
  rw [hr']
  show (ins.slotAfter i (s.region.slots i)).state = .used ∨ _
  cases ins with
  | store j w =>
    by_cases hij : i = j
    · subst hij
      simp only [Instr.slotAfter, if_true]
      have hwrites := hi.writes t
      -- create and retain fill slots of their own; close and reap free this one
      rcases hg.store with ⟨k, h, ws, hpc, hih, _⟩ | ⟨h, ws, hpc, _, _⟩ | ⟨h, _, hih, _, rfl⟩ |
        ⟨h, _, _, rfl, _⟩ | ⟨add, h, ws, hpc, _, _⟩ | ⟨auto, st, judged, _, rfl, _⟩
      · exact absurd (by rw [hpc, hih]; rfl) (ho.free t ha)
      · rw [hpc] at hwrites
        exact .inl ((SlotWrite.apply_state (hwrites w List.mem_cons_self) _).trans hu)
      · exact .inr hih.symm
      · exact .inl hu
      · rw [hpc] at hwrites
        exact .inl ((SlotWrite.apply_state (hwrites w List.mem_cons_self) _).trans hu)
      · exact .inl hu
    · exact .inl (by simp only [Instr.slotAfter, if_neg hij]; exact hu)
  | reap j =>
    by_cases hij : i = j
    · subst hij
      obtain ⟨auto, st, c, judged, _, _, _, _, hsw⟩ := hg.reap
      refine .inr ?_
      unfold Pc.overwrites
      split
      · cases hsw
      · cases hsw
      · exact ⟨auto, st, judged, hsw⟩
    · exact .inl (by simp only [Instr.slotAfter, if_neg hij]; exact hu)
  | word h j tag new | storeD j v =>
    simp only [Instr.slotAfter]
    split <;> exact .inl hu
  | _ => exact .inl hu

/-- **A slot stays occupied** until its generation is bumped. -/
theorem Occupied.step (ho : Occupied i s) (hi : TableInv s) (h : s.step a = some (s', l))
    (hd : DiesOutside s l) (hb : l.bumps i = false) : Occupied i s' := by
  cases Sys.step_inv h with
  | @call t c ha hout =>
    refine ⟨fun u hu => ?_, ?_⟩
    · rw [Sys.entered_pid, Sys.entered_dead] at hu
      rw [Sys.entered_pc]
      split
      · intro hm
        have hlk := Pc.locked_of_making hm
        rw [Pc.start_locked] at hlk
        cases hlk
      · exact ho.free u hu
    · refine ho.used.imp id fun hov => ?_
      obtain ⟨v, hva, hv⟩ := hov
      refine ⟨v, by rw [Sys.entered_pid, Sys.entered_dead]; exact hva, ?_⟩
      rw [Sys.entered_pc, if_neg]
      · exact hv
      · rintro rfl
        have hlk := Pc.locked_of_overwrites hv
        rw [Pc.locked_of_outside hout] at hlk
        cases hlk
  | @tick t o ins pc' ha ht =>
    have hg := tick_inv ht
    refine ⟨fun u hu hm => ?_, ?_⟩
    · rw [Sys.after_pid, Sys.after_dead] at hu
      rw [Sys.after_pc] at hm
      split at hm
      · rename_i hut
        rcases hg.making hm with hm' | rfl
        · exact ho.free t ha hm'
        · -- `alloc_slot` passes over it
          exact ho.not_taken hi ha hg
      · exact ho.free u hu hm
    · rcases ho.used with hu | ⟨v, hva, hv⟩
      · refine (ho.used_after hi ha ht hu).imp id fun hov =>
          ⟨t, by rw [Sys.after_pid, Sys.after_dead]; exact ha, ?_⟩
        rw [Sys.after_pc, if_pos rfl]
        exact hov
      · refine .inr ⟨v, by rw [Sys.after_pid, Sys.after_dead]; exact hva, ?_⟩
        rw [Sys.after_pc, if_neg]
        · exact hv
        · rintro rfl
          -- its next step is the bump
          obtain ⟨w, rfl⟩ := hg.bump_next hv (ho.free v hva)
          rw [show (Label.instr v (s.threads v).pid (.store i (.generation w))).bumps i = true from
            decide_eq_true rfl] at hb
          cases hb
  | @die pid =>
    refine ⟨fun u hu => ho.free u ?_, ho.used.imp id fun hov => ?_⟩
    · rw [Sys.died_dead, Bool.or_eq_false_iff] at hu
      exact hu.2
    · obtain ⟨v, hva, hv⟩ := hov
      refine ⟨v, ?_, hv⟩
      have hne : (s.threads v).pid ≠ pid := by
        intro he
        have hlk := hd v he
        rw [Pc.locked_of_overwrites hv] at hlk
        cases hlk
      rw [Sys.died_dead, Bool.or_eq_false_iff]
      exact ⟨decide_eq_false hne, hva⟩

end Steps

/-! ### The handles of a run -/

/-- The handle with which a `create_*` returns in this step. -/
def returns (x : Trans (Sys T) (Label T)) : Option U32 :=
  match x.label with
  | .instr t _ _ =>
    match (x.before.threads t).pc with
    | .create _ (.unlock (.ok h)) => some h
    | _ => none
  | _ => none

/-- The handles that creates have returned, newest first. -/
def returned (h : List (Trans (Sys T) (Label T))) : List U32 := h.filterMap returns

/-- The generation in a handle that was returned is one its slot has passed, or has while it is
    occupied. -/
structure Passed (labels : List (Label T)) (s : Sys T) (hd : U32) : Prop where
  le : (handleGen hd).toNat ≤ bumped (handleIndex hd) labels
  lt : (handleGen hd).toNat < bumped (handleIndex hd) labels ∨ Occupied (handleIndex hd) s

/-- What holds of every run, as long as the generations fit the handles. -/
structure UniqueInv (h : List (Trans (Sys T) (Label T))) (s : Sys T) : Prop where
  gens : GenerationInv (h.map Trans.label) s
  unique : (∀ i, bumped i (h.map Trans.label) < 2 ^ 18) →
    (returned h).Nodup ∧ ∀ hd ∈ returned h, Passed (h.map Trans.label) s hd

section Runs

variable [DecidableEq T] {s s' : Sys T} {a : Action T} {l : Label T} {t : T} {i : Nat} {hd : U32}
  {h : List (Trans (Sys T) (Label T))} {labels : List (Label T)}

/-- A handle that was returned stays behind its slot. -/
theorem Passed.step (hp : Passed labels s hd) (hi : TableInv s) (hs : s.step a = some (s', l))
    (hok : DiesOutside s l) : Passed (l :: labels) s' hd := by
  have hle := hp.le
  cases hb : l.bumps (handleIndex hd) with
  | true =>
    have hcount := bumped_cons (handleIndex hd) l labels
    rw [hb, if_pos rfl] at hcount
    exact ⟨by omega, .inl (by omega)⟩
  | false =>
    have hcount := bumped_cons (handleIndex hd) l labels
    rw [hb, if_neg (by decide)] at hcount
    refine ⟨by omega, hp.lt.imp (fun hlt => by omega) fun ho => ho.step hi hs hok hb⟩

omit [DecidableEq T] in
/-- The handle that a create is about to return carries the number of frees of its slot. -/
theorem GenerationInv.fresh (hi : GenerationInv labels s) {k : Create}
    (ha : s.dead (s.threads t).pid = false)
    (hpc : (s.threads t).pc = .create k (.unlock (.ok hd)))
    (hfit : bumped (handleIndex hd) labels < 2 ^ 18) :
    (handleGen hd).toNat = bumped (handleIndex hd) labels ∧
      (s.region.slots (handleIndex hd)).state = .used := by
  obtain ⟨hhd, hkept⟩ := hi.table.kept ha hpc
  refine ⟨?_, hkept.holds.used⟩
  have hbits := handleGen_mkHandle (s.region.slots (handleIndex hd)).generation
    (handleIndex_lt hd)
  rw [← hhd, hi.counts, BitVec.toNat_ofNat] at hbits
  rw [hbits]
  omega

/-- After the return, the slot is occupied. -/
theorem Occupied.of_return (hi : TableInv s) {k : Create} {o : Oracle} {ins : Instr} {pc' : Pc}
    (ha : s.dead (s.threads t).pid = false)
    (hpc : (s.threads t).pc = .create k (.unlock (.ok hd)))
    (ht : tick o s.toShared (s.threads t).pid (s.threads t).calls (s.threads t).pc =
      some (ins, pc'))
    (hu : (s.region.slots (handleIndex hd)).state = .used) :
    Occupied (handleIndex hd) (s.after t ins pc') ∧ ins = .unlock := by
  rw [hpc] at ht
  cases ht
  refine ⟨⟨fun u hua hm => ?_, .inl hu⟩, rfl⟩
  rw [Sys.after_pid, Sys.after_dead] at hua
  rw [Sys.after_pc] at hm
  split at hm
  · cases hm
  · rename_i hne
    exact hne (hi.lock.unique (Pc.locked_of_making hm) hua (by rw [hpc]; rfl) ha)

/-- **Every step keeps the handles apart.** -/
theorem UniqueInv.step {x : Trans (Sys T) (Label T)} (hi : UniqueInv h s)
    (hx : traced Sys.step s a = some (s', x)) (hok : DiesOutside s x.label) :
    UniqueInv (x :: h) s' := by
  obtain ⟨l, hs, rfl⟩ := traced_eq_some.mp hx
  refine ⟨hi.gens.step hs, fun hfit => ?_⟩
  rw [List.map_cons] at hfit
  have hfit₀ : ∀ i, bumped i (h.map Trans.label) < 2 ^ 18 := by
    intro i
    have := hfit i
    rw [bumped_cons] at this
    omega
  obtain ⟨hnd, hold⟩ := hi.unique hfit₀
  have hkeep : ∀ hd ∈ returned h, Passed (l :: h.map Trans.label) s' hd := fun hd hm =>
    (hold hd hm).step hi.gens.table hs hok
  cases hret : returns ⟨s, l, s'⟩ with
  | none =>
    have hsame : returned (⟨s, l, s'⟩ :: h) = returned h := List.filterMap_cons_none hret
    rw [hsame]
    exact ⟨hnd, hkeep⟩
  | some hd =>
    have hcons : returned (⟨s, l, s'⟩ :: h) = hd :: returned h := List.filterMap_cons_some hret
    rw [hcons]
    cases Sys.step_inv hs with
    | call | die => cases hret
    | @tick t o ins pc' ha ht =>
      obtain ⟨k, hpc⟩ : ∃ k, (s.threads t).pc = .create k (.unlock (.ok hd)) := by
        unfold returns at hret
        dsimp only at hret
        split at hret <;> cases hret
        exact ⟨_, by assumption⟩
      obtain ⟨hgen, hu⟩ := hi.gens.fresh ha hpc (hfit₀ _)
      obtain ⟨hocc, rfl⟩ := Occupied.of_return hi.gens.table ha hpc ht hu
      have hcount : bumped (handleIndex hd)
          (.instr t (s.threads t).pid .unlock :: h.map Trans.label) =
          bumped (handleIndex hd) (h.map Trans.label) := bumped_cons _ _ _
      refine ⟨List.nodup_cons.mpr ⟨fun hm => ?_, hnd⟩, fun hd' hm => ?_⟩
      · rcases (hold hd hm).lt with hlt | ho
        · omega
        · exact ho.free t ha (by rw [hpc]; rfl)
      · rcases List.mem_cons.mp hm with rfl | hm
        · exact ⟨Nat.le_of_eq (hgen.trans hcount.symm), .inr hocc⟩
        · exact hkeep hd' hm

/-- **No handle is handed out twice.** In every run in which nobody dies inside a critical section
    and no slot is bumped as often as `2 ^ 18` times: the handles that calls of `create_*` have
    returned are pairwise different, whatever was closed, reaped and created anew in between. -/
theorem handles_unique {pid : T → U32}
    (hr : Run (traced Sys.step) (fun s x _ => DiesOutside s x.label) (Sys.rest Region.init pid) h s)
    (hfit : ∀ i, bumped i (h.map Trans.label) < 2 ^ 18) : (returned h).Nodup := by
  have hzero : ∀ i, (Region.init.slots i).generation = 0 := by
    intro i
    show (if i = 0 then _ else Slot.zero : Slot).generation = 0
    split <;> rfl
  have hinv : UniqueInv h s := by
    refine hr.invariant (I := UniqueInv) ⟨.init (fun _ => rfl) rfl hzero, fun _ => ⟨List.nodup_nil,
      fun hd hm => by cases hm⟩⟩ (fun h s a s' x hi hx hok => ?_)
    obtain ⟨l, hs, rfl⟩ := traced_eq_some.mp hx
    exact hi.step hx hok
  exact (hinv.unique hfit).1

end Runs

/-- A thread creates two events, closing the first one in between. -/
def createTwo : List (Action (Fin 1)) :=
  createEvent ++ thenClose ++ .call 0 (.create (.event false false)) :: List.replicate 18 (.tick 0 {})

/-- Two creates return two handles. -/
theorem handles_unique_createTwo :
    ∃ h s, Run (traced Sys.step) (fun s x _ => DiesOutside s x.label)
      (Sys.rest Region.init fun _ : Fin 1 => 7) h s ∧ returned h = [2, 1] ∧ (returned h).Nodup := by
  obtain ⟨h, s, hr, hret, hlen⟩ := exists_history_of_exec (traced Sys.step)
    (fun s x _ => DiesOutside s x.label) (Sys.rest Region.init fun _ : Fin 1 => 7)
    (P := fun h _ => returned h = [2, 1] ∧ h.length < 2 ^ 18) createTwo (by decide +kernel)
  refine ⟨h, s, hr, hret, handles_unique hr fun i => ?_⟩
  have hle : bumped i (h.map Trans.label) ≤ (h.map Trans.label).length := List.countP_le_length
  rw [List.length_map] at hle
  omega

end Ntsync
