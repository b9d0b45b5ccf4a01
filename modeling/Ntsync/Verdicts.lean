import Mathlib
import Ntsync.Scan

namespace Ntsync

open Words

/-!
# The pid cache is transparent

One `PidCache` serves all chunks of a sweep.  It has 32 entries, which are overwritten round-robin,
and 0 marks an empty one.

* `PidCache.lookups` — lookups in a row; `Exact.lookups`: with a fixed liveness the answers are the
  kernel's; `Sound.lookups`: while processes die, an answer "dead" is right when it is given;
* `Probing` — a sweep, with anything happening to the region between its steps, and the dead pids
  changing as allowed; `SweepGo.exact`: what it has judged is what `cand_alive` should say;
* `pid_cache_transparent` — both, for lookups and for sweeps.
-/

/-- Nobody comes back to life. -/
def OnlyDie (dead dead' : U32 → Bool) : Prop := ∀ p, dead p = true → dead' p = true

/-- Lookups in a row, each at a moment with its own dead pids. -/
def PidCache.lookups (c : PidCache) : List ((U32 → Bool) × U32) → List Bool
  | [] => []
  | (dead, p) :: l => (c.probe dead p).1 :: (c.probe dead p).2.lookups l

/-- Who is not alive is nobody or dead. -/
theorem pidAlive_eq_false {dead : U32 → Bool} {p : U32} :
    pidAlive dead p = false ↔ p = 0 ∨ dead p = true := by
  unfold pidAlive
  by_cases h : p = 0
  · simp [h]
  · rw [decide_eq_true h, Bool.true_and, or_iff_right h]
    cases dead p <;> simp

/-- **With a fixed liveness every answer is the kernel's.** -/
theorem PidCache.Exact.lookups {dead : U32 → Bool} {c : PidCache} (h : c.Exact dead) (l : List U32) :
    c.lookups (l.map (dead, ·)) = l.map (pidAlive dead) := by
  induction l generalizing c with
  | nil => rfl
  | cons p l ih =>
    obtain ⟨hverdict, hcache⟩ := h.probe p
    rw [List.map_cons, List.map_cons, ← ih hcache, ← hverdict]
    rfl

/-- **While processes die, an answer "dead" is right.** -/
theorem PidCache.Sound.lookups {dead : U32 → Bool} {c : PidCache} {l : List ((U32 → Bool) × U32)}
    (h : c.Sound dead) (hl : (dead :: l.map Prod.fst).Pairwise OnlyDie) :
    ∀ x ∈ l.zip (c.lookups l), x.2 = false → pidAlive x.1.1 x.1.2 = false := by
  induction l generalizing c dead with
  | nil => intro x hx; cases hx
  | cons q l ih =>
    obtain ⟨now, p⟩ := q
    obtain ⟨hfirst, hrest⟩ := List.pairwise_cons.mp hl
    -- what the cache remembers is still right at this lookup
    have hprobe : c.probe now p = ((c.probe now p).1, (c.probe now p).2) := rfl
    obtain ⟨hcache, hverdict⟩ := (h.mono (hfirst now (List.mem_cons_self ..))).probe hprobe
    intro x hx hdead
    rcases List.mem_cons.mp hx with rfl | hx
    · exact pidAlive_eq_false.mpr (hverdict hdead)
    · exact ih hcache hrest x hx hdead

/-! ### Whole sweeps -/

/-- The candidates of the chunk at hand that have their verdict. -/
def SweepPc.judged : SweepPc → List (DeadCand × Bool)
  | .chunk _ | .drop _ _ => []
  | .probe _ judged _ _ _ | .relock _ judged | .reap _ judged | .reapFree _ _ judged
  | .reapGen _ _ judged | .reapWalk _ _ _ judged => judged

/-- A sweep gets to `p`, its latest step with the pids in `dead` dead.  What the others do to the
    region in between is arbitrary; `ok` says how the set of dead pids may change. -/
inductive Probing (T : Type) (auto : Bool) (ok : (U32 → Bool) → (U32 → Bool) → Prop) :
    (U32 → Bool) → SweepPc → Prop
  | start {dead : U32 → Bool} {r : Region} : Probing T auto ok dead (.chunk (.new r))
  | step {dead : U32 → Bool} {p p' : SweepPc} {sh : Shared T} {ins : Instr} :
      Probing T auto ok dead p → ok dead sh.dead → p.step auto sh = some (ins, .more p') →
      Probing T auto ok sh.dead p'

/-- Every verdict so far is that of `cand_alive`, and the candidate at hand is alive iff one of the
    pids still to be probed is. -/
structure SweepPc.Exact (dead : U32 → Bool) (p : SweepPc) : Prop where
  cache : p.st.cache.Exact dead
  judged : ∀ x ∈ p.judged, x.2 = x.1.alive dead
  rest : ∀ st judged c pids rest, p = .probe st judged c pids rest →
    c.alive dead = pids.any (pidAlive dead)

section Exact

variable {T : Type} {auto : Bool} {dead : U32 → Bool} {st : SweepSt}
  {js : List (DeadCand × Bool)}

/-- A sweep with exact verdicts judges exactly. -/
theorem SweepPc.Exact.judge (hc : st.cache.Exact dead) (hj : ∀ x ∈ js, x.2 = x.1.alive dead)
    (rest : List DeadCand) : (SweepPc.judge auto st js rest).Exact dead := by
  cases rest with
  | nil => cases auto <;> exact ⟨hc, hj, fun _ _ _ _ _ h => (by cases h)⟩
  | cons c rest =>
    refine ⟨hc, hj, ?_⟩
    rintro _ _ _ _ _ ⟨⟩
    rfl

/-- One more exact verdict. -/
theorem judged_append {c : DeadCand} {b : Bool} (hj : ∀ x ∈ js, x.2 = x.1.alive dead)
    (hb : b = c.alive dead) : ∀ x ∈ js ++ [(c, b)], x.2 = x.1.alive dead := by
  intro x hx
  rcases List.mem_append.mp hx with hx | hx
  · exact hj x hx
  · rw [List.mem_singleton.mp hx]
    exact hb

/-- **A sweep judges exactly.** -/
theorem SweepGo.exact {sh : Shared T} {p p' : SweepPc} {ins : Instr}
    (hg : SweepGo auto sh p ins (.more p')) (h : p.Exact sh.dead) : p'.Exact sh.dead := by
  obtain ⟨hc, hj, hrest⟩ := h
  cases hg with
  | chunkAuto => exact ⟨hc, fun _ hx => (by cases hx), fun _ _ _ _ _ h => (by cases h)⟩
  | @chunk st scan cands =>
    have hst : ({ st with scan := scan } : SweepSt).cache.Exact sh.dead := hc
    exact .judge hst (List.forall_mem_nil _) _
  | @drop st cands =>
    have hst : st.cache.Exact sh.dead := hc
    exact .judge hst (List.forall_mem_nil _) _
  | probeDead => exact .judge hc (judged_append hj (hrest _ _ _ _ _ rfl).symm) _
  | @probeAlive st judged c p pids rest cache hp =>
    have hst : st.cache.Exact sh.dead := hc
    obtain ⟨hverdict, hcache⟩ := hst.probe p
    rw [show st.cache.probe sh.dead p = (true, cache) from hp] at hverdict hcache
    refine .judge hcache (judged_append hj ?_) _
    rw [hrest _ _ _ _ _ rfl, List.any_cons, ← hverdict]
    rfl
  | @probe st judged c p pids rest cache hp =>
    have hst : st.cache.Exact sh.dead := hc
    obtain ⟨hverdict, hcache⟩ := hst.probe p
    rw [show st.cache.probe sh.dead p = (false, cache) from hp] at hverdict hcache
    refine ⟨hcache, hj, ?_⟩
    rintro _ _ _ _ _ ⟨⟩
    rw [hrest _ _ _ _ _ rfl, List.any_cons, ← hverdict]
    rfl
  | reaped => exact ⟨hc, fun _ hx => (by cases hx), fun _ _ _ _ _ h => (by cases h)⟩
  | skip | reapNode | reapSlot =>
    exact ⟨hc, fun x hx => hj x (List.mem_cons_of_mem _ hx), fun _ _ _ _ _ h => (by cases h)⟩
  | relock | reapFree | reapGen | walk | walked => exact ⟨hc, hj, fun _ _ _ _ _ h => (by cases h)⟩

/-- Probing among the same dead is exact. -/
theorem Probing.exact {p : SweepPc} (h : Probing T auto Eq dead p) : p.Exact dead := by
  induction h with
  | start =>
    exact ⟨PidCache.exact_new _, fun _ hx => (by cases hx), fun _ _ _ _ _ h => (by cases h)⟩
  | step _ hd hs ih =>
    subst hd
    exact SweepGo.exact (SweepPc.step_inv hs) ih

/-- Probing while processes die is sound. -/
theorem Probing.sound {p : SweepPc} (h : Probing T auto OnlyDie dead p) : p.Sound dead := by
  induction h with
  | start => exact PidCache.sound_new _
  | step _ hd hs ih => exact SweepGo.sound (SweepPc.step_inv hs) (ih.mono hd)

/-- The verdicts of a sound sweep are sound. -/
theorem SweepPc.Sound.judged {p : SweepPc} (h : p.Sound dead) : Judged dead p.judged := by
  cases p with
  | chunk | drop => exact fun x hx => (by cases hx)
  | probe => exact h.2.1
  | relock | reap | reapFree | reapGen | reapWalk => exact h.2

end Exact

/-- A tracked holder of the candidate. -/
def DeadCand.tracks (c : DeadCand) (p : U32) : Prop :=
  p ≠ 0 ∧ ∃ k : Fin maxHolders, k.val < (c.holdersLen &&& ~~~holderOverflow).toNat ∧ c.holders k = p

/-- The processes of a candidate: its creator and its holders. -/
theorem DeadCand.mem_pids {c : DeadCand} {p : U32} : p ∈ c.pids ↔ p = c.pid ∨ c.tracks p := by
  refine List.mem_cons.trans (or_congr_right ?_)
  rw [List.mem_filter, decide_eq_true_eq, and_comm]
  refine and_congr_right fun _ => ?_
  rw [List.mem_map]
  refine exists_congr fun k => and_congr_left fun _ => ?_
  -- the first entries of the array are those below its length
  rw [List.mem_take_iff_getElem]
  constructor
  · rintro ⟨j, hj, rfl⟩
    rw [List.length_finRange] at hj
    simp only [List.getElem_finRange, Fin.val_cast]
    omega
  · intro hk
    exact ⟨k.val, by simp only [List.length_finRange]; omega, by simp⟩

/-- **The pid cache is transparent.**  For any pids looked up one after the other, the answers are
    those of `pid_alive` as long as the liveness stays the same, and so each verdict of a sweep is
    whether the creator or some tracked holder is alive.  If processes die meanwhile, a pid is
    called dead only when it is, and a candidate only when its creator and all its holders are. -/
theorem pid_cache_transparent :
    (∀ (dead : U32 → Bool) (l : List U32),
      PidCache.new.lookups (l.map (dead, ·)) = l.map (pidAlive dead)) ∧
    (∀ (T : Type) (auto : Bool) (dead : U32 → Bool) (p : SweepPc), Probing T auto Eq dead p →
      ∀ x ∈ p.judged, x.2 = true ↔ pidAlive dead x.1.pid = true ∨
        ∃ q, x.1.tracks q ∧ pidAlive dead q = true) ∧
    (∀ l : List ((U32 → Bool) × U32), (l.map Prod.fst).Pairwise OnlyDie →
      ∀ x ∈ l.zip (PidCache.new.lookups l), x.2 = false → pidAlive x.1.1 x.1.2 = false) ∧
    ∀ (T : Type) (auto : Bool) (dead : U32 → Bool) (p : SweepPc), Probing T auto OnlyDie dead p →
      ∀ x ∈ p.judged, x.2 = false → pidAlive dead x.1.pid = false ∧
        ∀ q, x.1.tracks q → pidAlive dead q = false := by
  refine ⟨fun dead l => (PidCache.exact_new dead).lookups l, fun T auto dead p hp x hx => ?_,
    fun l hl => ?_, fun T auto dead p hp x hx hdead => ?_⟩
  · rw [hp.exact.judged x hx, DeadCand.alive, List.any_eq_true]
    simp only [DeadCand.mem_pids, or_and_right, exists_or, exists_eq_left]
  · refine (PidCache.sound_new fun _ => false).lookups (List.pairwise_cons.mpr ⟨?_, hl⟩)
    exact fun _ _ p hp => (by cases hp)
  · have hall := (hp.sound.judged x hx).2 hdead
    exact ⟨pidAlive_eq_false.mpr (hall _ (DeadCand.mem_pids.mpr (.inl rfl))),
      fun q hq => pidAlive_eq_false.mpr (hall q (DeadCand.mem_pids.mpr (.inr hq)))⟩

end Ntsync
