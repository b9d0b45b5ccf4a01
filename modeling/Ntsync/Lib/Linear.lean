import Mathlib

namespace Linear

/-!
# Lib — linearizability from linearization points

A client of a concurrent object sees calls begin and return (`Ev`, newest first in a history).  The
history is linearizable when one sequential order of the calls explains it (`Linearizes`): the order
respects real time, and replaying the object's sequential specification along it gives every
returned value and the final state.

* `Marked` — the bookkeeping of a proof by linearization points: between its begin and its return
  every call has one point, at which the specification's step is taken;
* `Marked.linearizes` — the order of the points is a linearization;
* `Books` — the same for calls by threads, a call being named by its thread and the moment it began;
  one rule for each thing that can happen, so that a proof only says which one it was.
-/

variable {ι ω ρ κ : Type*}

/-- What a client sees. -/
inductive Ev (ι ω ρ : Type*) where
  | call (id : ι) (op : ω)
  | ret (id : ι) (r : ρ)
  deriving DecidableEq

/-- A call in a sequential order, with its result. -/
structure Entry (ι ω ρ : Type*) where
  id : ι
  op : ω
  ret : ρ
  deriving DecidableEq

/-- Running the specification along a sequential order, if the results are the specified ones. -/
def replay [DecidableEq ρ] (spec : κ → ω → κ × ρ) : κ → List (Entry ι ω ρ) → Option κ
  | k, [] => some k
  | k, e :: es => if (spec k e.op).2 = e.ret then replay spec (spec k e.op).1 es else none

/-- A longer history is replayed from where the shorter one ends. -/
theorem replay_append [DecidableEq ρ] {spec : κ → ω → κ × ρ} {k k' : κ}
    {es : List (Entry ι ω ρ)} (h : replay spec k es = some k') (es' : List (Entry ι ω ρ)) :
    replay spec k (es ++ es') = replay spec k' es' := by
  induction es generalizing k with
  | nil =>
    cases h
    rfl
  | cons e es ih =>
    simp only [List.cons_append, replay] at h ⊢
    split at h
    · rename_i hret
      rw [if_pos hret]
      exact ih h
    · cases h

/-- Call `a` returned before call `b` began. -/
def Precedes (h : List (Ev ι ω ρ)) (a b : ι) : Prop :=
  ∃ r op h₁ h₂ h₃, h = h₁ ++ .call b op :: (h₂ ++ .ret a r :: h₃)

/-- The sequential order `lin` explains the history `h`, from state `k₀` to state `k`. -/
structure Linearizes [DecidableEq ρ] (spec : κ → ω → κ × ρ) (k₀ k : κ) (h : List (Ev ι ω ρ))
    (lin : List (Entry ι ω ρ)) : Prop where
  nodup : (lin.map Entry.id).Nodup
  called : ∀ e ∈ lin, .call e.id e.op ∈ h
  returned : ∀ id r, .ret id r ∈ h → ∃ op, ⟨id, op, r⟩ ∈ lin
  order : ∀ x ∈ lin, ∀ y ∈ lin, Precedes h x.id y.id → [x, y].Sublist lin
  replays : replay spec k₀ lin = some k

/-- Two calls have two orders. -/
theorem Linearizes.eq_pair [DecidableEq ρ] {spec : κ → ω → κ × ρ} {k₀ k : κ}
    {h : List (Ev ι ω ρ)} {lin : List (Entry ι ω ρ)} {x y : Entry ι ω ρ}
    (hl : Linearizes spec k₀ k h lin) (hx : x ∈ lin) (hy : y ∈ lin) (hxy : x ≠ y)
    (hall : ∀ e ∈ lin, e = x ∨ e = y) : lin = [x, y] ∨ lin = [y, x] := by
  have hnd : lin.Nodup := hl.nodup.of_map
  have hpair : [x, y].Nodup := by simpa using hxy
  have hperm : lin.Perm [x, y] := by
    refine (List.perm_ext_iff_of_nodup hnd hpair).mpr fun e => ?_
    constructor
    · intro he
      simpa using hall e he
    · intro he
      rcases List.mem_pair.mp he with rfl | rfl
      · exact hx
      · exact hy
  obtain ⟨a, b, rfl⟩ := List.length_eq_two.mp hperm.length_eq
  rcases hall a (by simp) with rfl | rfl <;> rcases hall b (by simp) with rfl | rfl
  · simp at hnd
  · exact .inl rfl
  · exact .inr rfl
  · simp at hnd

/-! ### Linearization points -/

/-- A history with its linearization points. -/
inductive Mark (ι ω ρ : Type*) where
  | call (id : ι) (op : ω)
  | point (id : ι) (op : ω) (r : ρ)
  | ret (id : ι) (r : ρ)

namespace Mark

def id : Mark ι ω ρ → ι
  | .call i _ | .point i _ _ | .ret i _ => i

/-- What a client sees of a mark. -/
def ev? : Mark ι ω ρ → Option (Ev ι ω ρ)
  | .call i op => some (.call i op)
  | .ret i r => some (.ret i r)
  | .point _ _ _ => none

def entry? : Mark ι ω ρ → Option (Entry ι ω ρ)
  | .point i op r => some ⟨i, op, r⟩
  | _ => none

end Mark

/-- The calls in the order of their points, the oldest first. -/
def points (m : List (Mark ι ω ρ)) : List (Entry ι ω ρ) := (m.filterMap Mark.entry?).reverse

/-- A call begins once, has at most one point after it began, and returns after its point with the
    result it had there. -/
inductive Marked : List (Mark ι ω ρ) → Prop
  | nil : Marked []
  | call {m : List (Mark ι ω ρ)} {i : ι} {op : ω} :
      Marked m → (∀ x ∈ m, x.id ≠ i) → Marked (.call i op :: m)
  | point {m : List (Mark ι ω ρ)} {i : ι} {op : ω} {r : ρ} :
      Marked m → .call i op ∈ m → (∀ op' r', .point i op' r' ∉ m) → Marked (.point i op r :: m)
  | ret {m : List (Mark ι ω ρ)} {i : ι} {op : ω} {r : ρ} :
      Marked m → .point i op r ∈ m → Marked (.ret i r :: m)

/-- The points are the entries of the order. -/
theorem mem_points {m : List (Mark ι ω ρ)} {e : Entry ι ω ρ} :
    e ∈ points m ↔ .point e.id e.op e.ret ∈ m := by
  simp only [points, List.mem_reverse, List.mem_filterMap]
  constructor
  · rintro ⟨x, hx, he⟩
    cases x with
    | point i op r =>
      cases he
      exact hx
    | call | ret => cases he
  · intro h
    exact ⟨_, h, rfl⟩

/-- The points of a longer record. -/
theorem points_append (m₁ m₂ : List (Mark ι ω ρ)) :
    points (m₁ ++ m₂) = points m₂ ++ points m₁ := by
  simp [points]

@[simp] theorem points_call (m : List (Mark ι ω ρ)) (i : ι) (op : ω) :
    points (.call i op :: m) = points m := rfl

@[simp] theorem points_ret (m : List (Mark ι ω ρ)) (i : ι) (r : ρ) :
    points (.ret i r :: m) = points m := rfl

/-- One more point is the last entry. -/
theorem points_point (m : List (Mark ι ω ρ)) (i : ι) (op : ω) (r : ρ) :
    points (.point i op r :: m) = points m ++ [⟨i, op, r⟩] := by
  simp [points, Mark.entry?]

namespace Marked

variable {m m₁ m₂ : List (Mark ι ω ρ)}

/-- Earlier histories are marked too. -/
theorem of_append (h : Marked (m₁ ++ m₂)) : Marked m₂ := by
  induction m₁ with
  | nil => exact h
  | cons x m₁ ih =>
    cases h with
    | call h | point h | ret h => exact ih h

/-- Each call has one point. -/
theorem nodup (h : Marked m) : ((points m).map Entry.id).Nodup := by
  induction h with
  | nil => exact List.nodup_nil
  | call _ _ ih | ret _ _ ih => exact ih
  | @point m i op r _ _ hnew ih =>
    rw [points_point, List.map_append, List.nodup_append]
    refine ⟨ih, List.nodup_singleton _, ?_⟩
    rintro a ha b hb rfl
    obtain ⟨e, he, rfl⟩ := List.mem_map.mp ha
    rw [List.map_singleton, List.mem_singleton] at hb
    have hm := mem_points.mp he
    rw [hb] at hm
    exact hnew _ _ hm

/-- Each point belongs to a call. -/
theorem call_of_point (h : Marked m) {i : ι} {op : ω} {r : ρ} (hp : .point i op r ∈ m) :
    .call i op ∈ m := by
  induction h with
  | nil => cases hp
  | @call m j op' _ _ ih | @ret m j op' r' _ _ ih =>
    rcases List.mem_cons.mp hp with he | hp
    · cases he
    · exact List.mem_cons_of_mem _ (ih hp)
  | @point m j op' r' _ hcall _ ih =>
    rcases List.mem_cons.mp hp with he | hp
    · cases he
      exact List.mem_cons_of_mem _ hcall
    · exact List.mem_cons_of_mem _ (ih hp)

/-- Each return has a point. -/
theorem point_of_ret (h : Marked m) {i : ι} {r : ρ} (hr : .ret i r ∈ m) :
    ∃ op, .point i op r ∈ m := by
  induction h with
  | nil => cases hr
  | @call m j op' _ _ ih | @point m j op' r' _ _ _ ih =>
    rcases List.mem_cons.mp hr with he | hr
    · cases he
    · obtain ⟨op, hp⟩ := ih hr
      exact ⟨op, List.mem_cons_of_mem _ hp⟩
  | @ret m j op' r' _ hp ih =>
    rcases List.mem_cons.mp hr with he | hr
    · cases he
      exact ⟨op', List.mem_cons_of_mem _ hp⟩
    · obtain ⟨op, hp'⟩ := ih hr
      exact ⟨op, List.mem_cons_of_mem _ hp'⟩

/-- A call that returned before another one began has the earlier point. -/
theorem order (h : Marked m) {x y : Entry ι ω ρ} (hx : x ∈ points m) (hy : y ∈ points m)
    (hpre : Precedes (m.filterMap Mark.ev?) x.id y.id) : [x, y].Sublist (points m) := by
  obtain ⟨r, op, h₁, h₂, h₃, he⟩ := hpre
  -- the marks behind the two events
  obtain ⟨m₁, m₂, rfl, _, he₂⟩ := List.filterMap_eq_append_iff.mp he
  obtain ⟨l₁, b, m₃, rfl, _, hb, he₃⟩ := List.filterMap_eq_cons_iff.mp he₂
  obtain ⟨m₄, m₅, rfl, _, he₅⟩ := List.filterMap_eq_append_iff.mp he₃
  obtain ⟨l₂, c, m₆, rfl, _, hc, _⟩ := List.filterMap_eq_cons_iff.mp he₅
  obtain rfl : b = .call y.id op := by
    cases b <;> cases hb
    rfl
  obtain rfl : c = .ret x.id r := by
    cases c <;> cases hc
    rfl
  rw [← List.append_assoc] at h hx hy ⊢
  set late := m₁ ++ l₁
  set early := m₄ ++ (l₂ ++ .ret x.id r :: m₆) with hearly
  have hcall : Marked (.call y.id op :: early) := h.of_append
  have hsplit : points (late ++ .call y.id op :: early) = points early ++ points late := by
    rw [points_append, points_call]
  rw [hsplit] at hx hy ⊢
  cases hcall with
  | call hm hfresh =>
    have hxe : x ∈ points early := by
      obtain ⟨op', hp⟩ := hm.point_of_ret (i := x.id) (r := r) (by simp [hearly])
      have hmem : (⟨x.id, op', r⟩ : Entry ι ω ρ) ∈ points early := mem_points.mpr hp
      have hnd := h.nodup
      rw [hsplit] at hnd
      have hxx := List.inj_on_of_nodup_map hnd hx (List.mem_append_left _ hmem) rfl
      rw [hxx]
      exact hmem
    have hyl : y ∈ points late := by
      rcases List.mem_append.mp hy with hye | hyl
      · exact absurd rfl (hfresh _ (mem_points.mp hye))
      · exact hyl
    exact (List.singleton_sublist.mpr hxe).append (List.singleton_sublist.mpr hyl)

/-- **The points linearize the history.** -/
theorem linearizes [DecidableEq ρ] {spec : κ → ω → κ × ρ} {k₀ k : κ} (h : Marked m)
    (hr : replay spec k₀ (points m) = some k) :
    Linearizes spec k₀ k (m.filterMap Mark.ev?) (points m) where
  nodup := h.nodup
  called e he := List.mem_filterMap.mpr ⟨_, h.call_of_point (mem_points.mp he), rfl⟩
  returned i r hret := by
    obtain ⟨x, hx, he⟩ := List.mem_filterMap.mp hret
    cases x with
    | ret j r' =>
      cases he
      obtain ⟨op, hp⟩ := h.point_of_ret hx
      exact ⟨op, mem_points.mpr hp⟩
    | call | point => cases he
  order x hx y hy hpre := h.order hx hy hpre
  replays := hr

end Marked

/-! ### Keeping the books -/

section Books

variable {θ : Type*} [DecidableEq ρ]

/-- The books of a system of threads at time `n`: `o t` is the call that thread `t` is in, as the
    moment it began, its operation, and its result if that is decided.  The specification has got
    to `k`. -/
structure Books (spec : κ → ω → κ × ρ) (k₀ k : κ) (n : Nat) (o : θ → Option (Nat × ω × Option ρ))
    (m : List (Mark (θ × Nat) ω ρ)) : Prop where
  replays : replay spec k₀ (points m) = some k
  marked : Marked m
  times : ∀ x ∈ m, x.id.2 < n
  pending : ∀ t c op, o t = some (c, op, none) →
    .call (t, c) op ∈ m ∧ ∀ op' r, .point (t, c) op' r ∉ m
  decided : ∀ t c op r, o t = some (c, op, some r) → .point (t, c) op r ∈ m

namespace Books

variable {spec : κ → ω → κ × ρ} {k₀ k k' : κ} {n n' : Nat} {o o' : θ → Option (Nat × ω × Option ρ)}
  {m : List (Mark (θ × Nat) ω ρ)} {t : θ} {c : Nat} {op : ω} {r : ρ}

/-- With no call open the books are empty. -/
theorem start (hnone : ∀ t, o t = none) : Books spec k₀ k₀ n o [] where
  replays := rfl
  marked := .nil
  times x hx := by cases hx
  pending t c op h := by
    rw [hnone t] at h
    cases h
  decided t c op r h := by
    rw [hnone t] at h
    cases h

/-- Time passes, and calls may be forgotten. -/
theorem later (hb : Books spec k₀ k n o m) (hn : n ≤ n') (ho : ∀ t x, o' t = some x → o t = some x) :
    Books spec k₀ k n' o' m where
  replays := hb.replays
  marked := hb.marked
  times x hx := (hb.times x hx).trans_le hn
  pending t c op h := hb.pending t c op (ho t _ h)
  decided t c op r h := hb.decided t c op r (ho t _ h)

/-- No name of the present moment has been used. -/
theorem fresh (hb : Books spec k₀ k n o m) {x : Mark (θ × Nat) ω ρ} (hx : x ∈ m) :
    x.id ≠ (t, n) := by
  intro he
  have hlt := hb.times x hx
  rw [he] at hlt
  exact Nat.lt_irrefl _ hlt

/-- A call begins. -/
theorem call (hb : Books spec k₀ k n o m) (ht : o' t = some (n, op, none))
    (hu : ∀ u, u ≠ t → o' u = o u) : Books spec k₀ k (n + 1) o' (.call (t, n) op :: m) where
  replays := hb.replays
  marked := hb.marked.call fun x hx => hb.fresh hx
  times x hx := by
    rcases List.mem_cons.mp hx with rfl | hx
    · exact Nat.lt_succ_self n
    · exact Nat.lt_succ_of_lt (hb.times x hx)
  pending u c' op' h := by
    by_cases hut : u = t
    · rw [hut, ht] at h
      cases h
      rw [hut]
      refine ⟨List.mem_cons_self .., fun op'' r' hmem => ?_⟩
      rcases List.mem_cons.mp hmem with he | hmem
      · cases he
      · exact hb.fresh hmem rfl
    · rw [hu u hut] at h
      obtain ⟨hcall, hno⟩ := hb.pending u c' op' h
      refine ⟨List.mem_cons_of_mem _ hcall, fun op'' r' hmem => ?_⟩
      rcases List.mem_cons.mp hmem with he | hmem
      · cases he
      · exact hno op'' r' hmem
  decided u c' op' r' h := by
    by_cases hut : u = t
    · rw [hut, ht] at h
      cases h
    · rw [hu u hut] at h
      exact List.mem_cons_of_mem _ (hb.decided u c' op' r' h)

/-- A call takes effect: the specification takes its step, which decides the result. -/
theorem point (hb : Books spec k₀ k n o m) (ho : o t = some (c, op, none))
    (hs : spec k op = (k', r)) (ht : ∀ x, o' t = some x → x = (c, op, some r))
    (hu : ∀ u, u ≠ t → o' u = o u) : Books spec k₀ k' n o' (.point (t, c) op r :: m) where
  replays := by
    rw [points_point, replay_append hb.replays]
    simp [replay, hs]
  marked := hb.marked.point (hb.pending t c op ho).1 (hb.pending t c op ho).2
  times x hx := by
    rcases List.mem_cons.mp hx with rfl | hx
    · exact hb.times (.call (t, c) op) (hb.pending t c op ho).1
    · exact hb.times x hx
  pending u c' op' h := by
    by_cases hut : u = t
    · cases ht _ (hut ▸ h)
    · rw [hu u hut] at h
      obtain ⟨hcall, hno⟩ := hb.pending u c' op' h
      refine ⟨List.mem_cons_of_mem _ hcall, fun op'' r' hmem => ?_⟩
      rcases List.mem_cons.mp hmem with he | hmem
      · cases he
        exact hut rfl
      · exact hno op'' r' hmem
  decided u c' op' r' h := by
    by_cases hut : u = t
    · cases ht _ (hut ▸ h)
      rw [hut]
      exact List.mem_cons_self ..
    · rw [hu u hut] at h
      exact List.mem_cons_of_mem _ (hb.decided u c' op' r' h)

/-- A call that has taken effect returns. -/
theorem ret (hb : Books spec k₀ k n o m) (hp : .point (t, c) op r ∈ m)
    (ho : ∀ u x, o' u = some x → o u = some x) : Books spec k₀ k n o' (.ret (t, c) r :: m) where
  replays := hb.replays
  marked := hb.marked.ret hp
  times x hx := by
    rcases List.mem_cons.mp hx with rfl | hx
    · exact hb.times (.point (t, c) op r) hp
    · exact hb.times x hx
  pending u c' op' h := by
    obtain ⟨hcall, hno⟩ := hb.pending u c' op' (ho u _ h)
    refine ⟨List.mem_cons_of_mem _ hcall, fun op'' r' hmem => ?_⟩
    rcases List.mem_cons.mp hmem with he | hmem
    · cases he
    · exact hno op'' r' hmem
  decided u c' op' r' h := List.mem_cons_of_mem _ (hb.decided u c' op' r' (ho u _ h))

/-- An operation that begins, takes effect and returns in one step, by a thread that is in no other
    call. -/
theorem once [DecidableEq θ] (hb : Books spec k₀ k n o m) (ho : o t = none)
    (hs : spec k op = (k', r)) (hu : ∀ u x, o' u = some x → o u = some x) :
    Books spec k₀ k' (n + 1) o'
      (.ret (t, n) r :: .point (t, n) op r :: .call (t, n) op :: m) := by
  have hcall : Books spec k₀ k (n + 1) (Function.update o t (some (n, op, none)))
      (.call (t, n) op :: m) :=
    hb.call (Function.update_self ..) fun u hut => Function.update_of_ne hut ..
  have hpoint : Books spec k₀ k' (n + 1) o (.point (t, n) op r :: .call (t, n) op :: m) := by
    refine hcall.point (Function.update_self ..) hs (fun x hx => ?_)
      fun u hut => (Function.update_of_ne hut ..).symm
    rw [ho] at hx
    cases hx
  exact hpoint.ret (List.mem_cons_self ..) hu

/-- **The books are a linearization.** -/
theorem linearizes (hb : Books spec k₀ k n o m) :
    Linearizes spec k₀ k (m.filterMap Mark.ev?) (points m) :=
  hb.marked.linearizes hb.replays

end Books

end Books

end Linear
