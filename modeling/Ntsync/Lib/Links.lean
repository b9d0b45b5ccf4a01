import Mathlib

namespace Links

/-!
# Lib — intrusive linked lists in an indexed store

A store of nodes gives every index `n : ι` a `next` and a `prev` link (`Option ι`, `none` being
the end marker).  `Chain nx pv p hd l` says that following `nx` from the list head `hd` visits
exactly the list `l`, and that the `pv` links lead back, the first one to `p`.  `Path` is the
singly linked form, for free lists.

* `Chain.congr` / `Path.congr` — a store that agrees on the members of `l` keeps the list;
* `Chain.pushFront` — linking a fresh node in front of the head;
* `Chain.unlink` — splicing a member out by rewriting its two neighbours;
* `Path.unique` — the head determines the visited list;
* `follow` — the visited list, computed; `Path.follow_eq` under enough fuel.
-/

variable {ι : Type*}

/-- Following `nx` from `hd` visits exactly `l`, with back links `pv`; the first one is `p`. -/
def Chain (nx pv : ι → Option ι) : Option ι → Option ι → List ι → Prop
  | _, hd, [] => hd = none
  | p, hd, n :: l => hd = some n ∧ pv n = p ∧ Chain nx pv (some n) (nx n) l

/-- Following `nx` from `hd` visits exactly `l` (singly linked). -/
def Path (nx : ι → Option ι) : Option ι → List ι → Prop
  | hd, [] => hd = none
  | hd, n :: l => hd = some n ∧ Path nx (nx n) l

variable {nx pv nx' pv' : ι → Option ι}

/-! ### Reading a list -/

/-- The head is the first node. -/
theorem Chain.head {p hd : Option ι} {l : List ι} (h : Chain nx pv p hd l) : hd = l.head? := by
  cases l with
  | nil => exact h
  | cons n l => exact h.1

/-- A store that agrees on the members of the list keeps it. -/
theorem Chain.congr {p hd : Option ι} {l : List ι} (h : Chain nx pv p hd l)
    (hnx : ∀ n ∈ l, nx' n = nx n) (hpv : ∀ n ∈ l, pv' n = pv n) : Chain nx' pv' p hd l := by
  induction l generalizing p hd with
  | nil => exact h
  | cons n l ih =>
    obtain ⟨hh, hp, hc⟩ := h
    refine ⟨hh, (hpv n (by simp)).trans hp, ?_⟩
    rw [hnx n (by simp)]
    exact ih hc (fun m hm => hnx m (by simp [hm])) (fun m hm => hpv m (by simp [hm]))

/-- The links of a member: the neighbours in the list. -/
theorem Chain.next_of_mem {p hd : Option ι} {a b : List ι} {n : ι}
    (h : Chain nx pv p hd (a ++ n :: b)) : nx n = b.head? := by
  induction a generalizing p hd with
  | nil => exact h.2.2.head
  | cons x a ih => exact ih h.2.2

/-- The back link of a node is the node before it. -/
theorem Chain.prev_of_mem {p hd : Option ι} {a b : List ι} {n : ι}
    (h : Chain nx pv p hd (a ++ n :: b)) : pv n = (a.getLast?.or p) := by
  induction a generalizing p hd with
  | nil => simpa using h.2.1
  | cons x a ih =>
    rw [ih h.2.2]
    cases ha : a.getLast? with
    | none =>
      rw [List.getLast?_eq_none_iff] at ha
      simp [ha]
    | some y =>
      have hne : a ≠ [] := by rintro rfl; simp at ha
      simp [List.getLast?_cons, ha]

/-- The head is the first node. -/
theorem Path.head {hd : Option ι} {l : List ι} (h : Path nx hd l) : hd = l.head? := by
  cases l with
  | nil => exact h
  | cons n l => exact h.1

/-- A store that agrees on the links of `l` keeps the list. -/
theorem Path.congr {hd : Option ι} {l : List ι} (h : Path nx hd l)
    (hnx : ∀ n ∈ l, nx' n = nx n) : Path nx' hd l := by
  induction l generalizing hd with
  | nil => exact h
  | cons n l ih =>
    refine ⟨h.1, ?_⟩
    rw [hnx n (by simp)]
    exact ih h.2 (fun m hm => hnx m (by simp [hm]))

/-- The head determines the visited list. -/
theorem Path.unique {hd : Option ι} {l l' : List ι} (h : Path nx hd l) (h' : Path nx hd l') :
    l = l' := by
  induction l generalizing hd l' with
  | nil =>
    cases l' with
    | nil => rfl
    | cons n l' => exact absurd (h.symm.trans h'.1) (by simp)
  | cons n l ih =>
    cases l' with
    | nil => exact absurd (h'.symm.trans h.1) (by simp)
    | cons m l' =>
      obtain rfl : n = m := Option.some.inj (h.1.symm.trans h'.1)
      rw [ih h.2 h'.2]

/-- Pushing a node outside the list on a singly linked list. -/
theorem Path.push {hd : Option ι} {l : List ι} {n : ι} (h : Path nx hd l) (hn : nx' n = hd)
    (hnx : ∀ m ∈ l, nx' m = nx m) : Path nx' (some n) (n :: l) := by
  refine ⟨rfl, ?_⟩
  rw [hn]
  exact h.congr hnx

/-! ### Computing a list -/

/-- The members that are visited from `hd`, at most `fuel` of them. -/
def follow (nx : ι → Option ι) : Nat → Option ι → List ι
  | 0, _ => []
  | _ + 1, none => []
  | fuel + 1, some n => n :: follow nx fuel (nx n)

/-- With fuel for the whole list, following the links visits it. -/
theorem Path.follow_eq {hd : Option ι} {l : List ι} {fuel : Nat} (h : Path nx hd l)
    (hf : l.length ≤ fuel) : follow nx fuel hd = l := by
  induction l generalizing hd fuel with
  | nil =>
    obtain rfl : hd = none := h
    cases fuel <;> rfl
  | cons n l ih =>
    obtain ⟨rfl, hrest⟩ := h
    cases fuel with
    | zero => exact absurd hf (by simp)
    | succ fuel =>
      show n :: follow nx fuel (nx n) = n :: l
      rw [ih hrest (by simpa using hf)]

/-- The `next` links of a doubly linked list. -/
theorem Chain.path {p hd : Option ι} {l : List ι} (h : Chain nx pv p hd l) : Path nx hd l := by
  induction l generalizing p hd with
  | nil => exact h
  | cons n l ih => exact ⟨h.1, ih h.2.2⟩

/-! ### Rewriting the links of a list -/

section Rewrite

variable [DecidableEq ι]

/-- Changing the back link of the first member changes only the entry link `p`. -/
theorem Chain.reroot {p q hd : Option ι} {l : List ι} (h : Chain nx pv p hd l) (hl : l.Nodup)
    (hnx : ∀ n ∈ l, nx' n = nx n) (hpv : ∀ n ∈ l, pv' n = if l.head? = some n then q else pv n) :
    Chain nx' pv' q hd l := by
  cases l with
  | nil => exact h
  | cons n l =>
    obtain ⟨hh, hp, hc⟩ := h
    have hn : n ∉ l := (List.nodup_cons.mp hl).1
    refine ⟨hh, by simpa using hpv n (by simp), ?_⟩
    rw [hnx n (by simp)]
    refine hc.congr (fun m hm => hnx m (by simp [hm])) (fun m hm => ?_)
    have hne : ¬ n = m := fun e => hn (e ▸ hm)
    simpa [hne] using hpv m (by simp [hm])

/-- **Push.** Linking a node `n` in front of the head `hd`; the members keep their `next` links. -/
theorem Chain.pushFront {p hd : Option ι} {l : List ι} {n : ι} (h : Chain nx pv p hd l)
    (hl : l.Nodup) (hnx : nx' n = hd) (hpv : pv' n = p)
    (hnx' : ∀ m ∈ l, nx' m = nx m)
    (hpv' : ∀ m ∈ l, pv' m = if hd = some m then some n else pv m) :
    Chain nx' pv' p (some n) (n :: l) := by
  refine ⟨rfl, hpv, ?_⟩
  rw [hnx]
  refine h.reroot hl hnx' (fun m hm => ?_)
  rw [hpv' m hm, h.head]

/-- **Unlink.** Splicing the member `n` out: its predecessor takes over its `next` link, its
    successor its `prev` link, and the head moves on when `n` was the first member. -/
theorem Chain.unlink {p hd : Option ι} {a b : List ι} {n : ι}
    (h : Chain nx pv p hd (a ++ n :: b)) (hl : (a ++ n :: b).Nodup)
    (hnx : ∀ m ∈ a ++ b, nx' m = if a.getLast? = some m then nx n else nx m)
    (hpv : ∀ m ∈ a ++ b, pv' m = if b.head? = some m then pv n else pv m) :
    Chain nx' pv' p (if a = [] then nx n else hd) (a ++ b) := by
  induction a generalizing p hd with
  | nil =>
    have hb : b.Nodup := (List.nodup_cons.mp hl).2
    have hp : pv n = p := h.2.1
    refine h.2.2.reroot hb (fun m hm => by simpa using hnx m hm) (fun m hm => ?_)
    rw [hpv m (by simpa using hm), hp]
  | cons x a ih =>
    obtain ⟨hh, hp, hc⟩ := h
    have hl' : x ∉ a ++ n :: b ∧ (a ++ n :: b).Nodup := List.nodup_cons.mp hl
    have hxb : b.head? ≠ some x := by
      intro e
      exact hl'.1 (by simp [List.mem_of_mem_head? e])
    have hpx : pv' x = p := by
      rw [hpv x (by simp), if_neg hxb, hp]
    have htail := ih (p := some x) hc hl'.2 (fun m hm => ?_) (fun m hm => ?_)
    · refine ⟨by simp [hh], hpx, ?_⟩
      have hnxx : nx' x = if a = [] then nx n else nx x := by
        rw [hnx x (by simp)]
        rcases a.eq_nil_or_concat with rfl | ⟨a', y, rfl⟩
        · simp
        · have hy : ¬ y = x := by
            rintro rfl
            exact hl'.1 (by simp)
          simp [List.getLast?_cons, hy]
      rw [hnxx]
      exact htail
    · have hmx : m ≠ x := by
        rintro rfl
        exact hl'.1 (by simp only [List.mem_append, List.mem_cons] at hm ⊢; tauto)
      rw [hnx m (by simp only [List.cons_append, List.mem_cons]; exact .inr hm)]
      rcases a.eq_nil_or_concat with rfl | ⟨a', y, rfl⟩
      · simp [hmx.symm]
      · simp [List.getLast?_cons]
    · exact hpv m (by simp only [List.cons_append, List.mem_cons]; exact .inr hm)

end Rewrite

end Links
