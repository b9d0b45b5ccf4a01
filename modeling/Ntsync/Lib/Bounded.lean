import Mathlib

namespace Bounded

/-!
# Lib — sets of bounded size

A roster keeps at most `n` members.  An element that finds the roster full is turned away, and the
roster remembers for good that this has happened.

* `Roster` carries its bound as a field, so a roster with too many members cannot be built;
* `request_request` — asking twice is asking once;
* `mem_serve_iff` — as long as nobody was turned away, the members are the elements whose latest
  request was to be added;
* `overflowed_serve_iff` — the mark says exactly that somebody was turned away, at whatever time.
-/

variable {α : Type*} [DecidableEq α] {n : Nat}

/-- At most `n` members, and the mark that an element was turned away. -/
@[ext] structure Roster (α : Type*) (n : Nat) where
  members : Finset α
  overflowed : Bool
  card_le : members.card ≤ n

namespace Roster

def empty : Roster α n := ⟨∅, false, Nat.zero_le _⟩

/-- Add an element, if there is room. -/
def add (r : Roster α n) (a : α) : Roster α n :=
  if a ∈ r.members then r
  else if h : r.members.card < n then
    ⟨insert a r.members, r.overflowed, (Finset.card_insert_le _ _).trans h⟩
  else { r with overflowed := true }

def remove (r : Roster α n) (a : α) : Roster α n :=
  ⟨r.members.erase a, r.overflowed, Finset.card_erase_le.trans r.card_le⟩

/-- A request to add (`true`) or to remove (`false`) an element. -/
def request (r : Roster α n) (x : Bool × α) : Roster α n := if x.1 then r.add x.2 else r.remove x.2

/-- Requests in a row. -/
def serve (r : Roster α n) (l : List (Bool × α)) : Roster α n := l.foldl request r

/-- The latest request about an element. -/
def latest (a : α) (l : List (Bool × α)) : Option Bool :=
  (l.reverse.find? fun x => decide (x.2 = a)).map Prod.fst

/-- The element would be turned away. -/
def Refuses (r : Roster α n) (x : Bool × α) : Prop :=
  x.1 = true ∧ x.2 ∉ r.members ∧ r.members.card = n

variable {r : Roster α n} {a b : α} {x : Bool × α} {l : List (Bool × α)}

@[simp] theorem remove_members : (r.remove a).members = r.members.erase a := rfl
@[simp] theorem remove_overflowed : (r.remove a).overflowed = r.overflowed := rfl

/-- A member is not added twice. -/
theorem add_of_mem (h : a ∈ r.members) : r.add a = r := if_pos h

/-- A full roster marks its overflow. -/
theorem add_of_full (h : a ∉ r.members) (hn : r.members.card = n) :
    r.add a = { r with overflowed := true } := by
  rw [add, if_neg h, dif_neg (by omega)]

/-- With room the new member is added. -/
theorem add_of_room (h : a ∉ r.members) (hn : r.members.card < n) :
    (r.add a).members = insert a r.members ∧ (r.add a).overflowed = r.overflowed := by
  rw [add, if_neg h, dif_pos hn]
  exact ⟨rfl, rfl⟩

@[simp] theorem serve_append {l' : List (Bool × α)} : r.serve (l ++ l') = (r.serve l).serve l' := by
  simp [serve]

@[simp] theorem serve_singleton : r.serve [x] = r.request x := rfl

/-- **Asking twice is asking once.** -/
theorem request_request : (r.request x).request x = r.request x := by
  obtain ⟨isAdd, a⟩ := x
  cases isAdd with
  | false => ext <;> simp [request]
  | true =>
    show (r.add a).add a = r.add a
    by_cases ha : a ∈ r.members
    · rw [add_of_mem ha, add_of_mem ha]
    · rcases Nat.lt_or_eq_of_le r.card_le with hroom | hfull
      · refine add_of_mem ?_
        rw [(add_of_room ha hroom).1]
        exact Finset.mem_insert_self ..
      · rw [add_of_full ha hfull]
        exact add_of_full ha hfull

/-- The mark is set by a refusal, and stays. -/
theorem overflowed_request_iff :
    (r.request x).overflowed = true ↔ r.overflowed = true ∨ r.Refuses x := by
  obtain ⟨isAdd, a⟩ := x
  unfold Refuses
  cases isAdd with
  | false => simp [request]
  | true =>
    show (r.add a).overflowed = true ↔ _
    by_cases ha : a ∈ r.members
    · simp [add_of_mem ha, ha]
    · rcases Nat.lt_or_eq_of_le r.card_le with hroom | hfull
      · simp [(add_of_room ha hroom).2, hroom.ne]
      · simp [add_of_full ha hfull, ha, hfull]

/-- Unless the element is turned away, a request about it decides whether it is a member. -/
theorem mem_request_iff (h : ¬ r.Refuses x) :
    a ∈ (r.request x).members ↔ if x.2 = a then x.1 = true else a ∈ r.members := by
  obtain ⟨isAdd, b⟩ := x
  cases isAdd with
  | false =>
    show a ∈ r.members.erase b ↔ _
    rw [Finset.mem_erase]
    by_cases hba : b = a
    · simp [hba]
    · simp [hba, Ne.symm hba]
  | true =>
    show a ∈ (r.add b).members ↔ _
    by_cases hb : b ∈ r.members
    · by_cases hba : b = a
      · subst hba
        simp [add_of_mem hb, hb]
      · simp [add_of_mem hb, hba]
    · have hroom : r.members.card < n :=
        Nat.lt_of_le_of_ne r.card_le fun hfull => h ⟨rfl, hb, hfull⟩
      rw [(add_of_room hb hroom).1, Finset.mem_insert]
      by_cases hba : b = a
      · simp [hba]
      · simp [hba, Ne.symm hba]

/-- The latest request is the last one, if it is about `a`. -/
theorem latest_append_singleton :
    latest a (l ++ [x]) = if x.2 = a then some x.1 else latest a l := by
  unfold latest
  rw [List.reverse_append, List.reverse_singleton, List.singleton_append, List.find?_cons]
  by_cases hxa : x.2 = a <;> simp [hxa]

/-- **The members are what was last asked for**, as long as nobody was turned away. -/
theorem mem_serve_iff (h : ((empty : Roster α n).serve l).overflowed = false) :
    a ∈ ((empty : Roster α n).serve l).members ↔ latest a l = some true := by
  -- by induction on the requests, the latest one last
  induction l using List.reverseRecOn with
  | nil => simp [serve, empty, latest]
  | append_singleton l x ih =>
    rw [serve_append, serve_singleton] at h ⊢
    have hno := mt overflowed_request_iff.mpr (Bool.eq_false_iff.mp h)
    rw [not_or] at hno
    rw [mem_request_iff hno.2, latest_append_singleton, ih (Bool.eq_false_iff.mpr hno.1)]
    split <;> simp

/-- **The mark** says that somebody was turned away. -/
theorem overflowed_serve_iff : ((empty : Roster α n).serve l).overflowed = true ↔
    ∃ l₁ x l₂, l = l₁ ++ x :: l₂ ∧ ((empty : Roster α n).serve l₁).Refuses x := by
  induction l using List.reverseRecOn with
  | nil => simp [serve, empty]
  | append_singleton l y ih =>
    rw [serve_append, serve_singleton, overflowed_request_iff, ih]
    constructor
    · rintro (⟨l₁, x, l₂, rfl, hx⟩ | hy)
      · exact ⟨l₁, x, l₂ ++ [y], by simp, hx⟩
      · exact ⟨l, y, [], rfl, hy⟩
    · rintro ⟨l₁, x, l₂, hl, hx⟩
      rcases List.eq_nil_or_concat' l₂ with rfl | ⟨l₂, z, rfl⟩
      · obtain ⟨rfl, hyx⟩ := List.append_inj' hl rfl
        cases hyx
        exact .inr hx
      · refine .inl ⟨l₁, x, l₂, ?_, hx⟩
        rw [← List.cons_append, ← List.append_assoc] at hl
        exact (List.append_inj' hl rfl).1

end Roster

end Bounded
