import Mathlib
import Ntsync.Region
import Ntsync.Lib.Links

namespace Ntsync

open Links

/-!
# Waiter lists and node pool

The two kinds of lists that share the waiter nodes: the doubly linked list of each object (`obj_prev`,
`obj_next`, headed by `waiter_head`) and the free list (`waiter_next`, headed by `node_free_head`).

* `ListsOk r L F U` — the region `r` represents the waiter lists `L` and the free list `F`; `U` are
  the slots that were ever taken, the others still have the zero page's head;
* one theorem for each of `node_alloc`, `node_free`, `node_register`, `node_detach` and `alloc_slot`:
  the operation on the region is the operation on the lists.
-/

/-- The region represents the waiter lists `L` and the free list `F`. -/
structure ListsOk (r : Region) (L : Nat → List Nat) (F : List Nat) (U : Nat → Prop) : Prop where
  chain : ∀ i, U i → Chain (fun n => (r.nodes n).objNext) (fun n => (r.nodes n).objPrev) none
    (r.slots i).waiterHead (L i)
  nodup : ∀ i, (L i).Nodup
  mem : ∀ i n, n ∈ L i ↔ (r.nodes n).registered = true ∧ (r.nodes n).obj = some i
  touched : ∀ i, L i ≠ [] → U i
  obj : ∀ n, (r.nodes n).registered = true → ∃ i, (r.nodes n).obj = some i
  word : ∀ n, (r.nodes n).registered = true → ∃ w, (r.nodes n).waitWord = some w ∧ w < r.nodeFresh
  below : ∀ n, (r.nodes n).registered = true → n < r.nodeFresh
  free : Path (fun n => (r.nodes n).waiterNext) r.nodeFreeHead F
  freeNodup : F.Nodup
  freeOk : ∀ n ∈ F, n < r.nodeFresh ∧ (r.nodes n).registered = false
  bound : r.nodeFresh ≤ nodeCount

/-- Two nodes differ at most in futex word and owner. -/
structure SameLinks (a b : WaitNode) : Prop where
  registered : b.registered = a.registered
  obj : b.obj = a.obj
  waitWord : b.waitWord = a.waitWord
  objPrev : b.objPrev = a.objPrev
  objNext : b.objNext = a.objNext
  waiterNext : b.waiterNext = a.waiterNext

/-- A node agrees with itself. -/
theorem SameLinks.refl (a : WaitNode) : SameLinks a a := ⟨rfl, rfl, rfl, rfl, rfl, rfl⟩

section Operations

variable {r r' : Region} {L : Nat → List Nat} {F : List Nat} {U : Nat → Prop} {i n w : Nat}

/-- A fresh region has empty lists and an empty pool. -/
theorem listsOk_init : ListsOk Region.init (fun _ => []) [] (fun i => i = 0) where
  chain i hi := by
    subst hi
    rfl
  nodup _ := List.nodup_nil
  mem i n := by
    constructor
    · intro h
      cases h
    · rintro ⟨h, _⟩
      cases h
  touched i h := absurd rfl h
  obj n h := by cases h
  word n h := by cases h
  below n h := by cases h
  free := rfl
  freeNodup := List.nodup_nil
  freeOk n h := by cases h
  bound := Nat.zero_le _

/-- A region with the same links represents the same lists. -/
theorem ListsOk.congr (h : ListsOk r L F U) (hn : ∀ n, SameLinks (r.nodes n) (r'.nodes n))
    (hs : ∀ i, (r'.slots i).waiterHead = (r.slots i).waiterHead)
    (hh : r'.nodeFreeHead = r.nodeFreeHead) (hf : r'.nodeFresh = r.nodeFresh) :
    ListsOk r' L F U where
  chain i hi := by
    rw [hs]
    exact (h.chain i hi).congr (fun n _ => (hn n).objNext) (fun n _ => (hn n).objPrev)
  nodup := h.nodup
  mem i n := by rw [(hn n).registered, (hn n).obj]; exact h.mem i n
  touched := h.touched
  obj n hr := by
    rw [(hn n).registered] at hr
    rw [(hn n).obj]
    exact h.obj n hr
  word n hr := by
    rw [(hn n).registered] at hr
    rw [(hn n).waitWord, hf]
    exact h.word n hr
  below n hr := by
    rw [(hn n).registered] at hr
    rw [hf]
    exact h.below n hr
  free := by
    rw [hh]
    exact h.free.congr fun n _ => (hn n).waiterNext
  freeNodup := h.freeNodup
  freeOk n hF := by
    rw [hf, (hn n).registered]
    exact h.freeOk n hF
  bound := by
    rw [hf]
    exact h.bound

/-- A node outside the lists can be rewritten. -/
theorem ListsOk.setFree {f : WaitNode → WaitNode} (h : ListsOk r L F U)
    (hn : (r.nodes n).registered = false) (hF : n ∉ F)
    (hf : (f (r.nodes n)).registered = false) : ListsOk (r.setNode n f) L F U := by
  have hmem : ∀ i, n ∉ L i := by
    intro i hi
    have := ((h.mem i n).mp hi).1
    rw [hn] at this
    cases this
  -- the rewritten node is not registered, so all registered nodes are the old ones
  have hne : ∀ m, ((r.setNode n f).nodes m).registered = true → m ≠ n := by
    rintro m hm rfl
    rw [Region.setNode_nodes, if_pos rfl, hf] at hm
    cases hm
  have hsame : ∀ m, m ≠ n → (r.setNode n f).nodes m = r.nodes m := by
    intro m hm
    rw [Region.setNode_nodes, if_neg hm]
  refine ⟨fun i hi => ?_, h.nodup, fun i m => ?_, h.touched, fun m hm => ?_, fun m hm => ?_,
    fun m hm => ?_, ?_, h.freeNodup, fun m hm => ?_, h.bound⟩
  · refine (h.chain i hi).congr (fun m hm => ?_) (fun m hm => ?_)
    all_goals
      have hne : m ≠ n := by
        rintro rfl
        exact hmem i hm
      rw [hsame m hne]
  -- it was on no list and comes on none
  · by_cases hm : m = n
    · subst hm
      rw [Region.setNode_nodes, if_pos rfl, hf]
      constructor
      · intro hi
        exact absurd hi (hmem i)
      · rintro ⟨hfalse, _⟩
        cases hfalse
    · rw [hsame m hm]
      exact h.mem i m
  · have hm' := hne m hm
    rw [hsame m hm'] at hm ⊢
    exact h.obj m hm
  · have hm' := hne m hm
    rw [hsame m hm'] at hm ⊢
    exact h.word m hm
  · have hm' := hne m hm
    rw [hsame m hm'] at hm
    exact h.below m hm
  · refine h.free.congr fun m hm => ?_
    have hne : m ≠ n := by
      rintro rfl
      exact hF hm
    rw [hsame m hne]
  · have hne : m ≠ n := by
      rintro rfl
      exact hF hm
    rw [hsame m hne]
    exact h.freeOk m hm

/-! ### The node pool -/

/-- A node as `node_alloc` hands it out to process `pid`. -/
def WaitNode.handOut (x : WaitNode) (pid : U32) : WaitNode :=
  { x with registered := false, obj := none, waitWord := none, objPrev := none, objNext := none,
           waiterNext := none, pid := pid }

/-- What `node_alloc` hands out: a node of the free list, or the next fresh one. -/
structure Allocated (r : Region) (F : List Nat) (pid : U32) (n : Nat) (r' : Region)
    (F' : List Nat) : Prop where
  node : r'.nodes n = (r.nodes n).handOut pid
  others : ∀ m, m ≠ n → r'.nodes m = r.nodes m
  slots : r'.slots = r.slots
  source : F = n :: F' ∧ r'.nodeFresh = r.nodeFresh ∨
    F = [] ∧ F' = [] ∧ n = r.nodeFresh ∧ r'.nodeFresh = r.nodeFresh + 1

/-- **`node_alloc`** keeps the lists and takes a node from the pool or the fresh ones. -/
theorem ListsOk.alloc {pid : U32} (h : ListsOk r L F U) (ha : r.nodeAlloc pid = some (n, r')) :
    ∃ F', ListsOk r' L F' U ∧ Allocated r F pid n r' F' := by
  unfold Region.nodeAlloc at ha
  cases hh : r.nodeFreeHead with
  | some head =>
    simp only [hh, Option.some.injEq, Prod.mk.injEq] at ha
    obtain ⟨rfl, rfl⟩ := ha
    -- the head of the free list comes off
    have hpath := h.free
    rw [hh] at hpath
    cases F with
    | nil => cases hpath
    | cons m F' =>
      obtain ⟨hhead, hrest⟩ := hpath
      cases hhead
      have hnd := List.nodup_cons.mp h.freeNodup
      have hpop : ListsOk { r with nodeFreeHead := (r.nodes head).waiterNext } L F' U :=
        ⟨h.chain, h.nodup, h.mem, h.touched, h.obj, h.word, h.below, hrest, hnd.2,
          fun m hm => h.freeOk m (List.mem_cons_of_mem _ hm), h.bound⟩
      refine ⟨F', hpop.setFree (h.freeOk head (by simp)).2 hnd.1 rfl, ?_, fun m hm => ?_, rfl,
        .inl ⟨rfl, rfl⟩⟩
      · rw [Region.setNode_nodes, if_pos rfl]
        rfl
      · rw [Region.setNode_nodes, if_neg hm]
  | none =>
    simp only [hh] at ha
    by_cases hfull : nodeCount ≤ r.nodeFresh
    · simp [hfull] at ha
    · simp only [hfull, if_false, Option.some.injEq, Prod.mk.injEq] at ha
      obtain ⟨rfl, rfl⟩ := ha
      obtain rfl : F = [] := by
        have hpath := h.free
        rw [hh] at hpath
        cases F with
        | nil => rfl
        | cons m F => cases hpath.1
      have hun : (r.nodes r.nodeFresh).registered = false := by
        by_contra hreg
        rw [Bool.not_eq_false] at hreg
        exact Nat.lt_irrefl _ (h.below _ hreg)
      have hgrow : ListsOk { r with nodeFreeHead := none, nodeFresh := r.nodeFresh + 1 } L [] U :=
        ⟨h.chain, h.nodup, h.mem, h.touched, h.obj,
          fun m hm => by
            obtain ⟨w, hw, hlt⟩ := h.word m hm
            exact ⟨w, hw, Nat.lt_succ_of_lt hlt⟩,
          fun m hm => Nat.lt_succ_of_lt (h.below m hm), rfl, List.nodup_nil,
          fun m hm => (by cases hm), by show r.nodeFresh + 1 ≤ nodeCount; omega⟩
      refine ⟨[], hgrow.setFree hun (List.not_mem_nil) rfl, ?_, fun m hm => ?_, rfl,
        .inr ⟨rfl, rfl, rfl, rfl⟩⟩
      · rw [Region.setNode_nodes, if_pos rfl]
        rfl
      · rw [Region.setNode_nodes, if_neg hm]

/-- `node_free` pushes the node on the free list. -/
theorem ListsOk.nodeFree (h : ListsOk r L F U) (hn : (r.nodes n).registered = false)
    (hlt : n < r.nodeFresh) (hF : n ∉ F) : ListsOk (r.nodeFree n) L (n :: F) U := by
  have hset : ListsOk (r.setNode n fun x => { x with waiterNext := r.nodeFreeHead }) L F U :=
    h.setFree hn hF hn
  refine ⟨hset.chain, hset.nodup, hset.mem, hset.touched, hset.obj, hset.word, hset.below,
    h.free.push ?_ (fun m hm => ?_), List.nodup_cons.mpr ⟨hF, h.freeNodup⟩, fun m hm => ?_,
    hset.bound⟩
  · show ((r.setNode n fun x => { x with waiterNext := r.nodeFreeHead }).nodes n).waiterNext = _
    rw [Region.setNode_nodes, if_pos rfl]
  · have hne : m ≠ n := by
      rintro rfl
      exact hF hm
    show ((r.setNode n fun x => { x with waiterNext := r.nodeFreeHead }).nodes m).waiterNext = _
    rw [Region.setNode_nodes, if_neg hne]
  · rcases List.mem_cons.mp hm with rfl | hm
    · refine ⟨hlt, ?_⟩
      show ((r.setNode m fun x => { x with waiterNext := r.nodeFreeHead }).nodes m).registered = _
      rw [Region.setNode_nodes, if_pos rfl]
      exact hn
    · exact hset.freeOk m hm

/-! ### The waiter lists -/

/-- The lists are disjoint. -/
theorem ListsOk.slot_unique {j : Nat} (h : ListsOk r L F U) (hi : n ∈ L i) (hj : n ∈ L j) :
    i = j := by
  have h₁ := ((h.mem i n).mp hi).2
  have h₂ := ((h.mem j n).mp hj).2
  exact Option.some.inj (h₁.symm.trans h₂)

/-- The nodes after `node_register`. -/
theorem Region.nodeRegister_nodes (hne : (r.slots i).waiterHead ≠ some n) (m : Nat) :
    (r.nodeRegister n i w).nodes m =
      if m = n then
        { r.nodes n with registered := true, obj := some i, waitWord := some w, objPrev := none,
                         objNext := (r.slots i).waiterHead }
      else if (r.slots i).waiterHead = some m then { r.nodes m with objPrev := some n }
      else r.nodes m := by
  unfold Region.nodeRegister
  cases hh : (r.slots i).waiterHead with
  | none =>
    simp only [Region.setSlot_nodes, Region.setNode_nodes]
    split <;> simp
  | some q =>
    have hq : q ≠ n := by
      rintro rfl
      exact hne hh
    simp only [Region.setSlot_nodes, Region.setNode_nodes, if_neg hq]
    by_cases hm : m = n
    · subst hm
      rw [if_neg (Ne.symm hq), if_pos rfl, if_pos rfl]
    · rw [if_neg hm, if_neg hm]
      by_cases hmq : m = q
      · subst hmq
        rw [if_pos rfl, if_pos rfl]
      · rw [if_neg hmq, if_neg (fun e => hmq (Option.some.inj e).symm)]

/-- `node_register` makes the node the head of its object's list. -/
theorem Region.nodeRegister_head (j : Nat) : ((r.nodeRegister n i w).slots j).waiterHead =
    if j = i then some n else (r.slots j).waiterHead := by
  unfold Region.nodeRegister
  rw [Region.setSlot_slots]
  split
  · rfl
  · cases (r.slots i).waiterHead <;> rfl

/-- `node_register` leaves the pool alone. -/
theorem Region.nodeRegister_header :
    (r.nodeRegister n i w).nodeFreeHead = r.nodeFreeHead ∧
      (r.nodeRegister n i w).nodeFresh = r.nodeFresh := by
  unfold Region.nodeRegister
  cases (r.slots i).waiterHead <;> exact ⟨rfl, rfl⟩

/-- `node_register` puts the node in front of the object's list. -/
theorem ListsOk.register (h : ListsOk r L F U) (hn : (r.nodes n).registered = false)
    (hlt : n < r.nodeFresh) (hF : n ∉ F) (hw : w < r.nodeFresh) (hi : U i) :
    ListsOk (r.nodeRegister n i w) (Function.update L i (n :: L i)) F U := by
  have hnot : ∀ j, n ∉ L j := by
    intro j hj
    have := ((h.mem j n).mp hj).1
    rw [hn] at this
    cases this
  have hhead := (h.chain i hi).head
  have hmem_head : ∀ m, (r.slots i).waiterHead = some m → m ∈ L i := by
    intro m hm
    rw [hhead] at hm
    exact List.mem_of_mem_head? hm
  have hne : (r.slots i).waiterHead ≠ some n := fun e => hnot i (hmem_head n e)
  have hnode := Region.nodeRegister_nodes (w := w) hne
  obtain ⟨hfh, hfr⟩ := Region.nodeRegister_header (r := r) (n := n) (i := i) (w := w)
  -- nodes other than `n` keep everything but perhaps a back link
  have hkeep : ∀ m, m ≠ n → ((r.nodeRegister n i w).nodes m).registered = (r.nodes m).registered ∧
      ((r.nodeRegister n i w).nodes m).obj = (r.nodes m).obj ∧
      ((r.nodeRegister n i w).nodes m).waitWord = (r.nodes m).waitWord ∧
      ((r.nodeRegister n i w).nodes m).objNext = (r.nodes m).objNext ∧
      ((r.nodeRegister n i w).nodes m).waiterNext = (r.nodes m).waiterNext := by
    intro m hm
    rw [hnode m, if_neg hm]
    split <;> exact ⟨rfl, rfl, rfl, rfl, rfl⟩
  have hself := hnode n
  rw [if_pos rfl] at hself
  refine ⟨fun j hj => ?_, fun j => ?_, fun j m => ?_, fun j hj => ?_, fun m hm => ?_, fun m hm => ?_,
    fun m hm => ?_, ?_, h.freeNodup, fun m hm => ?_, ?_⟩
  · rw [Region.nodeRegister_head]
    by_cases hji : j = i
    · subst hji
      rw [if_pos rfl, Function.update_self]
      refine (h.chain j hj).pushFront (h.nodup j) ?_ ?_ (fun m hm => ?_) (fun m hm => ?_)
      · show ((r.nodeRegister n j w).nodes n).objNext = _
        rw [hself]
      · show ((r.nodeRegister n j w).nodes n).objPrev = _
        rw [hself]
      · have hmn : m ≠ n := by
          rintro rfl
          exact hnot j hm
        exact (hkeep m hmn).2.2.2.1
      · have hmn : m ≠ n := by
          rintro rfl
          exact hnot j hm
        show ((r.nodeRegister n j w).nodes m).objPrev = _
        rw [hnode m, if_neg hmn]
        split <;> rfl
    · rw [if_neg hji, Function.update_of_ne hji]
      refine (h.chain j hj).congr (fun m hm => ?_) (fun m hm => ?_)
      · have hmn : m ≠ n := by
          rintro rfl
          exact hnot j hm
        exact (hkeep m hmn).2.2.2.1
      · have hmn : m ≠ n := by
          rintro rfl
          exact hnot j hm
        have hmh : (r.slots i).waiterHead ≠ some m := fun e =>
          hji (h.slot_unique hm (hmem_head m e))
        show ((r.nodeRegister n i w).nodes m).objPrev = _
        rw [hnode m, if_neg hmn, if_neg hmh]
  · by_cases hji : j = i
    · subst hji
      rw [Function.update_self]
      exact List.nodup_cons.mpr ⟨hnot j, h.nodup j⟩
    · rw [Function.update_of_ne hji]
      exact h.nodup j
  · by_cases hmn : m = n
    · subst hmn
      rw [hself]
      by_cases hji : j = i
      · subst hji
        simp
      · rw [Function.update_of_ne hji]
        simp only [true_and, Option.some.injEq]
        exact ⟨fun hm => absurd hm (hnot j), fun e => absurd e.symm hji⟩
    · obtain ⟨h₁, h₂, _⟩ := hkeep m hmn
      rw [h₁, h₂, ← h.mem j m]
      by_cases hji : j = i
      · subst hji
        simp [hmn]
      · rw [Function.update_of_ne hji]
  · by_cases hji : j = i
    · rw [hji]
      exact hi
    · rw [Function.update_of_ne hji] at hj
      exact h.touched j hj
  · by_cases hmn : m = n
    · subst hmn
      exact ⟨i, by rw [hself]⟩
    · obtain ⟨h₁, h₂, _⟩ := hkeep m hmn
      rw [h₁] at hm
      rw [h₂]
      exact h.obj m hm
  · rw [hfr]
    by_cases hmn : m = n
    · subst hmn
      exact ⟨w, by rw [hself], hw⟩
    · obtain ⟨h₁, _, h₃, _⟩ := hkeep m hmn
      rw [h₁] at hm
      rw [h₃]
      exact h.word m hm
  · rw [hfr]
    by_cases hmn : m = n
    · rw [hmn]
      exact hlt
    · rw [(hkeep m hmn).1] at hm
      exact h.below m hm
  · rw [hfh]
    refine h.free.congr fun m hm => ?_
    have hmn : m ≠ n := by
      rintro rfl
      exact hF hm
    exact (hkeep m hmn).2.2.2.2
  · have hmn : m ≠ n := by
      rintro rfl
      exact hF hm
    rw [hfr, (hkeep m hmn).1]
    exact h.freeOk m hm
  · rw [hfr]
    exact h.bound

/-- The nodes after `node_detach` of a registered node. -/
theorem Region.nodeDetach_nodes (hn : (r.nodes n).registered = true)
    (hp : (r.nodes n).objPrev ≠ some n) (hq : (r.nodes n).objNext ≠ some n) (m : Nat) :
    (r.nodeDetach n).nodes m =
      if m = n then
        { r.nodes n with registered := false, obj := none, objPrev := none, objNext := none }
      else
        { r.nodes m with
          objNext := if (r.nodes n).objPrev = some m then (r.nodes n).objNext
            else (r.nodes m).objNext
          objPrev := if (r.nodes n).objNext = some m then (r.nodes n).objPrev
            else (r.nodes m).objPrev } := by
  unfold Region.nodeDetach
  rw [if_neg (by rw [hn]; intro h; cases h)]
  cases hpv : (r.nodes n).objPrev with
  | none =>
    cases hob : (r.nodes n).obj <;> cases hnx : (r.nodes n).objNext <;>
      simp only [Region.setNode_nodes, Region.setSlot_nodes, hpv, hnx] <;>
      split_ifs <;> simp_all
  | some p =>
    have hpn : n ≠ p := by
      rintro rfl
      exact hp hpv
    cases hnx : (r.nodes n).objNext <;>
      simp only [Region.setNode_nodes, if_neg hpn, hpv, hnx] <;>
      split_ifs <;> simp_all

/-- `node_detach` moves the list head on if the node was the head. -/
theorem Region.nodeDetach_head (hn : (r.nodes n).registered = true) (hobj : (r.nodes n).obj = some i)
    (j : Nat) : ((r.nodeDetach n).slots j).waiterHead =
      if j = i ∧ (r.nodes n).objPrev = none then (r.nodes n).objNext
      else (r.slots j).waiterHead := by
  unfold Region.nodeDetach
  rw [if_neg (by rw [hn]; intro h; cases h)]
  cases hpv : (r.nodes n).objPrev with
  | none =>
    simp only [hobj, Region.setNode_slots, Region.setSlot_nodes, and_true]
    cases hnx : (r.nodes n).objNext <;>
      simp only [Region.setNode_slots, Region.setSlot_slots] <;> split <;> rfl
  | some p =>
    simp only [reduceCtorEq, and_false, if_false]
    split <;> rfl

/-- `node_detach` leaves the pool alone. -/
theorem Region.nodeDetach_header :
    (r.nodeDetach n).nodeFreeHead = r.nodeFreeHead ∧ (r.nodeDetach n).nodeFresh = r.nodeFresh :=
  ⟨(r.nodeDetach_rest n).1, (r.nodeDetach_rest n).2.1⟩

/-- `node_detach` takes the node out of its list. -/
theorem ListsOk.detach (h : ListsOk r L F U) (hn : (r.nodes n).registered = true)
    (hobj : (r.nodes n).obj = some i) :
    ListsOk (r.nodeDetach n) (Function.update L i ((L i).erase n)) F U := by
  have hmem : n ∈ L i := (h.mem i n).mpr ⟨hn, hobj⟩
  have hU : U i := h.touched i (List.ne_nil_of_mem hmem)
  obtain ⟨a, b, hab⟩ := List.append_of_mem hmem
  have hnd := h.nodup i
  have hchain := h.chain i hU
  rw [hab] at hnd hchain
  have herase : (L i).erase n = a ++ b := by
    rw [hab, List.erase_append_right _ (fun hna => ?_), List.erase_cons_head]
    exact (List.nodup_append.mp hnd).2.2 n hna n (by simp) rfl
  -- the links of the node are its neighbours
  have hnx : (r.nodes n).objNext = b.head? := hchain.next_of_mem
  have hpv : (r.nodes n).objPrev = a.getLast? := by
    rw [show (r.nodes n).objPrev = a.getLast?.or none from hchain.prev_of_mem, Option.or_none]
  have hna : n ∉ a := fun hna => (List.nodup_append.mp hnd).2.2 n hna n (by simp) rfl
  have hnb : n ∉ b := (List.nodup_cons.mp (List.nodup_append.mp hnd).2.1).1
  have hpn : (r.nodes n).objPrev ≠ some n := by
    rw [hpv]
    exact fun e => hna (List.mem_of_getLast? e)
  have hqn : (r.nodes n).objNext ≠ some n := by
    rw [hnx]
    exact fun e => hnb (List.mem_of_mem_head? e)
  have hnode := Region.nodeDetach_nodes hn hpn hqn
  have hkeep : ∀ m, m ≠ n → ((r.nodeDetach n).nodes m).registered = (r.nodes m).registered ∧
      ((r.nodeDetach n).nodes m).obj = (r.nodes m).obj ∧
      ((r.nodeDetach n).nodes m).waitWord = (r.nodes m).waitWord ∧
      ((r.nodeDetach n).nodes m).waiterNext = (r.nodes m).waiterNext := by
    intro m hm
    rw [hnode m, if_neg hm]
    exact ⟨rfl, rfl, rfl, rfl⟩
  have hself : ((r.nodeDetach n).nodes n).registered = false := by rw [hnode n, if_pos rfl]
  have hne : ∀ m, ((r.nodeDetach n).nodes m).registered = true → m ≠ n := by
    rintro m hm rfl
    rw [hself] at hm
    cases hm
  have hin : ∀ {m j}, m ∈ L j → j ≠ i → m ∉ L i := fun hm hj hmi => hj (h.slot_unique hm hmi)
  obtain ⟨hfh, hfr⟩ := Region.nodeDetach_header (r := r) (n := n)
  refine ⟨fun j hj => ?_, fun j => ?_, fun j m => ?_, fun j hj => ?_, fun m hm => ?_, fun m hm => ?_,
    fun m hm => ?_, ?_, h.freeNodup, fun m hm => ?_, ?_⟩
  · rw [Region.nodeDetach_head hn hobj]
    by_cases hji : j = i
    · subst hji
      rw [Function.update_self, herase]
      have hcut : Chain (fun m => ((r.nodeDetach n).nodes m).objNext)
          (fun m => ((r.nodeDetach n).nodes m).objPrev) _ _ (a ++ b) :=
        hchain.unlink hnd (fun m hm => ?_) (fun m hm => ?_)
      · have hhead : (if a = [] then (r.nodes n).objNext else (r.slots j).waiterHead) =
            if j = j ∧ (r.nodes n).objPrev = none then (r.nodes n).objNext
            else (r.slots j).waiterHead := by
          simp only [hpv, List.getLast?_eq_none_iff, true_and]
        rw [← hhead]
        exact hcut
      all_goals
        have hmn : m ≠ n := by
          rintro rfl
          rcases List.mem_append.mp hm with hm | hm
          · exact hna hm
          · exact hnb hm
        rw [hnode m, if_neg hmn]
      · rw [hpv]
      · rw [hnx]
    · rw [if_neg (fun e => hji e.1), Function.update_of_ne hji]
      refine (h.chain j hj).congr (fun m hm => ?_) (fun m hm => ?_)
      all_goals
        have hmi := hin hm hji
        have hmn : m ≠ n := by
          rintro rfl
          exact hmi hmem
        rw [hab] at hmi
        rw [hnode m, if_neg hmn]
      · refine if_neg fun e => hmi ?_
        rw [hpv] at e
        exact List.mem_append_left _ (List.mem_of_getLast? e)
      · refine if_neg fun e => hmi ?_
        rw [hnx] at e
        exact List.mem_append_right _ (List.mem_cons_of_mem _ (List.mem_of_mem_head? e))
  · by_cases hji : j = i
    · subst hji
      rw [Function.update_self]
      exact (h.nodup j).erase n
    · rw [Function.update_of_ne hji]
      exact h.nodup j
  · by_cases hmn : m = n
    · subst hmn
      rw [hself]
      constructor
      · intro hm
        by_cases hji : j = i
        · subst hji
          rw [Function.update_self] at hm
          exact absurd hm ((h.nodup j).not_mem_erase)
        · rw [Function.update_of_ne hji] at hm
          exact absurd hmem (hin hm hji)
      · rintro ⟨hfalse, _⟩
        cases hfalse
    · rw [(hkeep m hmn).1, (hkeep m hmn).2.1, ← h.mem j m]
      by_cases hji : j = i
      · subst hji
        rw [Function.update_self, List.mem_erase_of_ne hmn]
      · rw [Function.update_of_ne hji]
  · by_cases hji : j = i
    · rw [hji]
      exact hU
    · rw [Function.update_of_ne hji] at hj
      exact h.touched j hj
  · have hmn := hne m hm
    rw [(hkeep m hmn).1] at hm
    rw [(hkeep m hmn).2.1]
    exact h.obj m hm
  · have hmn := hne m hm
    rw [(hkeep m hmn).1] at hm
    rw [(hkeep m hmn).2.2.1, hfr]
    exact h.word m hm
  · have hmn := hne m hm
    rw [(hkeep m hmn).1] at hm
    rw [hfr]
    exact h.below m hm
  · rw [hfh]
    refine h.free.congr fun m _ => ?_
    by_cases hmn : m = n
    · rw [hmn, hnode n, if_pos rfl]
    · exact (hkeep m hmn).2.2.2
  · rw [hfr]
    by_cases hmn : m = n
    · rw [hmn]
      exact ⟨h.below n hn, hself⟩
    · rw [(hkeep m hmn).1]
      exact h.freeOk m hm
  · rw [hfr]
    exact h.bound

/-! ### What becomes of a node's entry -/

/-- A node keeps its owner, and its registration unless it is detached. -/
structure Kept (a b : WaitNode) : Prop where
  pid : b.pid = a.pid
  back : b.registered = true → a.registered = true ∧ b.obj = a.obj ∧ b.waitWord = a.waitWord

/-- A node that is not written keeps its entry. -/
theorem Kept.refl (a : WaitNode) : Kept a a := ⟨rfl, fun h => ⟨h, rfl, rfl⟩⟩

/-- The node is registered on the object, for the futex word of its wait. -/
theorem Region.nodeRegister_self : ((r.nodeRegister n i w).nodes n).registered = true ∧
    ((r.nodeRegister n i w).nodes n).obj = some i ∧
    ((r.nodeRegister n i w).nodes n).waitWord = some w ∧
    ((r.nodeRegister n i w).nodes n).pid = (r.nodes n).pid := by
  unfold Region.nodeRegister
  cases (r.slots i).waiterHead with
  | none => simp
  | some q => by_cases hq : n = q <;> simp [hq]

/-- `node_register` changes no other node's registration. -/
theorem Region.nodeRegister_other {m : Nat} (hm : m ≠ n) :
    ((r.nodeRegister n i w).nodes m).registered = (r.nodes m).registered ∧
    Kept (r.nodes m) ((r.nodeRegister n i w).nodes m) := by
  unfold Region.nodeRegister
  cases (r.slots i).waiterHead with
  | none => simp [hm, Kept.refl]
  | some q =>
    by_cases hq : m = q
    · subst hq
      simp only [Region.setSlot_nodes, Region.setNode_nodes, if_neg hm, if_true, true_and]
      exact ⟨rfl, fun h => ⟨h, rfl, rfl⟩⟩
    · simp [hm, hq, Kept.refl]

/-- The node is not registered any more, and keeps its owner. -/
theorem Region.nodeDetach_self : ((r.nodeDetach n).nodes n).registered = false ∧
    ((r.nodeDetach n).nodes n).pid = (r.nodes n).pid := by
  unfold Region.nodeDetach
  split
  · rename_i h
    exact ⟨h, rfl⟩
  · simp only [Region.setNode_nodes, if_true, true_and]
    cases (r.nodes n).objPrev with
    | none => cases (r.nodes n).obj <;> dsimp only <;> split <;> simp <;> grind
    | some p => dsimp only; split <;> simp only [Region.setNode_nodes] <;> split_ifs <;> simp_all

/-- `node_detach` changes no other node's registration. -/
theorem Region.nodeDetach_other {m : Nat} (hm : m ≠ n) :
    ((r.nodeDetach n).nodes m).registered = (r.nodes m).registered ∧
    Kept (r.nodes m) ((r.nodeDetach n).nodes m) := by
  unfold Region.nodeDetach
  split
  · exact ⟨rfl, .refl _⟩
  · simp only [Region.setNode_nodes, if_neg hm]
    -- the two neighbours get new links, nothing else
    have hset : ∀ (x : Region) (q : Nat) (f : WaitNode → WaitNode),
        (∀ y, (f y).registered = y.registered ∧ (f y).obj = y.obj ∧ (f y).waitWord = y.waitWord ∧
          (f y).pid = y.pid) →
        ((x.setNode q f).nodes m).registered = (x.nodes m).registered ∧
          Kept (x.nodes m) ((x.setNode q f).nodes m) := by
      intro x q f hf
      rw [Region.setNode_nodes]
      split
      · rename_i h
        subst h
        obtain ⟨h₁, h₂, h₃, h₄⟩ := hf (x.nodes m)
        exact ⟨h₁, h₄, fun h => ⟨h₁.symm.trans h, h₂, h₃⟩⟩
      · exact ⟨rfl, .refl _⟩
    cases (r.nodes n).objPrev with
    | none =>
      cases (r.nodes n).obj with
      | none =>
        dsimp only
        split
        · exact ⟨rfl, .refl _⟩
        · exact hset _ _ _ fun y => ⟨rfl, rfl, rfl, rfl⟩
      | some o =>
        dsimp only
        split
        · exact ⟨rfl, .refl _⟩
        · exact hset _ _ _ fun y => ⟨rfl, rfl, rfl, rfl⟩
    | some p =>
      obtain ⟨h₁, h₂⟩ := hset r p (fun y => { y with objNext := (r.nodes n).objNext })
        fun y => ⟨rfl, rfl, rfl, rfl⟩
      dsimp only
      split
      · exact ⟨h₁, h₂⟩
      · obtain ⟨h₃, h₄⟩ := hset (r.setNode p fun y => { y with objNext := (r.nodes n).objNext })
          ‹_› (fun y => { y with objPrev := ((r.setNode p fun y =>
            { y with objNext := (r.nodes n).objNext }).nodes n).objPrev })
          fun y => ⟨rfl, rfl, rfl, rfl⟩
        refine ⟨h₃.trans h₁, h₄.pid.trans h₂.pid, fun h => ?_⟩
        obtain ⟨a₁, a₂, a₃⟩ := h₄.back h
        obtain ⟨b₁, b₂, b₃⟩ := h₂.back a₁
        exact ⟨b₁, a₂.trans b₂, a₃.trans b₃⟩

/-- `alloc_slot` gives a slot without waiters an empty list. -/
theorem ListsOk.takeSlot (h : ListsOk r L F U) (hL : L i = []) :
    ListsOk (r.takeSlot i) L F (fun j => j = i ∨ U j) := by
  have hhead : ∀ j, ((r.takeSlot i).slots j).waiterHead =
      if j = i then none else (r.slots j).waiterHead := by
    intro j
    show ((r.setSlot i fun s => { s with waiterHead := none }).slots j).waiterHead = _
    rw [Region.setSlot_slots]
    split <;> rfl
  refine ⟨fun j hj => ?_, h.nodup, h.mem, fun j hj => .inr (h.touched j hj), h.obj, h.word, h.below,
    h.free, h.freeNodup, h.freeOk, h.bound⟩
  rw [hhead]
  by_cases hji : j = i
  · rw [if_pos hji, hji, hL]
    rfl
  · rw [if_neg hji]
    exact h.chain j (hj.resolve_left hji)

end Operations

end Ntsync
