import Mathlib
import Ntsync.FullTable
import Ntsync.Attempt

namespace Ntsync

open Words Lts Links

/-!
# The lock-free fast path

A wait with timeout zero on a table at rest.  The call as written answers from its fast path; with
the fast-path block taken out, one pass of the locked section allocates its nodes, links them,
tries, and unlinks and frees them again.

* `Borrowed` — the region while a wait holds nodes: take its nodes out of the lists and the lists
  are those at the start, put them back and the pool is as large as at the start;
* `SatRuns.congr` — `try_satisfy` does not see the waiter lists;
* `Polls` — what a poll returns and which words it leaves, in the terms of neither path;
* `fast_polls`, `locked_polls` — both paths do that; `fast_path_agrees` puts them side by side.
-/

variable {T : Type}

/-! ### What a wait borrows -/

namespace Region

/-- The nodes on the waiter list of slot `i`, first to last. -/
def waiters (r : Region) (i : Nat) : List Nat :=
  follow (fun n => (r.nodes n).objNext) nodeCount (r.slots i).waiterHead

/-- How many nodes `node_alloc` can hand out: the free list and the fresh rest of the pool. -/
def available (r : Region) : Nat :=
  (follow (fun n => (r.nodes n).waiterNext) nodeCount r.nodeFreeHead).length +
    (nodeCount - r.nodeFresh)

end Region

section Borrow

variable {r₀ r r' : Region} {L L' : Nat → List Nat} {F : List Nat} {U : Nat → Prop}
  {ns : List Nat} {i n w : Nat} {pid : U32}

/-- Distinct nodes of the pool are no more than the pool has. -/
theorem length_le_nodeCount {l : List Nat} (hnd : l.Nodup) (hlt : ∀ n ∈ l, n < nodeCount) :
    l.length ≤ nodeCount := by
  have hsub : l ⊆ List.range nodeCount := fun n hn => List.mem_range.mpr (hlt n hn)
  have hle := (hnd.subperm hsub).length_le
  rwa [List.length_range] at hle

/-- The waiters of a slot are its list. -/
theorem ListsOk.waiters_eq (h : ListsOk r L F U) (hi : U i) : r.waiters i = L i := by
  refine (h.chain i hi).path.follow_eq (length_le_nodeCount (h.nodup i) fun n hn => ?_)
  exact Nat.lt_of_lt_of_le (h.below n ((h.mem i n).mp hn).1) h.bound

/-- The nodes `node_alloc` can still hand out: the pool and those never used. -/
theorem ListsOk.available_eq (h : ListsOk r L F U) :
    r.available = F.length + (nodeCount - r.nodeFresh) := by
  unfold Region.available
  rw [h.free.follow_eq (length_le_nodeCount h.freeNodup fun n hn =>
    Nat.lt_of_lt_of_le (h.freeOk n hn).1 h.bound)]

/-- While nodes are available `node_alloc` succeeds. -/
theorem ListsOk.exists_alloc (h : ListsOk r L F U) (pid : U32) (hpos : 0 < r.available) :
    ∃ n r', r.nodeAlloc pid = some (n, r') := by
  rw [h.available_eq] at hpos
  unfold Region.nodeAlloc
  cases hh : r.nodeFreeHead with
  | some head => exact ⟨_, _, rfl⟩
  | none =>
    -- the free list is empty, so there are fresh nodes
    obtain rfl : F = [] := by
      have hpath := h.free.head
      rw [hh] at hpath
      exact List.head?_eq_none_iff.mp hpath.symm
    have hfresh : ¬ nodeCount ≤ r.nodeFresh := by
      rw [List.length_nil] at hpos
      omega
    simp only [if_neg hfresh]
    exact ⟨_, _, rfl⟩

/-- The wait holds the nodes `ns` of the pool; without them the waiter lists are `L`, and the
    objects are as in `r₀`. -/
structure Borrowed (r₀ : Region) (L : Nat → List Nat) (U : Nat → Prop) (r : Region)
    (L' : Nat → List Nat) (F : List Nat) (ns : List Nat) : Prop where
  lists : ListsOk r L' F U
  nodup : ns.Nodup
  own : ∀ n ∈ ns, n < r.nodeFresh ∧ n ∉ F
  rest : ∀ i, (L' i).filter (· ∉ ns) = L i
  pool : r.available + ns.length = r₀.available
  same : SameObjects r₀ r

/-- A pass starts with no node. -/
theorem Borrowed.start (h : ListsOk r L F U) : Borrowed r L U r L F [] where
  lists := h
  nodup := List.nodup_nil
  own n hn := by cases hn
  rest i := List.filter_eq_self.mpr fun n _ => by simp
  pool := Nat.add_zero _
  same i := .refl _ _

/-- With all nodes given back, the lists are what they were. -/
theorem Borrowed.returned (h : Borrowed r₀ L U r L' F []) : ListsOk r L F U := by
  have hL : L' = L := by
    funext i
    rw [← h.rest i]
    exact (List.filter_eq_self.mpr fun n _ => by simp).symm
  rw [← hL]
  exact h.lists

/-- Agreement on the objects is passed on. -/
theorem SameObjects.trans {r₁ r₂ r₃ : Region} (h : SameObjects r₁ r₂) (h' : SameObjects r₂ r₃) :
    SameObjects r₁ r₃ := by
  intro i
  obtain ⟨hd, he⟩ := h i
  obtain ⟨hd', he'⟩ := h' i
  exact ⟨hd', by rw [he', he]⟩

/-- `node_alloc` adds a node to those the wait holds. -/
theorem Borrowed.alloc (h : Borrowed r₀ L U r L' F ns) (ha : r.nodeAlloc pid = some (n, r')) :
    ∃ F', Borrowed r₀ L U r' L' F' (ns ++ [n]) := by
  obtain ⟨F', hlists, hal⟩ := h.lists.alloc ha
  have hun : (r'.nodes n).registered = false := by
    rw [hal.node]
    rfl
  -- an unregistered node is on no list
  have hnL (i : Nat) : n ∉ L' i := by
    intro hn
    rw [((hlists.mem i n).mp hn).1] at hun
    cases hun
  have hpool := h.pool
  rw [h.lists.available_eq] at hpool
  refine ⟨F', hlists, ?_, fun m hm => ?_, fun i => ?_, ?_, h.same.trans fun i => ?_⟩
  · -- the new node was free or fresh
    refine List.nodup_append.mpr ⟨h.nodup, List.nodup_singleton n, fun m hm k hk => ?_⟩
    obtain rfl := List.mem_singleton.mp hk
    rintro rfl
    obtain ⟨hlt, hF⟩ := h.own m hm
    rcases hal.source with ⟨rfl, _⟩ | ⟨_, _, rfl, _⟩
    · exact hF (List.mem_cons_self ..)
    · exact Nat.lt_irrefl _ hlt
  -- it is below the bound and off the free list
  · have hnew : n < r'.nodeFresh ∧ n ∉ F' := by
      rcases hal.source with ⟨rfl, hf⟩ | ⟨_, rfl, rfl, hf⟩
      · rw [hf]
        exact ⟨(h.lists.freeOk n (List.mem_cons_self ..)).1,
          (List.nodup_cons.mp h.lists.freeNodup).1⟩
      · rw [hf]
        exact ⟨Nat.lt_succ_self _, List.not_mem_nil⟩
    rcases List.mem_append.mp hm with hm | hm
    · obtain ⟨hlt, hF⟩ := h.own m hm
      rcases hal.source with ⟨rfl, hf⟩ | ⟨_, rfl, _, hf⟩
      · rw [hf]
        exact ⟨hlt, fun hm' => hF (List.mem_cons_of_mem _ hm')⟩
      · rw [hf]
        exact ⟨Nat.lt_succ_of_lt hlt, List.not_mem_nil⟩
    · rw [List.mem_singleton.mp hm]
      exact hnew
  -- no list of the others has changed
  · rw [← h.rest i]
    refine List.filter_congr fun m hm => ?_
    have hmn : m ≠ n := by
      rintro rfl
      exact hnL i hm
    simp [hmn]
  -- one node fewer is available, one more is held
  · rw [hlists.available_eq, List.length_append, List.length_singleton, ← hpool]
    have hbound := hlists.bound
    rcases hal.source with ⟨rfl, hf⟩ | ⟨rfl, rfl, _, hf⟩
    · rw [hf, List.length_cons]
      omega
    · rw [hf] at hbound ⊢
      rw [List.length_nil]
      omega
  · exact .of_slots (by rw [hal.slots])

/-- `node_register` links one of the wait's nodes. -/
theorem Borrowed.register (h : Borrowed r₀ L U r L' F ns) (hn : n ∈ ns) (hw : w ∈ ns)
    (hreg : (r.nodes n).registered = false) (hi : U i) :
    ∃ L'', Borrowed r₀ L U (r.nodeRegister n i w) L'' F ns := by
  have hlists := h.lists.register hreg (h.own n hn).1 (h.own n hn).2 (h.own w hw).1 hi
  obtain ⟨hfh, hfr⟩ := Region.nodeRegister_header (r := r) (n := n) (i := i) (w := w)
  refine ⟨_, hlists, h.nodup, fun m hm => ?_, fun j => ?_, ?_,
    h.same.trans fun j => Region.nodeRegister_slot r j n i w⟩
  · rw [hfr]
    exact h.own m hm
  · rw [← h.rest j]
    by_cases hj : j = i
    · subst hj
      rw [Function.update_self, List.filter_cons_of_neg (by simp [hn])]
    · rw [Function.update_of_ne hj]
  · rw [← h.pool, hlists.available_eq, h.lists.available_eq, hfr]

/-- `node_detach` unlinks one of the wait's nodes. -/
theorem Borrowed.detach (h : Borrowed r₀ L U r L' F ns) (hn : n ∈ ns)
    (hreg : (r.nodes n).registered = true) :
    ∃ L'', Borrowed r₀ L U (r.nodeDetach n) L'' F ns := by
  obtain ⟨i, hobj⟩ := h.lists.obj n hreg
  have hlists := h.lists.detach hreg hobj
  obtain ⟨hfh, hfr⟩ := Region.nodeDetach_header (r := r) (n := n)
  refine ⟨_, hlists, h.nodup, fun m hm => ?_, fun j => ?_, ?_,
    h.same.trans fun j => Region.nodeDetach_slot r j n⟩
  · rw [hfr]
    exact h.own m hm
  · rw [← h.rest j]
    by_cases hj : j = i
    · subst hj
      rw [Function.update_self, (h.lists.nodup j).erase_eq_filter, List.filter_filter]
      refine List.filter_congr fun m _ => ?_
      by_cases hm : m = n
      · subst hm
        simp [hn]
      · simp [hm]
    · rw [Function.update_of_ne hj]
  · rw [← h.pool, hlists.available_eq, h.lists.available_eq, hfr]

/-- `node_free` gives one of the wait's nodes back. -/
theorem Borrowed.free (h : Borrowed r₀ L U r L' F (n :: ns))
    (hreg : (r.nodes n).registered = false) :
    Borrowed r₀ L U (r.nodeFree n) L' (n :: F) ns := by
  obtain ⟨hlt, hF⟩ := h.own n (List.mem_cons_self ..)
  have hlists := h.lists.nodeFree hreg hlt hF
  obtain ⟨hns, hnd⟩ := List.nodup_cons.mp h.nodup
  refine ⟨hlists, hnd, fun m hm => ?_, fun i => ?_, ?_, h.same.trans fun i => .of_slots rfl⟩
  · obtain ⟨hlt', hF'⟩ := h.own m (List.mem_cons_of_mem _ hm)
    refine ⟨hlt', fun hm' => ?_⟩
    rcases List.mem_cons.mp hm' with rfl | hm'
    · exact hns hm
    · exact hF' hm'
  · rw [← h.rest i]
    refine List.filter_congr fun m hm => ?_
    have hmn : m ≠ n := by
      rintro rfl
      rw [((h.lists.mem i m).mp hm).1] at hreg
      cases hreg
    simp [hmn]
  · have hpool := h.pool
    rw [h.lists.available_eq, List.length_cons] at hpool
    rw [hlists.available_eq, List.length_cons, ← hpool]
    show F.length + 1 + (nodeCount - r.nodeFresh) + ns.length = _
    omega

end Borrow

/-! ### `try_satisfy` and the waiter lists -/

section Sat

variable {a : WaitArgs} {seqs : Nat → U64} {r r' q : Region} {p : Sat}
  {x : Option (Nat × Bool)}

/-- Only words have changed. -/
structure OnlyWords (r r' : Region) : Prop where
  nodes : r'.nodes = r.nodes
  nodeFreeHead : r'.nodeFreeHead = r.nodeFreeHead
  nodeFresh : r'.nodeFresh = r.nodeFresh
  slots : ∀ i, ∃ w, r'.slots i = { r.slots i with w0 := w }

/-- No store, no change. -/
theorem OnlyWords.refl (r : Region) : OnlyWords r r := ⟨rfl, rfl, rfl, fun _ => ⟨_, rfl⟩⟩

/-- Word stores add up to word stores. -/
theorem OnlyWords.trans {r₁ r₂ r₃ : Region} (h : OnlyWords r₁ r₂) (h' : OnlyWords r₂ r₃) :
    OnlyWords r₁ r₃ := by
  refine ⟨h'.nodes.trans h.nodes, h'.nodeFreeHead.trans h.nodeFreeHead,
    h'.nodeFresh.trans h.nodeFresh, fun i => ?_⟩
  obtain ⟨w, he⟩ := h.slots i
  obtain ⟨w', he'⟩ := h'.slots i
  exact ⟨w', by rw [he', he]⟩

/-- An attempt stores words only. -/
theorem OnlyWords.store (a : WaitArgs) (r : Region) (w : Option SatWrite) :
    OnlyWords r (SatWrite.store a r w) := by
  have hset (i : Nat) (new : U64) : OnlyWords r (r.storeWord i (some new)) := by
    refine ⟨rfl, rfl, rfl, fun m => ?_⟩
    rw [storeWord_slots]
    split
    · rename_i h
      exact ⟨new, by rw [h]; rfl⟩
    · exact ⟨_, rfl⟩
  cases w with
  | none => exact .refl r
  | some w =>
    cases w with
    | acquire k _ new => exact hset (a.slotOf k) new
    | rollback k new => exact hset (a.slotOf k) new

/-- `try_satisfy` changes only words. -/
theorem SatRuns.onlyWords (h : SatRuns a seqs r p r' x) : OnlyWords r r' := by
  induction h with
  | done _ => exact .store _ _ _
  | more _ _ ih => exact (OnlyWords.store _ _ _).trans ih

/-- Word stores leave the lists alone. -/
theorem OnlyWords.listsOk {L : Nat → List Nat} {F : List Nat} {U : Nat → Prop}
    (h : OnlyWords r r') (hl : ListsOk r L F U) : ListsOk r' L F U := by
  refine hl.congr (fun n => ?_) (fun i => ?_) h.nodeFreeHead h.nodeFresh
  · rw [h.nodes]
    exact .refl _
  · obtain ⟨w, he⟩ := h.slots i
    rw [he]

/-- Word stores leave the pool alone. -/
theorem OnlyWords.available (h : OnlyWords r r') : r'.available = r.available := by
  unfold Region.available
  rw [h.nodes, h.nodeFreeHead, h.nodeFresh]

/-- The same word store keeps two regions in agreement. -/
theorem SameObjects.storeWord (h : SameObjects r q) (i : Nat) (w : Option U64) :
    SameObjects (r.storeWord i w) (q.storeWord i w) := by
  intro m
  rw [SameButHead, storeWord_slots, storeWord_slots]
  obtain ⟨hd, he⟩ := h m
  split
  · rename_i hm
    subst hm
    exact ⟨hd, by rw [he]⟩
  · exact ⟨hd, he⟩

/-- So does the same store of an attempt. -/
theorem SameObjects.store (h : SameObjects r q) (a : WaitArgs) (w : Option SatWrite) :
    SameObjects (SatWrite.store a r w) (SatWrite.store a q w) := by
  cases w with
  | none => exact h
  | some w =>
    cases w with
    | acquire k _ new => exact h.storeWord (a.slotOf k) (some new)
    | rollback k new => exact h.storeWord (a.slotOf k) (some new)

/-- An attempt goes the same way on both regions. -/
theorem SameObjects.step_eq (h : SameObjects r q) : p.step q a seqs = p.step r a seqs := by
  have hacq (i : Nat) (s : Acq) (o : U32) (n : U64) :
      s.step (q.slots i) o n = s.step (r.slots i) o n := by
    obtain ⟨hd, he⟩ := h i
    rw [he]
    cases s <;> rfl
  have hundo (i : Nat) (s : Undo) (o : U32) (b : Bool) :
      s.step (q.slots i) o b = s.step (r.slots i) o b := by
    obtain ⟨hd, he⟩ := h i
    rw [he]
    cases s <;> rfl
  cases p with
  | any k s | all k acquired od s => simp only [Sat.step, hacq]
  | undo todo u =>
    cases todo with
    | nil => rfl
    | cons y rest => simp only [Sat.step, hundo]

/-- **`try_satisfy` does not see the waiter lists.** -/
theorem SatRuns.congr (h : SatRuns a seqs r p r' x) (hs : SameObjects r q) :
    ∃ q', SatRuns a seqs q p q' x ∧ SameObjects r' q' := by
  induction h generalizing q with
  | done hstep =>
    rw [← hs.step_eq] at hstep
    exact ⟨_, .done hstep, hs.store _ _⟩
  | more hstep _ ih =>
    rw [← hs.step_eq] at hstep
    obtain ⟨q', hrun, hs'⟩ := ih (hs.store _ _)
    exact ⟨q', .more hstep hrun, hs'⟩

/-- What the instruction of an attempt does to the memory. -/
theorem satInstr_apply (t : T) (pid : U32) (sh : Shared T) (w : Option SatWrite) :
    (satInstr a w).apply t pid sh = { sh with region := SatWrite.store a sh.region w } := by
  cases w with
  | none => rfl
  | some w => cases w <;> rfl

/-- A run of `try_satisfy` inside a call. -/
theorem SatRuns.alone {t : T} {pid : U32} {lock : Option T} {dead : U32 → Bool} (f : Sat → Pc)
    (pc : Pc) (h : SatRuns a seqs r p r' x)
    (hmore : ∀ r calls p p' w, p.step r a seqs = (w, .more p') →
      tick {} ⟨r, lock, dead⟩ pid calls (f p) = some (satInstr a w, f p'))
    (hdone : ∀ r calls p w, p.step r a seqs = (w, .done x) →
      tick {} ⟨r, lock, dead⟩ pid calls (f p) = some (satInstr a w, pc)) :
    Alone t pid ⟨r, lock, dead⟩ (f p) ⟨r', lock, dead⟩ pc := by
  have hcount (w : Option SatWrite) : satInstr a w ≠ .countCall := by
    cases w with
    | none => exact Instr.noConfusion
    | some w => cases w <;> exact Instr.noConfusion
  induction h with
  | done hstep =>
    refine .head (fun calls => hdone _ calls _ _ hstep) (hcount _) ?_
    rw [satInstr_apply]
    exact .refl
  | more hstep _ ih =>
    refine .head (fun calls => hmore _ calls _ _ _ hstep) (hcount _) ?_
    rw [satInstr_apply]
    exact ih hdone

end Sat

/-! ### What a poll does -/

/-- The objects a wait accepts. -/
def ObjType.waitable : ObjType → Bool
  | .sem | .mutex | .event => true
  | .unset | .reserved => false

/-- The handle leads to an object of an allowed type. -/
def Region.admits (r : Region) (ok : ObjType → Bool) (h : U32) : Prop :=
  ∃ j, r.slot h = some j ∧ ok (r.slots j).objType = true

/-- `obj_type == TYPE_EVENT`. -/
def ObjType.isEvent (ty : ObjType) : Bool := decide (ty = .event)

namespace WaitArgs

/-- Every handle leads to an object, and the alert to an event. -/
def Admitted (a : WaitArgs) (r : Region) : Prop :=
  (∀ i < a.handles.length, r.admits ObjType.waitable (a.handle i)) ∧
    (a.alert ≠ 0 → r.admits ObjType.isEvent a.alert)

/-- The wait has an alert, and the alert is signaled. -/
def Alerted (a : WaitArgs) (r : Region) : Prop :=
  a.alert ≠ 0 ∧ lo32 (r.slots (handleIndex a.alert)).w0 ≠ 0

/-- `entry_seqs`: the pulse counters of the events among the first `k` objects. -/
def snapshot (a : WaitArgs) (r : Region) (k i : Nat) : U64 :=
  if i < k ∧ (r.slots (a.slotOf i)).objType = .event then (r.slots (a.slotOf i)).d else 0

end WaitArgs

/-- What a wait with timeout zero returns, and the region it leaves if only the words are looked
    at. -/
inductive Polls (a : WaitArgs) (r : Region) : WaitOutcome → Region → Prop
  | rejected : a.valid = false ∨ ¬ a.Admitted r → Polls a r .invalid r
  | alerted : a.valid = true → a.Admitted r → a.Alerted r →
      Polls a r (.signaled a.handles.length false) r
  | satisfied {r' : Region} {i : Nat} {od : Bool} : a.valid = true → a.Admitted r →
      ¬ a.Alerted r →
      SatRuns a (a.snapshot r a.handles.length) r (.start a.all) r' (some (i, od)) →
      Polls a r (.signaled i od) r'
  | busy {r' : Region} : a.valid = true → a.Admitted r → ¬ a.Alerted r →
      SatRuns a (a.snapshot r a.handles.length) r (.start a.all) r' none →
      Polls a r .timeout r'

section Poll

variable {a : WaitArgs} {r : Region}

/-- A valid wait has a handle. -/
theorem WaitArgs.length_pos (hv : a.valid = true) : 0 < a.handles.length := by
  simp only [WaitArgs.valid, Bool.and_eq_true, decide_eq_true_eq] at hv
  exact List.length_pos_iff.mpr hv.1.1.2

/-- A handle that leads to an object names the slot's generation. -/
theorem Region.admits_iff {ok : ObjType → Bool} {h : U32} : r.admits ok h ↔
    (r.slots (handleIndex h)).state = .used ∧
      (r.slots (handleIndex h)).generation = handleGen h ∧
      ok (r.slots (handleIndex h)).objType = true := by
  constructor
  · rintro ⟨j, hj, hok⟩
    obtain ⟨rfl, hu, hg⟩ := Region.slot_eq_some.mp hj
    exact ⟨hu, hg, hok⟩
  · rintro ⟨hu, hg, hok⟩
    exact ⟨_, Region.slot_eq_some.mpr ⟨rfl, hu, hg⟩, hok⟩

/-- What is wrong with a wait that is not admitted. -/
theorem WaitArgs.not_admitted (h : ¬ a.Admitted r) :
    (∃ j < a.handles.length, ¬ r.admits ObjType.waitable (a.handle j)) ∨
      (∀ j < a.handles.length, r.admits ObjType.waitable (a.handle j)) ∧
        a.alert ≠ 0 ∧ ¬ r.admits ObjType.isEvent a.alert := by
  by_cases hall : ∀ j < a.handles.length, r.admits ObjType.waitable (a.handle j)
  · refine .inr ⟨hall, ?_⟩
    by_contra hcon
    exact h ⟨hall, fun h0 => by_contra fun hna => hcon ⟨h0, hna⟩⟩
  · push Not at hall
    exact .inl hall

/-- Handles that differ and lead to objects lead to different slots. -/
theorem WaitArgs.Admitted.distinct (h : a.Admitted r) (hv : a.valid = true) : a.Distinct := by
  simp only [WaitArgs.valid, Bool.and_eq_true, decide_eq_true_eq] at hv
  intro i hi j hj hij
  obtain ⟨-, hgi, -⟩ := Region.admits_iff.mp (h.1 i hi)
  obtain ⟨-, hgj, -⟩ := Region.admits_iff.mp (h.1 j hj)
  have hslot : handleIndex (a.handle i) = handleIndex (a.handle j) := hij
  have hgen : handleGen (a.handle i) = handleGen (a.handle j) := by
    rw [← hgi, ← hgj, hslot]
  have hh : a.handle i = a.handle j := handle_ext hslot hgen
  unfold WaitArgs.handle at hh
  rw [List.getD_eq_getElem _ _ hi, List.getD_eq_getElem _ _ hj] at hh
  exact (hv.2.getElem_inj_iff).mp hh

/-- A poll always has a result. -/
theorem polls_total (a : WaitArgs) (r : Region) : ∃ x r', Polls a r x r' := by
  by_cases hv : a.valid = true
  · by_cases had : a.Admitted r
    · by_cases hal : a.Alerted r
      · exact ⟨_, _, .alerted hv had hal⟩
      · have hrun : ∃ r' res,
            SatRuns a (a.snapshot r a.handles.length) r (.start a.all) r' res := by
          have hpos := WaitArgs.length_pos hv
          cases hall : a.all with
          | false =>
            obtain ⟨r', res, hrun, _⟩ := any_result a
              (a.snapshot r a.handles.length) r hpos
            exact ⟨r', res, hrun⟩
          | true =>
            obtain ⟨r', res, hrun, _⟩ := all_result (a := a)
              (a.snapshot r a.handles.length) r (had.distinct hv) hpos
            exact ⟨r', res, hrun⟩
        obtain ⟨r', res, hrun⟩ := hrun
        cases res with
        | none => exact ⟨_, _, .busy hv had hal hrun⟩
        | some y => exact ⟨_, _, .satisfied hv had hal hrun⟩
    · exact ⟨_, _, .rejected (.inr had)⟩
  · exact ⟨_, _, .rejected (.inl (Bool.eq_false_of_not_eq_true hv))⟩

end Poll

/-! ### The fast path -/

/-- The wait with the pulse counters of the events among its first `k` objects. -/
def WaitCtx.seen (c : WaitCtx) (r : Region) (k : Nat) : WaitCtx :=
  { c with seqs := fun i => if i < k ∧ (r.slots (c.slotOf i)).objType = .event
      then (r.slots (c.slotOf i)).d else c.seqs i }

/-- A wait before its first access. -/
def WaitArgs.begin (a : WaitArgs) (timeout : Timeout) : WaitCtx :=
  { a with timeout := timeout, seqs := fun _ => 0, nodes := [] }

section Fast

variable {t : T} {pid : U32} {sh : Shared T} {c : WaitCtx} {r : Region} {i : Nat}

@[simp] theorem WaitCtx.seen_zero (c : WaitCtx) (r : Region) : c.seen r 0 = c := by
  have hseqs : (c.seen r 0).seqs = c.seqs := by
    funext j
    simp [WaitCtx.seen]
  show ({ c with seqs := (c.seen r 0).seqs } : WaitCtx) = c
  rw [hseqs]

/-- One more object is seen: what its position now has in the snapshot. -/
theorem WaitCtx.seen_succ {d : U64} (hd : d = if (r.slots (c.slotOf i)).objType = .event
    then (r.slots (c.slotOf i)).d else c.seqs i) :
    (c.seen r i).setSeq i d = c.seen r (i + 1) := by
  have hseqs : Function.update (c.seen r i).seqs i d = (c.seen r (i + 1)).seqs := by
    funext j
    show _ = if j < i + 1 ∧ _ then _ else _
    by_cases hj : j = i
    · subst hj
      rw [Function.update_self, hd]
      simp
    · rw [Function.update_of_ne hj]
      have hiff : j < i ↔ j < i + 1 := by omega
      simp only [WaitCtx.seen, hiff]
  show ({ c with seqs := _ } : WaitCtx) = { c with seqs := _ }
  exact congrArg (fun f => ({ c with seqs := f } : WaitCtx)) hseqs

/-- An object that is no event leaves the snapshot alone. -/
theorem WaitCtx.seen_skip (hty : (r.slots (c.slotOf i)).objType ≠ .event) :
    c.seen r i = c.seen r (i + 1) := by
  rw [← WaitCtx.seen_succ (d := c.seqs i) (by rw [if_neg hty])]
  have hz : (c.seen r i).seqs i = c.seqs i := if_neg fun h => Nat.lt_irrefl i h.1
  show c.seen r i = { c.seen r i with seqs := Function.update (c.seen r i).seqs i (c.seqs i) }
  rw [← hz, Function.update_eq_self]

/-- A step on local state. -/
theorem Alone.silent {pc q pc' : Pc} {sh' : Shared T}
    (ht : ∀ calls, tick {} sh pid calls pc = some (.silent, q))
    (h : Alone t pid sh q sh' pc') : Alone t pid sh pc sh' pc' :=
  .head ht (by simp) h

/-- The fast path finds an object behind `handles[i]`. -/
theorem Alone.look_ok (hz : ∀ i, c.seqs i = 0)
    (hok : sh.region.admits ObjType.waitable (c.handle i)) :
    Alone t pid sh (.wait (c.seen sh.region i) (.fast (.look i .state))) sh
      (.wait (c.seen sh.region (i + 1)) (c.fastNext i)) := by
  obtain ⟨hu, hg, hty⟩ := Region.admits_iff.mp hok
  refine .silent (q := .wait (c.seen sh.region i) (.fast (.look i .gen))) (fun _ => ?_)
    (.silent (q := .wait (c.seen sh.region i) (.fast (.look i .typ))) (fun _ => ?_) ?_)
  · show fastTick sh (c.seen sh.region i) (.look i .state) = _
    exact if_pos hu
  · show fastTick sh (c.seen sh.region i) (.look i .gen) = _
    exact if_pos hg
  by_cases hev : (sh.region.slots (c.slotOf i)).objType = .event
  · refine .silent (q := .wait (c.seen sh.region i) (.fast (.seq i))) (fun _ => ?_)
      (.silent (fun _ => ?_) .refl)
    · show fastTick sh (c.seen sh.region i) (.look i .typ) = _
      simp only [fastTick, show (c.seen sh.region i).slotOf i = c.slotOf i from rfl, hev]
      rfl
    · show some (Instr.silent, Pc.wait _ (c.fastNext i)) = _
      rw [← WaitCtx.seen_succ (by rw [if_pos hev])]
      rfl
  · refine .silent (fun _ => ?_) .refl
    show fastTick sh (c.seen sh.region i) (.look i .typ) = _
    rw [← WaitCtx.seen_succ (d := 0) (by rw [if_neg hev, hz])]
    have hslot : (c.seen sh.region i).slotOf i = c.slotOf i := rfl
    change ObjType.waitable (sh.region.slots (c.slotOf i)).objType = true at hty
    simp only [fastTick, hslot]
    cases htyp : (sh.region.slots (c.slotOf i)).objType with
    | sem | mutex => rfl
    | event => exact absurd htyp hev
    | unset | reserved =>
      rw [htyp] at hty
      cases hty

/-- The fast path finds no object behind `handles[i]`. -/
theorem Alone.look_fail (hno : ¬ sh.region.admits ObjType.waitable (c.handle i)) :
    Alone t pid sh (.wait c (.fast (.look i .state))) sh (.wait c (.pass .lock)) := by
  rw [Region.admits_iff] at hno
  by_cases hu : (sh.region.slots (c.slotOf i)).state = .used
  · refine .silent (q := .wait c (.fast (.look i .gen))) (fun _ => ?_) ?_
    · show fastTick sh c (.look i .state) = _
      exact if_pos hu
    by_cases hg : (sh.region.slots (c.slotOf i)).generation = handleGen (c.handle i)
    · refine .silent (q := .wait c (.fast (.look i .typ))) (fun _ => ?_)
        (.silent (fun _ => ?_) .refl)
      · show fastTick sh c (.look i .gen) = _
        exact if_pos hg
      · show fastTick sh c (.look i .typ) = _
        have hty : ¬ ObjType.waitable (sh.region.slots (c.slotOf i)).objType = true :=
          fun h => hno ⟨hu, hg, h⟩
        simp only [fastTick]
        cases htyp : (sh.region.slots (c.slotOf i)).objType with
        | sem | mutex | event =>
          rw [htyp] at hty
          exact absurd rfl hty
        | unset | reserved => rfl
    · refine .silent (fun _ => ?_) .refl
      show fastTick sh c (.look i .gen) = _
      exact if_neg hg
  · refine .silent (fun _ => ?_) .refl
    show fastTick sh c (.look i .state) = _
    exact if_neg hu

/-- The program counter after the last handle. -/
def WaitCtx.lookedUp (c : WaitCtx) : WaitPc :=
  if c.alert ≠ 0 then .fast (.alert .state) else .fast (.sat (.start c.all))

/-- The fast path over the handles from position `i` on. -/
theorem Alone.look_all (hz : ∀ i, c.seqs i = 0) (hi : i < c.handles.length)
    (hok : ∀ j, i ≤ j → j < c.handles.length → sh.region.admits ObjType.waitable (c.handle j)) :
    Alone t pid sh (.wait (c.seen sh.region i) (.fast (.look i .state))) sh
      (.wait (c.seen sh.region c.handles.length) c.lookedUp) := by
  -- by induction on the handles that are left
  induction hm : c.handles.length - i generalizing i with
  | zero => omega
  | succ m ih =>
    refine (Alone.look_ok hz (hok i (le_refl _) hi)).trans ?_
    by_cases hnext : i + 1 < c.handles.length
    · rw [WaitCtx.fastNext, if_pos hnext]
      exact ih hnext (fun j h₁ h₂ => hok j (by omega) h₂) (by omega)
    · rw [WaitCtx.fastNext, if_neg hnext, show i + 1 = c.handles.length by omega]
      exact .refl

/-- A handle that leads nowhere sends the call to the locked pass. -/
theorem Alone.look_none (hz : ∀ i, c.seqs i = 0) (hi : i < c.handles.length)
    (hno : ∃ j, i ≤ j ∧ j < c.handles.length ∧
      ¬ sh.region.admits ObjType.waitable (c.handle j)) :
    ∃ k, Alone t pid sh (.wait (c.seen sh.region i) (.fast (.look i .state))) sh
      (.wait (c.seen sh.region k) (.pass .lock)) := by
  induction hm : c.handles.length - i generalizing i with
  | zero => omega
  | succ m ih =>
    by_cases hok : sh.region.admits ObjType.waitable (c.handle i)
    · obtain ⟨j, hij, hj, hnoj⟩ := hno
      have hne : j ≠ i := by
        rintro rfl
        exact hnoj hok
      have hnext : i + 1 < c.handles.length := by omega
      obtain ⟨k, hrest⟩ := ih hnext ⟨j, by omega, hj, hnoj⟩ (by omega)
      refine ⟨k, (Alone.look_ok hz hok).trans ?_⟩
      rw [WaitCtx.fastNext, if_pos hnext]
      exact hrest
    · exact ⟨i, Alone.look_fail (c := c.seen sh.region i) hok⟩

/-- The fast path finds an event behind the alert handle, and tests it. -/
theorem Alone.alert_ok (hok : sh.region.admits ObjType.isEvent c.alert) :
    Alone t pid sh (.wait c (.fast (.alert .state))) sh
      (if lo32 (sh.region.slots (handleIndex c.alert)).w0 ≠ 0 then c.ret c.alerted
        else .wait c (.fast (.sat (.start c.all)))) := by
  obtain ⟨hu, hg, hty⟩ := Region.admits_iff.mp hok
  have hev : (sh.region.slots (handleIndex c.alert)).objType = .event := of_decide_eq_true hty
  refine .silent (q := .wait c (.fast (.alert .gen))) (fun _ => ?_)
    (.silent (q := .wait c (.fast (.alert .typ))) (fun _ => ?_)
    (.silent (q := .wait c (.fast .unwrapState)) (fun _ => ?_)
    (.silent (q := .wait c (.fast .unwrapGen)) (fun _ => ?_)
    (.silent (q := .wait c (.fast .word)) (fun _ => ?_) (.silent (fun _ => ?_) .refl)))))
  · show fastTick sh c (.alert .state) = _
    exact if_pos hu
  · show fastTick sh c (.alert .gen) = _
    exact if_pos hg
  · show fastTick sh c (.alert .typ) = _
    exact if_pos hev
  · show fastTick sh c .unwrapState = _
    exact if_pos hu
  · show fastTick sh c .unwrapGen = _
    exact if_pos hg
  · show fastTick sh c .word = _
    simp only [fastTick]
    split <;> rfl

/-- The fast path answers at once when the alert is signaled. -/
theorem Alone.alert_signaled (hok : sh.region.admits ObjType.isEvent c.alert)
    (hw : lo32 (sh.region.slots (handleIndex c.alert)).w0 ≠ 0) :
    Alone t pid sh (.wait c (.fast (.alert .state))) sh (c.ret c.alerted) := by
  have h : Alone t pid sh _ _ _ := Alone.alert_ok hok
  rwa [if_pos hw] at h

/-- It tries the objects when the alert is clear. -/
theorem Alone.alert_clear (hok : sh.region.admits ObjType.isEvent c.alert)
    (hw : ¬ lo32 (sh.region.slots (handleIndex c.alert)).w0 ≠ 0) :
    Alone t pid sh (.wait c (.fast (.alert .state))) sh
      (.wait c (.fast (.sat (.start c.all)))) := by
  have h : Alone t pid sh _ _ _ := Alone.alert_ok hok
  rwa [if_neg hw] at h

/-- An alert handle that leads to no event sends the call to the locked pass. -/
theorem Alone.alert_fail (hno : ¬ sh.region.admits ObjType.isEvent c.alert) :
    Alone t pid sh (.wait c (.fast (.alert .state))) sh (.wait c (.pass .lock)) := by
  rw [Region.admits_iff] at hno
  by_cases hu : (sh.region.slots (handleIndex c.alert)).state = .used
  · refine .silent (q := .wait c (.fast (.alert .gen))) (fun _ => ?_) ?_
    · show fastTick sh c (.alert .state) = _
      exact if_pos hu
    by_cases hg : (sh.region.slots (handleIndex c.alert)).generation = handleGen c.alert
    · refine .silent (q := .wait c (.fast (.alert .typ))) (fun _ => ?_)
        (.silent (fun _ => ?_) .refl)
      · show fastTick sh c (.alert .gen) = _
        exact if_pos hg
      · show fastTick sh c (.alert .typ) = _
        exact if_neg fun hty => hno ⟨hu, hg, decide_eq_true hty⟩
    · refine .silent (fun _ => ?_) .refl
      show fastTick sh c (.alert .gen) = _
      exact if_neg hg
  · refine .silent (fun _ => ?_) .refl
    show fastTick sh c (.alert .state) = _
    exact if_neg hu

end Fast

/-! ### The locked pass -/

/-- `wait` with the fast-path block taken out. -/
def Pc.startLocked (a : WaitArgs) (timeout : Timeout) : Pc :=
  if a.valid then .wait (a.begin timeout) (.pass .lock)
  else .done (.wait a timeout) (.wait .invalid)

section Locked

variable {t : T} {pid : U32} {c : WaitCtx} {r₀ r : Region} {L L' : Nat → List Nat}
  {F : List Nat} {U : Nat → Prop} {dead : U32 → Bool} {sh : Shared T} {i : Nat}

/-- The locked pass finds an object behind `handles[i]`; the first pass takes its snapshot. -/
theorem Alone.validate_ok (hn : c.nodes = [])
    (hok : sh.region.admits ObjType.waitable (c.handle i)) :
    Alone t pid sh (.wait (c.seen sh.region i) (.pass (.validate i))) sh
      (.wait (c.seen sh.region (i + 1)) (c.validateNext i)) := by
  refine .silent (fun _ => ?_) .refl
  show passTick {} sh pid (c.seen sh.region i) (.validate i) = _
  obtain ⟨j, hj, hty⟩ := hok
  obtain ⟨rfl, -, -⟩ := Region.slot_eq_some.mp hj
  have hslot : sh.region.slot ((c.seen sh.region i).handle i) =
      some (handleIndex (c.handle i)) := hj
  have hnodes : (c.seen sh.region i).nodes = [] := hn
  simp only [passTick, hslot]
  have htype : (sh.region.slots (c.slotOf i)).objType =
      (sh.region.slots (handleIndex (c.handle i))).objType := rfl
  cases htyp : (sh.region.slots (handleIndex (c.handle i))).objType with
  | event =>
    rw [← WaitCtx.seen_succ (by rw [if_pos (htype.trans htyp)]), if_pos hnodes]
    rfl
  | sem | mutex =>
    rw [← WaitCtx.seen_skip (by rw [htype, htyp]; exact ObjType.noConfusion)]
    rfl
  | unset | reserved =>
    rw [htyp] at hty
    cases hty

/-- The locked pass finds nothing behind `handles[i]`. -/
theorem Alone.validate_fail (hno : ¬ sh.region.admits ObjType.waitable (c.handle i)) :
    Alone t pid sh (.wait c (.pass (.validate i))) sh
      (.wait c (.clean .invalid (.detach c.nodes))) := by
  refine .silent (fun _ => ?_) .refl
  show passTick {} sh pid c (.validate i) = _
  cases hj : sh.region.slot (c.handle i) with
  | none => simp only [passTick, hj, WaitCtx.goto]
  | some j =>
    have hty : ¬ ObjType.waitable (sh.region.slots j).objType = true := fun h => hno ⟨j, hj, h⟩
    simp only [passTick, hj]
    cases htyp : (sh.region.slots j).objType with
    | sem | mutex | event =>
      rw [htyp] at hty
      exact absurd rfl hty
    | unset | reserved => rfl

/-- The program counter after the last handle was validated, on the first pass. -/
def WaitCtx.validated (c : WaitCtx) : WaitPc :=
  if c.alert ≠ 0 then .pass .validateAlert else .pass .alloc

/-- The locked pass validates the handles one after another. -/
theorem Alone.validate_all (hn : c.nodes = []) (hi : i < c.handles.length)
    (hok : ∀ j, i ≤ j → j < c.handles.length → sh.region.admits ObjType.waitable (c.handle j)) :
    Alone t pid sh (.wait (c.seen sh.region i) (.pass (.validate i))) sh
      (.wait (c.seen sh.region c.handles.length) c.validated) := by
  induction hm : c.handles.length - i generalizing i with
  | zero => omega
  | succ m ih =>
    refine (Alone.validate_ok hn (hok i (le_refl _) hi)).trans ?_
    by_cases hnext : i + 1 < c.handles.length
    · rw [WaitCtx.validateNext, if_pos hnext]
      exact ih hnext (fun j h₁ h₂ => hok j (by omega) h₂) (by omega)
    · rw [WaitCtx.validateNext, if_neg hnext, show i + 1 = c.handles.length by omega,
        WaitCtx.afterAlert, if_pos hn]
      exact .refl

/-- One handle that leads nowhere ends the wait, whatever was snapshot before. -/
theorem Alone.validate_none (hn : c.nodes = []) (hi : i < c.handles.length)
    (hno : ∃ j, i ≤ j ∧ j < c.handles.length ∧
      ¬ sh.region.admits ObjType.waitable (c.handle j)) :
    ∃ k, Alone t pid sh (.wait (c.seen sh.region i) (.pass (.validate i))) sh
      (.wait (c.seen sh.region k) (.clean .invalid (.detach []))) := by
  induction hm : c.handles.length - i generalizing i with
  | zero => omega
  | succ m ih =>
    by_cases hok : sh.region.admits ObjType.waitable (c.handle i)
    · obtain ⟨j, hij, hj, hnoj⟩ := hno
      have hne : j ≠ i := by
        rintro rfl
        exact hnoj hok
      have hnext : i + 1 < c.handles.length := by omega
      obtain ⟨k, hrest⟩ := ih hnext ⟨j, by omega, hj, hnoj⟩ (by omega)
      refine ⟨k, (Alone.validate_ok hn hok).trans ?_⟩
      rw [WaitCtx.validateNext, if_pos hnext]
      exact hrest
    · refine ⟨i, ?_⟩
      have hfail : Alone t pid sh _ _ _ := Alone.validate_fail (c := c.seen sh.region i) hok
      rw [show (c.seen sh.region i).nodes = [] from hn] at hfail
      exact hfail

/-- The locked pass over the alert: validated, then tested. -/
theorem Alone.validateAlert_ok (hn : c.nodes = [])
    (hok : sh.region.admits ObjType.isEvent c.alert) :
    Alone t pid sh (.wait c (.pass .validateAlert)) sh
      (.wait c (if lo32 (sh.region.slots (handleIndex c.alert)).w0 ≠ 0
        then .clean c.alerted (.detach []) else .pass .alloc)) := by
  obtain ⟨j, hj, hty⟩ := hok
  obtain ⟨rfl, -, -⟩ := Region.slot_eq_some.mp hj
  have hev : (sh.region.slots (handleIndex c.alert)).objType = .event := of_decide_eq_true hty
  refine .silent (q := .wait c (.pass .alertTest)) (fun _ => ?_) (.silent (fun _ => ?_) .refl)
  · show passTick {} sh pid c .validateAlert = _
    simp only [passTick, hj, if_pos hev, WaitCtx.goto]
  · show passTick {} sh pid c .alertTest = _
    simp only [passTick, hj, WaitCtx.afterAlert, WaitCtx.goto, hn]
    split <;> rfl

/-- The locked pass answers at once when the alert is signaled. -/
theorem Alone.validateAlert_signaled (hn : c.nodes = [])
    (hok : sh.region.admits ObjType.isEvent c.alert)
    (hw : lo32 (sh.region.slots (handleIndex c.alert)).w0 ≠ 0) :
    Alone t pid sh (.wait c (.pass .validateAlert)) sh
      (.wait c (.clean c.alerted (.detach []))) := by
  have h : Alone t pid sh _ _ _ := Alone.validateAlert_ok hn hok
  rwa [if_pos hw] at h

/-- It goes on to its nodes when the alert is clear. -/
theorem Alone.validateAlert_clear (hn : c.nodes = [])
    (hok : sh.region.admits ObjType.isEvent c.alert)
    (hw : ¬ lo32 (sh.region.slots (handleIndex c.alert)).w0 ≠ 0) :
    Alone t pid sh (.wait c (.pass .validateAlert)) sh (.wait c (.pass .alloc)) := by
  have h : Alone t pid sh _ _ _ := Alone.validateAlert_ok hn hok
  rwa [if_neg hw] at h

/-- It answers `Invalid` when the alert is no event any more. -/
theorem Alone.validateAlert_fail (hno : ¬ sh.region.admits ObjType.isEvent c.alert) :
    Alone t pid sh (.wait c (.pass .validateAlert)) sh
      (.wait c (.clean .invalid (.detach c.nodes))) := by
  refine .silent (fun _ => ?_) .refl
  show passTick {} sh pid c .validateAlert = _
  cases hj : sh.region.slot c.alert with
  | none => simp only [passTick, hj, WaitCtx.goto]
  | some j =>
    have hty : (sh.region.slots j).objType ≠ .event :=
      fun h => hno ⟨j, hj, decide_eq_true h⟩
    simp only [passTick, hj, if_neg hty, WaitCtx.goto]

/-! #### Nodes: allocate, register, detach, free -/

variable (t pid dead) in
/-- The pool has enough nodes, so the wait gets all of its nodes. -/
theorem Alone.allocAll (h : Borrowed r₀ L U r L' F c.nodes) (hlt : c.nodes.length < c.nNodes)
    (hav : c.nNodes ≤ r₀.available) :
    ∃ ns r' F', ns.length = c.nNodes ∧ Borrowed r₀ L U r' L' F' ns ∧
      Alone t pid ⟨r, some t, dead⟩ (.wait c (.pass .alloc)) ⟨r', some t, dead⟩
        (.wait { c with nodes := ns } (.pass (.register 0))) := by
  -- by induction on the nodes that are missing
  induction hm : c.nNodes - c.nodes.length generalizing c r F with
  | zero => omega
  | succ m ih =>
    have hpool := h.pool
    obtain ⟨n, r₁, ha⟩ := h.lists.exists_alloc pid (by omega)
    obtain ⟨F₁, h₁⟩ := h.alloc ha
    have hlen : (c.nodes ++ [n]).length = c.nodes.length + 1 := by simp
    have hstep (pc : Pc) (hpc : pc = .wait { c with nodes := c.nodes ++ [n] }
        (.pass (if (c.nodes ++ [n]).length < c.nNodes then .alloc else .register 0))) :
        ∀ calls, tick {} ⟨r, some t, dead⟩ pid calls (.wait c (.pass .alloc)) =
          some (.allocNode, pc) := by
      intro _
      show passTick {} ⟨r, some t, dead⟩ pid c .alloc = _
      simp only [passTick, ha, hpc]
      rfl
    have happly : Instr.allocNode.apply t pid (⟨r, some t, dead⟩ : Shared T) =
        ⟨r₁, some t, dead⟩ := by
      simp only [Instr.apply, ha]
    by_cases hnext : (c.nodes ++ [n]).length < c.nNodes
    · obtain ⟨ns, r', F', hns, hb, hrun⟩ := ih (c := { c with nodes := c.nodes ++ [n] }) h₁ hnext
        hav (by show c.nNodes - (c.nodes ++ [n]).length = m; omega)
      refine ⟨ns, r', F', hns, hb, .head (hstep _ (by rw [if_pos hnext])) (by simp) ?_⟩
      rw [happly]
      exact hrun
    · refine ⟨c.nodes ++ [n], r₁, F₁, by omega, h₁,
        .head (hstep _ (by rw [if_neg hnext])) (by simp) ?_⟩
      rw [happly]
      exact .refl

variable (t pid dead) in
/-- Every node is on the list of its object, before the attempt. -/
theorem Alone.registerAll {k : Nat} (h : Borrowed r₀ L U r L' F c.nodes)
    (hlen : c.nodes.length = c.nNodes) (hk : k < c.nNodes) (hU : ∀ k < c.nNodes, U (c.target k)) :
    ∃ r' L'', Borrowed r₀ L U r' L'' F c.nodes ∧
      Alone t pid ⟨r, some t, dead⟩ (.wait c (.pass (.register k))) ⟨r', some t, dead⟩
        (.wait c (.pass (.sat (.start c.all)))) := by
  induction hm : c.nNodes - k generalizing k r L' with
  | zero => omega
  | succ m ih =>
    -- one node, then the rest
    obtain ⟨ins, r₁, L₁, h₁, happly, hne, hstep⟩ : ∃ ins r₁ L₁, Borrowed r₀ L U r₁ L₁ F c.nodes ∧
        ins.apply t pid (⟨r, some t, dead⟩ : Shared T) = ⟨r₁, some t, dead⟩ ∧ ins ≠ .countCall ∧
        ∀ calls, tick {} ⟨r, some t, dead⟩ pid calls (.wait c (.pass (.register k))) =
          some (ins, .wait c (.pass (if k + 1 < c.nNodes then .register (k + 1)
            else .sat (.start c.all)))) := by
      cases hreg : (r.nodes (c.node k)).registered with
      | true =>
        refine ⟨.silent, r, L', h, rfl, by simp, fun _ => ?_⟩
        show passTick {} ⟨r, some t, dead⟩ pid c (.register k) = _
        simp only [passTick, hreg, if_true]
      | false =>
        obtain ⟨L₁, h₁⟩ := h.register (WaitCtx.node_mem (hlen ▸ hk))
          (WaitCtx.node_mem (hlen ▸ Nat.zero_lt_of_lt hk)) hreg (hU k hk)
        refine ⟨.register (c.node k) (c.target k) (c.node 0), _, L₁, h₁, rfl, by simp,
          fun _ => ?_⟩
        show passTick {} ⟨r, some t, dead⟩ pid c (.register k) = _
        simp only [passTick, hreg, Bool.false_eq_true, if_false]
    by_cases hnext : k + 1 < c.nNodes
    · obtain ⟨r', L'', hb, hrun⟩ := ih h₁ hnext (by omega)
      refine ⟨r', L'', hb, .head hstep hne ?_⟩
      rw [happly, if_pos hnext]
      exact hrun
    · refine ⟨r₁, L₁, h₁, .head hstep hne ?_⟩
      rw [happly, if_neg hnext]
      exact .refl

variable (t pid dead) in
/-- The detaching half of `waiter_cleanup`. -/
theorem Alone.detachAll (out : WaitOutcome) {todo : List Nat}
    (h : Borrowed r₀ L U r L' F c.nodes) (hsub : ∀ n ∈ todo, n ∈ c.nodes)
    (hdone : ∀ n ∈ c.nodes, n ∈ todo ∨ (r.nodes n).registered = false) :
    ∃ r' L'', Borrowed r₀ L U r' L'' F c.nodes ∧
      (∀ n ∈ c.nodes, (r'.nodes n).registered = false) ∧
      Alone t pid ⟨r, some t, dead⟩ (.wait c (.clean out (.detach todo))) ⟨r', some t, dead⟩
        (.wait c (.clean out (.detach []))) := by
  induction todo generalizing r L' with
  | nil =>
    refine ⟨r, L', h, fun n hn => ?_, .refl⟩
    rcases hdone n hn with hn | hn
    · cases hn
    · exact hn
  | cons m todo ih =>
    cases hreg : (r.nodes m).registered with
    | false =>
      obtain ⟨r', L'', hb, hun, hrun⟩ := ih h (fun n hn => hsub n (List.mem_cons_of_mem _ hn))
        fun n hn => by
          rcases hdone n hn with hn | hn
          · rcases List.mem_cons.mp hn with rfl | hn
            · exact .inr hreg
            · exact .inl hn
          · exact .inr hn
      refine ⟨r', L'', hb, hun, .silent (fun _ => ?_) hrun⟩
      show some (detachInstr _ m, _) = _
      rw [detachInstr, if_neg (by rw [hreg]; exact Bool.false_ne_true)]
    | true =>
      obtain ⟨L₁, h₁⟩ := h.detach (hsub m (List.mem_cons_self ..)) hreg
      obtain ⟨r', L'', hb, hun, hrun⟩ := ih h₁ (fun n hn => hsub n (List.mem_cons_of_mem _ hn))
        fun n hn => by
          by_cases hnm : n = m
          · subst hnm
            exact .inr Region.nodeDetach_self.1
          · rw [(Region.nodeDetach_other hnm).1]
            rcases hdone n hn with hn | hn
            · exact .inl ((List.mem_cons.mp hn).resolve_left hnm)
            · exact .inr hn
      refine ⟨r', L'', hb, hun, .head (i := .detach m) (fun _ => ?_) (by simp) hrun⟩
      show some (detachInstr _ m, _) = _
      rw [detachInstr, if_pos hreg]

variable (t pid c dead) in
/-- The freeing half of `waiter_cleanup`. -/
theorem Alone.freeAll (out : WaitOutcome) {todo : List Nat} (h : Borrowed r₀ L U r L' F todo)
    (hun : ∀ n ∈ todo, (r.nodes n).registered = false) :
    ∃ r' F', Borrowed r₀ L U r' L' F' [] ∧
      Alone t pid ⟨r, some t, dead⟩ (.wait c (.clean out (.free todo))) ⟨r', some t, dead⟩
        (.wait c (.clean out (.free []))) := by
  induction todo generalizing r F with
  | nil => exact ⟨r, F, h, .refl⟩
  | cons m todo ih =>
    have h₁ := h.free (hun m (List.mem_cons_self ..))
    obtain ⟨r', F', hb, hrun⟩ := ih h₁ fun n hn => by
      show ((r.setNode m fun x => { x with waiterNext := r.nodeFreeHead }).nodes n).registered = _
      rw [Region.setNode_nodes]
      split
      · exact hun m (List.mem_cons_self ..)
      · exact hun n (List.mem_cons_of_mem _ hn)
    exact ⟨r', F', hb, .head (fun _ => rfl) (by simp) hrun⟩

variable (t pid c dead) in
/-- **`waiter_cleanup`** gives everything back. -/
theorem Alone.cleanup (out : WaitOutcome) (h : Borrowed r₀ L U r L' F c.nodes) :
    ∃ r' L'' F', Borrowed r₀ L U r' L'' F' [] ∧
      Alone t pid ⟨r, some t, dead⟩ (.wait c (.clean out (.detach c.nodes))) ⟨r', none, dead⟩
        (c.ret out) := by
  obtain ⟨r₁, L₁, h₁, hun, hdet⟩ := Alone.detachAll t pid dead out h
    (fun n hn => hn) fun n hn => .inl hn
  obtain ⟨r₂, F₂, h₂, hfree⟩ := Alone.freeAll t pid c dead out h₁ hun
  refine ⟨r₂, L₁, F₂, h₂, hdet.trans (Alone.silent (fun _ => rfl) (hfree.trans ?_))⟩
  exact Alone.silent (fun _ => rfl) (.head (i := .unlock) (fun _ => rfl) (by simp) .refl)

end Locked

/-! ### Both paths -/

section Agree

variable {t : T} {pid : U32} {r r₁ : Region} {L L' : Nat → List Nat} {F : List Nat}
  {U : Nat → Prop} {dead : U32 → Bool} {a : WaitArgs} {c : WaitCtx} {x : WaitOutcome}

/-- An attempt on a region with the wait's nodes linked in. -/
theorem Borrowed.sat {seqs : Nat → U64} {p : Sat} {res : Option (Nat × Bool)} {r' : Region}
    {ns : List Nat} (h : Borrowed r L U r' L' F ns) (hrun : SatRuns a seqs r p r₁ res) :
    ∃ r'', SatRuns a seqs r' p r'' res ∧ Borrowed r₁ L U r'' L' F ns := by
  obtain ⟨r'', hrun', hsame⟩ := hrun.congr h.same
  have hw := hrun'.onlyWords
  refine ⟨r'', hrun', hw.listsOk h.lists, h.nodup, fun n hn => ?_, h.rest, ?_, hsame⟩
  · rw [hw.nodeFresh]
    exact h.own n hn
  · rw [hw.available, hrun.onlyWords.available]
    exact h.pool

/-- The outcome of a poll's attempt. -/
def WaitOutcome.ofAttempt : Option (Nat × Bool) → WaitOutcome
  | some (i, od) => .signaled i od
  | none => .timeout

variable (t pid dead) in
/-- **The fast path does what a poll does**, unless the wait is to be rejected. -/
theorem Alone.fast_attempt {res : Option (Nat × Bool)} (hz : c.timeout = .zero)
    (h : SatRuns c.toWaitArgs c.seqs r (.start c.all) r₁ res) :
    Alone t pid ⟨r, none, dead⟩ (.wait c (.fast (.sat (.start c.all)))) ⟨r₁, none, dead⟩
      (c.ret (.ofAttempt res)) := by
  refine h.alone (fun p => .wait c (.fast (.sat p))) _ (fun r' _ p p' w hs => ?_)
    fun r' _ p w hs => ?_
  · show fastTick ⟨r', none, dead⟩ c (.sat p) = _
    simp only [fastTick, hs]
  · show fastTick ⟨r', none, dead⟩ c (.sat p) = _
    cases res with
    | none => simp only [fastTick, hs, if_pos hz, WaitOutcome.ofAttempt]
    | some y => simp only [fastTick, hs, WaitOutcome.ofAttempt]

variable (t pid dead c) in
/-- A wait with a handle or an alert that leads nowhere, from the locked pass on. -/
theorem Alone.locked_rejected (hl : ListsOk r L F U) (hn : c.nodes = [])
    (hpos : 0 < c.handles.length) (hno : ¬ c.Admitted r) :
    ∃ r₂ L₂ F₂, Borrowed r L U r₂ L₂ F₂ [] ∧
      Alone t pid ⟨r, none, dead⟩ (.wait c (.pass .lock)) ⟨r₂, none, dead⟩ (c.ret .invalid) := by
  -- up to the cleanup, and the cleanup of no nodes
  suffices h : ∃ k, Alone t pid ⟨r, some t, dead⟩ (.wait (c.seen r 0) (.pass (.validate 0)))
      ⟨r, some t, dead⟩ (.wait (c.seen r k) (.clean .invalid (.detach []))) by
    obtain ⟨k, hrun⟩ := h
    rw [WaitCtx.seen_zero] at hrun
    obtain ⟨r₂, L₂, F₂, hb, hclean⟩ := Alone.cleanup t pid (c.seen r k) dead .invalid
      (show Borrowed r L U r L F (c.seen r k).nodes by
        rw [show (c.seen r k).nodes = [] from hn]
        exact .start hl)
    rw [show (c.seen r k).nodes = [] from hn] at hclean
    exact ⟨r₂, L₂, F₂, hb, .head (i := .lock) (fun _ => rfl) (by simp) (hrun.trans hclean)⟩
  rcases WaitArgs.not_admitted hno with ⟨j, hj, hnoj⟩ | ⟨hall, h0, hna⟩
  · exact Alone.validate_none hn hpos ⟨j, Nat.zero_le j, hj, hnoj⟩
  · have hrun : Alone t pid ⟨r, some t, dead⟩ (.wait (c.seen r 0) _) _ _ :=
      Alone.validate_all hn hpos fun j _ hj => hall j hj
    rw [show c.validated = .pass .validateAlert from if_pos h0] at hrun
    have hfail : Alone t pid ⟨r, some t, dead⟩ _ _ _ :=
      Alone.validateAlert_fail (c := c.seen r c.handles.length) hna
    rw [show (c.seen r c.handles.length).nodes = [] from hn] at hfail
    exact ⟨_, hrun.trans hfail⟩

variable (t pid dead) in
/-- A wait that is admitted and not alerted, from the allocation of its nodes on. -/
theorem Alone.locked_attempt {res : Option (Nat × Bool)} (hl : ListsOk r L F U)
    (hU : ∀ i, (r.slots i).state = .used → U i) (hn : c.nodes = []) (hz : c.timeout = .zero)
    (hpos : 0 < c.handles.length) (had : c.Admitted r)
    (hpool : c.handles.length + 1 ≤ r.available)
    (h : SatRuns c.toWaitArgs c.seqs r (.start c.all) r₁ res) :
    ∃ r₂ L₂ F₂, Borrowed r₁ L U r₂ L₂ F₂ [] ∧
      Alone t pid ⟨r, some t, dead⟩ (.wait c (.pass .alloc)) ⟨r₂, none, dead⟩
        (c.ret (.ofAttempt res)) := by
  have hnn : 0 < c.nNodes ∧ c.nNodes ≤ r.available := by
    unfold WaitCtx.nNodes
    split <;> omega
  obtain ⟨ns, rA, FA, hlen, hbA, hruA⟩ := Alone.allocAll t pid dead (c := c)
    (by rw [hn]; exact .start hl) (by rw [hn]; exact hnn.1) hnn.2
  -- the nodes go to slots that are in use
  have htarget (k : Nat) (hk : k < c.nNodes) : U (c.target k) := by
    unfold WaitCtx.target
    split
    · rename_i hkl
      exact hU _ (Region.admits_iff.mp (had.1 k hkl)).1
    · rename_i hkl
      have h0 : c.alert ≠ 0 := by
        intro h0
        rw [WaitCtx.nNodes, if_neg (not_not.mpr h0)] at hk
        omega
      exact hU _ (Region.admits_iff.mp (had.2 h0)).1
  obtain ⟨rB, LB, hbB, hruB⟩ := Alone.registerAll t pid dead
    (c := { c with nodes := ns }) (k := 0) hbA hlen hnn.1 htarget
  obtain ⟨rC, hruC, hbC⟩ := hbB.sat h
  -- the attempt, and the deadline check when it fails
  have hatt : Alone t pid ⟨rB, some t, dead⟩ (.wait { c with nodes := ns }
      (.pass (.sat (.start c.all)))) ⟨rC, some t, dead⟩
      (.wait { c with nodes := ns } (.clean (.ofAttempt res) (.detach ns))) := by
    cases res with
    | some y =>
      refine hruC.alone (fun p => .wait { c with nodes := ns } (.pass (.sat p))) _
        (fun r' _ p p' w hs => ?_) fun r' _ p w hs => ?_
      · show passTick {} ⟨r', some t, dead⟩ pid { c with nodes := ns } (.sat p) = _
        simp only [passTick, hs]
      · show passTick {} ⟨r', some t, dead⟩ pid { c with nodes := ns } (.sat p) = _
        simp only [passTick, hs, WaitOutcome.ofAttempt]
    | none =>
      refine (hruC.alone (fun p => .wait { c with nodes := ns } (.pass (.sat p)))
        (.wait { c with nodes := ns } (.pass .sample)) (fun r' _ p p' w hs => ?_)
        fun r' _ p w hs => ?_).trans (Alone.silent (fun _ => ?_) .refl)
      · show passTick {} ⟨r', some t, dead⟩ pid { c with nodes := ns } (.sat p) = _
        simp only [passTick, hs]
      · show passTick {} ⟨r', some t, dead⟩ pid { c with nodes := ns } (.sat p) = _
        simp only [passTick, hs]
      · show passTick {} ⟨rC, some t, dead⟩ pid { c with nodes := ns } .sample = _
        simp only [passTick]
        rw [if_pos (.inl hz)]
        rfl
  obtain ⟨r₂, L₂, F₂, hb₂, hclean⟩ := Alone.cleanup t pid { c with nodes := ns } dead (.ofAttempt res)
    hbC
  exact ⟨r₂, L₂, F₂, hb₂, hruA.trans (hruB.trans (hatt.trans hclean))⟩

variable (t pid dead) in
/-- **The call as written** does what a poll does. -/
theorem fast_polls (hl : ListsOk r L F U) (hp : Polls a r x r₁) :
    ∃ r₂ L₂ F₂, Borrowed r₁ L U r₂ L₂ F₂ [] ∧
      Alone t pid ⟨r, none, dead⟩ (.start (.wait a .zero)) ⟨r₂, none, dead⟩
        (.done (.wait a .zero) (.wait x)) := by
  have hstart (hv : a.valid = true) :
      Pc.start (.wait a .zero) = .wait ((a.begin .zero).seen r 0) (.fast (.look 0 .state)) := by
    rw [WaitCtx.seen_zero]
    exact if_pos hv
  -- the lookups of an admitted wait
  have hlook (hv : a.valid = true) (had : a.Admitted r) :
      Alone t pid ⟨r, none, dead⟩ (.start (.wait a .zero)) ⟨r, none, dead⟩
        (.wait ((a.begin .zero).seen r a.handles.length)
          ((a.begin .zero).lookedUp)) := by
    rw [hstart hv]
    exact Alone.look_all (c := a.begin .zero) (fun _ => rfl) (WaitArgs.length_pos hv) fun j _ hj => had.1 j hj
  have hattempt {res : Option (Nat × Bool)} (hv : a.valid = true) (had : a.Admitted r)
      (hal : ¬ a.Alerted r)
      (h : SatRuns a (a.snapshot r a.handles.length) r (.start a.all) r₁ res) :
      Alone t pid ⟨r, none, dead⟩ (.start (.wait a .zero)) ⟨r₁, none, dead⟩
        (.done (.wait a .zero) (.wait (.ofAttempt res))) := by
    have hsat := Alone.fast_attempt t pid dead
      (c := (a.begin .zero).seen r a.handles.length) rfl h
    refine (hlook hv had).trans ?_
    unfold WaitCtx.lookedUp
    split
    · rename_i h0
      have hclear : Alone t pid ⟨r, none, dead⟩ _ _ _ := Alone.alert_clear
        (c := (a.begin .zero).seen r a.handles.length) (had.2 h0) fun hw => hal ⟨h0, hw⟩
      exact hclear.trans hsat
    · exact hsat
  cases hp with
  | rejected hno =>
    by_cases hv : a.valid = true
    · have hno' : ¬ a.Admitted r := hno.resolve_left (by rw [hv]; exact Bool.noConfusion)
      have hpos := WaitArgs.length_pos hv
      -- the fast path finds out and leaves it to the locked pass
      obtain ⟨k, hfall⟩ : ∃ k, Alone t pid ⟨r, none, dead⟩ (.start (.wait a .zero))
          ⟨r, none, dead⟩ (.wait ((a.begin .zero).seen r k) (.pass .lock)) := by
        rw [hstart hv]
        rcases WaitArgs.not_admitted hno' with ⟨j, hj, hnoj⟩ | ⟨hall, h0, hna⟩
        · exact Alone.look_none (c := a.begin .zero) (fun _ => rfl) hpos
            ⟨j, Nat.zero_le j, hj, hnoj⟩
        · have hrun : Alone t pid ⟨r, none, dead⟩ (.wait ((a.begin .zero).seen r 0) _) _ _ :=
            Alone.look_all (c := a.begin .zero) (fun _ => rfl) hpos fun j _ hj => hall j hj
          rw [show (a.begin .zero).lookedUp = .fast (.alert .state) from if_pos h0] at hrun
          exact ⟨_, hrun.trans (Alone.alert_fail
            (c := (a.begin .zero).seen r a.handles.length) hna)⟩
      obtain ⟨r₂, L₂, F₂, hb, hrun⟩ := Alone.locked_rejected t pid dead
        ((a.begin .zero).seen r k) hl rfl hpos hno'
      exact ⟨r₂, L₂, F₂, hb, hfall.trans hrun⟩
    · refine ⟨r, L, F, .start hl, ?_⟩
      rw [Pc.start, if_neg hv]
      exact .refl
  | alerted hv had hal =>
    refine ⟨r, L, F, .start hl, (hlook hv had).trans ?_⟩
    rw [show (a.begin .zero).lookedUp = .fast (.alert .state) from if_pos hal.1]
    exact Alone.alert_signaled
      (c := (a.begin .zero).seen r a.handles.length) (had.2 hal.1) hal.2
  | satisfied hv had hal h =>
    exact ⟨_, L, F, .start (h.onlyWords.listsOk hl), hattempt hv had hal h⟩
  | busy hv had hal h =>
    exact ⟨_, L, F, .start (h.onlyWords.listsOk hl), hattempt hv had hal h⟩

variable (t pid dead) in
/-- **The call without the fast path** does what a poll does. -/
theorem locked_polls (hl : ListsOk r L F U) (hU : ∀ i, (r.slots i).state = .used → U i)
    (hpool : a.handles.length + 1 ≤ r.available) (hp : Polls a r x r₁) :
    ∃ r₂ L₂ F₂, Borrowed r₁ L U r₂ L₂ F₂ [] ∧
      Alone t pid ⟨r, none, dead⟩ (.startLocked a .zero) ⟨r₂, none, dead⟩
        (.done (.wait a .zero) (.wait x)) := by
  have hstart (hv : a.valid = true) :
      Pc.startLocked a .zero = .wait (a.begin .zero) (.pass .lock) := if_pos hv
  -- the validation of an admitted wait
  have hvalid (hv : a.valid = true) (had : a.Admitted r) :
      Alone t pid ⟨r, none, dead⟩ (.startLocked a .zero) ⟨r, some t, dead⟩
        (.wait ((a.begin .zero).seen r a.handles.length) ((a.begin .zero).validated)) := by
    rw [hstart hv, ← WaitCtx.seen_zero (a.begin .zero) r]
    exact .head (i := .lock) (fun _ => rfl) (by simp) (Alone.validate_all
      (c := a.begin .zero) rfl (WaitArgs.length_pos hv)
      fun j _ hj => had.1 j hj)
  have hattempt {res : Option (Nat × Bool)} (hv : a.valid = true) (had : a.Admitted r)
      (hal : ¬ a.Alerted r)
      (h : SatRuns a (a.snapshot r a.handles.length) r (.start a.all) r₁ res) :
      ∃ r₂ L₂ F₂, Borrowed r₁ L U r₂ L₂ F₂ [] ∧
        Alone t pid ⟨r, none, dead⟩ (.startLocked a .zero) ⟨r₂, none, dead⟩
          (.done (.wait a .zero) (.wait (.ofAttempt res))) := by
    obtain ⟨r₂, L₂, F₂, hb, hrun⟩ := Alone.locked_attempt t pid dead
      (c := (a.begin .zero).seen r a.handles.length) hl hU rfl rfl (WaitArgs.length_pos hv) had
      hpool h
    refine ⟨r₂, L₂, F₂, hb, (hvalid hv had).trans ?_⟩
    unfold WaitCtx.validated
    split
    · rename_i h0
      have hclear : Alone t pid ⟨r, some t, dead⟩ _ _ _ := Alone.validateAlert_clear
        (c := (a.begin .zero).seen r a.handles.length) rfl (had.2 h0) fun hw => hal ⟨h0, hw⟩
      exact hclear.trans hrun
    · exact hrun
  cases hp with
  | rejected hno =>
    by_cases hv : a.valid = true
    · have hno' : ¬ a.Admitted r := hno.resolve_left (by rw [hv]; exact Bool.noConfusion)
      rw [hstart hv]
      exact Alone.locked_rejected t pid dead (a.begin .zero) hl rfl (WaitArgs.length_pos hv) hno'
    · refine ⟨r, L, F, .start hl, ?_⟩
      rw [Pc.startLocked, if_neg hv]
      exact .refl
  | alerted hv had hal =>
    obtain ⟨r₂, L₂, F₂, hb, hclean⟩ := Alone.cleanup t pid
      ((a.begin .zero).seen r a.handles.length) dead (.signaled a.handles.length false)
      (Borrowed.start hl)
    refine ⟨r₂, L₂, F₂, hb, (hvalid hv had).trans ?_⟩
    rw [show (a.begin .zero).validated = .pass .validateAlert from if_pos hal.1]
    have hset : Alone t pid ⟨r, some t, dead⟩ _ _ _ := Alone.validateAlert_signaled
      (c := (a.begin .zero).seen r a.handles.length) rfl (had.2 hal.1) hal.2
    exact hset.trans hclean
  | satisfied hv had hal h => exact hattempt hv had hal h
  | busy hv had hal h => exact hattempt hv had hal h

end Agree

/-- **The lock-free fast path agrees with the locked path.** In every state that processes reach
    without dying while they empty a freed slot, with the lock free: a wait with timeout zero, run
    without interference as it is written and with the fast path taken out, returns the same,
    leaves the same words and pulse counters, every object's waiter list as it was, and as many
    nodes in the pool. -/
theorem fast_path_agrees [DecidableEq T] {pid : T → U32} (hpid : ∀ t, pid t ≠ 0)
    {h : List (Label T)} {s : Sys T}
    (hr : Run Sys.step (fun s l _ => CleanDeath s l) (Sys.rest Region.init pid) h s) (t : T)
    (dead : U32 → Bool) (a : WaitArgs) (hpool : a.handles.length + 1 ≤ s.region.available) :
    ∃ x r₁ r₂,
      Returns t (pid t) ⟨s.region, none, dead⟩ (.wait a .zero) ⟨r₁, none, dead⟩ (.wait x) ∧
      Alone t (pid t) ⟨s.region, none, dead⟩ (.startLocked a .zero) ⟨r₂, none, dead⟩
        (.done (.wait a .zero) (.wait x)) ∧
      (∀ i, (r₁.slots i).w0 = (r₂.slots i).w0 ∧ (r₁.slots i).d = (r₂.slots i).d) ∧
      (∀ i, (s.region.slots i).state = .used →
        r₁.waiters i = s.region.waiters i ∧ r₂.waiters i = s.region.waiters i) ∧
      r₁.available = s.region.available ∧ r₂.available = s.region.available := by
  have hi : NodesInv s := hr.state_invariant (.of_init hpid)
    fun s a s' l hi hs hd => hi.step hs hd
  obtain ⟨L, F, U, hp⟩ := hi.pool
  obtain ⟨x, r', hpoll⟩ := polls_total a s.region
  obtain ⟨r₁, L₁, F₁, hb₁, hrun₁⟩ := fast_polls t (pid t) dead hp.lists hpoll
  obtain ⟨r₂, L₂, F₂, hb₂, hrun₂⟩ := locked_polls t (pid t) dead hp.lists hp.used
    hpool hpoll
  have hpool' : r'.available = s.region.available := by
    cases hpoll with
    | rejected | alerted => rfl
    | satisfied _ _ _ h => exact h.onlyWords.available
    | busy _ _ _ h => exact h.onlyWords.available
  refine ⟨x, r₁, r₂, Alone.returns hrun₁, hrun₂, fun i => ?_, fun i hu => ?_,
    hb₁.pool.trans hpool', hb₂.pool.trans hpool'⟩
  · obtain ⟨hd₁, he₁⟩ := hb₁.same i
    obtain ⟨hd₂, he₂⟩ := hb₂.same i
    rw [he₁, he₂]
    exact ⟨rfl, rfl⟩
  · have hUi := hp.used i hu
    rw [hp.lists.waiters_eq hUi, hb₁.returned.waiters_eq hUi, hb₂.returned.waiters_eq hUi]
    exact ⟨rfl, rfl⟩

/-- Two waits are queued on an event; a third one polls it, with the same event as its alert. -/
theorem fast_path_agrees_twoWaiters :
    ∃ h s, Run Sys.step (fun s l _ => CleanDeath s l) (Sys.rest Region.init twoWaitersPid) h s ∧
      ∃ x r₁ r₂,
        Returns (1 : Fin 2) 8 ⟨s.region, none, s.dead⟩ (.wait ⟨[1], 9, false, 1⟩ .zero)
          ⟨r₁, none, s.dead⟩ (.wait x) ∧
        Alone (1 : Fin 2) 8 ⟨s.region, none, s.dead⟩ (.startLocked ⟨[1], 9, false, 1⟩ .zero)
          ⟨r₂, none, s.dead⟩ (.done (.wait ⟨[1], 9, false, 1⟩ .zero) (.wait x)) ∧
        r₁.waiters 1 = [1, 0] ∧ r₂.waiters 1 = [1, 0] := by
  obtain ⟨h, s, hr, hu, hw, hpool⟩ := exists_run_of_exec Sys.step
    (fun s l _ => DiesOutside s l) (Sys.rest Region.init twoWaitersPid)
    (P := fun s => (s.region.slots 1).state = .used ∧ s.region.waiters 1 = [1, 0] ∧
      2 ≤ s.region.available) twoWaiters (by decide +kernel)
  have hclean := hr.mono fun _ _ _ hd => hd.clean
  obtain ⟨x, r₁, r₂, hrun₁, hrun₂, -, hlists, -⟩ := fast_path_agrees (by decide) hclean 1 s.dead
    ⟨[1], 9, false, 1⟩ hpool
  obtain ⟨h₁, h₂⟩ := hlists 1 hu
  exact ⟨h, s, hclean, x, r₁, r₂, hrun₁, hrun₂, h₁.trans hw, h₂.trans hw⟩

end Ntsync
