import Mathlib
import Ntsync.Lists
import Ntsync.System

namespace Ntsync

open Words Links

/-!
# A wake walk wakes each waiter of its object, and nobody else

`wake_object` follows the list that it takes apart: it reads a node's successor and wait word, detaches
the node, bumps the word, and goes on with the successor.

* `Walk.trace` — the walk on its own, with the instructions it performs;
* `Region.wakeAll` — the memory it should leave, in closed form; `wakeAll_cons`: one round of the walk
  is one node of it;
* `wake_object_exact` — the walk ends, and leaves exactly that.
-/

variable {T : Type}

/-- A wake walk over slot `i` that nobody disturbs, for at most `k` steps: what it performs, and the
    memory it leaves behind, if it comes to its end. -/
def Walk.trace (t : T) (pid : U32) (i : Nat) :
    Nat → Shared T → Walk → Option (List Instr × Shared T)
  | 0, _, _ => none
  | k + 1, sh, w =>
    match w.step sh.region i with
    | none => none
    | some (ins, .more w') => (Walk.trace t pid i k (ins.apply t pid sh) w').map
        fun p => (ins :: p.1, p.2)
    | some (ins, .done ()) => some ([ins], ins.apply t pid sh)

def Instr.detached? : Instr → Option Nat
  | .detach n => some n
  | _ => none

def Instr.bumped? : Instr → Option Nat
  | .bump n => some n
  | _ => none

/-- A node that `node_detach` has taken off its list. -/
def WaitNode.detached (x : WaitNode) : WaitNode :=
  { x with registered := false, obj := none, objPrev := none, objNext := none }

/-- How often the waiters `l` bump the futex word of node `m`. -/
def Region.bumps (r : Region) (l : List Nat) (m : Nat) : Nat :=
  l.countP fun n => decide ((r.nodes n).waitWord = some m)

/-- The region with the waiters `l` of object `i` woken. -/
def Region.wakeAll (r : Region) (i : Nat) (l : List Nat) : Region :=
  { r with
    slots := fun j => if j = i then { r.slots j with waiterHead := none } else r.slots j
    nodes := fun m =>
      let x := if m ∈ l then (r.nodes m).detached else r.nodes m
      { x with seq := x.seq + BitVec.ofNat 32 (r.bumps l m) } }

attribute [ext] Region

section Wake

variable {r : Region} {L : Nat → List Nat} {F : List Nat} {U : Nat → Prop} {i n w : Nat}
  {l : List Nat}

/-- What `wake_object` does to each node. -/
theorem Region.wakeAll_nodes (r : Region) (i : Nat) (l : List Nat) (m : Nat) :
    (r.wakeAll i l).nodes m =
      { (if m ∈ l then (r.nodes m).detached else r.nodes m) with
        seq := (if m ∈ l then (r.nodes m).detached else r.nodes m).seq +
          BitVec.ofNat 32 (r.bumps l m) } := rfl

/-- Detaching the first node of a list moves the list's head on. -/
theorem Region.nodeDetach_first (hn : (r.nodes n).registered = true)
    (hobj : (r.nodes n).obj = some i) (hprev : (r.nodes n).objPrev = none) (j : Nat) :
    (r.nodeDetach n).slots j =
      if j = i then { r.slots j with waiterHead := (r.nodes n).objNext } else r.slots j := by
  unfold Region.nodeDetach
  rw [if_neg (by rw [hn]; decide), hprev]
  simp only [hobj, Region.setNode_slots, Region.setSlot_nodes]
  cases (r.nodes n).objNext <;> simp only [Region.setNode_slots, Region.setSlot_slots] <;> split
  all_goals
    first
      | rename_i hj
        rw [hj]
      | rfl

/-- A bump changes one futex word. -/
theorem Region.bumpSeq_nodes (w m : Nat) : (r.bumpSeq w).nodes m =
    { r.nodes m with seq := (r.nodes m).seq + if w = m then 1#32 else 0#32 } := by
  show (r.setNode w fun x => { x with seq := x.seq + 1 }).nodes m = _
  rw [Region.setNode_nodes]
  by_cases hwm : m = w
  · subst hwm
    rw [if_pos rfl, if_pos rfl]
    rfl
  · rw [if_neg hwm, if_neg (Ne.symm hwm), BitVec.add_zero]

/-- One more waiter is one more bump of its word. -/
theorem Region.bumps_cons (hw : (r.nodes n).waitWord = some w) (l : List Nat) (m : Nat) :
    BitVec.ofNat 32 (r.bumps (n :: l) m) =
      (if w = m then 1#32 else 0#32) + BitVec.ofNat 32 (r.bumps l m) := by
  unfold Region.bumps
  rw [List.countP_cons, hw, BitVec.ofNat_add, BitVec.add_comm]
  by_cases hwm : w = m <;> simp [hwm]

/-- A field of a node that is none of the links is not written by `node_detach`. -/
theorem Region.nodeDetach_field {α : Type} (f : WaitNode → α)
    (hf : ∀ (x : WaitNode) (b : Bool) (o p q : Option Nat),
      f { x with registered := b, obj := o, objPrev := p, objNext := q } = f x)
    (r : Region) (n m : Nat) : f ((r.nodeDetach n).nodes m) = f (r.nodes m) := by
  have hset : ∀ (x : Region) (q : Nat) (g : WaitNode → WaitNode), (∀ y, f (g y) = f y) →
      f ((x.setNode q g).nodes m) = f (x.nodes m) := by
    intro x q g hg
    rw [Region.setNode_nodes]
    split
    · rename_i hm
      rw [hg, hm]
    · rfl
  unfold Region.nodeDetach
  split
  · rfl
  · -- the two neighbours get new links before the node itself
    rw [hset _ _ _ fun y => hf y ..]
    cases (r.nodes n).objPrev with
    | none =>
      cases (r.nodes n).obj <;> dsimp only <;> split <;>
        first | rfl | exact hset _ _ _ fun y => hf y ..
    | some p =>
      have hprev := hset r p (fun y => { y with objNext := (r.nodes n).objNext }) fun y => hf y ..
      dsimp only
      split
      · exact hprev
      · exact (hset _ _ _ fun y => hf y ..).trans hprev

/-- The wait words, which say whom to bump, are not written. -/
theorem Region.round_word (r : Region) (n w m : Nat) :
    (((r.nodeDetach n).bumpSeq w).nodes m).waitWord = (r.nodes m).waitWord := by
  rw [Region.bumpSeq_nodes]
  exact Region.nodeDetach_field WaitNode.waitWord (fun _ _ _ _ _ => rfl) r n m

/-- One round of the walk: detach the first waiter and bump its futex word. -/
theorem Region.wakeAll_cons (hn : (r.nodes n).registered = true)
    (hobj : (r.nodes n).obj = some i) (hprev : (r.nodes n).objPrev = none)
    (hnext : (r.nodes n).objNext = l.head?) (hw : (r.nodes n).waitWord = some w) (hl : n ∉ l) :
    ((r.nodeDetach n).bumpSeq w).wakeAll i l = r.wakeAll i (n :: l) := by
  have hself : (r.nodes n).objNext ≠ some n := by
    rw [hnext]
    exact fun h => hl (List.mem_of_mem_head? h)
  have hnodes := Region.nodeDetach_nodes hn (by rw [hprev]; intro h; cases h) hself
  have hbumps : ∀ m, ((r.nodeDetach n).bumpSeq w).bumps l m = r.bumps l m := by
    intro m
    unfold Region.bumps
    simp only [Region.round_word]
  obtain ⟨hhead, hfresh, hscan, hns⟩ := r.nodeDetach_rest n
  refine Region.ext (funext fun j => ?_) (funext fun m => ?_) hhead hfresh hscan hns
  · show (if j = i then { (r.nodeDetach n).slots j with waiterHead := none }
      else (r.nodeDetach n).slots j) = if j = i then { r.slots j with waiterHead := none } else r.slots j
    rw [Region.nodeDetach_first hn hobj hprev]
    by_cases hj : j = i <;> simp [hj]
  · rw [Region.wakeAll_nodes, Region.wakeAll_nodes, hbumps, Region.bumps_cons hw,
      Region.bumpSeq_nodes, hnodes]
    by_cases hm : m = n
    · subst hm
      rw [if_pos rfl, if_neg hl, if_pos (List.mem_cons_self ..), ← BitVec.add_assoc]
      rfl
    · rw [if_neg hm, hprev]
      by_cases hml : m ∈ l
      · rw [if_pos hml, if_pos (List.mem_cons_of_mem _ hml), ← BitVec.add_assoc]
        rfl
      · -- the successor, whose link is written, is a waiter itself
        have hsucc : (r.nodes n).objNext ≠ some m := by
          rw [hnext]
          exact fun h => hml (List.mem_of_mem_head? h)
        have hmc : m ∉ n :: l := by
          simp [hm, hml]
        rw [if_neg hml, if_neg hmc, if_neg hsucc, ← BitVec.add_assoc]
        rfl

/-- Bumps leave the lists alone. -/
theorem ListsOk.bump (h : ListsOk r L F U) (w : Nat) : ListsOk (r.bumpSeq w) L F U := by
  refine h.congr (fun n => ?_) (fun _ => rfl) rfl rfl
  rw [Region.bumpSeq_nodes]
  exact ⟨rfl, rfl, rfl, rfl, rfl, rfl⟩

/-- Without waiters there is nothing to wake. -/
theorem Region.wakeAll_nil (r : Region) (h : (r.slots i).waiterHead = none) :
    r.wakeAll i [] = r := by
  refine Region.ext (funext fun j => ?_) (funext fun m => ?_) rfl rfl rfl rfl
  · show (if j = i then { r.slots j with waiterHead := none } else r.slots j) = r.slots j
    split
    · rename_i hj
      rw [hj, ← h]
    · rfl
  · show { r.nodes m with seq := (r.nodes m).seq + 0#32 } = r.nodes m
    rw [BitVec.add_zero]

/-- The walk from the first waiter on, by induction on the waiters that are left. -/
theorem ListsOk.wake_trace (t : T) (pid : U32) {sh : Shared T} (h : ListsOk sh.region L F U)
    (hi : U i) (hl : L i = l) :
    ∃ log, (∀ k, 2 * l.length + 1 ≤ k →
        Walk.trace t pid i k sh (.node (sh.region.slots i).waiterHead) =
          some (log, { sh with region := sh.region.wakeAll i l })) ∧
      log.filterMap Instr.detached? = l ∧
      log.filterMap Instr.bumped? = l.filterMap (fun n => (sh.region.nodes n).waitWord) ∧
      ListsOk (sh.region.wakeAll i l) (Function.update L i []) F U := by
  induction l generalizing sh L with
  | nil =>
    have hhead : (sh.region.slots i).waiterHead = none := by
      rw [(h.chain i hi).head, hl]
      rfl
    have hsame : sh.region.wakeAll i [] = sh.region := sh.region.wakeAll_nil hhead
    refine ⟨[.silent], fun k hk => ?_, rfl, rfl, ?_⟩
    · obtain ⟨k, rfl⟩ : ∃ k', k = k' + 1 := Nat.exists_eq_add_of_le' hk
      rw [hhead, hsame]
      rfl
    · rw [hsame, ← hl, Function.update_eq_self]
      exact h
  | cons n l ih =>
    have hmem : n ∈ L i := by
      rw [hl]
      exact List.mem_cons_self ..
    obtain ⟨hreg, hobj⟩ := (h.mem i n).mp hmem
    obtain ⟨w, hw, _⟩ := h.word n hreg
    have hnd := h.nodup i
    have hchain := h.chain i hi
    rw [hl] at hchain hnd
    obtain ⟨hhead, hprev, hrest⟩ := hchain
    have hnext : (sh.region.nodes n).objNext = l.head? := hrest.head
    have hcons := Region.wakeAll_cons hreg hobj hprev hnext hw (List.nodup_cons.mp hnd).1
    -- the node comes off the list, and its wait is bumped
    let sh₁ := (Instr.bump w).apply t pid ((Instr.detach n).apply t pid sh)
    have h₁ : ListsOk sh₁.region (Function.update L i l) F U := by
      have hdet := h.detach hreg hobj
      rw [hl, List.erase_cons_head] at hdet
      exact hdet.bump w
    have hhead₁ : (sh₁.region.slots i).waiterHead = (sh.region.nodes n).objNext := by
      rw [(h₁.chain i hi).head, Function.update_self, hnext]
    obtain ⟨log, htrace, hdetached, hbumped, hlists⟩ := ih h₁ (Function.update_self ..)
    rw [hhead₁] at htrace
    rw [show sh₁.region.wakeAll i l = sh.region.wakeAll i (n :: l) from hcons] at htrace hlists
    rw [Function.update_idem] at hlists
    refine ⟨.detach n :: .bump w :: log, fun k hk => ?_, ?_, ?_, hlists⟩
    · rw [List.length_cons] at hk
      obtain ⟨k, rfl⟩ : ∃ k', k = k' + 2 := Nat.exists_eq_add_of_le' (by omega)
      rw [hhead]
      simp only [Walk.trace, Walk.step, hw]
      rw [htrace k (by omega)]
      rfl
    · show n :: log.filterMap Instr.detached? = n :: l
      rw [hdetached]
    · show w :: log.filterMap Instr.bumped? = _
      -- the words of the waiters that are left are the same as before
      have hwords : (fun m => (sh₁.region.nodes m).waitWord) =
          fun m => (sh.region.nodes m).waitWord := funext fun m => Region.round_word ..
      rw [hbumped, hwords, List.filterMap_cons, hw]

end Wake

/-- **A wake walk wakes each registered waiter of its object, and nobody else.**  On a region whose
    lists are well formed, the walk over an object's waiters ends after two steps for each of them:
    it detaches each once, in the order of the list, bumps the word each of them names, and leaves
    the list empty.  A futex word grows by the number of detached nodes that name it.  All other
    nodes keep their links, flags and owner, all other slots are untouched, and so is the free list.
    -/
theorem wake_object_exact (t : T) (pid : U32) (sh : Shared T) {L : Nat → List Nat} {F : List Nat}
    {U : Nat → Prop} {i : Nat} (h : ListsOk sh.region L F U) (hi : U i) :
    ∃ log r', (∀ k, 2 * (L i).length + 2 ≤ k →
        Walk.trace t pid i k sh .start = some (log, { sh with region := r' })) ∧
      log.filterMap Instr.detached? = L i ∧ (L i).Nodup ∧
      log.filterMap Instr.bumped? = (L i).filterMap (fun n => (sh.region.nodes n).waitWord) ∧
      (r'.slots i).waiterHead = none ∧
      (∀ m, (r'.nodes m).seq = (sh.region.nodes m).seq + BitVec.ofNat 32 ((L i).countP fun n =>
        decide ((sh.region.nodes n).waitWord = some m))) ∧
      (∀ n ∈ L i, (r'.nodes n).registered = false) ∧
      (∀ n, n ∉ L i → SameLinks (sh.region.nodes n) (r'.nodes n)) ∧
      (∀ n, (r'.nodes n).pid = (sh.region.nodes n).pid) ∧
      (∀ j, j ≠ i → r'.slots j = sh.region.slots j) ∧
      r'.nodeFreeHead = sh.region.nodeFreeHead ∧ r'.nodeFresh = sh.region.nodeFresh ∧
      ListsOk r' (Function.update L i []) F U := by
  obtain ⟨log, htrace, hdetached, hbumped, hlists⟩ := h.wake_trace t pid hi rfl
  have hnodes := sh.region.wakeAll_nodes i (L i)
  refine ⟨.silent :: log, sh.region.wakeAll i (L i), fun k hk => ?_, hdetached, h.nodup i, hbumped,
    ?_, fun m => ?_, fun n hn => ?_, fun n hn => ?_, fun n => ?_, fun j hj => if_neg hj, rfl, rfl,
    hlists⟩
  · obtain ⟨k, rfl⟩ : ∃ k', k = k' + 1 := Nat.exists_eq_add_of_le' (by omega)
    show (Walk.trace t pid i k sh (.node (sh.region.slots i).waiterHead)).map _ = _
    rw [htrace k (by omega)]
    rfl
  · rw [(hlists.chain i hi).head, Function.update_self]
    rfl
  · rw [hnodes]
    split <;> rfl
  · rw [hnodes, if_pos hn]
    rfl
  · rw [hnodes, if_neg hn]
    exact ⟨rfl, rfl, rfl, rfl, rfl, rfl⟩
  · rw [hnodes]
    split <;> rfl

/-- A fresh node of process `pid` waits on object `i`, by the futex word of node `w`. -/
def Region.join (r : Region) (pid : U32) (i w : Nat) : Region :=
  match r.nodeAlloc pid with
  | some (n, r') => r'.nodeRegister n i w
  | none => r

/-- One more waiter joins a list. -/
theorem ListsOk.join {r : Region} {L : Nat → List Nat} {U : Nat → Prop} {i n w : Nat}
    (h : ListsOk r L [] U) (hn : r.nodeFresh = n) (hlt : n < nodeCount) (hi : U i) (hw : w ≤ n)
    (pid : U32) : ListsOk (r.join pid i w) (Function.update L i (n :: L i)) [] U ∧
      (r.join pid i w).nodeFresh = n + 1 := by
  have hhead : r.nodeFreeHead = none := h.free
  have halloc : ∃ r', r.nodeAlloc pid = some (n, r') := by
    simp [Region.nodeAlloc, hhead, hn, Nat.not_le.mpr hlt]
  obtain ⟨r', ha⟩ := halloc
  obtain ⟨F, h', hf⟩ := h.alloc ha
  rcases hf.source with ⟨hcons, _⟩ | ⟨_, hnil, _, hfresh⟩
  · cases hcons
  · subst hnil
    rw [hn] at hfresh
    have hreg : (r'.nodes n).registered = false := by
      rw [hf.node]
      rfl
    have hjoin : r.join pid i w = r'.nodeRegister n i w := by
      unfold Region.join
      rw [ha]
    rw [hjoin]
    exact ⟨h'.register hreg (by omega) (List.not_mem_nil) (by omega) hi,
      Region.nodeRegister_header.2.trans hfresh⟩

/-- Object 1 with two nodes of one wait, which waits on it twice, and a node of another. -/
def threeNodes : Region := (((Region.init.takeSlot 1).join 7 1 0).join 7 1 0).join 8 1 2

/-- The lists of the example. -/
theorem threeNodes_lists :
    ListsOk threeNodes (Function.update (fun _ => []) 1 [2, 1, 0]) [] (fun j => j = 1 ∨ j = 0) := by
  obtain ⟨h₀, hf₀⟩ := (listsOk_init.takeSlot (i := 1) rfl).join (n := 0) (w := 0) (i := 1) rfl
    (by decide) (.inl rfl) (le_refl _) 7
  obtain ⟨h₁, hf₁⟩ := h₀.join (w := 0) (i := 1) hf₀ (by decide) (.inl rfl) (Nat.zero_le _) 7
  obtain ⟨h₂, _⟩ := h₁.join (w := 2) (i := 1) hf₁ (by decide) (.inl rfl) (le_refl _) 8
  simpa [threeNodes] using h₂

/-- Three waiters of two waits are woken, the last one first. -/
theorem wake_object_threeNodes :
    ∃ log r', (∀ k, 8 ≤ k → Walk.trace () 7 1 k ⟨threeNodes, none, fun _ => false⟩ .start =
        some (log, ⟨r', none, fun _ => false⟩)) ∧
      log.filterMap Instr.detached? = [2, 1, 0] ∧ (r'.slots 1).waiterHead = none ∧
      (r'.nodes 0).seq = 2#32 ∧ (r'.nodes 1).seq = 0#32 ∧ (r'.nodes 2).seq = 1#32 := by
  obtain ⟨log, r', htrace, hdetached, _, _, hhead, hseq, _⟩ := wake_object_exact () 7
    ⟨threeNodes, none, fun _ => false⟩ threeNodes_lists (.inl rfl)
  exact ⟨log, r', htrace, hdetached, hhead, (hseq 0).trans (by decide), (hseq 1).trans (by decide),
    (hseq 2).trans (by decide)⟩

end Ntsync
