import Mathlib
import Ntsync.Nodes
import Ntsync.Waking

namespace Ntsync

open Words Lts Links

/-!
# Death of a lock holder

A step of the thread model stands for a whole list operation.  Here the operations are taken apart
into their stores, in program order, and a process may die after any number of them; the next locker
finds the region as it is (`EOWNERDEAD`).

* `Instr.writes` — the stores of an instruction; all of them together are its effect
  (`Instr.writes_apply`);
* `Sys.crashStep` — the system in which a thread may also stop in the middle of an instruction;
* `Instr.torn` — the prefixes of `node_register` and `node_detach` that leave a list half linked;
* `Usable` — what the survivors rely on; `survivors_usable` proves it for every run without a torn
  list, a wake-up left undone, or a death while a freed slot still has waiters;
* `detach_follows_nil` — a death after the first store of `node_register`.
-/

variable {T : Type}

/-! ### Single stores -/

/-- A store to one field of a node. -/
inductive NodeWrite where
  | seq (v : U32)
  | registered (v : Bool)
  | obj (v : Option Nat)
  | waitWord (v : Option Nat)
  | objPrev (v : Option Nat)
  | objNext (v : Option Nat)
  | waiterNext (v : Option Nat)
  | pid (v : U32)

def NodeWrite.apply : NodeWrite → WaitNode → WaitNode
  | .seq v, n => { n with seq := v }
  | .registered v, n => { n with registered := v }
  | .obj v, n => { n with obj := v }
  | .waitWord v, n => { n with waitWord := v }
  | .objPrev v, n => { n with objPrev := v }
  | .objNext v, n => { n with objNext := v }
  | .waiterNext v, n => { n with waiterNext := v }
  | .pid v, n => { n with pid := v }

/-- A store to the region. -/
inductive Write where
  | node (n : Nat) (w : NodeWrite)
  | slot (i : Nat) (w : SlotWrite)
  | waiterHead (i : Nat) (v : Option Nat)
  | nodeFreeHead (v : Option Nat)
  | nodeFresh (v : Nat)
  | nextScan (v : U32)
  | sweepNs (v : U64)

def Write.apply : Write → Region → Region
  | .node n w, r => r.setNode n w.apply
  | .slot i w, r => r.setSlot i w.apply
  | .waiterHead i v, r => r.setSlot i fun s => { s with waiterHead := v }
  | .nodeFreeHead v, r => { r with nodeFreeHead := v }
  | .nodeFresh v, r => { r with nodeFresh := v }
  | .nextScan v, r => { r with nextScan := v }
  | .sweepNs v, r => { r with sweepNs := v }

/-- The region after a list of stores. -/
def Region.writeAll (r : Region) (ws : List Write) : Region := ws.foldl (fun r w => w.apply r) r

/-- The stores of `node_alloc` to the node it hands out. -/
def resetWrites (n : Nat) (pid : U32) : List Write :=
  [.node n (.registered false), .node n (.obj none), .node n (.waitWord none),
    .node n (.objPrev none), .node n (.objNext none), .node n (.waiterNext none),
    .node n (.pid pid)]

/-- The stores of `node_register` before the node is in the list. -/
def registerWrites (r : Region) (n i w : Nat) : List Write :=
  [.node n (.registered true), .node n (.obj (some i)), .node n (.waitWord (some w)),
    .node n (.objPrev none), .node n (.objNext (r.slots i).waiterHead)] ++
  match (r.slots i).waiterHead with
  | none => []
  | some q => [.node q (.objPrev (some n))]

/-- The stores of `node_detach` to the neighbours of the node. -/
def unlinkWrites (r : Region) (n : Nat) : List Write :=
  (match (r.nodes n).objPrev with
    | none =>
      match (r.nodes n).obj with
      | some o => [.waiterHead o (r.nodes n).objNext]
      | none => []
    | some p => [.node p (.objNext (r.nodes n).objNext)]) ++
  match (r.nodes n).objNext with
  | none => []
  | some q => [.node q (.objPrev (r.nodes n).objPrev)]

/-- The stores of an instruction of process `pid`, in program order. -/
def Instr.writes (r : Region) (pid : U32) : Instr → List Write
  | .silent | .lock | .unlock | .hold _ _ | .countCall => []
  | .word _ i _ new => [.slot i (.w0 new)]
  | .storeD i v => [.slot i (.d v)]
  | .allocNode =>
    match r.nodeFreeHead with
    | some head => .nodeFreeHead (r.nodes head).waiterNext :: resetWrites head pid
    | none =>
      if nodeCount ≤ r.nodeFresh then []
      else .nodeFresh (r.nodeFresh + 1) :: resetWrites r.nodeFresh pid
  | .register n i w => registerWrites r n i w ++ [.waiterHead i (some n)]
  | .detach n =>
    if (r.nodes n).registered = false then []
    else unlinkWrites r n ++ [.node n (.registered false), .node n (.obj none),
      .node n (.objPrev none), .node n (.objNext none)]
  | .freeNode n => [.node n (.waiterNext r.nodeFreeHead), .nodeFreeHead (some n)]
  | .bump n => [.node n (.seq ((r.nodes n).seq + 1))]
  | .takeSlot i => [.waiterHead i none, .nextScan (r.takeSlot i).nextScan]
  | .store i w => [.slot i w]
  | .reap i => [.slot i (.state .free)]
  | .claim now => [.sweepNs now]

namespace Region

/-- Two changes of one node are one. -/
theorem setNode_setNode (r : Region) (n : Nat) (f g : WaitNode → WaitNode) :
    (r.setNode n f).setNode n g = r.setNode n (fun x => g (f x)) := by
  simp [setNode]

/-- No stores, no change. -/
theorem writeAll_nil (r : Region) : r.writeAll [] = r := rfl

/-- The first store, then the others. -/
theorem writeAll_cons (r : Region) (w : Write) (ws : List Write) :
    r.writeAll (w :: ws) = (w.apply r).writeAll ws := rfl

/-- Some stores, then the others. -/
theorem writeAll_append (r : Region) (ws ws' : List Write) :
    r.writeAll (ws ++ ws') = (r.writeAll ws).writeAll ws' := List.foldl_append ..

end Region

/-- **An instruction is its stores.** -/
theorem Instr.writes_apply (t : T) (pid : U32) (sh : Shared T) (ins : Instr) :
    sh.region.writeAll (ins.writes sh.region pid) = (ins.apply t pid sh).region := by
  cases ins with
  | allocNode =>
    simp only [Instr.writes, Instr.apply, Region.nodeAlloc]
    cases hf : sh.region.nodeFreeHead with
    | some head =>
      simp only [resetWrites, Region.writeAll_cons, Region.writeAll_nil, Write.apply,
        Region.setNode_setNode]
      rfl
    | none =>
      by_cases hfull : nodeCount ≤ sh.region.nodeFresh
      · simp [hfull, Region.writeAll_nil]
      · simp only [hfull, if_false, resetWrites, Region.writeAll_cons, Region.writeAll_nil,
          Write.apply, Region.setNode_setNode, hf]
        rfl
  | register n i w =>
    simp only [Instr.writes, Instr.apply, Region.nodeRegister, registerWrites]
    cases (sh.region.slots i).waiterHead with
    | none =>
      simp only [List.append_nil, List.cons_append, List.nil_append, Region.writeAll_cons,
        Region.writeAll_nil, Write.apply, Region.setNode_setNode]
      rfl
    | some q =>
      simp only [List.cons_append, List.nil_append, Region.writeAll_cons,
        Region.writeAll_nil, Write.apply, Region.setNode_setNode]
      rfl
  | detach n =>
    simp only [Instr.writes, Instr.apply, Region.nodeDetach, unlinkWrites]
    split
    · rfl
    · have hlast : ∀ x : Region, x.writeAll [.node n (.registered false), .node n (.obj none),
          .node n (.objPrev none), .node n (.objNext none)] = x.setNode n fun y =>
            { y with registered := false, obj := none, objPrev := none, objNext := none } := by
        intro x
        simp only [Region.writeAll_cons, Region.writeAll_nil, Write.apply, Region.setNode_setNode]
        rfl
      rw [Region.writeAll_append, hlast, Region.writeAll_append]
      congr 1
      cases hpv : (sh.region.nodes n).objPrev with
      | none =>
        cases (sh.region.nodes n).obj with
        | none =>
          cases (sh.region.nodes n).objNext with
          | none => rfl
          | some q =>
            simp only [Region.writeAll_cons, Region.writeAll_nil, Write.apply, hpv]
            rfl
        | some o =>
          simp only [Region.writeAll_cons, Region.writeAll_nil, Write.apply, Region.setSlot_nodes]
          cases (sh.region.nodes n).objNext with
          | none => rfl
          | some q =>
            simp only [Region.writeAll_cons, Region.writeAll_nil, Write.apply, hpv]
            rfl
      | some p =>
        -- the node's own links are not touched, even if it were its own neighbour
        have hnode : ((sh.region.setNode p fun y =>
            { y with objNext := (sh.region.nodes n).objNext }).nodes n).objNext =
              (sh.region.nodes n).objNext ∧ ((sh.region.setNode p fun y =>
            { y with objNext := (sh.region.nodes n).objNext }).nodes n).objPrev =
              (sh.region.nodes n).objPrev := by
          rw [Region.setNode_nodes]
          split
          · rename_i hnp
            subst hnp
            exact ⟨rfl, rfl⟩
          · exact ⟨rfl, rfl⟩
        simp only [Region.writeAll_cons, Region.writeAll_nil, Write.apply, hnode.1, hnode.2, hpv]
        cases (sh.region.nodes n).objNext <;> rfl
  | _ => rfl

/-! ### Dying in the middle of an instruction -/

inductive CrashAction (T : Type) where
  /-- a step of the system -/
  | sys (a : Action T)
  /-- the process of thread `t` dies after `k` stores of the thread's next instruction -/
  | crash (t : T) (o : Oracle) (k : Nat)

inductive CrashLabel (T : Type) where
  | sys (l : Label T)
  | crash (t : T) (pid : U32) (ins : Instr) (k : Nat)

namespace Sys

variable [DecidableEq T]

/-- Process `pid` has died after `k` stores of the instruction `ins` of one of its threads. -/
def crashed (s : Sys T) (pid : U32) (ins : Instr) (k : Nat) : Sys T :=
  { s with region := s.region.writeAll ((ins.writes s.region pid).take k) }.died pid

/-- The system with deaths in the middle of an instruction. -/
def crashStep (s : Sys T) : CrashAction T → Option (Sys T × CrashLabel T)
  | .sys a =>
    match s.step a with
    | none => none
    | some (s', l) => some (s', .sys l)
  | .crash t o k =>
    let th := s.threads t
    if s.dead th.pid then none
    else match tick o s.toShared th.pid th.calls th.pc with
      | none => none
      | some (ins, _) => some (s.crashed th.pid ins k, .crash t th.pid ins k)

end Sys

/-- The first `k` stores leave a list half linked: `node_register` has marked the node registered
    and not yet made it the head; `node_detach` has begun to unlink the node and not yet cleared its
    flag. -/
def Instr.torn (r : Region) (k : Nat) : Instr → Prop
  | .register n i w => 0 < k ∧ k ≤ (registerWrites r n i w).length
  | .detach n => (r.nodes n).registered = true ∧ 0 < k ∧ k ≤ (unlinkWrites r n).length
  | _ => False

/-- Node `n` belongs to a wait that outlives process `pid`. -/
def Sys.Outlives (s : Sys T) (pid : U32) (n : Nat) : Prop :=
  ∃ u, s.dead (s.threads u).pid = false ∧ (s.threads u).pid ≠ pid ∧
    n ∈ (s.threads u).pc.waitNodes

/-- Thread `u` of process `pid` is about to bump the futex word `w` of a wait that outlives the
    process. -/
def Sys.Owes (s : Sys T) (pid : U32) (u : T) (w : Nat) : Prop :=
  s.dead pid = false ∧ (s.threads u).pid = pid ∧ (s.threads u).pc.bumps? = some w ∧
    s.Outlives pid w

/-- Nobody dies with a torn list, nor while a slot that it has marked free still has waiters, nor
    between taking a node of a wait that outlives it off its list and bumping the wait's futex
    word. -/
def CrashSafe (s : Sys T) (l : CrashLabel T) (s' : Sys T) : Prop :=
  match l with
  | .sys l => CleanDeath s l ∧ ∀ pid u w, l = .die pid → ¬ s.Owes pid u w
  | .crash t pid ins k => ¬ ins.torn s.region k ∧
    (∀ u i, (s.threads u).pid = pid →
      (s.threads u).pc.frees? = some i ∨ (u = t ∧ 0 < k ∧ ins.freesSlot? = some i) →
      (s'.region.slots i).waiterHead = none) ∧
    (∀ n, ins = .detach n → 0 < k → ¬ s.Outlives pid n) ∧
    ∀ u w, s.Owes pid u w → u = t ∧ 0 < k

/-! ### Where an instruction can be cut -/

/-- Stores to fields of one node, in one go. -/
theorem Region.writeAll_node (r : Region) (n : Nat) (ws : List NodeWrite) :
    r.writeAll (ws.map (.node n)) = r.setNode n fun x => ws.foldl (fun x w => w.apply x) x := by
  induction ws generalizing r with
  | nil => simp [writeAll, setNode]
  | cons w ws ih =>
    rw [List.map_cons, writeAll_cons, ih]
    exact setNode_setNode r n _ _

/-- A later store to a whole node makes the earlier ones void. -/
theorem Region.setNode_over (r : Region) (n : Nat) (f g : WaitNode → WaitNode) :
    (r.setNode n f).setNode n (fun _ => g (r.nodes n)) = r.setNode n g := by
  simp [setNode]

/-- Stores that do not register a node leave it unregistered. -/
theorem NodeWrite.unregistered {x : WaitNode} {ws : List NodeWrite}
    (hw : ∀ w ∈ ws, w ≠ .registered true) (hx : x.registered = false) :
    (ws.foldl (fun x w => w.apply x) x).registered = false := by
  induction ws generalizing x with
  | nil => exact hx
  | cons w ws ih =>
    refine ih (fun v hv => hw v (List.mem_cons_of_mem _ hv)) ?_
    cases w with
    | registered v =>
      cases v with
      | false => rfl
      | true => exact absurd rfl (hw _ (List.mem_cons_self ..))
    | _ => exact hx

/-- Stores to other fields keep the owner. -/
theorem NodeWrite.samePid {x : WaitNode} {ws : List NodeWrite} (hw : ∀ w ∈ ws, ∀ v, w ≠ .pid v) :
    (ws.foldl (fun x w => w.apply x) x).pid = x.pid := by
  induction ws generalizing x with
  | nil => rfl
  | cons w ws ih =>
    rw [List.foldl_cons, ih fun v hv => hw v (List.mem_cons_of_mem _ hv)]
    cases w with
    | pid v => exact absurd rfl (hw _ (List.mem_cons_self ..) v)
    | _ => rfl

/-- Off the lists an instruction is one store at most. -/
theorem Instr.writes_short (r : Region) (pid : U32) {ins : Instr} (h : ins.lists = false) :
    (ins.writes r pid).length ≤ 1 := by
  cases ins with
  | allocNode | register | detach | freeNode | takeSlot => cases h
  | _ => simp [Instr.writes]

/-- `node_alloc` cut after its first store: the node is off the free list, with whatever in it. -/
theorem alloc_cut {r r' : Region} {pid : U32} {n k : Nat} (hn : r.nodeAlloc pid = some (n, r'))
    (hreg : (r.nodes n).registered = false) (hk : 0 < k) :
    ∃ x : WaitNode, x.registered = false ∧
      r.writeAll ((Instr.allocNode.writes r pid).take k) = r'.setNode n fun _ => x := by
  obtain ⟨j, rfl⟩ : ∃ j, k = j + 1 := ⟨k - 1, by omega⟩
  -- a store to the header, and then the stores to the node
  obtain ⟨w, hw, hr', hnode⟩ : ∃ w : Write, Instr.allocNode.writes r pid = w :: resetWrites n pid ∧
      r' = (w.apply r).setNode n (fun x => x.handOut pid) ∧ (w.apply r).nodes n = r.nodes n := by
    unfold Region.nodeAlloc at hn
    cases hf : r.nodeFreeHead with
    | some head =>
      simp only [hf, Option.some.injEq, Prod.mk.injEq] at hn
      obtain ⟨rfl, rfl⟩ := hn
      exact ⟨.nodeFreeHead (r.nodes head).waiterNext, by simp only [Instr.writes, hf], rfl, rfl⟩
    | none =>
      simp only [hf] at hn
      by_cases hfull : nodeCount ≤ r.nodeFresh
      · simp [hfull] at hn
      · simp only [hfull, if_false, Option.some.injEq, Prod.mk.injEq] at hn
        obtain ⟨rfl, rfl⟩ := hn
        refine ⟨.nodeFresh (r.nodeFresh + 1), by simp only [Instr.writes, hf, hfull, if_false], ?_,
          rfl⟩
        simp only [Write.apply, hf]
        rfl
  let ws : List NodeWrite := [.registered false, .obj none, .waitWord none, .objPrev none,
    .objNext none, .waiterNext none, .pid pid]
  have hws : resetWrites n pid = ws.map (.node n) := rfl
  refine ⟨(ws.take j).foldl (fun x w => w.apply x) (r.nodes n), ?_, ?_⟩
  · refine NodeWrite.unregistered (fun w hw => ?_) hreg
    have hmem := List.mem_of_mem_take hw
    simp only [ws, List.mem_cons, List.not_mem_nil, or_false] at hmem
    rcases hmem with rfl | rfl | rfl | rfl | rfl | rfl | rfl <;> simp
  · rw [hw, List.take_succ_cons, Region.writeAll_cons, hws, ← List.map_take, Region.writeAll_node,
      hr', ← hnode]
    exact (Region.setNode_over _ n _ _).symm

/-- `node_detach` cut after the store to the flag: the node is out of its list, and its links are
    stale. -/
theorem detach_cut {r : Region} (pid : U32) {n k : Nat} (hreg : (r.nodes n).registered = true)
    (hk : (unlinkWrites r n).length < k) :
    ∃ x : WaitNode, x.registered = false ∧ x.pid = ((r.nodeDetach n).nodes n).pid ∧
      r.writeAll (((Instr.detach n).writes r pid).take k) =
        (r.nodeDetach n).setNode n fun _ => x := by
  obtain ⟨j, rfl⟩ : ∃ j, k = (unlinkWrites r n).length + (j + 1) := ⟨k - (unlinkWrites r n).length - 1, by omega⟩
  let ws : List NodeWrite := [.obj none, .objPrev none, .objNext none]
  have hws : (Instr.detach n).writes r pid =
      unlinkWrites r n ++ (NodeWrite.registered false :: ws).map (.node n) := by
    simp only [Instr.writes, hreg]
    rfl
  have hfull : r.nodeDetach n = (r.writeAll (unlinkWrites r n)).setNode n fun x =>
      (NodeWrite.registered false :: ws).foldl (fun x w => w.apply x) x := by
    have happly := Instr.writes_apply () pid ⟨r, none, fun _ => false⟩ (.detach n)
    rw [← Region.writeAll_node, ← Region.writeAll_append, ← hws]
    exact happly.symm
  refine ⟨(NodeWrite.registered false :: ws.take j).foldl (fun x w => w.apply x)
    ((r.writeAll (unlinkWrites r n)).nodes n), ?_, ?_, ?_⟩
  · show ((ws.take j).foldl (fun x (w : NodeWrite) => w.apply x) _).registered = false
    refine NodeWrite.unregistered (fun w hw => ?_) rfl
    have hmem := List.mem_of_mem_take hw
    simp only [ws, List.mem_cons, List.not_mem_nil, or_false] at hmem
    rcases hmem with rfl | rfl | rfl <;> simp
  · have hpid : ∀ vs : List NodeWrite, (∀ w ∈ vs, w ∈ ws) → ∀ w ∈ NodeWrite.registered false :: vs,
        ∀ v, w ≠ .pid v := by
      intro vs hvs w hw v
      rcases List.mem_cons.mp hw with rfl | hw
      · simp
      · have hmem := hvs w hw
        simp only [ws, List.mem_cons, List.not_mem_nil, or_false] at hmem
        rcases hmem with rfl | rfl | rfl <;> simp
    rw [hfull, Region.setNode_nodes, if_pos rfl, NodeWrite.samePid (hpid ws fun w hw => hw),
      NodeWrite.samePid (hpid _ fun w hw => List.mem_of_mem_take hw)]
  · rw [hws, List.take_length_add_append, ← List.map_take, Region.writeAll_append,
      Region.writeAll_node, hfull, List.take_succ_cons]
    exact (Region.setNode_over _ n _ _).symm

section Survivors

variable {s s' : Sys T} {L : Nat → List Nat} {F : List Nat} {U : Nat → Prop}

/-- The invariant speaks of the live threads, the nodes and the slots. -/
theorem PoolInv.of_live (hi : PoolInv s L F U) (hn : s'.region.nodes = s.region.nodes)
    (hs : s'.region.slots = s.region.slots) (hh : s'.region.nodeFreeHead = s.region.nodeFreeHead)
    (hf : s'.region.nodeFresh = s.region.nodeFresh)
    (hsame : ∀ u, s'.dead (s'.threads u).pid = false →
      s.dead (s.threads u).pid = false ∧ s'.threads u = s.threads u)
    (hlive : ∀ u, s.dead (s.threads u).pid = false →
      s'.dead (s'.threads u).pid = false) : PoolInv s' L F U where
  lists := hi.lists.congr (fun n => by rw [hn]; exact .refl _) (fun i => by rw [hs]) hh hf
  bound := hi.bound
  used := by rw [hs]; exact hi.used
  freed i hfr hL := by
    rw [hs] at hfr
    obtain ⟨u, hua, huf⟩ := hi.freed i hfr hL
    refine ⟨u, hlive u hua, ?_⟩
    rw [(hsame u (hlive u hua)).2]
    exact huf
  own u hua := by
    obtain ⟨h, ht⟩ := hsame u hua
    rw [ht, hf]
    exact hi.own u h
  nodup u hua := by
    obtain ⟨h, ht⟩ := hsame u hua
    rw [ht]
    exact hi.nodup u h
  apart u v n hua hva := by
    obtain ⟨hu, htu⟩ := hsame u hua
    obtain ⟨hv, htv⟩ := hsame v hva
    rw [htu, htv]
    exact hi.apart u v n hu hv
  owner u hua := by
    obtain ⟨h, ht⟩ := hsame u hua
    rw [ht, hn]
    exact hi.owner u h
  knows u hua := by
    obtain ⟨h, ht⟩ := hsame u hua
    rw [ht]
    exact (hi.knows u h).congr (fun i h => h) (fun n _ => congrFun hn n) (fun i => by rw [hs])
      fun i => by rw [hs]

/-- With nobody inside a critical section, an unregistered node off the free list may hold
    anything; only its owner's pid has to stay. -/
theorem PoolInv.setNode {n : Nat} {f : WaitNode → WaitNode} (hi : PoolInv s L F U)
    (hn : (s.region.nodes n).registered = false) (hF : n ∉ F)
    (hf : (f (s.region.nodes n)).registered = false)
    (hlock : ∀ u, s.dead (s.threads u).pid = false → (s.threads u).pc.locked = false)
    (hpid : ∀ u, s.dead (s.threads u).pid = false → n ∈ (s.threads u).pc.owned →
      (f (s.region.nodes n)).pid = (s.region.nodes n).pid) :
    PoolInv { s with region := s.region.setNode n f } L F U := by
  have hkept : ∀ u, s.dead (s.threads u).pid = false → ∀ m ∈ (s.threads u).pc.waitNodes,
      Kept (s.region.nodes m) ((s.region.setNode n f).nodes m) := by
    intro u hua m hm
    rw [Region.setNode_nodes]
    split
    · rename_i hmn
      subst hmn
      refine ⟨hpid u hua (List.mem_append_left _ hm), fun hreg => ?_⟩
      rw [hf] at hreg
      cases hreg
    · exact .refl _
  refine ⟨hi.lists.setFree hn hF hf, hi.bound, hi.used, hi.freed, hi.own, hi.nodup, hi.apart,
    fun u hua m hm => ?_, fun u hua => ?_⟩
  · exact (hkept u hua m hm).pid.trans (hi.owner u hua m hm)
  · exact (hi.knows u hua).of_unlocked (hlock u hua) (fun i h => h) (hkept u hua)

end Survivors

section Crash

variable [DecidableEq T] {s s' : Sys T} {L : Nat → List Nat} {F : List Nat} {U : Nat → Prop}
  {t : T} {o : Oracle} {ins : Instr} {pc' : Pc} {k : Nat}

/-- The death after a step leaves the survivors where they were. -/
theorem Sys.survivor {u : T}
    (hua : ((s.after t ins pc').died (s.threads t).pid).dead
      (((s.after t ins pc').died (s.threads t).pid).threads u).pid = false) :
    u ≠ t ∧ s.dead (s.threads u).pid = false ∧ (s.threads u).pid ≠ (s.threads t).pid ∧
      ((s.after t ins pc').died (s.threads t).pid).threads u = s.threads u := by
  rw [Sys.died_dead, Sys.died_threads, Sys.after_pid, Sys.after_dead, Bool.or_eq_false_iff] at hua
  have hpid : (s.threads u).pid ≠ (s.threads t).pid := of_decide_eq_false hua.1
  have hut : u ≠ t := by
    rintro rfl
    exact hpid rfl
  refine ⟨hut, hua.2, hpid, ?_⟩
  rw [Sys.died_threads, Sys.after_threads, if_neg hut]

/-- Nobody was emptying a slot. -/
theorem CrashSafe.clean
    (hg : PcGo s.toShared (s.threads t).pid o (s.threads t).pc ins pc') (hti : TableInv s)
    (ha : s.dead (s.threads t).pid = false) (hk : 0 < k)
    (hsafe : CrashSafe s (.crash t (s.threads t).pid ins k)
      (s.crashed (s.threads t).pid ins k))
    (hhead : ∀ i, ((s.after t ins pc').region.slots i).waiterHead =
      ((s.crashed (s.threads t).pid ins k).region.slots i).waiterHead) :
    CleanDeath (s.after t ins pc') (.die (s.threads t).pid) := by
  intro u i hu _ hf
  rw [Sys.after_pid] at hu
  rw [Sys.after_pc] at hf
  rw [hhead]
  by_cases hut : u = t
  · rw [if_pos hut] at hf
    rcases hg.frees (hti.ok t ha) hf with hf | ⟨_, hins⟩
    · exact hsafe.2.1 t i rfl (.inl hf)
    · refine hsafe.2.1 t i rfl (.inr ⟨rfl, hk, ?_⟩)
      rcases hins with rfl | rfl <;> rfl
  · rw [if_neg hut] at hf
    exact hsafe.2.1 u i hu (.inl hf)

/-- The death after a whole instruction, or one that differs from it off the list heads. -/
theorem NodesInv.died_after (hi : NodesInv s) (ha : s.dead (s.threads t).pid = false)
    (ht : tick o s.toShared (s.threads t).pid (s.threads t).calls (s.threads t).pc =
      some (ins, pc')) (hk : 0 < k)
    (hsafe : CrashSafe s (.crash t (s.threads t).pid ins k)
      (s.crashed (s.threads t).pid ins k))
    (hhead : ∀ i, ((s.after t ins pc').region.slots i).waiterHead =
      ((s.crashed (s.threads t).pid ins k).region.slots i).waiterHead) :
    ∃ L F U, PoolInv ((s.after t ins pc').died (s.threads t).pid) L F U := by
  obtain ⟨L, F, U, hp⟩ := hi.pool
  obtain ⟨L', F', U', hp', _⟩ := hp.tick hi.table hi.shape hi.sweeps hi.pids ha ht
  exact ⟨L', F', U', hp'.died (hsafe.clean (tick_inv ht) hi.table ha hk hhead)⟩

/-- The crash after a whole step, seen from the survivors. -/
theorem PoolInv.crashed (hp : PoolInv s' L F U)
    (hd : s'.dead = ((s.after t ins pc').died (s.threads t).pid).dead)
    (hth : s'.threads = ((s.after t ins pc').died (s.threads t).pid).threads)
    (hn : (s.crashed (s.threads t).pid ins k).region.nodes = s'.region.nodes)
    (hs : (s.crashed (s.threads t).pid ins k).region.slots = s'.region.slots)
    (hh : (s.crashed (s.threads t).pid ins k).region.nodeFreeHead = s'.region.nodeFreeHead)
    (hf : (s.crashed (s.threads t).pid ins k).region.nodeFresh = s'.region.nodeFresh) :
    PoolInv (s.crashed (s.threads t).pid ins k) L F U := by
  have hdead : ∀ u, s'.dead (s'.threads u).pid =
      (s.crashed (s.threads t).pid ins k).dead
        ((s.crashed (s.threads t).pid ins k).threads u).pid := by
    intro u
    rw [hd, hth, Sys.died_dead, Sys.died_threads, Sys.after_pid, Sys.after_dead]
    exact (Sys.died_dead _ _).symm
  refine hp.of_live hn hs hh hf (fun u hua => ?_) (fun u hua => ?_)
  · rw [← hdead] at hua
    refine ⟨hua, ?_⟩
    rw [hd, hth] at hua
    rw [hth]
    exact (Sys.survivor hua).2.2.2.symm
  · rw [← hdead]
    exact hua

/-- The lock holder's death leaves nobody inside a critical section. -/
theorem NodesInv.no_locker (hi : NodesInv s) (ha : s.dead (s.threads t).pid = false)
    (hl : (s.threads t).pc.locked = true) {u : T}
    (hua : ((s.after t ins pc').died (s.threads t).pid).dead
      (((s.after t ins pc').died (s.threads t).pid).threads u).pid = false) :
    (((s.after t ins pc').died (s.threads t).pid).threads u).pc.locked = false := by
  obtain ⟨hut, hlive, _, hsame⟩ := Sys.survivor hua
  rw [hsame]
  by_contra hne
  rw [Bool.not_eq_false] at hne
  exact hut (hi.table.lock.unique hne hlive hl ha)

omit [DecidableEq T] in
/-- What a death in the middle of an instruction leaves of the region. -/
theorem Sys.crashed_region (s : Sys T) (pid : U32) (ins : Instr) (k : Nat) :
    (s.crashed pid ins k).region = s.region.writeAll ((ins.writes s.region pid).take k) := rfl

/-- A death inside `node_alloc`, after its first store. -/
theorem NodesInv.crashed_alloc {c : WaitCtx} {n : Nat} {r' : Region} (hi : NodesInv s)
    (ha : s.dead (s.threads t).pid = false) (hpc : (s.threads t).pc = .wait c (.pass .alloc))
    (ht : tick o s.toShared (s.threads t).pid (s.threads t).calls (s.threads t).pc =
      some (.allocNode, pc')) (hn : s.region.nodeAlloc (s.threads t).pid = some (n, r'))
    (hk : 0 < k)
    (hsafe : CrashSafe s (.crash t (s.threads t).pid .allocNode k)
      (s.crashed (s.threads t).pid .allocNode k)) :
    ∃ L F U, PoolInv (s.crashed (s.threads t).pid .allocNode k) L F U := by
  obtain ⟨L, F, U, hp⟩ := hi.pool
  obtain ⟨F₁, hlists, hal⟩ := hp.lists.alloc hn
  have hreg : (s.region.nodes n).registered = false := by
    rcases hal.source with ⟨rfl, _⟩ | ⟨_, _, rfl, _⟩
    · exact (hp.lists.freeOk n (List.mem_cons_self ..)).2
    · by_contra hne
      rw [Bool.not_eq_false] at hne
      exact Nat.lt_irrefl _ (hp.lists.below _ hne)
  obtain ⟨x, hx, hcut⟩ := alloc_cut hn hreg hk
  have hr : (s.after t .allocNode pc').region = r' := by
    show (Instr.allocNode.apply t (s.threads t).pid s.toShared).region = r'
    simp only [Instr.apply, hn]
  have hslots : (s.crashed (s.threads t).pid .allocNode k).region.slots = r'.slots := by
    rw [Sys.crashed_region, hcut]
    rfl
  obtain ⟨L', F', U', hp'⟩ := hi.died_after ha ht hk hsafe fun i => by rw [hslots, hr]
  have hlists' := hp'.lists
  rw [Sys.died_region, hr] at hlists'
  -- nobody has the node: it was free or fresh
  obtain rfl : F₁ = F' := hlists.free.unique hlists'.free
  have hnF : n ∉ F₁ := by
    rcases hal.source with ⟨rfl, _⟩ | ⟨_, rfl, _⟩
    · exact (List.nodup_cons.mp hp.lists.freeNodup).1
    · exact List.not_mem_nil
  have hset := hp'.setNode (n := n) (f := fun _ => x)
    (by rw [Sys.died_region, hr, hal.node]; rfl) hnF hx
    (fun u hua => hi.no_locker ha (by rw [hpc]; rfl) hua) (fun u hua hm => by
      exfalso
      obtain ⟨_, hlive, _, hsame⟩ := Sys.survivor hua
      rw [hsame] at hm
      obtain ⟨hlt, hF⟩ := hp.own u hlive n hm
      rcases hal.source with ⟨rfl, _⟩ | ⟨_, _, rfl, _⟩
      · exact hF (List.mem_cons_self ..)
      · exact Nat.lt_irrefl _ hlt)
  have heq : (s.crashed (s.threads t).pid .allocNode k).region =
      ((s.after t .allocNode pc').died (s.threads t).pid).region.setNode n fun _ => x := by
    rw [Sys.crashed_region, hcut, Sys.died_region, hr]
  exact ⟨L', F₁, U', hset.crashed rfl rfl (congrArg _ heq) (congrArg _ heq) (congrArg _ heq)
    (congrArg _ heq)⟩

/-- A death inside `node_detach`, after the store to the flag. -/
theorem NodesInv.crashed_detach {n : Nat} (hi : NodesInv s)
    (ha : s.dead (s.threads t).pid = false)
    (ht : tick o s.toShared (s.threads t).pid (s.threads t).calls (s.threads t).pc =
      some (.detach n, pc')) (hreg : (s.region.nodes n).registered = true)
    (hk : (unlinkWrites s.region n).length < k)
    (hsafe : CrashSafe s (.crash t (s.threads t).pid (.detach n) k)
      (s.crashed (s.threads t).pid (.detach n) k)) :
    ∃ L F U, PoolInv (s.crashed (s.threads t).pid (.detach n) k) L F U := by
  obtain ⟨L, F, U, hp⟩ := hi.pool
  obtain ⟨x, hx, hxpid, hcut⟩ := detach_cut (s.threads t).pid hreg hk
  have hr : (s.after t (.detach n) pc').region = s.region.nodeDetach n := rfl
  have hslots : (s.crashed (s.threads t).pid (.detach n) k).region.slots =
      (s.region.nodeDetach n).slots := by
    rw [Sys.crashed_region, hcut]
    rfl
  obtain ⟨L', F', U', hp'⟩ := hi.died_after ha ht (by omega) hsafe fun i => by rw [hslots, hr]
  have hlists' := hp'.lists
  rw [Sys.died_region, hr] at hlists'
  obtain ⟨_, hlists, _⟩ := hp.lists.detach_any hreg
  obtain rfl : F = F' := hlists.free.unique hlists'.free
  have hnF : n ∉ F := by
    intro hF
    rw [(hp.lists.freeOk n hF).2] at hreg
    cases hreg
  have hset := hp'.setNode (n := n) (f := fun _ => x) Region.nodeDetach_self.1 hnF hx
    (fun u hua => hi.no_locker ha (tick_locked ht rfl) hua) (fun _ _ _ => hxpid)
  have heq : (s.crashed (s.threads t).pid (.detach n) k).region =
      ((s.after t (.detach n) pc').died (s.threads t).pid).region.setNode n fun _ => x := hcut
  exact ⟨L', F, U', hset.crashed rfl rfl (congrArg _ heq) (congrArg _ heq) (congrArg _ heq)
    (congrArg _ heq)⟩

omit [DecidableEq T] in
/-- A death inside `node_free`, between its two stores. -/
theorem NodesInv.crashed_free {n : Nat} (hi : NodesInv s)
    (ha : s.dead (s.threads t).pid = false) (hl : (s.threads t).pc.locked = true)
    (hn : n ∈ (s.threads t).pc.owned) (hreg : (s.region.nodes n).registered = false)
    (hd : CleanDeath s (.die (s.threads t).pid)) :
    ∃ L F U, PoolInv (s.crashed (s.threads t).pid (.freeNode n) 1) L F U := by
  obtain ⟨L, F, U, hp⟩ := hi.pool
  refine ⟨L, F, U, (hp.died hd).setNode (n := n)
    (f := (NodeWrite.waiterNext s.region.nodeFreeHead).apply) hreg (hp.own t ha n hn).2 hreg
    (fun u hua => ?_) (fun _ _ _ => rfl)⟩
  rw [Sys.died_dead, Sys.died_threads, Bool.or_eq_false_iff] at hua
  by_contra hne
  rw [Bool.not_eq_false] at hne
  obtain rfl := hi.table.lock.unique hne hua.2 hl ha
  exact absurd rfl (of_decide_eq_false hua.1)

/-- **The pool survives the death of a lock holder** that does not tear a list. -/
theorem NodesInv.crashed_pool (hi : NodesInv s) (ha : s.dead (s.threads t).pid = false)
    (ht : tick o s.toShared (s.threads t).pid (s.threads t).calls (s.threads t).pc =
      some (ins, pc'))
    (hsafe : CrashSafe s (.crash t (s.threads t).pid ins k)
      (s.crashed (s.threads t).pid ins k)) :
    ∃ L F U, PoolInv (s.crashed (s.threads t).pid ins k) L F U := by
  obtain ⟨L, F, U, hp⟩ := hi.pool
  rcases Nat.eq_zero_or_pos k with rfl | hk
  · exact ⟨L, F, U, hp.died fun u i hu _ hf => hsafe.2.1 u i hu (.inl hf)⟩
  · by_cases hfull : (ins.writes s.region (s.threads t).pid).length ≤ k
    · -- the instruction is complete
      have heq : (s.crashed (s.threads t).pid ins k).region =
          ((s.after t ins pc').died (s.threads t).pid).region := by
        rw [Sys.crashed_region, List.take_of_length_le hfull]
        exact Instr.writes_apply t _ s.toShared ins
      obtain ⟨L', F', U', hp'⟩ := hi.died_after ha ht hk hsafe fun i => by rw [heq]; rfl
      exact ⟨L', F', U', hp'.crashed rfl rfl (congrArg _ heq) (congrArg _ heq) (congrArg _ heq)
        (congrArg _ heq)⟩
    · have hlists : ins.lists = true := by
        by_contra hne
        rw [Bool.not_eq_true] at hne
        have := Instr.writes_short s.region (s.threads t).pid hne
        omega
      have hpool := (tick_inv ht).pool
      have hdetach : ∀ n, ins = .detach n → (s.region.nodes n).registered = true →
          ∃ L F U, PoolInv (s.crashed (s.threads t).pid ins k) L F U := by
        rintro n rfl hreg
        refine hi.crashed_detach ha ht hreg ?_ hsafe
        by_contra hle
        exact hsafe.1 ⟨hreg, hk, by omega⟩
      have hfree : ∀ n, ins = .freeNode n → n ∈ (s.threads t).pc.owned →
          (s.region.nodes n).registered = false →
          ∃ L F U, PoolInv (s.crashed (s.threads t).pid ins k) L F U := by
        rintro n rfl hn hreg
        obtain rfl : k = 1 := by
          have hlen : ((Instr.freeNode n).writes s.region (s.threads t).pid).length = 2 := rfl
          omega
        refine hi.crashed_free ha (tick_locked ht rfl) hn hreg fun u i hu _ hf => ?_
        exact hsafe.2.1 u i hu (.inl hf)
      generalize hpc : (s.threads t).pc = pc at hpool
      cases hpool with
      | alloc hn => exact hi.crashed_alloc ha hpc ht hn hk hsafe
      | @register c j hreg =>
        refine absurd ⟨hk, ?_⟩ hsafe.1
        simp only [Instr.writes, List.length_append, List.length_singleton] at hfull
        omega
      | wake hw =>
        rw [← hpc] at hw
        exact hdetach _ rfl (hp.walk_head ha hw).2.1
      | detach hreg => exact hdetach _ rfl hreg
      | reap _ _ hstands =>
        simp only [DeadCand.nodeStands, Bool.and_eq_true, decide_eq_true_eq] at hstands
        exact hdetach _ rfl hstands.1
      | @free c out n todo =>
        refine hfree _ rfl ?_ ((hp.knows t ha).nodes c _ hpc n (List.mem_cons_self ..))
        rw [hpc]
        exact List.mem_append_left _ (List.mem_cons_self ..)
      | @reapFree _ _ auto st n judged hsw =>
        have hmem : n ∈ (s.threads t).pc.reaped := by
          rw [hpc, Pc.reaped_sweep hsw]
          exact List.mem_singleton_self n
        exact hfree n rfl (List.mem_append_right _ hmem) ((hp.knows t ha).reaped n hmem)
      | @take kd retry i hf =>
        -- only the scan position is still the old one
        obtain rfl : k = 1 := by
          have hlen : ((Instr.takeSlot i).writes s.region (s.threads t).pid).length = 2 := rfl
          omega
        obtain ⟨L', F', U', hp'⟩ := hi.died_after ha ht hk hsafe fun i => rfl
        exact ⟨L', F', U', hp'.crashed rfl rfl rfl rfl rfl rfl⟩
      | other hl => rw [hl] at hlists; cases hlists

/-- The table outlives the crash as well. -/
theorem NodesInv.crashed_table (hi : NodesInv s) (ha : s.dead (s.threads t).pid = false)
    (ht : tick o s.toShared (s.threads t).pid (s.threads t).calls (s.threads t).pc =
      some (ins, pc')) : TableInv (s.crashed (s.threads t).pid ins k) := by
  have hlive : ∀ u, (s.crashed (s.threads t).pid ins k).dead
      ((s.crashed (s.threads t).pid ins k).threads u).pid = false →
      u ≠ t ∧ s.dead (s.threads u).pid = false := by
    intro u hua
    have hua' : (s.died (s.threads t).pid).dead (s.threads u).pid = false := hua
    rw [Sys.died_dead, Bool.or_eq_false_iff] at hua'
    refine ⟨?_, hua'.2⟩
    rintro rfl
    exact absurd rfl (of_decide_eq_false hua'.1)
  -- a survivor inside a critical section: then the dead thread was outside of one
  have hsame : ∀ u, (s.crashed (s.threads t).pid ins k).dead
      ((s.crashed (s.threads t).pid ins k).threads u).pid = false →
      (s.threads u).pc.locked = true → ∀ i, SameTable (s.region.slots i)
        ((s.crashed (s.threads t).pid ins k).region.slots i) := by
    intro u hua hlk i
    obtain ⟨hut, hua'⟩ := hlive u hua
    have hun := hi.table.lock.others ha ht hut hua' hlk
    have hlists : ins.lists = false := by
      by_contra hne
      rw [Bool.not_eq_false] at hne
      rw [Instr.lists_guarded hne] at hun
      cases hun
    have hshort := Instr.writes_short s.region (s.threads t).pid hlists
    rw [Sys.crashed_region]
    rcases Nat.eq_zero_or_pos k with rfl | hk
    · exact .refl _
    · rw [List.take_of_length_le (by omega), Instr.writes_apply t _ s.toShared ins]
      exact Sys.after_same hun s t pc' i
  have hlock : (s.died (s.threads t).pid).LockInv :=
    hi.table.lock.step (a := .die (s.threads t).pid) rfl
  refine ⟨hlock, hi.table.writes,
    fun u hua => ?_, fun u auto st i judged hua hsw => ?_⟩
  · by_cases hlk : (s.threads u).pc.locked = true
    · exact (hi.table.ok u (hlive u hua).2).same (hsame u hua hlk)
    · exact Pc.TableOk.of_unlocked (Bool.eq_false_of_not_eq_true hlk) _ _
  · have hst := (hsame u hua (Pc.locked_of_reapGen hsw) i).state
    exact hst.trans (hi.table.reaped u auto st i judged (hlive u hua).2 hsw)

/-- **Inversion of a step with crashes.** -/
inductive CrashGo (s : Sys T) : CrashAction T → Sys T → CrashLabel T → Prop
  | sys {a : Action T} {s' : Sys T} {l : Label T} : s.step a = some (s', l) →
      CrashGo s (.sys a) s' (.sys l)
  | crash {t : T} {o : Oracle} {k : Nat} {ins : Instr} {pc' : Pc} :
      s.dead (s.threads t).pid = false →
      tick o s.toShared (s.threads t).pid (s.threads t).calls (s.threads t).pc =
        some (ins, pc') →
      CrashGo s (.crash t o k) (s.crashed (s.threads t).pid ins k)
        (.crash t (s.threads t).pid ins k)

/-- **What a step of this system is**: a step of the system, or a death after some stores. -/
theorem Sys.crashStep_inv {a : CrashAction T} {l : CrashLabel T}
    (h : s.crashStep a = some (s', l)) : CrashGo s a s' l := by
  cases a with
  | sys a =>
    simp only [Sys.crashStep] at h
    split at h
    · cases h
    · rename_i hs
      cases h
      exact .sys hs
  | crash t o k =>
    simp only [Sys.crashStep] at h
    split at h
    · cases h
    · rename_i hd
      split at h
      · cases h
      · rename_i ht
        cases h
        exact .crash (by simpa using hd) ht

/-- **The invariant is kept by every safe step**, deaths in the middle of an instruction
    included. -/
theorem NodesInv.crashStep {a : CrashAction T} {l : CrashLabel T} (hi : NodesInv s)
    (h : s.crashStep a = some (s', l)) (hsafe : CrashSafe s l s') : NodesInv s' := by
  cases Sys.crashStep_inv h with
  | sys hs => exact hi.step hs hsafe.1
  | @crash t o k ins pc' ha ht =>
    refine ⟨hi.crashed_table ha ht, hi.shape, fun u auto p hp => ?_, hi.pids,
      hi.crashed_pool ha ht hsafe⟩
    refine (hi.sweeps u auto p hp).mono fun q hq => ?_
    exact (Sys.died_dead s (s.threads t).pid).trans (by rw [hq, Bool.or_true])

end Crash

/-! ### What the survivors rely on -/

/-- The node and slot indices a list operation uses are in the table; `node_detach` does not follow
    `obj = NIL`. -/
def Instr.InTable (r : Region) : Instr → Prop
  | .allocNode => ∀ n, r.nodeFreeHead = some n → n < nodeCount
  | .register n i w => n < nodeCount ∧ i < slotCount ∧ w < nodeCount ∧
    ∀ q, (r.slots i).waiterHead = some q → q < nodeCount
  | .detach n => n < nodeCount ∧ (∃ i, (r.nodes n).obj = some i ∧ i < slotCount) ∧
    (∀ p, (r.nodes n).objPrev = some p → p < nodeCount) ∧
    ∀ q, (r.nodes n).objNext = some q → q < nodeCount
  | .freeNode n | .bump n => n < nodeCount
  | .takeSlot i => i < slotCount
  | _ => True

/-- A wake walk over slot `i` that goes on undisturbed, for at most `k` steps: the memory it leaves
    behind, if it comes to its end. -/
def Walk.run (t : T) (pid : U32) (i : Nat) : Nat → Shared T → Walk → Option (Shared T)
  | 0, _, _ => none
  | k + 1, sh, w =>
    match w.step sh.region i with
    | none => none
    | some (ins, .more w') => Walk.run t pid i k (ins.apply t pid sh) w'
    | some (ins, .done ()) => some (ins.apply t pid sh)

/-- The thread that moves, or stops in the middle of a move. -/
def CrashLabel.actor? : CrashLabel T → Option T
  | .sys (.call t _) | .sys (.instr t _ _) | .crash t _ _ _ => some t
  | .sys (.die _) => none

/-- Thread `u` is about to bump the futex word `w` of thread `t`, which is still in its wait, unless
    `t` has died or panicked. -/
def Sys.Rings (s : Sys T) (t u : T) (w : Nat) : Prop :=
  s.dead (s.threads t).pid = true ∨ (s.threads t).pc = .panicked ∨
    (w ∈ (s.threads t).pc.waitNodes ∧ s.dead (s.threads u).pid = false ∧
      (s.threads u).pc.bumps? = some w)

/-- Thread `u`, in a wake walk that has detached a node of thread `t`, bumps `t`'s futex word before
    anything happens to it. -/
def Sys.LivesToRing [DecidableEq T] (s : Sys T) (t u : T) : Prop :=
  ∃ w, ∀ h s', Run Sys.crashStep (fun s l s' => CrashSafe s l s' ∧ l.actor? ≠ some u) s h s' →
    s'.Rings t u w

/-- The waiter structures serve the live threads. -/
structure Usable [DecidableEq T] (s : Sys T) : Prop where
  /-- No list operation leaves the table. -/
  inTable : ∀ t o ins pc', s.dead (s.threads t).pid = false →
    tick o s.toShared (s.threads t).pid (s.threads t).calls (s.threads t).pc = some (ins, pc') →
    ins.InTable s.region
  /-- A wake walk under way comes to its end, and empties the list. -/
  walks : ∀ t i w, s.dead (s.threads t).pid = false → (s.threads t).pc.walk? = some (i, w) →
    i < slotCount ∧ ∃ k ≤ 2 * nodeCount + 2, ∃ sh,
      w.run t (s.threads t).pid i k s.toShared = some sh ∧ (sh.region.slots i).waiterHead = none
  /-- A registered node of a live wait is reached from its object's list head. -/
  reachable : ∀ t n, s.dead (s.threads t).pid = false → n ∈ (s.threads t).pc.waitNodes →
    (s.region.nodes n).registered = true → ∃ i, (s.region.nodes n).obj = some i ∧ ∃ l : List Nat,
      Chain (fun n => (s.region.nodes n).objNext) (fun n => (s.region.nodes n).objPrev) none
        (s.region.slots i).waiterHead l ∧ n ∈ l
  /-- It stays registered until a survivor detaches it: its own thread, or a walk that lives to
      wake the wait. -/
  stays : ∀ t n a s' l, s.dead (s.threads t).pid = false → n ∈ (s.threads t).pc.waitNodes →
    (s.region.nodes n).registered = true → s.crashStep a = some (s', l) → CrashSafe s l s' →
    ((s'.region.nodes n).registered = true ∧
      (s'.region.nodes n).obj = (s.region.nodes n).obj) ∨
    s'.dead (s'.threads t).pid = true ∨
    ∃ u, l = .sys (.instr u (s.threads u).pid (.detach n)) ∧ (u = t ∨ s'.LivesToRing t u)

section Usable

variable {r : Region} {L : Nat → List Nat} {F : List Nat} {U : Nat → Prop}

/-- A registered node is in the table. -/
theorem ListsOk.below_count {n : Nat} (h : ListsOk r L F U)
    (hreg : (r.nodes n).registered = true) : n < nodeCount :=
  Nat.lt_of_lt_of_le (h.below n hreg) h.bound

/-- A listed node is in the table. -/
theorem ListsOk.mem_count {i n : Nat} (h : ListsOk r L F U) (hm : n ∈ L i) : n < nodeCount :=
  h.below_count ((h.mem i n).mp hm).1

/-- Lists hold each node once. -/
theorem ListsOk.length_le (h : ListsOk r L F U) (i : Nat) : (L i).length ≤ nodeCount := by
  have hsub : L i ⊆ List.range nodeCount := fun n hn => List.mem_range.mpr (h.mem_count hn)
  have hle := (List.subperm_of_subset (h.nodup i) hsub).length_le
  rwa [List.length_range] at hle

/-- Detaching a registered node stays in the table. -/
theorem ListsOk.detach_inTable {n : Nat} (h : ListsOk r L F U) (hU : ∀ i, U i → i < slotCount)
    (hreg : (r.nodes n).registered = true) : (Instr.detach n).InTable r := by
  obtain ⟨i, hobj⟩ := h.obj n hreg
  have hmem : n ∈ L i := (h.mem i n).mpr ⟨hreg, hobj⟩
  have hi : U i := h.touched i (List.ne_nil_of_mem hmem)
  obtain ⟨a, b, hab⟩ := List.append_of_mem hmem
  have hchain := h.chain i hi
  rw [hab] at hchain
  refine ⟨h.below_count hreg, ⟨i, hobj, hU i hi⟩, fun p hp => ?_, fun q hq => ?_⟩
  · have hprev : (r.nodes n).objPrev = a.getLast?.or none := hchain.prev_of_mem
    rw [Option.or_none, hp] at hprev
    refine h.mem_count (i := i) ?_
    rw [hab]
    exact List.mem_append_left _ (List.mem_of_getLast? hprev.symm)
  · have hnext : (r.nodes n).objNext = b.head? := hchain.next_of_mem
    rw [hq] at hnext
    refine h.mem_count (i := i) ?_
    rw [hab]
    exact List.mem_append_right _ (List.mem_cons_of_mem _ (List.mem_of_mem_head? hnext.symm))

/-- The memory that a walk leaves is that of its trace. -/
theorem Walk.run_eq (t : T) (pid : U32) (i k : Nat) (sh : Shared T) (w : Walk) :
    w.run t pid i k sh = (Walk.trace t pid i k sh w).map Prod.snd := by
  induction k generalizing sh w with
  | zero => rfl
  | succ k ih =>
    simp only [Walk.run, Walk.trace]
    cases w.step sh.region i with
    | none => rfl
    | some x =>
      obtain ⟨ins, q⟩ := x
      cases q with
      | more w' =>
        simp only [ih, Option.map_map]
        rfl
      | done _ => rfl

/-- The walk from a node on ends, and empties the list. -/
theorem ListsOk.walk_run {sh : Shared T} {i : Nat} (t : T) (pid : U32)
    (h : ListsOk sh.region L F U) (hi : U i) :
    ∃ k ≤ 2 * (L i).length + 1, ∃ sh', (Walk.node (sh.region.slots i).waiterHead).run t pid i k sh =
      some sh' ∧ (sh'.region.slots i).waiterHead = none := by
  obtain ⟨log, htrace, _, _, hlists⟩ := h.wake_trace t pid hi rfl
  refine ⟨_, le_refl _, { sh with region := sh.region.wakeAll i (L i) }, ?_, ?_⟩
  · rw [Walk.run_eq, htrace _ (le_refl _)]
    rfl
  · rw [(hlists.chain i hi).head, Function.update_self]
    rfl

/-- A store that leaves the registration of node `m` alone. -/
def Write.keeps (m : Nat) : Write → Prop
  | .node n (.registered _) | .node n (.obj _) => n ≠ m
  | _ => True

/-- Stores that leave the registration of a node alone, one after another. -/
theorem Region.writeAll_keeps {m : Nat} {ws : List Write} (hw : ∀ w ∈ ws, w.keeps m) (r : Region) :
    ((r.writeAll ws).nodes m).registered = (r.nodes m).registered ∧
      ((r.writeAll ws).nodes m).obj = (r.nodes m).obj := by
  induction ws generalizing r with
  | nil => exact ⟨rfl, rfl⟩
  | cons w ws ih =>
    have hfirst : ((w.apply r).nodes m).registered = (r.nodes m).registered ∧
        ((w.apply r).nodes m).obj = (r.nodes m).obj := by
      have hkeep := hw w (List.mem_cons_self ..)
      cases w with
      | node n w =>
        simp only [Write.apply, setNode_nodes]
        split
        · rename_i hmn
          subst hmn
          cases w with
          | registered | obj => exact absurd rfl hkeep
          | _ => exact ⟨rfl, rfl⟩
        · exact ⟨rfl, rfl⟩
      | _ => exact ⟨rfl, rfl⟩
    obtain ⟨h₁, h₂⟩ := ih (fun v hv => hw v (List.mem_cons_of_mem _ hv)) (w.apply r)
    rw [writeAll_cons]
    exact ⟨h₁.trans hfirst.1, h₂.trans hfirst.2⟩

/-- The stores of an instruction leave the registration of all other nodes alone. -/
theorem Instr.writes_keep {pid : U32} {ins : Instr} {m : Nat}
    (ha : ∀ n r', ins = .allocNode → r.nodeAlloc pid = some (n, r') → n ≠ m)
    (hr : ∀ i w, ins ≠ .register m i w) (hd : ins ≠ .detach m) :
    ∀ w ∈ ins.writes r pid, w.keeps m := by
  -- the fields that an allocation resets belong to the new node
  have hreset : ∀ n, n ≠ m → ∀ w ∈ resetWrites n pid, w.keeps m := by
    intro n hne w hw
    simp only [resetWrites, List.mem_cons, List.not_mem_nil, or_false] at hw
    rcases hw with rfl | rfl | rfl | rfl | rfl | rfl | rfl <;> first | exact hne | trivial
  intro w hw
  cases ins with
  | allocNode =>
    simp only [Instr.writes] at hw
    split at hw
    · rename_i head hf
      rcases List.mem_cons.mp hw with rfl | hw
      · trivial
      · obtain ⟨r', hal⟩ : ∃ r', r.nodeAlloc pid = some (head, r') := by
          simp [Region.nodeAlloc, hf]
        exact hreset head (ha head r' rfl hal) w hw
    · rename_i hf
      split at hw
      · cases hw
      · rename_i hfull
        rcases List.mem_cons.mp hw with rfl | hw
        · trivial
        · obtain ⟨r', hal⟩ : ∃ r', r.nodeAlloc pid = some (r.nodeFresh, r') := by
            simp [Region.nodeAlloc, hf, hfull]
          exact hreset _ (ha _ r' rfl hal) w hw
  | register n i v =>
    have hne : n ≠ m := by
      rintro rfl
      exact hr i v rfl
    simp only [Instr.writes, registerWrites, List.mem_append, List.mem_cons, List.not_mem_nil,
      or_false] at hw
    rcases hw with ((rfl | rfl | rfl | rfl | rfl) | hw) | rfl
    -- only the neighbour's back link is left, which does not count
    all_goals first | exact hne | trivial | skip
    split at hw
    · cases hw
    · rw [List.mem_singleton] at hw
      subst hw
      trivial
  | detach n =>
    have hne : n ≠ m := by
      rintro rfl
      exact hd rfl
    simp only [Instr.writes] at hw
    split at hw
    · cases hw
    · simp only [unlinkWrites, List.mem_append, List.mem_cons, List.not_mem_nil, or_false] at hw
      -- the stores to the neighbours leave the flag and the object alone
      rcases hw with (hw | hw) | rfl | rfl | rfl | rfl
      · split at hw
        · split at hw
          · rw [List.mem_singleton] at hw
            subst hw
            trivial
          · cases hw
        · rw [List.mem_singleton] at hw
          subst hw
          trivial
      · split at hw
        · cases hw
        · rw [List.mem_singleton] at hw
          subst hw
          trivial
      all_goals first | exact hne | trivial
  | freeNode n =>
    simp only [Instr.writes, List.mem_cons, List.not_mem_nil, or_false] at hw
    rcases hw with rfl | rfl <;> trivial
  | takeSlot i =>
    simp only [Instr.writes, List.mem_cons, List.not_mem_nil, or_false] at hw
    rcases hw with rfl | rfl <;> trivial
  | silent | lock | unlock | hold | countCall => cases hw
  | word | storeD | bump | store | reap | claim =>
    simp only [Instr.writes, List.mem_singleton] at hw
    subst hw
    trivial

end Usable

/-! ### Runs with crashes -/

/-- The invariant of the waiter structures, and the futex words that wake walks are about to
    bump. -/
structure CrashInv (s : Sys T) : Prop where
  nodes : NodesInv s
  words : ∀ t i w next, s.dead (s.threads t).pid = false →
    (s.threads t).pc.walk? = some (i, .bump (some w) next) → w < nodeCount

/-- The invariant holds of a fresh region. -/
theorem CrashInv.of_init {pid : T → U32} (hpid : ∀ t, pid t ≠ 0) :
    CrashInv (Sys.rest Region.init pid) :=
  ⟨.of_init hpid, fun _ _ _ _ _ h => (by cases h)⟩

section CrashRun

variable [DecidableEq T] {s s' : Sys T}

omit [DecidableEq T] in
/-- A walk loads its word from a registered node. -/
theorem CrashInv.words_after {t : T} {o : Oracle} {ins : Instr} {pc' : Pc} {i w : Nat}
    {next : Option Nat} (hi : CrashInv s) (ha : s.dead (s.threads t).pid = false)
    (hg : PcGo s.toShared (s.threads t).pid o (s.threads t).pc ins pc')
    (hw' : pc'.walk? = some (i, .bump (some w) next)) : w < nodeCount := by
  obtain ⟨L, F, U, hp⟩ := hi.nodes.pool
  cases hw : (s.threads t).pc.walk? with
  | none => rcases hg.noWalk hw with hn | ⟨j, hn⟩ <;> rw [hn] at hw' <;> cases hw'
  | some x =>
    obtain ⟨j, v⟩ := x
    obtain ⟨q, hq, hf, _⟩ := hg.walk hw
    cases hq with
    | @detach n =>
      have hf' : pc'.walk? = some (j, .bump (s.region.nodes n).waitWord
        (s.region.nodes n).objNext) := hf
      rw [hw'] at hf'
      obtain ⟨_, hreg, _⟩ := hp.walk_head ha hw
      obtain ⟨v, hword, hlt⟩ := hp.lists.word n hreg
      rw [hword] at hf'
      cases hf'
      exact Nat.lt_of_lt_of_le hlt hp.lists.bound
    | finished =>
      rw [show pc'.walk? = _ from hf] at hw'
      cases hw'
    | start | bump =>
      rw [show pc'.walk? = _ from hf] at hw'
      cases hw'

/-- **Every safe step keeps the invariant**, deaths in the middle of an instruction included. -/
theorem CrashInv.step {a : CrashAction T} {l : CrashLabel T} (hi : CrashInv s)
    (h : s.crashStep a = some (s', l)) (hsafe : CrashSafe s l s') : CrashInv s' := by
  refine ⟨hi.nodes.crashStep h hsafe, fun u i w next hua hw => ?_⟩
  cases Sys.crashStep_inv h with
  | sys hs =>
    cases Sys.step_inv hs with
    | call =>
      rw [Sys.entered_dead, Sys.entered_pid] at hua
      rw [Sys.entered_pc] at hw
      split at hw
      · rw [Pc.start_walk] at hw
        cases hw
      · exact hi.words u i w next hua hw
    | @tick t o ins pc' ha ht =>
      rw [Sys.after_dead, Sys.after_pid] at hua
      rw [Sys.after_pc] at hw
      split at hw
      · exact hi.words_after ha (tick_inv ht) hw
      · exact hi.words u i w next hua hw
    | die =>
      rw [Sys.died_dead, Sys.died_threads, Bool.or_eq_false_iff] at hua
      exact hi.words u i w next hua.2 hw
  | @crash t o k ins pc' ha ht =>
    have hua' : (s.died (s.threads t).pid).dead (s.threads u).pid = false := hua
    rw [Sys.died_dead, Bool.or_eq_false_iff] at hua'
    exact hi.words u i w next hua'.2 hw

omit [DecidableEq T] in
/-- **The list operations of the live threads stay in the table.** -/
theorem CrashInv.inTable {t : T} {o : Oracle} {ins : Instr} {pc' : Pc} (hi : CrashInv s)
    (ha : s.dead (s.threads t).pid = false)
    (ht : tick o s.toShared (s.threads t).pid (s.threads t).calls (s.threads t).pc =
      some (ins, pc')) : ins.InTable s.region := by
  obtain ⟨L, F, U, hp⟩ := hi.nodes.pool
  have hk := hp.knows t ha
  have hfresh : ∀ n ∈ (s.threads t).pc.owned, n < nodeCount := fun n hn =>
    Nat.lt_of_lt_of_le (hp.own t ha n hn).1 hp.lists.bound
  have hg := tick_inv ht
  have hpool := hg.pool
  generalize hpc : (s.threads t).pc = pc at hpool
  cases hpool with
  | alloc =>
    intro n hn
    have hpath := hp.lists.free
    rw [hn] at hpath
    cases F with
    | nil => cases hpath
    | cons m F =>
      obtain rfl : n = m := Option.some.inj hpath.1
      exact Nat.lt_of_lt_of_le (hp.lists.freeOk n (List.mem_cons_self ..)).1 hp.lists.bound
  | @register c j hreg =>
    obtain ⟨hlen, hj, hused, _⟩ := hk.nodes c _ hpc
    have hmem : ∀ j < c.nodes.length, c.node j < nodeCount := by
      intro j hj
      refine hfresh _ ?_
      rw [hpc]
      exact List.mem_append_left _ (WaitCtx.node_mem hj)
    have hU : U (c.target j) := hp.used _ (hused j hj)
    refine ⟨hmem j (by omega), hp.bound _ hU, hmem 0 (by omega), fun q hq => ?_⟩
    rw [(hp.lists.chain _ hU).head] at hq
    exact hp.lists.mem_count (List.mem_of_mem_head? hq)
  | wake hw =>
    rw [← hpc] at hw
    exact hp.lists.detach_inTable hp.bound (hp.walk_head ha hw).2.1
  | detach hreg => exact hp.lists.detach_inTable hp.bound hreg
  | reap _ _ hstands =>
    simp only [DeadCand.nodeStands, Bool.and_eq_true, decide_eq_true_eq] at hstands
    exact hp.lists.detach_inTable hp.bound hstands.1
  | free =>
    refine hfresh _ ?_
    rw [hpc]
    exact List.mem_append_left _ (List.mem_cons_self ..)
  | reapFree hsw =>
    refine hfresh _ (List.mem_append_right _ ?_)
    rw [hpc, Pc.reaped_sweep hsw]
    exact List.mem_singleton_self _
  | take hf => exact (Region.freeSlot_spec hf).1
  | other hl =>
    cases ins with
    | bump n =>
      -- only wake walks bump
      obtain ⟨i, next, hw⟩ := hg.bump
      exact hi.words t i n next ha hw
    | allocNode | register | detach | freeNode | takeSlot => cases hl
    | _ => trivial

omit [DecidableEq T] in
/-- **Wake walks come to an end.** -/
theorem CrashInv.walks {t : T} {i : Nat} {w : Walk} (hi : CrashInv s)
    (ha : s.dead (s.threads t).pid = false) (hw : (s.threads t).pc.walk? = some (i, w)) :
    i < slotCount ∧ ∃ k ≤ 2 * nodeCount + 2, ∃ sh,
      w.run t (s.threads t).pid i k s.toShared = some sh ∧
        (sh.region.slots i).waiterHead = none := by
  obtain ⟨L, F, U, hp⟩ := hi.nodes.pool
  have hk := hp.knows t ha
  have hU : U i := hk.touched i (Pc.touches_of_walk hw)
  have hok := hk.walk i w hw
  have hlen := hp.lists.length_le i
  refine ⟨hp.bound i hU, ?_⟩
  cases w with
  | start =>
    obtain ⟨k, hle, sh, hrun, hend⟩ := hp.lists.walk_run t (s.threads t).pid hU
    exact ⟨k + 1, by omega, sh, hrun, hend⟩
  | node idx =>
    obtain rfl : idx = _ := hok
    obtain ⟨k, hle, sh, hrun, hend⟩ := hp.lists.walk_run t (s.threads t).pid hU
    exact ⟨k, by omega, sh, hrun, hend⟩
  | bump v next =>
    obtain ⟨v, rfl⟩ := Option.isSome_iff_exists.mp hok.1
    obtain rfl : next = _ := hok.2
    have hbump : ListsOk ((Instr.bump v).apply t (s.threads t).pid s.toShared).region L F U :=
      (Instr.quiet_lists _ _ rfl hp.lists).1
    obtain ⟨k, hle, sh, hrun, hend⟩ := hbump.walk_run t (s.threads t).pid hU
    exact ⟨k + 1, by omega, sh, hrun, hend⟩

omit [DecidableEq T] in
/-- The instructions of the live threads leave the registration of each other's nodes alone, but
    for `node_detach`. -/
theorem CrashInv.writes_keep {t u : T} {o : Oracle} {ins : Instr} {pc' : Pc} {n : Nat}
    (hi : CrashInv s)
    (ht : tick o s.toShared (s.threads t).pid (s.threads t).calls (s.threads t).pc =
      some (ins, pc')) (hua : s.dead (s.threads u).pid = false)
    (hn : n ∈ (s.threads u).pc.waitNodes) (hreg : (s.region.nodes n).registered = true)
    (hd : ins ≠ .detach n) : ∀ w ∈ ins.writes s.region (s.threads t).pid, w.keeps n := by
  obtain ⟨L, F, U, hp⟩ := hi.nodes.pool
  refine Instr.writes_keep (fun m r' he hal => ?_) (fun i w he => ?_) hd
  · -- the allocated node was free
    rintro rfl
    obtain ⟨hlt, hF⟩ := hp.own u hua m (List.mem_append_left _ hn)
    obtain ⟨_, _, hal⟩ := hp.lists.alloc hal
    rcases hal.source with ⟨rfl, _⟩ | ⟨_, _, rfl, _⟩
    · exact hF (List.mem_cons_self ..)
    · exact Nat.lt_irrefl _ hlt
  · have hpool := (tick_inv ht).pool
    rw [he] at hpool
    generalize hins : Instr.register n i w = ins' at hpool
    generalize (s.threads t).pc = pc at hpool
    cases hpool with
    | register hfalse =>
      cases hins
      rw [hfalse] at hreg
      cases hreg
    | other hl =>
      subst hins
      cases hl
    | _ => cases hins

/-- **A due wake-up stays due** until it is made: the walk holds the lock, and its process does not
    die before. -/
theorem CrashInv.rings_step {t u : T} {w : Nat} {a : CrashAction T} {l : CrashLabel T}
    (hi : CrashInv s) (hut : u ≠ t) (hr : s.Rings t u w) (h : s.crashStep a = some (s', l))
    (hsafe : CrashSafe s l s') (hact : l.actor? ≠ some u) : s'.Rings t u w := by
  -- a death that leaves the wait alive is not the walk's
  have hdie : ∀ pid, (∀ u' w', s.Owes pid u' w' → u' ≠ u) →
      (s.died pid).dead (s.threads t).pid = true ∨ (s.threads t).pc = .panicked ∨
        (w ∈ (s.threads t).pc.waitNodes ∧ (s.died pid).dead (s.threads u).pid = false ∧
          (s.threads u).pc.bumps? = some w) := by
    intro pid howes
    simp only [Sys.died_dead, Bool.or_eq_true, Bool.or_eq_false_iff, decide_eq_true_eq,
      decide_eq_false_iff_not]
    rcases hr with hd | hp | ⟨hw, hua, hb⟩
    · exact .inl (.inr hd)
    · exact .inr (.inl hp)
    · by_cases ht : (s.threads t).pid = pid
      · exact .inl (.inl ht)
      · cases hta : s.dead (s.threads t).pid with
        | true => exact .inl (.inr rfl)
        | false =>
          refine .inr (.inr ⟨hw, ⟨fun hu => ?_, hua⟩, hb⟩)
          exact howes u w ⟨hu ▸ hua, hu, hb, t, hta, ht, hw⟩ rfl
  cases Sys.crashStep_inv h with
  | sys hs =>
    cases Sys.step_inv hs with
    | @call v c ha hout =>
      have huv : u ≠ v := fun he => hact (congrArg some he.symm)
      simp only [Sys.Rings, Sys.entered_dead, Sys.entered_pid, Sys.entered_pc, if_neg huv]
      by_cases htv : t = v
      · subst htv
        rcases hr with hd | hp | ⟨hw, _⟩
        · exact .inl hd
        · rw [hp] at hout
          cases hout
        · rw [(List.append_eq_nil_iff.mp (Pc.owned_of_outside hout)).1] at hw
          cases hw
      · rw [if_neg htv]
        exact hr
    | @tick v o ins pc' ha ht =>
      have huv : u ≠ v := fun he => hact (congrArg some he.symm)
      simp only [Sys.Rings, Sys.after_dead, Sys.after_pid, Sys.after_pc, if_neg huv]
      by_cases htv : t = v
      · subst htv
        rcases hr with hd | hp | ⟨hw, hua, hb⟩
        · exact .inl hd
        · rw [hp] at ht
          cases ht
        · obtain ⟨i, next, hwalk⟩ := Pc.walk_of_bumps hb
          have hun := hi.nodes.table.lock.others ha ht hut hua (Pc.locked_of_walk hwalk)
          rw [if_pos rfl]
          rcases hi.nodes.keeps_nodes ha (tick_inv ht) hun hw with hw' | hp
          · exact .inr (.inr ⟨hw', hua, hb⟩)
          · exact .inr (.inl hp)
      · rw [if_neg htv]
        exact hr
    | @die pid =>
      refine hdie pid fun u' w' ho _ => hsafe.2 pid u' w' rfl ho
  | @crash v o k ins pc' _ _ =>
    refine hdie _ fun u' w' ho he => hact ?_
    rw [← he, (hsafe.2.2.2 u' w' ho).1]
    rfl

/-- A walk that has detached a node of a live wait lives to wake the wait. -/
theorem CrashInv.lives_to_ring {t u : T} {w : Nat} (hi : CrashInv s) (hut : u ≠ t)
    (hr : s.Rings t u w) : s.LivesToRing t u := by
  refine ⟨w, fun h s' hrun => ?_⟩
  refine (hrun.state_invariant (I := fun s => CrashInv s ∧ s.Rings t u w) ⟨hi, hr⟩ ?_).2
  intro s a s' l ⟨hi, hr⟩ hs ⟨hsafe, hact⟩
  exact ⟨hi.step hs hsafe, hi.rings_step hut hr hs hsafe hact⟩

/-- A walk that detaches a node of a live wait bumps the wait's futex word next. -/
theorem CrashInv.detaches {t u : T} {n : Nat} {o : Oracle} {pc' : Pc} (hi : CrashInv s)
    (hi' : CrashInv (s.after u (.detach n) pc')) (hua : s.dead (s.threads u).pid = false)
    (ht : tick o s.toShared (s.threads u).pid (s.threads u).calls (s.threads u).pc =
      some (.detach n, pc')) (hta : s.dead (s.threads t).pid = false)
    (hn : n ∈ (s.threads t).pc.waitNodes) (hut : u ≠ t) :
    (s.after u (.detach n) pc').LivesToRing t u := by
  obtain ⟨L, F, U, hp⟩ := hi.nodes.pool
  obtain ⟨i, hw⟩ := (hi.nodes.detaches hua ht hta hn).resolve_left fun he => hut he.1.symm
  have hreg := (hp.walk_head hua hw).2.1
  -- the walk has loaded the word of the node, which is the wait's first node
  obtain ⟨q, hq, hf, _⟩ := (tick_inv ht).walk hw
  cases hq
  have hword : ∃ w ∈ (s.threads t).pc.waitNodes, (s.region.nodes n).waitWord = some w := by
    cases hpc : (s.threads t).pc with
    | wait c p =>
      rw [hpc] at hn
      have hall := WaitPc.owned_eq hn ((hp.knows t hta).nodes c p hpc) hreg
      refine ⟨c.node 0, ?_, hi.nodes.wellFormed.word t c p n hta hpc (by rw [hpc]; exact hn) hreg⟩
      have hmem : n ∈ p.owned c := hn
      rw [hall] at hmem
      show c.node 0 ∈ p.owned c
      rw [hall]
      exact WaitCtx.node_mem (List.length_pos_of_mem hmem)
    | _ =>
      rw [hpc] at hn
      cases hn
  obtain ⟨w, hmem, hword⟩ := hword
  refine hi'.lives_to_ring hut (w := w) (.inr (.inr ⟨?_, ?_, ?_⟩))
  · rw [Sys.after_pc, if_neg (Ne.symm hut)]
    exact hmem
  · rw [Sys.after_dead, Sys.after_pid]
    exact hua
  · rw [Sys.after_pc, if_pos rfl, Pc.bumps_of_walk hf]
    exact hword

/-- **A live wait's node stays in its list** until a survivor detaches it. -/
theorem CrashInv.stays {t : T} {n : Nat} {a : CrashAction T} {l : CrashLabel T} (hi : CrashInv s)
    (hta : s.dead (s.threads t).pid = false) (hn : n ∈ (s.threads t).pc.waitNodes)
    (hreg : (s.region.nodes n).registered = true) (h : s.crashStep a = some (s', l))
    (hsafe : CrashSafe s l s') :
    ((s'.region.nodes n).registered = true ∧
      (s'.region.nodes n).obj = (s.region.nodes n).obj) ∨
    s'.dead (s'.threads t).pid = true ∨
    ∃ u, l = .sys (.instr u (s.threads u).pid (.detach n)) ∧ (u = t ∨ s'.LivesToRing t u) := by
  cases Sys.crashStep_inv h with
  | sys hs =>
    cases Sys.step_inv hs with
    | call => exact .inl ⟨hreg, rfl⟩
    | @tick u o ins pc' ha ht =>
      by_cases hd : ins = .detach n
      · subst hd
        refine .inr (.inr ⟨u, rfl, ?_⟩)
        by_cases hut : u = t
        · exact .inl hut
        · exact .inr (hi.detaches (hi.step h hsafe) ha ht hta hn hut)
      · obtain ⟨h₁, h₂⟩ := Region.writeAll_keeps (hi.writes_keep ht hta hn hreg hd) s.region
        have happly : s.region.writeAll (ins.writes s.region (s.threads u).pid) =
          (s.after u ins pc').region := Instr.writes_apply u _ s.toShared ins
        rw [happly] at h₁ h₂
        exact .inl ⟨h₁.trans hreg, h₂⟩
    | die => exact .inl ⟨hreg, rfl⟩
  | @crash u o k ins pc' _ ht =>
    by_cases hd : ins = .detach n
    · subst hd
      by_cases hpid : (s.threads t).pid = (s.threads u).pid
      · -- the wait dies with the process
        refine .inr (.inl ?_)
        show (s.died (s.threads u).pid).dead (s.threads t).pid = true
        rw [Sys.died_dead, hpid]
        simp
      · have hk : k = 0 := by
          by_contra hne
          exact hsafe.2.2.1 n rfl (Nat.pos_of_ne_zero hne) ⟨t, hta, hpid, hn⟩
        subst hk
        exact .inl ⟨hreg, rfl⟩
    · have hkeep := hi.writes_keep ht hta hn hreg hd
      obtain ⟨h₁, h₂⟩ := Region.writeAll_keeps
        (fun w hw => hkeep w (List.mem_of_mem_take (i := k) hw)) s.region
      exact .inl ⟨h₁.trans hreg, h₂⟩

/-- **The invariant is what the survivors need.** -/
theorem CrashInv.usable (hi : CrashInv s) : Usable s where
  inTable _ _ _ _ ha ht := hi.inTable ha ht
  walks _ _ _ ha hw := hi.walks ha hw
  reachable t n _ _ hreg := by
    obtain ⟨L, F, U, hp⟩ := hi.nodes.pool
    obtain ⟨i, hobj⟩ := hp.lists.obj n hreg
    have hmem : n ∈ L i := (hp.lists.mem i n).mpr ⟨hreg, hobj⟩
    exact ⟨i, hobj, L i, hp.lists.chain i (hp.lists.touched i (List.ne_nil_of_mem hmem)), hmem⟩
  stays _ _ _ _ _ ha hn hreg h hsafe := hi.stays ha hn hreg h hsafe

end CrashRun

/-- **The survivors can go on.** Whatever processes die, and after whatever store, as long as no
    list is torn, no freed slot is left with waiters, and no waiter that lives on is taken off its
    list by a process that dies before it bumps the waiter's futex word. -/
theorem survivors_usable [DecidableEq T] {pid : T → U32} (hpid : ∀ t, pid t ≠ 0)
    {h : List (CrashLabel T)} {s : Sys T}
    (hr : Run Sys.crashStep CrashSafe (Sys.rest Region.init pid) h s) : Usable s := by
  have hi : CrashInv s := hr.state_invariant (.of_init hpid)
    fun s a s' l hi hs hsafe => hi.step hs hsafe
  exact hi.usable

instance (r : Region) (k : Nat) : (ins : Instr) → Decidable (ins.torn r k)
  | .register n i w => inferInstanceAs (Decidable (0 < k ∧ k ≤ (registerWrites r n i w).length))
  | .detach n => inferInstanceAs (Decidable
      ((r.nodes n).registered = true ∧ 0 < k ∧ k ≤ (unlinkWrites r n).length))
  | .silent | .lock | .unlock | .word _ _ _ _ | .storeD _ _ | .allocNode | .freeNode _ | .bump _
  | .takeSlot _ | .store _ _ | .reap _ | .hold _ _ | .claim _ | .countCall =>
    inferInstanceAs (Decidable False)

/-- The process dies with an intact list, without a freed slot, and outside of a wake walk. -/
def DiesTidy (s : Sys T) : CrashLabel T → Prop
  | .sys (.die pid) => ∀ t, (s.threads t).pid = pid →
    (s.threads t).pc.frees? = none ∧ (s.threads t).pc.bumps? = none
  | .sys _ => True
  | .crash _ pid ins k => ¬ ins.torn s.region k ∧ ins.freesSlot? = none ∧ ins.detached? = none ∧
    ∀ t, (s.threads t).pid = pid → (s.threads t).pc.frees? = none ∧ (s.threads t).pc.bumps? = none

instance [Fintype T] (s : Sys T) : (l : CrashLabel T) → Decidable (DiesTidy s l)
  | .sys (.die pid) => inferInstanceAs (Decidable (∀ t, (s.threads t).pid = pid →
      (s.threads t).pc.frees? = none ∧ (s.threads t).pc.bumps? = none))
  | .sys (.call _ _) | .sys (.instr _ _ _) => inferInstanceAs (Decidable True)
  | .crash _ pid ins k => inferInstanceAs (Decidable (¬ ins.torn s.region k ∧
      ins.freesSlot? = none ∧ ins.detached? = none ∧ ∀ t, (s.threads t).pid = pid →
        (s.threads t).pc.frees? = none ∧ (s.threads t).pc.bumps? = none))

/-- A death with no list and no walk under way is safe. -/
theorem DiesTidy.safe {s s' : Sys T} {l : CrashLabel T} (h : DiesTidy s l) : CrashSafe s l s' := by
  match l with
  | .sys (.die pid) =>
    refine ⟨fun t i ht _ hf => ?_, fun pid' u w he ho => ?_⟩
    · rw [(h t ht).1] at hf
      cases hf
    · cases he
      obtain ⟨_, hu, hb, _⟩ := ho
      rw [(h u hu).2] at hb
      cases hb
  | .sys (.call _ _) | .sys (.instr _ _ _) => exact ⟨trivial, fun _ _ _ he => by cases he⟩
  | .crash _ pid ins k =>
    obtain ⟨htorn, hfree, hdet, hpid⟩ := h
    refine ⟨htorn, fun u i hu hf => ?_, fun n he _ => ?_, fun u w ho => ?_⟩
    · rcases hf with hf | ⟨_, _, hf⟩
      · rw [(hpid u hu).1] at hf
        cases hf
      · rw [hfree] at hf
        cases hf
    · rw [he] at hdet
      cases hdet
    · obtain ⟨_, hu, hb, _⟩ := ho
      rw [(hpid u hu).2] at hb
      cases hb

/-- Process 8 creates an event; process 7 waits for it and is killed in `node_alloc`, after three
    stores; process 8 waits for the event. -/
def killedAllocating : List (CrashAction (Fin 2)) :=
  .sys (.call 1 (.create (.event false false))) :: List.replicate 18 (.sys (.tick 1 {})) ++
  .sys (.call 0 (.wait ⟨[1], 5, false, 0⟩ .never)) :: List.replicate 9 (.sys (.tick 0 {})) ++
  .crash 0 {} 3 ::
  .sys (.call 1 (.wait ⟨[1], 6, false, 0⟩ .never)) :: List.replicate 20 (.sys (.tick 1 {}))

/-- Process 8 goes on after a death inside `node_alloc`. -/
theorem survivors_usable_killedAllocating :
    ∃ h s, Run Sys.crashStep CrashSafe (Sys.rest Region.init twoWaitersPid) h s ∧
      s.dead 7 = true ∧ (s.region.slots 1).waiterHead = some 1 ∧ s.region.nodeFresh = 2 ∧
      Usable s := by
  obtain ⟨h, s, hr, h₁, h₂, h₃⟩ := exists_run_of_exec Sys.crashStep
    (fun s l _ => DiesTidy s l) (Sys.rest Region.init twoWaitersPid)
    (P := fun s => s.dead 7 = true ∧ (s.region.slots 1).waiterHead = some 1 ∧
      s.region.nodeFresh = 2) killedAllocating (by decide +kernel)
  have hsafe : Run Sys.crashStep CrashSafe (Sys.rest Region.init twoWaitersPid) h s :=
    hr.mono fun s l s' hd => hd.safe
  exact ⟨h, s, hsafe, h₁, h₂, h₃, survivors_usable (by decide) hsafe⟩

/-- As before, but process 7 is killed after the first store of `node_register`; process 8 sweeps
    and judges it dead. -/
def killedRegistering : List (CrashAction (Fin 2)) :=
  .sys (.call 1 (.create (.event false false))) :: List.replicate 18 (.sys (.tick 1 {})) ++
  .sys (.call 0 (.wait ⟨[1], 5, false, 0⟩ .never)) :: List.replicate 10 (.sys (.tick 0 {})) ++
  .crash 0 {} 1 :: .sys (.call 1 .sweepDead) :: List.replicate 5 (.sys (.tick 1 {}))

/-- The next instruction of the thread detaches node 0. -/
def Sys.detachesNext (s : Sys T) (t : T) : Bool :=
  match tick {} s.toShared (s.threads t).pid (s.threads t).calls (s.threads t).pc with
  | some (.detach 0, _) => true
  | _ => false

/-- **The sweep follows `obj = NIL`** of a node that its owner had only marked registered. -/
theorem detach_follows_nil :
    ∃ h s, Run Sys.crashStep (fun _ _ _ => True) (Sys.rest Region.init twoWaitersPid) h s ∧
      s.detachesNext 1 = true ∧ (s.region.nodes 0).obj = none ∧ ¬ Usable s := by
  obtain ⟨h, s, hr, h₁, h₂, h₃⟩ := exists_run_of_exec Sys.crashStep
    (fun _ _ _ => True) (Sys.rest Region.init twoWaitersPid)
    (P := fun s => s.detachesNext 1 = true ∧ (s.region.nodes 0).obj = none ∧
      s.dead (s.threads 1).pid = false) killedRegistering (by decide +kernel)
  refine ⟨h, s, hr, h₁, h₂, fun hu => ?_⟩
  unfold Sys.detachesNext at h₁
  split at h₁
  · rename_i pc' ht
    obtain ⟨_, ⟨i, hobj, _⟩, _⟩ := hu.inTable 1 {} _ pc' h₃ ht
    rw [h₂] at hobj
    cases hobj
  · cases h₁

end Ntsync
