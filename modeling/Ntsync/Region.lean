import Mathlib
import Ntsync.Lib.Words

namespace Ntsync

open Words

/-!
# The shared region

The data model of `core.rs`: the object slots, the waiter nodes and the header fields of the
shared mapping, the packing of an object's state into one `u64` word, and the locked list and
table operations (`node_alloc`, `node_free`, `node_detach`, `node_register`, `alloc_slot`, the
holder array).  Everything here is a pure function on the region; who runs it and when is the
business of the thread model.

* `NIL` (`u32::MAX`) links are `Option Nat` with `none` for `NIL`; table and pool are total
  functions of the index.
* A store to one field of a slot is a `SlotWrite`, so that an operation under the region lock can
  be given as the list of its stores in program order.
-/

abbrev U32 := BitVec 32
abbrev U64 := BitVec 64

/-! ### Constants -/

def maxWaitCount : Nat := 64
def slotCount : Nat := 16384
def nodeCount : Nat := 8192
def indexBits : Nat := 14
def indexMask : U32 := 0x3fff
def maxHolders : Nat := 8
def holderOverflow : U32 := 0x80000000
def scanWrapped : U32 := 0x80000000

/-! ### Slots -/

inductive SlotState where
  | free
  | used
  deriving DecidableEq, Repr

/-- The `TYPE_*` tags; `unset` is the zero of a slot that was never published. -/
inductive ObjType where
  | unset
  | sem
  | mutex
  | event
  | reserved
  deriving DecidableEq, Repr

/-- One object slot.  `w0` packs the object's state by type: a semaphore's `max | count`, a
    mutex's `ownerdead, count | owner`, an event's `manual | signaled` (high half first). -/
structure Slot where
  state : SlotState
  generation : U32
  objType : ObjType
  pid : U32
  waiterHead : Option Nat
  holdersLen : U32
  w0 : U64
  d : U64
  holders : Fin maxHolders → U32

/-- One waiter node of the shared pool (`wake_ts` only serves the debug log). -/
structure WaitNode where
  seq : U32
  registered : Bool
  obj : Option Nat
  waitWord : Option Nat
  objPrev : Option Nat
  objNext : Option Nat
  waiterNext : Option Nat
  pid : U32

/-- The mapped region: the header fields the code reads after initialisation, the slot table and
    the node pool. -/
structure Region where
  slots : Nat → Slot
  nodes : Nat → WaitNode
  nodeFreeHead : Option Nat
  nodeFresh : Nat
  nextScan : U32
  sweepNs : U64

/-- A zero page of the table: `waiter_head` is the index 0 there, not `NIL`. -/
def Slot.zero : Slot where
  state := .free
  generation := 0
  objType := .unset
  pid := 0
  waiterHead := some 0
  holdersLen := 0
  w0 := 0
  d := 0
  holders := fun _ => 0

def WaitNode.zero : WaitNode where
  seq := 0
  registered := false
  obj := some 0
  waitWord := some 0
  objPrev := some 0
  objNext := some 0
  waiterNext := some 0
  pid := 0

/-- The region `try_open_and_map` leaves behind: zero pages, the header, and slot 0 reserved. -/
def Region.init : Region where
  slots := fun i =>
    if i = 0 then { Slot.zero with state := .used, objType := .reserved, waiterHead := none }
    else Slot.zero
  nodes := fun _ => WaitNode.zero
  nodeFreeHead := none
  nodeFresh := 0
  nextScan := 0
  sweepNs := 0

namespace Region

/-- Update one slot. -/
def setSlot (r : Region) (i : Nat) (f : Slot → Slot) : Region :=
  { r with slots := Function.update r.slots i (f (r.slots i)) }

/-- Update one node. -/
def setNode (r : Region) (n : Nat) (f : WaitNode → WaitNode) : Region :=
  { r with nodes := Function.update r.nodes n (f (r.nodes n)) }

section Frame

variable (r : Region) (i n m : Nat) (f : Slot → Slot) (g : WaitNode → WaitNode)

@[simp] theorem setSlot_slots :
    (r.setSlot i f).slots m = if m = i then f (r.slots i) else r.slots m := by
  by_cases h : m = i <;> simp [setSlot, h]

@[simp] theorem setSlot_nodes : (r.setSlot i f).nodes = r.nodes := rfl
@[simp] theorem setSlot_nodeFreeHead : (r.setSlot i f).nodeFreeHead = r.nodeFreeHead := rfl
@[simp] theorem setSlot_nodeFresh : (r.setSlot i f).nodeFresh = r.nodeFresh := rfl
@[simp] theorem setSlot_nextScan : (r.setSlot i f).nextScan = r.nextScan := rfl
@[simp] theorem setSlot_sweepNs : (r.setSlot i f).sweepNs = r.sweepNs := rfl

@[simp] theorem setNode_nodes :
    (r.setNode n g).nodes m = if m = n then g (r.nodes n) else r.nodes m := by
  by_cases h : m = n <;> simp [setNode, h]

@[simp] theorem setNode_slots : (r.setNode n g).slots = r.slots := rfl
@[simp] theorem setNode_nodeFreeHead : (r.setNode n g).nodeFreeHead = r.nodeFreeHead := rfl
@[simp] theorem setNode_nodeFresh : (r.setNode n g).nodeFresh = r.nodeFresh := rfl
@[simp] theorem setNode_nextScan : (r.setNode n g).nextScan = r.nextScan := rfl
@[simp] theorem setNode_sweepNs : (r.setNode n g).sweepNs = r.sweepNs := rfl

end Frame

end Region

/-! ### Handles -/

/-- `handle & INDEX_MASK`. -/
def handleIndex (h : U32) : Nat := (h &&& indexMask).toNat

/-- `handle >> INDEX_BITS`. -/
def handleGen (h : U32) : U32 := h >>> indexBits

/-- `(generation << INDEX_BITS) | index`. -/
def mkHandle (generation : U32) (index : Nat) : U32 :=
  (generation <<< indexBits) ||| BitVec.ofNat 32 index

/-- `Region::slot`: the slot index of a handle whose slot is used under the handle's generation. -/
def Region.slot (r : Region) (h : U32) : Option Nat :=
  let index := handleIndex h
  if slotCount ≤ index then none
  else if (r.slots index).state = .used ∧ (r.slots index).generation = handleGen h then some index
  else none

/-! ### The packed state word -/

/-- `pack_sem`. -/
def packSem (count max : U32) : U64 := (max.setWidth 64 <<< 32) ||| count.setWidth 64

/-- `pack_mutex`: the count keeps its low 31 bits, bit 31 of the high half is the abandoned flag. -/
def packMutex (owner count : U32) (ownerdead : Bool) : U64 :=
  (((count.setWidth 64 &&& 0x7fffffff) ||| ((if ownerdead then (1 : U64) else 0) <<< 31)) <<< 32)
    ||| owner.setWidth 64

/-- `pack_event`. -/
def packEvent (signaled manual : Bool) : U64 :=
  ((if manual then (1 : U64) else 0) <<< 32) ||| (if signaled then 1 else 0)

/-- The recursion limit `0x7fff_ffff`, also the mask of the 31-bit count. -/
def maxRecursion : U32 := 0x7fffffff

/-- The 31-bit recursion count of a mutex word. -/
def mutexCount (w : U64) : U32 := hi32 w &&& maxRecursion

/-- The abandoned flag of a mutex word. -/
def mutexDead (w : U64) : Bool := decide (hi32 w >>> 31 ≠ 0)

/-! ### The node pool and the waiter lists (caller holds the region lock) -/

namespace Region

/-- `node_alloc`: pop the free list, or hand out the next fresh node. -/
def nodeAlloc (r : Region) (pid : U32) : Option (Nat × Region) :=
  let taken : Option (Nat × Region) :=
    match r.nodeFreeHead with
    | some head => some (head, { r with nodeFreeHead := (r.nodes head).waiterNext })
    | none =>
      if nodeCount ≤ r.nodeFresh then none
      else some (r.nodeFresh, { r with nodeFresh := r.nodeFresh + 1 })
  match taken with
  | none => none
  | some (idx, r) =>
    some (idx, r.setNode idx fun n =>
      { n with registered := false, obj := none, waitWord := none, objPrev := none,
               objNext := none, waiterNext := none, pid := pid })

/-- `node_free`. -/
def nodeFree (r : Region) (idx : Nat) : Region :=
  { r.setNode idx fun n => { n with waiterNext := r.nodeFreeHead } with nodeFreeHead := some idx }

/-- `node_detach`: unlink a registered node from its object's list.  A registered node whose `obj`
    is `NIL` would make the source write outside the table; there the model leaves the slots
    alone. -/
def nodeDetach (r : Region) (idx : Nat) : Region :=
  if (r.nodes idx).registered = false then r
  else
    let r₁ := match (r.nodes idx).objPrev with
      | none =>
        match (r.nodes idx).obj with
        | some o => r.setSlot o fun s => { s with waiterHead := (r.nodes idx).objNext }
        | none => r
      | some p => r.setNode p fun n => { n with objNext := (r.nodes idx).objNext }
    let r₂ := match (r₁.nodes idx).objNext with
      | none => r₁
      | some q => r₁.setNode q fun n => { n with objPrev := (r₁.nodes idx).objPrev }
    r₂.setNode idx fun n =>
      { n with registered := false, obj := none, objPrev := none, objNext := none }

/-- `node_detach` writes slots and nodes only. -/
theorem nodeDetach_rest (r : Region) (n : Nat) :
    (r.nodeDetach n).nodeFreeHead = r.nodeFreeHead ∧ (r.nodeDetach n).nodeFresh = r.nodeFresh ∧
    (r.nodeDetach n).nextScan = r.nextScan ∧ (r.nodeDetach n).sweepNs = r.sweepNs := by
  unfold nodeDetach
  split
  · exact ⟨rfl, rfl, rfl, rfl⟩
  · cases (r.nodes n).objPrev with
    | none =>
      cases (r.nodes n).obj <;> dsimp only <;> split <;> exact ⟨rfl, rfl, rfl, rfl⟩
    | some p =>
      dsimp only
      split <;> exact ⟨rfl, rfl, rfl, rfl⟩

/-- `node_register`: link a node in front of the object's waiter list. -/
def nodeRegister (r : Region) (idx obj waitWord : Nat) : Region :=
  let oldHead := (r.slots obj).waiterHead
  let r₁ := r.setNode idx fun n =>
    { n with registered := true, obj := some obj, waitWord := some waitWord, objPrev := none,
             objNext := oldHead }
  let r₂ := match oldHead with
    | none => r₁
    | some q => r₁.setNode q fun n => { n with objPrev := some idx }
  r₂.setSlot obj fun s => { s with waiterHead := some idx }

/-- `seq.fetch_add(1)` on a head node. -/
def bumpSeq (r : Region) (idx : Nat) : Region :=
  r.setNode idx fun n => { n with seq := n.seq + 1 }

/-! ### The slot table -/

/-- The scan of `alloc_slot` from the cursor: the first free index among the next `fuel` ones. -/
def scanFree (r : Region) (cursor : Nat) : Nat → Nat → Option Nat
  | 0, _ => none
  | fuel + 1, i =>
    let index := (cursor + i) % slotCount
    if (r.slots index).state = .free then some index else r.scanFree cursor fuel (i + 1)

/-- The allocation cursor, without the wrapped flag. -/
def cursor (r : Region) : Nat := (r.nextScan &&& ~~~scanWrapped).toNat

/-- The index `alloc_slot` picks. -/
def freeSlot (r : Region) : Option Nat := r.scanFree r.cursor slotCount 0

/-- The stores of `alloc_slot` for the picked index: an empty waiter list and the new cursor. -/
def takeSlot (r : Region) (index : Nat) : Region :=
  let next := (index + 1) % slotCount
  let flags := if next = 0 then scanWrapped else r.nextScan &&& scanWrapped
  { r.setSlot index fun s => { s with waiterHead := none } with
    nextScan := BitVec.ofNat 32 next ||| flags }

/-- `alloc_slot`: the handle of the picked slot. -/
def allocSlot (r : Region) : Option (U32 × Region) :=
  match r.freeSlot with
  | none => none
  | some index => some (mkHandle (r.slots index).generation index, r.takeSlot index)

end Region

/-! ### Stores to a slot -/

/-- A single store to one field of a slot. -/
inductive SlotWrite where
  | state (v : SlotState)
  | generation (v : U32)
  | objType (v : ObjType)
  | pid (v : U32)
  | holdersLen (v : U32)
  | holder (k : Fin maxHolders) (v : U32)
  | w0 (v : U64)
  | d (v : U64)

def SlotWrite.apply : SlotWrite → Slot → Slot
  | .state v, s => { s with state := v }
  | .generation v, s => { s with generation := v }
  | .objType v, s => { s with objType := v }
  | .pid v, s => { s with pid := v }
  | .holdersLen v, s => { s with holdersLen := v }
  | .holder k v, s => { s with holders := Function.update s.holders k v }
  | .w0 v, s => { s with w0 := v }
  | .d v, s => { s with d := v }

/-- `slot_publish`: the object's fields first, `SLOT_USED` last. -/
def slotPublish (objType : ObjType) (w0 : U64) (pid : U32) : List SlotWrite :=
  [.w0 w0, .d 0, .objType objType, .pid pid, .holdersLen 0] ++
    (List.finRange maxHolders).map (fun k => .holder k 0) ++ [.state .used]

namespace Slot

/-- The number of tracked holders, the overflow bit masked off. -/
def holderCap (s : Slot) : Nat := min (s.holdersLen &&& ~~~holderOverflow).toNat maxHolders

/-- The first tracked position that holds `pid`. -/
def holderFind (s : Slot) (pid : U32) : Option (Fin maxHolders) :=
  (List.finRange maxHolders).find? fun k => decide (k.val < s.holderCap ∧ s.holders k = pid)

/-- `holder_remove`: swap the last tracked pid into the gap. -/
def holderRemove (s : Slot) (pid : U32) : List SlotWrite :=
  match s.holderFind pid with
  | none => []
  | some k =>
    let last : Fin maxHolders := ⟨s.holderCap - 1, by
      have : s.holderCap ≤ maxHolders := Nat.min_le_right _ _
      have : 0 < maxHolders := by decide
      omega⟩
    [.holder k (s.holders last), .holder last 0,
      .holdersLen (BitVec.ofNat 32 (s.holderCap - 1) ||| (s.holdersLen &&& holderOverflow))]

/-- `holder_add`: append the pid, or set the sticky overflow bit when there is no room. -/
def holderAdd (s : Slot) (pid : U32) : List SlotWrite :=
  match s.holderFind pid with
  | some _ => []
  | none =>
    if h : s.holderCap < maxHolders then
      [.holder ⟨s.holderCap, h⟩ pid,
        .holdersLen (BitVec.ofNat 32 (s.holderCap + 1) ||| (s.holdersLen &&& holderOverflow))]
    else [.holdersLen (s.holdersLen ||| holderOverflow)]

end Slot

end Ntsync
