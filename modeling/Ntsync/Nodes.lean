import Mathlib
import Ntsync.Lifetime
import Ntsync.Shape
import Ntsync.Owners

namespace Ntsync

open Words Lts Links

/-!
# Waiter lists and node pool over whole runs

The lists of `Lists` under any number of processes that allocate, register, detach, wake, free and
reap.

* `WaitPc.NodesOk`, `Pc.Knows` — what a live thread knows about its nodes and about the list it is
  walking; nobody else invalidates it;
* `PoolInv` — the lists are well formed, and the nodes owned by live threads are apart from each
  other and from the free list.  It survives every step and every death that does not interrupt
  the emptying of a freed slot;
* `lists_well_formed` — the lists and the pool in every run without deaths inside a critical
  section.
-/

variable {T : Type}

/-! ### What a wait knows -/

/-- The list head a wake walk has come to. -/
def Walk.Ok (head : Option Nat) : Walk → Prop
  | .start => True
  | .node idx => idx = head
  | .bump w next => w.isSome = true ∧ next = head

namespace WaitCtx

/-- A wait allocates all of its nodes in one pass. -/
def Whole (c : WaitCtx) : Prop := c.nodes = [] ∨ c.nodes.length = c.nNodes

/-- The slots of the first `n` nodes are in use. -/
def UsedTo (c : WaitCtx) (r : Region) (n : Nat) : Prop :=
  ∀ k < n, (r.slots (c.target k)).state = .used

/-- The first `n` nodes are registered. -/
def RegisteredTo (c : WaitCtx) (r : Region) (n : Nat) : Prop :=
  ∀ k < n, (r.nodes (c.node k)).registered = true

/-- The `k`-th node of a wait is one of its nodes. -/
theorem node_mem {c : WaitCtx} {k : Nat} (h : k < c.nodes.length) : c.node k ∈ c.nodes := by
  rw [node, List.getD_eq_getElem?_getD, List.getElem?_eq_getElem h]
  exact List.getElem_mem h

/-- Each node of a wait has a place. -/
theorem exists_node {c : WaitCtx} {n : Nat} (h : n ∈ c.nodes) :
    ∃ k < c.nodes.length, c.node k = n := by
  obtain ⟨k, hk, rfl⟩ := List.getElem_of_mem h
  exact ⟨k, hk, by rw [node, List.getD_eq_getElem?_getD, List.getElem?_eq_getElem hk]; rfl⟩

end WaitCtx

/-- How far a wait has got with its nodes. -/
def WaitPc.NodesOk (r : Region) (c : WaitCtx) : WaitPc → Prop
  | .fast _ => c.nodes = []
  | .pass .lock => c.Whole
  | .pass (.validate i) => c.Whole ∧ i < c.handles.length ∧ c.UsedTo r i
  | .pass .validateAlert => c.Whole ∧ c.UsedTo r c.handles.length
  | .pass .alertTest => c.Whole ∧ c.UsedTo r c.nNodes
  | .pass .alloc => c.nodes.length < c.nNodes ∧ c.UsedTo r c.nNodes
  | .pass (.register i) =>
    c.nodes.length = c.nNodes ∧ i < c.nNodes ∧ c.UsedTo r c.nNodes ∧ c.RegisteredTo r i
  | .pass _ => c.nodes.length = c.nNodes ∧ c.RegisteredTo r c.nNodes
  | .detach (.peek k) | .detach (.detach k) => c.nodes.length = c.nNodes ∧ k < c.nodes.length
  | .clean _ (.detach todo) =>
    (∀ n ∈ todo, n ∈ c.nodes) ∧ ∀ n ∈ c.nodes, n ∈ todo ∨ (r.nodes n).registered = false
  | .clean _ (.free todo) => ∀ n ∈ todo, (r.nodes n).registered = false
  | .clean _ .lock | .clean _ .unlock => True
  | _ => c.nodes.length = c.nNodes

/-- What a wait knows outside the critical sections does not depend on the region. -/
theorem WaitPc.NodesOk.of_unlocked {r r' : Region} {c : WaitCtx} {p : WaitPc}
    (h : p.NodesOk r c) (hl : p.locked = false) : p.NodesOk r' c := by
  cases p with
  | pass p => cases p <;> first | exact h | cases hl
  | detach p => cases p <;> exact h
  | clean o p => cases p <;> first | exact h | cases hl
  | _ => exact h

/-- What a wait knows is about its own nodes and the states of the slots. -/
theorem WaitPc.NodesOk.congr {r r' : Region} {c : WaitCtx} {p : WaitPc} (h : p.NodesOk r c)
    (hn : ∀ n ∈ p.owned c, r'.nodes n = r.nodes n)
    (hs : ∀ i, (r'.slots i).state = (r.slots i).state) : p.NodesOk r' c := by
  have hused : ∀ n, c.UsedTo r n → c.UsedTo r' n := fun n hu k hk => (hs _).trans (hu k hk)
  have hreg : ∀ n ≤ c.nodes.length, (∀ m ∈ c.nodes, r'.nodes m = r.nodes m) →
      c.RegisteredTo r n → c.RegisteredTo r' n := by
    intro n hle hn hr k hk
    rw [hn _ (WaitCtx.node_mem (Nat.lt_of_lt_of_le hk hle))]
    exact hr k hk
  cases p with
  | pass p =>
    cases p with
    | lock => exact h
    | validate i => exact ⟨h.1, h.2.1, hused _ h.2.2⟩
    | validateAlert | alertTest | alloc => exact ⟨h.1, hused _ h.2⟩
    | register i =>
      exact ⟨h.1, h.2.1, hused _ h.2.2.1, hreg _ (h.1 ▸ h.2.1.le) hn h.2.2.2⟩
    | sat | sample | unlock => exact ⟨h.1, hreg _ h.1.ge hn h.2⟩
  | clean o p =>
    cases p with
    | detach todo => exact ⟨h.1, fun n hm => by rw [hn n hm]; exact h.2 n hm⟩
    | free todo => exact fun n hm => by rw [hn n hm]; exact h n hm
    | lock | unlock => trivial
  | detach p => cases p <;> exact h
  | _ => exact h

/-- What a thread knows about its nodes and the list it walks. -/
structure Pc.Knows (r : Region) (U : Nat → Prop) (pc : Pc) : Prop where
  touched : ∀ i, pc.touches i → U i
  walk : ∀ i w, pc.walk? = some (i, w) → w.Ok (r.slots i).waiterHead
  reaped : ∀ n ∈ pc.reaped, (r.nodes n).registered = false
  entry : ∀ c p, pc = .wait c p → ∀ k < c.nodes.length, c.node k ∈ p.owned c →
    (r.nodes (c.node k)).registered = true →
    (r.nodes (c.node k)).obj = some (c.target k) ∧
      (r.nodes (c.node k)).waitWord = some (c.node 0)
  nodes : ∀ c p, pc = .wait c p → p.NodesOk r c

section WaitStep

variable {o : Oracle} {sh : Shared T} {pid : U32} {ins : Instr} {pc' : Pc} {c c' : WaitCtx}
  {p p' : WaitPc}

/-- A valid wait has a node. -/
theorem WaitCtx.nNodes_pos (hv : c.valid = true) : 0 < c.nNodes := by
  have hne := (WaitArgs.valid_iff.mp hv).2.1
  have := List.length_pos_iff.mpr hne
  unfold WaitCtx.nNodes
  omega

/-- After the validation the wait allocates its nodes or registers those it has. -/
theorem WaitCtx.nodesOk_afterAlert {r : Region} (hv : c.valid = true) (hw : c.Whole)
    (hu : c.UsedTo r c.nNodes) : c.afterAlert.NodesOk r c := by
  have hpos := c.nNodes_pos hv
  unfold WaitCtx.afterAlert
  split
  · rename_i hnil
    refine ⟨?_, hu⟩
    rw [hnil]
    exact hpos
  · rename_i hnil
    exact ⟨hw.resolve_left hnil, hpos, hu, fun k hk => absurd hk (Nat.not_lt_zero _)⟩

/-- A validation that goes on knows one more slot to be in use. -/
theorem WaitCtx.nodesOk_validateNext {r : Region} {i : Nat} (hv : c.valid = true) (hw : c.Whole)
    (hi : i < c.handles.length) (hu : c.UsedTo r (i + 1)) : (c.validateNext i).NodesOk r c := by
  unfold WaitCtx.validateNext
  split
  · rename_i hlt
    exact ⟨hw, hlt, hu⟩
  · have hlen : i + 1 = c.handles.length := by omega
    rw [hlen] at hu
    split
    · exact ⟨hw, hu⟩
    · rename_i ha
      refine c.nodesOk_afterAlert hv hw ?_
      rw [WaitCtx.nNodes, if_neg ha]
      exact hu

/-- The snapshot of the pulse counters plays no role. -/
theorem WaitPc.NodesOk.setSeq {r : Region} {k : Nat} {d : U64} (h : p.NodesOk r c) :
    p.NodesOk r (c.setSeq k d) := by
  cases p with
  | pass p => cases p <;> exact h
  | detach p => cases p <;> exact h
  | clean o p => cases p <;> exact h
  | _ => exact h

/-- One more slot is known to be in use. -/
theorem WaitCtx.UsedTo.succ {r : Region} {i : Nat} (h : c.UsedTo r i)
    (hi : (r.slots (c.target i)).state = .used) : c.UsedTo r (i + 1) := by
  intro k hk
  rcases Nat.lt_succ_iff_lt_or_eq.mp hk with hk | rfl
  · exact h k hk
  · exact hi

/-- A step of the locked pass, on its wait's knowledge. -/
theorem PassGo.nodesOk {q : PassPc} (hg : PassGo o sh pid c q ins (.wait c' p')) (t : T)
    (hv : c.valid = true) (h : (WaitPc.pass q).NodesOk sh.region c) :
    p'.NodesOk (ins.apply t pid sh).region c' := by
  generalize hpc : Pc.wait c' p' = pc' at hg
  -- the stores of `try_satisfy` change words only
  have hsat : ∀ w : Option SatWrite,
      ((satInstr c.toWaitArgs w).apply t pid sh).region.nodes = sh.region.nodes := by
    intro w
    rcases w with _ | w
    · rfl
    · cases w <;> rfl
  cases hg with
  | lock =>
    cases hpc
    refine ⟨h, ?_, fun k hk => absurd hk (Nat.not_lt_zero _)⟩
    exact List.length_pos_iff.mpr (WaitArgs.valid_iff.mp hv).2.1
  | @validateFirst i j hj =>
    cases hpc
    obtain ⟨rfl, hu, _⟩ := Region.slot_eq_some.mp hj
    obtain ⟨hw, hi, hto⟩ := h
    refine WaitPc.NodesOk.setSeq (c.nodesOk_validateNext hv hw hi (hto.succ ?_))
    rw [WaitCtx.target, if_pos hi]
    exact hu
  | @validate i j hj =>
    cases hpc
    obtain ⟨rfl, hu, _⟩ := Region.slot_eq_some.mp hj
    obtain ⟨hw, hi, hto⟩ := h
    refine c.nodesOk_validateNext hv hw hi (hto.succ ?_)
    rw [WaitCtx.target, if_pos hi]
    exact hu
  | validateBad | validateAlertBad | alertSet | allocFail | expired =>
    cases hpc
    exact ⟨fun n hn => hn, fun n hn => .inl hn⟩
  | validateAlert hj =>
    cases hpc
    obtain ⟨rfl, hu, _⟩ := Region.slot_eq_some.mp hj
    obtain ⟨hw, hto⟩ := h
    refine ⟨hw, fun k hk => ?_⟩
    by_cases hlt : k < c.handles.length
    · exact hto k hlt
    · rw [WaitCtx.target, if_neg hlt]
      exact hu
  | alertPanic => cases hpc
  | alertClear =>
    cases hpc
    exact c.nodesOk_afterAlert hv h.1 h.2
  | @alloc n r hn =>
    cases hpc
    obtain ⟨hlt, hto⟩ := h
    have hr : (Instr.allocNode.apply t pid sh).region = r := by
      simp only [Instr.apply, hn]
    have hto' : (c.addNode n).UsedTo r (c.addNode n).nNodes := by
      intro k hk
      rw [Region.nodeAlloc_slots hn]
      exact hto k hk
    have hlen : (c.addNode n).nodes.length = c.nodes.length + 1 := by simp [WaitCtx.addNode]
    rw [hr]
    unfold WaitCtx.allocNext
    split
    · rename_i hlt'
      exact ⟨hlt', hto'⟩
    · rename_i hlt'
      refine ⟨?_, (c.addNode n).nNodes_pos hv, hto', fun k hk => absurd hk (Nat.not_lt_zero _)⟩
      have : (c.addNode n).nNodes = c.nNodes := rfl
      omega
  | @registerSkip i hreg =>
    cases hpc
    obtain ⟨hlen, hi, hto, hregs⟩ := h
    have hregs' : c.RegisteredTo sh.region (i + 1) := by
      intro k hk
      rcases Nat.lt_succ_iff_lt_or_eq.mp hk with hk | rfl
      · exact hregs k hk
      · exact hreg
    unfold WaitCtx.registerNext
    split
    · rename_i hlt
      exact ⟨hlen, hlt, hto, hregs'⟩
    · refine ⟨hlen, fun k hk => hregs' k (by omega)⟩
  | @register i hreg =>
    cases hpc
    obtain ⟨hlen, hi, hto, hregs⟩ := h
    have hto' : c.UsedTo (sh.region.nodeRegister (c.node i) (c.target i) (c.node 0)) c.nNodes := by
      intro k hk
      obtain ⟨hd, hs⟩ := Region.nodeRegister_slot sh.region (c.target k) (c.node i) (c.target i)
        (c.node 0)
      rw [hs]
      exact hto k hk
    have hregs' : c.RegisteredTo (sh.region.nodeRegister (c.node i) (c.target i) (c.node 0))
        (i + 1) := by
      intro k hk
      by_cases hki : c.node k = c.node i
      · rw [hki]
        exact Region.nodeRegister_self.1
      · rw [(Region.nodeRegister_other hki).1]
        rcases Nat.lt_succ_iff_lt_or_eq.mp hk with hk | rfl
        · exact hregs k hk
        · exact absurd rfl hki
    show WaitPc.NodesOk (sh.region.nodeRegister (c.node i) (c.target i) (c.node 0)) c _
    unfold WaitCtx.registerNext
    split
    · rename_i hlt
      exact ⟨hlen, hlt, hto', hregs'⟩
    · exact ⟨hlen, fun k hk => hregs' k (by omega)⟩
  | sat | fail =>
    cases hpc
    obtain ⟨hlen, hregs⟩ := h
    exact ⟨hlen, fun k hk => by rw [hsat]; exact hregs k hk⟩
  | win =>
    cases hpc
    exact ⟨fun n hn => hn, fun n hn => .inl hn⟩
  | sample =>
    cases hpc
    exact h
  | unlock =>
    cases hpc
    exact h.1

/-- **What a wait knows is kept by its own steps.** -/
theorem WaitGo.nodesOk (hg : WaitGo o sh pid c p ins (.wait c' p')) (t : T)
    (hv : c.valid = true) (h : p.NodesOk sh.region c) :
    p'.NodesOk (ins.apply t pid sh).region c' := by
  have hpos := c.nNodes_pos hv
  -- a detached node is no longer registered, and no other node becomes registered
  have hdetach : ∀ n m, (((detachInstr sh n).apply t pid sh).region.nodes m).registered = true →
      m ≠ n ∧ (sh.region.nodes m).registered = true := by
    intro n m
    unfold detachInstr
    split
    · intro hm
      have hmn : m ≠ n := by
        rintro rfl
        rw [show ((Instr.detach m).apply t pid sh).region = sh.region.nodeDetach m from rfl,
          Region.nodeDetach_self.1] at hm
        cases hm
      refine ⟨hmn, ?_⟩
      rw [← (Region.nodeDetach_other (r := sh.region) hmn).1]
      exact hm
    · rename_i hn
      intro hm
      refine ⟨?_, hm⟩
      rintro rfl
      exact hn hm
  generalize hpc : Pc.wait c' p' = pc' at hg
  cases hg with
  | fast hg =>
    have hnext : ∀ i, (c.fastNext i).NodesOk sh.region c := by
      intro i
      unfold WaitCtx.fastNext
      split
      · exact h
      · split <;> exact h
    cases hg with
    | lookOther | seq =>
      cases hpc
      exact (hnext _).setSeq
    | unwrapStateBad | unwrapGenBad | alerted | win | failZero => cases hpc
    | lookBad | alertBad | fail =>
      cases hpc
      exact .inl h
    | _ =>
      cases hpc
      exact h
  | pass hg =>
    subst hpc
    exact hg.nodesOk t hv h
  | noSpin | spinStart =>
    cases hpc
    exact h
  | spin hg =>
    cases hg with
    | alertStateBad | alertGenBad => cases hpc
    | alerted | win =>
      cases hpc
      trivial
    | _ =>
      cases hpc
      exact h
  | @sweep seq timedOut q _ _ hg =>
    have hfinish : (autoTick.finish seq timedOut).NodesOk sh.region c := by
      cases timedOut
      · exact h
      · exact ⟨h, by rw [show c.nodes.length = c.nNodes from h]; exact hpos⟩
    cases hg with
    | skip =>
      cases hpc
      exact hfinish
    | unlock =>
      cases hpc
      exact hfinish.of_unlocked (by cases timedOut <;> rfl)
    | _ =>
      cases hpc
      exact h
  | sleep hg =>
    have hfutex : ∀ seq ret, (afterFutex seq ret).NodesOk sh.region c := by
      intro seq ret
      unfold afterFutex
      split
      · exact h
      · exact ⟨h, by rw [show c.nodes.length = c.nNodes from h]; exact hpos⟩
    cases hg with
    | again | woken =>
      cases hpc
      exact hfutex _ _
    | tailDone =>
      cases hpc
      exact .inr h
    | _ =>
      cases hpc
      exact h
  | detach hg =>
    cases hg with
    | found =>
      cases hpc
      exact h.1
    | next _ hk | detach hk =>
      cases hpc
      exact ⟨h.1, hk⟩
    | none =>
      cases hpc
      exact .inr h.1
    | lock =>
      cases hpc
      exact ⟨h, by rw [show c.nodes.length = c.nNodes from h]; exact hpos⟩
    | last =>
      cases hpc
      exact h.1
    | unlock =>
      cases hpc
      exact .inr h
  | clean hg =>
    cases hg with
    | lock =>
      cases hpc
      exact ⟨fun n hn => hn, fun n hn => .inl hn⟩
    | detached =>
      cases hpc
      exact fun n hn => (h.2 n hn).resolve_left (List.not_mem_nil)
    | @detach n todo =>
      cases hpc
      refine ⟨fun m hm => h.1 m (List.mem_cons_of_mem _ hm), fun m hm => ?_⟩
      by_contra hne
      rw [not_or, Bool.not_eq_false] at hne
      obtain ⟨hmn, hreg⟩ := hdetach n m hne.2
      rcases h.2 m hm with hin | hun
      · rcases List.mem_cons.mp hin with rfl | hin
        · exact hmn rfl
        · exact hne.1 hin
      · rw [hun] at hreg
        cases hreg
    | freed =>
      cases hpc
      trivial
    | @free n todo =>
      cases hpc
      intro m hm
      show ((sh.region.nodeFree n).nodes m).registered = false
      have hm' := h m (List.mem_cons_of_mem _ hm)
      unfold Region.nodeFree
      simp only [Region.setNode_nodes]
      split
      · rename_i hmn
        subst hmn
        exact hm'
      · exact hm'
    | unlock => cases hpc

end WaitStep

/-! ### What others leave alone -/

section Frame

variable {sh : Shared T} {pid : U32} {ins : Instr} {t : T} {m : Nat}

/-- A node keeps its entry unless it is the one allocated or registered. -/
theorem Instr.kept (ha : ∀ n r, ins = .allocNode → sh.region.nodeAlloc pid = some (n, r) → m ≠ n)
    (hr : ∀ i w, ins ≠ .register m i w) :
    Kept (sh.region.nodes m) ((ins.apply t pid sh).region.nodes m) := by
  cases ins with
  | allocNode =>
    simp only [Instr.apply]
    split
    · rename_i n r hn
      have hmn := ha n r rfl hn
      -- the allocation resets the head of the free list or the next fresh node, and no other
      have hsame : r.nodes m = sh.region.nodes m := by
        unfold Region.nodeAlloc at hn
        cases hf : sh.region.nodeFreeHead with
        | some head =>
          simp only [hf, Option.some.injEq, Prod.mk.injEq] at hn
          obtain ⟨rfl, rfl⟩ := hn
          simp [hmn]
        | none =>
          simp only [hf] at hn
          by_cases hfull : nodeCount ≤ sh.region.nodeFresh
          · simp [hfull] at hn
          · simp only [hfull, if_false, Option.some.injEq, Prod.mk.injEq] at hn
            obtain ⟨rfl, rfl⟩ := hn
            simp [hmn]
      rw [hsame]
      exact .refl _
    · exact .refl _
  | register n i w =>
    have hmn : m ≠ n := by
      rintro rfl
      exact hr i w rfl
    exact (Region.nodeRegister_other hmn).2
  | detach n =>
    by_cases hmn : m = n
    · subst hmn
      -- a node that was detached is not registered, so there is nothing to keep
      refine ⟨Region.nodeDetach_self.2, fun h => ?_⟩
      have hself := (Region.nodeDetach_self (r := sh.region) (n := m)).1
      exact absurd (hself.symm.trans h) (by decide)
    · exact (Region.nodeDetach_other hmn).2
  | freeNode n =>
    simp only [Instr.apply, Region.nodeFree, Region.setNode_nodes]
    split
    · rename_i hmn
      subst hmn
      exact ⟨rfl, fun h => ⟨h, rfl, rfl⟩⟩
    · exact .refl _
  | bump n =>
    simp only [Instr.apply, Region.bumpSeq, Region.setNode_nodes]
    split
    · rename_i hmn
      subst hmn
      exact ⟨rfl, fun h => ⟨h, rfl, rfl⟩⟩
    · exact .refl _
  | _ => exact .refl _

variable (t pid sh) in
/-- Unguarded instructions leave nodes and list heads alone. -/
theorem Instr.unguarded_links (h : ins.guarded = false) :
    (ins.apply t pid sh).region.nodes = sh.region.nodes ∧
      ∀ i, ((ins.apply t pid sh).region.slots i).waiterHead = (sh.region.slots i).waiterHead := by
  cases ins with
  | word hd i tag new =>
    refine ⟨rfl, fun j => ?_⟩
    simp only [Instr.apply, Region.setSlot_slots]
    split
    · rename_i hj
      rw [hj]
    · rfl
  | silent | lock | unlock | countCall => exact ⟨rfl, fun _ => rfl⟩
  | _ => cases h

end Frame

/-- Instructions off the lists keep all links. -/
theorem Instr.quiet_lists (t : T) (pid : U32) {sh : Shared T} {ins : Instr} {L : Nat → List Nat}
    {F : List Nat} {U : Nat → Prop} (h : ins.lists = false) (hl : ListsOk sh.region L F U) :
    ListsOk (ins.apply t pid sh).region L F U ∧
      (ins.apply t pid sh).region.nodeFresh = sh.region.nodeFresh := by
  have hslot : ∀ (i : Nat) (f : Slot → Slot), (∀ x, (f x).waiterHead = x.waiterHead) →
      ListsOk (sh.region.setSlot i f) L F U := by
    intro i f hf
    refine hl.congr (fun n => .refl _) (fun j => ?_) rfl rfl
    rw [Region.setSlot_slots]
    split
    · rename_i hj
      rw [hj, hf]
    · rfl
  cases ins with
  | word hd i tag new => exact ⟨hslot i (fun x => { x with w0 := new }) fun _ => rfl, rfl⟩
  | storeD i v => exact ⟨hslot i (fun x => { x with d := v }) fun _ => rfl, rfl⟩
  | reap i => exact ⟨hslot i (fun x => { x with state := .free }) fun _ => rfl, rfl⟩
  | store i w => exact ⟨hslot _ _ fun x => by cases w <;> rfl, rfl⟩
  | bump n =>
    refine ⟨hl.congr (fun m => ?_) (fun _ => rfl) rfl rfl, rfl⟩
    simp only [Instr.apply, Region.bumpSeq, Region.setNode_nodes]
    split
    · rename_i hm
      rw [hm]
      exact ⟨rfl, rfl, rfl, rfl, rfl, rfl⟩
    · exact .refl _
  | allocNode | register | detach | freeNode | takeSlot => cases h
  | _ => exact ⟨hl.congr (fun n => .refl _) (fun _ => rfl) rfl rfl, rfl⟩

/-- A wake walk goes through the list of its slot. -/
theorem Pc.touches_of_walk {pc : Pc} {i : Nat} {w : Walk} (h : pc.walk? = some (i, w)) :
    pc.touches i := by
  unfold Pc.walk? at h
  split at h
  · cases h
    exact rfl
  · cases h
    exact ⟨rfl, rfl⟩
  · cases h
    exact rfl
  · rename_i p
    cases p <;> cases h
    exact rfl
  · rename_i p
    cases p <;> cases h
    exact rfl
  · rename_i p
    cases p <;> cases h
    exact rfl
  · cases h

/-- What a thread outside the critical sections knows, others cannot take away. -/
theorem Pc.Knows.of_unlocked {r r' : Region} {U U' : Nat → Prop} {pc : Pc} (h : pc.Knows r U)
    (hl : pc.locked = false) (hU : ∀ i, U i → U' i)
    (hn : ∀ n ∈ pc.waitNodes, Kept (r.nodes n) (r'.nodes n)) : pc.Knows r' U' where
  touched i hi := hU i (h.touched i hi)
  walk i w hw := by
    rw [Pc.locked_of_walk hw] at hl
    cases hl
  reaped n hn := by
    rw [Pc.locked_of_reaped (List.ne_nil_of_mem hn)] at hl
    cases hl
  entry c p hpc k hk hown hreg := by
    subst hpc
    have hkept := hn _ hown
    obtain ⟨hreg', ho, hw⟩ := hkept.back hreg
    rw [ho, hw]
    exact h.entry c p rfl k hk hown hreg'
  nodes c p hpc := by
    subst hpc
    exact (h.nodes c p rfl).of_unlocked hl

/-- What a thread knows is about its own nodes, the list heads and the states of the slots. -/
theorem Pc.Knows.congr {r r' : Region} {U U' : Nat → Prop} {pc : Pc} (h : pc.Knows r U)
    (hU : ∀ i, U i → U' i) (hn : ∀ n ∈ pc.owned, r'.nodes n = r.nodes n)
    (hh : ∀ i, (r'.slots i).waiterHead = (r.slots i).waiterHead)
    (hs : ∀ i, (r'.slots i).state = (r.slots i).state) : pc.Knows r' U' where
  touched i hi := hU i (h.touched i hi)
  walk i w hw := by rw [hh]; exact h.walk i w hw
  reaped n hm := by rw [hn n (List.mem_append_right _ hm)]; exact h.reaped n hm
  entry c p hpc k hk hown := by
    subst hpc
    rw [hn _ (List.mem_append_left _ hown)]
    exact h.entry c p rfl k hk hown
  nodes c p hpc := by
    subst hpc
    exact (h.nodes c p rfl).congr (fun n hm => hn n (List.mem_append_left _ hm)) hs

/-! ### The invariant -/

/-- The region represents the lists `L`, `F` with the slots `U` ever taken, and the live threads
    own nodes apart from each other and from the free list. -/
structure PoolInv (s : Sys T) (L : Nat → List Nat) (F : List Nat) (U : Nat → Prop) : Prop where
  lists : ListsOk s.region L F U
  bound : ∀ i, U i → i < slotCount
  used : ∀ i, (s.region.slots i).state = .used → U i
  freed : ∀ i, (s.region.slots i).state = .free → L i ≠ [] →
    ∃ t, s.dead (s.threads t).pid = false ∧ (s.threads t).pc.frees? = some i
  own : ∀ t, s.dead (s.threads t).pid = false → ∀ n ∈ (s.threads t).pc.owned,
    n < s.region.nodeFresh ∧ n ∉ F
  nodup : ∀ t, s.dead (s.threads t).pid = false → (s.threads t).pc.owned.Nodup
  apart : ∀ t u n, s.dead (s.threads t).pid = false → s.dead (s.threads u).pid = false →
    n ∈ (s.threads t).pc.owned → n ∈ (s.threads u).pc.owned → t = u
  owner : ∀ t, s.dead (s.threads t).pid = false → ∀ n ∈ (s.threads t).pc.waitNodes,
    (s.region.nodes n).pid = (s.threads t).pid
  knows : ∀ t, s.dead (s.threads t).pid = false → (s.threads t).pc.Knows s.region U

/-- A slot whose list head is `NIL` has no waiters. -/
theorem ListsOk.nil_of_head {r : Region} {L : Nat → List Nat} {F : List Nat} {U : Nat → Prop}
    {i : Nat} (h : ListsOk r L F U) (hi : U i) (hh : (r.slots i).waiterHead = none) : L i = [] := by
  have hhead := (h.chain i hi).head
  rw [hh] at hhead
  exact List.head?_eq_none_iff.mp hhead.symm

section OwnStep

variable {s : Sys T} {L : Nat → List Nat} {F : List Nat} {U : Nat → Prop} {t : T} {o : Oracle}
  {ins : Instr} {pc' : Pc}

/-- The head of a walked list is registered on its slot. -/
theorem PoolInv.walk_head {i n : Nat} (hi : PoolInv s L F U)
    (ha : s.dead (s.threads t).pid = false)
    (hw : (s.threads t).pc.walk? = some (i, .node (some n))) :
    (∃ b, L i = n :: b) ∧ (s.region.nodes n).registered = true ∧
      (s.region.nodes n).obj = some i := by
  have hk := hi.knows t ha
  have hU : U i := hk.touched i (Pc.touches_of_walk hw)
  have hhead : some n = (s.region.slots i).waiterHead := hk.walk i _ hw
  rw [(hi.lists.chain i hU).head] at hhead
  obtain ⟨b, hb⟩ : ∃ b, L i = n :: b := by
    cases hL : L i with
    | nil =>
      rw [hL] at hhead
      cases hhead
    | cons m b =>
      rw [hL] at hhead
      cases hhead
      exact ⟨b, rfl⟩
  have hmem : n ∈ L i := by rw [hb]; exact List.mem_cons_self ..
  exact ⟨⟨b, hb⟩, (hi.lists.mem i n).mp hmem⟩

/-- A walk keeps up with the head of its list. -/
theorem PoolInv.walk_after (hi : PoolInv s L F U) (ha : s.dead (s.threads t).pid = false)
    (hg : PcGo s.toShared (s.threads t).pid o (s.threads t).pc ins pc') (i : Nat) (w : Walk)
    (hw' : pc'.walk? = some (i, w)) :
    w.Ok ((ins.apply t (s.threads t).pid s.toShared).region.slots i).waiterHead := by
  cases hw : (s.threads t).pc.walk? with
  | none =>
    rcases hg.noWalk hw with hn | ⟨j, hn⟩ <;> rw [hn] at hw' <;> cases hw'
    trivial
  | some x =>
    obtain ⟨j, v⟩ := x
    obtain ⟨q, hq, hf, _⟩ := hg.walk hw
    cases hq with
    | start =>
      rw [show pc'.walk? = _ from hf] at hw'
      cases hw'
      rfl
    | finished =>
      rw [show pc'.walk? = _ from hf] at hw'
      cases hw'
    | @detach n =>
      rw [show pc'.walk? = _ from hf] at hw'
      cases hw'
      obtain ⟨⟨b, hb⟩, hreg, hobj⟩ := hi.walk_head ha hw
      have hU : U i := (hi.knows t ha).touched i (Pc.touches_of_walk hw)
      obtain ⟨w, hword, _⟩ := hi.lists.word n hreg
      refine ⟨by rw [hword]; rfl, ?_⟩
      -- the successor of the detached head is the new head
      have hchain := hi.lists.chain i hU
      rw [hb] at hchain
      have hnext : (s.region.nodes n).objNext = b.head? :=
        Chain.next_of_mem (a := []) hchain
      have hafter := ((hi.lists.detach hreg hobj).chain i hU).head
      rw [Function.update_self, hb, List.erase_cons_head] at hafter
      rw [hnext]
      exact hafter.symm
    | bump =>
      rw [show pc'.walk? = _ from hf] at hw'
      cases hw'
      exact ((hi.knows t ha).walk _ _ hw).2

/-- Freed slots keep their waiters only while somebody empties them. -/
theorem PoolInv.freed_after [DecidableEq T] {L' : Nat → List Nat} (hi : PoolInv s L F U)
    (hti : TableInv s) (ha : s.dead (s.threads t).pid = false)
    (hg : PcGo s.toShared (s.threads t).pid o (s.threads t).pc ins pc')
    (hL : ∀ i, L' i ≠ [] → L i ≠ [] ∨
      ((s.region.slots i).state = .used ∧ ∃ n w, ins = .register n i w))
    (i : Nat) (hf : ((s.after t ins pc').region.slots i).state = .free) (hne : L' i ≠ []) :
    ∃ u, (s.after t ins pc').dead ((s.after t ins pc').threads u).pid = false ∧
      ((s.after t ins pc').threads u).pc.frees? = some i := by
  have hown : pc'.frees? = some i → ∃ u,
      (s.after t ins pc').dead ((s.after t ins pc').threads u).pid = false ∧
        ((s.after t ins pc').threads u).pc.frees? = some i := by
    intro h
    exact ⟨t, by rw [Sys.after_dead, Sys.after_pid]; exact ha, by rw [Sys.after_pc, if_pos rfl]; exact h⟩
  by_cases hu : (s.region.slots i).state = .used
  · exact hown (hg.frees_now (hti.ok t ha) (hti.writes t) hu hf)
  · have hfree : (s.region.slots i).state = .free := by
      cases hst : (s.region.slots i).state with
      | free => rfl
      | used => exact absurd hst hu
    have hLi := (hL i hne).resolve_right fun h => hu h.1
    obtain ⟨u, hua, huf⟩ := hi.freed i hfree hLi
    by_cases hut : u = t
    · subst hut
      rcases hg.frees_until huf with h | ⟨hw, _⟩
      · exact hown h
      · have hk := hi.knows u ha
        have hhead : none = (s.region.slots i).waiterHead := hk.walk i _ hw
        exact absurd (hi.lists.nil_of_head (hk.touched i (Pc.touches_of_walk hw)) hhead.symm) hLi
    · exact ⟨u, by rw [Sys.after_dead, Sys.after_pid]; exact hua,
        by rw [Sys.after_pc, if_neg hut]; exact huf⟩

/-- **Assembly of a step.** What is left to show when a thread changes the lists: what becomes of
    them and of its own nodes, and that the nodes of others are not among them. -/
theorem PoolInv.after [DecidableEq T] {L' : Nat → List Nat} {F' : List Nat} {U' : Nat → Prop}
    (hi : PoolInv s L F U) (hti : TableInv s) (hsi : ShapeInv s)
    (ha : s.dead (s.threads t).pid = false)
    (ht : tick o s.toShared (s.threads t).pid (s.threads t).calls (s.threads t).pc =
      some (ins, pc'))
    (hlists : ListsOk (s.after t ins pc').region L' F' U') (hbound : ∀ i, U' i → i < slotCount)
    (hU : ∀ i, U i → U' i) (htake : ∀ i, ins = .takeSlot i → U' i)
    (hL : ∀ i, L' i ≠ [] → L i ≠ [] ∨
      ((s.region.slots i).state = .used ∧ ∃ n w, ins = .register n i w))
    (hown : ∀ n ∈ pc'.owned, n < (s.after t ins pc').region.nodeFresh ∧ n ∉ F')
    (hnodup : pc'.owned.Nodup)
    (howner : ∀ n ∈ pc'.waitNodes,
      ((s.after t ins pc').region.nodes n).pid = (s.threads t).pid)
    (hreaped : ∀ n ∈ pc'.reaped, ((s.after t ins pc').region.nodes n).registered = false)
    (hentry : ∀ c p, pc' = .wait c p → ∀ k < c.nodes.length, c.node k ∈ p.owned c →
      ((s.after t ins pc').region.nodes (c.node k)).registered = true →
      ((s.after t ins pc').region.nodes (c.node k)).obj = some (c.target k) ∧
        ((s.after t ins pc').region.nodes (c.node k)).waitWord = some (c.node 0))
    (hothers : ∀ u, u ≠ t → s.dead (s.threads u).pid = false → ∀ n ∈ (s.threads u).pc.owned,
      n < (s.after t ins pc').region.nodeFresh ∧ n ∉ F' ∧ n ∉ pc'.owned ∧
        Kept (s.region.nodes n) ((s.after t ins pc').region.nodes n)) :
    PoolInv (s.after t ins pc') L' F' U' := by
  have hg := tick_inv ht
  have hk := hi.knows t ha
  refine ⟨hlists, hbound, fun i hu => ?_, hi.freed_after hti ha hg hL, fun u hua => ?_, fun u hua => ?_,
    fun u v n hua hva hu hv => ?_, fun u hua n hn => ?_, fun u hua => ?_⟩
  -- a slot that is free and worked on has been touched
  · by_cases hu' : (s.region.slots i).state = .used
    · exact hU i (hi.used i hu')
    · have hfree : (s.region.slots i).state = .free := by
        cases hst : (s.region.slots i).state with
        | free => rfl
        | used => exact absurd hst hu'
      exact hU i (hk.touched i (hg.uses_now hfree (hti.writes t) hu))
  · rw [Sys.after_dead, Sys.after_pid] at hua
    rw [Sys.after_pc]
    split
    · exact hown
    · rename_i hut
      exact fun n hn => ⟨(hothers u hut hua n hn).1, (hothers u hut hua n hn).2.1⟩
  · rw [Sys.after_dead, Sys.after_pid] at hua
    rw [Sys.after_pc]
    split
    · exact hnodup
    · exact hi.nodup u hua
  · rw [Sys.after_dead, Sys.after_pid] at hua hva
    rw [Sys.after_pc] at hu hv
    -- the new nodes of the thread are nobody else's
    by_cases hut : u = t
    · by_cases hvt : v = t
      · rw [hut, hvt]
      · rw [if_pos hut] at hu
        rw [if_neg hvt] at hv
        exact absurd hu (hothers v hvt hva n hv).2.2.1
    · rw [if_neg hut] at hu
      by_cases hvt : v = t
      · rw [if_pos hvt] at hv
        exact absurd hv (hothers u hut hua n hu).2.2.1
      · rw [if_neg hvt] at hv
        exact hi.apart u v n hua hva hu hv
  · rw [Sys.after_dead, Sys.after_pid] at hua
    rw [Sys.after_pc] at hn
    rw [Sys.after_pid]
    by_cases hut : u = t
    · rw [if_pos hut] at hn
      rw [hut]
      exact howner n hn
    · rw [if_neg hut] at hn
      have hkept := (hothers u hut hua n (List.mem_append_left _ hn)).2.2.2
      exact hkept.pid.trans (hi.owner u hua n hn)
  · rw [Sys.after_dead, Sys.after_pid] at hua
    rw [Sys.after_pc]
    by_cases hut : u = t
    · subst hut
      rw [if_pos rfl]
      -- of the thread itself: what it touches, its walk, its nodes
      refine ⟨fun i hi' => ?_, hi.walk_after ha hg, hreaped, hentry, fun c' p' hpc => ?_⟩
      · rcases hg.touches (hti.ok u ha) hi' with h | h | h
        · exact hU i (hk.touched i h)
        · exact hU i (hi.used i h)
        · exact htake i h
      · subst hpc
        generalize hpc : (s.threads u).pc = pc at hg
        have hshape := hsi u
        rw [hpc] at hshape
        cases hg with
        | wait hg => exact hg.nodesOk u hshape.1 (hk.nodes _ _ hpc)
        | op hg => cases hg
        | pulse hg => cases hg
        | create hg => cases hg
        | close hg => cases hg
        | hold hg => cases hg
        | sweepDead hg => cases hg
    · rw [if_neg hut]
      have hku := hi.knows u hua
      -- the others rely on lists only while they hold the lock, and then nobody moves them
      by_cases hlk : (s.threads u).pc.locked = true
      · have hun := hti.lock.others ha ht hut hua hlk
        obtain ⟨hn, hh⟩ := Instr.unguarded_links s.toShared (s.threads t).pid t hun
        exact hku.congr hU (fun n _ => congrFun hn n) hh
          fun i => (Sys.after_same hun s t pc' i).state
      · refine hku.of_unlocked (by simpa using hlk) hU fun n hn => ?_
        exact (hothers u hut hua n (List.mem_append_left _ hn)).2.2.2

/-- Only `node_alloc` changes which nodes a wait has. -/
theorem WaitGo.nodes_eq {sh : Shared T} {pid : U32} {c c' : WaitCtx} {p p' : WaitPc}
    (hg : WaitGo o sh pid c p ins (.wait c' p')) (hne : ins ≠ .allocNode) : c'.nodes = c.nodes := by
  generalize hpc : Pc.wait c' p' = pc' at hg
  cases hg with
  | fast hg => cases hg <;> cases hpc <;> rfl
  | pass hg =>
    cases hg with
    | alloc => exact absurd rfl hne
    | _ => cases hpc <;> rfl
  | noSpin | spinStart => cases hpc; rfl
  | spin hg => cases hg <;> cases hpc <;> rfl
  | sweep hg => cases hg <;> cases hpc <;> rfl
  | sleep hg => cases hg <;> cases hpc <;> rfl
  | detach hg => cases hg <;> cases hpc <;> rfl
  | clean hg => cases hg <;> cases hpc <;> rfl

/-- The entries of a wait's nodes stay right while the nodes are kept. -/
theorem PoolInv.entry_kept {r' : Region} (hi : PoolInv s L F U)
    (ha : s.dead (s.threads t).pid = false)
    (hg : PcGo s.toShared (s.threads t).pid o (s.threads t).pc ins pc') (hne : ins ≠ .allocNode)
    (hsub : ∀ n ∈ pc'.waitNodes, n ∈ (s.threads t).pc.waitNodes)
    (hkept : ∀ n ∈ (s.threads t).pc.waitNodes, Kept (s.region.nodes n) (r'.nodes n))
    (c' : WaitCtx) (p' : WaitPc) (hpc' : pc' = .wait c' p') (k : Nat) (hk : k < c'.nodes.length)
    (hown : c'.node k ∈ p'.owned c') (hreg : (r'.nodes (c'.node k)).registered = true) :
    (r'.nodes (c'.node k)).obj = some (c'.target k) ∧
      (r'.nodes (c'.node k)).waitWord = some (c'.node 0) := by
  subst hpc'
  have hmem := hsub _ hown
  obtain ⟨hreg', ho, hw⟩ := (hkept _ hmem).back hreg
  rw [ho, hw]
  have hentry := (hi.knows t ha).entry
  generalize hpc : (s.threads t).pc = pc at hg hmem hentry
  cases hg with
  | @wait c p _ _ hg =>
    have hnodes := hg.nodes_eq hne
    have hargs : c'.toWaitArgs = c.toWaitArgs := hg.sameArgs rfl
    have hnode : ∀ j, c'.node j = c.node j := by
      intro j
      rw [WaitCtx.node, WaitCtx.node, hnodes]
    have htarget : c'.target k = c.target k := by
      unfold WaitCtx.target
      rw [hargs]
    rw [hnode] at hmem hreg' ⊢
    rw [hnode, htarget]
    rw [hnodes] at hk
    exact hentry c p rfl k hk hmem hreg'
  | op hg => cases hg
  | pulse hg => cases hg
  | create hg => cases hg
  | close hg => cases hg
  | hold hg => cases hg
  | sweepDead hg => cases hg

end OwnStep

/-- A freed slot is emptied under the lock. -/
theorem Pc.locked_of_frees {pc : Pc} {i : Nat} (h : pc.frees? = some i) : pc.locked = true := by
  unfold Pc.frees? at h
  split at h
  · rfl
  · rfl
  · cases hsw : pc.sweep? with
    | none =>
      rw [hsw] at h
      cases h
    | some x =>
      obtain ⟨auto, p⟩ := x
      rw [hsw] at h
      have hp : p.frees? = some i := h
      unfold Pc.sweep? at hsw
      cases p with
      | reapGen | reapWalk => split at hsw <;> cases hsw <;> rfl
      | _ => cases hp

section PoolStep

variable [DecidableEq T] {s : Sys T} {L : Nat → List Nat} {F : List Nat} {U : Nat → Prop} {t : T}
  {o : Oracle} {ins : Instr} {pc' : Pc}

/-- A step that owns no new node and leaves the free list alone. -/
theorem PoolInv.after_keep {L' : Nat → List Nat} {U' : Nat → Prop}
    (hi : PoolInv s L F U) (hti : TableInv s) (hsi : ShapeInv s)
    (ha : s.dead (s.threads t).pid = false)
    (ht : tick o s.toShared (s.threads t).pid (s.threads t).calls (s.threads t).pc =
      some (ins, pc'))
    (hlists : ListsOk (s.after t ins pc').region L' F U') (hbound : ∀ i, U' i → i < slotCount)
    (hfresh : (s.after t ins pc').region.nodeFresh = s.region.nodeFresh) (hU : ∀ i, U i → U' i)
    (htake : ∀ i, ins = .takeSlot i → U' i) (hL : ∀ i, L' i ≠ [] → L i ≠ [])
    (hne : ins ≠ .allocNode) (hnr : ∀ n i w, ins ≠ .register n i w)
    (hsub : pc'.waitNodes.Sublist (s.threads t).pc.waitNodes) (hr : pc'.reaped = []) :
    PoolInv (s.after t ins pc') L' F U' := by
  have hkept : ∀ n, Kept (s.region.nodes n) ((s.after t ins pc').region.nodes n) := fun n =>
    Instr.kept (fun _ _ he => absurd he hne) (fun i w => hnr n i w)
  have hin : ∀ n ∈ pc'.owned, n ∈ (s.threads t).pc.owned := by
    intro n hn
    rw [Pc.owned, hr, List.append_nil] at hn
    exact List.mem_append_left _ (hsub.subset hn)
  refine hi.after hti hsi ha ht hlists hbound hU htake (fun i h => .inl (hL i h)) (fun n hn => ?_) ?_
    (fun n hn => ?_) (fun n hn => ?_) ?_ (fun u hut hua n hn => ?_)
  · rw [hfresh]
    exact hi.own t ha n (hin n hn)
  · rw [Pc.owned, hr, List.append_nil]
    exact hsub.nodup (List.nodup_append.mp (hi.nodup t ha)).1
  · exact (hkept n).pid.trans (hi.owner t ha n (hsub.subset hn))
  · rw [hr] at hn
    cases hn
  · exact hi.entry_kept ha (tick_inv ht) hne (fun n hn => hsub.subset hn) fun n _ => hkept n
  · refine ⟨?_, (hi.own u hua n hn).2, fun hn' => ?_, hkept n⟩
    · rw [hfresh]
      exact (hi.own u hua n hn).1
    · exact hut (hi.apart u t n hua ha hn (hin n hn'))

/-- No node gets lost: what is below the frontier afterwards is free, or the thread's, or was
    neither before. -/
def Conserves (s s' : Sys T) (t : T) (F F' : List Nat) : Prop :=
  ∀ n < s'.region.nodeFresh, n ∈ F' ∨ n ∈ (s'.threads t).pc.owned ∨
    (n < s.region.nodeFresh ∧ n ∉ F ∧ n ∉ (s.threads t).pc.owned)

/-- Nodes that stay in the pool or with the thread are conserved. -/
theorem Conserves.of_subset {F' : List Nat}
    (hfresh : (s.after t ins pc').region.nodeFresh = s.region.nodeFresh)
    (h : ∀ n, n ∈ F ∨ n ∈ (s.threads t).pc.owned → n ∈ F' ∨ n ∈ pc'.owned) :
    Conserves s (s.after t ins pc') t F F' := by
  intro n hn
  rw [hfresh] at hn
  rw [Sys.after_pc, if_pos rfl]
  by_cases hF : n ∈ F ∨ n ∈ (s.threads t).pc.owned
  · rcases h n hF with h | h
    · exact .inl h
    · exact .inr (.inl h)
  · rw [not_or] at hF
    exact .inr (.inr ⟨hn, hF.1, hF.2⟩)

omit [DecidableEq T] in
/-- An allocated node was free or fresh, so nobody owns it. -/
theorem PoolInv.unowned {n : Nat} {pid : U32} {r' : Region} {F' : List Nat} (hi : PoolInv s L F U)
    (hal : Allocated s.region F pid n r' F') {u : T} (hua : s.dead (s.threads u).pid = false) :
    n ∉ (s.threads u).pc.owned := by
  intro hm
  obtain ⟨hlt, hF⟩ := hi.own u hua n hm
  rcases hal.source with ⟨rfl, _⟩ | ⟨_, _, rfl, _⟩
  · exact hF (List.mem_cons_self ..)
  · exact Nat.lt_irrefl _ hlt

/-- Allocating a node. -/
theorem PoolInv.alloc {c : WaitCtx} {n : Nat} {r' : Region} (hi : PoolInv s L F U)
    (hti : TableInv s) (hsi : ShapeInv s) (ha : s.dead (s.threads t).pid = false)
    (hpc : (s.threads t).pc = .wait c (.pass .alloc))
    (ht : tick o s.toShared (s.threads t).pid (s.threads t).calls (s.threads t).pc =
      some (.allocNode, .wait (c.addNode n) (.pass (c.addNode n).allocNext)))
    (hn : s.region.nodeAlloc (s.threads t).pid = some (n, r')) :
    ∃ F', PoolInv (s.after t .allocNode (.wait (c.addNode n) (.pass (c.addNode n).allocNext)))
      L F' U ∧ Conserves s
        (s.after t .allocNode (.wait (c.addNode n) (.pass (c.addNode n).allocNext))) t F F' := by
  obtain ⟨F', hlists, hal⟩ := hi.lists.alloc hn
  have hr : (s.after t .allocNode (.wait (c.addNode n) (.pass (c.addNode n).allocNext))).region =
      r' := by
    show (Instr.allocNode.apply t (s.threads t).pid s.toShared).region = r'
    simp only [Instr.apply, hn]
  -- the free list has lost its head, or is as it was
  have hsub : ∀ m ∈ F', m ∈ F := by
    intro m hm
    rcases hal.source with ⟨rfl, _⟩ | ⟨_, rfl, _⟩
    · exact List.mem_cons_of_mem _ hm
    · cases hm
  have hnF : n ∉ F' := by
    rcases hal.source with ⟨rfl, _⟩ | ⟨_, rfl, _⟩
    · exact (List.nodup_cons.mp hi.lists.freeNodup).1
    · exact List.not_mem_nil
  have hnlt : n < r'.nodeFresh := by
    rcases hal.source with ⟨rfl, hf⟩ | ⟨_, _, rfl, hf⟩
    · rw [hf]
      exact (hi.lists.freeOk n (by simp)).1
    · rw [hf]
      exact Nat.lt_succ_self _
  have hfresh : s.region.nodeFresh ≤ r'.nodeFresh := by
    rcases hal.source with ⟨_, hf⟩ | ⟨_, _, _, hf⟩ <;> omega
  -- nobody owns the node yet
  have hnew : ∀ u, s.dead (s.threads u).pid = false → n ∉ (s.threads u).pc.owned :=
    fun u hua => hi.unowned hal hua
  have hpcown : (s.threads t).pc.owned = c.nodes := by
    rw [hpc]
    exact List.append_nil _
  have hnewown : (Pc.wait (c.addNode n) (.pass (c.addNode n).allocNext)).owned =
      c.nodes ++ [n] := List.append_nil _
  have hnc : n ∉ c.nodes := by
    have := hnew t ha
    rwa [hpcown] at this
  refine ⟨F', hi.after hti hsi ha ht (by rw [hr]; exact hlists) hi.bound (fun i h => h)
    (fun i he => by cases he) (fun i h => .inl h) (fun m hm => ?_) ?_ (fun m hm => ?_)
    (fun m hm => by cases hm) ?_ (fun u hut hua m hm => ?_), fun m hm => ?_⟩
  · rw [hr]
    rw [hnewown] at hm
    rcases List.mem_append.mp hm with hm | hm
    · obtain ⟨hlt, hF⟩ := hi.own t ha m (by rw [hpcown]; exact hm)
      exact ⟨Nat.lt_of_lt_of_le hlt hfresh, fun h => hF (hsub m h)⟩
    · rw [List.mem_singleton] at hm
      subst hm
      exact ⟨hnlt, hnF⟩
  · rw [hnewown]
    have hnd := hi.nodup t ha
    rw [hpcown] at hnd
    refine List.nodup_append.mpr ⟨hnd, List.nodup_singleton n, fun a ha b hb => ?_⟩
    rw [List.mem_singleton] at hb
    rintro rfl
    exact hnc (hb ▸ ha)
  · rw [hr]
    rcases List.mem_append.mp (show m ∈ c.nodes ++ [n] from hm) with hmc | hmc
    · have hmn : m ≠ n := fun he => hnc (he ▸ hmc)
      rw [hal.others m hmn]
      exact hi.owner t ha m (by rw [hpc]; exact hmc)
    · rw [List.mem_singleton] at hmc
      rw [hmc, hal.node]
      rfl
  · intro c' p' he k hk hown hreg
    cases he
    rw [hr] at hreg ⊢
    have hlen : (c.addNode n).nodes = c.nodes ++ [n] := rfl
    -- the old nodes stand for what they stood for
    by_cases hkc : k < c.nodes.length
    · have hnode : ∀ j < c.nodes.length, (c.addNode n).node j = c.node j := by
        intro j hj
        rw [WaitCtx.node, WaitCtx.node, hlen, List.getD_append _ _ _ _ hj]
      rw [hnode k hkc] at hreg ⊢
      rw [hnode 0 (by omega)]
      have hmn : c.node k ≠ n := by
        rintro he
        exact hnc (he ▸ WaitCtx.node_mem hkc)
      rw [hal.others _ hmn] at hreg ⊢
      exact (hi.knows t ha).entry c _ hpc k hkc (WaitCtx.node_mem hkc) hreg
    · -- the new node is not registered yet
      have hk' : k = c.nodes.length := by
        rw [hlen, List.length_append, List.length_singleton] at hk
        omega
      have hnode : (c.addNode n).node k = n := by
        rw [WaitCtx.node, hlen, hk', List.getD_append_right _ _ _ _ (le_refl _)]
        simp
      rw [hnode, hal.node] at hreg
      cases hreg
  · obtain ⟨hlt, hF⟩ := hi.own u hua m hm
    have hmn : m ≠ n := by
      rintro rfl
      exact hnew u hua hm
    rw [hr]
    refine ⟨Nat.lt_of_lt_of_le hlt hfresh, fun h => hF (hsub m h), fun hm' => ?_, ?_⟩
    · rw [hnewown] at hm'
      rcases List.mem_append.mp hm' with hm' | hm'
      · exact hut (hi.apart u t m hua ha hm (by rw [hpcown]; exact hm'))
      · exact hmn (List.mem_singleton.mp hm')
    · rw [hal.others m hmn]
      exact .refl _
  · rw [hr] at hm
    rw [Sys.after_pc, if_pos rfl, hnewown, hpcown]
    -- the node has moved from the free ones to those of the thread
    by_cases hmn : m = n
    · rw [hmn]
      exact .inr (.inl (List.mem_append_right _ (List.mem_singleton_self n)))
    · rcases hal.source with ⟨rfl, hf⟩ | ⟨rfl, rfl, rfl, hf⟩
      · by_cases hmF : m ∈ F'
        · exact .inl hmF
        · by_cases hmc : m ∈ c.nodes
          · exact .inr (.inl (List.mem_append_left _ hmc))
          · exact .inr (.inr ⟨hf ▸ hm, by simp [hmn, hmF], hmc⟩)
      · by_cases hmc : m ∈ c.nodes
        · exact .inr (.inl (List.mem_append_left _ hmc))
        · exact .inr (.inr ⟨by omega, List.not_mem_nil, hmc⟩)

/-- Registering a node. -/
theorem PoolInv.register {c : WaitCtx} {k : Nat} (hi : PoolInv s L F U) (hti : TableInv s)
    (hsi : ShapeInv s) (ha : s.dead (s.threads t).pid = false)
    (hpc : (s.threads t).pc = .wait c (.pass (.register k)))
    (ht : tick o s.toShared (s.threads t).pid (s.threads t).calls (s.threads t).pc =
      some (.register (c.node k) (c.target k) (c.node 0), .wait c (.pass (c.registerNext k))))
    (hreg : (s.region.nodes (c.node k)).registered = false) :
    PoolInv (s.after t (.register (c.node k) (c.target k) (c.node 0))
      (.wait c (.pass (c.registerNext k))))
      (Function.update L (c.target k) (c.node k :: L (c.target k))) F U := by
  have hk := hi.knows t ha
  obtain ⟨hlen, hkn, hused, _⟩ := hk.nodes c _ hpc
  have hklt : k < c.nodes.length := by rw [hlen]; exact hkn
  have hmem := WaitCtx.node_mem hklt
  have hmem0 : c.node 0 ∈ c.nodes := WaitCtx.node_mem (by omega)
  have hpcown : (s.threads t).pc.owned = c.nodes := by
    rw [hpc]
    exact List.append_nil _
  have hnewown : (Pc.wait c (.pass (c.registerNext k))).owned = c.nodes := List.append_nil _
  have hown : ∀ m ∈ c.nodes, m < s.region.nodeFresh ∧ m ∉ F := fun m hm =>
    hi.own t ha m (by rw [hpcown]; exact hm)
  have htu := hused k hkn
  have hfresh : (s.region.nodeRegister (c.node k) (c.target k) (c.node 0)).nodeFresh =
      s.region.nodeFresh := Region.nodeRegister_header.2
  refine hi.after hti hsi ha ht
    (hi.lists.register hreg (hown _ hmem).1 (hown _ hmem).2 (hown _ hmem0).1 (hi.used _ htu))
    hi.bound (fun i h => h) (fun i he => by cases he) (fun i h => ?_) (fun m hm => ?_) ?_
    (fun m hm => ?_) (fun m hm => by cases hm) ?_ (fun u hut hua m hm => ?_)
  -- the list it joins is that of an object in use
  · by_cases hit : i = c.target k
    · subst hit
      exact .inr ⟨htu, _, _, rfl⟩
    · rw [Function.update_of_ne hit] at h
      exact .inl h
  · rw [hnewown] at hm
    obtain ⟨hlt, hF⟩ := hown m hm
    exact ⟨Nat.lt_of_lt_of_eq hlt hfresh.symm, hF⟩
  · rw [hnewown, ← hpcown]
    exact hi.nodup t ha
  -- the node still carries the pid of its wait
  · have howner := hi.owner t ha m (by rw [hpc]; exact hm)
    show ((s.region.nodeRegister (c.node k) (c.target k) (c.node 0)).nodes m).pid = _
    by_cases hmk : m = c.node k
    · rw [hmk, Region.nodeRegister_self.2.2.2, ← hmk]
      exact howner
    · rw [(Region.nodeRegister_other hmk).2.pid]
      exact howner
  -- what the wait knows of its registered nodes, this one included
  · intro c' p' he j hj _ hjreg
    cases he
    show ((s.region.nodeRegister (c.node k) (c.target k) (c.node 0)).nodes (c.node j)).obj = _ ∧
      ((s.region.nodeRegister (c.node k) (c.target k) (c.node 0)).nodes (c.node j)).waitWord = _
    by_cases hjk : c.node j = c.node k
    · -- the nodes of a wait are distinct
      have hnd : c.nodes.Nodup := by
        rw [← hpcown]
        exact hi.nodup t ha
      have hjk' : j = k := by
        rw [WaitCtx.node, WaitCtx.node, List.getD_eq_getElem _ _ hj,
          List.getD_eq_getElem _ _ hklt] at hjk
        exact (List.Nodup.getElem_inj_iff hnd).mp hjk
      subst hjk'
      exact ⟨Region.nodeRegister_self.2.1, Region.nodeRegister_self.2.2.1⟩
    · obtain ⟨hjreg', ho, hw⟩ := (Region.nodeRegister_other hjk).2.back hjreg
      rw [ho, hw]
      exact hk.entry c _ hpc j hj (WaitCtx.node_mem hj) hjreg'
  -- nobody else owns the node
  · obtain ⟨hlt, hF⟩ := hi.own u hua m hm
    have hnot : m ∉ c.nodes := fun hmc => hut (hi.apart u t m hua ha hm (by rw [hpcown]; exact hmc))
    have hmk : m ≠ c.node k := by
      rintro rfl
      exact hnot hmem
    refine ⟨Nat.lt_of_lt_of_eq hlt hfresh.symm, hF, by rw [hnewown]; exact hnot, ?_⟩
    exact (Region.nodeRegister_other hmk).2

/-- Detaching a registered node leaves the lists of the others alone. -/
theorem ListsOk.detach_any {r : Region} {n : Nat} (h : ListsOk r L F U)
    (hreg : (r.nodes n).registered = true) :
    ∃ L', ListsOk (r.nodeDetach n) L' F U ∧ (∀ i, L' i ≠ [] → L i ≠ []) := by
  obtain ⟨i, hobj⟩ := h.obj n hreg
  refine ⟨_, h.detach hreg hobj, fun j hj => ?_⟩
  by_cases hji : j = i
  · subst hji
    rw [Function.update_self] at hj
    rintro he
    rw [he] at hj
    exact hj rfl
  · rw [Function.update_of_ne hji] at hj
    exact hj

/-- A sweep detaches the node of a dead process. -/
theorem PoolInv.reap {auto : Bool} {st : SweepSt} {x : DeadCand}
    {judged : List (DeadCand × Bool)} (hi : PoolInv s L F U) (hti : TableInv s)
    (hsi : ShapeInv s) (hswi : SweepsInv s) (hpid : ∀ u, (s.threads u).pid ≠ 0)
    (ha : s.dead (s.threads t).pid = false)
    (ht : tick o s.toShared (s.threads t).pid (s.threads t).calls (s.threads t).pc =
      some (.detach x.index, pc'))
    (hsw : (s.threads t).pc.sweep? = some (auto, .reap st ((x, false) :: judged)))
    (hstands : x.nodeStands s.region = true)
    (hsw' : pc'.sweep? = some (auto, .reapFree st x.index judged))
    (hnodes : pc'.waitNodes = (s.threads t).pc.waitNodes) :
    ∃ L', PoolInv (s.after t (.detach x.index) pc') L' F U := by
  simp only [DeadCand.nodeStands, Bool.and_eq_true, decide_eq_true_eq] at hstands
  obtain ⟨hreg, hxpid⟩ := hstands
  -- the verdict: no live thread has this pid, so no live wait owns the node
  have hdead : x.pid = 0 ∨ s.dead x.pid = true :=
    ((hswi t auto _ hsw).2 (x, false) (by simp)).2 rfl x.pid (by simp [DeadCand.pids])
  have hnot : ∀ u, s.dead (s.threads u).pid = false → x.index ∉ (s.threads u).pc.owned := by
    intro u hua hm
    rcases List.mem_append.mp hm with hm | hm
    · have howner := hi.owner u hua _ hm
      rw [hxpid] at howner
      rw [howner] at hdead
      rcases hdead with h | h
      · exact hpid u h
      · rw [hua] at h
        cases h
    · rw [(hi.knows u hua).reaped _ hm] at hreg
      cases hreg
  obtain ⟨L', hlists, hL⟩ := hi.lists.detach_any hreg
  have hfresh : (s.region.nodeDetach x.index).nodeFresh = s.region.nodeFresh :=
    Region.nodeDetach_header.2
  have hkept : ∀ n, Kept (s.region.nodes n) ((s.after t (.detach x.index) pc').region.nodes n) :=
    fun n => Instr.kept (fun _ _ he => by cases he) (fun i w he => by cases he)
  have hreaped : (s.threads t).pc.reaped = [] := Pc.reaped_sweep hsw
  have hreaped' : pc'.reaped = [x.index] := Pc.reaped_sweep hsw'
  have hpcown : (s.threads t).pc.owned = (s.threads t).pc.waitNodes := by
    rw [Pc.owned, hreaped, List.append_nil]
  have hnewown : pc'.owned = (s.threads t).pc.waitNodes ++ [x.index] := by
    rw [Pc.owned, hnodes, hreaped']
  refine ⟨L', hi.after hti hsi ha ht hlists hi.bound (fun i h => h) (fun i he => by cases he)
    (fun i h => .inl (hL i h)) (fun m hm => ?_) ?_ (fun m hm => ?_) (fun m hm => ?_) ?_
    (fun u hut hua m hm => ?_)⟩
  · rw [hnewown] at hm
    rcases List.mem_append.mp hm with hm | hm
    · obtain ⟨hlt, hF⟩ := hi.own t ha m (by rw [hpcown]; exact hm)
      exact ⟨Nat.lt_of_lt_of_eq hlt hfresh.symm, hF⟩
    · rw [List.mem_singleton] at hm
      subst hm
      refine ⟨Nat.lt_of_lt_of_eq (hi.lists.below _ hreg) hfresh.symm, fun hF => ?_⟩
      rw [(hi.lists.freeOk _ hF).2] at hreg
      cases hreg
  · rw [hnewown]
    have hnd := hi.nodup t ha
    have hx := hnot t ha
    rw [hpcown] at hnd hx
    refine List.nodup_append.mpr ⟨hnd, List.nodup_singleton _, fun a ha b hb => ?_⟩
    rw [List.mem_singleton] at hb
    rintro rfl
    exact hx (hb ▸ ha)
  · rw [hnodes] at hm
    exact (hkept m).pid.trans (hi.owner t ha m hm)
  · rw [hreaped', List.mem_singleton] at hm
    rw [hm]
    exact Region.nodeDetach_self.1
  · exact hi.entry_kept ha (tick_inv ht) (fun he => by cases he) (fun n hn => hnodes ▸ hn)
      fun n _ => hkept n
  · obtain ⟨hlt, hF⟩ := hi.own u hua m hm
    refine ⟨Nat.lt_of_lt_of_eq hlt hfresh.symm, hF, fun hm' => ?_, hkept m⟩
    rw [hnewown] at hm'
    rcases List.mem_append.mp hm' with hm' | hm'
    · exact hut (hi.apart u t m hua ha hm (by rw [hpcown]; exact hm'))
    · rw [List.mem_singleton] at hm'
      subst hm'
      exact hnot u hua hm

/-- Giving an unregistered node of its own back. -/
theorem PoolInv.free {n : Nat} (hi : PoolInv s L F U) (hti : TableInv s) (hsi : ShapeInv s)
    (ha : s.dead (s.threads t).pid = false)
    (ht : tick o s.toShared (s.threads t).pid (s.threads t).calls (s.threads t).pc =
      some (.freeNode n, pc'))
    (hn : n ∈ (s.threads t).pc.owned) (hreg : (s.region.nodes n).registered = false)
    (hsub : pc'.waitNodes.Sublist (s.threads t).pc.waitNodes) (hr : pc'.reaped = [])
    (hgone : n ∉ pc'.waitNodes) :
    PoolInv (s.after t (.freeNode n) pc') L (n :: F) U := by
  obtain ⟨hlt, hF⟩ := hi.own t ha n hn
  have hkept : ∀ m, Kept (s.region.nodes m) ((s.after t (.freeNode n) pc').region.nodes m) :=
    fun m => Instr.kept (fun _ _ he => by cases he) (fun i w he => by cases he)
  have hnewown : pc'.owned = pc'.waitNodes := by rw [Pc.owned, hr, List.append_nil]
  have hin : ∀ m ∈ pc'.owned, m ∈ (s.threads t).pc.owned := by
    intro m hm
    rw [hnewown] at hm
    exact List.mem_append_left _ (hsub.subset hm)
  refine hi.after hti hsi ha ht (hi.lists.nodeFree hreg hlt hF) hi.bound (fun i h => h)
    (fun i he => by cases he) (fun i h => .inl h) (fun m hm => ?_) ?_ (fun m hm => ?_)
    (fun m hm => ?_) ?_ (fun u hut hua m hm => ?_)
  · obtain ⟨hmlt, hmF⟩ := hi.own t ha m (hin m hm)
    refine ⟨hmlt, fun hm' => ?_⟩
    rcases List.mem_cons.mp hm' with rfl | hm'
    · rw [hnewown] at hm
      exact hgone hm
    · exact hmF hm'
  · rw [hnewown]
    exact hsub.nodup (List.nodup_append.mp (hi.nodup t ha)).1
  · exact (hkept m).pid.trans (hi.owner t ha m (hsub.subset hm))
  · rw [hr] at hm
    cases hm
  · exact hi.entry_kept ha (tick_inv ht) (fun he => by cases he) (fun m hm => hsub.subset hm)
      fun m _ => hkept m
  · obtain ⟨hmlt, hmF⟩ := hi.own u hua m hm
    refine ⟨hmlt, fun hm' => ?_, fun hm' => hut (hi.apart u t m hua ha hm (hin m hm')), hkept m⟩
    rcases List.mem_cons.mp hm' with rfl | hm'
    · exact hut (hi.apart u t m hua ha hm hn)
    · exact hmF hm'

/-- **The invariant is kept by every access**, and no node gets lost unless the thread panics. -/
theorem PoolInv.tick (hi : PoolInv s L F U) (hti : TableInv s) (hsi : ShapeInv s)
    (hswi : SweepsInv s) (hpid : ∀ u, (s.threads u).pid ≠ 0)
    (ha : s.dead (s.threads t).pid = false)
    (ht : tick o s.toShared (s.threads t).pid (s.threads t).calls (s.threads t).pc =
      some (ins, pc')) :
    ∃ L' F' U', PoolInv (s.after t ins pc') L' F' U' ∧
      (pc' ≠ .panicked → Conserves s (s.after t ins pc') t F F') := by
  have hk := hi.knows t ha
  have hpool := (tick_inv ht).pool
  generalize hpc : (s.threads t).pc = pc at hpool
  cases hpool with
  | @alloc c n r hn =>
    obtain ⟨F', h, hal⟩ := hi.alloc hti hsi ha hpc ht hn
    exact ⟨L, F', U, h, fun _ => hal⟩
  | register hreg =>
    refine ⟨_, F, U, hi.register hti hsi ha hpc ht hreg, fun _ =>
      .of_subset Region.nodeRegister_header.2 fun n hn => ?_⟩
    rw [hpc] at hn
    exact hn
  | wake hw hn hr =>
    rw [← hpc] at hw hn
    obtain ⟨_, hreg, _⟩ := hi.walk_head ha hw
    obtain ⟨L', hlists, hL⟩ := hi.lists.detach_any hreg
    refine ⟨L', F, U, hi.after_keep hti hsi ha ht hlists hi.bound Region.nodeDetach_header.2
      (fun i h => h)
      (fun i he => by cases he) hL (fun he => by cases he) (fun n i w he => by cases he)
      (by rw [hn]) hr, fun _ => .of_subset Region.nodeDetach_header.2 fun n hn' => ?_⟩
    rw [Pc.owned, hn, hr]
    rw [Pc.owned, Pc.reaped_of_walk hw] at hn'
    exact hn'
  | @detach c p p' n hreg hcase hr =>
    obtain ⟨L', hlists, hL⟩ := hi.lists.detach_any hreg
    have hsame : (Pc.wait c p').waitNodes = (s.threads t).pc.waitNodes ∧
        (s.threads t).pc.reaped = [] := by
      rw [hpc]
      rcases hcase with ⟨k, rfl, _, hown⟩ | ⟨out, todo, rfl, rfl⟩
      · exact ⟨hown, rfl⟩
      · exact ⟨rfl, rfl⟩
    refine ⟨L', F, U, hi.after_keep hti hsi ha ht hlists hi.bound Region.nodeDetach_header.2
      (fun i h => h)
      (fun i he => by cases he) hL (fun he => by cases he) (fun n i w he => by cases he)
      (by rw [hsame.1]) hr, fun _ => .of_subset Region.nodeDetach_header.2 fun n hn' => ?_⟩
    rw [Pc.owned, hsame.1, hr]
    rw [Pc.owned, hsame.2] at hn'
    exact hn'
  | @reap pc pc' auto st x judged hsw hnode hstands hsw' hn =>
    rw [← hpc] at hsw hn
    obtain ⟨L', h⟩ := hi.reap hti hsi hswi hpid ha ht hsw hstands hsw' hn
    refine ⟨L', F, U, h, fun _ => .of_subset Region.nodeDetach_header.2 fun n hn' => ?_⟩
    rw [Pc.owned, Pc.reaped_sweep hsw] at hn'
    rw [Pc.owned, hn]
    rcases hn' with hn' | hn'
    · exact .inl hn'
    · exact .inr (List.mem_append_left _ (by simpa [SweepPc.reaped] using hn'))
  | @free c out n todo =>
    have hnd := hi.nodup t ha
    rw [hpc] at hnd
    have hnd' : (n :: todo).Nodup := (List.nodup_append.mp hnd).1
    refine ⟨L, _, U, hi.free hti hsi ha ht ?_ ?_ ?_ rfl (List.nodup_cons.mp hnd').1,
      fun _ => .of_subset rfl fun m hm => ?_⟩
    · rw [hpc]
      exact List.mem_append_left _ (List.mem_cons_self ..)
    · exact hk.nodes c _ hpc n (List.mem_cons_self ..)
    · rw [hpc]
      exact List.sublist_cons_self n todo
    · rw [hpc] at hm
      rcases hm with hm | hm
      · exact .inl (List.mem_cons_of_mem _ hm)
      · have hm' : m ∈ (n :: todo) ++ [] := hm
        rw [List.append_nil] at hm'
        rcases List.mem_cons.mp hm' with rfl | hm
        · exact .inl (List.mem_cons_self ..)
        · exact .inr (List.mem_append_left _ hm)
  | @reapFree pc pc' auto st n judged hsw hsw' hn =>
    rw [← hpc] at hsw hn
    have hreaped := Pc.reaped_sweep hsw
    have hmem : n ∈ (s.threads t).pc.reaped := by
      rw [hreaped]
      exact List.mem_singleton_self n
    refine ⟨L, _, U, hi.free hti hsi ha ht (List.mem_append_right _ hmem) (hk.reaped n hmem)
      (by rw [hn]) (Pc.reaped_sweep hsw') (fun hm => ?_), fun _ => .of_subset rfl fun m hm => ?_⟩
    · rw [hn] at hm
      exact (List.nodup_append.mp (hi.nodup t ha)).2.2 n hm n hmem rfl
    · rcases hm with hm | hm
      · exact .inl (List.mem_cons_of_mem _ hm)
      · rw [Pc.owned, hreaped] at hm
        rcases List.mem_append.mp hm with hm | hm
        · rw [← hn] at hm
          exact .inr (List.mem_append_left _ hm)
        · rw [List.mem_singleton.mp hm]
          exact .inl (List.mem_cons_self ..)
  | @take k retry i hf =>
    obtain ⟨hlt, hfree⟩ := Region.freeSlot_spec hf
    have hbound : ∀ j, j = i ∨ U j → j < slotCount := by
      rintro j (rfl | hj)
      · exact hlt
      · exact hi.bound j hj
    -- nobody else can be emptying the slot: this thread holds the lock
    have hnil : L i = [] := by
      by_contra hne
      obtain ⟨u, hua, huf⟩ := hi.freed i hfree hne
      have hut := hti.lock.unique (Pc.locked_of_frees huf) hua (tick_locked ht rfl) ha
      rw [hut, hpc] at huf
      cases huf
    refine ⟨L, F, _, hi.after_keep hti hsi ha ht (hi.lists.takeSlot hnil) hbound rfl (fun j h => .inr h)
      (fun j he => ?_) (fun j h => h) (fun he => by cases he) (fun n i w he => by cases he) ?_ rfl,
      fun _ => .of_subset rfl fun n hn => ?_⟩
    · cases he
      exact .inl rfl
    · rw [hpc]
      exact List.Sublist.refl _
    · rw [hpc] at hn
      exact hn
  | other hl hnodes h0 hr =>
    obtain ⟨hlists, hfresh⟩ := Instr.quiet_lists t (s.threads t).pid hl hi.lists
    have hsub : pc'.waitNodes.Sublist (s.threads t).pc.waitNodes := by
      rw [hpc]
      rcases hnodes with hn | ⟨hn, _⟩ <;> rw [hn]
      exact List.nil_sublist _
    refine ⟨L, F, U, hi.after_keep hti hsi ha ht hlists hi.bound hfresh (fun i h => h) (fun i he => ?_)
      (fun i h => h) (fun he => ?_) (fun n i w he => ?_) hsub hr, fun hp =>
      .of_subset hfresh fun n hn => ?_⟩
    · subst he
      cases hl
    · subst he
      cases hl
    · subst he
      cases hl
    · rw [hpc, Pc.owned, h0, List.append_nil] at hn
      rw [Pc.owned, hr, List.append_nil]
      rcases hnodes with hn' | ⟨hn', hp' | ⟨c, p, rfl⟩⟩
      · rw [hn']
        exact hn
      · exact absurd hp' hp
      · -- the fast path has not allocated anything
        have hnil : c.nodes = [] := hk.nodes c _ hpc
        rw [hn', ← hnil]
        exact hn

end PoolStep

/-! ### Runs -/

/-- Nobody dies while emptying a slot that it has marked free. -/
def CleanDeath (s : Sys T) : Label T → Prop
  | .die pid => ∀ t i, (s.threads t).pid = pid → s.dead pid = false →
    (s.threads t).pc.frees? = some i → (s.region.slots i).waiterHead = none
  | _ => True

/-- Lists and pool, with what they rest on: the table, the shape of the waits and the verdicts of
    the sweeps. -/
structure NodesInv (s : Sys T) : Prop where
  table : TableInv s
  shape : ShapeInv s
  sweeps : SweepsInv s
  pids : ∀ t, (s.threads t).pid ≠ 0
  pool : ∃ L F U, PoolInv s L F U

/-- A thread outside all calls owns no node. -/
theorem Pc.owned_of_outside {pc : Pc} (h : pc.outside = true) : pc.owned = [] := by
  rcases Pc.outside_cases h with rfl | ⟨c, r, rfl⟩ <;> rfl

/-- A call starts with no node. -/
theorem Pc.start_owned (c : Call) : (Pc.start c).owned = [] := by
  cases c <;> simp only [Pc.start] <;> (try split) <;> rfl

/-- A call starts with nothing known. -/
theorem Pc.start_knows (c : Call) (r : Region) (U : Nat → Prop) : (Pc.start c).Knows r U where
  touched i h := absurd h (Pc.start_touches c)
  walk i w h := by
    rw [Pc.start_walk] at h
    cases h
  reaped n h := by
    rw [Pc.reaped_none (Pc.start_sweep c)] at h
    cases h
  entry c' p hpc k hk := by
    cases c with
    | wait a timeout =>
      simp only [Pc.start] at hpc
      split at hpc <;> cases hpc
      cases hk
    | sweepDead | pulse => cases hpc
    | _ =>
      simp only [Pc.start] at hpc
      split at hpc <;> cases hpc
  nodes c' p hpc := by
    cases c with
    | wait a timeout =>
      simp only [Pc.start] at hpc
      split at hpc <;> cases hpc
      exact rfl
    | sweepDead | pulse => cases hpc
    | _ =>
      simp only [Pc.start] at hpc
      split at hpc <;> cases hpc

/-- A thread at rest knows nothing. -/
theorem Pc.idle_knows (r : Region) (U : Nat → Prop) : Pc.idle.Knows r U where
  touched _ h := by cases h
  walk _ _ h := by cases h
  reaped _ h := by cases h
  entry _ _ h := by cases h
  nodes _ _ h := by cases h

/-- The invariant at the start. -/
theorem NodesInv.of_init {pid : T → U32} (hpid : ∀ t, pid t ≠ 0) :
    NodesInv (Sys.rest Region.init pid) := by
  have hidle : (Sys.rest Region.init pid).Idle := fun t => rfl
  refine ⟨.of_idle hidle rfl, .of_idle hidle, .of_idle hidle, hpid, fun _ => [], [], (· = 0),
    listsOk_init, fun i hi => by rw [hi]; decide, fun i hu => ?_, fun i _ h => absurd rfl h,
    fun t _ n h => (by cases h),
    fun t _ => List.nodup_nil, fun t u n _ _ h => (by cases h), fun t _ n h => (by cases h),
    fun t _ => Pc.idle_knows _ _⟩
  by_contra hne
  have hzero : (Sys.rest Region.init pid).region.slots i = Slot.zero := if_neg hne
  rw [hzero] at hu
  cases hu

section Steps

variable [DecidableEq T] {s s' : Sys T} {a : Action T} {l : Label T}

/-- A call changes neither lists nor pool. -/
theorem PoolInv.entered {L : Nat → List Nat} {F : List Nat} {U : Nat → Prop} {t : T} {c : Call}
    (hi : PoolInv s L F U) (hout : (s.threads t).pc.outside = true) :
    PoolInv (s.entered t c) L F U := by
  have hpcs : ∀ u, ((s.entered t c).threads u).pc.owned = (s.threads u).pc.owned := by
    intro u
    rw [Sys.entered_pc]
    split
    · rename_i hut
      rw [hut, Pc.start_owned, Pc.owned_of_outside hout]
    · rfl
  refine ⟨hi.lists, hi.bound, hi.used, fun i hf hL => ?_, fun u hua => ?_, fun u hua => ?_,
    fun u v n hua hva hu hv => ?_, fun u hua n hn => ?_, fun u hua => ?_⟩
  · obtain ⟨u, hua, huf⟩ := hi.freed i hf hL
    refine ⟨u, by rw [Sys.entered_dead, Sys.entered_pid]; exact hua, ?_⟩
    rw [Sys.entered_pc]
    split
    · rename_i hut
      subst hut
      rcases Pc.outside_cases hout with hpc | ⟨_, _, hpc⟩ <;> rw [hpc] at huf <;> cases huf
    · exact huf
  · rw [Sys.entered_dead, Sys.entered_pid] at hua
    rw [hpcs]
    exact hi.own u hua
  · rw [Sys.entered_dead, Sys.entered_pid] at hua
    rw [hpcs]
    exact hi.nodup u hua
  · rw [Sys.entered_dead, Sys.entered_pid] at hua hva
    rw [hpcs] at hu hv
    exact hi.apart u v n hua hva hu hv
  · rw [Sys.entered_dead, Sys.entered_pid] at hua
    rw [Sys.entered_pid]
    rw [Sys.entered_pc] at hn
    split at hn
    · have hnil : (Pc.start c).waitNodes = [] :=
        (List.append_eq_nil_iff.mp (Pc.start_owned c)).1
      rw [hnil] at hn
      cases hn
    · exact hi.owner u hua n hn
  · rw [Sys.entered_dead, Sys.entered_pid] at hua
    rw [Sys.entered_pc]
    split
    · exact Pc.start_knows c _ _
    · exact hi.knows u hua

omit [DecidableEq T] in
/-- **A clean death changes neither lists nor pool.** -/
theorem PoolInv.died {L : Nat → List Nat} {F : List Nat} {U : Nat → Prop} {pid : U32}
    (hi : PoolInv s L F U) (hd : CleanDeath s (.die pid)) : PoolInv (s.died pid) L F U := by
  have hlive : ∀ u, (s.died pid).dead ((s.died pid).threads u).pid = false →
      s.dead (s.threads u).pid = false := by
    intro u hua
    rw [Sys.died_dead, Sys.died_threads, Bool.or_eq_false_iff] at hua
    exact hua.2
  refine ⟨hi.lists, hi.bound, hi.used, fun i hf hL => ?_, fun u hua => hi.own u (hlive u hua),
    fun u hua => hi.nodup u (hlive u hua),
    fun u v n hua hva => hi.apart u v n (hlive u hua) (hlive v hva),
    fun u hua => hi.owner u (hlive u hua), fun u hua => hi.knows u (hlive u hua)⟩
  obtain ⟨u, hua, huf⟩ := hi.freed i hf hL
  by_cases hup : (s.threads u).pid = pid
  · have hhead := hd u i hup (hup ▸ hua) huf
    exact absurd (hi.lists.nil_of_head ((hi.knows u hua).touched i (Pc.touches_of_frees huf)) hhead)
      hL
  · refine ⟨u, ?_, huf⟩
    rw [Sys.died_dead, Sys.died_threads, hua, Bool.or_false]
    exact decide_eq_false hup

/-- **Lists and pool are kept by every step**, a death while emptying a slot apart. -/
theorem NodesInv.step (hi : NodesInv s) (h : s.step a = some (s', l)) (hd : CleanDeath s l) :
    NodesInv s' := by
  obtain ⟨L, F, U, hp⟩ := hi.pool
  have hpids : ∀ t, (s'.threads t).pid ≠ 0 := by
    intro t
    cases Sys.step_inv h with
    | call => rw [Sys.entered_pid]; exact hi.pids t
    | tick => rw [Sys.after_pid]; exact hi.pids t
    | die => exact hi.pids t
  refine ⟨hi.table.step h, hi.shape.step h, hi.sweeps.step h, hpids, ?_⟩
  cases Sys.step_inv h with
  | call _ hout => exact ⟨L, F, U, hp.entered hout⟩
  | tick ha ht =>
    obtain ⟨L', F', U', hp', _⟩ := hp.tick hi.table hi.shape hi.sweeps hi.pids ha ht
    exact ⟨L', F', U', hp'⟩
  | die => exact ⟨L, F, U, hp.died hd⟩

omit [DecidableEq T] in
/-- A registered node of a live wait is registered on the wait's object, under its first node. -/
theorem NodesInv.entry (hi : NodesInv s) {t : T} {c : WaitCtx} {p : WaitPc} {k : Nat}
    (ha : s.dead (s.threads t).pid = false) (hpc : (s.threads t).pc = .wait c p)
    (hk : k < c.nodes.length) (hown : c.node k ∈ p.owned c)
    (hreg : (s.region.nodes (c.node k)).registered = true) :
    (s.region.nodes (c.node k)).obj = some (c.target k) ∧
      (s.region.nodes (c.node k)).waitWord = some (c.node 0) := by
  obtain ⟨L, F, U, hp⟩ := hi.pool
  exact (hp.knows t ha).entry c p hpc k hk hown hreg

/-- The call is taking its wait's nodes off their lists. -/
def Pc.detaching : Pc → Bool
  | .wait _ (.detach (.detach _)) | .wait _ (.clean _ (.detach _)) => true
  | _ => false

section Acting

variable {t : T} {o : Oracle} {ins : Instr} {pc' : Pc} {n : Nat}

omit [DecidableEq T] in
/-- Outside the region lock a thread keeps its nodes, unless it panics. -/
theorem NodesInv.keeps_nodes (hi : NodesInv s) (ha : s.dead (s.threads t).pid = false)
    (hg : PcGo s.toShared (s.threads t).pid o (s.threads t).pc ins pc') (hun : ins.guarded = false)
    (hn : n ∈ (s.threads t).pc.waitNodes) : n ∈ pc'.waitNodes ∨ pc' = .panicked := by
  obtain ⟨L, F, U, hp⟩ := hi.pool
  have hk := hp.knows t ha
  have hpool := hg.pool
  generalize hpc : (s.threads t).pc = pc at hpool hn
  cases hpool with
  | other _ hw =>
    rcases hw with hw | ⟨_, hw | ⟨c, p, rfl⟩⟩
    · rw [hw]
      exact .inl hn
    · exact .inr hw
    · have hnil : c.nodes = [] := hk.nodes c _ hpc
      have hn' : n ∈ c.nodes := hn
      rw [hnil] at hn'
      cases hn'
  | _ => cases hun

omit [DecidableEq T] in
/-- Nodes are registered at the end of the look-up, one after the other. -/
theorem NodesInv.registers_at (hi : NodesInv s) (ha : s.dead (s.threads t).pid = false) {i w : Nat}
    (ht : tick o s.toShared (s.threads t).pid (s.threads t).calls (s.threads t).pc =
      some (.register n i w, pc')) :
    ∃ c j, (s.threads t).pc = .wait c (.pass (.register j)) ∧ j < c.nNodes ∧
      c.nodes.length = c.nNodes ∧ c.nodes.Nodup ∧ n = c.node j ∧ i = c.target j ∧
      w = c.node 0 ∧ pc' = .wait c (.pass (c.registerNext j)) := by
  obtain ⟨L, F, U, hp⟩ := hi.pool
  have hk := hp.knows t ha
  have hnd := (List.nodup_append.mp (hp.nodup t ha)).1
  have hpool := (tick_inv ht).pool
  generalize hpc : (s.threads t).pc = pc at hpool hnd
  generalize hins : Instr.register n i w = ins at hpool
  cases hpool with
  | @register c j =>
    cases hins
    obtain ⟨hlen, hj, _⟩ := hk.nodes c _ hpc
    exact ⟨c, j, rfl, hj, hlen, hnd, rfl, rfl, rfl, rfl⟩
  | other hl =>
    subst hins
    cases hl
  | _ => cases hins

omit [DecidableEq T] in
/-- A node is registered by the wait that owns it, under a node of the same wait. -/
theorem NodesInv.registers (hi : NodesInv s) (ha : s.dead (s.threads t).pid = false) {i w : Nat}
    (ht : tick o s.toShared (s.threads t).pid (s.threads t).calls (s.threads t).pc =
      some (.register n i w, pc')) :
    n ∈ (s.threads t).pc.waitNodes ∧ w ∈ (s.threads t).pc.waitNodes ∧
      pc'.waitNodes = (s.threads t).pc.waitNodes := by
  obtain ⟨c, j, hpc, hj, hlen, _, rfl, _, rfl, rfl⟩ := hi.registers_at ha ht
  rw [hpc]
  refine ⟨WaitCtx.node_mem (by omega), WaitCtx.node_mem (by omega), ?_⟩
  unfold WaitCtx.registerNext
  split <;> rfl

omit [DecidableEq T] in
/-- A node of a live wait is detached by the wait itself, or by a wake walk. -/
theorem NodesInv.detaches (hi : NodesInv s) (ha : s.dead (s.threads t).pid = false)
    (ht : tick o s.toShared (s.threads t).pid (s.threads t).calls (s.threads t).pc =
      some (.detach n, pc')) {u : T} (hua : s.dead (s.threads u).pid = false)
    (hn : n ∈ (s.threads u).pc.waitNodes) :
    (u = t ∧ (s.threads t).pc.detaching = true) ∨
      ∃ i, (s.threads t).pc.walk? = some (i, .node (some n)) := by
  obtain ⟨L, F, U, hp⟩ := hi.pool
  have hk := hp.knows t ha
  have hpool := (tick_inv ht).pool
  have hown : n ∈ (s.threads t).pc.waitNodes → u = t := fun hnt =>
    hp.apart u t n hua ha (List.mem_append_left _ hn) (List.mem_append_left _ hnt)
  generalize hpc : (s.threads t).pc = pc at hpool hown
  generalize hins : Instr.detach n = ins at hpool
  cases hpool with
  | wake hw =>
    cases hins
    exact .inr ⟨_, hw⟩
  | @detach c p p' m _ hcase =>
    cases hins
    have hok := hk.nodes c p hpc
    rcases hcase with ⟨k, rfl, rfl, _⟩ | ⟨out, todo, rfl, _⟩
    · exact .inl ⟨hown (WaitCtx.node_mem hok.2), rfl⟩
    · exact .inl ⟨hown (hok.1 n (List.mem_cons_self ..)), rfl⟩
  | @reap _ _ auto st x judged hsw _ hstands =>
    cases hins
    rw [← hpc] at hsw
    exfalso
    -- the owner of a reaped node was judged dead
    simp only [DeadCand.nodeStands, Bool.and_eq_true, decide_eq_true_eq] at hstands
    have hdead := ((hi.sweeps t auto _ hsw).2 (x, false) (by simp)).2 rfl x.pid
      (by simp [DeadCand.pids])
    rw [← hstands.2, hp.owner u hua _ hn] at hdead
    rcases hdead with h | h
    · exact hi.pids u h
    · rw [hua] at h
      cases h
  | other hl =>
    subst hins
    cases hl
  | _ => cases hins

omit [DecidableEq T] in
/-- The nodes of the other live threads keep their entries. -/
theorem NodesInv.others (hi : NodesInv s) (ha : s.dead (s.threads t).pid = false)
    (ht : tick o s.toShared (s.threads t).pid (s.threads t).calls (s.threads t).pc =
      some (ins, pc')) {u : T} (hut : u ≠ t) (hua : s.dead (s.threads u).pid = false)
    (hn : n ∈ (s.threads u).pc.waitNodes) :
    Kept (s.region.nodes n) ((ins.apply t (s.threads t).pid s.toShared).region.nodes n) := by
  obtain ⟨L, F, U, hp⟩ := hi.pool
  have hun : n ∈ (s.threads u).pc.owned := List.mem_append_left _ hn
  refine Instr.kept (fun m r _ hal hnm => ?_) fun i w he => ?_
  · obtain ⟨F', _, hal'⟩ := hp.lists.alloc hal
    exact hp.unowned hal' hua (hnm ▸ hun)
  · subst he
    exact hut (hp.apart u t n hua ha hun (List.mem_append_left _ (hi.registers ha ht).1))

end Acting

end Steps

/-! ### Well-formed lists -/

/-- Nobody dies inside a critical section. -/
def DiesOutside (s : Sys T) : Label T → Prop
  | .die pid => ∀ t, (s.threads t).pid = pid → (s.threads t).pc.locked = false
  | _ => True

instance [Fintype T] (s : Sys T) : (l : Label T) → Decidable (DiesOutside s l)
  | .die pid =>
    inferInstanceAs (Decidable (∀ t, (s.threads t).pid = pid → (s.threads t).pc.locked = false))
  | .call _ _ | .instr _ _ _ => inferInstanceAs (Decidable True)

/-- A death outside of critical sections is clean. -/
theorem DiesOutside.clean {s : Sys T} {l : Label T} (h : DiesOutside s l) : CleanDeath s l := by
  cases l with
  | die pid =>
    intro t i ht _ hf
    have hlk := Pc.locked_of_frees hf
    rw [h t ht] at hlk
    cases hlk
  | _ => trivial

/-- Waiter lists and node pool are well formed. -/
structure WellFormed (s : Sys T) : Prop where
  /-- The list of a used slot is finite, acyclic and doubly linked, and made of exactly the nodes
      registered on the slot. -/
  lists : ∀ i, (s.region.slots i).state = .used → ∃ l : List Nat,
    Chain (fun n => (s.region.nodes n).objNext) (fun n => (s.region.nodes n).objPrev) none
      (s.region.slots i).waiterHead l ∧ l.Nodup ∧
    ∀ n, n ∈ l ↔ (s.region.nodes n).registered = true ∧ (s.region.nodes n).obj = some i
  /-- No node is registered on a free slot, but for the one that the lock holder is just closing or
      reaping. -/
  freed : ∀ i n, (s.region.slots i).state = .free → (s.region.nodes n).registered = true →
    (s.region.nodes n).obj = some i →
    ∃ t, s.lock = some t ∧ (s.threads t).pc.frees? = some i
  /-- The free list is finite and duplicate free, and apart from the waiter lists, from the nodes
      of unfinished waits of live processes and from the nodes never handed out. -/
  free : ∃ F : List Nat, Path (fun n => (s.region.nodes n).waiterNext) s.region.nodeFreeHead F ∧
    F.Nodup ∧ ∀ n ∈ F, n < s.region.nodeFresh ∧ (s.region.nodes n).registered = false ∧
      ∀ t, s.dead (s.threads t).pid = false → n ∉ (s.threads t).pc.waitNodes
  /-- No node belongs to two live waits, or twice to one. -/
  apart : ∀ t u, s.dead (s.threads t).pid = false → s.dead (s.threads u).pid = false →
    (s.threads t).pc.waitNodes.Nodup ∧
      ∀ n, n ∈ (s.threads t).pc.waitNodes → n ∈ (s.threads u).pc.waitNodes → t = u
  /-- A registered node of a live wait leads to the wait's first node. -/
  word : ∀ t c p n, s.dead (s.threads t).pid = false → (s.threads t).pc = .wait c p →
    n ∈ (s.threads t).pc.waitNodes → (s.region.nodes n).registered = true →
    (s.region.nodes n).waitWord = some (c.node 0)

/-- A wait with a registered node has given none back. -/
theorem WaitPc.owned_eq {r : Region} {c : WaitCtx} {p : WaitPc} {n : Nat} (hn : n ∈ p.owned c)
    (hok : p.NodesOk r c) (hreg : (r.nodes n).registered = true) : p.owned c = c.nodes := by
  cases p with
  | clean out q =>
    cases q with
    | free todo =>
      rw [hok n hn] at hreg
      cases hreg
    | unlock => cases hn
    | lock | detach => rfl
  | _ => rfl

/-- **The invariant gives well-formed lists.** -/
theorem NodesInv.wellFormed {s : Sys T} (hi : NodesInv s) : WellFormed s := by
  obtain ⟨L, F, U, hp⟩ := hi.pool
  have hown : ∀ {t n}, n ∈ (s.threads t).pc.waitNodes → n ∈ (s.threads t).pc.owned :=
    fun hn => List.mem_append_left _ hn
  refine ⟨fun i hu => ?_, fun i n hf hreg hobj => ?_, ?_, fun t u hta hua => ?_,
    fun t c p n hta hpc hn hreg => ?_⟩
  · exact ⟨L i, hp.lists.chain i (hp.used i hu), hp.lists.nodup i, hp.lists.mem i⟩
  · have hmem := (hp.lists.mem i n).mpr ⟨hreg, hobj⟩
    obtain ⟨t, hta, htf⟩ := hp.freed i hf (List.ne_nil_of_mem hmem)
    exact ⟨t, (hi.table.lock t).mpr ⟨Pc.locked_of_frees htf, hta⟩, htf⟩
  · refine ⟨F, hp.lists.free, hp.lists.freeNodup, fun n hn => ?_⟩
    obtain ⟨hlt, hreg⟩ := hp.lists.freeOk n hn
    exact ⟨hlt, hreg, fun t hta hm => (hp.own t hta n (hown hm)).2 hn⟩
  · exact ⟨(List.nodup_append.mp (hp.nodup t hta)).1,
      fun n hn hm => hp.apart t u n hta hua (hown hn) (hown hm)⟩
  · have hk := hp.knows t hta
    have hok := hk.nodes c p hpc
    rw [hpc] at hn
    have hmem : n ∈ p.owned c := hn
    rw [WaitPc.owned_eq hn hok hreg] at hmem
    obtain ⟨k, hlt, rfl⟩ := WaitCtx.exists_node hmem
    exact (hk.entry c p hpc k hlt hn hreg).2

/-- **Waiter lists and node pool stay well formed.** Whatever any number of processes create, wait
    for, signal, close, sweep and abandon, as long as nobody dies inside a critical section. -/
theorem lists_well_formed [DecidableEq T] {pid : T → U32} (hpid : ∀ t, pid t ≠ 0)
    {h : List (Label T)} {s : Sys T}
    (hr : Run Sys.step (fun s l _ => DiesOutside s l) (Sys.rest Region.init pid) h s) :
    WellFormed s := by
  have hi : NodesInv s := hr.state_invariant (.of_init hpid)
    fun s a s' l hi hs hd => hi.step hs hd.clean
  exact hi.wellFormed

/-- Process 7 creates an event and waits for it with an infinite timeout, process 8 joins it, and
    process 7 dies in its sleep. -/
def twoWaiters : List (Action (Fin 2)) :=
  .call 0 (.create (.event false false)) :: List.replicate 18 (.tick 0 {}) ++
  .call 0 (.wait ⟨[1], 5, false, 0⟩ .never) :: List.replicate 20 (.tick 0 {}) ++
  .call 1 (.wait ⟨[1], 6, false, 0⟩ .never) :: List.replicate 20 (.tick 1 {}) ++ [.die 7]

def twoWaitersPid (t : Fin 2) : U32 := 7 + BitVec.ofNat 32 t.val

/-- Two waiters on one list, one of them dead. -/
theorem lists_well_formed_twoWaiters :
    ∃ h s, Run Sys.step (fun s l _ => DiesOutside s l) (Sys.rest Region.init twoWaitersPid) h s ∧
      (s.region.slots 1).waiterHead = some 1 ∧ (s.region.nodes 1).objNext = some 0 ∧
      s.dead 7 = true ∧ WellFormed s := by
  obtain ⟨h, s, hr, h₁, h₂, h₃⟩ := exists_run_of_exec Sys.step
    (fun s l _ => DiesOutside s l) (Sys.rest Region.init twoWaitersPid)
    (P := fun s => (s.region.slots 1).waiterHead = some 1 ∧ (s.region.nodes 1).objNext = some 0 ∧
      s.dead 7 = true) twoWaiters (by decide +kernel)
  exact ⟨h, s, hr, h₁, h₂, h₃, lists_well_formed (by decide) hr⟩

end Ntsync
