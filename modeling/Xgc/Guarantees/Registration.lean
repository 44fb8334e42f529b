import Xgc.Algo.MinorRun
import Xgc.Guarantees.NurseryWalk

/-! Registering an old object that fails. `gc_gen_add_old_node` links the node before it asks the card
    table for an entry, and the card table counts the entry before it asks for its bitmap; whichever
    request is refused, each of them takes back what it has done, and so do its callers. What stays is
    the spare room of the entries array. -/

namespace Xgc

open Lib

/-! ### Step by step -/

/-- `gc_card_table_register_owner` as it is written: the entry is filled and counted before its bitmap
    is requested, and no longer counted when that is refused. -/
def gcCardTableRegisterOwnerStepwise (t : GcCardTable) (owner ownerSize : Nat) (m : Mem) :
    GcCardTable × Mem × Bool :=
  if owner = 0 ∨ ownerSize = 0 then (t, m, false)
  else if (gcCardTableFindEntry t owner).isSome then (t, m, true)
  else
    let (t, m, ok) := growEntries t m
    if !ok then (t, m, false)
    else
      let cardCount := cardCountFor ownerSize (gcCardTableEffectiveGranularity t)
      let (dirtyMap, m) := gcBitmapInit cardCount m
      let t := { t with entries := t.entries ++
        [{ ownerBase := owner, ownerSize, cardCount, dirtyCardCount := 0, dirtyMap }] }
      if dirtyMap.bitCount ≠ cardCount then ({ t with entries := t.entries.dropLast }, m, false)
      else (t, m, true)

theorem gcCardTableRegisterOwnerStepwise_eq :
    gcCardTableRegisterOwnerStepwise = gcCardTableRegisterOwner := by
  funext t owner ownerSize m
  unfold gcCardTableRegisterOwnerStepwise gcCardTableRegisterOwner
  simp only [List.dropLast_concat]

/-- `gc_gen_add_old_node` as it is written: the node is linked before the owner is registered, and
    unlinked when that fails. -/
def gcGenAddOldNodeStepwise (w : GenWorld) (obj : Addr) (size : Nat) : GenWorld × Bool :=
  let (mem, ok) := w.mem.reserve 24
  if !ok then ({ w with mem }, false)
  else
    let w := { w with
      mem
      algoState := { w.algoState with
        oldObjects := { obj, marked := false } :: w.algoState.oldObjects } }
    let (t, mem, ok) := gcCardTableRegisterOwnerStepwise w.barriers.oldToYoung obj size w.mem
    let w := { w with mem, barriers := { w.barriers with oldToYoung := t } }
    if !ok then
      ({ w with algoState := { w.algoState with oldObjects := w.algoState.oldObjects.tail } }, false)
    else ({ w with heap := gcHeapRecordOldAlloc w.heap size }, true)

/-- Taking back is the same as not having done it. -/
theorem gcGenAddOldNodeStepwise_eq : gcGenAddOldNodeStepwise = gcGenAddOldNode := by
  funext w obj size
  unfold gcGenAddOldNodeStepwise gcGenAddOldNode gcBarrierRegisterOwner
  rw [gcCardTableRegisterOwnerStepwise_eq]
  rcases w.mem.reserve_cases 24 with hr | hr
  · simp only [hr, Bool.not_true, Bool.false_eq_true, if_false]
    split <;> rfl
  · simp only [hr, Bool.not_false, if_true]

/-! ### Each caller -/

variable {w : GenWorld}

theorem gcGenAddOldNode_noTrace {obj : Addr} {size : Nat}
    (h : (gcGenAddOldNode w obj size).2 = false) : NoTrace w (gcGenAddOldNode w obj size).1 := by
  rcases gcGenAddOldNode_ways w obj size with ⟨m, b, heq, hsame, hq⟩ | ⟨m, b, heq, -⟩
  · rw [heq]
    exact ⟨rfl, hsame, hq.blocks⟩
  · rw [heq] at h
    exact nomatch h

/-- The block of an old object that cannot be registered is given back. -/
theorem gcGenAllocOld_noTrace {desc : GcDescriptor} {size : Nat} {flags : BitVec 32}
    (h : (gcGenAllocOld w desc size flags).2 = 0) :
    NoTrace w (gcGenAllocOld w desc size flags).1 := by
  unfold gcGenAllocOld at h ⊢
  rcases w.mem.malloc_cases size with hm | ⟨a, hfit, hm⟩
  · simp only [hm, if_true]
    exact .of_quiet w w.mem.quiet_refuse
  · have ha : a ≠ 0 := Nat.pos_iff_ne_zero.mp hfit.1
    simp only [hm, if_neg ha] at h ⊢
    rcases gcGenAddOldNode_ways { w with mem := w.mem.grant a size } a (size % 2 ^ 32) with
      ⟨m, b, heq, hsame, hq⟩ | ⟨m, b, heq, -⟩
    · simp only [heq, Bool.not_false, if_true]
      exact ⟨rfl, hsame, (Mem.quiet_grant_free hfit hq).blocks⟩
    · simp only [heq, Bool.not_true, Bool.false_eq_true, if_false] at h
      exact absurd h ha

/-- The nursery has room for every object that is meant for it, so it is for an old object that
    `gc_gen_alloc` returns `NULL`. -/
theorem gcGenAlloc_noTrace (hr : w.Roomy) {desc : GcDescriptor} {size : Nat} {flags : BitVec 32}
    (h : (gcGenAlloc w desc size flags).2 = 0) : NoTrace w (gcGenAlloc w desc size flags).1 := by
  by_cases hsize : size < sizeofHeader
  · rw [gcGenAlloc, if_pos (.inr hsize)]
    exact .refl w
  · rcases hr.alloc_cases desc (Nat.le_of_not_lt hsize) flags with ⟨-, halloc⟩ | ⟨-, halloc⟩
    · -- an address in the nursery is not `NULL`
      have hpos := (hr.withRoom size flags).kept.pos
      rw [halloc] at h
      exact absurd (Nat.eq_zero_of_add_eq_zero_right h) (Nat.pos_iff_ne_zero.mp hpos)
    · rw [halloc] at h ⊢
      exact gcGenAllocOld_noTrace h

/-- A copy lies outside of the nursery, so what is returned from inside has not been moved. -/
theorem gcGenPromote_noTrace {ctx : GcGenMinorCtx} {obj : Addr}
    (hblock : (ctx.rt.algoState.nurserySpace, ctx.rt.algoState.nurseryCapacity) ∈ ctx.rt.mem.blocks)
    (hin : gcGenInNursery ctx.rt.algoState obj = true) (h : (gcGenPromote ctx obj).2.1 = obj) :
    NoTrace ctx.rt (gcGenPromote ctx obj).1.rt ∧ (gcGenPromote ctx obj).1.wl = ctx.wl := by
  rcases gcGenPromote_ways ctx obj with
    ⟨m, b, t, refused, heq, hsame, hblocks, -⟩ | ⟨t, o, m, b, losses, wl, heq, hto⟩
  · rw [heq]
    exact ⟨⟨rfl, hsame, hblocks⟩, rfl⟩
  · rw [heq] at h
    obtain rfl : t = obj := h
    rw [inNursery_of_fits hblock hto.fits] at hin
    exact nomatch hin

/-! ### Whole runs -/

namespace GenWorld.Roomy

variable {w' : GenWorld}

/-- Besides the state of the algorithm, all that matters is that the nursery is not freed. -/
theorem congr (h : w.Roomy) (hbound : w'.stateBound = w.stateBound)
    (hstate : w'.algoState = w.algoState)
    (hlive : (w.algoState.nurserySpace, w.algoState.nurseryCapacity) ∈ w'.mem.blocks)
    (hhandles : w'.graph.handles = w.graph.handles) : w'.Roomy where
  kept :=
    { bound := hbound.trans h.kept.bound
      space := rfl
      capacity := rfl
      used := rfl
      pos := by rw [hstate]; exact h.kept.pos
      live := by rw [hstate]; exact hlive
      old := fun n hn => by
        unfold GenWorld.Outside
        rw [hstate]
        exact h.kept.old n (hstate ▸ hn)
      handles := fun k hk => by
        unfold GenWorld.Outside
        rw [hstate]
        exact h.kept.handles k (hhandles ▸ hk)
      headers := fun _ _ => rfl }
  used_le := by rw [hstate]; exact h.used_le
  capacity := by rw [hstate]; exact h.capacity

/-- Wherever an allocation takes its object from, the nursery stays in its place. -/
theorem alloc (h : w.Roomy) (desc : GcDescriptor) (size : Nat) (flags : BitVec 32) :
    GenWorld.Roomy (gcAllocTyped gcGenCopyMsVtable w desc size flags).1 := by
  by_cases hsize : sizeofHeader ≤ size
  · rcases h.alloc_cases desc hsize flags with ⟨hyoung, halloc⟩ | ⟨-, halloc⟩
    · have hv := h.withRoom size flags
      have hnext := hv.allocYoung desc (h.room hsize hyoung)
      have hne : (gcGenAllocYoung (Xgc.withRoom w size flags) desc (alignedSize size)).2 ≠ 0 :=
        (Nat.add_pos_left hv.kept.pos _).ne'
      rw [gcAllocTyped_repaired gcGenCopyMsVtable rfl rfl hsize halloc hne]
      exact hnext.congr rfl rfl hnext.kept.live rfl
    · obtain ⟨hk, hout⟩ := h.kept.allocOld desc (alignedSize size) flags
      exact h.of_kept (NurseryKept.allocTyped hsize halloc hk hout)
  · rw [gcAllocTyped, if_pos (Nat.lt_of_not_le hsize)]
    exact h

/-- Every call leaves room for what is in use. -/
theorem perform (h : w.Roomy) (op : ClientOp) : GenWorld.Roomy (op.perform genCollector w).1 := by
  cases op with
  | alloc desc size flags => exact h.alloc desc size flags
  | storeRef | loadRef | writeBytes | setRoot | acquire | get | release =>
    exact h.of_kept (h.kept.perform rfl)
  | collectMinor => exact h.of_reset (h.kept.collectMinor.congr rfl rfl rfl rfl rfl)
  | collectMajor | collectFull => exact h.of_reset (h.kept.collectFull.congr rfl rfl rfl rfl rfl)

end GenWorld.Roomy

/-- No step of the tracing touches the nursery. -/
theorem NurseryKept.minorStep {w₀ : GenWorld} {ctx ctx' : GcGenMinorCtx} {e : TraceEvent Addr}
    (h : NurseryKept w₀ ctx.rt) (hs : MinorStep ctx e ctx') : NurseryKept w₀ ctx'.rt := by
  cases hs with
  | known | copy => exact h.moveRef _
  | pop => exact h
  | aside hm => exact h.congr rfl rfl hm rfl rfl

theorem GenWorld.Settled.perform (h : w.Settled) (op : ClientOp) :
    GenWorld.Settled (op.perform genCollector w).1 :=
  h.imp (fun hr => hr.perform op) fun hu => hu.perform (genCollector_inert hu.bound) op

/-- A runtime that has just been created is settled. -/
theorem GenWorld.Settled.create {cfg : GcConfig} {hooks : GcVmHooks} {mem : Mem}
    (hmem : mem.Owns []) (h : gcRuntimeCreate cfg gcGenCopyMsVtable hooks mem = some w) :
    w.Settled :=
  (WalkInv.start hmem h).imp NurseryInv.toRoomy And.left

/-- Any call, whatever its arguments and whatever is refused. A client releases only handles that it
    has. -/
def AnyStep (w : GenWorld) (op : ClientOp) (w' : GenWorld) : Prop :=
  (∀ handle, op = .release handle → handle = 0 ∨ handle ∈ w.graph.handles.map GcHandle.addr) ∧
    (op.perform genCollector w).1 = w'

/-- The states of a runtime with gen-copy-ms. -/
def Arrives (w : GenWorld) : Prop :=
  ∃ cfg hooks mem w₀ ops, mem.Owns [] ∧ gcRuntimeCreate cfg gcGenCopyMsVtable hooks mem = some w₀ ∧
    Run AnyStep w₀ ops w

/-- Among them are those that a well-behaved client gets to. -/
theorem Arrives.of_reaches (hw : genCollector.Reaches w) : Arrives w := by
  obtain ⟨w₀, ops, ⟨cfg, hooks, mem, -, -, hmem, hcreate, -⟩, hrun⟩ := hw
  refine ⟨cfg, hooks, mem, w₀, ops, hmem, hcreate, hrun.mono fun v op v' hst => ⟨?_, hst.2.1⟩⟩
  rintro handle rfl
  exact hst.1

/-- In every state there is room in the nursery for what is in use, or there is no nursery. -/
theorem Arrives.settled (hw : Arrives w) : w.Settled := by
  obtain ⟨cfg, hooks, mem, w₀, ops, hmem, hcreate, hrun⟩ := hw
  refine hrun.invariant (P := GenWorld.Settled) (fun v op v' hv hst => ?_) (.create hmem hcreate)
  obtain ⟨-, rfl⟩ := hst
  exact hv.perform op

/-- In every state, and at every point of the tracing of a minor collection, a registration that
    fails, an allocation that returns `NULL` and a promotion that returns the young object leave the
    runtime as it was, but for the spare room of the card table. -/
theorem failure_leaves_noTrace (hw : Arrives w) :
    (∀ (v : GenWorld) obj size, (gcGenAddOldNodeStepwise v obj size).2 = false →
      NoTrace v (gcGenAddOldNodeStepwise v obj size).1) ∧
    (∀ desc size flags, (gcGenAlloc w desc size flags).2 = 0 →
      NoTrace w (gcGenAlloc w desc size flags).1) ∧
    ∀ events ctx, Run MinorStep w.minorStart events ctx → ∀ obj,
      gcGenInNursery ctx.rt.algoState obj = true → (gcGenPromote ctx obj).2.1 = obj →
        NoTrace ctx.rt (gcGenPromote ctx obj).1.rt ∧ (gcGenPromote ctx obj).1.wl = ctx.wl := by
  rw [gcGenAddOldNodeStepwise_eq]
  refine ⟨fun v obj size h => gcGenAddOldNode_noTrace h, fun desc size flags h => ?_,
    fun events ctx hrun obj hin h => ?_⟩
  · rcases hw.settled with hr | hu
    · exact gcGenAlloc_noTrace hr h
    · have heq : gcGenAlloc w desc size flags = (w, 0) := by simp [gcGenAlloc, hu.bound]
      rw [heq]
      exact .refl w
  · rcases hw.settled with hr | hu
    · have hctx : NurseryKept w ctx.rt :=
        hrun.invariant (P := fun c => NurseryKept w c.rt) (fun _ _ _ hc hst => hc.minorStep hst)
          { hr.kept with }
      exact gcGenPromote_noTrace hctx.rebase.live hin h
    · have hspace : ctx.rt.algoState.nurserySpace = 0 :=
        hrun.invariant (P := fun c => c.rt.algoState.nurserySpace = 0)
          (fun _ _ _ hc hst => hst.same.2.trans hc) (congrArg GenState.nurserySpace hu.state)
      simp [gcGenInNursery, hspace] at hin

/-- A young cell in a root slot, and an allocator that refuses the ninth request. -/
def genNinth : GenWorld :=
  genCollector.rootCell 0
    ((genCollector.sampleStart 128 2 fun n => n == 8).get (by decide +kernel))

/-- A handle to the cell, which takes one request. -/
def genNinth₁ : GenWorld :=
  ((ClientOp.acquire (genNinth.graph.roots 0) 0).perform genCollector genNinth).1

/-- Two handles to it. -/
def genNinth₂ : GenWorld :=
  ((ClientOp.acquire (genNinth.graph.roots 0) 0).perform genCollector genNinth₁).1

theorem genNinth_reaches : genCollector.Reaches genNinth :=
  (Collector.sampleStart_starts (by decide : 128 < 2 ^ 64) (Option.some_get _).symm
    (by decide +kernel)).reaches.rootCell (by decide) (by decide +kernel) (by decide +kernel)
    (by decide +kernel)

theorem genNinth₁_reaches : genCollector.Reaches genNinth₁ :=
  genNinth_reaches.step (.acquire _ 0) ⟨.inr (by decide +kernel), rfl, by decide +kernel⟩

theorem genNinth₂_reaches : genCollector.Reaches genNinth₂ :=
  genNinth₁_reaches.step (.acquire _ 0) ⟨.inr (by decide +kernel), rfl, by decide +kernel⟩

/-- The ninth request is for the bitmap of the new entry: the node has been linked, the entries array
    has grown, and a pinned object, or a copy and the room to forward to it, have been allocated. -/
theorem failure_leaves_noTrace_sample :
    NoTrace genNinth₂ (gcGenAddOldNodeStepwise genNinth₂ 64 24).1 ∧
    NoTrace genNinth₁ (gcGenAlloc genNinth₁ cell 24 allocPinned).1 ∧
    NoTrace genNinth.minorStart.rt
      (gcGenPromote genNinth.minorStart (genNinth.graph.roots 0)).1.rt ∧
    (gcGenAddOldNodeStepwise genNinth₂ 64 24).1.mem.calls = 9 ∧
    (gcGenAlloc genNinth₁ cell 24 allocPinned).1.mem.calls = 9 ∧
    (gcGenPromote genNinth.minorStart (genNinth.graph.roots 0)).1.rt.mem.calls = 9 := by
  refine ⟨?_, ?_, ?_, by decide +kernel, by decide +kernel, by decide +kernel⟩
  · exact (failure_leaves_noTrace (.of_reaches genNinth₂_reaches)).1 genNinth₂ 64 24
      (by decide +kernel)
  · exact (failure_leaves_noTrace (.of_reaches genNinth₁_reaches)).2.1 cell 24 allocPinned
      (by decide +kernel)
  · exact ((failure_leaves_noTrace (.of_reaches genNinth_reaches)).2.2 [] _ (.nil _) _
      (by decide +kernel) (by decide +kernel)).1

end Xgc
