import Xgc.Algo.Footprint

/-! `src/algo/bacon-rajan`: one of the algorithms that a build can choose. It is a skeleton: it allocates
    objects and pins them, but its write barrier and its collections do nothing, and it keeps no list
    of its objects. -/

namespace Xgc

open Lib (Block)

/-- A runtime that is bound to bacon-rajan, which never sets `algo_state`. -/
abbrev BrWorld := World Unit

/-- `gc_bacon_rajan_global_init`: the worklist, in case the runtime has not allocated it. -/
def gcBaconRajanGlobalInit (w : BrWorld) (_cfg : GcConfig) : BrWorld :=
  if w.worklistData = [] ∧ w.worklistCapacity > 0 then
    let (mem, ok) := w.mem.reserve (w.worklistCapacity.toNat * 8)
    { w with mem, worklistData := if ok then List.replicate w.worklistCapacity.toNat 0 else [] }
  else w

/-- `gc_bacon_rajan_alloc` -/
def gcBaconRajanAlloc (w : BrWorld) (desc : GcDescriptor) (totalSize : Nat)
    (allocFlags : BitVec 32) : BrWorld × Addr :=
  let (mem, obj) := w.mem.malloc totalSize
  if obj = 0 then ({ w with mem }, 0)
  else
    let w := { w with mem }.addObject obj desc
      (newHeader desc totalSize (allocatedFlags desc allocFlags))
    ({ w with stats := w.stats.add totalSize }, obj)

/-- `gc_bacon_rajan_pin` -/
def gcBaconRajanPin (w : BrWorld) (obj : Addr) : BrWorld :=
  { w with graph := w.graph.modifyObj obj fun o => { o with flags := o.flags ||| objectFlagPinned } }

/-- `gc_bacon_rajan_unpin` -/
def gcBaconRajanUnpin (w : BrWorld) (obj : Addr) : BrWorld :=
  { w with graph := w.graph.modifyObj obj fun o =>
      { o with flags := o.flags &&& ~~~objectFlagPinned } }

/-- `GC_BACON_RAJAN_VTABLE`; a full collection visits the roots, to no effect. -/
def gcBaconRajanVtable : GcAlgorithmVtable Unit where
  name := some "bacon-rajan"
  supportsMoving := false
  supportsGenerations := false
  requiresWriteBarrier := true
  requiresReadBarrier := false
  globalInit := some gcBaconRajanGlobalInit
  globalDestroy := some fun w => w
  alloc := some gcBaconRajanAlloc
  postAlloc := some fun w _ => w
  writeBarrier := some fun w _ _ _ _ => w
  readBarrier := some fun w slot => w.graph.read slot
  collectMinor := some fun w => w
  collectMajor := some fun w => w
  collectFull := some fun w => w
  pin := some gcBaconRajanPin
  unpin := some gcBaconRajanUnpin

/-- `xgc_default_algorithm`, as a build with this algorithm has it -/
def xgcDefaultAlgorithm : GcAlgorithmVtable Unit := gcBaconRajanVtable

/-- The objects are wherever a live block starts with a header. -/
def brTracked (w : BrWorld) : List Addr :=
  (w.mem.blocks.map Prod.fst).filter fun a => (w.graph.objs a).isSome

/-- bacon-rajan as its clients see it. -/
def brCollector : Collector Unit where
  algo := xgcDefaultAlgorithm
  tracked := brTracked
  rounded := id
  maxSize := 2 ^ 32 - 1

/-- `gc_alloc_typed` is refused both its requests, or adds an object in a block of its own: the one
    that the algorithm has written, or plain memory if the algorithm has been refused its request. -/
theorem gcAllocTyped_br_cases (w : BrWorld) (desc : GcDescriptor) {size : Nat} (flags : BitVec 32)
    (hsize : sizeofHeader ≤ size) :
    (∃ m, w.mem.Quiet m ∧ m.failed = true ∧
      gcAllocTyped xgcDefaultAlgorithm w desc size flags = ({ w with mem := m }, 0)) ∨
    ∃ a m first stats, w.mem.Quiet m ∧ m.Fits a size ∧
      (first = newHeader desc size (allocatedFlags desc flags) ∨
        first = zeroHeader ∧ m.failed = true) ∧
      gcAllocTyped xgcDefaultAlgorithm w desc size flags =
        ({ { w with mem := m.grant a size }.addObject a desc
            (fun tag => repairHeader desc size flags (first tag)) with stats }, a) := by
  rcases w.mem.malloc_cases size with hm | ⟨a, hfit, hm⟩
  · have hnull : gcBaconRajanAlloc w desc size flags = ({ w with mem := w.mem.refuse }, 0) := by
      simp only [gcBaconRajanAlloc, hm, if_true]
    rcases gcAllocTyped_plain xgcDefaultAlgorithm rfl rfl hsize hnull with
      ⟨-, heq⟩ | ⟨-, a, hfit, heq⟩
    · exact .inl ⟨_, w.mem.quiet_refuse.trans (Mem.quiet_refuse _), rfl, heq⟩
    · exact .inr ⟨a, _, zeroHeader, w.stats, w.mem.quiet_refuse, hfit, .inr ⟨rfl, rfl⟩, heq⟩
  · have ha : a ≠ 0 := Nat.pos_iff_ne_zero.mp hfit.1
    have hgiven : gcBaconRajanAlloc w desc size flags =
        ({ { w with mem := w.mem.grant a size }.addObject a desc
            (newHeader desc size (allocatedFlags desc flags)) with stats := w.stats.add size },
          a) := by
      simp only [gcBaconRajanAlloc, hm, if_neg ha]
      rfl
    refine .inr ⟨a, w.mem, _, w.stats.add size, .refl _, hfit, .inl rfl, ?_⟩
    rw [gcAllocTyped_repaired xgcDefaultAlgorithm rfl rfl hsize hgiven ha]
    simp only [World.addObject, Graph.modifyObj, Graph.setObj, Function.update_self,
      Option.map_some, Function.update_idem]

end Xgc
