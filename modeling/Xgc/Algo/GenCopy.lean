import Xgc.Algo.Mark

/-! `src/algo/gen_copy_ms/young_copy.c`: the generational collector. Young objects lie one after the
    other in the nursery; a minor collection copies those that are still needed into old objects of
    their own, and a full collection then marks and sweeps the old objects. -/

namespace Xgc

open Lib (lookup)

/-- `gc_gen_forward` -/
structure GcGenForward where
  fromObj : Addr
  toObj : Addr

/-- `gc_gen_copy_ms_state`; a `gc_gen_old_node` is a `GcNode`. -/
structure GenState where
  nurserySpace : Nat
  nurseryCapacity : Nat
  nurseryUsed : Nat
  oldObjects : List GcNode
  forwarded : List GcGenForward
  deriving Inhabited

/-- A runtime that is bound to gen-copy-ms. -/
abbrev GenWorld := World GenState

/-- `gc_gen_minor_ctx`: the runtime, with its state, and the worklist. -/
structure GcGenMinorCtx where
  rt : GenWorld
  wl : GcWorklist

/-- `gc_gen_dirty_card_visit_ctx`; the owners to clear are in the order of the array. -/
structure GcGenDirtyCardVisitCtx where
  minor : GcGenMinorCtx
  ownersToClear : List Addr
  ownerCapacity : Nat

/-- `gc_gen_dirty_visit_remember_owner` -/
def gcGenDirtyVisitRememberOwner (v : GcGenDirtyCardVisitCtx) (owner : Addr) :
    GcGenDirtyCardVisitCtx :=
  if owner = 0 then v
  else if owner ∈ v.ownersToClear then v
  else if v.ownersToClear.length = v.ownerCapacity then
    let newCapacity := if v.ownerCapacity > 0 then v.ownerCapacity * 2 % 2 ^ 64 else 8
    let (mem, ok) := v.minor.rt.mem.reserve (newCapacity * 8 % 2 ^ 64)
    let v := { v with minor := { v.minor with rt := { v.minor.rt with mem } } }
    if ok then { v with ownersToClear := v.ownersToClear ++ [owner], ownerCapacity := newCapacity }
    else v
  else { v with ownersToClear := v.ownersToClear ++ [owner] }

/-- `gc_gen_dirty_visit_clear_owners` -/
def gcGenDirtyVisitClearOwners (v : GcGenDirtyCardVisitCtx) : GcGenMinorCtx :=
  { v.minor with rt := { v.minor.rt with
      barriers := v.ownersToClear.foldl gcBarrierClearOwnerDirty v.minor.rt.barriers } }

/-- `gc_gen_in_nursery` -/
def gcGenInNursery (s : GenState) (obj : Nat) : Bool :=
  if obj = 0 ∨ s.nurserySpace = 0 then false
  else decide (s.nurserySpace ≤ obj ∧ obj < (s.nurserySpace + s.nurseryCapacity) % 2 ^ 64)

/-- `gc_gen_find_forward` -/
def gcGenFindForward (s : GenState) (obj : Addr) : Option GcGenForward :=
  lookup GcGenForward.fromObj obj s.forwarded

/-- `gc_gen_add_old_node` for the object of `size` bytes at `obj` -/
def gcGenAddOldNode (w : GenWorld) (obj : Addr) (size : Nat) : GenWorld × Bool :=
  let (mem, ok) := w.mem.reserve 24
  if !ok then ({ w with mem }, false)
  else
    let (barriers, mem, ok) := gcBarrierRegisterOwner w.barriers obj size mem
    if !ok then ({ w with mem, barriers }, false)
    else
      ({ w with
          mem
          barriers
          heap := gcHeapRecordOldAlloc w.heap size
          algoState := { w.algoState with
            oldObjects := { obj, marked := false } :: w.algoState.oldObjects } }, true)

/-- `gc_gen_remove_old_node_accounting` -/
def gcGenRemoveOldNodeAccounting (w : GenWorld) (obj : Addr) : GenWorld :=
  { w with
    barriers := gcBarrierUnregisterOwner w.barriers obj
    heap := gcHeapRecordOldFree w.heap (w.graph.sizeAt obj) }

/-- `gc_gen_clear_forwarding` -/
def gcGenClearForwarding (w : GenWorld) : GenWorld :=
  { w with algoState := { w.algoState with forwarded := [] } }

/-- `gc_gen_promote`; the flag says that a request for the copy was refused. The copy is entered into
    the graph when nothing can fail any more: until then only its size is read. -/
def gcGenPromote (ctx : GcGenMinorCtx) (obj : Addr) : GcGenMinorCtx × Addr × Bool :=
  let w := ctx.rt
  if !gcGenInNursery w.algoState obj then (ctx, obj, false)
  else
    match gcGenFindForward w.algoState obj with
    | some fwd => (ctx, fwd.toObj, false)
    | none =>
      match w.graph.objs obj with
      | none => ({ ctx with rt := w.fail }, obj, false)
      | some o =>
        let (mem, copy) := w.mem.malloc o.size
        if copy = 0 then ({ ctx with rt := { w with mem } }, obj, true)
        else
          let (mem, ok) := mem.reserve 24
          if !ok then ({ ctx with rt := { w with mem := mem.free copy } }, obj, true)
          else
            let (w, ok) := gcGenAddOldNode { w with mem } copy o.size
            if !ok then ({ ctx with rt := { w with mem := w.mem.free copy } }, obj, true)
            else
              let (wl, mem, pushed) := gcWorklistPush ctx.wl copy w.mem
              ({ rt := { w with
                  mem
                  graph := w.graph.setObj copy (some o)
                  stats := w.stats.add o.size
                  algoState := { w.algoState with
                    forwarded := { fromObj := obj, toObj := copy } :: w.algoState.forwarded }
                  losses := { w.losses with
                    copies := if pushed then w.losses.copies else w.losses.copies ++ [o.tag] } }
                 wl }, copy, false)

/-- Replace the reference in a place by where its object is moved to. -/
def gcGenMoveRef (ctx : GcGenMinorCtx) (r : SlotRef) : GcGenMinorCtx :=
  let (ctx, v, refused) := gcGenPromote ctx (ctx.rt.graph.read r)
  let others := ctx.rt.losses.refused.filter (· ≠ r)
  { ctx with rt := { ctx.rt with
      graph := ctx.rt.graph.write r v
      losses := { ctx.rt.losses with refused := if refused then others ++ [r] else others } } }

/-- `gc_gen_evacuate_slot` -/
def gcGenEvacuateSlot (ctx : GcGenMinorCtx) (r : SlotRef) : GcGenMinorCtx :=
  if ctx.rt.graph.read r = 0 then ctx else gcGenMoveRef ctx r

/-- `gc_gen_minor_scan_handles` -/
def gcGenMinorScanHandles (ctx : GcGenMinorCtx) : GcGenMinorCtx :=
  (ctx.rt.graph.handles.map fun k => SlotRef.handle k.addr).foldl gcGenMoveRef ctx

/-- `scan_roots` with `gc_gen_evacuate_slot` -/
def gcGenMinorScanRoots (ctx : GcGenMinorCtx) : GcGenMinorCtx :=
  match ctx.rt.graph.hooks.scanRoots with
  | some scan => ((scan ctx.rt.graph.roots).map SlotRef.root).foldl gcGenEvacuateSlot ctx
  | none => ctx

/-- `gc_gen_minor_visit_dirty_card` -/
def gcGenMinorVisitDirtyCard (v : GcGenDirtyCardVisitCtx) (card : Addr × Nat) :
    GcGenDirtyCardVisitCtx :=
  let (owner, cardIndex) := card
  if owner = 0 then v
  else
    let w := v.minor.rt
    let cardSize := w.barriers.oldToYoung.cardGranularity
    let byteBegin := cardIndex * cardSize % 2 ^ 64
    let byteEnd := (byteBegin + cardSize) % 2 ^ 64
    match w.graph.objs owner with
    | none => { v with minor := { v.minor with rt := w.fail } }
    | some o =>
      let slots := gcTraceObjectSlotsInRange o byteBegin byteEnd
      let minor := (slots.map (SlotRef.field owner)).foldl gcGenEvacuateSlot v.minor
      gcGenDirtyVisitRememberOwner { v with minor } owner

/-- `gc_gen_minor_scan_dirty_cards` -/
def gcGenMinorScanDirtyCards (ctx : GcGenMinorCtx) : GcGenMinorCtx :=
  let (snapshot, mem) := gcCardTableVisitDirty ctx.rt.barriers.oldToYoung ctx.rt.mem
  let ctx := { ctx with rt := { ctx.rt with mem } }
  match snapshot with
  | some cards =>
    gcGenDirtyVisitClearOwners
      (cards.foldl gcGenMinorVisitDirtyCard { minor := ctx, ownersToClear := [], ownerCapacity := 0 })
  | none => { ctx with rt := { ctx.rt with losses := { ctx.rt.losses with cards := true } } }

/-- `trace_slots` with `gc_gen_evacuate_slot` on the object taken from the worklist -/
def gcGenMinorTrace (ctx : GcGenMinorCtx) (obj : Addr) : GcGenMinorCtx :=
  match ctx.rt.graph.objs obj with
  | none => { ctx with rt := ctx.rt.fail }
  | some o => (o.tracedSlots.map (SlotRef.field obj)).foldl gcGenEvacuateSlot ctx

/-- `gc_gen_minor_drain`, cut off after `fuel` rounds -/
def gcGenMinorDrain : Nat → GcGenMinorCtx → GcGenMinorCtx
  | 0, ctx =>
    { ctx with rt := { ctx.rt with hung := ctx.rt.hung || decide ((gcWorklistPop ctx.wl).2 ≠ 0) } }
  | fuel + 1, ctx =>
    let (wl, obj) := gcWorklistPop ctx.wl
    if obj = 0 then ctx else gcGenMinorDrain fuel (gcGenMinorTrace { ctx with wl } obj)

/-- The loop of `gc_gen_finalize_dead_nursery`, cut off after `fuel` rounds. The storage of an
    object that was not copied is given up here. -/
def gcGenFinalizeFrom : Nat → Nat → Nat → GenWorld → GenWorld
  | 0, cursor, stop, w => { w with hung := w.hung || decide (cursor < stop) }
  | fuel + 1, cursor, stop, w =>
    if cursor < stop then
      match w.graph.objs cursor with
      | none => w.fail
      | some o =>
        let events := if (gcGenFindForward w.algoState cursor).isNone then o.deathEvents else []
        gcGenFinalizeFrom fuel (cursor + o.size) stop
          { w with graph := { w.graph with log := w.graph.log ++ events } }
    else w

/-- `gc_gen_finalize_dead_nursery` -/
def gcGenFinalizeDeadNursery (w : GenWorld) (usedBefore : Nat) : GenWorld :=
  if w.algoState.nurserySpace = 0 then w
  else
    let start := w.algoState.nurserySpace
    let w := gcGenFinalizeFrom usedBefore start (start + usedBefore) w
    { w with stats := w.stats.sub usedBefore }

/-- The tracing loops of `gc_gen_collect_minor_impl` -/
def gcGenMinorTraceAll (w : GenWorld) : GcGenMinorCtx :=
  let ctx : GcGenMinorCtx := { rt := gcGenClearForwarding w, wl := w.worklist }
  let ctx := gcGenMinorScanHandles ctx
  let ctx := gcGenMinorScanRoots ctx
  let ctx := gcGenMinorScanDirtyCards ctx
  -- every copy is pushed at most once, and there are fewer copies than bytes in the nursery
  gcGenMinorDrain w.algoState.nurseryUsed ctx

/-- `gc_gen_collect_minor_impl` -/
def gcGenCollectMinorImpl (w : GenWorld) : GenWorld :=
  if !w.stateBound then w
  else if w.algoState.nurserySpace = 0 then w
  else
    let usedBefore := w.algoState.nurseryUsed
    if usedBefore = 0 then w
    else
      let ctx := gcGenMinorTraceAll w
      let w := { ctx.rt with worklistData := ctx.wl.data, worklistCapacity := ctx.wl.capacity }
      let w := gcGenFinalizeDeadNursery w usedBefore
      let w := { w with
        algoState := { w.algoState with nurseryUsed := 0 }
        heap := gcHeapResetYoung w.heap }
      gcGenClearForwarding w

/-- `gc_gen_mark_old` -/
abbrev gcGenMarkOld := markObject

/-- `gc_gen_mark_handles` -/
abbrev gcGenMarkHandles := markHandles

/-- `gc_gen_mark_drain` -/
abbrev gcGenMarkDrain := markDrain

/-- What `gc_gen_sweep_old` does to the object of an unmarked node. -/
def gcGenReclaimOld (w : GenWorld) (obj : Addr) : GenWorld :=
  gcReclaimObject (gcGenRemoveOldNodeAccounting w obj) obj

/-- `gc_gen_sweep_old` -/
def gcGenSweepOld (w : GenWorld) : GenWorld :=
  let (oldObjects, w) := sweepNodes gcGenReclaimOld w.algoState.oldObjects w
  { w with algoState := { w.algoState with oldObjects } }

/-- `gc_gen_collect_full_impl` -/
def gcGenCollectFullImpl (w : GenWorld) : GenWorld :=
  if !w.stateBound then w
  else
    let w := gcGenCollectMinorImpl w
    let ctx := w.markCtx w.algoState.oldObjects
    let ctx := gcGenMarkHandles w.graph ctx
    let ctx := markRoots w.graph ctx
    let r := gcGenMarkDrain w.graph w.algoState.oldObjects.length ctx
    gcGenSweepOld
      { w.marked r with algoState := { w.algoState with oldObjects := r.1.nodes } }

/-- `gc_gen_global_init` -/
def gcGenGlobalInit (w : GenWorld) (cfg : GcConfig) : GenWorld :=
  let nurserySize := if cfg.gcYoungSpaceSize ≠ 0 then cfg.gcYoungSpaceSize else 4 * 1024 * 1024
  let (mem, ok) := w.mem.reserve 40
  if !ok then { w with mem }
  else
    let (mem, space) := mem.malloc nurserySize
    if space = 0 then { w with mem }
    else
      { w with
        mem
        heap := gcHeapSetYoungSpace w.heap space nurserySize
        algoState := { nurserySpace := space, nurseryCapacity := nurserySize, nurseryUsed := 0,
                       oldObjects := [], forwarded := [] }
        stateBound := true }

/-- `gc_gen_global_destroy` -/
def gcGenGlobalDestroy (w : GenWorld) : GenWorld :=
  if !w.stateBound then w
  else
    let w := w.algoState.oldObjects.foldl (fun w node => gcGenReclaimOld w node.obj) w
    let w := gcGenClearForwarding w
    { w with
      mem := w.mem.free w.algoState.nurserySpace
      heap := gcHeapSetYoungSpace w.heap 0 0
      algoState := default
      stateBound := false }

/-- `size` rounded up to a multiple of `sizeof(void*)`. -/
def alignedSize (size : Nat) : Nat := (size + 7) % 2 ^ 64 / 8 * 8

/-- `memset` to zero of `n` bytes at `a`: the objects that began there are gone. -/
def Graph.clearRange (g : Graph) (a n : Nat) : Graph :=
  { g with objs := fun b : Nat => if a ≤ b ∧ b < a + n then none else g.objs b }

/-- The allocation in the nursery in `gc_gen_alloc`, which has been found to have room. -/
def gcGenAllocYoung (w : GenWorld) (desc : GcDescriptor) (size : Nat) : GenWorld × Addr :=
  let s := w.algoState
  let obj := s.nurserySpace + s.nurseryUsed
  let flags := if desc.flags &&& descFlagHasFinalizer ≠ 0 then objectFlagFinalizable else 0
  let w := { w with
    graph := w.graph.clearRange obj size
    heap := gcHeapRecordYoungAlloc w.heap size
    stats := w.stats.add size
    algoState := { s with nurseryUsed := (s.nurseryUsed + size) % 2 ^ 64 } }
  (w.addObject obj desc (newHeader desc size flags), obj)

/-- The allocation of an old object in `gc_gen_alloc`. -/
def gcGenAllocOld (w : GenWorld) (desc : GcDescriptor) (size : Nat) (allocFlags : BitVec 32) :
    GenWorld × Addr :=
  let (mem, obj) := w.mem.malloc size
  if obj = 0 then ({ w with mem }, 0)
  else
    let (w, ok) := gcGenAddOldNode { w with mem } obj (size % 2 ^ 32)
    if !ok then ({ w with mem := w.mem.free obj }, 0)
    else
      let w := w.addObject obj desc (newHeader desc size (allocatedFlags desc allocFlags))
      ({ w with stats := w.stats.add size }, obj)

/-- `gc_gen_alloc` -/
def gcGenAlloc (w : GenWorld) (desc : GcDescriptor) (size : Nat) (allocFlags : BitVec 32) :
    GenWorld × Addr :=
  if !w.stateBound ∨ size < sizeofHeader then (w, 0)
  else
    let size := alignedSize size
    if allocFlags &&& allocPinned = 0 ∧ size ≤ w.algoState.nurseryCapacity / 2 then
      let w :=
        if (w.algoState.nurseryUsed + size) % 2 ^ 64 > w.algoState.nurseryCapacity then
          gcGenCollectMinorImpl w
        else w
      if (w.algoState.nurseryUsed + size) % 2 ^ 64 ≤ w.algoState.nurseryCapacity then
        gcGenAllocYoung w desc size
      else gcGenAllocOld w desc size allocFlags
    else gcGenAllocOld w desc size allocFlags

/-- `gc_gen_write_barrier` -/
def gcGenWriteBarrier (w : GenWorld) (owner : Addr) (loc : SlotLoc) (_oldValue newValue : Addr) :
    GenWorld :=
  if owner = 0 ∨ loc.addr owner = 0 ∨ newValue = 0 then w
  else if !w.stateBound then w
  else if gcGenInNursery w.algoState owner then w
  else if !gcGenInNursery w.algoState newValue then w
  else { w with barriers := gcBarrierMarkSlotDirty w.barriers owner (loc.addr owner) }

/-- `gc_gen_pin` -/
def gcGenPin (w : GenWorld) (obj : Addr) : GenWorld :=
  { w with graph := w.graph.modifyObj obj fun o => { o with flags := o.flags ||| objectFlagPinned } }

/-- `gc_gen_unpin` -/
def gcGenUnpin (w : GenWorld) (obj : Addr) : GenWorld :=
  { w with graph := w.graph.modifyObj obj fun o =>
      { o with flags := o.flags &&& ~~~objectFlagPinned } }

/-- `GC_GEN_COPY_MS_VTABLE` -/
def gcGenCopyMsVtable : GcAlgorithmVtable GenState where
  name := some "gen-copy-ms"
  supportsMoving := true
  supportsGenerations := true
  requiresWriteBarrier := true
  requiresReadBarrier := false
  globalInit := some gcGenGlobalInit
  globalDestroy := some gcGenGlobalDestroy
  alloc := some gcGenAlloc
  postAlloc := some fun w _ => w
  writeBarrier := some gcGenWriteBarrier
  readBarrier := some fun w slot => w.graph.read slot
  collectMinor := some gcGenCollectMinorImpl
  collectMajor := some gcGenCollectFullImpl
  collectFull := some gcGenCollectFullImpl
  pin := some gcGenPin
  unpin := some gcGenUnpin

end Xgc
