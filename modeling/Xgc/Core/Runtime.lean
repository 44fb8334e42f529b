import Xgc.Core.Types
import Xgc.Core.Worklist
import Xgc.Core.CardTable

/-! `src/core/runtime.c`, `heap.c`, `reclaim.c` and `descriptor.c`: the runtime that all algorithms
    share, and the public functions, which call the bound algorithm through its table of functions.

    `World σ` is a `gc_runtime` together with the memory that it works on; `σ` is the state of the
    bound algorithm. Finalizers do not call back into the collector here: calling one is an entry in
    the log. -/

namespace Xgc

open Lib (lookup)

/-- `gc_heap`. `clipped` records that a saturating subtraction was asked for more than the counter
    had. -/
structure GcHeap where
  youngBase : Addr
  youngCapacity : Nat
  youngUsed : Nat
  largeObjectThreshold : Nat
  oldObjectCount : Nat
  oldObjectBytes : Nat
  clipped : Bool

/-- `gc_stats`, with the same record of saturated subtractions. -/
structure GcStats where
  totalAllocated : Nat
  peakAllocated : Nat
  minorCollections : Nat
  majorCollections : Nat
  fullCollections : Nat
  clipped : Bool

/-- The requests of the tracing loops that were refused: the places for whose object the last request
    for a copy was refused, the tags of copies and of marked objects that `gc_worklist_push` dropped
    because it could not grow, and whether the snapshot of the dirty cards was refused. -/
structure Losses where
  refused : List SlotRef
  copies : List Nat
  marks : List Nat
  cards : Bool

/-- A runtime and the memory it works on. `stateBound` says that `algo_state` is not `NULL`;
    `hung` records that a loop was cut off before its condition was false. -/
structure World (σ : Type) where
  graph : Graph
  mem : Mem
  heap : GcHeap
  barriers : GcBarrierSet
  stats : GcStats
  worklistData : List Nat
  worklistCapacity : Int
  gcState : Int
  self : Addr
  algoState : σ
  stateBound : Bool
  losses : Losses
  hung : Bool

/-- `gc_config` -/
structure GcConfig where
  gcThresholdSoft : Nat
  gcThresholdHard : Nat
  gcYoungSpaceSize : Nat
  gcRegionSize : Nat
  gcLargeObjectThreshold : Nat

variable {σ : Type}

namespace World

/-- An access to memory that holds no object. -/
def fail (w : World σ) : World σ := { w with mem := { w.mem with fault := true } }

/-- No request of the run so far was refused. -/
def Granted (w : World σ) : Prop :=
  w.mem.failed = false ∧ w.losses.copies = [] ∧ w.losses.marks = []

instance (w : World σ) : Decidable w.Granted := by unfold Granted; infer_instance

/-- The same runtime without the record of what has been refused so far. -/
def cleared (w : World σ) : World σ :=
  { w with
    mem := { w.mem with failed := false }
    losses := { refused := [], copies := [], marks := [], cards := false } }

/-- The worklist that a collection starts with: the buffer that the runtime keeps, and no object. -/
def worklist (w : World σ) : GcWorklist :=
  { data := w.worklistData, top := 0, capacity := w.worklistCapacity }

end World

/-! ### Counters -/

/-- `total_allocated += n`, raising the peak if need be. -/
def GcStats.add (s : GcStats) (n : Nat) : GcStats :=
  let total := (s.totalAllocated + n) % 2 ^ 64
  { s with totalAllocated := total
           peakAllocated := if total > s.peakAllocated then total else s.peakAllocated }

/-- `total_allocated -= n`, or zero when there is less. -/
def GcStats.sub (s : GcStats) (n : Nat) : GcStats :=
  { s with totalAllocated := if s.totalAllocated ≥ n then s.totalAllocated - n else 0
           clipped := s.clipped || s.totalAllocated < n }

/-- `gc_heap_init` -/
def gcHeapInit (largeObjectThreshold : Nat) : GcHeap :=
  { youngBase := 0, youngCapacity := 0, youngUsed := 0, largeObjectThreshold,
    oldObjectCount := 0, oldObjectBytes := 0, clipped := false }

/-- `gc_heap_set_young_space` -/
def gcHeapSetYoungSpace (h : GcHeap) (base : Addr) (capacity : Nat) : GcHeap :=
  { h with youngBase := base, youngCapacity := capacity
           youngUsed := if base = 0 then 0 else h.youngUsed }

/-- `gc_heap_record_young_alloc` -/
def gcHeapRecordYoungAlloc (h : GcHeap) (bytes : Nat) : GcHeap :=
  { h with youngUsed := (h.youngUsed + bytes) % 2 ^ 64 }

/-- `gc_heap_reset_young` -/
def gcHeapResetYoung (h : GcHeap) : GcHeap := { h with youngUsed := 0 }

/-- `gc_heap_record_old_alloc` -/
def gcHeapRecordOldAlloc (h : GcHeap) (bytes : Nat) : GcHeap :=
  { h with oldObjectCount := h.oldObjectCount + 1
           oldObjectBytes := (h.oldObjectBytes + bytes) % 2 ^ 64 }

/-- `gc_heap_record_old_free` -/
def gcHeapRecordOldFree (h : GcHeap) (bytes : Nat) : GcHeap :=
  { h with oldObjectCount := if h.oldObjectCount > 0 then h.oldObjectCount - 1 else 0
           oldObjectBytes := if h.oldObjectBytes ≥ bytes then h.oldObjectBytes - bytes else 0
           clipped := h.clipped || h.oldObjectCount = 0 || h.oldObjectBytes < bytes }

/-! ### Tracing and reclaiming one object -/

/-- The slots that `trace_slots` visits, if the object has a descriptor with that callback. -/
def GcHeader.tracedSlots (o : GcHeader) : List SlotLoc :=
  match o.desc with
  | some d =>
    match d.traceSlots with
    | some trace => trace o.toContents
    | none => []
  | none => []

/-- The slots that `gc_trace_object_slots_in_range` visits. -/
def gcTraceObjectSlotsInRange (o : GcHeader) (byteBegin byteEnd : Nat) : List SlotLoc :=
  match o.desc with
  | none => []
  | some d =>
    let objectSize := if o.size ≠ 0 then o.size else d.fixedSize
    if objectSize = 0 then []
    else if byteBegin ≥ objectSize then []
    else
      let byteEnd := if byteEnd > objectSize then objectSize else byteEnd
      if byteBegin ≥ byteEnd then []
      else
        match d.traceSlotsRange with
        | some traceRange => traceRange o.toContents byteBegin byteEnd
        | none =>
          match d.traceSlots with
          | some trace => trace o.toContents
          | none => []

/-- The object has a finalizer. -/
def GcHeader.hasFinalizer (o : GcHeader) : Bool :=
  match o.desc with
  | some d => d.finalize
  | none => false

/-- What is logged when an object dies: the call of its finalizer, if it has one, and the release
    of its storage. -/
def GcHeader.deathEvents (o : GcHeader) : List Event :=
  if o.hasFinalizer then [.finalize o.tag, .release o.tag] else [.release o.tag]

/-- `gc_reclaim_object` -/
def gcReclaimObject (w : World σ) (obj : Addr) : World σ :=
  if obj = 0 then w
  else
    match w.graph.objs obj with
    | none => w.fail
    | some o =>
      { w with
        graph := { w.graph.setObj obj none with log := w.graph.log ++ o.deathEvents }
        stats := w.stats.sub o.size
        mem := w.mem.free obj }

/-! ### The table of functions of an algorithm -/

/-- `gc_algorithm_vtable`: the name, the capabilities that `gc_validate_algorithm_contract` reads,
    and the function pointers, `none` for `NULL`. -/
structure GcAlgorithmVtable (σ : Type) where
  name : Option String
  supportsMoving : Bool
  supportsGenerations : Bool
  requiresWriteBarrier : Bool
  requiresReadBarrier : Bool
  globalInit : Option (World σ → GcConfig → World σ)
  globalDestroy : Option (World σ → World σ)
  alloc : Option (World σ → GcDescriptor → Nat → BitVec 32 → World σ × Addr)
  postAlloc : Option (World σ → Addr → World σ)
  writeBarrier : Option (World σ → Addr → SlotLoc → Addr → Addr → World σ)
  readBarrier : Option (World σ → SlotRef → Addr)
  collectMinor : Option (World σ → World σ)
  collectMajor : Option (World σ → World σ)
  collectFull : Option (World σ → World σ)
  pin : Option (World σ → Addr → World σ)
  unpin : Option (World σ → Addr → World σ)

/-- `gc_runtime_validate_contracts` with a table; any VM hooks are accepted. -/
def gcRuntimeValidateContracts (algo : GcAlgorithmVtable σ) : Bool :=
  if algo.name.isNone then false
  else if algo.alloc.isNone then false
  else if algo.collectFull.isNone then false
  else if algo.requiresWriteBarrier && algo.writeBarrier.isNone then false
  else if algo.requiresReadBarrier && algo.readBarrier.isNone then false
  else if algo.supportsMoving && (algo.pin.isNone || algo.unpin.isNone) then false
  else if algo.supportsGenerations && algo.collectMinor.isNone then false
  else true

/-- Call a function of the table that changes the runtime, if it is there. -/
def callHook {α : Type} (f : Option α) (call : α → World σ) (w : World σ) : World σ :=
  match f with
  | some f => call f
  | none => w

/-! ### Creating and destroying a runtime -/

/-- `gc_runtime_apply_default_config` -/
def gcRuntimeApplyDefaultConfig (cfg : GcConfig) : GcConfig where
  gcThresholdSoft := if cfg.gcThresholdSoft = 0 then 64 * 1024 * 1024 else cfg.gcThresholdSoft
  gcThresholdHard := if cfg.gcThresholdHard = 0 then 128 * 1024 * 1024 else cfg.gcThresholdHard
  gcYoungSpaceSize := if cfg.gcYoungSpaceSize = 0 then 4 * 1024 * 1024 else cfg.gcYoungSpaceSize
  gcRegionSize := if cfg.gcRegionSize = 0 then 256 * 1024 else cfg.gcRegionSize
  gcLargeObjectThreshold :=
    if cfg.gcLargeObjectThreshold = 0 then 32 * 1024 else cfg.gcLargeObjectThreshold

/-- `sizeof(gc_runtime)` -/
def sizeofRuntime : Nat := 248

/-- `sizeof(gc_handle)` -/
def sizeofHandle : Nat := 32

/-- The fields of a runtime before `global_init` is called. -/
def freshWorld [Inhabited σ] (cfg : GcConfig) (hooks : GcVmHooks) (self : Addr) (mem : Mem) :
    World σ where
  graph := { objs := fun _ => none, roots := fun _ => 0, handles := [], hooks, history := [],
             log := [] }
  mem := mem
  heap := gcHeapInit cfg.gcLargeObjectThreshold
  barriers := gcBarrierSetInit cfg.gcRegionSize
  stats := { totalAllocated := 0, peakAllocated := 0, minorCollections := 0,
             majorCollections := 0, fullCollections := 0, clipped := false }
  worklistData := List.replicate 256 0
  worklistCapacity := 256
  gcState := 0
  self := self
  algoState := default
  stateBound := false
  losses := { refused := [], copies := [], marks := [], cards := false }
  hung := false

/-- `gc_runtime_create`; a `NULL` configuration is the one with all fields zero. -/
def gcRuntimeCreate [Inhabited σ] (cfg : GcConfig) (algo : GcAlgorithmVtable σ) (hooks : GcVmHooks)
    (mem : Mem) : Option (World σ) :=
  let (mem, self) := mem.malloc sizeofRuntime
  if self = 0 then none
  else
    let cfg := gcRuntimeApplyDefaultConfig cfg
    if !gcRuntimeValidateContracts algo then none
    else
      let (mem, ok) := mem.reserve (256 * 8)
      if !ok then none
      else
        let w := freshWorld cfg hooks self mem
        some (callHook algo.globalInit (fun init => init w cfg) w)

/-- `gc_runtime_destroy`, up to the release of the runtime's own storage. -/
def gcRuntimeDestroy (algo : GcAlgorithmVtable σ) (w : World σ) : World σ :=
  let w := { w with
    mem := w.graph.handles.foldl (fun m k => m.free k.addr) w.mem
    graph := { w.graph with handles := [] } }
  let w := callHook algo.globalDestroy (fun destroy => destroy w) w
  { w with
    barriers := gcBarrierSetDestroyed
    worklistData := []
    mem := w.mem.free w.self }

/-! ### Threads -/

/-- The size of a `gc_thread_context`. -/
def sizeofThreadContext : Nat := 24

/-- `gc_thread_attach`, over the memory of the runtime: the algorithms have nothing to do for a thread
    that is attached. -/
def gcThreadAttach (mem : Mem) : Mem × Addr := mem.malloc sizeofThreadContext

/-- `gc_thread_detach`, over the memory of the runtime. -/
def gcThreadDetach (mem : Mem) (thread : Addr) : Mem := mem.free thread

/-! ### Allocation, references and collections -/

/-- The object in the storage that `calloc` returns. -/
def zeroHeader (tag : Nat) : GcHeader :=
  { size := 0, bytes := fun _ => 0, slots := fun _ => 0, desc := none, flags := 0, kind := 0, tag }

/-- `obj->flags` of a new object: both algorithms compute it alike. -/
def allocatedFlags (desc : GcDescriptor) (allocFlags : BitVec 32) : BitVec 16 :=
  (if desc.flags &&& descFlagHasFinalizer ≠ 0 then objectFlagFinalizable else 0) |||
    (if allocFlags &&& allocPinned ≠ 0 then objectFlagPinned else 0)

/-- The header that an algorithm writes into zeroed storage; the size is cut to 32 bits. -/
def newHeader (desc : GcDescriptor) (size : Nat) (flags : BitVec 16) (tag : Nat) : GcHeader :=
  { zeroHeader tag with desc := some desc, size := size % 2 ^ 32, kind := desc.kind, flags }

/-- The header repairs at the end of `gc_alloc_typed`. -/
def repairHeader (desc : GcDescriptor) (size : Nat) (allocFlags : BitVec 32) (o : GcHeader) :
    GcHeader :=
  { o with
    desc := if o.desc.isNone then some desc else o.desc
    size := if o.size = 0 then size % 2 ^ 32 else o.size
    kind := if o.kind = 0 then desc.kind else o.kind
    flags := if allocFlags &&& allocPinned ≠ 0 then o.flags ||| objectFlagPinned else o.flags }

/-- A new object at `a`: it is given the next tag. -/
def World.addObject (w : World σ) (a : Addr) (desc : GcDescriptor) (o : Nat → GcHeader) : World σ :=
  { w with graph := { w.graph.setObj a (some (o w.graph.history.length)) with
                      history := w.graph.history ++ [desc] } }

/-- `gc_alloc_typed` -/
def gcAllocTyped (algo : GcAlgorithmVtable σ) (w : World σ) (desc : GcDescriptor) (size : Nat)
    (allocFlags : BitVec 32) : World σ × Addr :=
  if size < sizeofHeader then (w, 0)
  else
    let (w, obj) :=
      match algo.alloc with
      | some alloc => alloc w desc size allocFlags
      | none => (w, 0)
    -- when the algorithm has no object to give, the framework takes plain memory
    let (w, obj) :=
      if obj = 0 then
        let (mem, obj) := w.mem.malloc size
        if obj = 0 then ({ w with mem }, 0)
        else ({ w with mem }.addObject obj desc zeroHeader, obj)
      else (w, obj)
    if obj = 0 then (w, 0)
    else
      let w := { w with graph := w.graph.modifyObj obj (repairHeader desc size allocFlags) }
      (callHook algo.postAlloc (fun postAlloc => postAlloc w obj) w, obj)

/-- `gc_store_ref` to the slot `loc` of `owner` -/
def gcStoreRef (algo : GcAlgorithmVtable σ) (w : World σ) (owner : Addr) (loc : SlotLoc)
    (newValue : Addr) : World σ :=
  let oldValue := w.graph.slot owner loc
  let w := { w with graph := w.graph.write (.field owner loc) newValue }
  callHook algo.writeBarrier (fun barrier => barrier w owner loc oldValue newValue) w

/-- `gc_load_ref` -/
def gcLoadRef (algo : GcAlgorithmVtable σ) (w : World σ) (slot : SlotRef) : Addr :=
  match algo.readBarrier with
  | some barrier => barrier w slot
  | none => w.graph.read slot

/-- `gc_collect_minor` -/
def gcCollectMinor (algo : GcAlgorithmVtable σ) (w : World σ) : World σ :=
  let w := callHook algo.collectMinor (fun collect => collect w) w
  { w with stats := { w.stats with minorCollections := (w.stats.minorCollections + 1) % 2 ^ 64 } }

/-- `gc_collect_major` -/
def gcCollectMajor (algo : GcAlgorithmVtable σ) (w : World σ) : World σ :=
  let w :=
    match algo.collectMajor with
    | some collect => collect w
    | none => callHook algo.collectFull (fun collect => collect w) w
  { w with stats := { w.stats with majorCollections := (w.stats.majorCollections + 1) % 2 ^ 64 } }

/-- `gc_collect_full`; without the function it only visits the roots, to no effect. -/
def gcCollectFull (algo : GcAlgorithmVtable σ) (w : World σ) : World σ :=
  let w := callHook algo.collectFull (fun collect => collect w) w
  { w with stats := { w.stats with fullCollections := (w.stats.fullCollections + 1) % 2 ^ 64 } }

/-! ### Handles -/

/-- `gc_handle_acquire` -/
def gcHandleAcquire (algo : GcAlgorithmVtable σ) (w : World σ) (obj : Addr) (flags : BitVec 32) :
    World σ × Addr :=
  if obj = 0 then (w, 0)
  else
    let (mem, handle) := w.mem.malloc sizeofHandle
    if handle = 0 then ({ w with mem }, 0)
    else
      let w := { w with
        mem
        graph := { w.graph with
          handles := { addr := handle, runtime := w.self, target := obj, flags } ::
            w.graph.handles } }
      (callHook algo.pin (fun pin => pin w obj) w, handle)

/-- `gc_handle_get` -/
def gcHandleGet (w : World σ) (handle : Addr) : Addr := w.graph.target handle

/-- `gc_handle_release`; releasing what is not a handle of the runtime is a fault. -/
def gcHandleRelease (algo : GcAlgorithmVtable σ) (w : World σ) (handle : Addr) : World σ :=
  if handle = 0 then w
  else
    match lookup GcHandle.addr handle w.graph.handles with
    | none => w.fail
    | some k =>
      let w := { w with graph := { w.graph with
        handles := w.graph.handles.eraseP fun k => k.addr = handle } }
      let w := if k.target ≠ 0 then callHook algo.unpin (fun unpin => unpin w k.target) w else w
      { w with mem := w.mem.free handle }

/-! ### The runtime's checker, `src/core/invariants.c` -/

/-- `gc_heap_check_invariants` -/
def gcHeapCheckInvariants (h : GcHeap) : Bool :=
  if h.youngBase = 0 then
    if h.youngCapacity ≠ 0 ∨ h.youngUsed ≠ 0 then false
    else if h.oldObjectCount = 0 ∧ h.oldObjectBytes ≠ 0 then false else true
  else if h.youngUsed > h.youngCapacity then false
  else if h.oldObjectCount = 0 ∧ h.oldObjectBytes ≠ 0 then false
  else true

/-- `gc_handle_check_invariants` -/
def gcHandleCheckInvariants (g : Graph) (k : GcHandle) : Bool :=
  if k.runtime = 0 then false
  else if k.target = 0 then false
  else
    match g.objs k.target with
    | none => false
    | some o => if o.desc.isNone then false else if o.size = 0 then false else true

/-- `gc_runtime_check_invariants` -/
def gcRuntimeCheckInvariants (algo : GcAlgorithmVtable σ) (w : World σ) : Bool :=
  if algo.name.isNone then false
  else if w.gcState ≠ 0 ∧ w.gcState ≠ 1 ∧ w.gcState ≠ 2 then false
  else if !gcHeapCheckInvariants w.heap then false
  else if !gcBarrierSetCheckInvariants w.barriers then false
  else if w.worklistCapacity < 0 then false
  else if (w.worklistCapacity = 0) ≠ (w.worklistData = []) then false
  else if w.stats.totalAllocated > w.stats.peakAllocated then false
  else w.graph.handles.all fun k => gcHandleCheckInvariants w.graph k && decide (k.runtime = w.self)

end Xgc
