import Xgc.Algo.Mark

/-! `src/algo/marksweep/ms.c`: the mark-sweep collector. -/

namespace Xgc

/-- `gc_marksweep_state_state`: the list of all objects, the newest first. -/
structure MsState where
  objects : List GcNode
  deriving Inhabited

/-- A runtime that is bound to marksweep-stw. -/
abbrev MsWorld := World MsState

/-- `gc_marksweep_mark_object` -/
abbrev gcMarksweepMarkObject := markObject

/-- `gc_marksweep_mark_handle_roots` -/
abbrev gcMarksweepMarkHandleRoots := markHandles

/-- `gc_marksweep_drain_worklist` -/
abbrev gcMarksweepDrainWorklist := markDrain

/-- `gc_marksweep_sweep` -/
def gcMarksweepSweep (w : MsWorld) : MsWorld :=
  let (objects, w) := sweepNodes gcReclaimObject w.algoState.objects w
  { w with algoState := { objects } }

/-- `gc_marksweep_collect_full_impl` -/
def gcMarksweepCollectFullImpl (w : MsWorld) : MsWorld :=
  if !w.stateBound then w
  else
    let ctx := w.markCtx w.algoState.objects
    let ctx := gcMarksweepMarkHandleRoots w.graph ctx
    let ctx := markRoots w.graph ctx
    let r := gcMarksweepDrainWorklist w.graph w.algoState.objects.length ctx
    gcMarksweepSweep { w.marked r with algoState := { objects := r.1.nodes } }

/-- `gc_marksweep_global_init` -/
def gcMarksweepGlobalInit (w : MsWorld) (_cfg : GcConfig) : MsWorld :=
  let (mem, ok) := w.mem.reserve 8
  if ok then { w with mem, algoState := { objects := [] }, stateBound := true }
  else { w with mem }

/-- `gc_marksweep_global_destroy` -/
def gcMarksweepGlobalDestroy (w : MsWorld) : MsWorld :=
  if !w.stateBound then w
  else
    let w := w.algoState.objects.foldl (fun w node => gcReclaimObject w node.obj) w
    { w with algoState := { objects := [] }, stateBound := false }

/-- `gc_marksweep_alloc` -/
def gcMarksweepAlloc (w : MsWorld) (desc : GcDescriptor) (size : Nat) (allocFlags : BitVec 32) :
    MsWorld × Addr :=
  if !w.stateBound then (w, 0)
  else
    let (mem, obj) := w.mem.malloc size
    if obj = 0 then ({ w with mem }, 0)
    else
      let (mem, ok) := mem.reserve 24
      if !ok then ({ w with mem := mem.free obj }, 0)
      else
        let w := { w with mem }.addObject obj desc
          (newHeader desc size (allocatedFlags desc allocFlags))
        ({ w with
            algoState := { objects := { obj, marked := false } :: w.algoState.objects }
            stats := w.stats.add size }, obj)

/-- `gc_marksweep_pin` -/
def gcMarksweepPin (w : MsWorld) (obj : Addr) : MsWorld :=
  { w with graph := w.graph.modifyObj obj fun o => { o with flags := o.flags ||| objectFlagPinned } }

/-- `gc_marksweep_unpin` -/
def gcMarksweepUnpin (w : MsWorld) (obj : Addr) : MsWorld :=
  { w with graph := w.graph.modifyObj obj fun o =>
      { o with flags := o.flags &&& ~~~objectFlagPinned } }

/-- `GC_MARKSWEEP_STW_VTABLE` -/
def gcMarksweepStwVtable : GcAlgorithmVtable MsState where
  name := some "marksweep-stw"
  supportsMoving := false
  supportsGenerations := false
  requiresWriteBarrier := false
  requiresReadBarrier := false
  globalInit := some gcMarksweepGlobalInit
  globalDestroy := some gcMarksweepGlobalDestroy
  alloc := some gcMarksweepAlloc
  postAlloc := some fun w _ => w
  writeBarrier := some fun w _ _ _ _ => w
  readBarrier := some fun w slot => w.graph.read slot
  collectMinor := some gcMarksweepCollectFullImpl
  collectMajor := some gcMarksweepCollectFullImpl
  collectFull := some gcMarksweepCollectFullImpl
  pin := some gcMarksweepPin
  unpin := some gcMarksweepUnpin

end Xgc
