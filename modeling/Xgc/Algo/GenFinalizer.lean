import Xgc.Algo.GenCollect
import Xgc.Algo.GenNursery
import Xgc.Heap.Finalizer

/-! A minor collection of the generational collector when finalizers allocate. They are called while
    the nursery is walked: what they get there lies behind the walk, and a call that finds no room
    starts another collection inside this one. -/

namespace Xgc

/-- A minor collection under way: the runtime, and what finalizers have been given for which calls. -/
structure GenRun where
  world : GenWorld
  given : List (Addr × FinalizerCall)

/-- A finalizer's call of `gc_alloc_typed`, with what it does with the result. `gc_gen_alloc` collects
    first if it has to make room, so there is room when it comes to look for it. -/
def genFinalizerCall (collect : GenRun → Option GenRun) (run : GenRun) (c : FinalizerCall) :
    Option GenRun :=
  (if AllocCollects run.world c.size c.flags then collect run else some run).map fun run =>
    let r := gcAllocTyped gcGenCopyMsVtable run.world c.desc c.size c.flags
    { world := c.store r.1 r.2, given := run.given ++ [(r.2, c)] }

/-- The calls of the finalizer of the object `o`, if it has one. -/
def genFinalize (fin : Finalizers) (collect : GenRun → Option GenRun) (run : GenRun) (o : GcHeader) :
    Option GenRun :=
  if o.hasFinalizer then
    (fin o.tag).foldlM (genFinalizerCall collect)
      { run with world := run.world.logged [.finalize o.tag] }
  else some run

/-- The loop of `gc_gen_finalize_dead_nursery`. There is no result when it goes on for more than `fuel`
    rounds. The size of an object is read after the call of its finalizer. -/
def gcGenFinalizeFromWith (fin : Finalizers) (collect : GenRun → Option GenRun) :
    Nat → Nat → Nat → GenRun → Option GenRun
  | 0, cursor, stop, run => if cursor < stop then none else some run
  | fuel + 1, cursor, stop, run =>
    if cursor < stop then
      match run.world.graph.objs cursor with
      | none => some { run with world := run.world.fail }
      | some o =>
        if (gcGenFindForward run.world.algoState cursor).isNone then
          (genFinalize fin collect run o).bind fun run =>
            match run.world.graph.objs cursor with
            | none => some { run with world := run.world.fail }
            | some o' =>
              gcGenFinalizeFromWith fin collect fuel (cursor + o'.size) stop
                { run with world := run.world.logged [.release o.tag] }
        else gcGenFinalizeFromWith fin collect fuel (cursor + o.size) stop run
    else some run

/-- One round of the loop, at a header. -/
theorem gcGenFinalizeFromWith_round (fin : Finalizers) (collect : GenRun → Option GenRun) (fuel : Nat)
    {cursor stop : Nat} {run : GenRun} {o : GcHeader} (hlt : cursor < stop)
    (ho : run.world.graph.objs cursor = some o) :
    gcGenFinalizeFromWith fin collect (fuel + 1) cursor stop run =
      if (gcGenFindForward run.world.algoState cursor).isNone then
        (genFinalize fin collect run o).bind fun run =>
          match run.world.graph.objs cursor with
          | none => some { run with world := run.world.fail }
          | some o' =>
            gcGenFinalizeFromWith fin collect fuel (cursor + o'.size) stop
              { run with world := run.world.logged [.release o.tag] }
      else gcGenFinalizeFromWith fin collect fuel (cursor + o.size) stop run := by
  rw [gcGenFinalizeFromWith, if_pos hlt, ho]

/-- The end of `gc_gen_collect_minor_impl`: the nursery that held `usedBefore` bytes is empty. -/
def GenWorld.emptied (w : GenWorld) (usedBefore : Nat) : GenWorld :=
  gcGenClearForwarding { w with
    stats := w.stats.sub usedBefore
    algoState := { w.algoState with nurseryUsed := 0 }
    heap := gcHeapResetYoung w.heap }

/-- `gc_gen_collect_minor_impl`, with less than `fuel` collections inside one another. -/
def gcGenCollectMinorWith (fin : Finalizers) : Nat → GenRun → Option GenRun
  | 0, _ => none
  | fuel + 1, run =>
    if !run.world.stateBound then some run
    else if run.world.algoState.nurserySpace = 0 then some run
    else if run.world.algoState.nurseryUsed = 0 then some run
    else
      let usedBefore := run.world.algoState.nurseryUsed
      let w := run.world.traced
      (gcGenFinalizeFromWith fin (gcGenCollectMinorWith fin fuel) fuel w.algoState.nurserySpace
        (w.algoState.nurserySpace + usedBefore) { run with world := w }).map fun run =>
          { run with world := run.world.emptied usedBefore }

/-! ### Finalizers that make no calls -/

/-- A finalizer that makes no calls is logged. -/
theorem genFinalize_nil (collect : GenRun → Option GenRun) (run : GenRun) (o : GcHeader) :
    genFinalize (fun _ => []) collect run o = some { run with
      world := run.world.logged (if o.hasFinalizer then [.finalize o.tag] else []) } := by
  cases hfin : o.hasFinalizer <;> simp [genFinalize, hfin, GenWorld.logged]

/-- Over tiles the walk ends, and is that of `gc_gen_finalize_dead_nursery`. -/
theorem gcGenFinalizeFromWith_nil (collect : GenRun → Option GenRun) : ∀ (ys : List Nat) {a n : Nat}
    (fuel : Nat) (run : GenRun), Tiles run.world.graph a n ys → ys.length ≤ fuel →
    gcGenFinalizeFromWith (fun _ => []) collect fuel a (a + n) run =
      some { run with world := gcGenFinalizeFrom fuel a (a + n) run.world }
  | [], a, n, fuel, run, h, _ => by
      obtain rfl : n = 0 := h
      cases fuel <;> simp [gcGenFinalizeFromWith, gcGenFinalizeFrom]
  | y :: ys, a, n, 0, run, h, hf => by simp at hf
  | y :: ys, a, n, fuel + 1, run, h, hf => by
      cases ho : run.world.graph.objs y with
      | none =>
        -- there is a header wherever there is a size
        have hmin := h.header y List.mem_cons_self
        simp [Graph.sizeAt, ho, sizeofHeader] at hmin
      | some o =>
        obtain ⟨rfl, hlt, hend, hrest⟩ := h.head ho
        have ih : ∀ es : List Event, gcGenFinalizeFromWith (fun _ => []) collect fuel (y + o.size)
            (y + n) { run with world := run.world.logged es } = some { run with
              world := gcGenFinalizeFrom fuel (y + o.size) (y + n) (run.world.logged es) } := by
          intro es
          rw [hend]
          exact gcGenFinalizeFromWith_nil collect ys fuel
            { run with world := run.world.logged es } (hrest.congr fun _ _ => rfl)
            (Nat.le_of_succ_le_succ hf)
        rw [gcGenFinalizeFromWith_round _ _ _ hlt ho, gcGenFinalizeFrom, if_pos hlt, ho]
        cases hf : (gcGenFindForward run.world.algoState y).isNone with
        | false =>
          have hnone := ih []
          simp only [GenWorld.logged, List.append_nil] at hnone
          simpa [hf] using hnone
        | true =>
          have hevents : (if o.hasFinalizer then [Event.finalize o.tag] else []) ++
              [.release o.tag] = o.deathEvents := by
            cases hfin : o.hasFinalizer <;> simp [GcHeader.deathEvents, hfin]
          have hobj : (run.world.logged (if o.hasFinalizer then [.finalize o.tag] else [])).graph.objs
              y = some o := ho
          simp only [if_true, genFinalize_nil, Option.bind_some, hobj, GenWorld.logged_logged, hevents]
          exact ih o.deathEvents

/-- `gc_gen_collect_minor_impl` on a nursery that is not empty. -/
theorem gcGenCollectMinorImpl_emptied {w : GenWorld} (h : NurseryKept w w)
    (hused : w.algoState.nurseryUsed ≠ 0) :
    gcGenCollectMinorImpl w = GenWorld.emptied (gcGenFinalizeFrom w.algoState.nurseryUsed
      w.traced.algoState.nurserySpace
      (w.traced.algoState.nurserySpace + w.algoState.nurseryUsed) w.traced)
      w.algoState.nurseryUsed := by
  have hspace : w.algoState.nurserySpace ≠ 0 := Nat.pos_iff_ne_zero.mp h.pos
  have hspace' : w.traced.algoState.nurserySpace ≠ 0 := by
    rw [h.traced.space]
    exact hspace
  have hform : gcGenCollectMinorImpl w = (fun d : GenWorld => gcGenClearForwarding { d with
      algoState := { d.algoState with nurseryUsed := 0 }
      heap := gcHeapResetYoung d.heap })
      (gcGenFinalizeDeadNursery w.traced w.algoState.nurseryUsed) := by
    unfold gcGenCollectMinorImpl
    rw [if_neg (by simp [h.bound]), if_neg hspace]
    exact if_neg hused
  have hdead : gcGenFinalizeDeadNursery w.traced w.algoState.nurseryUsed =
      (fun d : GenWorld => { d with stats := d.stats.sub w.algoState.nurseryUsed })
        (gcGenFinalizeFrom w.algoState.nurseryUsed w.traced.algoState.nurserySpace
          (w.traced.algoState.nurserySpace + w.algoState.nurseryUsed) w.traced) := by
    unfold gcGenFinalizeDeadNursery
    exact if_neg hspace'
  rw [hform, hdead]
  rfl

/-- With finalizers that make no calls the collection ends, and is `gc_gen_collect_minor_impl`. -/
theorem gcGenCollectMinorWith_nil (run : GenRun) {ys : List Nat} (h : NurseryInv run.world ys) :
    gcGenCollectMinorWith (fun _ => []) (run.world.algoState.nurseryUsed + 1) run =
      some { run with world := gcGenCollectMinorImpl run.world } := by
  have hspace : run.world.algoState.nurserySpace ≠ 0 := Nat.pos_iff_ne_zero.mp h.kept.pos
  rw [gcGenCollectMinorWith, if_neg (by simp [h.kept.bound]), if_neg hspace]
  by_cases hused : run.world.algoState.nurseryUsed = 0
  · rw [if_pos hused]
    unfold gcGenCollectMinorImpl
    rw [if_neg (by simp [h.kept.bound]), if_neg hspace, if_pos hused]
  · have htiles : Tiles run.world.traced.graph run.world.traced.algoState.nurserySpace
        run.world.algoState.nurseryUsed ys := by
      rw [← h.kept.traced.used]
      exact (h.of_kept h.kept.traced).tiles
    have hwalk := gcGenFinalizeFromWith_nil (gcGenCollectMinorWith (fun _ => [])
      run.world.algoState.nurseryUsed) ys run.world.algoState.nurseryUsed
      { run with world := run.world.traced } htiles htiles.length_le
    rw [if_neg hused, gcGenCollectMinorImpl_emptied h.kept hused]
    simp only [hwalk, Option.map_some]

end Xgc
