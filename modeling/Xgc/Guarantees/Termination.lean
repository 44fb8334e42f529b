import Xgc.Algo.MarkRun
import Xgc.Algo.MinorRun
import Xgc.Algo.Spared
import Xgc.Guarantees.Generational

/-! The tracing loops end, on every graph, with a bounded stack. The stack grows while it is drained,
    so what decreases is the number of objects that have not been pushed; an object is marked, or
    forwarded, before it is pushed, at every entry of the loops. -/

namespace Xgc

open Lib

/-- A mark phase that starts from `ctx`: however far it has gone, it has pushed and traced each
    tracked object at most once, and when the worklist is drained now, `gc_marksweep_drain_worklist`
    (or `gc_gen_mark_drain`) takes the last object off it after at most as many rounds as there are
    tracked objects. -/
def MarkingEnds (g : Graph) (ctx : MarkCtx) : Prop :=
  ∀ events ctx', Run (MarkStep g) ctx events ctx' →
    (∀ a ∈ pushed events, a ∈ ctx.nodes.map GcNode.obj) ∧
    OnceEach ctx.nodes.length events ctx'.wl.items ∧
    ∀ fuel, ctx.nodes.length ≤ fuel →
      (∃ more, Run (MarkStep g) ctx' more (markDrain g fuel ctx').1) ∧
        (markDrain g fuel ctx').2 = false ∧ (markDrain g fuel ctx').1.wl.items = []

/-- The tracing of a minor collection that starts from `ctx`, in the same way: it has copied each
    young object at most once, and pushed and traced each copy at most once. -/
def MinorTracingEnds (ys : List Addr) (ctx : GcGenMinorCtx) : Prop :=
  ∀ events ctx', Run MinorStep ctx events ctx' →
    (ctx'.rt.fwd.map GcGenForward.fromObj).Nodup ∧
    (∀ t ∈ pushed events, ∃ v ∈ ys, Moved ctx'.rt.fwd v t) ∧
    OnceEach ys.length events ctx'.wl.items ∧
    ∀ fuel, ys.length ≤ fuel →
      (∃ more, Run MinorStep ctx' more (gcGenMinorDrain fuel ctx')) ∧
        (gcGenMinorDrain fuel ctx').rt.hung = ctx'.rt.hung ∧
        (gcGenMinorDrain fuel ctx').wl.items = []

theorem markingEnds {g : Graph} {ctx : MarkCtx} (hwl : ctx.wl.Ok) (hempty : ctx.wl.items = []) :
    MarkingEnds g ctx := by
  intro events ctx' hrun
  have h := (MarkOnce.init hwl hempty).run hrun
  rw [List.nil_append] at h
  have honce := h.onceEach
  rw [List.length_map] at honce
  refine ⟨h.pushed_mem, honce, fun fuel hfuel => h.drain g fuel ?_⟩
  rw [List.length_map]
  omega

theorem minorTracingEnds {ys : List Addr} {ctx : GcGenMinorCtx} (hyoung : Enclosed ys ctx)
    (hwl : ctx.wl.Ok) (hempty : ctx.wl.items = []) (hfwd : ctx.rt.fwd = []) :
    MinorTracingEnds ys ctx := by
  intro events ctx' hrun
  have h := (MinorOnce.init hyoung hwl hempty hfwd).run hrun
  rw [List.nil_append] at h
  refine ⟨h.nodup, fun t ht => ?_, h.onceEach, fun fuel hfuel => h.drain fuel (by omega)⟩
  rw [h.pushed, List.mem_reverse] at ht
  obtain ⟨e, he, rfl⟩ := List.mem_map.mp ht
  exact ⟨e.fromObj, h.froms _ _ he, he⟩

/-- The tracing loops end, on every graph and with every empty worklist, and handle each object at
    most once; the loops over handles, roots and dirty cards that come before are steps like theirs.
    Where calls have lost no object, the young objects are those that the walk over the nursery
    meets. -/
theorem tracing_ends {g : Graph} {ctx : MarkCtx} (hctx : ctx.wl.Ok ∧ ctx.wl.items = [])
    {w : GenWorld} {ys : List Addr} (hw : w.worklist.Ok) (hys : Enclosed ys w.minorStart) :
    MarkingEnds g ctx ∧
    (∃ events, Run (MarkStep g) ctx events (markRoots g (markHandles g ctx))) ∧
    MinorTracingEnds ys w.minorStart ∧
    (∃ events, Run MinorStep w.minorStart events w.minorStart.scanned) ∧
    (genCollector.Endures genSpared w →
      Enclosed (nurseryObjects w) w.minorStart ∧
      (nurseryObjects w).length ≤ w.algoState.nurseryUsed ∧
      (gcGenMinorTraceAll w).rt.hung = w.hung ∧ (gcGenMinorTraceAll w).wl.items = []) := by
  refine ⟨markingEnds hctx.1 hctx.2, markStart_run ctx, minorTracingEnds hys hw rfl rfl,
    scanned_run _, fun he => ?_⟩
  have h := (genManager_sparing).endures he
  have hs := genManager_start h
  have hyoung := Enclosed.of_start hs
  have hlen := hs.ok.layout.tiles.length_le
  obtain ⟨events, hrun⟩ := scanned_run w.minorStart
  obtain ⟨-, -, -, hdrain⟩ := minorTracingEnds hyoung hw rfl rfl events _ hrun
  obtain ⟨-, hhung, hitems⟩ := hdrain _ hlen
  have hscan : w.minorStart.scanned.rt.hung = w.hung :=
    hrun.invariant (P := fun c => c.rt.hung = w.hung) (fun _ _ _ hc hst => hst.same.1.trans hc) rfl
  rw [gcGenMinorTraceAll_eq]
  exact ⟨hyoung, hlen, hhung.trans hscan, hitems⟩

theorem tracing_ends_sample :
    MarkingEnds genRemembering.graph (genRemembering.markCtx genRemembering.algoState.oldObjects) ∧
      MinorTracingEnds (nurseryObjects genRemembering) genRemembering.minorStart ∧
      (gcGenMinorTraceAll genRemembering).rt.hung = genRemembering.hung := by
  have he := genCollector_endures genRemembering_reaches
  have hwl : genRemembering.worklist.Ok :=
    ⟨by decide +kernel, by decide +kernel, by decide +kernel, by decide +kernel⟩
  have hyoung := Enclosed.of_start (genManager_start (genManager_sparing.endures he))
  obtain ⟨hmark, -, hminor, -, hend⟩ := @tracing_ends genRemembering.graph
    (genRemembering.markCtx genRemembering.algoState.oldObjects) ⟨hwl, rfl⟩ _ _ hwl hyoung
  exact ⟨hmark, hminor, (hend he).2.2.1⟩

end Xgc
