import Xgc.Algo.MarkSweepFootprint

/-! What mark-sweep promises its clients, over whole runs: collections are exact, keep the order of
    the objects and clear all marks, nothing reachable has been finalized, and when the runtime is
    destroyed every object has been finalized once. -/

namespace Xgc

open Lib (Block)

variable {w : MsWorld}

/-- The invariant holds wherever a run leads. -/
theorem msManager_reaches (hw : msCollector.Reaches w) : msManager.Inv w :=
  msManager_sound.lawful.reaches hw

/-! ### A sample run -/

/-- A fresh runtime with two root slots. -/
def msStart : MsWorld := (msCollector.sampleStart 0 2 fun _ => false).get (by decide +kernel)

/-- Two cells, of which the first is garbage. -/
def msSample : MsWorld := msCollector.rootCell 0 (msCollector.rootCell 0 msStart)

theorem msStart_starts : msCollector.Starts msStart :=
  Collector.sampleStart_starts (by decide : 0 < 2 ^ 64) (Option.some_get _).symm (by decide +kernel)

theorem msSample_reaches : msCollector.Reaches msSample :=
  (msStart_starts.reaches.rootCell (i := 0) (by decide) (by decide +kernel) (by decide +kernel)
    (by decide +kernel)).rootCell (by decide) (by decide +kernel) (by decide +kernel)
    (by decide +kernel)

/-! ### Destroying the runtime -/

/-- Freeing all handles. -/
theorem freeHandles_owns {rest : List Block} : ∀ (handles : List GcHandle) {m : Mem},
    m.Owns (handleBlocks handles ++ rest) → (handles.foldl (fun m k => m.free k.addr) m).Owns rest
  | [], _, h => h
  | _ :: handles, _, h => freeHandles_owns handles h.free

/-- The runtime without its handles. -/
def World.withoutHandles {σ : Type} (w : World σ) : World σ :=
  { w with
    mem := w.graph.handles.foldl (fun m k => m.free k.addr) w.mem
    graph := { w.graph with handles := [] } }

theorem gcMarksweepGlobalDestroy_eq {w' : MsWorld} (hb : w.stateBound = true)
    (hfold : (w.algoState.objects.map GcNode.obj).foldl gcReclaimObject w = w') :
    gcMarksweepGlobalDestroy w =
      { w' with algoState := { objects := [] }, stateBound := false } := by
  rw [gcMarksweepGlobalDestroy, if_neg (by simp [hb]), ← hfold, List.foldl_map]

/-- `gc_runtime_destroy` reclaims the objects on the list, each once, and frees nothing twice. -/
theorem gcRuntimeDestroy_ms (h : msManager.Inv w) :
    (gcRuntimeDestroy gcMarksweepStwVtable w).graph =
      { w.graph.kill (msCollector.tracked w) with handles := [] } ∧
    (gcRuntimeDestroy gcMarksweepStwVtable w).mem.Owns [] := by
  set nodes := w.algoState.objects with hnodes
  have hheap : HeapInv w.graph (nodes.map GcNode.obj) := h.heap
  have hperm : (handleBlocks w.graph.handles ++ (objectBlocks w.graph nodes ++
      [(w.self, sizeofRuntime)])).Perm (msManager.owned w) := by
    refine List.perm_append_comm.trans ?_
    rw [List.append_assoc]
    exact List.perm_middle
  have howns := freeHandles_owns _ (h.owns.perm hperm)
  obtain ⟨m, hfold, hm, -⟩ := reclaimAll nodes (w := w.withoutHandles) hheap.nodup
    (fun n hn => hheap.reclaimable (List.mem_map_of_mem hn)) howns h.alg.total.ge
  have hdestroy := gcMarksweepGlobalDestroy_eq (w := w.withoutHandles) h.rt.bound hfold
  have heq : gcRuntimeDestroy gcMarksweepStwVtable w =
      { gcMarksweepGlobalDestroy w.withoutHandles with
        barriers := gcBarrierSetDestroyed
        worklistData := []
        mem := (gcMarksweepGlobalDestroy w.withoutHandles).mem.free
          (gcMarksweepGlobalDestroy w.withoutHandles).self } := rfl
  rw [heq, hdestroy]
  exact ⟨rfl, hm.free⟩

/-! ### Exactness -/

/-- What a collection does: it keeps exactly what is reachable, in the same order and unchanged, ends
    the life of everything else once, and leaves no live blocks but those that are in use and those of
    others. -/
structure MsExact (w w' : MsWorld) : Prop where
  collected : Collected w.graph w'.graph (msCollector.tracked w) (msCollector.tracked w')
    {a | w.graph.Reachable a} id
  order : (msCollector.tracked w').Sublist (msCollector.tracked w)
  unmarked : ∀ n ∈ w'.algoState.objects, n.marked = false
  blocks : ∃ others, w.mem.blocks.Perm (msManager.owned w ++ others) ∧
    w'.mem.blocks.Perm (msManager.owned w' ++ others)
  reaches : msCollector.Reaches w'

/-- What the end of the runtime does: it reclaims what is left, so that all objects ever allocated
    have been released and, where they have a finalizer, finalized, once. -/
structure MsEnded (w w' : MsWorld) : Prop where
  log : w'.graph.log = w.graph.log ++
    (msCollector.tracked w).flatMap fun a => deathsOf w.graph.history (w.graph.tagAt a)
  gone : ∀ a ∈ msCollector.tracked w, w'.graph.objs a = none
  once : w'.graph.log.Nodup
  released : ∀ t, Event.release t ∈ w'.graph.log ↔ t < w.graph.history.length
  finalized : ∀ t, Event.finalize t ∈ w'.graph.log ↔
    ∃ d, w.graph.history[t]? = some d ∧ d.finalize = true
  noFault : w'.mem.fault = false

theorem gcMarksweepCollectFullImpl_order (h : msManager.Inv w) :
    (msCollector.tracked (gcMarksweepCollectFullImpl w)).Sublist (msCollector.tracked w) := by
  obtain ⟨dropped, wl, m, -, -, -, heq⟩ := gcMarksweepCollectFullImpl_spec h
  rw [heq]
  exact List.filter_sublist.map _

theorem MsEnded.of_inv (h : msManager.Inv w) :
    MsEnded w (gcRuntimeDestroy gcMarksweepStwVtable w) := by
  obtain ⟨hgraph, howns⟩ := gcRuntimeDestroy_ms h
  obtain ⟨dead, hl⟩ := h.heap.lives
  have hlog : (gcRuntimeDestroy gcMarksweepStwVtable w).graph.log = w.graph.log ++
      (msCollector.tracked w).flatMap fun a => deathsOf w.graph.history (w.graph.tagAt a) := by
    rw [hgraph]
    rfl
  have hhist : (gcRuntimeDestroy gcMarksweepStwVtable w).graph.history = w.graph.history := by
    rw [hgraph]
    rfl
  have hend := hl.end_some (List.append_nil _).symm (fun _ ha => absurd ha List.not_mem_nil) hhist
    hlog
  have hreleased : ∀ t, Event.release t ∈ (gcRuntimeDestroy gcMarksweepStwVtable w).graph.log ↔
      t < w.graph.history.length := by
    intro t
    rw [hend.released_iff, hhist]
    simp
  refine ⟨hlog, fun a ha => ?_, hend.log_nodup, hreleased, fun t => ?_, howns.noFault⟩
  · rw [hgraph]
    exact if_pos ha
  · rw [hend.finalized_iff, hreleased, hhist]
    constructor
    · exact And.right
    · rintro ⟨d, hd, hf⟩
      exact ⟨(List.getElem?_eq_some_iff.mp hd).1, d, hd, hf⟩

/-- Mark-sweep is exact over whole runs. -/
theorem markSweep_exact (hw : msCollector.Reaches w) :
    (∀ op, op = .collectMinor ∨ op = .collectMajor ∨ op = .collectFull →
      (ClientOp.perform msCollector w op).1.Granted →
        MsExact w (ClientOp.perform msCollector w op).1) ∧
    (∀ a, w.graph.Reachable a → Event.release (w.graph.tagAt a) ∉ w.graph.log ∧
      Event.finalize (w.graph.tagAt a) ∉ w.graph.log) ∧
    MsEnded w (gcRuntimeDestroy gcMarksweepStwVtable w) := by
  have h := msManager_reaches hw
  refine ⟨fun op hop hg => ?_, fun a ha => ?_, .of_inv h⟩
  · have hstep : msCollector.Reaches (op.perform msCollector w).1 := by
      refine hw.step op ⟨?_, rfl, hg⟩
      rcases hop with rfl | rfl | rfl <;> trivial
    have hinv := msManager_reaches hstep
    have horder := gcMarksweepCollectFullImpl_order h
    obtain ⟨hdone, hcol⟩ := gcMarksweepCollectFullImpl_exact h
      (show (gcMarksweepCollectFullImpl w).losses.marks = [] by
        rcases hop with rfl | rfl | rfl <;> exact hg.2.2)
    have hblocks := gcMarksweepCollectFullImpl_blocks h hdone
    rcases hop with rfl | rfl | rfl <;>
      exact ⟨hcol, horder, hinv.alg.unmarked, hblocks, hstep⟩
  · have hrel : Event.release (w.graph.tagAt a) ∉ w.graph.log := fun hmem =>
      ((h.heap.released_iff _).mp hmem).2 a (h.heap.mem_of_reachable ha) rfl
    exact ⟨hrel, fun hmem => hrel ((h.heap.finalized_iff _).mp hmem).1⟩

theorem markSweep_exact_sample : MsExact msSample (gcCollectFull gcMarksweepStwVtable msSample) ∧
    MsEnded msSample (gcRuntimeDestroy gcMarksweepStwVtable msSample) :=
  ⟨(markSweep_exact msSample_reaches).1 .collectFull (.inr (.inr rfl)) (by decide +kernel),
    (markSweep_exact msSample_reaches).2.2⟩

end Xgc
