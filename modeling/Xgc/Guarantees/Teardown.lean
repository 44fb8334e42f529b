import Xgc.Guarantees.Generational
import Xgc.Guarantees.MarkSweep

/-! The end of a runtime of the generational collector: it reclaims the old objects, each once, and
    gives up the nursery without a look at the objects in it. -/

namespace Xgc

open Lib (Block)

variable {tidy : Prop} {w : GenWorld}

theorem gcGenGlobalDestroy_eq {w' : GenWorld} (hb : w.stateBound = true)
    (hfold : w.old.foldl gcGenReclaimOld w = w') :
    gcGenGlobalDestroy w =
      { gcGenClearForwarding w' with
        mem := w'.mem.free w'.algoState.nurserySpace
        heap := gcHeapSetYoungSpace w'.heap 0 0
        algoState := default
        stateBound := false } := by
  have hmap : w.old.foldl gcGenReclaimOld w =
      w.algoState.oldObjects.foldl (fun w node => gcGenReclaimOld w node.obj) w := List.foldl_map
  rw [gcGenGlobalDestroy, if_neg (by simp [hb]), ← hfold, hmap]
  rfl

/-- `gc_runtime_destroy` reclaims the old objects, each once, and frees nothing twice. -/
theorem gcRuntimeDestroy_gen (h : (genManager tidy).Inv w) :
    (gcRuntimeDestroy gcGenCopyMsVtable w).graph = { w.graph.kill w.old with handles := [] } ∧
      (gcRuntimeDestroy gcGenCopyMsVtable w).mem.Owns [] := by
  have hok := genManager_ok h
  set nodes := w.algoState.oldObjects with hnodes
  have hperm : (handleBlocks w.graph.handles ++ (objectBlocks w.graph nodes ++
      [(w.algoState.nurserySpace, w.algoState.nurseryCapacity), (w.self, sizeofRuntime)])).Perm
      (genOwned w) := by
    have hblocks : (objectBlocks w.graph nodes ++
        [(w.algoState.nurserySpace, w.algoState.nurseryCapacity), (w.self, sizeofRuntime)]).Perm
        ((w.self, sizeofRuntime) :: genBlocks w) :=
      List.perm_append_comm.trans (List.Perm.swap ..)
    exact List.perm_append_comm.trans (hblocks.append_right _)
  have howns := freeHandles_owns _ (hok.owns.perm hperm)
  obtain ⟨m, b, hfold, hm, -, -⟩ := reclaimAllOld nodes (w := w.withoutHandles) hok.old_nodup
    (fun n hn => h.heap.reclaimable (List.mem_append_left _ (List.mem_map_of_mem hn))) howns
    (by
      show bytesOf w.graph w.algoState.oldObjects ≤ w.stats.totalAllocated
      have := h.alg.layout.total
      omega)
    h.rt.barriers
    (by
      show nodes.length ≤ w.heap.oldObjectCount
      rw [h.alg.layout.heap])
    (by
      show bytesOf w.graph nodes ≤ w.heap.oldObjectBytes
      rw [h.alg.layout.heap])
  have hdestroy := gcGenGlobalDestroy_eq (w := w.withoutHandles) h.rt.bound hfold
  have heq : gcRuntimeDestroy gcGenCopyMsVtable w =
      { gcGenGlobalDestroy w.withoutHandles with
        barriers := gcBarrierSetDestroyed
        worklistData := []
        mem := (gcGenGlobalDestroy w.withoutHandles).mem.free
          (gcGenGlobalDestroy w.withoutHandles).self } := rfl
  rw [heq, hdestroy]
  exact ⟨rfl, hm.free.free⟩

/-- When the runtime is destroyed all lives end but those of the young objects. -/
theorem gcRuntimeDestroy_lives (h : (genManager tidy).Inv w) :
    ∃ dead, Lives (gcRuntimeDestroy gcGenCopyMsVtable w).graph (nurseryObjects w) dead ∧
      (gcRuntimeDestroy gcGenCopyMsVtable w).graph.history = w.graph.history ∧
      ∀ a ∈ nurseryObjects w,
        (gcRuntimeDestroy gcGenCopyMsVtable w).graph.tagAt a = w.graph.tagAt a := by
  obtain ⟨dead, hl⟩ := h.heap.lives
  rw [(gcRuntimeDestroy_gen h).1]
  have htags : ∀ a ∈ nurseryObjects w,
      Graph.tagAt { w.graph.kill w.old with handles := [] } a = w.graph.tagAt a := by
    intro a ha
    have hobj := Graph.kill_objs (g := w.graph) fun ho => (genManager_ok h).old_notMem ho ha
    simp only [Graph.tagAt, hobj]
  exact ⟨_, hl.end_some rfl htags rfl rfl, rfl, htags⟩

/-- At the end of a run the finalizer of an object has been called once if the object did not lie in
    the nursery, and not at all if it did. -/
theorem finalized_once_iff (hw : genCollector.Reaches w) {t : Nat} {d : GcDescriptor}
    (hd : w.graph.history[t]? = some d) (hf : d.finalize = true) :
    (gcRuntimeDestroy gcGenCopyMsVtable w).graph.log.count (.finalize t) = 1 ↔
      ∀ a ∈ nurseryObjects w, w.graph.tagAt a ≠ t := by
  obtain ⟨dead, hl, hhist, htags⟩ := gcRuntimeDestroy_lives (genManager_reaches hw)
  have hlt : t < w.graph.history.length := (List.getElem?_eq_some_iff.mp hd).1
  have hyoung : (∀ a ∈ nurseryObjects w,
      (gcRuntimeDestroy gcGenCopyMsVtable w).graph.tagAt a ≠ t) ↔
      ∀ a ∈ nurseryObjects w, w.graph.tagAt a ≠ t :=
    forall₂_congr fun a ha => by rw [htags a ha]
  have hmem : Event.finalize t ∈ (gcRuntimeDestroy gcGenCopyMsVtable w).graph.log ↔
      ∀ a ∈ nurseryObjects w, w.graph.tagAt a ≠ t := by
    rw [hl.finalized_iff, hl.released_iff, hhist, hyoung]
    exact ⟨fun hm => hm.1.2, fun hm => ⟨⟨hlt, hm⟩, d, hd, hf⟩⟩
  rw [← hmem]
  constructor
  · intro hone
    exact List.count_pos_iff.mp (by omega)
  · exact List.count_eq_one_of_mem hl.log_nodup

theorem finalized_once_iff_sample :
    (gcRuntimeDestroy gcGenCopyMsVtable genRemembering).graph.log.count (.finalize 0) = 1 := by
  obtain ⟨d, hd, hf⟩ : ∃ d, genRemembering.graph.history[0]? = some d ∧ d.finalize = true :=
    ⟨_, rfl, by decide +kernel⟩
  exact (finalized_once_iff genRemembering_reaches hd hf).mpr (by decide +kernel)

/-- A young cell is not finalized when the runtime is destroyed. -/
theorem young_not_finalized : genCollector.Reaches genSample ∧
    (genSample.graph.history[1]?.any GcDescriptor.finalize) = true ∧
    (gcRuntimeDestroy gcGenCopyMsVtable genSample).graph.log.count (.finalize 1) = 0 :=
  ⟨genSample_reaches, by decide +kernel, by decide +kernel⟩

end Xgc
