import Xgc.Algo.GenCollect

/-! Marking and sweeping the old objects: the second half of a full collection of the generational
    collector, which starts with an empty nursery. -/

namespace Xgc

open Lib (Reach Block)

/-- `gc_heap_record_old_free` of bytes that are there. -/
theorem gcHeapRecordOldFree_eq {h : GcHeap} {bytes : Nat} (hc : 0 < h.oldObjectCount)
    (hb : bytes ≤ h.oldObjectBytes) : gcHeapRecordOldFree h bytes =
      { h with oldObjectCount := h.oldObjectCount - 1
               oldObjectBytes := h.oldObjectBytes - bytes } := by
  have h0 : h.oldObjectCount ≠ 0 := Nat.pos_iff_ne_zero.mp hc
  have hlt : ¬ h.oldObjectBytes < bytes := Nat.not_lt.mpr hb
  simp [gcHeapRecordOldFree, hc, hb, h0, hlt]

/-- The card table `b'` is `b` without the owners `ds`. -/
structure DropsOwners (b b' : GcBarrierSet) (ds : List Addr) : Prop where
  ok : b'.Ok
  size : ∀ o n, b'.HasSize o n ↔ b.HasSize o n ∧ o ∉ ds
  dirty : ∀ o c, b'.Dirty o c ↔ b.Dirty o c ∧ o ∉ ds
  granularity : b'.oldToYoung.cardGranularity = b.oldToYoung.cardGranularity

/-- Reclaiming the old objects of a list of nodes. -/
theorem reclaimAllOld {rest : List Block} : ∀ (nodes : List GcNode) {w : GenWorld},
    (nodes.map GcNode.obj).Nodup → (∀ n ∈ nodes, Reclaimable w.graph n.obj) →
    w.mem.Owns (objectBlocks w.graph nodes ++ rest) →
    bytesOf w.graph nodes ≤ w.stats.totalAllocated → w.barriers.Ok →
    nodes.length ≤ w.heap.oldObjectCount → bytesOf w.graph nodes ≤ w.heap.oldObjectBytes →
    ∃ m b, (nodes.map GcNode.obj).foldl gcGenReclaimOld w =
      { w with
        graph := w.graph.kill (nodes.map GcNode.obj)
        mem := m
        heap := { w.heap with
          oldObjectCount := w.heap.oldObjectCount - nodes.length
          oldObjectBytes := w.heap.oldObjectBytes - bytesOf w.graph nodes }
        barriers := b
        stats := { w.stats with
          totalAllocated := w.stats.totalAllocated - bytesOf w.graph nodes } } ∧
      m.Owns rest ∧ m.failed = w.mem.failed ∧ DropsOwners w.barriers b (nodes.map GcNode.obj)
  | [], w, _, _, howns, _, hb, _, _ =>
    ⟨w.mem, w.barriers, by simp [Graph.kill_nil, bytesOf, objectBlocks], howns, rfl, hb,
      fun o n => by simp, fun o c => by simp, rfl⟩
  | n :: nodes, w, hnodup, hobjs, howns, htotal, hb, hcount, hbytes => by
      rw [List.map_cons, List.nodup_cons] at hnodup
      obtain ⟨o, ho, hd, hh⟩ := hobjs n (List.mem_cons_self ..)
      have hsize : w.graph.sizeAt n.obj = o.size := Graph.sizeAt_eq ho
      rw [List.length_cons] at hcount
      rw [bytesOf_cons, hsize] at htotal hbytes
      have hown : w.mem.Owns ((n.obj, o.size) :: (objectBlocks w.graph nodes ++ rest)) := by
        rw [← hsize]
        exact howns
      obtain ⟨hb₁, hsize₁, hdirty₁, hgran₁⟩ := GcBarrierSet.unregister_spec hb n.obj
      have hheap := @gcHeapRecordOldFree_eq w.heap o.size (by omega) (by omega)
      obtain ⟨heq, hfree⟩ := gcReclaimObject_eq (w := gcGenRemoveOldNodeAccounting w n.obj) ho hd hh
        (show o.size ≤ w.stats.totalAllocated by omega) hown
      have hblocks := objectBlocks_kill (g := w.graph) hnodup.1
      have hrest : bytesOf (w.graph.kill [n.obj]) nodes = bytesOf w.graph nodes := by
        rw [bytesOf, hblocks, bytesOf]
      rw [List.map_cons, List.foldl_cons, gcGenReclaimOld, heq]
      simp only [gcGenRemoveOldNodeAccounting, hsize, hheap]
      -- the other objects have kept their sizes and blocks
      obtain ⟨m, b, hfold, hm, hfail, hdrops⟩ := reclaimAllOld nodes (w := { w with
          graph := w.graph.kill [n.obj]
          mem := w.mem.free n.obj
          heap := { w.heap with
            oldObjectCount := w.heap.oldObjectCount - 1
            oldObjectBytes := w.heap.oldObjectBytes - o.size }
          barriers := gcBarrierUnregisterOwner w.barriers n.obj
          stats := { w.stats with totalAllocated := w.stats.totalAllocated - o.size } }) hnodup.2
        (fun k hk => (hobjs k (List.mem_cons_of_mem _ hk)).kill fun he =>
          hnodup.1 (he ▸ List.mem_map_of_mem hk))
        (by rw [hblocks]; exact hfree)
        (by
          show bytesOf (w.graph.kill [n.obj]) nodes ≤ w.stats.totalAllocated - o.size
          rw [hrest]
          omega)
        hb₁
        (by
          show nodes.length ≤ w.heap.oldObjectCount - 1
          omega)
        (by
          show bytesOf (w.graph.kill [n.obj]) nodes ≤ w.heap.oldObjectBytes - o.size
          rw [hrest]
          omega)
      refine ⟨m, b, ?_, hm, hfail.trans (Mem.free_failed _ _), hdrops.ok, fun x k => ?_,
        fun x c => ?_, hdrops.granularity.trans hgran₁⟩
      · rw [hfold]
        simp only [Graph.kill_cons hnodup.1, hrest, bytesOf_cons, hsize, Nat.sub_sub,
          List.length_cons, Nat.add_comm]
      · rw [hdrops.size]
        show (gcBarrierUnregisterOwner w.barriers n.obj).HasSize x k ∧ _ ↔ _
        rw [hsize₁, List.mem_cons, not_or, and_assoc]
      · rw [hdrops.dirty]
        show (gcBarrierUnregisterOwner w.barriers n.obj).Dirty x c ∧ _ ↔ _
        rw [hdirty₁, List.mem_cons, not_or, and_assoc]

/-- The mark and sweep of `gc_gen_collect_full_impl`. -/
def gcGenMarkSweep (w : GenWorld) : GenWorld :=
  let r := markPhase w.graph (w.markCtx w.algoState.oldObjects)
  gcGenSweepOld { w.marked r with algoState := { w.algoState with oldObjects := r.1.nodes } }

theorem gcGenCollectFullImpl_eq {w : GenWorld} (hb : w.stateBound = true) :
    gcGenCollectFullImpl w = gcGenMarkSweep (gcGenCollectMinorImpl w) := by
  rw [gcGenCollectFullImpl, if_neg (by simp [hb])]
  rfl

/-- What is live to a mark phase over the old objects that dropped the objects with the tags
    `dropped`. -/
def oldLive (w : GenWorld) (dropped : List Nat) (a : Addr) : Prop :=
  Reach (markStart w.graph w.old)
    (fun a b => w.graph.tagAt a ∉ dropped ∧ markEdge w.graph w.old a b) a

/-- The runtime after a sweep that has kept the old objects in `live`. -/
def swept (w : GenWorld) (live : Addr → Prop) [DecidablePred live] (m : Mem) (b : GcBarrierSet)
    (wl : GcWorklist) (dropped : List Nat) : GenWorld :=
  { w with
    graph := w.graph.kill ((deadNodes live w.algoState.oldObjects).map GcNode.obj)
    mem := m
    heap := { w.heap with
      oldObjectCount := (liveNodes live w.algoState.oldObjects).length
      oldObjectBytes := bytesOf w.graph (liveNodes live w.algoState.oldObjects) }
    barriers := b
    worklistData := wl.data
    worklistCapacity := wl.capacity
    losses := { w.losses with marks := w.losses.marks ++ dropped }
    stats := { w.stats with
      totalAllocated := bytesOf w.graph (liveNodes live w.algoState.oldObjects) }
    algoState := { w.algoState with oldObjects := liveNodes live w.algoState.oldObjects } }

/-- What is in use besides the dead objects. -/
def ownedLive (w : GenWorld) (live : Addr → Prop) [DecidablePred live] : List Block :=
  (w.self, sizeofRuntime) :: ((w.algoState.nurserySpace, w.algoState.nurseryCapacity) ::
    objectBlocks w.graph (liveNodes live w.algoState.oldObjects) ++ handleBlocks w.graph.handles)

theorem genOwned_perm (w : GenWorld) (live : Addr → Prop) [DecidablePred live] :
    (objectBlocks w.graph (deadNodes live w.algoState.oldObjects) ++ ownedLive w live).Perm
      (genOwned w) := by
  have hsplit : (objectBlocks w.graph (deadNodes live w.algoState.oldObjects) ++
      objectBlocks w.graph (liveNodes live w.algoState.oldObjects)).Perm
      (objectBlocks w.graph w.algoState.oldObjects) := by
    rw [objectBlocks, objectBlocks, ← List.map_append]
    refine List.Perm.map _ (List.perm_append_comm.trans ?_)
    exact List.filter_append_perm (fun n => decide (live n.obj)) w.algoState.oldObjects
  refine List.perm_middle.trans (List.Perm.cons _ ?_)
  refine List.perm_middle.trans (List.Perm.cons _ ?_)
  show (_ ++ (objectBlocks w.graph (liveNodes live w.algoState.oldObjects) ++
    handleBlocks w.graph.handles)).Perm (objectBlocks w.graph w.algoState.oldObjects ++ _)
  rw [← List.append_assoc]
  exact hsplit.append_right _

/-- Storage and counters are in order after a sweep. -/
theorem GenOk.sweep {w : GenWorld} (h : GenOk w []) (live : Addr → Prop) [DecidablePred live]
    {m : Mem} {b : GcBarrierSet} {wl : GcWorklist} {dropped : List Nat}
    (hm : m.Owns (ownedLive w live)) (hwl : wl.Ok)
    (hb : DropsOwners w.barriers b ((deadNodes live w.algoState.oldObjects).map GcNode.obj)) :
    GenOk (swept w live m b wl dropped) [] := by
  have hused : w.algoState.nurseryUsed = 0 := h.layout.tiles
  have hsize := @sizeAt_kill_dead live _ w.graph w.algoState.oldObjects
  have hsum := bytesOf_filter w.graph (fun n => decide (live n.obj)) w.algoState.oldObjects
  have htotal := h.layout.total
  have hpeak := h.rt.peak
  have hlive : ∀ a, a ∈ (liveNodes live w.algoState.oldObjects).map GcNode.obj →
      a ∈ w.algoState.oldObjects.map GcNode.obj ∧ (swept w live m b wl dropped).graph.sizeAt a =
        w.graph.sizeAt a := by
    intro a ha
    obtain ⟨n, hn, rfl⟩ := List.mem_map.mp ha
    exact ⟨List.mem_map_of_mem (List.mem_filter.mp hn).1, hsize n hn⟩
  refine ⟨{ h.rt with worklist := hwl.reset, barriers := hb.ok,
                      granularity := hb.granularity ▸ h.rt.granularity, peak := ?_ }, ?_,
    ⟨hused, h.layout.used_le, fun a ha => ?_, fun n hn => ?_, fun o n => ?_, ?_, ?_⟩⟩
  · show bytesOf w.graph (w.algoState.oldObjects.filter _) ≤ w.stats.peakAllocated
    omega
  · show m.Owns ((w.self, sizeofRuntime) :: ((w.algoState.nurserySpace,
      w.algoState.nurseryCapacity) :: objectBlocks (w.graph.kill _) (liveNodes live _) ++
      handleBlocks w.graph.handles))
    rw [objectBlocks_congr hsize]
    exact hm
  · rw [List.append_nil] at ha
    obtain ⟨ha', hs⟩ := hlive a ha
    rw [hs]
    exact h.layout.sized a (List.mem_append_left _ ha')
  · exact h.layout.unmarked n (List.mem_filter.mp hn).1
  · show b.HasSize o n ↔ _
    rw [hb.size, h.layout.owners]
    constructor
    · rintro ⟨⟨ho, rfl⟩, hn⟩
      have hmem : o ∈ (liveNodes live w.algoState.oldObjects).map GcNode.obj := by
        refine mem_liveNodes.mpr ⟨ho, ?_⟩
        by_contra hdead
        exact hn (mem_deadNodes.mpr ⟨ho, hdead⟩)
      exact ⟨hmem, (hlive o hmem).2⟩
    · rintro ⟨ho, rfl⟩
      obtain ⟨ho', hs⟩ := hlive o ho
      exact ⟨⟨ho', hs.symm⟩, fun hdead => (mem_deadNodes.mp hdead).2 (mem_liveNodes.mp ho).2⟩
  · show { w.heap with
      oldObjectCount := (liveNodes live w.algoState.oldObjects).length
      oldObjectBytes := bytesOf w.graph (liveNodes live w.algoState.oldObjects) } = _
    rw [h.layout.heap]
    simp only [swept, bytesOf_congr hsize]
  · show bytesOf w.graph (liveNodes live w.algoState.oldObjects) =
      w.algoState.nurseryUsed + bytesOf _ _
    rw [hused, Nat.zero_add]
    exact (bytesOf_congr hsize).symm

open Classical in
/-- Marking and sweeping keeps the old objects that are live through what was dropped. -/
theorem gcGenMarkSweep_spec {w : GenWorld} (h : GenOk w []) (hk : Markable w.graph w.old)
    (hr : ∀ a ∈ w.old, Reclaimable w.graph a) :
    ∃ (dropped : List Nat) (wl : GcWorklist) (m : Mem) (b : GcBarrierSet),
      gcGenMarkSweep w = swept w (oldLive w dropped) m b wl dropped ∧
      m.failed = w.mem.failed ∧ m.Owns (ownedLive w (oldLive w dropped)) ∧ wl.Ok ∧
      DropsOwners w.barriers b
        ((deadNodes (oldLive w dropped) w.algoState.oldObjects).map GcNode.obj) := by
  have hused : w.algoState.nurseryUsed = 0 := h.layout.tiles
  have htotal := h.layout.total
  rw [hused, Nat.zero_add] at htotal
  have hunmarked := h.layout.unmarked
  have hnodup := h.old_nodup
  have hheapc : w.heap.oldObjectCount = w.algoState.oldObjects.length := by rw [h.layout.heap]
  have hheapb : w.heap.oldObjectBytes = bytesOf w.graph w.algoState.oldObjects := by
    rw [h.layout.heap]
  obtain ⟨ctx, hphase, hwl, ⟨k, hmem⟩, hmarked⟩ :=
    markPhase_nodes hk hunmarked h.rt.worklist rfl w.mem
  specialize hmarked (oldLive w ctx.dropped) fun a => Iff.rfl
  have hperm := genOwned_perm w (oldLive w ctx.dropped)
  set live := oldLive w ctx.dropped with hlive
  set nodes := w.algoState.oldObjects with hnodes
  have hsum := bytesOf_filter w.graph (fun n => decide (live n.obj)) nodes
  have hlen : (liveNodes live nodes).length + (deadNodes live nodes).length = nodes.length := by
    rw [← List.length_append]
    exact (List.filter_append_perm (fun n => decide (live n.obj)) nodes).length_eq
  have hq : w.mem.Quiet ctx.mem := by
    rw [hmem]
    exact ⟨rfl, rfl, rfl, id⟩
  obtain ⟨m, b, hfold, hm, hfail, hdrops⟩ := reclaimAllOld (deadNodes live nodes)
    (w := ({ w.marked (ctx, false) with
      algoState := { w.algoState with oldObjects := markedNodes live nodes } } : GenWorld))
    (hnodup.sublist (List.filter_sublist.map _))
    (fun n hn => hr _ (List.mem_map_of_mem (List.mem_filter.mp hn).1))
    ((h.owns.quiet hq).perm hperm)
    (by
      show bytesOf w.graph (nodes.filter _) ≤ w.stats.totalAllocated
      omega)
    h.rt.barriers
    (by
      show (deadNodes live nodes).length ≤ w.heap.oldObjectCount
      omega)
    (by
      show bytesOf w.graph (nodes.filter _) ≤ w.heap.oldObjectBytes
      omega)
  refine ⟨ctx.dropped, ctx.wl, m, b, ?_, by rw [hfail]; simp [World.marked, hmem], hm, hwl, hdrops⟩
  have hcount : w.heap.oldObjectCount - (deadNodes live nodes).length =
      (liveNodes live nodes).length := by omega
  have hbytes : bytesOf w.graph nodes - bytesOf w.graph (deadNodes live nodes) =
      bytesOf w.graph (liveNodes live nodes) := by
    rw [deadNodes, liveNodes]
    omega
  have hmarks : markPhase w.graph (w.markCtx nodes) = (ctx, false) := hphase
  unfold gcGenMarkSweep
  simp only [← hnodes, hmarks, gcGenSweepOld, hmarked, sweep_markedNodes gcGenReclaimOld hunmarked]
  simp only [World.marked, Bool.or_false] at hfold ⊢
  rw [hfold]
  simp only [hcount, htotal, hheapb, hbytes]
  rfl

end Xgc
