import Xgc.Algo.MarkSweep
import Xgc.Algo.Sweep
import Xgc.Heap.Manager

/-! Mark-sweep keeps its invariant and is lawful: the objects on its list are the tracked objects,
    all unmarked between calls, and their bytes are what the counter says. -/

namespace Xgc

open Lib (Reach Block)

/-- The invariant of the mark-sweep state. -/
structure MsAlg (w : MsWorld) : Prop where
  unmarked : ∀ n ∈ w.algoState.objects, n.marked = false
  total : w.stats.totalAllocated = bytesOf w.graph w.algoState.objects
  young : w.heap.youngBase = 0 ∧ w.heap.youngCapacity = 0 ∧ w.heap.youngUsed = 0
  old : w.heap.oldObjectCount = 0 ∧ w.heap.oldObjectBytes = 0

/-- Mark-sweep as a client sees it. -/
def msCollector : Collector MsState where
  algo := gcMarksweepStwVtable
  tracked w := w.algoState.objects.map GcNode.obj
  rounded := id
  maxSize := 2 ^ 32 - 1

/-- Mark-sweep with its storage and its invariant. -/
def msManager : Manager MsState where
  toCollector := msCollector
  blocks w := objectBlocks w.graph w.algoState.objects
  Alg := MsAlg

open Classical in
/-- A collection of mark-sweep keeps the objects that are live through what was dropped, and
    reclaims the others. -/
theorem gcMarksweepCollectFullImpl_spec {w : MsWorld} (h : msManager.Inv w) :
    ∃ (dropped : List Nat) (wl : GcWorklist) (m : Mem), wl.Ok ∧ m.failed = w.mem.failed ∧
      m.Owns ((w.self, sizeofRuntime) ::
        (objectBlocks w.graph (liveNodes (liveThrough w.graph dropped) w.algoState.objects) ++
          handleBlocks w.graph.handles)) ∧
      gcMarksweepCollectFullImpl w =
        { w with
          graph := w.graph.kill
            ((deadNodes (liveThrough w.graph dropped) w.algoState.objects).map GcNode.obj)
          mem := m
          worklistData := wl.data
          worklistCapacity := wl.capacity
          losses := { w.losses with marks := w.losses.marks ++ dropped }
          stats := { w.stats with
            totalAllocated :=
              bytesOf w.graph (liveNodes (liveThrough w.graph dropped) w.algoState.objects) }
          algoState :=
            { objects := liveNodes (liveThrough w.graph dropped) w.algoState.objects } } := by
  have hunmarked := h.alg.unmarked
  set nodes := w.algoState.objects with hnodes
  have hheap : HeapInv w.graph (nodes.map GcNode.obj) := h.heap
  obtain ⟨ctx, hphase, hwl, ⟨k, hmem⟩, hmarked⟩ :=
    markPhase_nodes hheap.markable hunmarked h.rt.worklist rfl w.mem
  specialize hmarked (liveThrough w.graph ctx.dropped) fun a =>
    (hheap.mark_reach (fun a => w.graph.tagAt a ∉ ctx.dropped) a).symm
  set live := liveThrough w.graph ctx.dropped with hlive
  have hsum := bytesOf_filter w.graph (fun n => decide (live n.obj)) nodes
  -- the storage of the dead objects, in front of the rest
  have hperm : (objectBlocks w.graph (deadNodes live nodes) ++ ((w.self, sizeofRuntime) ::
      (objectBlocks w.graph (liveNodes live nodes) ++ handleBlocks w.graph.handles))).Perm
      (msManager.owned w) := by
    refine List.perm_middle.trans (List.Perm.cons _ ?_)
    rw [← List.append_assoc]
    refine List.Perm.append_right _ ?_
    show (_ ++ _ : List Block).Perm (objectBlocks w.graph nodes)
    rw [objectBlocks, objectBlocks, ← List.map_append]
    refine List.Perm.map _ (List.perm_append_comm.trans ?_)
    exact List.filter_append_perm (fun n => decide (live n.obj)) nodes
  have hq : w.mem.Quiet ctx.mem := by
    rw [hmem]
    exact ⟨rfl, rfl, rfl, id⟩
  obtain ⟨m, hfold, hm, hfail⟩ := reclaimAll (deadNodes live nodes)
    (w := ({ w.marked (ctx, false) with
      algoState := { objects := markedNodes live nodes } } : MsWorld))
    (hheap.nodup.sublist (List.filter_sublist.map _))
    (fun n hn => hheap.reclaimable (List.mem_map_of_mem (List.mem_filter.mp hn).1))
    ((h.owns.quiet hq).perm hperm)
    (by
      show bytesOf w.graph (deadNodes live nodes) ≤ w.stats.totalAllocated
      rw [h.alg.total, deadNodes, ← hnodes]
      omega)
  refine ⟨ctx.dropped, ctx.wl, m, hwl, by rw [hfail]; simp [World.marked, hmem], hm, ?_⟩
  have hlen : w.stats.totalAllocated - bytesOf w.graph (deadNodes live nodes) =
      bytesOf w.graph (liveNodes live nodes) := by
    rw [h.alg.total, deadNodes, liveNodes, ← hnodes]
    omega
  have hmarks : gcMarksweepDrainWorklist w.graph nodes.length
      (markRoots w.graph (gcMarksweepMarkHandleRoots w.graph (w.markCtx nodes))) =
      (ctx, false) := hphase
  unfold gcMarksweepCollectFullImpl
  rw [if_neg (by simp [h.rt.bound])]
  simp only [← hnodes, hmarks, gcMarksweepSweep, hmarked,
    sweep_markedNodes gcReclaimObject hunmarked]
  simp only [World.marked, Bool.or_false] at hfold ⊢
  rw [hfold]
  simp only [hlen]
  rfl

/-- A collection that drops nothing that matters keeps exactly what is reachable, and the
    invariant. -/
theorem gcMarksweepCollectFullImpl_spared {w : MsWorld} (h : msManager.Inv w)
    (hg : ∀ a, w.graph.Reachable a →
      liveThrough w.graph (gcMarksweepCollectFullImpl w).losses.marks a) :
    msManager.Inv (gcMarksweepCollectFullImpl w) ∧
      Collected w.graph (gcMarksweepCollectFullImpl w).graph (msCollector.tracked w)
        (msCollector.tracked (gcMarksweepCollectFullImpl w)) {a | w.graph.Reachable a} id := by
  classical
  obtain ⟨dropped, wl, m, hwl, -, howns, heq⟩ := gcMarksweepCollectFullImpl_spec h
  rw [heq] at hg ⊢
  have hlive : liveThrough w.graph dropped = w.graph.Reachable := by
    funext a
    refine propext ⟨liveThrough_reachable, fun ha => ?_⟩
    exact liveThrough_mono (fun t ht => List.mem_append_right _ ht) (hg a ha)
  simp only [hlive] at howns ⊢
  have hheap : HeapInv w.graph (w.algoState.objects.map GcNode.obj) := h.heap
  have hc := hheap.collected_sweep
  have hsize := @sizeAt_kill_dead w.graph.Reachable _ w.graph w.algoState.objects
  refine ⟨⟨?_, hc.heapInv h.heap, ?_, ?_⟩, hc⟩
  · refine { h.rt with worklist := hwl.reset, peak := ?_ }
    have hsum := bytesOf_filter w.graph (fun n => decide (w.graph.Reachable n.obj))
      w.algoState.objects
    have htotal := h.alg.total
    have hpeak := h.rt.peak
    show bytesOf w.graph (w.algoState.objects.filter _) ≤ w.stats.peakAllocated
    omega
  · show m.Owns ((w.self, sizeofRuntime) :: (objectBlocks _ _ ++ _))
    rw [objectBlocks_congr hsize]
    exact howns
  · exact ⟨fun n hn => h.alg.unmarked n (List.mem_filter.mp hn).1, (bytesOf_congr hsize).symm,
      h.alg.young, h.alg.old⟩

/-- A collection that drops nothing keeps exactly what is reachable, and the invariant. -/
theorem gcMarksweepCollectFullImpl_exact {w : MsWorld} (h : msManager.Inv w)
    (hg : (gcMarksweepCollectFullImpl w).losses.marks = []) :
    msManager.Inv (gcMarksweepCollectFullImpl w) ∧
      Collected w.graph (gcMarksweepCollectFullImpl w).graph (msCollector.tracked w)
        (msCollector.tracked (gcMarksweepCollectFullImpl w)) {a | w.graph.Reachable a} id :=
  gcMarksweepCollectFullImpl_spared h fun a ha => by
    rw [hg]
    exact (liveThrough_nil _ a).mpr ha

/-- The runtime after the allocation of an object at `a`. -/
def msAllocated (w : MsWorld) (a : Addr) (desc : GcDescriptor) (size : Nat) (flags : BitVec 32)
    (m : Mem) : MsWorld :=
  { ({ w with mem := m }.addObject a desc
      (newHeader desc size (allocatedFlags desc flags))) with
    algoState := { objects := { obj := a, marked := false } :: w.algoState.objects }
    stats := w.stats.add size }

/-- `gc_marksweep_alloc` is refused a request, or adds an object in a block of its own. -/
theorem gcMarksweepAlloc_cases {w : MsWorld} (hb : w.stateBound = true) (desc : GcDescriptor)
    (size : Nat) (flags : BitVec 32) :
    (∃ m, w.mem.Quiet m ∧ m.failed = true ∧
      gcMarksweepAlloc w desc size flags = ({ w with mem := m }, 0)) ∨
    ∃ a m, w.mem.Fits a size ∧ (w.mem.grant a size).Quiet m ∧
      gcMarksweepAlloc w desc size flags = (msAllocated w a desc size flags m, a) := by
  unfold gcMarksweepAlloc
  rw [if_neg (by simp [hb])]
  rcases w.mem.malloc_cases size with hm | ⟨a, hfit, hm⟩
  · exact .inl ⟨_, w.mem.quiet_refuse, rfl, by simp only [hm, if_true]⟩
  · have ha : a ≠ 0 := Nat.pos_iff_ne_zero.mp hfit.1
    simp only [hm, if_neg ha]
    rcases (w.mem.grant a size).reserve_cases 24 with hr | hr
    · exact .inr ⟨a, _, hfit, Mem.quiet_tryReserve _ 24, by simp only [hr]; rfl⟩
    · refine .inl ⟨_, Mem.quiet_grant_free hfit (Mem.quiet_refuse _), ?_, by simp only [hr]; rfl⟩
      rw [Mem.free_failed]
      rfl

/-- A block that fits is that of no tracked object. -/
theorem msTracked_of_fits {w : MsWorld} (h : msManager.Inv w) {a n : Nat} (hfit : w.mem.Fits a n) :
    a ∉ msCollector.tracked w := by
  intro hmem
  obtain ⟨n, hn, hna⟩ := List.mem_map.mp hmem
  exact (h.owns.apart_of_fits hfit (n.obj, w.graph.sizeAt n.obj) (List.mem_cons_of_mem _
    (List.mem_append_left _ (List.mem_map_of_mem hn)))).1 hna.symm

/-- The invariant after the allocation of an object. -/
theorem msAllocated_spec {w : MsWorld} (h : msManager.Inv w) {desc : GcDescriptor} (hd : desc.Ok)
    {size : Nat} (hsize : sizeofHeader ≤ size) (hmax : size ≤ 2 ^ 32 - 1) (flags : BitVec 32)
    {a : Nat} {m : Mem} (hfit : w.mem.Fits a size) (hq : (w.mem.grant a size).Quiet m) :
    msManager.Inv (msAllocated w a desc size flags m) ∧
      Effect id (.alloc desc size flags) w.graph (msCollector.tracked w) a
        (msAllocated w a desc size flags m).graph
        (msCollector.tracked (msAllocated w a desc size flags m)) := by
  have hsmall : ¬ size < sizeofHeader := Nat.not_lt.mpr hsize
  have hmod : size % 2 ^ 32 = size := Nat.mod_eq_of_lt (by omega)
  have hnew := msTracked_of_fits h hfit
  have ha0 := Nat.pos_iff_ne_zero.mp hfit.1
  have heffect : Effect id (.alloc desc size flags) w.graph (msCollector.tracked w) a
      { w.graph.setObj a (some (newHeader desc size (allocatedFlags desc flags)
          w.graph.history.length)) with history := w.graph.history ++ [desc] }
      (a :: msCollector.tracked w) := by
    simp only [Effect, if_neg hsmall]
    exact ⟨w.graph, _, _, id, .refl h.heap, ha0, hnew, .refl _, w.graph.objs, fun _ _ => rfl, rfl⟩
  have hheap := heffect.heapInv
    (fun n hn (hn' : n ≤ 2 ^ 32 - 1) => ⟨hn, show n < 2 ^ 32 by omega⟩) h.heap
    (show ClientOp.Legal _ _ _ (.alloc desc size flags) from ⟨hd, hmax⟩)
  refine ⟨?_, heffect⟩
  set g' : Graph := { w.graph.setObj a (some (newHeader desc size (allocatedFlags desc flags)
    w.graph.history.length)) with history := w.graph.history ++ [desc] } with hg'
  have hobj : g'.objs a = some (newHeader desc size (allocatedFlags desc flags)
      w.graph.history.length) := by simp [hg']
  have hself : g'.sizeAt a = size := (Graph.sizeAt_eq hobj).trans hmod
  have hold : ∀ n ∈ w.algoState.objects, g'.sizeAt n.obj = w.graph.sizeAt n.obj := by
    intro n hn
    have hna : n.obj ≠ a := fun he => hnew (he ▸ List.mem_map_of_mem hn)
    simp [Graph.sizeAt, hg', hna]
  have hblocks : objectBlocks g' ({ obj := a, marked := false } :: w.algoState.objects) =
      (a, size) :: objectBlocks w.graph w.algoState.objects := by
    rw [← objectBlocks_congr hold, ← hself]
    rfl
  have hbytes : bytesOf g' ({ obj := a, marked := false } :: w.algoState.objects) =
      w.stats.totalAllocated + size := by
    rw [bytesOf_cons, hself, bytesOf_congr hold, h.alg.total, Nat.add_comm]
  have howns := (h.owns.grant hfit).quiet hq
  have hfits : w.stats.totalAllocated + size < 2 ^ 64 := by
    have hsum := howns.sum_lt
    have htotal := h.alg.total
    simp only [Manager.owned, List.map_cons, List.map_append, List.sum_cons, List.sum_append]
      at hsum
    rw [bytesOf] at htotal
    have hbl : msManager.blocks w = objectBlocks w.graph w.algoState.objects := rfl
    rw [hbl] at hsum
    omega
  have hadd := GcStats.add_eq hfits
  refine ⟨?_, hheap, ?_, ?_⟩
  · obtain ⟨hpeak, hexact⟩ := GcStats.add_ok hfits h.rt.statsExact
    exact { h.rt with peak := hpeak, statsExact := hexact }
  · show m.Owns ((w.self, sizeofRuntime) :: (objectBlocks g'
      ({ obj := a, marked := false } :: w.algoState.objects) ++ handleBlocks w.graph.handles))
    rw [hblocks]
    exact howns.perm (List.Perm.swap ..)
  · refine ⟨fun n hn => ?_, ?_, h.alg.young, h.alg.old⟩
    · rcases List.mem_cons.mp hn with rfl | hn
      · rfl
      · exact h.alg.unmarked n hn
    · show (w.stats.add size).totalAllocated =
        bytesOf g' ({ obj := a, marked := false } :: w.algoState.objects)
      rw [hadd, hbytes]

/-- The object that `gc_marksweep_alloc` returns needs no repair. -/
theorem gcAllocTyped_ms {w : MsWorld} {desc : GcDescriptor} {size : Nat}
    (hsize : sizeofHeader ≤ size) (hmax : size ≤ 2 ^ 32 - 1) (flags : BitVec 32) {a : Nat} {m : Mem}
    (hfit : w.mem.Fits a size)
    (heq : gcMarksweepAlloc w desc size flags = (msAllocated w a desc size flags m, a)) :
    gcAllocTyped gcMarksweepStwVtable w desc size flags =
      (msAllocated w a desc size flags m, a) := by
  have hne : size % 2 ^ 32 ≠ 0 := by
    rw [Nat.mod_eq_of_lt (by omega)]
    unfold sizeofHeader at hsize
    omega
  have hobj : (gcMarksweepAlloc w desc size flags).1.graph.objs
      (gcMarksweepAlloc w desc size flags).2 =
      some (newHeader desc size (allocatedFlags desc flags) w.graph.history.length) := by
    rw [heq]
    simp [msAllocated, World.addObject]
  have hnull : (gcMarksweepAlloc w desc size flags).2 ≠ 0 := by
    rw [heq]
    exact Nat.pos_iff_ne_zero.mp hfit.1
  rw [gcAllocTyped_of_alloc gcMarksweepStwVtable rfl rfl hsize hnull hne hobj, heq]

/-- `gc_alloc_typed` under mark-sweep: it returns `NULL` and leaves the heap as it is, or a new
    tracked object, or plain memory. -/
theorem gcAllocTyped_ms_cases {w : MsWorld} (h : msManager.Inv w) (desc : GcDescriptor) {size : Nat}
    (hmax : size ≤ 2 ^ 32 - 1) (flags : BitVec 32) :
    (∃ m, w.mem.Quiet m ∧ (sizeofHeader ≤ size → m.failed = true) ∧
      gcAllocTyped gcMarksweepStwVtable w desc size flags = ({ w with mem := m }, 0)) ∨
    (sizeofHeader ≤ size ∧ ∃ a m, w.mem.Fits a size ∧ (w.mem.grant a size).Quiet m ∧
      gcAllocTyped gcMarksweepStwVtable w desc size flags =
        (msAllocated w a desc size flags m, a)) ∨
    ∃ a m, w.mem.Quiet m ∧ m.failed = true ∧ m.Fits a size ∧
      gcAllocTyped gcMarksweepStwVtable w desc size flags =
        ({ w with mem := m.grant a size }.addObject a desc fun tag =>
          repairHeader desc size flags (zeroHeader tag), a) := by
  by_cases hsmall : size < sizeofHeader
  · refine .inl ⟨w.mem, .refl _, fun hsize => absurd hsmall (Nat.not_lt.mpr hsize), ?_⟩
    rw [gcAllocTyped, if_pos hsmall]
  have hsize : sizeofHeader ≤ size := Nat.le_of_not_lt hsmall
  rcases gcMarksweepAlloc_cases h.rt.bound desc size flags with
    ⟨m, hq, hf, heq⟩ | ⟨a, m, hfit, hq, heq⟩
  · rcases gcAllocTyped_plain gcMarksweepStwVtable rfl rfl hsize heq with
      ⟨-, heq'⟩ | ⟨-, a, hfit, heq'⟩
    · exact .inl ⟨_, hq.trans m.quiet_refuse, fun _ => rfl, heq'⟩
    · exact .inr (.inr ⟨a, m, hq, hf, hfit, heq'⟩)
  · exact .inr (.inl ⟨hsize, a, m, hfit, hq,
      gcAllocTyped_ms hsize hmax flags hfit heq⟩)

theorem msManager_alloc {w : MsWorld} (h : msManager.Inv w) {desc : GcDescriptor} (hd : desc.Ok)
    {size : Nat} (hmax : size ≤ 2 ^ 32 - 1) (flags : BitVec 32)
    (hg : (gcAllocTyped gcMarksweepStwVtable w desc size flags).1.mem.failed = false) :
    msManager.Inv (gcAllocTyped gcMarksweepStwVtable w desc size flags).1 ∧
      Effect id (.alloc desc size flags) w.graph (msCollector.tracked w)
        (gcAllocTyped gcMarksweepStwVtable w desc size flags).2
        (gcAllocTyped gcMarksweepStwVtable w desc size flags).1.graph
        (msCollector.tracked (gcAllocTyped gcMarksweepStwVtable w desc size flags).1) := by
  by_cases hsmall : size < sizeofHeader
  · have heq : gcAllocTyped gcMarksweepStwVtable w desc size flags = (w, 0) := by
      rw [gcAllocTyped, if_pos hsmall]
    rw [heq]
    simpa [Effect, hsmall] using h
  rcases gcAllocTyped_ms_cases h desc hmax flags with
    ⟨m, -, hf, heq⟩ | ⟨hsize, a, m, hfit, hq, heq⟩ | ⟨a, m, -, hf, -, heq⟩
  · rw [heq] at hg
    exact absurd ((hf (Nat.le_of_not_lt hsmall)).symm.trans hg) (by decide)
  · rw [heq]
    exact msAllocated_spec h hd hsize hmax flags hfit hq
  · rw [heq] at hg
    exact absurd (hf.symm.trans hg) (by decide)

/-- Counting a collection changes nothing else. -/
theorem msManager_inv_count {w : MsWorld} (h : msManager.Inv w) {stats : GcStats}
    (htotal : stats.totalAllocated = w.stats.totalAllocated)
    (hpeak : stats.peakAllocated = w.stats.peakAllocated)
    (hclipped : stats.clipped = w.stats.clipped) : msManager.Inv { w with stats } :=
  ⟨h.rt.count htotal hpeak hclipped, h.heap, h.owns,
    { h.alg with total := htotal.trans h.alg.total }⟩

/-- `gc_marksweep_global_init`, when its request is granted. -/
theorem gcMarksweepGlobalInit_eq (w : MsWorld) (cfg : GcConfig)
    (hg : (gcMarksweepGlobalInit w cfg).mem.failed = false) :
    gcMarksweepGlobalInit w cfg =
      { w with mem := (w.mem.tryReserve 8).1, algoState := { objects := [] },
               stateBound := true } := by
  unfold gcMarksweepGlobalInit at hg ⊢
  rcases w.mem.reserve_cases 8 with hr | hr
  · simp [hr]
  · simp [hr, Mem.refuse] at hg

/-- A fresh runtime of mark-sweep has an empty heap. -/
theorem msCollector_starts {w : MsWorld} (h : msCollector.Starts w) : ∃ hooks, w.graph =
    { objs := fun _ => none, roots := fun _ => 0, handles := [], hooks, history := [],
      log := [] } :=
  h.graph fun init hinit w cfg => by
    obtain rfl := Option.some.inj hinit
    simp only [gcMarksweepGlobalInit, apply_ite World.graph, ite_self]

/-- Mark-sweep shows what an algorithm has to show. -/
theorem msManager_sound : msManager.Sound where
  pin := rfl
  unpin := rfl
  readBarrier := rfl
  rounded n hn hn' := ⟨hn, show n < 2 ^ 32 from Nat.lt_of_le_of_lt hn' (by decide)⟩
  reshape w graph mem h hs := by
    have hsize : ∀ n ∈ w.algoState.objects, graph.sizeAt n.obj = w.graph.sizeAt n.obj :=
      fun n hn => hs.sizeAt h.heap (List.mem_map_of_mem hn)
    exact ⟨rfl, objectBlocks_congr hsize,
      ⟨h.alg.unmarked, h.alg.total.trans (bytesOf_congr hsize).symm, h.alg.young, h.alg.old⟩⟩
  start w hw := by
    obtain ⟨cfg, hooks, mem, hcfg, hhooks, hmem, hcreate, hg⟩ := hw
    obtain ⟨a, m, hfit, hq, rfl⟩ := gcRuntimeCreate_cases hcreate
    have heq := gcMarksweepGlobalInit_eq (freshWorld (gcRuntimeApplyDefaultConfig cfg) hooks a m)
      (gcRuntimeApplyDefaultConfig cfg) hg.1
    show msManager.Inv (gcMarksweepGlobalInit _ (gcRuntimeApplyDefaultConfig cfg))
    rw [heq]
    refine ⟨freshWorld_ok hcfg hooks a m _ rfl rfl, heapInv_fresh hhooks, ?_, ?_⟩
    · exact ((hmem.grant hfit).quiet hq).quiet (m.quiet_tryReserve 8)
    · refine ⟨fun n hn => ?_, rfl, ⟨rfl, rfl, rfl⟩, rfl, rfl⟩
      exact absurd hn List.not_mem_nil
  alloc w desc size flags h hd hmax hg := msManager_alloc h hd hmax flags hg.1
  store w owner loc v h hl := by
    have hheap := h.heap.writeField hl.2.1 hl.2.2
    have hs : ∀ n ∈ w.algoState.objects,
        (w.graph.write (.field owner loc) v).sizeAt n.obj = w.graph.sizeAt n.obj :=
      fun n _ => w.graph.sizeAt_write (.field owner loc) v n.obj
    refine ⟨⟨?_, hheap, ?_, ?_⟩, rfl, rfl⟩
    · exact { h.rt with }
    · show w.mem.Owns ((w.self, sizeofRuntime) ::
        (objectBlocks (w.graph.write (.field owner loc) v) w.algoState.objects ++ _))
      rw [objectBlocks_congr hs]
      exact h.owns
    · exact ⟨h.alg.unmarked, h.alg.total.trans (bytesOf_congr hs).symm, h.alg.young, h.alg.old⟩
  minor w h hg := by
    have hmarks : (gcMarksweepCollectFullImpl w).losses.marks = [] := hg.2.2
    obtain ⟨hinv, hc⟩ := gcMarksweepCollectFullImpl_exact h hmarks
    exact ⟨msManager_inv_count hinv rfl rfl rfl, _, _, hc⟩
  major w h hg := by
    have hmarks : (gcMarksweepCollectFullImpl w).losses.marks = [] := hg.2.2
    obtain ⟨hinv, hc⟩ := gcMarksweepCollectFullImpl_exact h hmarks
    exact ⟨msManager_inv_count hinv rfl rfl rfl, _, hc⟩
  full w h hg := by
    have hmarks : (gcMarksweepCollectFullImpl w).losses.marks = [] := hg.2.2
    obtain ⟨hinv, hc⟩ := gcMarksweepCollectFullImpl_exact h hmarks
    exact ⟨msManager_inv_count hinv rfl rfl rfl, _, hc⟩

end Xgc
