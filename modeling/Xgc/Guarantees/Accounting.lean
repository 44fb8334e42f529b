import Xgc.Guarantees.Generational
import Xgc.Guarantees.MarkSweep

/-! What the counters of the runtime say: the lists of tracked objects, the card table and the
    counters agree between calls, the peak never decreases, and no saturating subtraction has ever
    been asked for more than its counter had. -/

namespace Xgc

variable {σ : Type}

/-! ### The peak -/

/-- The highest number of allocated bytes so far. -/
abbrev World.peak (w : World σ) : Nat := w.stats.peakAllocated

theorem gcAllocTyped_peak {algo : GcAlgorithmVtable σ}
    {alloc : World σ → GcDescriptor → Nat → BitVec 32 → World σ × Addr}
    (halloc : algo.alloc = some alloc) (hpost : algo.postAlloc = some fun w _ => w) {w : World σ}
    {desc : GcDescriptor} {size : Nat} {flags : BitVec 32}
    (h : sizeofHeader ≤ size → w.peak ≤ (alloc w desc size flags).1.peak) :
    w.peak ≤ (gcAllocTyped algo w desc size flags).1.peak := by
  unfold gcAllocTyped
  by_cases hsize : size < sizeofHeader
  · rw [if_pos hsize]
  rw [if_neg hsize]
  simp only [halloc, hpost, callHook]
  have hle := h (Nat.le_of_not_lt hsize)
  generalize alloc w desc size flags = r at hle
  obtain ⟨w₁, a⟩ := r
  by_cases h0 : a = 0
  · by_cases hm : (w₁.mem.malloc size).2 = 0
    · simpa [h0, hm] using hle
    · simpa [h0, hm, World.addObject] using hle
  · simpa [h0] using hle

theorem gcHandleAcquire_peak {algo : GcAlgorithmVtable σ}
    (hpin : algo.pin = some fun w obj => { w with
      graph := w.graph.modifyObj obj fun o => { o with flags := o.flags ||| objectFlagPinned } })
    (w : World σ) (obj : Addr) (flags : BitVec 32) :
    (gcHandleAcquire algo w obj flags).1.peak = w.peak := by
  unfold gcHandleAcquire
  simp only [hpin, callHook]
  split
  · rfl
  · split <;> rfl

theorem gcHandleRelease_peak {algo : GcAlgorithmVtable σ}
    (hunpin : algo.unpin = some fun w obj => { w with
      graph := w.graph.modifyObj obj fun o => { o with flags := o.flags &&& ~~~objectFlagPinned } })
    (w : World σ) (handle : Addr) : (gcHandleRelease algo w handle).peak = w.peak := by
  unfold gcHandleRelease
  simp only [hunpin, callHook]
  split
  · rfl
  · split
    · rfl
    · split <;> rfl

/-- No call lowers the peak when those that the algorithm takes part in do not. -/
theorem Manager.Sound.peak_le [Inhabited σ] {M : Manager σ} (hM : M.Sound) {w w' : World σ}
    {op : ClientOp} (hop : (op.perform M.toCollector w).1 = w')
    (halloc : ∀ desc size flags, w.peak ≤ (gcAllocTyped M.algo w desc size flags).1.peak)
    (hstore : ∀ owner loc v, (gcStoreRef M.algo w owner loc v).peak = w.peak)
    (hminor : w.peak ≤ (gcCollectMinor M.algo w).peak)
    (hmajor : w.peak ≤ (gcCollectMajor M.algo w).peak)
    (hfull : w.peak ≤ (gcCollectFull M.algo w).peak) : w.peak ≤ w'.peak := by
  subst hop
  cases op with
  | alloc desc size flags => exact halloc desc size flags
  | storeRef owner loc v => exact (hstore owner loc v).ge
  | loadRef place => exact le_refl _
  | writeBytes obj bytes => exact le_refl _
  | setRoot i v => exact le_refl _
  | acquire obj flags => exact (gcHandleAcquire_peak hM.pin w obj flags).ge
  | get handle => exact le_refl _
  | release handle => exact (gcHandleRelease_peak hM.unpin w handle).ge
  | collectMinor => exact hminor
  | collectMajor => exact hmajor
  | collectFull => exact hfull

/-! ### The generational collector -/

section Generational

variable {w : GenWorld}

theorem gcGenCollectMinorImpl_peak (h : (genManager True).Inv w) :
    w.peak ≤ (gcGenCollectMinorImpl w).peak := by
  by_cases hused : w.algoState.nurseryUsed = 0
  · rw [gcGenCollectMinorImpl_nil h hused]
  · obtain ⟨traced, hinv, -, -, heq⟩ := gcGenCollectMinorImpl_spec h hused
    rw [heq]
    exact hinv.copied.peak

theorem gcGenCollectFullImpl_peak (h : (genManager True).Inv w) :
    w.peak ≤ (gcGenCollectFullImpl w).peak := by
  obtain ⟨dropped, wl, m, b, heq, -⟩ := gcGenCollectFullImpl_spec h rfl
  rw [heq]
  exact gcGenCollectMinorImpl_peak h

theorem gcGenAddOldNode_stats (w : GenWorld) (obj : Addr) (size : Nat) :
    (gcGenAddOldNode w obj size).1.stats = w.stats := by
  unfold gcGenAddOldNode
  simp only
  split
  · rfl
  · split <;> rfl

theorem gcGenAllocOld_peak (w : GenWorld) (desc : GcDescriptor) (size : Nat) (flags : BitVec 32) :
    w.peak ≤ (gcGenAllocOld w desc size flags).1.peak := by
  unfold gcGenAllocOld
  have hstats := fun m a => gcGenAddOldNode_stats { w with mem := m } a (size % 2 ^ 32)
  simp only
  split
  · exact le_refl _
  · split
    · show w.peak ≤ (gcGenAddOldNode _ _ _).1.peak
      rw [World.peak, World.peak, hstats]
    · refine le_trans ?_ (GcStats.peak_le_add _ _)
      show w.peak ≤ (gcGenAddOldNode _ _ _).1.peak
      rw [World.peak, World.peak, hstats]

theorem gcGenAlloc_peak (h : (genManager True).Inv w) (desc : GcDescriptor) (size : Nat)
    (flags : BitVec 32) : w.peak ≤ (gcGenAlloc w desc size flags).1.peak := by
  have hroom : ∀ w₁ : GenWorld, w.peak ≤ w₁.peak → ∀ n,
      w.peak ≤ (if (w₁.algoState.nurseryUsed + n) % 2 ^ 64 ≤ w₁.algoState.nurseryCapacity then
        gcGenAllocYoung w₁ desc n else gcGenAllocOld w₁ desc n flags).1.peak := by
    intro w₁ hw₁ n
    split
    · exact hw₁.trans (GcStats.peak_le_add w₁.stats n)
    · exact hw₁.trans (gcGenAllocOld_peak w₁ desc n flags)
  unfold gcGenAlloc
  split
  · exact le_refl _
  · by_cases hyoung : flags &&& allocPinned = 0 ∧
        alignedSize size ≤ w.algoState.nurseryCapacity / 2
    · simp only [if_pos hyoung]
      by_cases hfull : (w.algoState.nurseryUsed + alignedSize size) % 2 ^ 64 >
          w.algoState.nurseryCapacity
      · rw [if_pos hfull]
        exact hroom _ (gcGenCollectMinorImpl_peak h) _
      · rw [if_neg hfull]
        exact hroom _ (le_refl _) _
    · simp only [if_neg hyoung]
      exact gcGenAllocOld_peak w desc _ flags

theorem gcGenWriteBarrier_peak (w : GenWorld) (owner : Addr) (loc : SlotLoc) (old v : Addr) :
    (gcGenWriteBarrier w owner loc old v).peak = w.peak := by
  unfold gcGenWriteBarrier
  repeat' split
  all_goals rfl

/-- The books of the generational collector. -/
structure GenAccounts (w : GenWorld) : Prop where
  nodup : w.old.Nodup
  owners : w.barriers.owners.Perm w.old
  entries : ∀ e ∈ w.barriers.oldToYoung.entries, e.ownerSize = w.graph.sizeAt e.ownerBase ∧
    e.cardCount = (w.graph.sizeAt e.ownerBase + w.barriers.oldToYoung.cardGranularity - 1) /
      w.barriers.oldToYoung.cardGranularity
  oldCount : w.heap.oldObjectCount = w.algoState.oldObjects.length
  oldBytes : w.heap.oldObjectBytes = (w.old.map w.graph.sizeAt).sum
  young : w.heap.youngUsed = w.algoState.nurseryUsed
  used : w.algoState.nurseryUsed ≤ w.algoState.nurseryCapacity
  total : w.stats.totalAllocated = w.algoState.nurseryUsed + w.heap.oldObjectBytes
  peak : w.stats.totalAllocated ≤ w.stats.peakAllocated
  exact : w.stats.clipped = false ∧ w.heap.clipped = false ∧ w.barriers.clipped = false

theorem bytesOf_eq_sum (g : Graph) (nodes : List GcNode) :
    bytesOf g nodes = ((nodes.map GcNode.obj).map g.sizeAt).sum := by
  rw [bytesOf, objectBlocks, List.map_map, List.map_map]
  rfl

theorem GenAccounts.of_inv (h : (genManager True).Inv w) : GenAccounts w := by
  have hlayout := h.alg.layout
  have hheap := hlayout.heap
  have hcount : w.heap.oldObjectCount = w.algoState.oldObjects.length := by rw [hheap]
  have hbytes : w.heap.oldObjectBytes = bytesOf w.graph w.algoState.oldObjects := by rw [hheap]
  refine ⟨(genManager_ok h).old_nodup, (List.perm_ext_iff_of_nodup h.rt.barriers.keys
    (genManager_ok h).old_nodup).mpr fun a => owners_iff hlayout a, fun e he => ?_, hcount,
    hbytes.trans (bytesOf_eq_sum _ _), by rw [hheap], hlayout.used_le, hbytes ▸ hlayout.total,
    h.rt.peak, h.rt.statsExact, h.rt.heapExact, h.rt.barriers.exact⟩
  have hok := h.rt.barriers.entries e he
  obtain ⟨hold, hsize⟩ := (hlayout.owners e.ownerBase e.ownerSize).mp ⟨e, he, rfl, rfl⟩
  refine ⟨hsize.symm, ?_⟩
  rw [hsize, hok.cards]
  exact cardCountFor_eq hok.size (hsize ▸ (hlayout.sized _ (List.mem_append_left _ hold)).2)
    h.rt.barriers.granularity h.rt.granularity

end Generational

/-! ### Mark-sweep -/

/-- The books of mark-sweep. -/
structure MsAccounts (w : MsWorld) : Prop where
  total : w.stats.totalAllocated = ((msCollector.tracked w).map w.graph.sizeAt).sum
  peak : w.stats.totalAllocated ≤ w.stats.peakAllocated
  exact : w.stats.clipped = false

theorem gcMarksweepAlloc_peak (w : MsWorld) (desc : GcDescriptor) (size : Nat)
    (flags : BitVec 32) : w.peak ≤ (gcMarksweepAlloc w desc size flags).1.peak := by
  unfold gcMarksweepAlloc
  split
  · exact le_refl _
  · simp only
    split
    · exact le_refl _
    · split
      · exact le_refl _
      · exact GcStats.peak_le_add w.stats size

theorem gcMarksweepCollectFullImpl_peak {w : MsWorld} (h : msManager.Inv w) :
    w.peak ≤ (gcMarksweepCollectFullImpl w).peak := by
  obtain ⟨dropped, wl, m, -, -, -, heq⟩ := gcMarksweepCollectFullImpl_spec h
  rw [heq]

/-- In every state that a run leads to the books are in order, and no step lowers the peak. -/
theorem accounts_exact :
    (∀ w, genCollector.Reaches w → GenAccounts w ∧
      ∀ op w', genCollector.Step w op w' → w.peak ≤ w'.peak) ∧
    (∀ w, msCollector.Reaches w → MsAccounts w ∧
      ∀ op w', msCollector.Step w op w' → w.peak ≤ w'.peak) := by
  constructor
  · intro w hw
    have h := genManager_reaches hw
    refine ⟨.of_inv h, fun op w' hs => ?_⟩
    exact (genManager_sound : (genManager True).Sound).peak_le hs.2.1
      (fun desc size flags => gcAllocTyped_peak rfl rfl fun _ => gcGenAlloc_peak h desc size flags)
      (fun owner loc v => gcGenWriteBarrier_peak _ owner loc (w.graph.slot owner loc) v) (gcGenCollectMinorImpl_peak h)
      (gcGenCollectFullImpl_peak h) (gcGenCollectFullImpl_peak h)
  · intro w hw
    have h := msManager_reaches hw
    have hcollect := gcMarksweepCollectFullImpl_peak h
    refine ⟨⟨?_, h.rt.peak, h.rt.statsExact⟩, fun op w' hs => ?_⟩
    · exact h.alg.total.trans (bytesOf_eq_sum _ _)
    · exact msManager_sound.peak_le hs.2.1
        (fun desc size flags => gcAllocTyped_peak rfl rfl fun _ =>
          gcMarksweepAlloc_peak w desc size flags)
        (fun _ _ _ => rfl) hcollect hcollect hcollect

theorem accounts_exact_sample : GenAccounts genRemembering ∧ MsAccounts msSample :=
  ⟨(accounts_exact.1 _ genRemembering_reaches).1, (accounts_exact.2 _ msSample_reaches).1⟩

end Xgc
