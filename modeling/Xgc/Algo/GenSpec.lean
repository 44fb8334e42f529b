import Xgc.Algo.GenSweep

/-! The generational collector keeps its invariant and is lawful: between calls storage and counters
    are in order, every reference from an old object to a young one lies on a dirty card, and no
    card is dirty while the nursery is empty. -/

namespace Xgc

open Lib (Reach Block)
open GcBarrierSet (cardIndexFor)

/-- The invariant of the generational state. It is `tidy` when no card is dirty while the nursery is
    empty. -/
structure GenAlg (tidy : Prop) (w : GenWorld) : Prop where
  layout : GenLayout w (nurseryObjects w)
  capacity : w.algoState.nurseryCapacity ≤ ptrdiffMax
  remembered : Remembered w (nurseryObjects w)
  clean : tidy → w.algoState.nurseryUsed = 0 → ∀ o c, ¬ w.barriers.Dirty o c
  refused : w.losses.refused = []
  copies : w.losses.copies = []
  cards : w.losses.cards = false

/-- The generational collector as a client sees it. -/
def genCollector : Collector GenState where
  algo := gcGenCopyMsVtable
  tracked := fun w : GenWorld => w.old ++ nurseryObjects w
  rounded := alignedSize
  maxSize := 2 ^ 32 - 8

/-- The generational collector with its storage and its invariant. -/
def genManager (tidy : Prop) : Manager GenState where
  toCollector := genCollector
  blocks := genBlocks
  Alg := GenAlg tidy

variable {tidy : Prop} {w : GenWorld}

theorem genManager_ok (h : (genManager tidy).Inv w) : GenOk w (nurseryObjects w) :=
  ⟨h.rt, h.owns, h.alg.layout⟩

theorem genManager_start (h : (genManager tidy).Inv w) : MinorStart w (nurseryObjects w) :=
  ⟨genManager_ok h, h.heap, h.alg.refused, h.alg.copies, h.alg.cards⟩

theorem nurseryObjects_nil (h : w.algoState.nurseryUsed = 0) : nurseryObjects w = [] := by
  rw [nurseryObjects, h]
  rfl

theorem tracked_nil (h : w.algoState.nurseryUsed = 0) : genCollector.tracked w = w.old := by
  show w.old ++ nurseryObjects w = w.old
  rw [nurseryObjects_nil h, List.append_nil]

/-- The invariant of a runtime whose nursery is empty. -/
theorem genManager_inv_nil (hok : GenOk w []) (hheap : HeapInv w.graph w.old)
    (hcap : w.algoState.nurseryCapacity ≤ ptrdiffMax)
    (hclean : tidy → ∀ o c, ¬ w.barriers.Dirty o c) (hrefused : w.losses.refused = [])
    (hcopies : w.losses.copies = []) (hcards : w.losses.cards = false) :
    (genManager tidy).Inv w := by
  have hnil : nurseryObjects w = [] := nurseryObjects_nil hok.layout.tiles
  have hlayout := hok.layout
  refine ⟨hok.rt, ?_, hok.owns, ⟨by rwa [hnil], hcap, ?_, fun ht _ => hclean ht, hrefused, hcopies,
    hcards⟩⟩
  · show HeapInv w.graph (genCollector.tracked w)
    rw [tracked_nil hok.layout.tiles]
    exact hheap
  · rw [hnil]
    exact fun a _ p hp => nomatch hp

/-- What has been refused may be forgotten. -/
theorem GenOk.cleared {ys : List Nat} (h : GenOk w ys) : GenOk w.cleared ys :=
  ⟨h.rt.reshape h.rt.runtime _, h.owns.congr rfl rfl, h.layout.reshape (fun _ _ => rfl) _⟩

theorem genManager_inv_cleared (h : (genManager tidy).Inv w) : (genManager tidy).Inv w.cleared := by
  have hok := (genManager_ok h).cleared
  exact ⟨hok.rt, h.heap, hok.owns, hok.layout, h.alg.capacity, h.alg.remembered, h.alg.clean, rfl,
    rfl, rfl⟩

/-! ### Minor collections -/

/-- What a minor collection does that loses nothing: it keeps what is live, old objects where they
    are and young objects as new old objects, and leaves the nursery empty. -/
structure MinorExact (w w' : GenWorld) (φ : Addr → Addr) : Prop where
  collected : Collected w.graph w'.graph (genCollector.tracked w) (genCollector.tracked w')
    (minorLive w.graph w.old) φ
  old : ∀ a ∈ w.old, φ a = a ∧ a ∈ w'.old
  young : ∀ a ∈ nurseryObjects w, a ∈ minorLive w.graph w.old → φ a ∈ w'.old ∧ φ a ∉ w.old
  used : w'.algoState.nurseryUsed = 0

/-- A minor collection that starts here is refused nothing that matters. -/
def MinorSpared (w : GenWorld) : Prop :=
  w.algoState.nurseryUsed ≠ 0 → Harmless w (nurseryObjects w) (gcGenMinorTraceAll w).rt.losses

theorem minorLive_tracked (h : (genManager tidy).Inv w) {a : Addr}
    (ha : a ∈ minorLive w.graph w.old) : a ∈ genCollector.tracked w := by
  refine ha.mem_of_closed (S := {a | a ∈ genCollector.tracked w}) ?_ ?_
  · rintro b (hb | hb)
    · exact h.heap.mem_of_reachable (.root hb)
    · exact List.mem_append_left _ hb
  · rintro b c hb ⟨h0, p, rfl⟩
    exact (h.heap.fields b hb p).resolve_left h0

/-- With an empty nursery there is nothing to do. -/
theorem MinorExact.refl (h : (genManager tidy).Inv w) (hused : w.algoState.nurseryUsed = 0) :
    MinorExact w w id := by
  have htracked := tracked_nil hused
  have hlive : minorLive w.graph w.old = {a | a ∈ genCollector.tracked w} := by
    refine Set.Subset.antisymm (fun a ha => minorLive_tracked h ha) fun a ha => ?_
    rw [htracked] at ha
    exact Reach.root (.inr ha)
  refine ⟨?_, fun a ha => ⟨rfl, ha⟩, fun a ha => ?_, hused⟩
  · rw [hlive]
    exact .refl h.heap
  · rw [nurseryObjects_nil hused] at ha
    exact nomatch ha

/-- What is known of a minor collection on a nursery that is not empty, whatever was refused. -/
theorem gcGenCollectMinorImpl_spec (h : (genManager tidy).Inv w)
    (hused : w.algoState.nurseryUsed ≠ 0) :
    ∃ traced, MinorInv w (nurseryObjects w) (gcGenMinorTraceAll w) traced
        (skipped w (gcGenMinorTraceAll w).rt) ∧
      (gcGenMinorTraceAll w).wl.items = [] ∧
      ((gcGenMinorTraceAll w).rt.mem.failed = false →
        (gcGenMinorTraceAll w).rt.losses.cards = false ∧
          ∀ o c, ¬ (gcGenMinorTraceAll w).rt.barriers.Dirty o c) ∧
      gcGenCollectMinorImpl w = minorEnd (gcGenMinorTraceAll w) (nurseryObjects w) := by
  have hs := genManager_start h
  obtain ⟨traced, hinv, hend, hg⟩ := gcGenMinorTraceAll_spec hs h.alg.remembered rfl
  exact ⟨traced, hinv, hend, hg, gcGenCollectMinorImpl_eq hs hused rfl hinv⟩

/-- On an empty nursery a minor collection does nothing. -/
theorem gcGenCollectMinorImpl_nil (h : (genManager tidy).Inv w)
    (hused : w.algoState.nurseryUsed = 0) : gcGenCollectMinorImpl w = w := by
  have hspace := Nat.pos_iff_ne_zero.mp (genManager_ok h).space_range.1
  simp [gcGenCollectMinorImpl, h.rt.bound, hspace, hused]

/-- After a minor collection the old objects can be marked and swept, whatever was refused. -/
theorem gcGenCollectMinorImpl_ok (h : (genManager tidy).Inv w) :
    GenOk (gcGenCollectMinorImpl w) [] ∧
    (gcGenCollectMinorImpl w).algoState.nurseryCapacity = w.algoState.nurseryCapacity ∧
    Markable (gcGenCollectMinorImpl w).graph (gcGenCollectMinorImpl w).old ∧
    ∀ a ∈ (gcGenCollectMinorImpl w).old, Reclaimable (gcGenCollectMinorImpl w).graph a := by
  by_cases hused : w.algoState.nurseryUsed = 0
  · have hok := genManager_ok h
    have heap : HeapInv w.graph (genCollector.tracked w) := h.heap
    rw [tracked_nil hused] at heap
    rw [nurseryObjects_nil hused] at hok
    rw [gcGenCollectMinorImpl_nil h hused]
    exact ⟨hok, rfl, heap.markable, fun a ha => heap.reclaimable ha⟩
  · have hs := genManager_start h
    obtain ⟨traced, hinv, -, -, heq⟩ := gcGenCollectMinorImpl_spec h hused
    rw [heq]
    obtain ⟨h₁, h₂, h₃, h₄⟩ := hinv.copied.markable hs
    have hr := hinv.copied.reclaimable_old hs
    exact ⟨hinv.copied.minorEnd hinv.gray.worklist, hinv.copied.capacity, ⟨h₁, h₂, h₃, h₄⟩, hr⟩

/-- A minor collection leaves the nursery where it is. -/
theorem gcGenCollectMinorImpl_space (h : (genManager tidy).Inv w) :
    (gcGenCollectMinorImpl w).algoState.nurserySpace = w.algoState.nurserySpace ∧
      (gcGenCollectMinorImpl w).algoState.nurseryCapacity = w.algoState.nurseryCapacity := by
  by_cases hused : w.algoState.nurseryUsed = 0
  · rw [gcGenCollectMinorImpl_nil h hused]
    exact ⟨rfl, rfl⟩
  · obtain ⟨traced, hinv, -, -, heq⟩ := gcGenCollectMinorImpl_spec h hused
    rw [heq]
    exact ⟨hinv.copied.space, hinv.copied.capacity⟩

theorem gcGenCollectMinorImpl_marks (h : (genManager tidy).Inv w) :
    (gcGenCollectMinorImpl w).losses.marks = w.losses.marks := by
  by_cases hused : w.algoState.nurseryUsed = 0
  · rw [gcGenCollectMinorImpl_nil h hused]
  · obtain ⟨traced, hinv, -, -, heq⟩ := gcGenCollectMinorImpl_spec h hused
    rw [heq]
    exact hinv.copied.marks

/-- A minor collection that is refused nothing that matters is exact. -/
theorem gcGenCollectMinorImpl_spared (h : (genManager tidy).Inv w) (hspared : MinorSpared w) :
    ∃ φ, MinorExact w (gcGenCollectMinorImpl w) φ := by
  by_cases hused : w.algoState.nurseryUsed = 0
  · rw [gcGenCollectMinorImpl_nil h hused]
    exact ⟨id, .refl h hused⟩
  have hs := genManager_start h
  obtain ⟨traced, hinv, hend, -, heq⟩ := gcGenCollectMinorImpl_spec h hused
  set ctx := gcGenMinorTraceAll w with hctx
  have hset : Settled w (nurseryObjects w) ctx.rt :=
    (hinv.settled_iff hs hend).mpr (hspared hused)
  have hcol := hinv.collected hs hset
  rw [hinv.kept_eq_live hs hset] at hcol
  rw [heq]
  refine ⟨forwardOf ctx.rt.fwd, ?_, fun a ha => ⟨hinv.copied.forwardOf_old ha, ?_⟩,
    fun a ha hlive => ?_, rfl⟩
  · rw [tracked_nil (w := minorEnd ctx (nurseryObjects w)) rfl]
    exact hcol
  · exact hinv.copied.mem_old.mpr (.inr ha)
  · rw [← hinv.kept_eq_live hs hset] at hlive
    refine ⟨hinv.copied.forwardOf_mem hlive, ?_⟩
    rcases hlive with ho | ⟨t, hm⟩
    · exact absurd ha ((genManager_ok h).old_notMem ho)
    · rw [hinv.copied.forwardOf_moved hm]
      exact hinv.copied.to_notMem_old₀ hm

/-- A collection whose requests have all been granted has been spared, and leaves all cards clean. -/
theorem gcGenCollectMinorImpl_granted (h : (genManager tidy).Inv w)
    (hf : (gcGenCollectMinorImpl w).mem.failed = false)
    (hc : (gcGenCollectMinorImpl w).losses.copies = []) :
    MinorSpared w ∧ (gcGenCollectMinorImpl w).losses.refused = [] ∧
      (gcGenCollectMinorImpl w).losses.cards = false ∧
      (tidy ∨ w.algoState.nurseryUsed ≠ 0 →
        ∀ o c, ¬ (gcGenCollectMinorImpl w).barriers.Dirty o c) := by
  by_cases hused : w.algoState.nurseryUsed = 0
  · rw [gcGenCollectMinorImpl_nil h hused]
    exact ⟨fun hne => absurd hused hne, h.alg.refused, h.alg.cards,
      fun ht => h.alg.clean (ht.resolve_right fun hne => hne hused) hused⟩
  obtain ⟨traced, hinv, hend, hg, heq⟩ := gcGenCollectMinorImpl_spec h hused
  rw [heq] at hf hc ⊢
  obtain ⟨hcards, hclean⟩ := hg hf
  have hrefused := hinv.stale.granted hf
  have hcopies : (gcGenMinorTraceAll w).rt.losses.copies = [] := hc
  refine ⟨fun _ => ⟨hrefused, fun ht => ?_, fun v _ hd => ?_⟩, hrefused, hcards, fun _ => hclean⟩
  · rw [hcards] at ht
    exact nomatch ht
  · rw [hcopies] at hd
    exact nomatch hd

/-- The heap after an exact minor collection. -/
theorem MinorExact.heapInv {φ : Addr → Addr} (h : (genManager tidy).Inv w)
    (he : MinorExact w (gcGenCollectMinorImpl w) φ) :
    HeapInv (gcGenCollectMinorImpl w).graph (gcGenCollectMinorImpl w).old := by
  have hheap := he.collected.heapInv h.heap
  rwa [tracked_nil he.used] at hheap

/-- A minor collection none of whose requests is refused is exact, and keeps the invariant. -/
theorem gcGenCollectMinorImpl_exact (h : (genManager tidy).Inv w)
    (hf : (gcGenCollectMinorImpl w).mem.failed = false)
    (hc : (gcGenCollectMinorImpl w).losses.copies = []) :
    (genManager tidy).Inv (gcGenCollectMinorImpl w) ∧
      ∃ φ, MinorExact w (gcGenCollectMinorImpl w) φ := by
  obtain ⟨hspared, hrefused, hcards, hclean⟩ := gcGenCollectMinorImpl_granted h hf hc
  obtain ⟨φ, he⟩ := gcGenCollectMinorImpl_spared h hspared
  obtain ⟨hok, hcap, -⟩ := gcGenCollectMinorImpl_ok h
  exact ⟨genManager_inv_nil hok (he.heapInv h) (hcap ▸ h.alg.capacity) (fun ht => hclean (.inl ht))
    hrefused hc hcards, φ, he⟩

/-! ### Major and full collections -/

open Classical in
/-- A full collection is a minor collection and a sweep of the old objects. -/
theorem gcGenCollectFullImpl_spec (h : (genManager tidy).Inv w) {w₁ : GenWorld}
    (hw₁ : gcGenCollectMinorImpl w = w₁) :
    ∃ (dropped : List Nat) (wl : GcWorklist) (m : Mem) (b : GcBarrierSet),
      gcGenCollectFullImpl w = swept w₁ (oldLive w₁ dropped) m b wl dropped ∧
      m.failed = w₁.mem.failed ∧ (∀ o c, b.Dirty o c → w₁.barriers.Dirty o c) ∧
      GenOk (swept w₁ (oldLive w₁ dropped) m b wl dropped) [] := by
  obtain ⟨hok, -, hk, hr⟩ := gcGenCollectMinorImpl_ok h
  rw [hw₁] at hok hk hr
  obtain ⟨dropped, wl, m, b, heq, hfail, hm, hwl, hb⟩ := gcGenMarkSweep_spec hok hk hr
  rw [gcGenCollectFullImpl_eq h.rt.bound, hw₁]
  exact ⟨dropped, wl, m, b, heq, hfail, fun o c hd => ((hb.dirty o c).mp hd).1,
    hok.sweep (oldLive w₁ dropped) hm hwl hb⟩

open Classical in
/-- An exact minor collection and a sweep of what is unreachable together keep what is reachable. -/
theorem MinorExact.swept {φ : Addr → Addr} (h : (genManager tidy).Inv w)
    (he : MinorExact w (gcGenCollectMinorImpl w) φ) {m : Mem} {b : GcBarrierSet} {wl : GcWorklist}
    {dropped : List Nat} :
    Collected w.graph
      (swept (gcGenCollectMinorImpl w) (gcGenCollectMinorImpl w).graph.Reachable m b wl dropped).graph
      (genCollector.tracked w)
      (swept (gcGenCollectMinorImpl w) (gcGenCollectMinorImpl w).graph.Reachable m b wl dropped).old
      {a | w.graph.Reachable a} φ := by
  have hheap := he.heapInv h
  have hcol := he.collected
  rw [tracked_nil he.used] at hcol
  set w₁ := gcGenCollectMinorImpl w with hw₁
  have htrans := hcol.trans h.heap hheap.collected_sweep
  have hkeep : {a | a ∈ minorLive w.graph w.old ∧ φ a ∈ {b | w₁.graph.Reachable b}} =
      {a | w.graph.Reachable a} := by
    ext a
    constructor
    · rintro ⟨ha, hr⟩
      obtain ⟨a', ha', he'⟩ := (hcol.reachable_iff h.heap (φ a)).mp hr
      rw [← hcol.inj (hcol.closed.reachable ha') ha he']
      exact ha'
    · intro ha
      exact ⟨hcol.closed.reachable ha, (hcol.reachable_iff h.heap (φ a)).mpr ⟨a, ha, rfl⟩⟩
  rw [hkeep] at htrans
  exact htrans

/-- A full collection leaves the nursery where it is. -/
theorem gcGenCollectFullImpl_space (h : (genManager tidy).Inv w) :
    (gcGenCollectFullImpl w).algoState.nurserySpace = w.algoState.nurserySpace ∧
      (gcGenCollectFullImpl w).algoState.nurseryCapacity = w.algoState.nurseryCapacity := by
  obtain ⟨dropped, wl, m, b, heq, -⟩ := gcGenCollectFullImpl_spec h rfl
  rw [heq]
  exact gcGenCollectMinorImpl_space h

/-- A full collection that is refused nothing that matters keeps exactly what is reachable. -/
theorem gcGenCollectFullImpl_spared (h : (genManager tidy).Inv w) (hminor : MinorSpared w)
    (hfull : ∀ a, (gcGenCollectMinorImpl w).graph.Reachable a →
      liveThrough (gcGenCollectMinorImpl w).graph (gcGenCollectFullImpl w).losses.marks a) :
    GenOk (gcGenCollectFullImpl w) [] ∧
      (gcGenCollectFullImpl w).algoState.nurseryCapacity = w.algoState.nurseryCapacity ∧
      (∀ o c, (gcGenCollectFullImpl w).barriers.Dirty o c →
        (gcGenCollectMinorImpl w).barriers.Dirty o c) ∧
      ∃ φ, MinorExact w (gcGenCollectMinorImpl w) φ ∧
        Collected w.graph (gcGenCollectFullImpl w).graph (genCollector.tracked w)
          (gcGenCollectFullImpl w).old {a | w.graph.Reachable a} φ := by
  classical
  obtain ⟨dropped, wl, m, b, heq, hfail, hdirty, hok⟩ := gcGenCollectFullImpl_spec h rfl
  obtain ⟨φ, he⟩ := gcGenCollectMinorImpl_spared h hminor
  have hheap := he.heapInv h
  rw [heq] at hfull ⊢
  have hlive : oldLive (gcGenCollectMinorImpl w) dropped =
      (gcGenCollectMinorImpl w).graph.Reachable := by
    funext a
    refine propext ((hheap.mark_reach (fun a => (gcGenCollectMinorImpl w).graph.tagAt a ∉ dropped)
      a).trans ⟨liveThrough_reachable, fun hr => ?_⟩)
    exact liveThrough_mono (fun t ht => List.mem_append_right _ ht) (hfull a hr)
  simp only [hlive] at hok hdirty ⊢
  refine ⟨hok, ?_, hdirty, φ, he, he.swept h⟩
  exact (gcGenCollectMinorImpl_ok h).2.1

/-- A full collection none of whose requests is refused keeps exactly what is reachable. -/
theorem gcGenCollectFullImpl_exact (h : (genManager tidy).Inv w)
    (hg : (gcGenCollectFullImpl w).Granted) :
    (genManager tidy).Inv (gcGenCollectFullImpl w) ∧
      (gcGenCollectFullImpl w).algoState.nurseryUsed = 0 ∧
      ∃ φ, MinorExact w (gcGenCollectMinorImpl w) φ ∧
        Collected w.graph (gcGenCollectFullImpl w).graph (genCollector.tracked w)
          (genCollector.tracked (gcGenCollectFullImpl w)) {a | w.graph.Reachable a} φ := by
  classical
  obtain ⟨dropped, wl, m, b, heq, hfail, -, -⟩ := gcGenCollectFullImpl_spec h rfl
  obtain ⟨hf, hc, hmarks⟩ := hg
  rw [heq] at hf hc
  obtain ⟨hminor, hrefused, hcards, hclean⟩ := gcGenCollectMinorImpl_granted h (hfail ▸ hf) hc
  obtain ⟨hok, hcap, hdirty, φ, he, hcol⟩ := gcGenCollectFullImpl_spared h hminor fun a ha => by
    rw [hmarks]
    exact (liveThrough_nil _ a).mpr ha
  have htracked := tracked_nil hok.layout.tiles
  refine ⟨genManager_inv_nil hok ?_ (hcap ▸ h.alg.capacity)
    (fun ht o c hd => hclean (.inl ht) o c (hdirty o c hd)) ?_ ?_ ?_, hok.layout.tiles, φ, he, ?_⟩
  · rw [← htracked] at hcol ⊢
    exact hcol.heapInv h.heap
  · rw [heq]
    exact hrefused
  · rw [heq]
    exact hc
  · rw [heq]
    exact hcards
  · rw [htracked]
    exact hcol

end Xgc
