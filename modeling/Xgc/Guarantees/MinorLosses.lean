import Xgc.Algo.Spared
import Xgc.Guarantees.Generational

/-! What a minor collection does to live objects when requests for memory are refused. The
    collection never goes back to a place whose object it could not copy, and it resets the nursery
    in any case, so a live object is lost exactly when some place still refers to a young object at
    the end: `MinorSpared` says in terms of the refused requests when there is no such place. -/

namespace Xgc

open Lib (Reach)

/-- Every object that roots, handles and old objects led to is intact: they lead to it where it is
    now, which is memory that the collector treats as allocated, it has its contents, and its
    finalizer has not been called. -/
structure Intact (w w' : GenWorld) (φ : Addr → Addr) : Prop where
  zero : φ 0 = 0
  roots : ∀ i, w'.graph.roots i = φ (w.graph.roots i)
  handles : w'.graph.handles = w.graph.handles.map (GcHandle.mapTarget φ)
  objs : ∀ a ∈ minorLive w.graph w.old, ∀ o, w.graph.objs a = some o →
    w'.graph.objs (φ a) = some (o.mapSlots φ)
  allocated : ∀ a ∈ minorLive w.graph w.old, φ a ∈ genCollector.tracked w'
  finalized : ∀ a ∈ minorLive w.graph w.old, .finalize (w.graph.tagAt a) ∉ w'.graph.log

/-- The finalizers of tracked objects have not been called. -/
theorem HeapInv.not_finalized {g : Graph} {tracked : List Addr} (h : HeapInv g tracked) {a : Addr}
    (ha : a ∈ tracked) : .finalize (g.tagAt a) ∉ g.log := by
  obtain ⟨dead, hl⟩ := h.lives
  rw [hl.log]
  intro hm
  obtain ⟨t, ht, hm⟩ := List.mem_flatMap.mp hm
  obtain ⟨rfl, -⟩ := (finalize_mem_deathsOf _ _ _).mp hm
  exact hl.disjoint a ha ht

variable {w w' : GenWorld} {φ : Addr → Addr}

/-- Only the graph and the tracked objects of the state after the collection matter. -/
theorem Intact.congr {w'' : GenWorld} (h : Intact w w' φ) (hgraph : w''.graph = w'.graph)
    (htracked : genCollector.tracked w'' = genCollector.tracked w') : Intact w w'' φ where
  zero := h.zero
  roots i := by rw [hgraph]; exact h.roots i
  handles := by rw [hgraph]; exact h.handles
  objs a ha o ho := by rw [hgraph]; exact h.objs a ha o ho
  allocated a ha := by rw [htracked]; exact h.allocated a ha
  finalized a ha := by rw [hgraph]; exact h.finalized a ha

/-- An exact collection leaves all live objects intact. -/
theorem MinorExact.intact (h : HeapInv w.graph (genCollector.tracked w))
    (he : MinorExact w w' φ) : Intact w w' φ where
  zero := he.collected.zero
  roots := he.collected.roots
  handles := he.collected.handles
  objs := he.collected.objs
  allocated _ ha := he.collected.mem ha
  finalized a ha := by
    rw [← he.collected.tagAt h ha]
    exact (he.collected.heapInv h).not_finalized (he.collected.mem ha)

/-- What a live object refers to is live. -/
theorem minorLive_slot {a : Addr} (ha : a ∈ minorLive w.graph w.old) (p : SlotLoc) :
    w.graph.slot a p = 0 ∨ w.graph.slot a p ∈ minorLive w.graph w.old := by
  by_cases h0 : w.graph.slot a p = 0
  · exact .inl h0
  · exact .inr (Reach.step ha ⟨h0, p, rfl⟩)

namespace Intact

variable {ys : List Nat} {ctx : GcGenMinorCtx} {traced : List Addr} {todo : Set SlotRef}

/-- Where live objects are intact, no place refers to what was in the nursery. -/
theorem notMem (h : Copied w ys ctx.rt) (hi : Intact w (minorEnd ctx ys) φ) {v : Addr}
    (hv : v = 0 ∨ v ∈ minorLive w.graph w.old) : φ v ∉ ys := by
  rcases hv with rfl | hv
  · rw [hi.zero]
    exact fun hy => h.ok.young_ne_zero hy rfl
  · have hold := hi.allocated v hv
    rw [tracked_nil (w := minorEnd ctx ys) rfl] at hold
    exact h.ok.old_notMem hold

/-- An object that has been kept can only be where the collection has put it. -/
theorem eq_forwardOf (hs : MinorStart w ys) (h : MinorInv w ys ctx traced todo)
    (hi : Intact w (minorEnd ctx ys) φ) {a : Addr} (ha : a ∈ minorKept w ctx.rt) :
    φ a = forwardOf ctx.rt.fwd a := by
  have hlive := h.live_of_kept hs ha
  obtain ⟨o, ho, -⟩ := hs.heap.objs a (h.copied.kept_sub ha)
  have hold := hi.allocated a hlive
  rw [tracked_nil (w := minorEnd ctx ys) rfl] at hold
  have htag : ctx.rt.graph.tagAt (φ a) = w.graph.tagAt a := by
    have hobj : ctx.rt.graph.objs (φ a) = some (o.mapSlots φ) := hi.objs a hlive o ho
    rw [Graph.tagAt_eq ho, Graph.tagAt_eq hobj]
    rfl
  refine (h.copied.markable hs).tags hold (h.copied.forwardOf_mem ha) ?_
  rw [htag, h.copied.tag_forward hs ha]

theorem slot_notMem (hs : MinorStart w ys) (h : MinorInv w ys ctx traced todo)
    (hi : Intact w (minorEnd ctx ys) φ) {a : Addr} (ha : a ∈ minorKept w ctx.rt) (p : SlotLoc) :
    ctx.rt.graph.slot (forwardOf ctx.rt.fwd a) p ∉ ys := by
  have hlive := h.live_of_kept hs ha
  obtain ⟨o, ho, -⟩ := hs.heap.objs a (h.copied.kept_sub ha)
  have hslot : ctx.rt.graph.slot (φ a) p = φ (w.graph.slot a p) := by
    rw [Graph.slot_eq ho]
    exact Graph.slot_eq (g := ctx.rt.graph) (hi.objs a hlive o ho) p
  rw [← hi.eq_forwardOf hs h ha, hslot]
  exact hi.notMem h.copied (minorLive_slot hlive p)

/-- Where live objects are intact, the collection has settled all places. -/
theorem settled (hs : MinorStart w ys) (h : MinorInv w ys ctx traced todo)
    (hi : Intact w (minorEnd ctx ys) φ) : Settled w ys ctx.rt where
  held r hr := by
    cases r with
    | root i =>
      have hroot : ctx.rt.graph.roots i = φ (w.graph.roots i) := hi.roots i
      show ctx.rt.graph.roots i ∉ ys
      rw [hroot]
      refine hi.notMem h.copied ?_
      by_cases h0 : w.graph.roots i = 0
      · exact .inl h0
      · exact .inr (Reach.root (.inl ⟨h0, .inl ⟨i, rfl⟩⟩))
    | handle a =>
      obtain ⟨k, hk, rfl⟩ := List.mem_map.mp (show a ∈ w.graph.handles.map GcHandle.addr from hr)
      have hmaps := h.copied.handles.symm.trans
        (show ctx.rt.graph.handles = w.graph.handles.map (GcHandle.mapTarget φ) from hi.handles)
      have htarget : ctx.rt.graph.target k.addr = φ k.target :=
        congrArg GcHandle.target (List.map_inj_left.mp hmaps k hk)
      show ctx.rt.graph.target k.addr ∉ ys
      rw [htarget]
      have hne := hs.heap.ne_zero (hs.heap.handles k hk)
      exact hi.notMem h.copied (.inr (Reach.root (.inl ⟨hne, .inr ⟨k, hk, rfl⟩⟩)))
    | field a p =>
      have hold : a ∈ w.old := hr
      have hslot := hi.slot_notMem hs h (.inl hold) p
      rwa [h.copied.forwardOf_old hold] at hslot
  fields v t hm p := by
    have hslot := hi.slot_notMem hs h (.inr ⟨t, hm⟩) p
    rwa [h.copied.forwardOf_moved hm] at hslot

end Intact

/-- A minor collection leaves the live objects intact exactly when it is spared. -/
theorem gcGenCollectMinorImpl_intact_iff {tidy : Prop} (h : (genManager tidy).Inv w) :
    (∃ φ, Intact w (gcGenCollectMinorImpl w) φ) ↔ MinorSpared w := by
  constructor
  · rintro ⟨φ, hi⟩ hused
    have hs := genManager_start h
    obtain ⟨traced, hinv, hend, -, heq⟩ := gcGenCollectMinorImpl_spec h hused
    rw [heq] at hi
    exact (hinv.settled_iff hs hend).mp (hi.settled hs hinv)
  · intro hspared
    obtain ⟨φ, he⟩ := gcGenCollectMinorImpl_spared h hspared
    exact ⟨φ, he.intact h.heap⟩

/-- In every state that spared calls lead to, a minor collection leaves the live objects intact
    exactly when no request for a copy is refused on the last visit of its place, the snapshot of the
    dirty cards is refused only while no old object refers to a young one, and the worklist drops only
    copies that refer to no young object. -/
theorem gcCollectMinor_intact_iff (hw : genCollector.Endures genSpared w) :
    (∃ φ, Intact w (gcCollectMinor gcGenCopyMsVtable w) φ) ↔ MinorSpared w := by
  have h := genManager_sparing.endures hw
  rw [← gcGenCollectMinorImpl_intact_iff h]
  -- the framework only counts the collection
  exact exists_congr fun φ => ⟨fun hi => hi.congr rfl rfl, fun hi => hi.congr rfl rfl⟩

/-- A machine whose scanner reports its root slot twice. -/
def twiceHooks : GcVmHooks where
  scanRoots := some fun _ => [0, 0]
  rootSlots := [0]

theorem twiceHooks_ok : twiceHooks.Ok := fun _ _ hi _ =>
  ⟨_, rfl, List.mem_cons_of_mem 0 hi⟩

def genTwiceStart : GenWorld :=
  (gcRuntimeCreate (sampleConfig 128) gcGenCopyMsVtable twiceHooks
    (sampleMem fun k => k == 4)).get (by decide +kernel)

/-- A young cell in that slot, and an allocator that refuses the first request for its copy. -/
def genTwice : GenWorld := genCollector.rootCell 0 genTwiceStart

theorem genTwice_reaches : genCollector.Reaches genTwice := by
  have h0 : 0 < 2 ^ 64 := by decide
  have hstart : genCollector.Starts genTwiceStart :=
    ⟨sampleConfig 128, twiceHooks, sampleMem _, ⟨h0, h0, by decide, h0, h0⟩, twiceHooks_ok,
      sampleMem_owns _, (Option.some_get _).symm, by decide +kernel⟩
  exact hstart.reaches.rootCell (by decide) (by decide +kernel) (by decide +kernel)
    (by decide +kernel)

/-- The second visit of the slot gets the copy that the first one was refused. -/
theorem gcCollectMinor_intact_sample :
    (gcCollectMinor gcGenCopyMsVtable genTwice).mem.failed = true ∧
      ∃ φ, Intact genTwice (gcCollectMinor gcGenCopyMsVtable genTwice) φ := by
  have hcopies : (gcGenMinorTraceAll genTwice).rt.losses.copies = [] := by decide +kernel
  have hcards : (gcGenMinorTraceAll genTwice).rt.losses.cards = false := by decide +kernel
  refine ⟨by decide +kernel,
    (gcCollectMinor_intact_iff (genCollector_endures genTwice_reaches)).mpr fun _ =>
      ⟨by decide +kernel, fun hc => ?_, fun v _ hd => ?_⟩⟩
  · rw [hcards] at hc
    exact nomatch hc
  · rw [hcopies] at hd
    exact nomatch hd

/-- A young cell in a root slot, when the allocator refuses all requests from now on. -/
def genFull : GenWorld :=
  genCollector.rootCell 0
    ((genCollector.sampleStart 128 2 fun k => decide (4 ≤ k)).get (by decide +kernel))

theorem genFull_reaches : genCollector.Reaches genFull :=
  (Collector.sampleStart_starts (by decide : 128 < 2 ^ 64) (Option.some_get _).symm
    (by decide +kernel)).reaches.rootCell (by decide) (by decide +kernel) (by decide +kernel)
    (by decide +kernel)

/-- A collection that cannot copy the cell resets the nursery all the same. -/
theorem gcCollectMinor_loses : genCollector.Endures genSpared genFull ∧
    ¬ ∃ φ, Intact genFull (gcCollectMinor gcGenCopyMsVtable genFull) φ := by
  refine ⟨genCollector_endures genFull_reaches, ?_⟩
  rintro ⟨φ, hi⟩
  have hlive : genFull.graph.roots 0 ∈ minorLive genFull.graph genFull.old :=
    Reach.root (.inl ⟨by decide +kernel, .inl ⟨0, rfl⟩⟩)
  have hnone : genCollector.tracked (gcCollectMinor gcGenCopyMsVtable genFull) = [] := by
    decide +kernel
  have hmem := hi.allocated _ hlive
  rw [hnone] at hmem
  exact nomatch hmem

end Xgc
