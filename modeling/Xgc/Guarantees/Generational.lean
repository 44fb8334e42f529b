import Xgc.Algo.GenFootprint

/-! What the generational collector promises its clients, in every state that a run leads to: minor
    and full collections are exact, and the remembered set is complete. -/

namespace Xgc

open Lib (Reach)
open GcBarrierSet (cardIndexFor cardIndexFor_inline)

variable {w : GenWorld}

/-- The invariant holds wherever a run leads. -/
theorem genManager_reaches (hw : genCollector.Reaches w) : (genManager True).Inv w :=
  (genManager_sound : (genManager True).Sound).lawful.reaches hw

/-! ### A sample run -/

/-- A fresh runtime with a nursery of 128 bytes and two root slots. -/
def genStart : GenWorld :=
  (genCollector.sampleStart 128 2 fun _ => false).get (by decide +kernel)

/-- Two cells, of which the first is garbage. -/
def genSample : GenWorld := genCollector.rootCell 0 (genCollector.rootCell 0 genStart)

/-- An old cell that refers to a young one. -/
def genRemembering : GenWorld :=
  genCollector.linkCells 0 1 (genCollector.rootCell 1 (gcCollectMinor gcGenCopyMsVtable genSample))

theorem genStart_starts : genCollector.Starts genStart :=
  Collector.sampleStart_starts (by decide : 128 < 2 ^ 64) (Option.some_get _).symm
    (by decide +kernel)

theorem genSample_reaches : genCollector.Reaches genSample :=
  (genStart_starts.reaches.rootCell (i := 0) (by decide) (by decide +kernel) (by decide +kernel)
    (by decide +kernel)).rootCell (by decide) (by decide +kernel) (by decide +kernel)
    (by decide +kernel)

theorem genRemembering_reaches : genCollector.Reaches genRemembering :=
  ((genSample_reaches.step .collectMinor ⟨trivial, rfl, by decide +kernel⟩).rootCell
    (i := 1) (by decide) (by decide +kernel) (by decide +kernel) (by decide +kernel)).linkCells
    (by decide +kernel) (by decide +kernel) (by decide +kernel) (by decide +kernel)

/-- A handle to the young cell, and a full collection: both cells are old ones then. -/
def genHolding : GenWorld :=
  ((ClientOp.acquire (genRemembering.graph.roots 1) 0).perform genCollector genRemembering).1

def genCollected : GenWorld := gcCollectFull gcGenCopyMsVtable genHolding

theorem genHolding_reaches : genCollector.Reaches genHolding :=
  genRemembering_reaches.step (.acquire (genRemembering.graph.roots 1) 0)
    ⟨.inr (by decide +kernel), rfl, by decide +kernel⟩

theorem genCollected_reaches : genCollector.Reaches genCollected :=
  genHolding_reaches.step .collectFull ⟨trivial, rfl, by decide +kernel⟩

/-! ### Minor collections -/

/-- A minor collection keeps exactly what roots, handles and old objects lead to: old objects where
    they are, young ones as new, registered old objects, with all references following. -/
theorem gcCollectMinor_exact (hw : genCollector.Reaches w)
    (hg : (gcCollectMinor gcGenCopyMsVtable w).Granted) :
    ∃ φ, MinorExact w (gcCollectMinor gcGenCopyMsVtable w) φ ∧
      (∀ a ∈ minorLive w.graph w.old, (gcCollectMinor gcGenCopyMsVtable w).barriers.HasSize (φ a)
        (w.graph.sizeAt a)) ∧
      (gcCollectMinor gcGenCopyMsVtable w).graph.log.Nodup := by
  have h := genManager_reaches hw
  obtain ⟨hinv, φ, hcol, hold, hyoung, hzero⟩ := gcGenCollectMinorImpl_exact h hg.1 hg.2.1
  refine ⟨φ, ⟨hcol, hold, hyoung, hzero⟩, fun a ha => ?_, hinv.heap.log_nodup⟩
  have hmem : φ a ∈ (gcGenCollectMinorImpl w).old := by
    rw [← tracked_nil hzero]
    exact hcol.mem ha
  obtain ⟨o, ho, -⟩ := h.heap.objs a (hcol.sub a ha)
  refine (hinv.alg.layout.owners _ _).mpr ⟨hmem, ?_⟩
  rw [Graph.sizeAt_eq ho, Graph.sizeAt_eq (hcol.objs a ha o ho)]
  rfl

theorem gcCollectMinor_exact_sample : genSample.algoState.nurseryUsed = 48 ∧
    ∃ φ, MinorExact genSample (gcCollectMinor gcGenCopyMsVtable genSample) φ :=
  let ⟨φ, h, _⟩ := gcCollectMinor_exact genSample_reaches (by decide +kernel)
  ⟨by decide +kernel, φ, h⟩

/-! ### The remembered set -/

/-- Every slot of an old object that holds an address in the nursery lies on a dirty card of the
    object's entry, and with an empty nursery no card is dirty. -/
theorem remembered_complete (hw : genCollector.Reaches w) :
    (∀ a ∈ w.old, ∀ p, gcGenInNursery w.algoState (w.graph.slot a p) = true →
      w.barriers.HasSize a (w.graph.sizeAt a) ∧
      w.barriers.Dirty a (cardIndexFor w.barriers.oldToYoung.cardGranularity a (w.graph.sizeAt a)
        (p.addr a)) ∧
      ∀ off, p = .inline off →
        w.barriers.Dirty a (off / w.barriers.oldToYoung.cardGranularity)) ∧
    (w.algoState.nurseryUsed = 0 → (∀ o c, ¬ w.barriers.Dirty o c) ∧
      w.barriers.dirtyOldObjects = 0 ∧ w.barriers.dirtyCards = 0) := by
  have h := genManager_reaches hw
  have hok := genManager_ok h
  constructor
  · intro a ha p hp
    have htracked : a ∈ genCollector.tracked w := List.mem_append_left _ ha
    -- an address in the nursery that an object refers to is that of a young object
    have hyoung : w.graph.slot a p ∈ nurseryObjects w := by
      rcases h.heap.fields a htracked p with h0 | hmem
      · rw [h0] at hp
        simp [gcGenInNursery] at hp
      · refine (List.mem_append.mp hmem).resolve_left fun hold => ?_
        rw [hok.inNursery_old hold] at hp
        cases hp
    have hdirty := h.alg.remembered a ha p hyoung
    refine ⟨(h.alg.layout.owners _ _).mpr ⟨ha, rfl⟩, hdirty, ?_⟩
    rintro off rfl
    obtain ⟨o, ho, hook, -⟩ := h.heap.objs a htracked
    have hne : o.slots (.inline off) ≠ 0 := by
      rw [← Graph.slot_eq ho]
      exact hok.young_ne_zero hyoung
    obtain ⟨d, hd, hdok⟩ := hook.desc
    have hlay := hook.slots _ hne
    rw [GcHeader.layout, hd] at hlay
    have hin := (hdok.inside _ _ _ hlay).2
    rw [← cardIndexFor_inline a h.rt.barriers.granularity h.rt.granularity hook.size_lt
      (show off < o.size by omega), ← Graph.sizeAt_eq ho]
    exact hdirty
  · intro hused
    have hclean := h.alg.clean trivial hused
    exact ⟨hclean, GcBarrierSet.dirtyCards_eq_zero h.rt.barriers hclean⟩

theorem remembered_complete_sample :
    ∃ a ∈ genRemembering.old, genRemembering.barriers.Dirty a 0 := by
  have hmem : genRemembering.graph.roots 0 ∈ genRemembering.old := by decide +kernel
  have hpos : gcGenInNursery genRemembering.algoState
      (genRemembering.graph.slot (genRemembering.graph.roots 0) (.inline 16)) = true := by
    decide +kernel
  have hcard : 16 / genRemembering.barriers.oldToYoung.cardGranularity = 0 := by decide +kernel
  obtain ⟨-, -, hdirty⟩ := (remembered_complete genRemembering_reaches).1 _ hmem (.inline 16) hpos
  exact ⟨_, hmem, hcard ▸ hdirty 16 rfl⟩

/-! ### Full collections -/

/-- What a full collection does: it keeps exactly what is reachable, ends the life of everything
    else once, leaves no live blocks but those that are in use and those of others, and leaves all that
    the next collection relies on. -/
structure FullExact (w w' : GenWorld) (φ : Addr → Addr) : Prop where
  collected : Collected w.graph w'.graph (genCollector.tracked w) w'.old {a | w.graph.Reachable a} φ
  used : w'.algoState.nurseryUsed = 0
  unmarked : ∀ n ∈ w'.algoState.oldObjects, n.marked = false
  owners : w'.barriers.owners.Perm w'.old
  sizes : ∀ o n, w'.barriers.HasSize o n ↔ o ∈ w'.old ∧ w'.graph.sizeAt o = n
  once : w'.graph.log.Nodup
  blocks : ∃ others, w.mem.blocks.Perm ((genManager True).owned w ++ others) ∧
    w'.mem.blocks.Perm ((genManager True).owned w' ++ others)
  reaches : genCollector.Reaches w'

theorem FullExact.of_inv {w' : GenWorld} {φ : Addr → Addr} (h : (genManager True).Inv w')
    (hused : w'.algoState.nurseryUsed = 0) (hr : genCollector.Reaches w')
    (hc : Collected w.graph w'.graph (genCollector.tracked w) (genCollector.tracked w')
      {a | w.graph.Reachable a} φ)
    (hb : ∃ others, w.mem.blocks.Perm ((genManager True).owned w ++ others) ∧
      w'.mem.blocks.Perm ((genManager True).owned w' ++ others)) : FullExact w w' φ where
  collected := tracked_nil hused ▸ hc
  used := hused
  unmarked := h.alg.layout.unmarked
  owners := (List.perm_ext_iff_of_nodup h.rt.barriers.keys (genManager_ok h).old_nodup).mpr
    fun a => owners_iff h.alg.layout a
  sizes := h.alg.layout.owners
  once := h.heap.log_nodup
  blocks := hb
  reaches := hr

/-- Full and major collections keep exactly what is reachable. -/
theorem gcCollectFull_exact (hw : genCollector.Reaches w) :
    ((gcCollectFull gcGenCopyMsVtable w).Granted →
      ∃ φ, FullExact w (gcCollectFull gcGenCopyMsVtable w) φ) ∧
    ((gcCollectMajor gcGenCopyMsVtable w).Granted →
      ∃ φ, FullExact w (gcCollectMajor gcGenCopyMsVtable w) φ) := by
  have h := genManager_reaches hw
  refine ⟨fun hg => ?_, fun hg => ?_⟩
  · obtain ⟨hinv, hused, φ, -, hc⟩ := gcGenCollectFullImpl_exact h hg
    exact ⟨φ, .of_inv (genManager_inv_count hinv rfl rfl rfl) hused
      (hw.step .collectFull ⟨trivial, rfl, hg⟩) hc (gcGenCollectFullImpl_blocks h hinv)⟩
  · obtain ⟨hinv, hused, φ, -, hc⟩ := gcGenCollectFullImpl_exact h hg
    exact ⟨φ, .of_inv (genManager_inv_count hinv rfl rfl rfl) hused
      (hw.step .collectMajor ⟨trivial, rfl, hg⟩) hc (gcGenCollectFullImpl_blocks h hinv)⟩

theorem gcCollectFull_exact_sample :
    ∃ φ, FullExact genRemembering (gcCollectFull gcGenCopyMsVtable genRemembering) φ :=
  (gcCollectFull_exact genRemembering_reaches).1 (by decide +kernel)

end Xgc
