import Xgc.Algo.GenClient
import Xgc.Guarantees.Generational
import Xgc.Guarantees.MarkSweep
import Xgc.Heap.Refinement

/-! The two collectors agree. A mutator program that is run on both gets at the same objects after
    every step, wherever they lie, and full collections have finalized the same ones: both heaps hold
    what the program means. -/

namespace Xgc

open Lib (Reach Run)

/-- What roots and handles lead to in `g` is what they lead to in `g'`. The map `φ` takes each object
    to the one that the same allocation has made; the sizes `n` asked for have become `rounded n` and
    `rounded' n`. The handles have been acquired at `names` and at `names'`. -/
structure Agree (rounded rounded' : Nat → Nat) (g g' : Graph) (names names' : List Addr)
    (φ : Addr → Addr) : Prop where
  zero : φ 0 = 0
  bij : Set.BijOn φ {a | g.Reachable a} {b | g'.Reachable b}
  history : g'.history = g.history
  tags : ∀ a, g.Reachable a → g'.tagAt (φ a) = g.tagAt a
  roots : ∀ i, g'.roots i = φ (g.roots i)
  acquired : names'.length = names.length
  released : ∀ n, names'.getD n 0 = 0 ↔ names.getD n 0 = 0
  targets : ∀ n, g'.target (names'.getD n 0) = φ (g.target (names.getD n 0))
  handles : (g'.handles.map fun k => (k.target, k.flags)) =
    g.handles.map fun k => (φ k.target, k.flags)
  objs : ∀ a, g.Reachable a → ∃ o o', g.objs a = some o ∧ g'.objs (φ a) = some o' ∧
    o'.desc = o.desc ∧ o'.kind = o.kind ∧ o'.flags = o.flags ∧ o'.bytes = o.bytes ∧
    (∃ n, o.size = rounded n ∧ o'.size = rounded' n) ∧ ∀ p, o'.slots p = φ (o.slots p)

theorem Graph.refTag_eq_some {g : Graph} {v : Addr} {t : Nat} :
    g.refTag v = some t ↔ v ≠ 0 ∧ g.tagAt v = t := by
  unfold Graph.refTag
  by_cases h0 : v = 0
  · simp [h0]
  · simp [h0]

section

variable {rounded rounded' : Nat → Nat} {s : ProgState} {g g' : Graph}
  {tracked tracked' names names' : List Addr}

/-- Two references to what the program takes for the same object. -/
def SameRef (g g' : Graph) (v v' : Addr) : Prop := g.refTag v = g'.refTag v'

theorem SameRef.of_tag {v v' : Addr} (h0 : v ≠ 0) (h0' : v' ≠ 0) (ht : g'.tagAt v' = g.tagAt v) :
    SameRef g g' v v' := by
  unfold SameRef
  rw [g.refTag_of_ne h0, g'.refTag_of_ne h0', ht]

theorem SameRef.tag {v v' : Addr} (hs : SameRef g g' v v') (h0 : v ≠ 0) :
    v' ≠ 0 ∧ g'.tagAt v' = g.tagAt v :=
  Graph.refTag_eq_some.mp (hs.symm.trans (g.refTag_of_ne h0))

variable (h : HeapInv g tracked) (h' : HeapInv g' tracked')
  (r : Refines rounded s g tracked names {a | g.Reachable a})
  (r' : Refines rounded' s g' tracked' names' {a | g'.Reachable a})

include r r'

theorem sameRef_root (i : Nat) : SameRef g g' (g.roots i) (g'.roots i) :=
  (r.roots i).trans (r'.roots i).symm

theorem released_iff_released (n : Nat) : names'.getD n 0 = 0 ↔ names.getD n 0 = 0 := by
  by_cases hn : ∃ k ∈ s.handles, k.name = n
  · obtain ⟨k, hk, rfl⟩ := hn
    exact iff_of_false (r'.live k hk) (r.live k hk)
  · push Not at hn
    exact iff_of_true (r'.gone n hn) (r.gone n hn)

include h h'

theorem sameRef_target (n : Nat) :
    SameRef g g' (g.target (names.getD n 0)) (g'.target (names'.getD n 0)) :=
  (r.target h n).2.trans (r'.target h' n).2.symm

theorem sameRef_slot {a b : Addr} (ha : g.Reachable a) (hb : g'.Reachable b)
    (htag : g'.tagAt b = g.tagAt a) (p : SlotLoc) : SameRef g g' (g.slot a p) (g'.slot b p) := by
  obtain ⟨o, ho, -⟩ := h.objs a (r.sub a ha)
  obtain ⟨o', ho', -⟩ := h'.objs b (r'.sub b hb)
  obtain ⟨x, hx, hs⟩ := r.objs a ha o ho
  obtain ⟨x', hx', hs'⟩ := r'.objs b hb o' ho'
  rw [Graph.tagAt_eq ho, Graph.tagAt_eq ho'] at htag
  rw [htag, hx] at hx'
  obtain rfl := Option.some.inj hx'
  unfold SameRef
  rw [Graph.slot_eq ho, Graph.slot_eq ho', hs.slots p, hs'.slots p]

/-- Each object that the program gets at in the one heap is there in the other. -/
theorem exists_same {a : Addr} (ha : g.Reachable a) :
    ∃ b, g'.Reachable b ∧ g'.tagAt b = g.tagAt a := by
  induction ha with
  | root hroot =>
    obtain ⟨h0, ⟨i, rfl⟩ | ⟨k, hk, rfl⟩⟩ := hroot
    · obtain ⟨h0', htag⟩ := (sameRef_root r r' i).tag h0
      exact ⟨_, .root ⟨h0', .inl ⟨i, rfl⟩⟩, htag⟩
    · obtain ⟨k', hk', haddr, -⟩ := r.addr_ne_zero hk
      obtain ⟨k₀, hk₀, haddr₀, -⟩ := r'.exists_handle hk'
      have htarget := sameRef_target h h' r r' k'.name
      rw [haddr, h.target_eq hk, ← haddr₀, h'.target_eq hk₀] at htarget
      obtain ⟨h0', htag⟩ := htarget.tag h0
      exact ⟨_, .root ⟨h0', .inr ⟨k₀, hk₀, rfl⟩⟩, htag⟩
  | step ha he ih =>
    obtain ⟨b, hb, htag⟩ := ih
    obtain ⟨h0, p, rfl⟩ := he
    obtain ⟨h0', htag'⟩ := (sameRef_slot h h' r r' ha hb htag p).tag h0
    exact ⟨_, .step hb ⟨h0', p, rfl⟩, htag'⟩

/-- Two heaps that hold what the same program can get at agree. -/
theorem exists_agree : ∃ φ, Agree rounded rounded' g g' names names' φ := by
  classical
  have hex : ∀ a, ∃ b, (g.Reachable a → g'.Reachable b ∧ g'.tagAt b = g.tagAt a) ∧
      (¬ g.Reachable a → b = 0) := by
    intro a
    by_cases ha : g.Reachable a
    · obtain ⟨b, hb⟩ := exists_same h h' r r' ha
      exact ⟨b, fun _ => hb, fun hn => absurd ha hn⟩
    · exact ⟨0, fun hr => absurd hr ha, fun _ => rfl⟩
  choose φ hφ hnull using hex
  have hzero : φ 0 = 0 := hnull 0 fun hr => h.ne_zero (r.sub 0 hr) rfl
  have hsame : ∀ {b b'}, g'.Reachable b → g'.Reachable b' → g'.tagAt b = g'.tagAt b' → b = b' :=
    fun hb hb' he => h'.tag_inj (r'.sub _ hb) (r'.sub _ hb') he
  -- a reference of the one heap determines that of the other
  have hfollow : ∀ {v v'}, (v = 0 ∨ g.Reachable v) → (v' = 0 ∨ g'.Reachable v') →
      SameRef g g' v v' → v' = φ v := by
    rintro v v' (rfl | hv) hv' hs
    · rw [hzero]
      by_contra h0
      have hnone : g'.refTag v' = none := hs.symm.trans g.refTag_zero
      rw [g'.refTag_of_ne h0] at hnone
      cases hnone
    · obtain ⟨h0', htag⟩ := hs.tag (h.ne_zero (r.sub v hv))
      exact hsame (hv'.resolve_left h0') (hφ v hv).1 (htag.trans (hφ v hv).2.symm)
  have hlist : (g'.handles.map fun k => (g'.tagAt k.target, k.flags)) =
      g.handles.map fun k => (g.tagAt k.target, k.flags) := by
    have hr := congrArg (List.map Prod.snd) r.handles
    have hr' := congrArg (List.map Prod.snd) r'.handles
    rw [List.map_map, List.map_map] at hr hr'
    exact hr'.trans hr.symm
  refine ⟨φ, hzero, ⟨fun a ha => (hφ a ha).1, fun a ha b hb he => ?_, fun b hb => ?_⟩,
    r'.history.trans r.history.symm, fun a ha => (hφ a ha).2, fun i => ?_,
    r'.acquired.trans r.acquired.symm, released_iff_released r r', fun n => ?_, ?_,
    fun a ha => ?_⟩
  · refine h.tag_inj (r.sub a ha) (r.sub b hb) ?_
    rw [← (hφ a ha).2, ← (hφ b hb).2, he]
  · obtain ⟨a, ha, htag⟩ := exists_same h' h r' r hb
    exact ⟨a, ha, hsame (hφ a ha).1 hb ((hφ a ha).2.trans htag)⟩
  · exact hfollow (r.closed.roots i) (r'.closed.roots i) (sameRef_root r r' i)
  · exact hfollow (r.target h n).1 (r'.target h' n).1 (sameRef_target h h' r r' n)
  · have hlen : g'.handles.length = g.handles.length := by simpa using congrArg List.length hlist
    refine List.ext_getElem (by simpa using hlen) fun i hi' hi => ?_
    rw [List.length_map] at hi hi'
    have hat := List.getElem_of_eq hlist (by simpa using hi')
    simp only [List.getElem_map, Prod.mk.injEq] at hat ⊢
    have hk := r.closed.handles _ (List.getElem_mem hi)
    have hk' := r'.closed.handles _ (List.getElem_mem hi')
    refine ⟨hfollow (.inr hk) (.inr hk') (.of_tag ?_ ?_ hat.1), hat.2⟩
    · exact h.ne_zero (r.sub _ hk)
    · exact h'.ne_zero (r'.sub _ hk')
  · obtain ⟨o, ho, -⟩ := h.objs a (r.sub a ha)
    obtain ⟨hb, htag⟩ := hφ a ha
    obtain ⟨o', ho', -⟩ := h'.objs (φ a) (r'.sub _ hb)
    obtain ⟨x, hx, hs⟩ := r.objs a ha o ho
    obtain ⟨x', hx', hs'⟩ := r'.objs (φ a) hb o' ho'
    have htags := htag
    rw [Graph.tagAt_eq ho, Graph.tagAt_eq ho'] at htags
    rw [htags, hx] at hx'
    obtain rfl := Option.some.inj hx'
    refine ⟨o, o', ho, ho', hs'.desc.trans hs.desc.symm, hs'.kind.trans hs.kind.symm,
      hs'.flags.trans hs.flags.symm, hs'.bytes.trans hs.bytes.symm, ⟨x.size, hs.size, hs'.size⟩,
      fun p => ?_⟩
    rw [← Graph.slot_eq ho, ← Graph.slot_eq ho']
    exact hfollow (r.closed.fields a ha p) (r'.closed.fields (φ a) hb p)
      (sameRef_slot h h' r r' ha hb htag p)

end

/-! ### Full collections -/

/-- After a full collection nothing is tracked but what the program can get at. -/
theorem Collector.Runs.tracked_iff {σ : Type} [Inhabited σ] {C : Collector σ}
    {Inv : World σ → Prop} {w w' : World σ} (hC : C.Runs Inv) (h : Inv w)
    (hst : C.Step w .collectFull w') (b : Addr) : b ∈ C.tracked w' ↔ w'.graph.Reachable b := by
  obtain ⟨-, φ, hc⟩ := hC.lawful.step _ _ _ h hst
  rw [hc.image, hc.reachable_iff (hC.lawful.heap w h)]
  rfl

/-- When nothing else is tracked, heaps that agree have finalized the same objects. -/
theorem Agree.finalized_iff {rounded rounded' : Nat → Nat} {g g' : Graph}
    {tracked tracked' names names' : List Addr} {φ : Addr → Addr} (h : HeapInv g tracked)
    (h' : HeapInv g' tracked') (ha : Agree rounded rounded' g g' names names' φ)
    (htracked : ∀ b, b ∈ tracked ↔ g.Reachable b) (htracked' : ∀ b, b ∈ tracked' ↔ g'.Reachable b)
    (t : Nat) : Event.finalize t ∈ g.log ↔ Event.finalize t ∈ g'.log := by
  have hnone : (∀ a ∈ tracked, g.tagAt a ≠ t) ↔ ∀ b ∈ tracked', g'.tagAt b ≠ t := by
    constructor
    · intro hn b hb
      obtain ⟨a, hr, rfl⟩ := ha.bij.surjOn ((htracked' b).mp hb)
      rw [ha.tags a hr]
      exact hn a ((htracked a).mpr hr)
    · intro hn a hm
      have hr := (htracked a).mp hm
      rw [← ha.tags a hr]
      exact hn (φ a) ((htracked' _).mpr (ha.bij.mapsTo hr))
  rw [h.finalized_iff, h'.finalized_iff, h.released_iff, h'.released_iff, ha.history, hnone]

/-! ### The two collectors -/

theorem msCollector_runs : msCollector.Runs msManager.Inv :=
  msManager_sound.runs fun init hinit w cfg => by
    obtain rfl := Option.some.inj (show some gcMarksweepGlobalInit = some init from hinit)
    simp only [gcMarksweepGlobalInit]
    split <;> rfl

theorem genCollector_runs : genCollector.Runs (genManager True).Inv :=
  (genManager_sound : (genManager True).Sound).runs fun init hinit w cfg => by
    obtain rfl := Option.some.inj (show some gcGenGlobalInit = some init from hinit)
    simp only [gcGenGlobalInit]
    split
    · rfl
    · split <;> split <;> rfl

/-- After every step of a program the two collectors hold the same objects for it, up to where they
    lie and to the rounding of their sizes, and after a full collection both have finalized the same
    ones. -/
theorem collectors_agree {w₀ w : MsWorld} {v₀ v : GenWorld} {ops : List ProgOp}
    {names names' : List Addr} (hw₀ : msCollector.Starts w₀) (hv₀ : genCollector.Starts v₀)
    (hw : Run (ProgOp.Step msCollector) (w₀, []) ops (w, names))
    (hv : Run (ProgOp.Step genCollector) (v₀, []) ops (v, names')) :
    (∃ φ, Agree id alignedSize w.graph v.graph names names' φ) ∧
    (ops.getLast? = some .collectFull →
      ∀ t, Event.finalize t ∈ w.graph.log ↔ Event.finalize t ∈ v.graph.log) := by
  obtain ⟨h, r⟩ := msCollector_runs.run hw₀ hw
  obtain ⟨h', r'⟩ := genCollector_runs.run hv₀ hv
  have hagree := exists_agree h.heap h'.heap r r'
  refine ⟨hagree, fun hlast => ?_⟩
  obtain ⟨φ, ha⟩ := hagree
  obtain ⟨before, rfl⟩ := List.getLast?_eq_some_iff.mp hlast
  obtain ⟨⟨t, _⟩, ht, hst, -⟩ := hw.snoc_inv
  obtain ⟨⟨u, _⟩, hu, hst', -⟩ := hv.snoc_inv
  exact ha.finalized_iff h.heap h'.heap
    (msCollector_runs.tracked_iff (msCollector_runs.run hw₀ ht).1 hst)
    (genCollector_runs.tracked_iff (genCollector_runs.run hv₀ hu).1 hst')

/-- A program may put a new cell into a root slot. -/
theorem ProgOp.Step.rootCell {σ : Type} [Inhabited σ] {C : Collector σ} {w : World σ}
    {names : List Addr} {i : Nat} (hmax : 24 ≤ C.maxSize)
    (hi : i ∈ ((ClientOp.alloc cell 24 0).perform C w).1.graph.hooks.rootSlots)
    (hmem : ((ClientOp.alloc cell 24 0).perform C w).2 ∈
      C.tracked ((ClientOp.alloc cell 24 0).perform C w).1)
    (hg : (C.rootCell i w).Granted) :
    ProgOp.Step C (w, names) (.alloc i cell 24 0) (C.rootCell i w, names) :=
  ⟨⟨⟨cell_ok, hmax⟩, rfl, hg⟩, ⟨⟨hi, .inr hmem⟩, rfl, hg⟩, rfl⟩

/-- A program may ask for a full collection. -/
theorem ProgOp.Step.collectFull {σ : Type} {C : Collector σ} {w : World σ} {names : List Addr}
    (hg : (gcCollectFull C.algo w).Granted) :
    ProgOp.Step C (w, names) .collectFull (gcCollectFull C.algo w, names) :=
  ⟨⟨trivial, rfl, hg⟩, rfl⟩

theorem collectors_agree_sample :
    (∃ φ, Agree id alignedSize (gcCollectFull gcMarksweepStwVtable msSample).graph
      (gcCollectFull gcGenCopyMsVtable genSample).graph [] [] φ) ∧
    ∀ t, Event.finalize t ∈ (gcCollectFull gcMarksweepStwVtable msSample).graph.log ↔
      Event.finalize t ∈ (gcCollectFull gcGenCopyMsVtable genSample).graph.log := by
  have hms : Run (ProgOp.Step msCollector) (msStart, [])
      [.alloc 0 cell 24 0, .alloc 0 cell 24 0, .collectFull]
      (gcCollectFull gcMarksweepStwVtable msSample, []) :=
    (((Run.nil _).snoc (.rootCell (by decide) (by decide +kernel) (by decide +kernel)
      (by decide +kernel))).snoc (.rootCell (by decide) (by decide +kernel) (by decide +kernel)
      (by decide +kernel))).snoc (.collectFull (by decide +kernel))
  have hgen : Run (ProgOp.Step genCollector) (genStart, [])
      [.alloc 0 cell 24 0, .alloc 0 cell 24 0, .collectFull]
      (gcCollectFull gcGenCopyMsVtable genSample, []) :=
    (((Run.nil _).snoc (.rootCell (by decide) (by decide +kernel) (by decide +kernel)
      (by decide +kernel))).snoc (.rootCell (by decide) (by decide +kernel) (by decide +kernel)
      (by decide +kernel))).snoc (.collectFull (by decide +kernel))
  obtain ⟨hagree, hfinalized⟩ := collectors_agree msStart_starts genStart_starts hms hgen
  exact ⟨hagree, hfinalized rfl⟩

end Xgc
