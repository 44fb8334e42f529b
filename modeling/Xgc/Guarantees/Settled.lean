import Xgc.Guarantees.Motion
import Xgc.Guarantees.Accounting

/-! What a full collection leaves: the objects in use, and nothing that another collection would
    change as long as the program only looks at them. -/

namespace Xgc

open Lib (Run)

/-- The calls that collect or read. -/
def ClientOp.idle : ClientOp → Bool
  | .loadRef .. | .get .. | .collectMinor | .collectMajor | .collectFull => true
  | _ => false

section

variable {σ : Type} {w w' w'' : World σ}

/-- What the runtime keeps are the objects in use, and it counts their bytes. -/
structure Tight (C : Collector σ) (w : World σ) : Prop where
  inUse : ∀ a, a ∈ C.tracked w ↔ w.graph.Reachable a
  total : w.stats.totalAllocated = ((C.tracked w).map w.graph.sizeAt).sum

/-- The same heap with everything that is logged about it, the same lists of objects and the same
    number of bytes. -/
structure Unchanged (w w' : World σ) : Prop where
  graph : w'.graph = w.graph
  state : w'.algoState = w.algoState
  total : w'.stats.totalAllocated = w.stats.totalAllocated

theorem Unchanged.refl (w : World σ) : Unchanged w w := ⟨rfl, rfl, rfl⟩

theorem Unchanged.trans (h : Unchanged w w') (h' : Unchanged w' w'') : Unchanged w w'' :=
  ⟨h'.graph.trans h.graph, h'.state.trans h.state, h'.total.trans h.total⟩

end

/-- Where all objects live, none is dead. -/
theorem nodes_all_live {live : Addr → Prop} [DecidablePred live] {nodes : List GcNode}
    (h : ∀ a ∈ nodes.map GcNode.obj, live a) :
    liveNodes live nodes = nodes ∧ deadNodes live nodes = [] := by
  have hlive : ∀ n ∈ nodes, live n.obj := fun n hn => h n.obj (List.mem_map_of_mem hn)
  refine ⟨List.filter_eq_self.mpr fun n hn => ?_, List.filter_eq_nil_iff.mpr fun n hn => ?_⟩
  · simp [hlive n hn]
  · simp [hlive n hn]

/-- A spared step of a program that collects and reads. -/
def IdleStep {σ : Type} [Inhabited σ] (C : Collector σ) (Spared : World σ → ClientOp → Prop)
    (w : World σ) (op : ClientOp) (w' : World σ) : Prop :=
  op.idle = true ∧ C.SparedStep Spared w op w'

/-- What is left of what was reachable is reachable. -/
theorem Collected.inUse {g g' : Graph} {tracked tracked' : List Addr} {φ : Addr → Addr}
    (h : HeapInv g tracked) (c : Collected g g' tracked tracked' {a | g.Reachable a} φ) (b : Addr) :
    b ∈ tracked' ↔ g'.Reachable b :=
  (c.image b).trans (c.reachable_iff h b).symm

/-! ### Mark-sweep -/

section

variable {w w' : MsWorld}

theorem ms_collect_tight (h : msManager.Inv w) (hs : MarkSpared w) :
    Tight msCollector (gcMarksweepCollectFullImpl w) := by
  obtain ⟨hinv, hc⟩ := gcMarksweepCollectFullImpl_spared h hs
  exact ⟨hc.inUse h.heap, hinv.alg.total.trans (bytesOf_eq_sum ..)⟩

/-- A collection where all objects are in use. -/
theorem ms_collect_unchanged (h : msManager.Inv w) (hs : MarkSpared w)
    (huse : ∀ a ∈ msCollector.tracked w, w.graph.Reachable a) :
    Unchanged w (gcMarksweepCollectFullImpl w) := by
  classical
  obtain ⟨dropped, wl, m, -, -, -, heq⟩ := gcMarksweepCollectFullImpl_spec h
  rw [MarkSpared, heq] at hs
  have hlive : ∀ a ∈ w.algoState.objects.map GcNode.obj, liveThrough w.graph dropped a :=
    fun a ha => liveThrough_mono (fun t ht => List.mem_append_right _ ht) (hs a (huse a ha))
  obtain ⟨hkept, hdead⟩ := nodes_all_live hlive
  rw [heq, hkept, hdead]
  exact ⟨w.graph.kill_nil, rfl, h.alg.total.symm⟩

theorem ms_step_unchanged (h : msManager.Inv w)
    (huse : ∀ a ∈ msCollector.tracked w, w.graph.Reachable a) {op : ClientOp}
    (hs : IdleStep msCollector msSpared w op w') : Unchanged w w' := by
  obtain ⟨hop, -, hspared, rfl⟩ := hs
  cases op with
  | loadRef | get => exact ⟨rfl, rfl, rfl⟩
  | collectMinor | collectMajor | collectFull =>
    obtain ⟨hgraph, hstate, htotal⟩ := ms_collect_unchanged h hspared huse
    exact ⟨hgraph, hstate, htotal⟩
  | alloc | storeRef | writeBytes | setRoot | acquire | release =>
    exact absurd hop Bool.false_ne_true

theorem ms_run_unchanged (h : msManager.Inv w)
    (huse : ∀ a ∈ msCollector.tracked w, w.graph.Reachable a) {ops : List ClientOp}
    (hrun : Run (IdleStep msCollector msSpared) w ops w') : Unchanged w w' := by
  refine (hrun.invariant (P := fun v => msManager.Inv v ∧ Unchanged w v)
    (fun v op v' hv hst => ?_) ⟨h, .refl w⟩).2
  obtain ⟨hinv, hsame⟩ := hv
  have huse' : ∀ a ∈ msCollector.tracked v, v.graph.Reachable a := by
    have htracked : msCollector.tracked v = msCollector.tracked w :=
      congrArg (fun s : MsState => s.objects.map GcNode.obj) hsame.state
    rw [htracked, hsame.graph]
    exact huse
  exact ⟨(msManager_sparing.step hinv hst.2).1, hsame.trans (ms_step_unchanged hinv huse' hst)⟩

end

/-! ### The generational collector -/

section

variable {w w' : GenWorld}

theorem gen_collect_tight (h : (genManager False).Inv w) (hs : MinorSpared w ∧ OldMarkSpared w) :
    (gcGenCollectFullImpl w).algoState.nurseryUsed = 0 ∧
      Tight genCollector (gcGenCollectFullImpl w) := by
  obtain ⟨hok, -, -, φ, -, hc⟩ := gcGenCollectFullImpl_spared h hs.1 hs.2
  have hused : (gcGenCollectFullImpl w).algoState.nurseryUsed = 0 := hok.layout.tiles
  have htracked := tracked_nil hused
  refine ⟨hused, ?_, ?_⟩
  · rw [htracked]
    exact hc.inUse h.heap
  · rw [htracked, hok.layout.total, hused, Nat.zero_add]
    exact bytesOf_eq_sum ..

/-- A collection where all objects are old and in use. -/
theorem gen_collect_unchanged (h : (genManager False).Inv w) (hused : w.algoState.nurseryUsed = 0)
    (hs : OldMarkSpared w) (huse : ∀ a ∈ genCollector.tracked w, w.graph.Reachable a) :
    Unchanged w (gcGenCollectFullImpl w) := by
  classical
  have hnil := gcGenCollectMinorImpl_nil h hused
  obtain ⟨dropped, wl, m, b, heq, -⟩ := gcGenCollectFullImpl_spec h hnil
  have hheap : HeapInv w.graph w.old := tracked_nil hused ▸ h.heap
  rw [OldMarkSpared, hnil, heq] at hs
  have hlive : ∀ a ∈ w.algoState.oldObjects.map GcNode.obj, oldLive w dropped a := fun a ha =>
    (hheap.mark_reach (fun a => w.graph.tagAt a ∉ dropped) a).mpr
      (liveThrough_mono (fun t ht => List.mem_append_right _ ht)
        (hs a (huse a (List.mem_append_left _ ha))))
  obtain ⟨hkept, hdead⟩ := nodes_all_live hlive
  rw [heq, swept, hkept, hdead]
  refine ⟨w.graph.kill_nil, rfl, ?_⟩
  rw [h.alg.layout.total, hused, Nat.zero_add]

theorem gen_step_unchanged (h : (genManager False).Inv w) (hused : w.algoState.nurseryUsed = 0)
    (huse : ∀ a ∈ genCollector.tracked w, w.graph.Reachable a) {op : ClientOp}
    (hs : IdleStep genCollector genSpared w op w') : Unchanged w w' := by
  obtain ⟨hop, -, hspared, rfl⟩ := hs
  cases op with
  | loadRef | get => exact ⟨rfl, rfl, rfl⟩
  | collectMinor =>
    -- there is nothing in the nursery to collect
    have hsame : Unchanged w (gcGenCollectMinorImpl w) := by
      rw [gcGenCollectMinorImpl_nil h hused]
      exact .refl w
    obtain ⟨hgraph, hstate, htotal⟩ := hsame
    exact ⟨hgraph, hstate, htotal⟩
  | collectMajor | collectFull =>
    obtain ⟨hgraph, hstate, htotal⟩ := gen_collect_unchanged h hused hspared.2 huse
    exact ⟨hgraph, hstate, htotal⟩
  | alloc | storeRef | writeBytes | setRoot | acquire | release =>
    exact absurd hop Bool.false_ne_true

theorem gen_run_unchanged (h : (genManager False).Inv w) (hused : w.algoState.nurseryUsed = 0)
    (huse : ∀ a ∈ genCollector.tracked w, w.graph.Reachable a) {ops : List ClientOp}
    (hrun : Run (IdleStep genCollector genSpared) w ops w') : Unchanged w w' := by
  refine (hrun.invariant (P := fun v => (genManager False).Inv v ∧ Unchanged w v)
    (fun v op v' hv hst => ?_) ⟨h, .refl w⟩).2
  obtain ⟨hinv, hsame⟩ := hv
  have hused' : v.algoState.nurseryUsed = 0 := by rw [hsame.state, hused]
  have huse' : ∀ a ∈ genCollector.tracked v, v.graph.Reachable a := by
    rw [tracked_nil hused] at huse
    rw [tracked_nil hused', GenWorld.old, hsame.state, hsame.graph]
    exact huse
  exact ⟨(genManager_sparing.step hinv hst.2).1,
    hsame.trans (gen_step_unchanged hinv hused' huse' hst)⟩

end

/-! ### Over a whole run -/

/-- After a full collection the runtime keeps exactly what is in use, and counts its bytes; from there
    on no collection moves, finalizes or frees anything until the program changes the heap. -/
theorem collected_settled :
    (∀ w op w₁ ops w₂, msCollector.Endures msSpared w →
      op ∈ [ClientOp.collectMinor, .collectMajor, .collectFull] →
      msCollector.SparedStep msSpared w op w₁ → Run (IdleStep msCollector msSpared) w₁ ops w₂ →
        Tight msCollector w₁ ∧ Unchanged w₁ w₂) ∧
    ∀ w op w₁ ops w₂, genCollector.Endures genSpared w →
      op ∈ [ClientOp.collectMajor, .collectFull] →
      genCollector.SparedStep genSpared w op w₁ → Run (IdleStep genCollector genSpared) w₁ ops w₂ →
        Tight genCollector w₁ ∧ Unchanged w₁ w₂ := by
  refine ⟨fun w op w₁ ops w₂ hw hop hs hrun => ?_, fun w op w₁ ops w₂ hw hop hs hrun => ?_⟩
  · have h := msManager_sparing.endures hw
    have hinv := (msManager_sparing.step h hs).1
    obtain ⟨-, hspared, rfl⟩ := hs
    have htight : Tight msCollector (op.perform msCollector w).1.cleared := by
      simp only [List.mem_cons, List.not_mem_nil, or_false] at hop
      rcases hop with rfl | rfl | rfl
      all_goals
        obtain ⟨huse, htotal⟩ := ms_collect_tight h hspared
        exact ⟨huse, htotal⟩
    exact ⟨htight, ms_run_unchanged hinv (fun a ha => (htight.inUse a).mp ha) hrun⟩
  · have h := genManager_sparing.endures hw
    have hinv := (genManager_sparing.step h hs).1
    obtain ⟨-, hspared, rfl⟩ := hs
    have htight : (op.perform genCollector w).1.cleared.algoState.nurseryUsed = 0 ∧
        Tight genCollector (op.perform genCollector w).1.cleared := by
      simp only [List.mem_cons, List.not_mem_nil, or_false] at hop
      rcases hop with rfl | rfl
      all_goals
        obtain ⟨hused, huse, htotal⟩ := gen_collect_tight h hspared
        exact ⟨hused, huse, htotal⟩
    obtain ⟨hused, htight⟩ := htight
    exact ⟨htight, gen_run_unchanged hinv hused (fun a ha => (htight.inUse a).mp ha) hrun⟩

/-- A cell that a handle holds, once everything has been collected. -/
def msSettled : MsWorld := (msCall .collectMinor msHandle.1).1

def genSettled : GenWorld := (genCall .collectFull genHandle.1).1

theorem msSettled_step : msCollector.SparedStep msSpared msHandle.1 .collectMinor msSettled :=
  ⟨trivial, markSpared_of_nil (by decide +kernel), by rw [msSettled, msCall]⟩

theorem genSettled_step : genCollector.SparedStep genSpared genHandle.1 .collectFull genSettled :=
  ⟨trivial, gcGenCollectFullImpl_granted (genManager_sparing.endures genHandle_endures)
    (by decide +kernel), by rw [genSettled, genCall]⟩

/-- It stays where it is when everything is collected again. -/
theorem collected_settled_sample :
    (Tight msCollector msSettled ∧ Unchanged msSettled (msCall .collectFull msSettled).1) ∧
      Tight genCollector genSettled ∧ Unchanged genSettled (genCall .collectMinor genSettled).1 := by
  have hms : IdleStep msCollector msSpared msSettled .collectFull
      (msCall .collectFull msSettled).1 :=
    ⟨rfl, trivial, markSpared_of_nil (by decide +kernel), by rw [msCall]⟩
  have hgen : IdleStep genCollector genSpared genSettled .collectMinor
      (genCall .collectMinor genSettled).1 :=
    ⟨rfl, trivial, (gcGenCollectMinorImpl_granted
      (genManager_sparing.endures (genHandle_endures.step _ genSettled_step)) (by decide +kernel)
      (by decide +kernel)).1, by rw [genCall]⟩
  exact ⟨collected_settled.1 msHandle.1 _ _ _ _ msHandle_endures (by simp) msSettled_step
      (.single hms),
    collected_settled.2 genHandle.1 _ _ _ _ genHandle_endures (by simp) genSettled_step
      (.single hgen)⟩

end Xgc
