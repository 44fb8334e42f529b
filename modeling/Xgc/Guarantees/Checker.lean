import Xgc.Guarantees.Generational
import Xgc.Guarantees.MarkSweep

/-! The runtime's own checker accepts every state that a run leads to. -/

namespace Xgc

variable {σ : Type}

/-- What the checker looks at in a handle. -/
theorem handleCheck_of_inv {M : Manager σ} {w : World σ} (h : M.Inv w) {k : GcHandle}
    (hk : k ∈ w.graph.handles) :
    (gcHandleCheckInvariants w.graph k && decide (k.runtime = w.self)) = true := by
  have hself : w.self ≠ 0 :=
    Nat.pos_iff_ne_zero.mp (h.owns.range _ (h.owns.live _ (List.mem_cons_self ..))).1
  have hrt := h.rt.runtime k hk
  have hmem := h.heap.handles k hk
  obtain ⟨o, ho, hok, -⟩ := h.heap.objs _ hmem
  obtain ⟨d, hd, -⟩ := hok.desc
  have hsize : o.size ≠ 0 := by
    have := hok.header
    unfold sizeofHeader at this
    omega
  simp [gcHandleCheckInvariants, hrt, hself, h.heap.ne_zero hmem, ho, hd, hsize]

/-- The checker accepts a runtime in order whose heap counters it accepts. -/
theorem check_of_inv {M : Manager σ} {w : World σ} (h : M.Inv w)
    (hname : M.algo.name.isSome = true) (hheap : gcHeapCheckInvariants w.heap = true) :
    gcRuntimeCheckInvariants M.algo w = true := by
  obtain ⟨-, hle, hlen, -⟩ := h.rt.worklist
  have hcap : 0 ≤ w.worklistCapacity := hle
  have hdata : (w.worklistCapacity = 0) = (w.worklistData = []) := by
    rw [← List.length_eq_zero_iff]
    have : (w.worklistData.length : Int) = w.worklistCapacity := hlen
    exact propext ⟨fun h0 => by omega, fun h0 => by omega⟩
  have hall : (w.graph.handles.all fun k =>
      gcHandleCheckInvariants w.graph k && decide (k.runtime = w.self)) = true :=
    List.all_eq_true.mpr fun k hk => handleCheck_of_inv h hk
  have hnone : ¬ M.algo.name.isNone = true := by
    rw [Option.isNone_iff_eq_none]
    intro h0
    rw [h0] at hname
    exact nomatch hname
  unfold gcRuntimeCheckInvariants
  rw [if_neg hnone, if_neg (by simp [h.rt.gcState]), if_neg (by simp [hheap]),
    if_neg (by simp [GcBarrierSet.check_of_ok h.rt.barriers]), if_neg (by omega),
    if_neg (by simp [hdata]), if_neg (by simpa using h.rt.peak)]
  exact hall

/-- `gc_runtime_check_invariants` returns 1 after every call, under both algorithms. -/
theorem gcRuntimeCheckInvariants_reaches :
    (∀ w, genCollector.Reaches w → gcRuntimeCheckInvariants gcGenCopyMsVtable w = true) ∧
    (∀ w, msCollector.Reaches w → gcRuntimeCheckInvariants gcMarksweepStwVtable w = true) := by
  constructor
  · intro w hw
    have h := genManager_reaches hw
    have hheap := h.alg.layout.heap
    have hbase : w.heap.youngBase ≠ 0 := by
      rw [hheap]
      exact Nat.pos_iff_ne_zero.mp (genManager_ok h).space_range.1
    have hused : ¬ w.heap.youngUsed > w.heap.youngCapacity := by
      rw [hheap]
      exact Nat.not_lt.mpr h.alg.layout.used_le
    have hcount : ¬ (w.heap.oldObjectCount = 0 ∧ w.heap.oldObjectBytes ≠ 0) := by
      rw [hheap]
      rintro ⟨h0, hb⟩
      have hnil : w.algoState.oldObjects = [] := List.length_eq_zero_iff.mp h0
      exact hb (by simp [hnil, bytesOf, objectBlocks])
    refine check_of_inv h rfl ?_
    rw [gcHeapCheckInvariants, if_neg hbase, if_neg hused, if_neg hcount]
  · intro w hw
    have h := msManager_reaches hw
    obtain ⟨hbase, hcap, hused⟩ := h.alg.young
    obtain ⟨hcount, hbytes⟩ := h.alg.old
    refine check_of_inv h rfl ?_
    simp [gcHeapCheckInvariants, hbase, hcap, hused, hbytes]

theorem gcRuntimeCheckInvariants_sample :
    gcRuntimeCheckInvariants gcGenCopyMsVtable genRemembering = true ∧
      gcRuntimeCheckInvariants gcMarksweepStwVtable msSample = true :=
  ⟨gcRuntimeCheckInvariants_reaches.1 _ genRemembering_reaches,
    gcRuntimeCheckInvariants_reaches.2 _ msSample_reaches⟩

end Xgc
