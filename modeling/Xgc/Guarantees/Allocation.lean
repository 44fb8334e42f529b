import Xgc.Algo.Spared
import Xgc.Algo.Unbound
import Xgc.Guarantees.Generational
import Xgc.Guarantees.MarkSweep

/-! What `gc_alloc_typed` hands out, for any size and whatever is refused: when the object is managed,
    and when its storage and its header are as large as has been asked for. -/

namespace Xgc

open Lib (Block)

variable {σ : Type} {handed : List Block}

/-! ### Requests -/

/-- The framework's own request for plain memory is refused after those of `alloc`. -/
def FallbackRefused (alloc : World σ → GcDescriptor → Nat → BitVec 32 → World σ × Addr) (w : World σ)
    (desc : GcDescriptor) (size : Nat) (flags : BitVec 32) : Prop :=
  ((alloc w desc size flags).1.mem.malloc size).2 = 0

/-- The requests of `gc_marksweep_alloc` are granted: the object and its node. -/
def MsGranted (w : MsWorld) (size : Nat) : Prop :=
  w.stateBound = true ∧ (w.mem.malloc size).2 ≠ 0 ∧ ((w.mem.malloc size).1.reserve 24).2 = true

/-- `gc_gen_alloc` takes the object from the nursery. -/
def GenYoung (w : GenWorld) (size : Nat) (flags : BitVec 32) : Prop :=
  w.stateBound = true ∧ ForNursery w size flags

/-- `gc_alloc_typed` over an algorithm that has no object to give. -/
theorem gcAllocTyped_fallback (algo : GcAlgorithmVtable σ)
    {alloc : World σ → GcDescriptor → Nat → BitVec 32 → World σ × Addr}
    (halloc : algo.alloc = some alloc) (hpost : algo.postAlloc = some fun w _ => w) {w w₁ : World σ}
    {desc : GcDescriptor} {size : Nat} {flags : BitVec 32} (hsize : sizeofHeader ≤ size)
    (hnull : alloc w desc size flags = (w₁, 0)) :
    (FallbackRefused alloc w desc size flags ∧
      gcAllocTyped algo w desc size flags = ({ w₁ with mem := w₁.mem.refuse }, 0)) ∨
    (¬ FallbackRefused alloc w desc size flags ∧ ∃ a, w₁.mem.Fits a size ∧
      gcAllocTyped algo w desc size flags =
        ({ w₁ with mem := w₁.mem.grant a size }.addObject a desc fun tag =>
          repairHeader desc size flags (zeroHeader tag), a)) := by
  unfold FallbackRefused
  rw [hnull]
  exact gcAllocTyped_plain algo halloc hpost hsize hnull

/-- `gc_marksweep_alloc` has an object to give exactly when its requests are granted. -/
theorem gcMarksweepAlloc_ne_zero_iff (w : MsWorld) (desc : GcDescriptor) (size : Nat)
    (flags : BitVec 32) : (gcMarksweepAlloc w desc size flags).2 ≠ 0 ↔ MsGranted w size := by
  unfold gcMarksweepAlloc MsGranted
  cases w.stateBound with
  | false => simp
  | true =>
    rcases w.mem.malloc_cases size with hm | ⟨a, hfit, hm⟩
    · simp [hm]
    · have ha : a ≠ 0 := Nat.pos_iff_ne_zero.mp hfit.1
      rcases (w.mem.grant a size).reserve_cases 24 with hr | hr <;> simp [hm, hr, ha]

/-- The ways through `gc_alloc_typed` under mark-sweep, for any size. -/
theorem gcAllocTyped_ms_any (w : MsWorld) (desc : GcDescriptor) {size : Nat}
    (hsize : sizeofHeader ≤ size) (flags : BitVec 32) :
    (MsGranted w size ∧ ∃ a m, w.mem.Fits a size ∧ (w.mem.grant a size).Quiet m ∧
      gcAllocTyped gcMarksweepStwVtable w desc size flags =
        ({ msAllocated w a desc size flags m with
            graph := (msAllocated w a desc size flags m).graph.modifyObj a
              (repairHeader desc size flags) }, a)) ∨
    (¬ MsGranted w size ∧ FallbackRefused gcMarksweepAlloc w desc size flags ∧
      ∃ m, w.mem.Quiet m ∧
        gcAllocTyped gcMarksweepStwVtable w desc size flags = ({ w with mem := m }, 0)) ∨
    (¬ MsGranted w size ∧ ¬ FallbackRefused gcMarksweepAlloc w desc size flags ∧
      ∃ m a, w.mem.Quiet m ∧ m.Fits a size ∧ gcAllocTyped gcMarksweepStwVtable w desc size flags =
        ({ w with mem := m.grant a size }.addObject a desc fun tag =>
          repairHeader desc size flags (zeroHeader tag), a)) := by
  have hserved := gcMarksweepAlloc_ne_zero_iff w desc size flags
  have hnull : (∃ m, w.mem.Quiet m ∧ gcMarksweepAlloc w desc size flags = ({ w with mem := m }, 0)) ∨
      ∃ a m, w.mem.Fits a size ∧ (w.mem.grant a size).Quiet m ∧
        gcMarksweepAlloc w desc size flags = (msAllocated w a desc size flags m, a) := by
    by_cases hb : w.stateBound = true
    · exact (gcMarksweepAlloc_cases hb desc size flags).imp_left fun ⟨m, hq, _, heq⟩ => ⟨m, hq, heq⟩
    · exact .inl ⟨w.mem, .refl _, if_pos (by simpa using hb)⟩
  rcases hnull with ⟨m, hq, heq⟩ | ⟨a, m, hfit, hq, heq⟩
  · have hno : ¬ MsGranted w size := fun hs => hserved.mpr hs (by rw [heq])
    rcases gcAllocTyped_fallback gcMarksweepStwVtable rfl rfl hsize heq with
      ⟨hf, hr⟩ | ⟨hf, a, hfit, hr⟩
    · exact .inr (.inl ⟨hno, hf, _, hq.trans m.quiet_refuse, hr⟩)
    · exact .inr (.inr ⟨hno, hf, m, a, hq, hfit, hr⟩)
  · have ha : a ≠ 0 := Nat.pos_iff_ne_zero.mp hfit.1
    refine .inl ⟨hserved.mp (by rwa [heq]), a, m, hfit, hq, ?_⟩
    exact gcAllocTyped_repaired gcMarksweepStwVtable rfl rfl hsize heq ha

variable {w : GenWorld}

instance (w : GenWorld) (size : Nat) (flags : BitVec 32) : Decidable (GenYoung w size flags) := by
  unfold GenYoung
  infer_instance

/-- A runtime whose allocator refuses the fifth request: the node of the first old object. -/
def genNoNode : GenWorld :=
  (genCollector.sampleStart 128 2 fun n => n == 4).get (by decide +kernel)

/-- The block of `n` bytes at `a` is live, and no other block overlaps it. -/
def OwnBlock (m : Mem) (a n : Nat) : Prop :=
  (a, n) ∈ m.blocks ∧ ∀ b ∈ m.blocks, b ≠ (a, n) → Block.Apart (a, n) b

/-- The `n` bytes at `a` lie in the nursery, below `nursery_used`. -/
def InNursery (w : GenWorld) (a n : Nat) : Prop :=
  w.algoState.nurserySpace ≤ a ∧
    a + n ≤ w.algoState.nurserySpace + w.algoState.nurseryUsed ∧
    w.algoState.nurseryUsed ≤ w.algoState.nurseryCapacity

/-- The tracked objects with their sizes. -/
def Collector.extents (C : Collector σ) (w : World σ) : List Block :=
  (C.tracked w).map fun a => (a, w.graph.sizeAt a)

end Xgc
