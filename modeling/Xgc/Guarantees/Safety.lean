import Xgc.Guarantees.Pressure
import Xgc.Guarantees.Allocation

/-! Memory safety. Wherever a run leads in which what is refused costs no live object, nothing that is
    in use has been freed, nothing overlaps, no reference dangles, and nothing has been read or freed
    that is not there. -/

namespace Xgc

open Lib (Block pairwise_parts)

/-! ### Objects in their blocks -/

/-- Objects that lie one after the other do not overlap. -/
theorem Tiles.apart {g : Graph} : ∀ {ys : List Nat} {a n : Nat}, Tiles g a n ys →
    (ys.map fun y => (y, g.sizeAt y)).Pairwise Block.Apart
  | [], _, _, _ => List.Pairwise.nil
  | y :: ys, a, n, h => by
      obtain ⟨rfl, hmin, hle, hrest⟩ := h
      rw [List.map_cons, List.pairwise_cons]
      refine ⟨fun b hb => ?_, hrest.apart⟩
      obtain ⟨x, hx, rfl⟩ := List.mem_map.mp hb
      have := (hrest.bounds x hx).1
      unfold sizeofHeader at hmin
      unfold Block.Apart
      constructor <;> omega

section

variable {σ : Type}

/-- The runtime's record and the handles. -/
def World.records (w : World σ) : List Block :=
  (w.self, sizeofRuntime) :: handleBlocks w.graph.handles

/-- The nursery. -/
def World.nursery (w : World σ) : Block := (w.heap.youngBase, w.heap.youngCapacity)

/-- The memory of a runtime is in order: what the program and the runtime use is there, and nothing
    else is used. An object has a live block of its own, of its size, or lies in the nursery. -/
structure MemorySafe (C : Collector σ) (w : World σ) : Prop where
  noFault : w.mem.fault = false
  stored : ∀ b ∈ C.extents w, 0 < b.2 ∧
    (b ∈ w.mem.blocks ∨ w.nursery ∈ w.mem.blocks ∧ b.Within w.nursery)
  recorded : ∀ b ∈ w.records, b ∈ w.mem.blocks
  apart : (C.extents w ++ w.records).Pairwise Block.Apart
  inside : ∀ a ∈ C.tracked w, ∃ o, w.graph.objs a = some o ∧ o.desc.isSome ∧
    (∀ off, .inline off ∈ o.layout → sizeofHeader ≤ off ∧ off + 8 ≤ o.size) ∧
    ∀ p, o.slots p ≠ 0 → p ∈ o.layout
  roots : ∀ i, w.graph.roots i = 0 ∨ w.graph.roots i ∈ C.tracked w
  handles : ∀ k ∈ w.graph.handles, gcHandleGet w k.addr ∈ C.tracked w
  fields : ∀ a ∈ C.tracked w, ∀ p, w.graph.slot a p = 0 ∨ w.graph.slot a p ∈ C.tracked w

variable {M : Manager σ} {w : World σ}

/-- What a collector has to show: that its blocks hold the objects. -/
theorem Manager.Inv.memorySafe (h : M.Inv w)
    (hstored : ∀ b ∈ M.extents w,
      b ∈ M.blocks w ∨ w.nursery ∈ M.blocks w ∧ b.Within w.nursery)
    (hapart : (M.extents w ++ w.records).Pairwise Block.Apart) :
    MemorySafe M.toCollector w where
  noFault := h.owns.noFault
  stored b hb := by
    have hlive : ∀ c ∈ M.blocks w, c ∈ w.mem.blocks := fun c hc =>
      h.owns.live c (List.mem_cons_of_mem _ (List.mem_append_left _ hc))
    obtain ⟨a, ha, rfl⟩ := List.mem_map.mp hb
    obtain ⟨o, ho, hok, -⟩ := h.heap.objs a ha
    have hsize := hok.header
    rw [← Graph.sizeAt_eq ho] at hsize
    exact ⟨Nat.lt_of_lt_of_le (by decide) hsize,
      (hstored _ hb).imp (hlive _) fun hn => ⟨hlive _ hn.1, hn.2⟩⟩
  recorded b hb := by
    refine h.owns.live b ?_
    rcases List.mem_cons.mp hb with rfl | hb
    · exact List.mem_cons_self
    · exact List.mem_cons_of_mem _ (List.mem_append_right _ hb)
  apart := hapart
  inside a ha := by
    obtain ⟨o, ho, hok, -⟩ := h.heap.objs a ha
    obtain ⟨d, hd, hdok⟩ := hok.desc
    refine ⟨o, ho, by rw [hd]; rfl, fun off hoff => ?_, hok.slots⟩
    rw [GcHeader.layout, hd] at hoff
    exact hdok.inside o.size o.bytes off hoff
  roots i := (h.heap.roots i).imp_right And.right
  handles k hk := by
    rw [gcHandleGet, h.heap.target_eq hk]
    exact h.heap.handles k hk
  fields := h.heap.fields

end

/-- An old object, or one of mark-sweep, has a block of its own. -/
theorem objectBlocks_eq (g : Graph) (nodes : List GcNode) :
    objectBlocks g nodes = (nodes.map GcNode.obj).map fun a => (a, g.sizeAt a) := by
  rw [List.map_map]
  rfl

theorem msManager_memorySafe {w : MsWorld} (h : msManager.Inv w) : MemorySafe msCollector w := by
  have hextents : msManager.extents w = msManager.blocks w := (objectBlocks_eq _ _).symm
  refine Manager.Inv.memorySafe h ?_ ?_
  · exact fun b hb => .inl (hextents ▸ hb)
  · rw [hextents]
    exact h.owns.pairwise.perm List.perm_middle.symm (fun hab => hab.symm)

theorem genManager_memorySafe {w : GenWorld} (h : (genManager False).Inv w) :
    MemorySafe genCollector w := by
  have hlay := h.alg.layout
  have hnursery : w.nursery = (w.algoState.nurserySpace, w.algoState.nurseryCapacity) := by
    rw [World.nursery, hlay.heap]
  have hold : (genManager False).extents w = objectBlocks w.graph w.algoState.oldObjects ++
      (nurseryObjects w).map fun y => (y, w.graph.sizeAt y) := by
    rw [objectBlocks_eq, ← List.map_append]
    rfl
  have hyoung : ∀ b ∈ (nurseryObjects w).map fun y => (y, w.graph.sizeAt y),
      Block.Within b (w.algoState.nurserySpace, w.algoState.nurseryCapacity) := by
    intro b hb
    obtain ⟨y, hy, rfl⟩ := List.mem_map.mp hb
    obtain ⟨hlo, hhi⟩ := hlay.tiles.bounds y hy
    have hheader := hlay.tiles.header y hy
    exact ⟨hlo, Nat.le_trans hhi (Nat.add_le_add_left hlay.used_le _),
      Nat.lt_of_lt_of_le (by decide) hheader⟩
  refine Manager.Inv.memorySafe h ?_ ?_
  · intro b hb
    rw [hold] at hb
    rw [hnursery]
    rcases List.mem_append.mp hb with hb | hb
    · exact .inl (List.mem_cons_of_mem _ hb)
    · exact .inr ⟨List.mem_cons_self, hyoung b hb⟩
  · rw [hold]
    -- the nursery is put in front, and divided
    have howned : ((w.algoState.nurserySpace, w.algoState.nurseryCapacity) ::
        (objectBlocks w.graph w.algoState.oldObjects ++ w.records)).Pairwise Block.Apart :=
      h.owns.pairwise.perm List.perm_middle.symm (fun hab => hab.symm)
    have hparts := pairwise_parts howned hlay.tiles.apart hyoung
    refine hparts.perm ?_ (fun hab => hab.symm)
    rw [← List.append_assoc]
    exact List.Perm.append_right _ List.perm_append_comm

/-! ### Memory safety -/

theorem Reclaimer.memorySafe : ∀ (k : Reclaimer) {w : World k.State}, k.enduring.Inv w →
    MemorySafe k.enduring.toCollector w
  | .genCopyMs, _, h => genManager_memorySafe h
  | .marksweepStw, _, h => msManager_memorySafe h

/-- Every run in which refused requests cost no live object is memory safe. -/
theorem memory_safe (k : Reclaimer) {w : World k.State}
    (hw : k.enduring.toCollector.Endures k.spared w) : MemorySafe k.enduring.toCollector w :=
  k.memorySafe (k.sparing.endures hw)

/-- Two old cells, one of which refers to the other, and a handle, after a full collection; and
    another cell in the nursery. -/
def genNext : GenWorld := ((ClientOp.alloc cell 24 0).perform genCollector genCollected).1

theorem memory_safe_sample : MemorySafe genCollector genNext ∧ genNext.old.length = 2 ∧
    (nurseryObjects genNext).length = 1 ∧ genNext.graph.handles.length = 1 := by
  have hnext : genCollector.Reaches genNext :=
    genCollected_reaches.step (.alloc cell 24 0) ⟨⟨cell_ok, by decide⟩, rfl, by decide +kernel⟩
  exact ⟨memory_safe .genCopyMs (genCollector_endures hnext), by decide +kernel, by decide +kernel,
    by decide +kernel⟩

end Xgc
