import Xgc.Algo.GenSpec
import Xgc.Algo.GenNursery

/-! Allocation and reference stores under the generational collector, and the proof that it is
    lawful. -/

namespace Xgc

open Lib (Reach Block)
open GcBarrierSet (cardIndexFor)

variable {tidy : Prop} {w : GenWorld}

/-! ### Allocation -/

theorem alignedSize_spec {n : Nat} (hn : sizeofHeader ≤ n) (hn' : n ≤ 2 ^ 32 - 8) :
    sizeofHeader ≤ alignedSize n ∧ alignedSize n < 2 ^ 32 ∧ n ≤ alignedSize n ∧
      alignedSize n < n + 8 ∧ 8 ∣ alignedSize n := by
  unfold sizeofHeader at hn
  unfold alignedSize sizeofHeader
  omega

/-- A young object is not pinned, so its flags are those of any new object. -/
theorem allocatedFlags_young (desc : GcDescriptor) {flags : BitVec 32}
    (hpin : flags &&& allocPinned = 0) : allocatedFlags desc flags =
      if desc.flags &&& descFlagHasFinalizer ≠ 0 then objectFlagFinalizable else 0 := by
  rw [allocatedFlags, hpin]
  simp

theorem gcGenAllocYoung_obj (w : GenWorld) (desc : GcDescriptor) (size : Nat) {flags : BitVec 32}
    (hpin : flags &&& allocPinned = 0) :
    (gcGenAllocYoung w desc size).1.graph.objs (gcGenAllocYoung w desc size).2 =
      some (newHeader desc size (allocatedFlags desc flags) w.graph.history.length) := by
  rw [allocatedFlags_young desc hpin]
  exact (Graph.setObj_objs _ _ _ _).trans (if_pos rfl)

/-- The free part of the nursery is apart from all objects. -/
theorem GenOk.apart_room {ys : List Nat} (hok : GenOk w ys) {n : Nat}
    (hfit : w.algoState.nurseryUsed + n ≤ w.algoState.nurseryCapacity) :
    ∀ b : Nat, b ∈ w.old ++ ys →
      b + w.graph.sizeAt b ≤ w.algoState.nurserySpace + w.algoState.nurseryUsed ∨
        w.algoState.nurserySpace + w.algoState.nurseryUsed + n ≤ b := by
  intro b hb
  rcases List.mem_append.mp hb with hb | hb
  · have hne : (b, w.graph.sizeAt b) ≠
        (w.algoState.nurserySpace, w.algoState.nurseryCapacity) := by
      intro he
      have hin := (hok.inNursery_iff b).mpr
      have hsize := (hok.layout.sized b (List.mem_append_left _ hb)).1
      have hfst : b = w.algoState.nurserySpace := congrArg Prod.fst he
      have hsnd : w.graph.sizeAt b = w.algoState.nurseryCapacity := congrArg Prod.snd he
      unfold sizeofHeader at hsize
      rw [hok.inNursery_old hb] at hin
      exact nomatch hin ⟨by omega, by omega⟩
    have hap := (hok.owns.pairwise.forall (GenOk.old_mem hb) (GenOk.space_mem w) hne).2
    simp only at hap
    omega
  · exact .inl (hok.layout.tiles.bounds b hb).2

/-- An address at which the nursery has room is not that of an object. -/
theorem room_notMem (h : (genManager tidy).Inv w) {n : Nat} (hn : 0 < n)
    (hfit : w.algoState.nurseryUsed + n ≤ w.algoState.nurseryCapacity) :
    w.algoState.nurserySpace + w.algoState.nurseryUsed ∉ genCollector.tracked w := by
  intro hmem
  have hsize := (h.alg.layout.sized _ hmem).1
  have := (genManager_ok h).apart_room hfit _ hmem
  unfold sizeofHeader at hsize
  omega

/-- An allocation in the nursery leaves the other objects alone. -/
theorem gcGenAllocYoung_objs (h : (genManager tidy).Inv w) (desc : GcDescriptor) {n : Nat}
    (hfit : w.algoState.nurseryUsed + n ≤ w.algoState.nurseryCapacity) {b : Nat}
    (hb : b ∈ genCollector.tracked w)
    (hne : b ≠ w.algoState.nurserySpace + w.algoState.nurseryUsed) :
    (gcGenAllocYoung w desc n).1.graph.objs b = w.graph.objs b := by
  have hap := (genManager_ok h).apart_room hfit b hb
  have hsize := (h.alg.layout.sized b hb).1
  refine (Graph.setObj_objs _ _ _ _).trans ((if_neg hne).trans (if_neg ?_))
  rintro ⟨h₁, h₂⟩
  unfold sizeofHeader at hsize
  omega

/-- The layout after an allocation in the nursery. -/
theorem gcGenAllocYoung_layout (h : (genManager tidy).Inv w) (desc : GcDescriptor) {size : Nat}
    (hsize : sizeofHeader ≤ size) (hsize' : size < 2 ^ 32)
    (hfit : w.algoState.nurseryUsed + size ≤ w.algoState.nurseryCapacity) :
    GenLayout (gcGenAllocYoung w desc size).1
      (nurseryObjects w ++ [w.algoState.nurserySpace + w.algoState.nurseryUsed]) := by
  have hok := genManager_ok h
  set obj : Nat := w.algoState.nurserySpace + w.algoState.nurseryUsed with hobj
  have hpos : 0 < size := Nat.lt_of_lt_of_le (by decide) hsize
  have hmod : (w.algoState.nurseryUsed + size) % 2 ^ 64 = w.algoState.nurseryUsed + size :=
    Nat.mod_eq_of_lt (by
      have := hok.space_range.2
      omega)
  set w' := (gcGenAllocYoung w desc size).1 with hw'
  have hsizes : ∀ b ∈ genCollector.tracked w, w'.graph.sizeAt b = w.graph.sizeAt b := by
    intro b hb
    have hne : b ≠ obj := by
      rintro rfl
      exact room_notMem h hpos hfit hb
    simp only [Graph.sizeAt, hw', gcGenAllocYoung_objs h desc hfit hb hne]
  have hsizeobj : w'.graph.sizeAt obj = size :=
    (Graph.sizeAt_eq (@gcGenAllocYoung_obj w desc size 0 rfl)).trans
      (Nat.mod_eq_of_lt hsize')
  have hold : ∀ n ∈ w.algoState.oldObjects, w'.graph.sizeAt n.obj = w.graph.sizeAt n.obj :=
    fun n hn => hsizes n.obj (List.mem_append_left _ (List.mem_map_of_mem hn))
  have hadd := GcStats.add_eq (s := w.stats) (n := size) (by
    have := hok.total_lt'
    omega)
  have hheap := h.alg.layout.heap
  have htotal := h.alg.layout.total
  refine ⟨?_, ?_, fun a ha => ?_, h.alg.layout.unmarked, fun o n => ?_, ?_, ?_⟩
  · show Tiles w'.graph w.algoState.nurserySpace ((w.algoState.nurseryUsed + size) % 2 ^ 64) _
    rw [hmod]
    exact (h.alg.layout.tiles.congr fun y hy => hsizes y (List.mem_append_right _ hy)).snoc
      hsizeobj hsize
  · show (w.algoState.nurseryUsed + size) % 2 ^ 64 ≤ w.algoState.nurseryCapacity
    rw [hmod]
    exact hfit
  · rw [← List.append_assoc] at ha
    rcases List.mem_append.mp ha with ha | ha
    · rw [hsizes a ha]
      exact h.alg.layout.sized a ha
    · rw [List.mem_singleton.mp ha, hsizeobj]
      exact ⟨hsize, hsize'⟩
  · show w.barriers.HasSize o n ↔ _
    rw [h.alg.layout.owners]
    refine and_congr_right fun ho => ?_
    rw [hsizes o (List.mem_append_left _ ho)]
  · show gcHeapRecordYoungAlloc w.heap size = { gcHeapRecordYoungAlloc w.heap size with
      youngBase := w.algoState.nurserySpace
      youngCapacity := w.algoState.nurseryCapacity
      youngUsed := (w.algoState.nurseryUsed + size) % 2 ^ 64
      oldObjectCount := w.algoState.oldObjects.length
      oldObjectBytes := bytesOf w'.graph w.algoState.oldObjects }
    rw [bytesOf_congr hold, hheap]
    rfl
  · show (w.stats.add size).totalAllocated = (w.algoState.nurseryUsed + size) % 2 ^ 64 +
      bytesOf w'.graph w.algoState.oldObjects
    rw [hadd, hmod, bytesOf_congr hold]
    simp only
    omega

/-- Storage and references after an allocation in the nursery. -/
theorem gcGenAllocYoung_spec (h : (genManager tidy).Inv w) {desc : GcDescriptor} (hd : desc.Ok)
    {size : Nat} (hsize : sizeofHeader ≤ size) (hsize' : size < 2 ^ 32)
    (hfit : w.algoState.nurseryUsed + size ≤ w.algoState.nurseryCapacity) {flags : BitVec 32}
    (hpin : flags &&& allocPinned = 0) :
    (genManager tidy).Inv (gcGenAllocYoung w desc size).1 ∧
      Allocated desc size flags w.graph (genCollector.tracked w) (gcGenAllocYoung w desc size).2
        (gcGenAllocYoung w desc size).1.graph
        (genCollector.tracked (gcGenAllocYoung w desc size).1) := by
  have hok := genManager_ok h
  have hlayout := gcGenAllocYoung_layout h desc hsize hsize' hfit
  set obj : Nat := w.algoState.nurserySpace + w.algoState.nurseryUsed with hobj
  have hpos : 0 < size := Nat.lt_of_lt_of_le (by decide) hsize
  set w' := (gcGenAllocYoung w desc size).1 with hw'
  have hnew : obj ∉ genCollector.tracked w := room_notMem h hpos hfit
  have hobjs : ∀ b ∈ genCollector.tracked w, w'.graph.objs b = w.graph.objs b := by
    intro b hb
    refine gcGenAllocYoung_objs h desc hfit hb ?_
    rintro rfl
    exact hnew hb
  have hsizes : ∀ b ∈ genCollector.tracked w, w'.graph.sizeAt b = w.graph.sizeAt b :=
    fun b hb => by simp [Graph.sizeAt, hobjs b hb]
  have hold : ∀ n ∈ w.algoState.oldObjects, w'.graph.sizeAt n.obj = w.graph.sizeAt n.obj :=
    fun n hn => hsizes n.obj (List.mem_append_left _ (List.mem_map_of_mem hn))
  have hyoung : nurseryObjects w' = nurseryObjects w ++ [obj] := GenOk.nurseryObjects_eq hlayout
  have htracked : genCollector.tracked w' = genCollector.tracked w ++ [obj] := by
    show w.old ++ nurseryObjects w' = (w.old ++ nurseryObjects w) ++ [obj]
    rw [hyoung, List.append_assoc]
  have halloc : Allocated desc size flags w.graph (genCollector.tracked w) obj w'.graph
      (genCollector.tracked w') := by
    have hne : obj ≠ 0 := by
      have := hok.space_range.1
      omega
    refine ⟨hne, hnew, ?_, (w.graph.clearRange obj size).objs, fun b hb => ?_, ?_⟩
    · rw [htracked]
      exact List.perm_append_comm
    · have hb' := hobjs b hb
      have hne : b ≠ obj := fun he => hnew (he ▸ hb)
      rw [show w'.graph.objs b = (w.graph.clearRange obj size).objs b from
        (Graph.setObj_objs _ _ _ _).trans (if_neg hne)] at hb'
      exact hb'
    · rw [allocatedFlags_young desc hpin]
      rfl
  have hfits : w.stats.totalAllocated + size < 2 ^ 64 := by
    have := hok.total_lt'
    omega
  refine ⟨⟨?_, halloc.heapInv h.heap hd hsize hsize', ?_, ?_⟩, halloc⟩
  · obtain ⟨hpeak, hexact⟩ := GcStats.add_ok hfits h.rt.statsExact
    exact { h.rt with peak := hpeak, statsExact := hexact }
  · show w.mem.Owns ((w.self, sizeofRuntime) :: ((w.algoState.nurserySpace,
      w.algoState.nurseryCapacity) :: objectBlocks w'.graph w.algoState.oldObjects ++
        handleBlocks w.graph.handles))
    rw [objectBlocks_congr hold]
    exact h.owns
  · refine ⟨by rwa [hyoung], h.alg.capacity, ?_, fun _ h0 => ?_, h.alg.refused, h.alg.copies,
      h.alg.cards⟩
    · intro a ha p hp
      have ha' : a ∈ genCollector.tracked w := List.mem_append_left _ ha
      rw [hyoung, Graph.slot_congr (hobjs a ha')] at hp
      rw [hsizes a ha']
      refine h.alg.remembered a ha p ?_
      rcases List.mem_append.mp hp with hp | hp
      · exact hp
      · -- nothing refers to the new object yet
        rw [List.mem_singleton] at hp
        rcases h.heap.fields a ha' p with h0 | hmem
        · exact absurd (hp.symm.trans h0) halloc.ne_zero
        · exact absurd (hp ▸ hmem) hnew
    · have : (w.algoState.nurseryUsed + size) % 2 ^ 64 = 0 := h0
      have := hok.space_range.2
      omega

/-- The runtime after the allocation of an old object at `t`. -/
def allocatedOld (w : GenWorld) (t : Addr) (desc : GcDescriptor) (size : Nat) (flags : BitVec 32)
    (m : Mem) (b : GcBarrierSet) : GenWorld :=
  { w with
    graph := { w.graph.setObj t (some (newHeader desc size (allocatedFlags desc flags)
      w.graph.history.length)) with history := w.graph.history ++ [desc] }
    mem := m
    barriers := b
    heap := gcHeapRecordOldAlloc w.heap (size % 2 ^ 32)
    stats := w.stats.add size
    algoState := { w.algoState with
      oldObjects := { obj := t, marked := false } :: w.algoState.oldObjects } }

/-- An allocation of an old object is refused a request, or adds the object under the 32 bits of its
    size that are recorded, which must not be zero. -/
theorem gcGenAllocOld_cases (h : (genManager tidy).Inv w) (desc : GcDescriptor) (size : Nat)
    (flags : BitVec 32) :
    (∃ m b, w.mem.Quiet m ∧ (m.failed = true ∨ size % 2 ^ 32 = 0) ∧ b.Ok ∧ SameCards w.barriers b ∧
      gcGenAllocOld w desc size flags = ({ w with mem := m, barriers := b }, 0)) ∨
    ∃ t m b, w.mem.Fits t size ∧ (w.mem.grant t size).Quiet m ∧ size % 2 ^ 32 ≠ 0 ∧ b.Ok ∧
      AddsOwner w.barriers b t (size % 2 ^ 32) ∧
      gcGenAllocOld w desc size flags = (allocatedOld w t desc size flags m b, t) := by
  have hok := genManager_ok h
  unfold gcGenAllocOld
  rcases w.mem.malloc_cases size with hm | ⟨t, hfit, hm⟩
  · exact .inl ⟨_, w.barriers, w.mem.quiet_refuse, .inl rfl, h.rt.barriers, .refl _,
      by simp only [hm, if_true]⟩
  have ht0 : t ≠ 0 := Nat.pos_iff_ne_zero.mp hfit.1
  simp only [hm, if_neg ht0]
  by_cases hrec : size % 2 ^ 32 = 0
  · obtain ⟨m, hadd, hq⟩ := gcGenAddOldNode_zero { w with mem := w.mem.grant t size } t
    refine .inl ⟨_, w.barriers, Mem.quiet_grant_free hfit hq, .inr hrec, h.rt.barriers, .refl _, ?_⟩
    simp only [hrec, hadd, Bool.not_false, if_true]
  have hpos : 0 < size := by omega
  have howner : t ∉ w.barriers.owners := fun hmem =>
    (hok.fresh_of_fits hfit hpos).1 ((owners_iff h.alg.layout t).mp hmem)
  rcases gcGenAddOldNode_cases (w := { w with mem := w.mem.grant t size }) h.rt.barriers ht0
      hrec (Nat.mod_lt _ (by decide)) howner with
    ⟨b, m, hadd, hq, hb, hcards⟩ | ⟨b, m, hadd, hq, hfail, hb, hcards⟩
  · refine .inr ⟨t, m, b, hfit, hq, hrec, hb, hcards, ?_⟩
    simp only [hadd, Bool.not_true, Bool.false_eq_true, if_false]
    rfl
  · refine .inl ⟨_, b, Mem.quiet_grant_free hfit hq, .inl ?_, hb, hcards, ?_⟩
    · rw [Mem.free_failed]
      exact hfail
    · simp only [hadd, Bool.not_false, if_true]

/-- The invariant after the allocation of an old object. -/
theorem allocatedOld_spec (h : (genManager tidy).Inv w) {desc : GcDescriptor} (hd : desc.Ok)
    {size : Nat} (hsize : sizeofHeader ≤ size) (hsize' : size < 2 ^ 32) (flags : BitVec 32)
    {t : Nat} {m : Mem} {b : GcBarrierSet} (hfit : w.mem.Fits t size)
    (hq : (w.mem.grant t size).Quiet m) (hb : b.Ok)
    (hcards : AddsOwner w.barriers b t (size % 2 ^ 32)) :
    (genManager tidy).Inv (allocatedOld w t desc size flags m b) ∧
      Allocated desc size flags w.graph (genCollector.tracked w) t
        (allocatedOld w t desc size flags m b).graph
        (genCollector.tracked (allocatedOld w t desc size flags m b)) := by
  have hok := genManager_ok h
  have hpos : 0 < size := by
    unfold sizeofHeader at hsize
    omega
  have hmod : size % 2 ^ 32 = size := Nat.mod_eq_of_lt hsize'
  obtain ⟨hnold, hnyoung, -⟩ := hok.fresh_of_fits hfit hpos
  set w' := allocatedOld w t desc size flags m b with hw'
  have hnew : t ∉ genCollector.tracked w := fun hmem =>
    (List.mem_append.mp hmem).elim hnold hnyoung
  have hobjs : ∀ a ∈ genCollector.tracked w, w'.graph.objs a = w.graph.objs a := by
    intro a ha
    have hne : a ≠ t := fun he => hnew (he ▸ ha)
    simp [hw', allocatedOld, hne]
  have hself : w'.graph.objs t = some (newHeader desc size (allocatedFlags desc flags)
      w.graph.history.length) := by
    simp [hw', allocatedOld]
  have hsizes : ∀ a ∈ genCollector.tracked w, w'.graph.sizeAt a = w.graph.sizeAt a :=
    fun a ha => by simp [Graph.sizeAt, hobjs a ha]
  have hok' : GenOk w' (nurseryObjects w) := by
    rw [hw', allocatedOld, hmod]
    exact hok.addOld hfit hsize hsize' hq hb (hmod ▸ hcards) hsizes
      ((Graph.sizeAt_eq hself).trans hmod) rfl
  have hyoung : nurseryObjects w' = nurseryObjects w := GenOk.nurseryObjects_eq hok'.layout
  have htracked : genCollector.tracked w' = t :: genCollector.tracked w := by
    show t :: (w.old ++ nurseryObjects w') = t :: (w.old ++ nurseryObjects w)
    rw [hyoung]
  have halloc : Allocated desc size flags w.graph (genCollector.tracked w) t w'.graph
      (genCollector.tracked w') := by
    rw [htracked]
    exact ⟨Nat.pos_iff_ne_zero.mp hfit.1, hnew, .refl _, w.graph.objs, fun _ _ => rfl, rfl⟩
  refine ⟨⟨hok'.rt, halloc.heapInv h.heap hd hsize hsize', hok'.owns, ?_⟩, halloc⟩
  refine ⟨by rw [hyoung]; exact hok'.layout, h.alg.capacity, ?_, fun ht h0 o c hoc => ?_,
    h.alg.refused, h.alg.copies, h.alg.cards⟩
  · rw [hyoung]
    intro a ha p hp
    rcases List.mem_cons.mp (show a ∈ t :: w.old from ha) with rfl | ha
    · -- the new object refers to nothing
      rw [Graph.slot_eq hself] at hp
      exact absurd rfl (hok.young_ne_zero hp)
    · have ha' : a ∈ genCollector.tracked w := List.mem_append_left _ ha
      rw [Graph.slot_congr (hobjs a ha')] at hp
      rw [hsizes a ha']
      show b.Dirty a (cardIndexFor b.oldToYoung.cardGranularity a _ _)
      rw [hcards.dirty, hcards.granularity]
      exact h.alg.remembered a ha p hp
  · exact h.alg.clean ht h0 o c ((hcards.dirty o c).mp hoc)

/-- All other storage in use lies outside the nursery. -/
theorem GenOk.outside {ys : List Nat} (hok : GenOk w ys) {b : Block}
    (hb : b ∈ objectBlocks w.graph w.algoState.oldObjects ++ handleBlocks w.graph.handles) :
    w.Outside b.1 := by
  have hap := (List.pairwise_cons.mp (List.pairwise_cons.mp hok.owns.pairwise).2).1 b hb
  unfold GenWorld.Outside
  have h₁ : w.algoState.nurserySpace ≠ b.1 := hap.1
  have h₂ : w.algoState.nurserySpace + w.algoState.nurseryCapacity ≤ b.1 ∨
    b.1 + b.2 ≤ w.algoState.nurserySpace := hap.2
  omega

/-- The invariant says where the nursery is and what lies in it. -/
theorem genManager_nursery (h : (genManager tidy).Inv w) : NurseryInv w (nurseryObjects w) where
  kept :=
    { bound := h.rt.bound
      space := rfl
      capacity := rfl
      used := rfl
      pos := (genManager_ok h).space_range.1
      live := h.owns.live _ (GenOk.space_mem w)
      old := fun n hn => (genManager_ok h).outside (b := (n.obj, w.graph.sizeAt n.obj))
        (List.mem_append_left _ (List.mem_map_of_mem hn))
      handles := fun k hk => (genManager_ok h).outside (b := (k.addr, sizeofHandle))
        (List.mem_append_right _ (List.mem_map_of_mem hk))
      headers := fun _ _ => rfl }
  used_le := h.alg.layout.used_le
  capacity := h.alg.capacity
  tiles := h.alg.layout.tiles

/-- There is room after the collection. -/
theorem withRoom_spec (h : (genManager tidy).Inv w) {size : Nat} (hsize : sizeofHeader ≤ size)
    {flags : BitVec 32} (hyoung : ForNursery w size flags) :
    0 < (withRoom w size flags).algoState.nurserySpace ∧
      (withRoom w size flags).algoState.nurseryUsed + alignedSize size ≤
        (withRoom w size flags).algoState.nurseryCapacity ∧
      (withRoom w size flags).algoState.nurseryCapacity ≤ ptrdiffMax := by
  have hn := (genManager_nursery h).toRoomy
  have hv := hn.withRoom size flags
  exact ⟨hv.kept.pos, hn.room hsize hyoung, hv.capacity⟩

/-- The ways through `gc_gen_alloc`. -/
theorem gcGenAlloc_cases (h : (genManager tidy).Inv w) (desc : GcDescriptor) {size : Nat}
    (hsize : sizeofHeader ≤ size) (flags : BitVec 32) :
    (ForNursery w size flags ∧ gcGenAlloc w desc size flags =
      gcGenAllocYoung (withRoom w size flags) desc (alignedSize size)) ∨
    (¬ ForNursery w size flags ∧
      gcGenAlloc w desc size flags = gcGenAllocOld w desc (alignedSize size) flags) :=
  (genManager_nursery h).alloc_cases desc hsize flags

/-- An old object that could not be allocated leaves the invariant. -/
theorem genManager_inv_refused (h : (genManager tidy).Inv w) {m : Mem} {b : GcBarrierSet}
    (hq : w.mem.Quiet m) (hb : b.Ok) (hcards : SameCards w.barriers b) :
    (genManager tidy).Inv { w with mem := m, barriers := b } := by
  have hok := (genManager_ok h).setBarriers (h.owns.quiet hq) hb hcards.size hcards.granularity
  refine ⟨hok.rt, h.heap, hok.owns, hok.layout, h.alg.capacity, fun a ha p hp => ?_,
    fun ht h0 o c hd => h.alg.clean ht h0 o c ((hcards.dirty o c).mp hd), h.alg.refused,
    h.alg.copies, h.alg.cards⟩
  show b.Dirty a (cardIndexFor b.oldToYoung.cardGranularity a _ _)
  rw [hcards.dirty, hcards.granularity]
  exact h.alg.remembered a ha p hp

/-- `gc_alloc_typed` under the generational collector for any size: it returns a new object in the
    nursery, perhaps after a minor collection, or a new old object; or the algorithm has no object to
    give, and it returns `NULL` or plain memory. -/
theorem gcAllocTyped_gen_any (h : (genManager tidy).Inv w) (desc : GcDescriptor) {size : Nat}
    (hsize : sizeofHeader ≤ size) (flags : BitVec 32) :
    (ForNursery w size flags ∧ gcAllocTyped gcGenCopyMsVtable w desc size flags =
      let r := gcGenAllocYoung (withRoom w size flags) desc (alignedSize size)
      ({ r.1 with graph := r.1.graph.modifyObj r.2 (repairHeader desc size flags) }, r.2)) ∨
    (¬ ForNursery w size flags ∧ ∃ t m b, w.mem.Fits t (alignedSize size) ∧
      (w.mem.grant t (alignedSize size)).Quiet m ∧ alignedSize size % 2 ^ 32 ≠ 0 ∧ b.Ok ∧
      AddsOwner w.barriers b t (alignedSize size % 2 ^ 32) ∧
      gcGenAlloc w desc size flags = (allocatedOld w t desc (alignedSize size) flags m b, t) ∧
      gcAllocTyped gcGenCopyMsVtable w desc size flags =
        (allocatedOld w t desc (alignedSize size) flags m b, t)) ∨
    (¬ ForNursery w size flags ∧ ∃ m b, w.mem.Quiet m ∧
      (m.failed = true ∨ alignedSize size % 2 ^ 32 = 0) ∧ b.Ok ∧ SameCards w.barriers b ∧
      gcGenAlloc w desc size flags = ({ w with mem := m, barriers := b }, 0) ∧
      (((m.malloc size).2 = 0 ∧ gcAllocTyped gcGenCopyMsVtable w desc size flags =
          ({ w with mem := m.refuse, barriers := b }, 0)) ∨
        ((m.malloc size).2 ≠ 0 ∧ ∃ a, m.Fits a size ∧
          gcAllocTyped gcGenCopyMsVtable w desc size flags =
            ({ w with mem := m.grant a size, barriers := b }.addObject a desc fun tag =>
              repairHeader desc size flags (zeroHeader tag), a)))) := by
  rcases gcGenAlloc_cases h desc hsize flags with ⟨hyoung, halloc⟩ | ⟨hyoung, halloc⟩
  · have hpos := (withRoom_spec h hsize hyoung).1
    have hne : (withRoom w size flags).algoState.nurserySpace +
        (withRoom w size flags).algoState.nurseryUsed ≠ 0 := by omega
    exact .inl ⟨hyoung, gcAllocTyped_repaired gcGenCopyMsVtable rfl rfl hsize halloc hne⟩
  · rcases gcGenAllocOld_cases h desc (alignedSize size) flags with
      ⟨m, b, hq, hf, hb, hcards, heq⟩ | ⟨t, m, b, hfit, hq, hne, hb, hcards, heq⟩
    · have hplain := gcAllocTyped_plain gcGenCopyMsVtable rfl rfl hsize (halloc.trans heq)
      exact .inr (.inr ⟨hyoung, m, b, hq, hf, hb, hcards, halloc.trans heq, hplain⟩)
    · have heq' : gcAllocTyped gcGenCopyMsVtable w desc size flags = gcGenAlloc w desc size flags :=
        gcAllocTyped_of_alloc gcGenCopyMsVtable rfl rfl hsize
          (by rw [halloc, heq]; exact Nat.pos_iff_ne_zero.mp hfit.1) hne
          (by rw [halloc, heq]; exact (Graph.setObj_objs _ _ _ _).trans (if_pos rfl))
      exact .inr (.inl ⟨hyoung, t, m, b, hfit, hq, hne, hb, hcards, halloc.trans heq,
        heq'.trans (halloc.trans heq)⟩)

/-- The headers of the objects in the nursery need no repair. -/
theorem gcGenAllocYoung_repaired (w : GenWorld) (desc : GcDescriptor) {n : Nat}
    (hn : n % 2 ^ 32 ≠ 0) {size : Nat} {flags : BitVec 32} (hpin : flags &&& allocPinned = 0) :
    (gcGenAllocYoung w desc n).1.graph.modifyObj (gcGenAllocYoung w desc n).2
      (repairHeader desc size flags) = (gcGenAllocYoung w desc n).1.graph := by
  have hobj := gcGenAllocYoung_obj w desc n hpin
  have hupd : Function.update (gcGenAllocYoung w desc n).1.graph.objs (gcGenAllocYoung w desc n).2
      (some (repairHeader desc size flags (newHeader desc n (allocatedFlags desc flags)
        w.graph.history.length))) = (gcGenAllocYoung w desc n).1.graph.objs := by
    rw [repairHeader_newHeader desc hn, ← hobj, Function.update_eq_self]
  rw [Graph.modifyObj, hobj, Option.map_some, Graph.setObj, hupd]

/-- `gc_alloc_typed` under the generational collector for the sizes that clients may ask for. -/
theorem gcAllocTyped_gen_cases (h : (genManager tidy).Inv w) (desc : GcDescriptor) {size : Nat}
    (hmax : size ≤ 2 ^ 32 - 8) (flags : BitVec 32) :
    (∃ m b, w.mem.Quiet m ∧ (sizeofHeader ≤ size → m.failed = true) ∧ b.Ok ∧
      SameCards w.barriers b ∧ ¬ AllocCollects w size flags ∧
      gcAllocTyped gcGenCopyMsVtable w desc size flags = ({ w with mem := m, barriers := b }, 0)) ∨
    (sizeofHeader ≤ size ∧ ForNursery w size flags ∧
      gcAllocTyped gcGenCopyMsVtable w desc size flags =
        gcGenAllocYoung (withRoom w size flags) desc (alignedSize size)) ∨
    (sizeofHeader ≤ size ∧ ¬ AllocCollects w size flags ∧
      ∃ t m b, w.mem.Fits t (alignedSize size) ∧
      (w.mem.grant t (alignedSize size)).Quiet m ∧ b.Ok ∧
      AddsOwner w.barriers b t (alignedSize size % 2 ^ 32) ∧
      gcAllocTyped gcGenCopyMsVtable w desc size flags =
        (allocatedOld w t desc (alignedSize size) flags m b, t)) ∨
    (sizeofHeader ≤ size ∧ ¬ AllocCollects w size flags ∧
      ∃ a m b, w.mem.Quiet m ∧ m.failed = true ∧ b.Ok ∧ SameCards w.barriers b ∧ m.Fits a size ∧
      gcAllocTyped gcGenCopyMsVtable w desc size flags =
        ({ w with mem := m.grant a size, barriers := b }.addObject a desc fun tag =>
          repairHeader desc size flags (zeroHeader tag), a)) := by
  by_cases hsmall : size < sizeofHeader
  · refine .inl ⟨w.mem, w.barriers, .refl _, fun hsize => absurd hsmall (Nat.not_lt.mpr hsize),
      h.rt.barriers, .refl _, fun hc => Nat.not_lt.mpr hc.1 hsmall, ?_⟩
    rw [gcAllocTyped, if_pos hsmall]
  have hsize : sizeofHeader ≤ size := Nat.le_of_not_lt hsmall
  obtain ⟨hmin, hlt, -⟩ := alignedSize_spec hsize hmax
  have hne : alignedSize size % 2 ^ 32 ≠ 0 := by
    unfold sizeofHeader at hmin
    omega
  rcases gcAllocTyped_gen_any h desc hsize flags with ⟨hyoung, heq⟩ |
    ⟨hyoung, t, m, b, hfit, hq, -, hb, hcards, -, heq⟩ |
    ⟨hyoung, m, b, hq, hf, hb, hcards, -, ⟨-, heq⟩ | ⟨-, a, hfit, heq⟩⟩
  · refine .inr (.inl ⟨hsize, hyoung, heq.trans ?_⟩)
    simp only [gcGenAllocYoung_repaired _ desc hne hyoung.1]
  · exact .inr (.inr (.inl ⟨hsize, fun hc => hyoung hc.2.1, t, m, b, hfit, hq, hb, hcards, heq⟩))
  · exact .inl ⟨_, b, hq.trans m.quiet_refuse, fun _ => rfl, hb, hcards, fun hc => hyoung hc.2.1,
      heq⟩
  · exact .inr (.inr (.inr ⟨hsize, fun hc => hyoung hc.2.1, a, m, b, hq, hf.resolve_right hne, hb,
      hcards, hfit, heq⟩))

/-- `gc_alloc_typed` under the generational collector, when nothing is refused. -/
theorem genManager_alloc (h : (genManager tidy).Inv w) {desc : GcDescriptor} (hd : desc.Ok)
    {size : Nat} (hmax : size ≤ 2 ^ 32 - 8) (flags : BitVec 32)
    (hg : (gcAllocTyped gcGenCopyMsVtable w desc size flags).1.Granted) :
    (genManager tidy).Inv (gcAllocTyped gcGenCopyMsVtable w desc size flags).1 ∧
      Effect alignedSize (.alloc desc size flags) w.graph (genCollector.tracked w)
        (gcAllocTyped gcGenCopyMsVtable w desc size flags).2
        (gcAllocTyped gcGenCopyMsVtable w desc size flags).1.graph
        (genCollector.tracked (gcAllocTyped gcGenCopyMsVtable w desc size flags).1) := by
  by_cases hsmall : size < sizeofHeader
  · have heq : gcAllocTyped gcGenCopyMsVtable w desc size flags = (w, 0) := by
      rw [gcAllocTyped, if_pos hsmall]
    rw [heq]
    simpa [Effect, hsmall] using h
  simp only [Effect, if_neg hsmall]
  rcases gcAllocTyped_gen_cases h desc hmax flags with
    ⟨m, b, -, hf, -, -, -, heq⟩ | ⟨hsize, hyoung, heq⟩ |
    ⟨hsize, -, t, m, b, hfit, hq, hb, hcards, heq⟩ | ⟨-, -, a, m, b, -, hf, -, -, -, heq⟩
  · have hf' : m.failed = false := by
      have := hg.1
      rwa [heq] at this
    exact absurd ((hf (Nat.le_of_not_lt hsmall)).symm.trans hf') (by decide)
  · rw [heq] at hg ⊢
    have hstart : (genManager tidy).Inv (withRoom w size flags) ∧
        ∃ keep φ, Collected w.graph (withRoom w size flags).graph (genCollector.tracked w)
          (genCollector.tracked (withRoom w size flags)) keep φ := by
      have hg₁ : (withRoom w size flags).mem.failed = false ∧
          (withRoom w size flags).losses.copies = [] := ⟨hg.1, hg.2.1⟩
      revert hg₁
      unfold withRoom
      split
      · intro hg₁
        obtain ⟨hinv, φ, hexact⟩ := gcGenCollectMinorImpl_exact h hg₁.1 hg₁.2
        exact ⟨hinv, _, _, hexact.collected⟩
      · exact fun _ => ⟨h, _, _, .refl h.heap⟩
    obtain ⟨hinv₁, keep, φ, hc⟩ := hstart
    obtain ⟨hmin, hlt, -⟩ := alignedSize_spec hsize hmax
    obtain ⟨hinv, ha⟩ := gcGenAllocYoung_spec hinv₁ hd hmin hlt
      (withRoom_spec h hsize hyoung).2.1 hyoung.1
    exact ⟨hinv, _, _, keep, φ, hc, ha⟩
  · rw [heq]
    obtain ⟨hmin, hlt, -⟩ := alignedSize_spec hsize hmax
    obtain ⟨hinv, ha⟩ := allocatedOld_spec h hd hmin hlt flags hfit hq hb hcards
    exact ⟨hinv, _, _, _, _, .refl h.heap, ha⟩
  · have hf' : m.failed = false := by
      have := hg.1
      rwa [heq] at this
    exact absurd (hf.symm.trans hf') (by decide)

/-! ### Stores -/

/-- `gc_gen_write_barrier` marks the card of the slot exactly when an old object has been made to
    refer to a young one. -/
theorem gcGenWriteBarrier_cases (h : (genManager tidy).Inv w) {owner : Addr} {loc : SlotLoc} {v : Addr}
    (howner : owner ∈ genCollector.tracked w) (hloc : loc.addr owner ≠ 0)
    (hv : v = 0 ∨ v ∈ genCollector.tracked w) (graph : Graph) (old : Addr) :
    (gcGenWriteBarrier { w with graph } owner loc old v = { w with graph } ∧
      (owner ∈ w.old → v ∉ nurseryObjects w)) ∨
    (owner ∈ w.old ∧ v ∈ nurseryObjects w ∧
      gcGenWriteBarrier { w with graph } owner loc old v =
        { w with graph, barriers := gcBarrierMarkSlotDirty w.barriers owner (loc.addr owner) }) := by
  have hok := genManager_ok h
  have h0 : owner ≠ 0 := h.heap.ne_zero howner
  have hbound : ¬ (!w.stateBound) = true := by simp [h.rt.bound]
  unfold gcGenWriteBarrier
  by_cases hv0 : v = 0
  · refine .inl ⟨if_pos (.inr (.inr hv0)), fun _ hy => hok.young_ne_zero hy hv0⟩
  rw [if_neg (by simp [h0, hloc, hv0])]
  simp only [if_neg hbound]
  rcases List.mem_append.mp howner with ho | ho
  swap
  · exact .inl ⟨if_pos (hok.inNursery_young ho), fun ho' => absurd ho (hok.old_notMem ho')⟩
  rw [if_neg (by simp [hok.inNursery_old ho])]
  rcases List.mem_append.mp (hv.resolve_left hv0) with hv | hv
  · exact .inl ⟨if_pos (by simp [hok.inNursery_old hv]), fun _ => hok.old_notMem hv⟩
  · exact .inr ⟨ho, hv, if_neg (by simp [hok.inNursery_young hv])⟩

theorem GcHeader.Ok.addr_ne_zero {o : GcHeader} (h : o.Ok) {p : SlotLoc} (hp : p ∈ o.layout)
    {a : Addr} (ha : a ≠ 0) : p.addr a ≠ 0 := by
  obtain ⟨d, hd, hok⟩ := h.desc
  rw [GcHeader.layout, hd] at hp
  cases p with
  | inline off => exact fun h0 => ha (Nat.eq_zero_of_add_eq_zero_right h0)
  | outline b =>
    rintro rfl
    exact hok.outside _ _ hp

/-- A store changes neither sizes nor handles. -/
theorem genOk_write (h : (genManager tidy).Inv w) (r : SlotRef) (v : Addr)
    (hr : ∀ k, r ≠ .handle k) :
    GenOk { w with graph := w.graph.write r v } (nurseryObjects w) := by
  have hhandles : (w.graph.write r v).handles = w.graph.handles := by
    cases r with
    | root i => rfl
    | field a p => rfl
    | handle k => exact absurd rfl (hr k)
  refine (genManager_ok h).setGraph w.losses (fun a _ => w.graph.sizeAt_write r v a)
    ?_ ?_
  · rw [hhandles]
  · rw [hhandles]
    exact h.rt.runtime

/-- `gc_store_ref` under the generational collector. -/
theorem genManager_store (h : (genManager tidy).Inv w) {owner : Addr} {loc : SlotLoc} {v : Addr}
    (hl : ClientOp.Legal genCollector.maxSize w.graph (genCollector.tracked w)
      (.storeRef owner loc v)) :
    (genManager tidy).Inv (gcStoreRef gcGenCopyMsVtable w owner loc v) ∧
      (gcStoreRef gcGenCopyMsVtable w owner loc v).graph = w.graph.write (.field owner loc) v ∧
      genCollector.tracked (gcStoreRef gcGenCopyMsVtable w owner loc v) = genCollector.tracked w := by
  obtain ⟨howner, hlayout, hv⟩ := hl
  obtain ⟨o, ho, hook, -⟩ := h.heap.objs owner howner
  have hok := genManager_ok h
  have hwok := genOk_write h (.field owner loc) v fun k he => nomatch he
  have hheap := h.heap.writeField hlayout hv
  have hread := Graph.read_write (g := w.graph) (r := .field owner loc) ⟨o, ho⟩ v
  have hslot : ∀ a p, ¬ (a = owner ∧ p = loc) →
      (w.graph.write (.field owner loc) v).slot a p = w.graph.slot a p := by
    intro a p hne
    refine (hread (.field a p)).trans (if_neg fun he => hne ?_)
    cases he
    exact ⟨rfl, rfl⟩
  have hself : (w.graph.write (.field owner loc) v).slot owner loc = v :=
    (hread (.field owner loc)).trans (if_pos rfl)
  have hsize := fun a => w.graph.sizeAt_write (.field owner loc) v a
  have hstore : gcStoreRef gcGenCopyMsVtable w owner loc v = gcGenWriteBarrier
      { w with graph := w.graph.write (.field owner loc) v } owner loc (w.graph.slot owner loc) v :=
    rfl
  rcases gcGenWriteBarrier_cases h howner (hook.addr_ne_zero (hlayout o ho) (h.heap.ne_zero howner))
      hv (w.graph.write (.field owner loc) v) (w.graph.slot owner loc) with
    ⟨heq, hno⟩ | ⟨hoo, hvy, heq⟩
  · -- no card is marked: the owner is young, or it does not come to refer to a young object
    rw [hstore, heq]
    have hyoung := GenOk.nurseryObjects_eq hwok.layout
    refine ⟨⟨hwok.rt, ?_, hwok.owns, ⟨by rw [hyoung]; exact hwok.layout, h.alg.capacity, ?_,
      h.alg.clean, h.alg.refused, h.alg.copies, h.alg.cards⟩⟩, rfl, ?_⟩
    · show HeapInv _ (w.old ++ nurseryObjects _)
      rw [hyoung]
      exact hheap
    · rw [hyoung]
      intro a ha p hp
      by_cases hap : a = owner ∧ p = loc
      · obtain ⟨rfl, rfl⟩ := hap
        exact absurd (hself ▸ hp) (hno ha)
      · rw [hsize]
        exact h.alg.remembered a ha p (hslot a p hap ▸ hp)
    · show w.old ++ nurseryObjects _ = w.old ++ nurseryObjects w
      rw [hyoung]
  · -- the card of the slot is marked
    rw [hstore, heq]
    obtain ⟨hb, hsame, hdirty⟩ := GcBarrierSet.markSlot_spec h.rt.barriers owner
      (hook.addr_ne_zero (hlayout o ho) (h.heap.ne_zero howner))
    have hbok := hwok.setBarriers (m := w.mem) hwok.owns hb hsame.size hsame.granularity
    have hyoung := GenOk.nurseryObjects_eq hbok.layout
    refine ⟨⟨hbok.rt, ?_, hbok.owns, ⟨by rw [hyoung]; exact hbok.layout, h.alg.capacity, ?_,
      fun _ h0 => ?_, h.alg.refused, h.alg.copies, h.alg.cards⟩⟩, rfl, ?_⟩
    · show HeapInv _ (w.old ++ nurseryObjects _)
      rw [hyoung]
      exact hheap
    · rw [hyoung]
      intro a ha p hp
      show GcBarrierSet.Dirty (gcBarrierMarkSlotDirty _ _ _) a (cardIndexFor
        (gcBarrierMarkSlotDirty _ _ _).oldToYoung.cardGranularity _ _ _)
      rw [hdirty, hsame.granularity, hsize]
      by_cases hap : a = owner ∧ p = loc
      · obtain ⟨rfl, rfl⟩ := hap
        exact .inr ⟨rfl, _, (h.alg.layout.owners _ _).mpr ⟨hoo, rfl⟩, rfl⟩
      · exact .inl (h.alg.remembered a ha p (hslot a p hap ▸ hp))
    · rw [nurseryObjects_nil (w := w) h0] at hvy
      exact nomatch hvy
    · show w.old ++ nurseryObjects _ = w.old ++ nurseryObjects w
      rw [hyoung]

/-! ### The other calls -/

/-- A change of the graph that keeps sizes and references. -/
theorem genManager_reshape (h : (genManager tidy).Inv w) (graph : Graph) (mem : Mem)
    (hs : SameShape w.graph graph (genCollector.tracked w)) :
    genCollector.tracked { w with graph, mem } = genCollector.tracked w ∧
      (genManager tidy).blocks { w with graph, mem } = (genManager tidy).blocks w ∧
      (genManager tidy).Alg { w with graph, mem } := by
  have hsizes : ∀ a ∈ genCollector.tracked w, graph.sizeAt a = w.graph.sizeAt a :=
    fun a ha => hs.sizeAt h.heap ha
  have hold : ∀ n ∈ w.algoState.oldObjects, graph.sizeAt n.obj = w.graph.sizeAt n.obj :=
    fun n hn => hsizes _ (List.mem_append_left _ (List.mem_map_of_mem hn))
  have hlayout : GenLayout ({ w with graph, mem } : GenWorld) (nurseryObjects w) :=
    h.alg.layout.reshape hsizes mem
  have hyoung := GenOk.nurseryObjects_eq hlayout
  refine ⟨?_, ?_, by rwa [hyoung], h.alg.capacity, ?_, h.alg.clean, h.alg.refused, h.alg.copies,
    h.alg.cards⟩
  · show w.old ++ nurseryObjects _ = w.old ++ nurseryObjects w
    rw [hyoung]
  · show _ :: objectBlocks graph w.algoState.oldObjects = _
    rw [objectBlocks_congr hold]
    rfl
  · rw [hyoung]
    intro a ha p hp
    have ha' : a ∈ genCollector.tracked w := List.mem_append_left _ ha
    obtain ⟨o, ho, -⟩ := h.heap.objs a ha'
    obtain ⟨o', ho', -, hslots⟩ := hs a ha' o ho
    have hslot : graph.slot a p = w.graph.slot a p := by
      rw [Graph.slot_eq ho, Graph.slot_eq ho', hslots]
    show GcBarrierSet.Dirty _ a (cardIndexFor _ a (graph.sizeAt a) (p.addr a))
    rw [hsizes a ha']
    exact h.alg.remembered a ha p (hslot ▸ hp)

/-- `gc_gen_global_init`, when its requests are granted. -/
theorem gcGenGlobalInit_eq (w : GenWorld) {cfg : GcConfig} (hcfg : cfg.gcYoungSpaceSize ≠ 0)
    (hg : (gcGenGlobalInit w cfg).mem.failed = false) :
    ∃ space, (w.mem.tryReserve 40).1.Fits space cfg.gcYoungSpaceSize ∧ gcGenGlobalInit w cfg =
      { w with
        mem := (w.mem.tryReserve 40).1.grant space cfg.gcYoungSpaceSize
        heap := gcHeapSetYoungSpace w.heap space cfg.gcYoungSpaceSize
        algoState := { nurserySpace := space, nurseryCapacity := cfg.gcYoungSpaceSize,
                       nurseryUsed := 0, oldObjects := [], forwarded := [] }
        stateBound := true } := by
  unfold gcGenGlobalInit at hg ⊢
  simp only [hcfg, ne_eq, not_false_eq_true, if_true] at hg ⊢
  rcases w.mem.reserve_cases 40 with hr | hr
  · simp only [hr, Bool.not_true, Bool.false_eq_true, if_false] at hg ⊢
    rcases (w.mem.tryReserve 40).1.malloc_cases cfg.gcYoungSpaceSize with hm | ⟨space, hfit, hm⟩
    · simp [hm, Mem.refuse] at hg
    · have hne : space ≠ 0 := Nat.pos_iff_ne_zero.mp hfit.1
      exact ⟨space, hfit, by simp only [hm, if_neg hne]⟩
  · simp [hr, Mem.refuse] at hg

/-- A fresh runtime of the generational collector has an empty heap. -/
theorem genCollector_starts (h : genCollector.Starts w) : ∃ hooks, w.graph =
    { objs := fun _ => none, roots := fun _ => 0, handles := [], hooks, history := [],
      log := [] } :=
  h.graph fun init hinit w cfg => by
    obtain rfl := Option.some.inj hinit
    simp only [gcGenGlobalInit, apply_ite World.graph, ite_self]

/-- Counting a collection changes nothing else. -/
theorem genManager_inv_count (h : (genManager tidy).Inv w) {stats : GcStats}
    (htotal : stats.totalAllocated = w.stats.totalAllocated)
    (hpeak : stats.peakAllocated = w.stats.peakAllocated)
    (hclipped : stats.clipped = w.stats.clipped) : (genManager tidy).Inv { w with stats } := by
  have hlayout : GenLayout ({ w with stats } : GenWorld) (nurseryObjects w) :=
    { h.alg.layout with total := htotal.trans h.alg.layout.total }
  exact ⟨h.rt.count htotal hpeak hclipped, h.heap, h.owns, { h.alg with layout := hlayout }⟩

/-- A fresh runtime of the generational collector is in order. -/
theorem genManager_fresh (hw : genCollector.Starts w) : (genManager tidy).Inv w := by
  obtain ⟨cfg, hooks, mem, hcfg, hhooks, hmem, hcreate, hg⟩ := hw
  obtain ⟨a, m, hfit, hq, rfl⟩ := gcRuntimeCreate_cases hcreate
  have hyoung : (gcRuntimeApplyDefaultConfig cfg).gcYoungSpaceSize ≠ 0 := by
    simp only [gcRuntimeApplyDefaultConfig]
    split <;> omega
  obtain ⟨space, hspace, heq⟩ := gcGenGlobalInit_eq
    (freshWorld (gcRuntimeApplyDefaultConfig cfg) hooks a m) hyoung hg.1
  simp only [callHook, genCollector, gcGenCopyMsVtable]
  rw [heq]
  refine genManager_inv_nil ⟨freshWorld_ok hcfg hooks a m _ rfl rfl, ?_, ?_⟩ (heapInv_fresh hhooks)
    hspace.2.2.1 ?_ rfl rfl rfl
  · have howns := ((hmem.grant hfit).quiet hq).quiet (m.quiet_tryReserve 40)
    exact (howns.grant hspace).perm (List.Perm.swap ..)
  · refine ⟨rfl, Nat.zero_le _, fun a ha => absurd ha List.not_mem_nil,
      fun n hn => absurd hn List.not_mem_nil, fun o n => ?_, ?_, rfl⟩
    · constructor
      · rintro ⟨e, he, -⟩
        exact absurd he List.not_mem_nil
      · rintro ⟨ho, -⟩
        exact absurd ho List.not_mem_nil
    · have hheap : gcHeapSetYoungSpace (gcHeapInit
          (gcRuntimeApplyDefaultConfig cfg).gcLargeObjectThreshold) space
          (gcRuntimeApplyDefaultConfig cfg).gcYoungSpaceSize =
          { gcHeapInit (gcRuntimeApplyDefaultConfig cfg).gcLargeObjectThreshold with
            youngBase := space
            youngCapacity := (gcRuntimeApplyDefaultConfig cfg).gcYoungSpaceSize } := by
        simp [gcHeapSetYoungSpace, gcHeapInit]
      exact hheap.trans (congrArg
        (fun t : GcHeap => { t with
          youngBase := space
          youngCapacity := (gcRuntimeApplyDefaultConfig cfg).gcYoungSpaceSize
          youngUsed := 0
          oldObjectCount := 0
          oldObjectBytes := 0 }) hheap.symm)
  · rintro - o c ⟨e, he, -⟩
    exact absurd he List.not_mem_nil

/-- The generational collector shows what an algorithm has to show. -/
theorem genManager_sound : (genManager tidy).Sound where
  pin := rfl
  unpin := rfl
  readBarrier := rfl
  rounded n hn hn' := ⟨(alignedSize_spec hn hn').1, (alignedSize_spec hn hn').2.1⟩
  reshape w graph mem h hs := genManager_reshape h graph mem hs
  start w hw := genManager_fresh hw
  alloc w desc size flags h hd hmax hg := genManager_alloc h hd hmax flags hg
  store w owner loc v h hl := genManager_store h hl
  minor w h hg := by
    obtain ⟨hinv, φ, hexact⟩ := gcGenCollectMinorImpl_exact h hg.1 hg.2.1
    exact ⟨genManager_inv_count hinv rfl rfl rfl, _, φ, hexact.collected⟩
  major w h hg := by
    obtain ⟨hinv, -, φ, -, hc⟩ := gcGenCollectFullImpl_exact h hg
    exact ⟨genManager_inv_count hinv rfl rfl rfl, φ, hc⟩
  full w h hg := by
    obtain ⟨hinv, -, φ, -, hc⟩ := gcGenCollectFullImpl_exact h hg
    exact ⟨genManager_inv_count hinv rfl rfl rfl, φ, hc⟩

end Xgc
