import Xgc.Algo.GenCopy
import Xgc.Algo.Sweep
import Xgc.Heap.Manager

/-! The storage of the generational collector: young objects tile the used part of the nursery, old
    objects have blocks of their own, the card table has an entry for each old object, and the
    counters add up. All of this holds in the middle of a collection, too. -/

namespace Xgc

open Lib (Block)

/-- The objects at `ys` lie one after the other in the `n` bytes from `a` on. -/
def Tiles (g : Graph) : Nat → Nat → List Nat → Prop
  | _, n, [] => n = 0
  | a, n, y :: ys =>
    y = a ∧ sizeofHeader ≤ g.sizeAt a ∧ g.sizeAt a ≤ n ∧
      Tiles g (a + g.sizeAt a) (n - g.sizeAt a) ys

/-- The objects that a walk from `cursor` to `stop` meets. -/
def nurseryWalk (g : Graph) : Nat → Nat → Nat → List Nat
  | 0, _, _ => []
  | fuel + 1, cursor, stop =>
    if cursor < stop then cursor :: nurseryWalk g fuel (cursor + g.sizeAt cursor) stop else []

/-- The young objects, in the order of their addresses. -/
def nurseryObjects (w : GenWorld) : List Nat :=
  nurseryWalk w.graph w.algoState.nurseryUsed w.algoState.nurserySpace
    (w.algoState.nurserySpace + w.algoState.nurseryUsed)

/-! ### Tiles -/

namespace Tiles

variable {g g' : Graph}

theorem bounds : ∀ {ys : List Nat} {a n : Nat}, Tiles g a n ys →
    ∀ y ∈ ys, a ≤ y ∧ y + g.sizeAt y ≤ a + n
  | [], _, _, _, _, hy => absurd hy List.not_mem_nil
  | y :: ys, a, n, h, x, hx => by
      obtain ⟨rfl, hmin, hle, hrest⟩ := h
      rcases List.mem_cons.mp hx with rfl | hx
      · omega
      · have := hrest.bounds x hx
        omega

theorem header : ∀ {ys : List Nat} {a n : Nat}, Tiles g a n ys →
    ∀ y ∈ ys, sizeofHeader ≤ g.sizeAt y
  | [], _, _, _, _, hy => absurd hy List.not_mem_nil
  | y :: ys, a, n, h, x, hx => by
      obtain ⟨rfl, hmin, hle, hrest⟩ := h
      rcases List.mem_cons.mp hx with rfl | hx
      · exact hmin
      · exact hrest.header x hx

theorem nodup : ∀ {ys : List Nat} {a n : Nat}, Tiles g a n ys → ys.Nodup
  | [], _, _, _ => List.nodup_nil
  | y :: ys, a, n, h => by
      obtain ⟨rfl, hmin, hle, hrest⟩ := h
      refine List.nodup_cons.mpr ⟨fun hy => ?_, hrest.nodup⟩
      have := (hrest.bounds y hy).1
      unfold sizeofHeader at hmin
      omega

theorem length_le : ∀ {ys : List Nat} {a n : Nat}, Tiles g a n ys → ys.length ≤ n
  | [], _, _, _ => Nat.zero_le _
  | y :: ys, a, n, h => by
      obtain ⟨rfl, hmin, hle, hrest⟩ := h
      have := hrest.length_le
      unfold sizeofHeader at hmin
      rw [List.length_cons]
      omega

theorem congr : ∀ {ys : List Nat} {a n : Nat}, Tiles g a n ys →
    (∀ y ∈ ys, g'.sizeAt y = g.sizeAt y) → Tiles g' a n ys
  | [], _, _, h, _ => h
  | y :: ys, a, n, h, hs => by
      obtain ⟨rfl, hmin, hle, hrest⟩ := h
      have hy := hs y (List.mem_cons_self ..)
      rw [Tiles, hy]
      exact ⟨rfl, hmin, hle, hrest.congr fun x hx => hs x (List.mem_cons_of_mem _ hx)⟩

/-- The first object lies at the start, and the others begin where it ends. -/
theorem head {ys : List Nat} {y a n : Nat} {o : GcHeader} (h : Tiles g a n (y :: ys))
    (ho : g.objs y = some o) : y = a ∧ y < y + n ∧ y + n = y + o.size + (n - o.size) ∧
      Tiles g (y + o.size) (n - o.size) ys := by
  obtain ⟨rfl, hmin, hle, hrest⟩ := h
  rw [Graph.sizeAt_eq ho] at hmin hle hrest
  unfold sizeofHeader at hmin
  exact ⟨rfl, by omega, by omega, hrest⟩

/-- One more object at the end. -/
theorem snoc : ∀ {ys : List Nat} {a n m : Nat}, Tiles g a n ys →
    g.sizeAt (a + n) = m → sizeofHeader ≤ m → Tiles g a (n + m) (ys ++ [a + n])
  | [], a, n, m, h, hs, hm => by
      obtain rfl : n = 0 := h
      rw [Nat.add_zero] at hs
      refine ⟨rfl, by rw [hs]; exact hm, by omega, ?_⟩
      show 0 + m - g.sizeAt a = 0
      omega
  | y :: ys, a, n, m, h, hs, hm => by
      obtain ⟨rfl, hmin, hle, hrest⟩ := h
      have hend : y + g.sizeAt y + (n - g.sizeAt y) = y + n := by omega
      have hlen : n + m - g.sizeAt y = n - g.sizeAt y + m := by omega
      have ih := hrest.snoc (m := m) (by rw [hend]; exact hs) hm
      rw [hend] at ih
      refine ⟨rfl, hmin, by omega, ?_⟩
      rw [hlen]
      exact ih

/-- The walk over tiled storage meets the objects in it. -/
theorem walk : ∀ {ys : List Nat} {a n : Nat}, Tiles g a n ys → ∀ {fuel : Nat}, ys.length ≤ fuel →
    nurseryWalk g fuel a (a + n) = ys
  | [], a, n, h, fuel, _ => by
      obtain rfl : n = 0 := h
      cases fuel <;> simp [nurseryWalk]
  | y :: ys, a, n, h, 0, hf => by simp at hf
  | y :: ys, a, n, h, fuel + 1, hf => by
      obtain ⟨rfl, hmin, hle, hrest⟩ := h
      have hend : y + g.sizeAt y + (n - g.sizeAt y) = y + n := by omega
      have ih := hrest.walk (Nat.le_of_succ_le_succ hf)
      rw [hend] at ih
      unfold sizeofHeader at hmin
      rw [nurseryWalk, if_pos (by omega), ih]

end Tiles

/-! ### The layout of the storage -/

/-- The storage and the counters of the generational collector; `ys` are the young objects. -/
structure GenLayout (w : GenWorld) (ys : List Nat) : Prop where
  tiles : Tiles w.graph w.algoState.nurserySpace w.algoState.nurseryUsed ys
  used_le : w.algoState.nurseryUsed ≤ w.algoState.nurseryCapacity
  sized : ∀ a ∈ w.algoState.oldObjects.map GcNode.obj ++ ys,
    sizeofHeader ≤ w.graph.sizeAt a ∧ w.graph.sizeAt a < 2 ^ 32
  unmarked : ∀ n ∈ w.algoState.oldObjects, n.marked = false
  owners : ∀ o n, w.barriers.HasSize o n ↔
    o ∈ w.algoState.oldObjects.map GcNode.obj ∧ w.graph.sizeAt o = n
  heap : w.heap = { w.heap with
    youngBase := w.algoState.nurserySpace
    youngCapacity := w.algoState.nurseryCapacity
    youngUsed := w.algoState.nurseryUsed
    oldObjectCount := w.algoState.oldObjects.length
    oldObjectBytes := bytesOf w.graph w.algoState.oldObjects }
  total : w.stats.totalAllocated =
    w.algoState.nurseryUsed + bytesOf w.graph w.algoState.oldObjects

/-- The layout looks at the objects' sizes only. -/
theorem GenLayout.reshape {w : GenWorld} {ys : List Nat} (h : GenLayout w ys) {graph : Graph}
    (hsizes : ∀ a ∈ w.algoState.oldObjects.map GcNode.obj ++ ys,
      graph.sizeAt a = w.graph.sizeAt a) (mem : Mem) {losses : Losses} :
    GenLayout ({ w with graph, mem, losses } : GenWorld) ys := by
  have hold : ∀ k ∈ w.algoState.oldObjects, graph.sizeAt k.obj = w.graph.sizeAt k.obj :=
    fun k hk => hsizes _ (List.mem_append_left _ (List.mem_map_of_mem hk))
  refine ⟨h.tiles.congr fun y hy => hsizes y (List.mem_append_right _ hy), h.used_le,
    fun a ha => ?_, h.unmarked, fun o n => ?_, ?_, ?_⟩
  · show sizeofHeader ≤ graph.sizeAt a ∧ graph.sizeAt a < 2 ^ 32
    rw [hsizes a ha]
    exact h.sized a ha
  · rw [h.owners]
    refine and_congr_right fun ho => ?_
    show w.graph.sizeAt o = n ↔ graph.sizeAt o = n
    rw [hsizes o (List.mem_append_left _ ho)]
  · simp only [bytesOf_congr hold]
    exact h.heap
  · show _ = _ + bytesOf graph w.algoState.oldObjects
    rw [bytesOf_congr hold]
    exact h.total

/-- The blocks of the nursery and of the old objects. -/
def genBlocks (w : GenWorld) : List Block :=
  (w.algoState.nurserySpace, w.algoState.nurseryCapacity) ::
    objectBlocks w.graph w.algoState.oldObjects

/-- Everything that the runtime has allocated. -/
def genOwned (w : GenWorld) : List Block :=
  (w.self, sizeofRuntime) :: (genBlocks w ++ handleBlocks w.graph.handles)

/-- The runtime's record, its storage and the layout are in order. -/
structure GenOk (w : GenWorld) (ys : List Nat) : Prop where
  rt : RuntimeOk w
  owns : w.mem.Owns (genOwned w)
  layout : GenLayout w ys

namespace GenOk

variable {w : GenWorld} {ys : List Nat}

theorem nurseryObjects_eq (h : GenLayout w ys) : nurseryObjects w = ys :=
  h.tiles.walk h.tiles.length_le

theorem space_mem (w : GenWorld) :
    (w.algoState.nurserySpace, w.algoState.nurseryCapacity) ∈ genOwned w :=
  List.mem_cons_of_mem _ (List.mem_append_left _ (List.mem_cons_self ..))

theorem old_mem {w : GenWorld} {a : Nat} (ha : a ∈ w.algoState.oldObjects.map GcNode.obj) :
    (a, w.graph.sizeAt a) ∈ genOwned w := by
  obtain ⟨n, hn, rfl⟩ := List.mem_map.mp ha
  exact List.mem_cons_of_mem _ (List.mem_append_left _
    (List.mem_cons_of_mem _ (List.mem_map_of_mem hn)))

/-- The nursery lies in the address space. -/
theorem space_range (h : GenOk w ys) : 0 < w.algoState.nurserySpace ∧
    w.algoState.nurserySpace + w.algoState.nurseryCapacity < 2 ^ 64 :=
  h.owns.range _ (h.owns.live _ (space_mem w))

theorem inNursery_iff (h : GenOk w ys) (a : Nat) : gcGenInNursery w.algoState a = true ↔
    w.algoState.nurserySpace ≤ a ∧
      a < w.algoState.nurserySpace + w.algoState.nurseryCapacity := by
  obtain ⟨hpos, hlt⟩ := h.space_range
  unfold gcGenInNursery
  rw [Nat.mod_eq_of_lt hlt]
  by_cases h0 : a = 0 ∨ w.algoState.nurserySpace = 0
  · simp only [h0, if_true]
    constructor
    · exact fun hf => nomatch hf
    · rintro ⟨h₁, -⟩
      omega
  · simp only [h0, if_false, decide_eq_true_eq]

theorem inNursery_young (h : GenOk w ys) {y : Nat} (hy : y ∈ ys) :
    gcGenInNursery w.algoState y = true := by
  have hb := h.layout.tiles.bounds y hy
  have hs := h.layout.tiles.header y hy
  have hu := h.layout.used_le
  unfold sizeofHeader at hs
  rw [h.inNursery_iff]
  omega

/-- A block apart from the nursery does not begin in it. -/
theorem inNursery_of_apart (h : GenOk w ys) {a n : Nat} (hn : 0 < n)
    (hap : Block.Apart (a, n) (w.algoState.nurserySpace, w.algoState.nurseryCapacity)) :
    gcGenInNursery w.algoState a = false := by
  rw [Bool.eq_false_iff, ne_eq, h.inNursery_iff]
  have := hap.2
  omega

theorem inNursery_old (h : GenOk w ys) {a : Nat}
    (ha : a ∈ w.algoState.oldObjects.map GcNode.obj) :
    gcGenInNursery w.algoState a = false := by
  have hs := (h.layout.sized a (List.mem_append_left _ ha)).1
  have hnodup := h.owns.nodup
  have hne : (a, w.graph.sizeAt a) ≠
      (w.algoState.nurserySpace, w.algoState.nurseryCapacity) := by
    intro he
    simp only [genOwned, genBlocks, List.map_cons, List.map_append, List.nodup_cons,
      List.cons_append] at hnodup
    refine hnodup.2.1 (List.mem_append_left _ ?_)
    obtain ⟨n, hn, rfl⟩ := List.mem_map.mp ha
    have hfst : n.obj = w.algoState.nurserySpace := congrArg Prod.fst he
    rw [← hfst]
    exact List.mem_map_of_mem (List.mem_map_of_mem (f := fun n => (n.obj, w.graph.sizeAt n.obj)) hn)
  unfold sizeofHeader at hs
  exact h.inNursery_of_apart (by omega)
    (h.owns.pairwise.forall (old_mem ha) (space_mem w) hne)

theorem old_notMem (h : GenOk w ys) {a : Nat}
    (ha : a ∈ w.algoState.oldObjects.map GcNode.obj) : a ∉ ys := by
  intro hy
  have h₁ := h.inNursery_old ha
  rw [h.inNursery_young hy] at h₁
  exact nomatch h₁

theorem old_ne_zero (h : GenOk w ys) {a : Nat}
    (ha : a ∈ w.algoState.oldObjects.map GcNode.obj) : a ≠ 0 :=
  Nat.pos_iff_ne_zero.mp (h.owns.range _ (h.owns.live _ (old_mem ha))).1

theorem young_ne_zero (h : GenOk w ys) {y : Nat} (hy : y ∈ ys) : y ≠ 0 := by
  have := h.space_range.1
  have := (h.layout.tiles.bounds y hy).1
  omega

theorem old_nodup (h : GenOk w ys) : (w.algoState.oldObjects.map GcNode.obj).Nodup := by
  have hnodup := h.owns.nodup
  simp only [genOwned, genBlocks, List.map_cons, List.map_append, List.nodup_cons,
    List.cons_append] at hnodup
  have hobj : (objectBlocks w.graph w.algoState.oldObjects).map Prod.fst =
      w.algoState.oldObjects.map GcNode.obj := by
    rw [objectBlocks, List.map_map]
    rfl
  rw [← hobj]
  exact (List.nodup_append.mp hnodup.2.2).1

/-- A granted block does not begin where an object is tracked. -/
theorem fresh_of_fits (h : GenOk w ys) {a n : Nat} (hfit : w.mem.Fits a n) (hn : 0 < n) :
    a ∉ w.algoState.oldObjects.map GcNode.obj ∧ a ∉ ys ∧
      gcGenInNursery w.algoState a = false := by
  have hap := h.owns.apart_of_fits hfit
  have hnur := h.inNursery_of_apart hn (hap _ (space_mem w))
  refine ⟨fun ha => (hap _ (old_mem ha)).1 rfl, fun hy => ?_, hnur⟩
  rw [h.inNursery_young hy] at hnur
  exact nomatch hnur

/-- What the counter says and the rest of the nursery are a part of what is in use. -/
theorem total_le_owned (h : GenOk w ys) : w.stats.totalAllocated +
    (w.algoState.nurseryCapacity - w.algoState.nurseryUsed) ≤
      ((genOwned w).map Prod.snd).sum := by
  have htotal := h.layout.total
  have hu := h.layout.used_le
  rw [bytesOf] at htotal
  simp only [genOwned, genBlocks, List.map_cons, List.map_append, List.sum_cons, List.sum_append,
    List.cons_append]
  omega

/-- All that is in use, with a granted block, fits the address space. -/
theorem total_lt (h : GenOk w ys) {a n : Nat} (hfit : w.mem.Fits a n) :
    w.stats.totalAllocated + n < 2 ^ 64 := by
  have hsum := (h.owns.grant hfit).sum_lt
  have hle := h.total_le_owned
  rw [List.map_cons, List.sum_cons] at hsum
  omega

theorem total_lt' (h : GenOk w ys) : w.stats.totalAllocated +
    (w.algoState.nurseryCapacity - w.algoState.nurseryUsed) < 2 ^ 64 :=
  h.total_le_owned.trans_lt h.owns.sum_lt

end GenOk

/-! ### A new old object -/

/-- The owners, their sizes, their dirty cards and the granularity are as they were. -/
structure SameCards (b b' : GcBarrierSet) : Prop where
  size : ∀ o n, b'.HasSize o n ↔ b.HasSize o n
  dirty : ∀ o c, b'.Dirty o c ↔ b.Dirty o c
  granularity : b'.oldToYoung.cardGranularity = b.oldToYoung.cardGranularity

theorem SameCards.refl (b : GcBarrierSet) : SameCards b b :=
  ⟨fun _ _ => Iff.rfl, fun _ _ => Iff.rfl, rfl⟩

/-- One more owner, without dirty cards. -/
structure AddsOwner (b b' : GcBarrierSet) (owner size : Nat) : Prop where
  size : ∀ o n, b'.HasSize o n ↔ b.HasSize o n ∨ (o = owner ∧ n = size)
  dirty : ∀ o c, b'.Dirty o c ↔ b.Dirty o c
  granularity : b'.oldToYoung.cardGranularity = b.oldToYoung.cardGranularity

theorem owners_iff {w : GenWorld} {ys : List Nat} (h : GenLayout w ys) (o : Nat) :
    o ∈ w.barriers.owners ↔ o ∈ w.algoState.oldObjects.map GcNode.obj := by
  have hsize : o ∈ w.barriers.owners ↔ ∃ n, w.barriers.HasSize o n := by
    constructor
    · intro ho
      obtain ⟨e, he, rfl⟩ := List.mem_map.mp ho
      exact ⟨e.ownerSize, e, he, rfl, rfl⟩
    · rintro ⟨n, e, he, rfl, -⟩
      exact List.mem_map_of_mem he
  rw [hsize]
  simp only [h.owners, exists_and_left, exists_eq', and_true]

/-- `gc_gen_add_old_node` adds the object to the list and to the card table, or changes neither
    after a refused request. -/
theorem gcGenAddOldNode_cases {w : GenWorld} (hb : w.barriers.Ok) {t n : Nat} (ht : t ≠ 0)
    (hn : n ≠ 0) (hn' : n < 2 ^ 32) (hnew : t ∉ w.barriers.owners) :
    (∃ b m, gcGenAddOldNode w t n =
        ({ w with
            mem := m
            barriers := b
            heap := gcHeapRecordOldAlloc w.heap n
            algoState := { w.algoState with
              oldObjects := { obj := t, marked := false } :: w.algoState.oldObjects } }, true) ∧
      w.mem.Quiet m ∧ b.Ok ∧ AddsOwner w.barriers b t n) ∨
    ∃ b m, gcGenAddOldNode w t n = ({ w with mem := m, barriers := b }, false) ∧
      w.mem.Quiet m ∧ m.failed = true ∧ b.Ok ∧ SameCards w.barriers b := by
  unfold gcGenAddOldNode
  rcases w.mem.reserve_cases 24 with hr | hr
  · simp only [hr, Bool.not_true, Bool.false_eq_true, if_false]
    rcases GcBarrierSet.register_cases hb ht hn hn' hnew (w.mem.tryReserve 24).1 with
      ⟨b, m, hreg, hq, hbOk, hsize, hdirty, hgran⟩ |
      ⟨table, m, hreg, hq, hfail, hbOk, hentries, hgran⟩
    · refine .inl ⟨b, m, ?_, (w.mem.quiet_tryReserve 24).trans hq, hbOk, hsize, hdirty, hgran⟩
      simp only [hreg, Bool.not_true, Bool.false_eq_true, if_false]
    · refine .inr ⟨_, m, ?_, (w.mem.quiet_tryReserve 24).trans hq, hfail, hbOk, ?_⟩
      · simp only [hreg, Bool.not_false, if_true]
      · refine ⟨fun o k => ?_, fun o c => ?_, hgran⟩
        · simp only [GcBarrierSet.HasSize, hentries]
        · simp only [GcBarrierSet.Dirty, hentries]
  · refine .inr ⟨w.barriers, w.mem.refuse, ?_, w.mem.quiet_refuse, rfl, hb, .refl _⟩
    simp only [hr, Bool.not_false, if_true]

/-- An object whose recorded size is zero is not registered, so its node is taken back. -/
theorem gcGenAddOldNode_zero (w : GenWorld) (t : Addr) :
    ∃ m, gcGenAddOldNode w t 0 = ({ w with mem := m, barriers := w.barriers }, false) ∧
      w.mem.Quiet m := by
  have hreg : ∀ m, gcBarrierRegisterOwner w.barriers t 0 m = (w.barriers, m, false) := by
    intro m
    rw [gcBarrierRegisterOwner, gcCardTableRegisterOwner, if_pos (.inr rfl)]
  unfold gcGenAddOldNode
  rcases w.mem.reserve_cases 24 with hr | hr
  · exact ⟨_, by simp [hr, hreg], w.mem.quiet_tryReserve 24⟩
  · exact ⟨_, by simp [hr], w.mem.quiet_refuse⟩

/-- The layout with one more old object, which is one of the card table's owners. -/
theorem GenLayout.addOld {w : GenWorld} {ys : List Nat} (h : GenLayout w ys) {t n : Nat}
    (hn : sizeofHeader ≤ n) (hn' : n < 2 ^ 32) {graph : Graph} {mem : Mem} {b : GcBarrierSet}
    {forwarded : List GcGenForward} {losses : Losses} (hadd : AddsOwner w.barriers b t n)
    (htotal : w.stats.totalAllocated + n < 2 ^ 64)
    (hsizes : ∀ a ∈ w.algoState.oldObjects.map GcNode.obj ++ ys,
      graph.sizeAt a = w.graph.sizeAt a) (hself : graph.sizeAt t = n) :
    GenLayout ({ w with
      graph
      mem
      barriers := b
      heap := gcHeapRecordOldAlloc w.heap n
      stats := w.stats.add n
      algoState := { w.algoState with
        oldObjects := { obj := t, marked := false } :: w.algoState.oldObjects
        forwarded }
      losses } : GenWorld) ys := by
  have hbytes : bytesOf graph ({ obj := t, marked := false } :: w.algoState.oldObjects) =
      n + bytesOf w.graph w.algoState.oldObjects := by
    rw [bytesOf_cons, hself, bytesOf_congr fun k hk =>
      hsizes _ (List.mem_append_left _ (List.mem_map_of_mem hk))]
  have hltotal := h.total
  refine ⟨?_, h.used_le, ?_, ?_, ?_, ?_, ?_⟩
  · exact h.tiles.congr fun y hy => hsizes y (List.mem_append_right _ hy)
  · intro a ha
    rcases List.mem_cons.mp (show a ∈ t :: (w.algoState.oldObjects.map GcNode.obj ++ ys) from ha)
      with rfl | ha
    · show sizeofHeader ≤ graph.sizeAt a ∧ graph.sizeAt a < 2 ^ 32
      rw [hself]
      exact ⟨hn, hn'⟩
    · show sizeofHeader ≤ graph.sizeAt a ∧ graph.sizeAt a < 2 ^ 32
      rw [hsizes a ha]
      exact h.sized a ha
  · intro k hk
    rcases List.mem_cons.mp hk with rfl | hk
    · rfl
    · exact h.unmarked k hk
  · intro o k
    show b.HasSize o k ↔ o ∈ t :: w.algoState.oldObjects.map GcNode.obj ∧ graph.sizeAt o = k
    rw [hadd.size, h.owners, List.mem_cons]
    constructor
    · rintro (⟨ho, rfl⟩ | ⟨rfl, rfl⟩)
      · exact ⟨.inr ho, hsizes o (List.mem_append_left _ ho)⟩
      · exact ⟨.inl rfl, hself⟩
    · rintro ⟨rfl | ho, rfl⟩
      · exact .inr ⟨rfl, hself⟩
      · exact .inl ⟨ho, (hsizes o (List.mem_append_left _ ho)).symm⟩
  · show gcHeapRecordOldAlloc w.heap n = _
    rw [h.heap]
    simp only [gcHeapRecordOldAlloc, hbytes, List.length_cons]
    -- the sum of the sizes does not wrap
    rw [Nat.mod_eq_of_lt (by omega), Nat.add_comm n]
  · show (w.stats.add n).totalAllocated = w.algoState.nurseryUsed + bytesOf graph _
    rw [GcStats.add_eq htotal, hbytes]
    simp only
    omega

namespace GenOk

variable {w : GenWorld} {ys : List Nat}

/-- The card table may change as long as its owners do not. -/
theorem setBarriers (h : GenOk w ys) {m : Mem} {b : GcBarrierSet} (hm : m.Owns (genOwned w))
    (hb : b.Ok) (hsize : ∀ o n, b.HasSize o n ↔ w.barriers.HasSize o n)
    (hgran : b.oldToYoung.cardGranularity = w.barriers.oldToYoung.cardGranularity) :
    GenOk { w with mem := m, barriers := b } ys where
  rt := { h.rt with barriers := hb, granularity := hgran ▸ h.rt.granularity }
  owns := hm
  layout := by
    exact { h.layout with owners := fun o n => (hsize o n).trans (h.layout.owners o n) }

/-- The graph may change as long as sizes and the handles' own fields do not. -/
theorem setGraph (h : GenOk w ys) {graph : Graph} (losses : Losses)
    (hsizes : ∀ a ∈ w.algoState.oldObjects.map GcNode.obj ++ ys,
      graph.sizeAt a = w.graph.sizeAt a)
    (haddr : graph.handles.map GcHandle.addr = w.graph.handles.map GcHandle.addr)
    (hrt : ∀ k ∈ graph.handles, k.runtime = w.self) :
    GenOk { w with graph, losses } ys := by
  have hold : ∀ k ∈ w.algoState.oldObjects, graph.sizeAt k.obj = w.graph.sizeAt k.obj :=
    fun k hk => hsizes _ (List.mem_append_left _ (List.mem_map_of_mem hk))
  have hhandles : handleBlocks graph.handles = handleBlocks w.graph.handles := by
    have hb : ∀ l : List GcHandle, handleBlocks l =
        (l.map GcHandle.addr).map fun a => (a, sizeofHandle) := by
      intro l
      rw [handleBlocks, List.map_map]
      rfl
    rw [hb, hb, haddr]
  refine ⟨h.rt.reshape hrt w.mem, ?_, h.layout.reshape hsizes w.mem⟩
  · show w.mem.Owns ((w.self, sizeofRuntime) :: ((w.algoState.nurserySpace,
      w.algoState.nurseryCapacity) :: objectBlocks graph _ ++ handleBlocks graph.handles))
    rw [hhandles, objectBlocks_congr hold]
    exact h.owns

/-- A granted block becomes an old object. -/
theorem addOld (h : GenOk w ys) {t n : Nat} (hfit : w.mem.Fits t n) (hn : sizeofHeader ≤ n)
    (hn' : n < 2 ^ 32) {graph : Graph} {m : Mem} {b : GcBarrierSet}
    {forwarded : List GcGenForward} {losses : Losses} (hq : (w.mem.grant t n).Quiet m)
    (hb : b.Ok) (hadd : AddsOwner w.barriers b t n)
    (hsizes : ∀ a ∈ w.algoState.oldObjects.map GcNode.obj ++ ys,
      graph.sizeAt a = w.graph.sizeAt a)
    (hself : graph.sizeAt t = n) (hhandles : graph.handles = w.graph.handles) :
    GenOk { w with
      graph
      mem := m
      barriers := b
      heap := gcHeapRecordOldAlloc w.heap n
      stats := w.stats.add n
      algoState := { w.algoState with
        oldObjects := { obj := t, marked := false } :: w.algoState.oldObjects
        forwarded }
      losses } ys := by
  have htotal := h.total_lt hfit
  refine ⟨?_, ?_, h.layout.addOld hn hn' hadd htotal hsizes hself⟩
  · obtain ⟨hpeak, hexact⟩ := GcStats.add_ok htotal h.rt.statsExact
    refine { h.rt with runtime := ?_, barriers := hb,
                       granularity := hadd.granularity ▸ h.rt.granularity, peak := hpeak,
                       statsExact := hexact }
    rw [hhandles]
    exact h.rt.runtime
  · have hold : ∀ k ∈ w.algoState.oldObjects, graph.sizeAt k.obj = w.graph.sizeAt k.obj :=
      fun k hk => hsizes _ (List.mem_append_left _ (List.mem_map_of_mem hk))
    have hblocks : objectBlocks graph ({ obj := t, marked := false } :: w.algoState.oldObjects) =
        (t, n) :: objectBlocks w.graph w.algoState.oldObjects := by
      rw [← objectBlocks_congr hold, ← hself]
      rfl
    -- the new block comes to stand among those of the old objects
    refine ((h.owns.grant hfit).quiet hq).perm ?_
    show ((w.self, sizeofRuntime) :: ((w.algoState.nurserySpace, w.algoState.nurseryCapacity) ::
      objectBlocks graph _ ++ handleBlocks graph.handles)).Perm _
    rw [hblocks, hhandles]
    exact (((List.Perm.swap (t, n) _ _).append_right _).cons _).trans (List.Perm.swap ..)

end GenOk

end Xgc
