import Xgc.Heap.Client
import Xgc.Core.CardSpec

/-! What the two algorithms have in common: the runtime's own record, the storage in use, and the
    calls that no algorithm takes part in beyond pinning. An algorithm adds its own invariant, which
    only looks at the sizes and references of the tracked objects, and shows what its allocation,
    its write barrier and its collections do; then it is lawful. -/

namespace Xgc

open Lib (Block lookup mem_of_lookup exists_lookup)

variable {σ : Type}

/-- The runtime's own record is in order. -/
structure RuntimeOk (w : World σ) : Prop where
  bound : w.stateBound = true
  gcState : w.gcState = 0
  worklist : w.worklist.Ok
  runtime : ∀ k ∈ w.graph.handles, k.runtime = w.self
  barriers : w.barriers.Ok
  granularity : w.barriers.oldToYoung.cardGranularity < 2 ^ 64
  peak : w.stats.totalAllocated ≤ w.stats.peakAllocated
  statsExact : w.stats.clipped = false
  heapExact : w.heap.clipped = false
  running : w.hung = false

/-- Of the graph only the handles matter to the framework's record, and neither the memory nor what
    has been refused matters. -/
theorem RuntimeOk.reshape {w : World σ} (h : RuntimeOk w) {graph : Graph}
    (hrt : ∀ k ∈ graph.handles, k.runtime = w.self) (mem : Mem) {losses : Losses} :
    RuntimeOk { w with graph, mem, losses } :=
  { h with runtime := hrt }

/-- Other counters do as well as the runtime's own when they count the same bytes. -/
theorem RuntimeOk.count {w : World σ} (h : RuntimeOk w) {stats : GcStats}
    (htotal : stats.totalAllocated = w.stats.totalAllocated)
    (hpeak : stats.peakAllocated = w.stats.peakAllocated)
    (hclipped : stats.clipped = w.stats.clipped) : RuntimeOk { w with stats } :=
  { h with
    peak := by rw [htotal, hpeak]; exact h.peak
    statsExact := hclipped.trans h.statsExact }

/-- The blocks of a list of handles. -/
def handleBlocks (handles : List GcHandle) : List Block :=
  handles.map fun k => (k.addr, sizeofHandle)

/-- The objects at the addresses `tracked` have kept their sizes and references. -/
def SameShape (g g' : Graph) (tracked : List Addr) : Prop :=
  ∀ a ∈ tracked, ∀ o, g.objs a = some o →
    ∃ o', g'.objs a = some o' ∧ o'.size = o.size ∧ o'.slots = o.slots

theorem SameShape.of_objs {g g' : Graph} (h : g'.objs = g.objs) (tracked : List Addr) :
    SameShape g g' tracked := fun a _ o ho => ⟨o, by rw [h]; exact ho, rfl, rfl⟩

theorem SameShape.modifyObj (g : Graph) (tracked : List Addr) (a : Addr)
    {f : GcHeader → GcHeader} (hf : ∀ o, (f o).size = o.size ∧ (f o).slots = o.slots) :
    SameShape g (g.modifyObj a f) tracked := by
  intro b _ o ho
  by_cases hb : b = a
  · subst hb
    exact ⟨f o, by simp [ho], hf o⟩
  · exact ⟨o, by simp [hb, ho], rfl, rfl⟩

theorem SameShape.sizeAt {g g' : Graph} {tracked : List Addr} (h : SameShape g g' tracked)
    (hg : HeapInv g tracked) {a : Addr} (ha : a ∈ tracked) : g'.sizeAt a = g.sizeAt a := by
  obtain ⟨o, ho, -⟩ := hg.objs a ha
  obtain ⟨o', ho', hsize, -⟩ := h a ha o ho
  rw [Graph.sizeAt_eq ho, Graph.sizeAt_eq ho', hsize]

theorem sameShape_writeBytes (g : Graph) (tracked : List Addr) (a : Addr) (bytes : Nat → UInt8) :
    SameShape g (g.modifyObj a fun o => { o with bytes }) tracked :=
  .modifyObj g tracked a fun _ => ⟨rfl, rfl⟩

theorem sameShape_pushHandle (g : Graph) (tracked : List Addr) (k : GcHandle) :
    SameShape g (g.pushHandle k) tracked :=
  SameShape.modifyObj { g with handles := k :: g.handles } tracked k.target
    (f := fun o => { o with flags := o.flags ||| objectFlagPinned }) fun _ => ⟨rfl, rfl⟩

theorem sameShape_popHandle (g : Graph) (tracked : List Addr) (k : GcHandle) :
    SameShape g (g.popHandle k) tracked :=
  SameShape.modifyObj { g with handles := g.handles.eraseP fun k' => k'.addr = k.addr } tracked
    k.target (f := fun o => { o with flags := o.flags &&& ~~~objectFlagPinned })
    fun _ => ⟨rfl, rfl⟩

/-- `gc_handle_acquire` of an object is refused its request, or adds a handle and pins. -/
theorem gcHandleAcquire_cases {algo : GcAlgorithmVtable σ}
    (hpin : algo.pin = some fun w obj => { w with
      graph := w.graph.modifyObj obj fun o => { o with flags := o.flags ||| objectFlagPinned } })
    {w : World σ} {obj : Addr} (hobj : obj ≠ 0) (flags : BitVec 32) :
    gcHandleAcquire algo w obj flags = ({ w with mem := w.mem.refuse }, 0) ∨
    ∃ a, w.mem.Fits a sizeofHandle ∧ gcHandleAcquire algo w obj flags =
      ({ w with
          mem := w.mem.grant a sizeofHandle
          graph := w.graph.pushHandle { addr := a, runtime := w.self, target := obj, flags } },
        a) := by
  unfold gcHandleAcquire
  rw [if_neg hobj]
  rcases w.mem.malloc_cases sizeofHandle with hm | ⟨a, hfit, hm⟩
  · exact .inl (by simp only [hm, if_true])
  · have ha : a ≠ 0 := Nat.pos_iff_ne_zero.mp hfit.1
    refine .inr ⟨a, hfit, ?_⟩
    simp only [hm, if_neg ha, hpin, callHook, Graph.pushHandle]

/-- A collector with its own storage and its own invariant. -/
structure Manager (σ : Type) extends Collector σ where
  blocks : World σ → List Block
  Alg : World σ → Prop

namespace Manager

variable (M : Manager σ)

/-- Everything that the runtime has allocated. -/
def owned (w : World σ) : List Block :=
  (w.self, sizeofRuntime) :: (M.blocks w ++ handleBlocks w.graph.handles)

/-- The invariant at the boundaries of public calls. -/
structure Inv (w : World σ) : Prop where
  rt : RuntimeOk w
  heap : HeapInv w.graph (M.tracked w)
  owns : w.mem.Owns (M.owned w)
  alg : M.Alg w

/-- What an algorithm has to show. -/
structure Sound [Inhabited σ] : Prop where
  pin : M.algo.pin = some fun w obj => { w with
    graph := w.graph.modifyObj obj fun o => { o with flags := o.flags ||| objectFlagPinned } }
  unpin : M.algo.unpin = some fun w obj => { w with
    graph := w.graph.modifyObj obj fun o => { o with flags := o.flags &&& ~~~objectFlagPinned } }
  readBarrier : M.algo.readBarrier = some fun w place => w.graph.read place
  rounded : ∀ n, sizeofHeader ≤ n → n ≤ M.maxSize →
    sizeofHeader ≤ M.rounded n ∧ M.rounded n < 2 ^ 32
  reshape : ∀ w graph mem, M.Inv w → SameShape w.graph graph (M.tracked w) →
    M.tracked { w with graph, mem } = M.tracked w ∧ M.blocks { w with graph, mem } = M.blocks w ∧
      M.Alg { w with graph, mem }
  start : ∀ w, M.Starts w → M.Inv w
  alloc : ∀ w desc size flags, M.Inv w → desc.Ok → size ≤ M.maxSize →
    (gcAllocTyped M.algo w desc size flags).1.Granted →
    M.Inv (gcAllocTyped M.algo w desc size flags).1 ∧
      Effect M.rounded (.alloc desc size flags) w.graph (M.tracked w)
        (gcAllocTyped M.algo w desc size flags).2 (gcAllocTyped M.algo w desc size flags).1.graph
        (M.tracked (gcAllocTyped M.algo w desc size flags).1)
  store : ∀ w owner loc v, M.Inv w →
    ClientOp.Legal M.maxSize w.graph (M.tracked w) (.storeRef owner loc v) →
    M.Inv (gcStoreRef M.algo w owner loc v) ∧
      (gcStoreRef M.algo w owner loc v).graph = w.graph.write (.field owner loc) v ∧
      M.tracked (gcStoreRef M.algo w owner loc v) = M.tracked w
  minor : ∀ w, M.Inv w → (gcCollectMinor M.algo w).Granted →
    M.Inv (gcCollectMinor M.algo w) ∧ ∃ keep φ, Collected w.graph (gcCollectMinor M.algo w).graph
      (M.tracked w) (M.tracked (gcCollectMinor M.algo w)) keep φ
  major : ∀ w, M.Inv w → (gcCollectMajor M.algo w).Granted →
    M.Inv (gcCollectMajor M.algo w) ∧ ∃ φ, Collected w.graph (gcCollectMajor M.algo w).graph
      (M.tracked w) (M.tracked (gcCollectMajor M.algo w)) {a | w.graph.Reachable a} φ
  full : ∀ w, M.Inv w → (gcCollectFull M.algo w).Granted →
    M.Inv (gcCollectFull M.algo w) ∧ ∃ φ, Collected w.graph (gcCollectFull M.algo w).graph
      (M.tracked w) (M.tracked (gcCollectFull M.algo w)) {a | w.graph.Reachable a} φ

variable {M}

/-- A change of the graph that keeps sizes and references keeps the invariant. -/
theorem Sound.inv_reshape [Inhabited σ] (hM : M.Sound) {w : World σ} (h : M.Inv w) (graph : Graph)
    (mem : Mem) (hs : SameShape w.graph graph (M.tracked w)) (hheap : HeapInv graph (M.tracked w))
    (hrt : ∀ k ∈ graph.handles, k.runtime = w.self)
    (howns : mem.Owns
      ((w.self, sizeofRuntime) :: (M.blocks w ++ handleBlocks graph.handles))) :
    M.Inv { w with graph, mem } ∧ M.tracked { w with graph, mem } = M.tracked w := by
  obtain ⟨htr, hbl, halg⟩ := hM.reshape w graph mem h hs
  refine ⟨⟨h.rt.reshape hrt mem, ?_, ?_, halg⟩, htr⟩
  · rw [htr]
    exact hheap
  · unfold owned
    rw [hbl]
    exact howns

theorem handleBlocks_perm {handles handles' : List GcHandle} {k : GcHandle}
    (h : handles.Perm (k :: handles')) (b : Block) (bs : List Block) :
    (b :: (bs ++ handleBlocks handles)).Perm
      ((k.addr, sizeofHandle) :: b :: (bs ++ handleBlocks handles')) := by
  have hmap : (handleBlocks handles).Perm ((k.addr, sizeofHandle) :: handleBlocks handles') :=
    h.map fun k : GcHandle => (k.addr, sizeofHandle)
  refine ((hmap.append_left bs).trans List.perm_middle).cons b |>.trans (List.Perm.swap ..)

/-- `gc_handle_release` of a handle of the runtime. -/
theorem release_spec [Inhabited σ] (hM : M.Sound) {w : World σ} (h : M.Inv w) {handle : Addr}
    (hmem : handle ∈ w.graph.handles.map GcHandle.addr) :
    ∃ k ∈ w.graph.handles, k.addr = handle ∧ gcHandleRelease M.algo w handle =
      { w with mem := w.mem.free handle, graph := w.graph.popHandle k } := by
  obtain ⟨k, hk⟩ := exists_lookup hmem
  obtain ⟨hkm, rfl⟩ := mem_of_lookup hk
  have ht : k.target ≠ 0 := h.heap.ne_zero (h.heap.handles k hkm)
  have h0 : k.addr ≠ 0 := by
    have hlive := h.owns.live (k.addr, sizeofHandle) (List.mem_cons_of_mem _
      (List.mem_append_right _ (List.mem_map_of_mem hkm)))
    exact Nat.pos_iff_ne_zero.mp (h.owns.range _ hlive).1
  refine ⟨k, hkm, rfl, ?_⟩
  unfold gcHandleRelease
  simp only [if_neg h0, hk, hM.unpin, callHook, Graph.popHandle, ne_eq, ht, not_false_eq_true,
    if_true]

/-- The calls that request no memory keep the invariant and have their effect. -/
theorem Sound.quiet [Inhabited σ] (hM : M.Sound) {w : World σ} (h : M.Inv w) {op : ClientOp}
    (hl : op.Legal M.maxSize w.graph (M.tracked w)) (hq : op.quiet = true) :
    M.Inv (op.perform M.toCollector w).1 ∧ Effect M.rounded op w.graph (M.tracked w)
      (op.perform M.toCollector w).2 (op.perform M.toCollector w).1.graph
      (M.tracked (op.perform M.toCollector w).1) := by
  cases op with
  | storeRef owner loc v => exact hM.store w owner loc v h hl
  | loadRef place =>
    refine ⟨h, ?_, rfl, rfl⟩
    show gcLoadRef M.algo w place = w.graph.read place
    unfold gcLoadRef
    rw [hM.readBarrier]
  | writeBytes obj bytes =>
    obtain ⟨hinv, htr⟩ := hM.inv_reshape h _ w.mem (sameShape_writeBytes _ _ obj bytes)
      (h.heap.writeBytes hl.2) h.rt.runtime h.owns
    exact ⟨hinv, rfl, htr⟩
  | setRoot i v =>
    obtain ⟨hinv, htr⟩ := hM.inv_reshape h (w.graph.write (.root i) v) w.mem
      (SameShape.of_objs rfl (M.tracked w))
      (h.heap.writeRoot hl.1 hl.2) h.rt.runtime h.owns
    exact ⟨hinv, rfl, htr⟩
  | get handle => exact ⟨h, rfl, rfl, rfl⟩
  | release handle =>
    simp only [ClientOp.perform]
    by_cases h0 : handle = 0
    · subst h0
      simpa [Effect, gcHandleRelease] using h
    · obtain ⟨k, hk, rfl, heq⟩ := release_spec hM h (hl.resolve_left h0)
      rw [heq]
      obtain ⟨k', l₁, l₂, -, hk', heq', herase⟩ :=
        List.exists_of_eraseP (p := fun k' => k'.addr = k.addr) hk (by simp)
      have hperm : w.graph.handles.Perm
          (k' :: w.graph.handles.eraseP fun k' => k'.addr = k.addr) := by
        rw [herase, heq']
        exact List.perm_middle
      have haddr : k'.addr = k.addr := by simpa using hk'
      have hfree := (h.owns.perm (handleBlocks_perm hperm _ _).symm).free
      rw [haddr] at hfree
      obtain ⟨hinv, htr⟩ := hM.inv_reshape h _ (w.mem.free k.addr)
        (sameShape_popHandle _ _ k) (h.heap.popHandle k)
        (fun k' hk' => h.rt.runtime k' (List.mem_of_mem_eraseP hk')) hfree
      simp only [Effect, if_neg h0]
      exact ⟨hinv, htr, k, hk, rfl, rfl⟩
  | alloc | acquire | collectMinor | collectMajor | collectFull =>
    exact absurd hq Bool.false_ne_true

/-- `gc_handle_acquire` is refused its request, or keeps the invariant and has its effect. -/
theorem Sound.acquire [Inhabited σ] (hM : M.Sound) {w : World σ} (h : M.Inv w) {obj : Addr}
    (hl : obj = 0 ∨ obj ∈ M.tracked w) (flags : BitVec 32) :
    gcHandleAcquire M.algo w obj flags = ({ w with mem := w.mem.refuse }, 0) ∨
    M.Inv (gcHandleAcquire M.algo w obj flags).1 ∧
      Effect M.rounded (.acquire obj flags) w.graph (M.tracked w)
        (gcHandleAcquire M.algo w obj flags).2 (gcHandleAcquire M.algo w obj flags).1.graph
        (M.tracked (gcHandleAcquire M.algo w obj flags).1) := by
  by_cases hobj : obj = 0
  · subst hobj
    right
    simpa [Effect, gcHandleAcquire] using h
  · refine (gcHandleAcquire_cases hM.pin hobj flags).imp_right ?_
    rintro ⟨a, hfit, heq⟩
    have hnew : a ∉ w.graph.handles.map GcHandle.addr := by
      intro hmem
      obtain ⟨k, hk, hka⟩ := List.mem_map.mp hmem
      exact (h.owns.apart_of_fits hfit (k.addr, sizeofHandle) (List.mem_cons_of_mem _
        (List.mem_append_right _ (List.mem_map_of_mem hk)))).1 hka.symm
    rw [heq]
    obtain ⟨hinv, htr⟩ := hM.inv_reshape h _ (w.mem.grant a sizeofHandle)
      (sameShape_pushHandle _ _ { addr := a, runtime := w.self, target := obj, flags })
      (h.heap.pushHandle (hl.resolve_left hobj) hnew)
      (fun k hk => by
        rcases List.mem_cons.mp hk with rfl | hk
        · rfl
        · exact h.rt.runtime k hk)
      ((h.owns.grant hfit).perm (handleBlocks_perm (.refl _) _ _))
    simp only [Effect, if_neg hobj]
    exact ⟨hinv, Nat.pos_iff_ne_zero.mp hfit.1, hnew, htr, w.self, rfl⟩

/-- An algorithm that shows this much is lawful. -/
theorem Sound.lawful [Inhabited σ] (hM : M.Sound) : M.toCollector.Lawful M.Inv where
  heap _ h := h.heap
  start := hM.start
  step w op w' h hstep := by
    obtain ⟨hl, rfl, hg⟩ := hstep
    cases op with
    | alloc desc size flags => exact hM.alloc w desc size flags h hl.1 hl.2 hg
    | acquire obj flags =>
      rcases hM.acquire h hl flags with heq | hdone
      · have hf : (gcHandleAcquire M.algo w obj flags).1.mem.failed = false := hg.1
        rw [heq] at hf
        exact nomatch hf
      · exact hdone
    | collectMinor => exact hM.minor w h hg
    | collectMajor => exact hM.major w h hg
    | collectFull => exact hM.full w h hg
    | storeRef | loadRef | writeBytes | setRoot | get | release => exact hM.quiet h hl rfl

end Manager

/-! ### Creating a runtime and allocating -/

/-- A runtime that has been created: its own block and that of the worklist have been granted, and
    the algorithm has been started on the fresh runtime. -/
theorem gcRuntimeCreate_cases [Inhabited σ] {cfg : GcConfig} {algo : GcAlgorithmVtable σ}
    {hooks : GcVmHooks} {mem : Mem} {w : World σ}
    (h : gcRuntimeCreate cfg algo hooks mem = some w) :
    ∃ a m, mem.Fits a sizeofRuntime ∧ (mem.grant a sizeofRuntime).Quiet m ∧
      w = callHook algo.globalInit (fun init => init
        (freshWorld (gcRuntimeApplyDefaultConfig cfg) hooks a m) (gcRuntimeApplyDefaultConfig cfg))
        (freshWorld (gcRuntimeApplyDefaultConfig cfg) hooks a m) := by
  unfold gcRuntimeCreate at h
  rcases mem.malloc_cases sizeofRuntime with hm | ⟨a, hfit, hm⟩
  · simp [hm] at h
  · have ha : a ≠ 0 := Nat.pos_iff_ne_zero.mp hfit.1
    refine ⟨a, ((mem.grant a sizeofRuntime).reserve (256 * 8)).1, hfit, Mem.quiet_reserve _ _, ?_⟩
    simp only [hm, if_neg ha] at h
    split at h
    · exact nomatch h
    · split at h
      · exact nomatch h
      · exact (Option.some.inj h).symm

/-- A fresh runtime has an empty heap when starting the algorithm leaves the graph alone. -/
theorem Collector.Starts.graph [Inhabited σ] {C : Collector σ} {w : World σ}
    (hinit : ∀ init, C.algo.globalInit = some init → ∀ w cfg, (init w cfg).graph = w.graph)
    (h : C.Starts w) : ∃ hooks, w.graph =
      { objs := fun _ => none, roots := fun _ => 0, handles := [], hooks, history := [],
        log := [] } := by
  obtain ⟨cfg, hooks, mem, -, -, -, hcreate, -⟩ := h
  obtain ⟨a, m, -, -, rfl⟩ := gcRuntimeCreate_cases hcreate
  refine ⟨hooks, ?_⟩
  unfold callHook
  split
  · next init hi => exact hinit init hi _ _
  · rfl

/-- Adding to the counter what fits it. -/
theorem GcStats.add_eq {s : GcStats} {n : Nat} (h : s.totalAllocated + n < 2 ^ 64) :
    s.add n = { s with
      totalAllocated := s.totalAllocated + n
      peakAllocated := max s.peakAllocated (s.totalAllocated + n) } := by
  unfold GcStats.add
  rw [Nat.mod_eq_of_lt h]
  simp only [GcStats.mk.injEq, true_and, and_true]
  split <;> omega

/-- The peak keeps up with the counter. -/
theorem GcStats.add_ok {s : GcStats} {n : Nat} (h : s.totalAllocated + n < 2 ^ 64)
    (hexact : s.clipped = false) :
    (s.add n).totalAllocated ≤ (s.add n).peakAllocated ∧ (s.add n).clipped = false := by
  rw [GcStats.add_eq h]
  exact ⟨le_max_right _ _, hexact⟩

theorem GcStats.peak_le_add (s : GcStats) (n : Nat) : s.peakAllocated ≤ (s.add n).peakAllocated := by
  simp only [GcStats.add]
  split <;> omega

/-- A fresh runtime, once its algorithm is bound, is in order. -/
theorem freshWorld_ok [Inhabited σ] {cfg : GcConfig} (hcfg : cfg.Ok) (hooks : GcVmHooks)
    (self : Addr) (mem : Mem) (w : World σ)
    (hw : w = ({ freshWorld (σ := σ) (gcRuntimeApplyDefaultConfig cfg) hooks self mem with
      mem := w.mem, heap := w.heap, algoState := w.algoState, stateBound := true } : World σ))
    (hheap : w.heap.clipped = false) : RuntimeOk w := by
  have hregion := hcfg.region
  have hgran : (gcBarrierSetInit
      (gcRuntimeApplyDefaultConfig cfg).gcRegionSize).oldToYoung.cardGranularity < 2 ^ 64 := by
    simp only [gcBarrierSetInit, gcCardTableInit, gcRuntimeApplyDefaultConfig]
    split
    · decide
    · exact hregion
  rw [hw]
  refine ⟨rfl, rfl, ⟨le_refl _, ?_, ?_, ?_⟩, ?_, GcBarrierSet.ok_init, hgran, le_refl _, rfl, hheap,
    rfl⟩
  · show (0 : Int) ≤ 256
    decide
  · show ((List.replicate 256 0).length : Int) = 256
    rw [List.length_replicate]
    rfl
  · show (256 : Int) < 2 ^ 31
    decide
  · intro k hk
    exact absurd hk List.not_mem_nil

/-- Before the first allocation the heap is empty. -/
theorem heapInv_fresh {hooks : GcVmHooks} (h : hooks.Ok) : HeapInv
    { objs := fun _ => none, roots := fun _ => 0, handles := [], hooks, history := [], log := [] }
    [] where
  nonNull := List.not_mem_nil
  objs _ ha := absurd ha List.not_mem_nil
  fields _ ha := absurd ha List.not_mem_nil
  roots _ := .inl rfl
  handles _ hk := absurd hk List.not_mem_nil
  handleAddrs := List.nodup_nil
  hooks := h
  lives := ⟨[], rfl, List.nodup_nil, fun _ ha => absurd ha List.not_mem_nil, List.nodup_nil,
    fun _ ha => absurd ha List.not_mem_nil, fun t => by simp⟩

/-- The header repairs of `gc_alloc_typed` change nothing in what the algorithms write. -/
theorem repairHeader_newHeader (desc : GcDescriptor) {size : Nat} (hsize : size % 2 ^ 32 ≠ 0)
    (allocFlags : BitVec 32) (tag size' : Nat) :
    repairHeader desc size' allocFlags
        (newHeader desc size (allocatedFlags desc allocFlags) tag) =
      newHeader desc size (allocatedFlags desc allocFlags) tag := by
  have hkind : (if desc.kind = 0 then desc.kind else desc.kind) = desc.kind := ite_self _
  have hflags : (if allocFlags &&& allocPinned ≠ 0 then
      allocatedFlags desc allocFlags ||| objectFlagPinned else allocatedFlags desc allocFlags) =
      allocatedFlags desc allocFlags := by
    split
    · next hp => rw [allocatedFlags, if_pos hp, BitVec.or_assoc, BitVec.or_self]
    · rfl
  unfold repairHeader newHeader zeroHeader
  simp only [Option.isNone_some, Bool.false_eq_true, if_false, hflags]
  rw [if_neg hsize, hkind]

/-- `gc_alloc_typed` repairs the header of the object that the algorithm returns. -/
theorem gcAllocTyped_repaired (algo : GcAlgorithmVtable σ)
    {alloc : World σ → GcDescriptor → Nat → BitVec 32 → World σ × Addr}
    (halloc : algo.alloc = some alloc) (hpost : algo.postAlloc = some fun w _ => w) {w w₁ : World σ}
    {a : Addr} {desc : GcDescriptor} {size : Nat} {flags : BitVec 32} (hsize : sizeofHeader ≤ size)
    (heq : alloc w desc size flags = (w₁, a)) (ha : a ≠ 0) :
    gcAllocTyped algo w desc size flags =
      ({ w₁ with graph := w₁.graph.modifyObj a (repairHeader desc size flags) }, a) := by
  unfold gcAllocTyped
  rw [if_neg (Nat.not_lt.mpr hsize)]
  simp only [halloc, hpost, callHook, heq, if_neg ha]

/-- `gc_alloc_typed` returns the object that the algorithm has just added. -/
theorem gcAllocTyped_of_alloc (algo : GcAlgorithmVtable σ)
    {alloc : World σ → GcDescriptor → Nat → BitVec 32 → World σ × Addr}
    (halloc : algo.alloc = some alloc) (hpost : algo.postAlloc = some fun w _ => w) {w : World σ}
    {desc : GcDescriptor} {size : Nat} {flags : BitVec 32} (hsize : sizeofHeader ≤ size)
    (hnull : (alloc w desc size flags).2 ≠ 0) {n tag : Nat} (hn : n % 2 ^ 32 ≠ 0)
    (hobj : (alloc w desc size flags).1.graph.objs (alloc w desc size flags).2 =
      some (newHeader desc n (allocatedFlags desc flags) tag)) :
    gcAllocTyped algo w desc size flags = alloc w desc size flags := by
  rw [gcAllocTyped_repaired algo halloc hpost hsize rfl hnull]
  generalize alloc w desc size flags = r at hnull hobj ⊢
  obtain ⟨w₁, a⟩ := r
  simp only at hnull hobj
  have hgraph : w₁.graph.modifyObj a (repairHeader desc size flags) = w₁.graph := by
    have hupd : Function.update w₁.graph.objs a (some (repairHeader desc size flags
        (newHeader desc n (allocatedFlags desc flags) tag))) = w₁.graph.objs := by
      rw [repairHeader_newHeader desc hn, ← hobj, Function.update_eq_self]
    rw [Graph.modifyObj, hobj, Option.map_some, Graph.setObj, hupd]
  rw [hgraph]

/-- `gc_alloc_typed` over an algorithm that has no object to give takes plain memory. -/
theorem gcAllocTyped_plain (algo : GcAlgorithmVtable σ)
    {alloc : World σ → GcDescriptor → Nat → BitVec 32 → World σ × Addr}
    (halloc : algo.alloc = some alloc) (hpost : algo.postAlloc = some fun w _ => w) {w w₁ : World σ}
    {desc : GcDescriptor} {size : Nat} {flags : BitVec 32} (hsize : sizeofHeader ≤ size)
    (hnull : alloc w desc size flags = (w₁, 0)) :
    ((w₁.mem.malloc size).2 = 0 ∧
      gcAllocTyped algo w desc size flags = ({ w₁ with mem := w₁.mem.refuse }, 0)) ∨
    ((w₁.mem.malloc size).2 ≠ 0 ∧ ∃ a, w₁.mem.Fits a size ∧ gcAllocTyped algo w desc size flags =
      ({ w₁ with mem := w₁.mem.grant a size }.addObject a desc fun tag =>
        repairHeader desc size flags (zeroHeader tag), a)) := by
  unfold gcAllocTyped
  rw [if_neg (Nat.not_lt.mpr hsize)]
  simp only [halloc, hpost, callHook, hnull, if_true]
  rcases w₁.mem.malloc_cases size with hm | ⟨a, hfit, hm⟩
  · left
    simp [hm]
  · have ha : a ≠ 0 := Nat.pos_iff_ne_zero.mp hfit.1
    refine .inr ⟨by rwa [hm], a, hfit, ?_⟩
    simp only [hm, if_neg ha, World.addObject, Graph.modifyObj, Graph.setObj, Function.update_self,
      Option.map_some, Function.update_idem]

end Xgc
