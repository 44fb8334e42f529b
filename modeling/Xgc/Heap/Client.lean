import Xgc.Heap.Collected
import Xgc.Lib.Runs

/-! A client of the public functions, and the runs of a runtime under it.

    The client is well behaved (`ClientOp.Legal`): it only uses references to tracked objects,
    stores references with `gc_store_ref`, and releases each handle at most once. `Effect` says what
    each call does to the managed heap; an algorithm is lawful when its calls have these effects, and
    then every run keeps the heap in order. -/

namespace Xgc

open Lib (Run)

variable {σ : Type}

/-- An algorithm as its clients see it: its table of functions, the objects it tracks, the size that
    an object has when `size` bytes are asked for, and the largest size that can be asked for. -/
structure Collector (σ : Type) where
  algo : GcAlgorithmVtable σ
  tracked : World σ → List Addr
  rounded : Nat → Nat
  maxSize : Nat

/-- A call of a public function, or a write of the client to its own data. -/
inductive ClientOp where
  | alloc (desc : GcDescriptor) (size : Nat) (flags : BitVec 32)
  | storeRef (owner : Addr) (loc : SlotLoc) (value : Addr)
  | loadRef (place : SlotRef)
  | writeBytes (obj : Addr) (bytes : Nat → UInt8)
  | setRoot (i : Nat) (value : Addr)
  | acquire (obj : Addr) (flags : BitVec 32)
  | get (handle : Addr)
  | release (handle : Addr)
  | collectMinor
  | collectMajor
  | collectFull

/-- What a well-behaved client may do. Plain bytes may decide which slots an object has, so writing
    them must not orphan a reference. -/
def ClientOp.Legal (maxSize : Nat) (g : Graph) (tracked : List Addr) : ClientOp → Prop
  | .alloc desc size _ => desc.Ok ∧ size ≤ maxSize
  | .storeRef owner loc v =>
    owner ∈ tracked ∧ (∀ o, g.objs owner = some o → loc ∈ o.layout) ∧ (v = 0 ∨ v ∈ tracked)
  | .writeBytes obj bytes =>
    obj ∈ tracked ∧ ∀ o, g.objs obj = some o → ∀ p, o.slots p ≠ 0 →
      p ∈ GcHeader.layout { o with bytes }
  | .setRoot i v => i ∈ g.hooks.rootSlots ∧ (v = 0 ∨ v ∈ tracked)
  | .acquire obj _ => obj = 0 ∨ obj ∈ tracked
  | .release h => h = 0 ∨ h ∈ g.handles.map GcHandle.addr
  | .loadRef _ | .get _ | .collectMinor | .collectMajor | .collectFull => True

/-- The call: the world after it and what it returns. -/
def ClientOp.perform (C : Collector σ) (w : World σ) : ClientOp → World σ × Addr
  | .alloc desc size flags => gcAllocTyped C.algo w desc size flags
  | .storeRef owner loc v => (gcStoreRef C.algo w owner loc v, 0)
  | .loadRef place => (w, gcLoadRef C.algo w place)
  | .writeBytes obj bytes =>
    ({ w with graph := w.graph.modifyObj obj fun o => { o with bytes } }, 0)
  | .setRoot i v => ({ w with graph := w.graph.write (.root i) v }, 0)
  | .acquire obj flags => gcHandleAcquire C.algo w obj flags
  | .get handle => (w, gcHandleGet w handle)
  | .release handle => (gcHandleRelease C.algo w handle, 0)
  | .collectMinor => (gcCollectMinor C.algo w, 0)
  | .collectMajor => (gcCollectMajor C.algo w, 0)
  | .collectFull => (gcCollectFull C.algo w, 0)

/-- The calls that request no memory. -/
def ClientOp.quiet : ClientOp → Bool
  | .storeRef .. | .loadRef _ | .writeBytes .. | .setRoot .. | .get _ | .release _ => true
  | .alloc .. | .acquire .. | .collectMinor | .collectMajor | .collectFull => false

/-- The calls that neither allocate nor collect. -/
def ClientOp.stationary : ClientOp → Bool
  | .alloc .. | .collectMinor | .collectMajor | .collectFull => false
  | _ => true

/-- All sizes of a configuration fit `size_t`. -/
structure GcConfig.Ok (cfg : GcConfig) : Prop where
  soft : cfg.gcThresholdSoft < 2 ^ 64
  hard : cfg.gcThresholdHard < 2 ^ 64
  young : cfg.gcYoungSpaceSize < 2 ^ 64
  region : cfg.gcRegionSize < 2 ^ 64
  large : cfg.gcLargeObjectThreshold < 2 ^ 64

namespace Collector

variable (C : Collector σ)

/-- One call of a well-behaved client, all of whose requests for memory are granted. -/
def Step (w : World σ) (op : ClientOp) (w' : World σ) : Prop :=
  op.Legal C.maxSize w.graph (C.tracked w) ∧ (op.perform C w).1 = w' ∧ w'.Granted

/-- A runtime that `gc_runtime_create` has just made. -/
def Starts (w : World σ) [Inhabited σ] : Prop :=
  ∃ cfg hooks mem, cfg.Ok ∧ hooks.Ok ∧ mem.Owns [] ∧
    gcRuntimeCreate cfg C.algo hooks mem = some w ∧ w.Granted

/-- A state that some run of a well-behaved client leads to. -/
def Reaches (w : World σ) [Inhabited σ] : Prop :=
  ∃ w₀ ops, C.Starts w₀ ∧ Run C.Step w₀ ops w

variable {C} [Inhabited σ] {w w' : World σ}

theorem Starts.reaches (h : C.Starts w) : C.Reaches w := ⟨w, [], h, .nil w⟩

/-- One more call. -/
theorem Reaches.step (h : C.Reaches w) (op : ClientOp) (hs : C.Step w op w') : C.Reaches w' := by
  obtain ⟨w₀, ops, hstart, hrun⟩ := h
  exact ⟨w₀, ops ++ [op], hstart, hrun.snoc hs⟩

theorem Reaches.granted (h : C.Reaches w) : w.Granted := by
  obtain ⟨w₀, ops, ⟨cfg, hooks, mem, -, -, -, -, hg⟩, hrun⟩ := h
  cases hrun with
  | nil => exact hg
  | snoc _ hst => exact hst.2.2

end Collector

/-- The handle that `gc_handle_acquire` puts in front of the list, and the object that it pins. -/
def Graph.pushHandle (g : Graph) (k : GcHandle) : Graph :=
  { g with handles := k :: g.handles }.modifyObj k.target fun o =>
    { o with flags := o.flags ||| objectFlagPinned }

/-- The list without the handle `k`, and the object that `gc_handle_release` unpins. -/
def Graph.popHandle (g : Graph) (k : GcHandle) : Graph :=
  { g with handles := g.handles.eraseP fun k' => k'.addr = k.addr }.modifyObj k.target fun o =>
    { o with flags := o.flags &&& ~~~objectFlagPinned }

/-- A new object at `a`, which may lie where objects used to be that are not tracked any more. -/
structure Allocated (desc : GcDescriptor) (size : Nat) (flags : BitVec 32) (g : Graph)
    (tracked : List Addr) (a : Addr) (g' : Graph) (tracked' : List Addr) : Prop where
  ne_zero : a ≠ 0
  new : a ∉ tracked
  perm : tracked'.Perm (a :: tracked)
  graph : ∃ objs, (∀ b ∈ tracked, objs b = g.objs b) ∧
    g' = { Graph.setObj { g with objs } a
            (some (newHeader desc size (allocatedFlags desc flags) g.history.length)) with
           history := g.history ++ [desc] }

/-- What a call does to the managed heap. -/
def Effect (rounded : Nat → Nat) (op : ClientOp) (g : Graph) (tracked : List Addr) (result : Addr)
    (g' : Graph) (tracked' : List Addr) : Prop :=
  match op with
  | .alloc desc size flags =>
    if size < sizeofHeader then result = 0 ∧ g' = g ∧ tracked' = tracked
    else ∃ g₁ tracked₁ keep φ, Collected g g₁ tracked tracked₁ keep φ ∧
      Allocated desc (rounded size) flags g₁ tracked₁ result g' tracked'
  | .storeRef owner loc v => g' = g.write (.field owner loc) v ∧ tracked' = tracked
  | .loadRef place => result = g.read place ∧ g' = g ∧ tracked' = tracked
  | .writeBytes obj bytes => g' = g.modifyObj obj (fun o => { o with bytes }) ∧ tracked' = tracked
  | .setRoot i v => g' = g.write (.root i) v ∧ tracked' = tracked
  | .acquire obj flags =>
    if obj = 0 then result = 0 ∧ g' = g ∧ tracked' = tracked
    else result ≠ 0 ∧ result ∉ g.handles.map GcHandle.addr ∧ tracked' = tracked ∧
      ∃ runtime, g' = g.pushHandle { addr := result, runtime, target := obj, flags }
  | .get handle => result = g.target handle ∧ g' = g ∧ tracked' = tracked
  | .release handle =>
    if handle = 0 then g' = g ∧ tracked' = tracked
    else tracked' = tracked ∧ ∃ k ∈ g.handles, k.addr = handle ∧ g' = g.popHandle k
  | .collectMinor => ∃ keep φ, Collected g g' tracked tracked' keep φ
  | .collectMajor | .collectFull => ∃ φ, Collected g g' tracked tracked' {a | g.Reachable a} φ

/-- An algorithm whose calls have these effects, in all states that satisfy `Inv`. -/
structure Collector.Lawful [Inhabited σ] (C : Collector σ) (Inv : World σ → Prop) : Prop where
  heap : ∀ w, Inv w → HeapInv w.graph (C.tracked w)
  start : ∀ w, C.Starts w → Inv w
  step : ∀ w op w', Inv w → C.Step w op w' → Inv w' ∧
    Effect C.rounded op w.graph (C.tracked w) (op.perform C w).2 w'.graph (C.tracked w')

theorem Collector.Lawful.reaches [Inhabited σ] {C : Collector σ} {Inv : World σ → Prop}
    (h : C.Lawful Inv) {w : World σ} (hw : C.Reaches w) : Inv w := by
  obtain ⟨w₀, ops, hstart, hrun⟩ := hw
  exact hrun.invariant (fun s op t hs hst => (h.step s op t hs hst).1) (h.start w₀ hstart)

/-! ### Effects keep the heap in order -/

/-- The order in which tracked objects are listed does not matter. -/
theorem HeapInv.perm {g : Graph} {tracked tracked' : List Addr} (h : HeapInv g tracked)
    (hp : tracked'.Perm tracked) : HeapInv g tracked' where
  nonNull := fun h0 => h.nonNull (hp.subset h0)
  objs a ha := h.objs a (hp.subset ha)
  fields a ha p := (h.fields a (hp.subset ha) p).imp_right fun hm => hp.symm.subset hm
  roots i := (h.roots i).imp_right fun hi => ⟨hi.1, hp.symm.subset hi.2⟩
  handles k hk := hp.symm.subset (h.handles k hk)
  handleAddrs := h.handleAddrs
  hooks := h.hooks
  lives := by
    obtain ⟨dead, hl⟩ := h.lives
    refine ⟨dead, hl.log, hl.once, fun a ha b hb => hl.distinct (hp.subset ha) (hp.subset hb),
      hp.nodup_iff.mpr hl.nodup, fun a ha => hl.disjoint a (hp.subset ha), fun t => ?_⟩
    simp only [hl.total t, hp.mem_iff]

theorem newHeader_ok {desc : GcDescriptor} (hd : desc.Ok) {size : Nat}
    (hsize : sizeofHeader ≤ size) (hsize' : size < 2 ^ 32) (flags : BitVec 16) (tag : Nat) :
    (newHeader desc size flags tag).Ok where
  desc := ⟨desc, rfl, hd⟩
  header := by
    show sizeofHeader ≤ size % 2 ^ 32
    rwa [Nat.mod_eq_of_lt hsize']
  size_lt := Nat.mod_lt _ (by decide)
  slots _ hp := absurd rfl hp

/-- The new object. -/
theorem Allocated.obj {desc : GcDescriptor} {size : Nat} {flags : BitVec 32} {g g' : Graph}
    {tracked tracked' : List Addr} {a : Addr}
    (ha : Allocated desc size flags g tracked a g' tracked') :
    g'.objs a = some (newHeader desc size (allocatedFlags desc flags) g.history.length) := by
  obtain ⟨objs, -, rfl⟩ := ha.graph
  simp

theorem Allocated.heapInv {desc : GcDescriptor} {size : Nat} {flags : BitVec 32} {g g' : Graph}
    {tracked tracked' : List Addr} {a : Addr} (h : HeapInv g tracked) (hd : desc.Ok)
    (hsize : sizeofHeader ≤ size) (hsize' : size < 2 ^ 32)
    (ha : Allocated desc size flags g tracked a g' tracked') : HeapInv g' tracked' := by
  obtain ⟨objs, hobjs, rfl⟩ := ha.graph
  have h₁ : HeapInv { g with objs } tracked :=
    h.congr hobjs rfl rfl rfl h.roots h.handles h.handleAddrs
  exact (h₁.addObject ha.ne_zero ha.new (newHeader_ok hd hsize hsize' _ _) rfl rfl
    fun _ => rfl).perm ha.perm

theorem HeapInv.setFlags {g : Graph} {tracked : List Addr} (h : HeapInv g tracked) (a : Addr)
    (f : BitVec 16 → BitVec 16) :
    HeapInv (g.modifyObj a fun o => { o with flags := f o.flags }) tracked := by
  refine h.modifyObj a fun o ho ha hok =>
    ⟨⟨hok.desc, hok.header, hok.size_lt, hok.slots⟩, rfl, rfl, fun p => ?_⟩
  show o.slots p = 0 ∨ o.slots p ∈ tracked
  rw [← Graph.slot_eq ho]
  exact h.fields a ha p

theorem HeapInv.pushHandle {g : Graph} {tracked : List Addr} (h : HeapInv g tracked) {k : GcHandle}
    (hk : k.target ∈ tracked) (hnew : k.addr ∉ g.handles.map GcHandle.addr) :
    HeapInv (g.pushHandle k) tracked := by
  refine HeapInv.setFlags ?_ k.target (· ||| objectFlagPinned)
  refine h.setHandles (fun k' hk' => ?_) (List.nodup_cons.mpr ⟨hnew, h.handleAddrs⟩)
  rcases List.mem_cons.mp hk' with rfl | hk'
  · exact hk
  · exact h.handles k' hk'

theorem HeapInv.popHandle {g : Graph} {tracked : List Addr} (h : HeapInv g tracked)
    (k : GcHandle) : HeapInv (g.popHandle k) tracked :=
  (h.setHandles (fun k' hk' => h.handles k' (List.mem_of_mem_eraseP hk'))
    (h.handleAddrs.sublist (List.eraseP_sublist.map _))).setFlags k.target
      (· &&& ~~~objectFlagPinned)

theorem HeapInv.writeBytes {g : Graph} {tracked : List Addr} (h : HeapInv g tracked) {a : Addr}
    {bytes : Nat → UInt8}
    (hb : ∀ o, g.objs a = some o → ∀ p, o.slots p ≠ 0 → p ∈ GcHeader.layout { o with bytes }) :
    HeapInv (g.modifyObj a fun o => { o with bytes }) tracked := by
  refine h.modifyObj a fun o ho ha hok =>
    ⟨⟨hok.desc, hok.header, hok.size_lt, hb o ho⟩, rfl, rfl, fun p => ?_⟩
  show o.slots p = 0 ∨ o.slots p ∈ tracked
  rw [← Graph.slot_eq ho]
  exact h.fields a ha p

/-- A legal call with its effect keeps the heap in order. -/
theorem Effect.heapInv {rounded : Nat → Nat} {maxSize : Nat} {op : ClientOp} {g g' : Graph}
    {tracked tracked' : List Addr} {result : Addr}
    (hround : ∀ n, sizeofHeader ≤ n → n ≤ maxSize → sizeofHeader ≤ rounded n ∧ rounded n < 2 ^ 32)
    (h : HeapInv g tracked) (hl : op.Legal maxSize g tracked)
    (he : Effect rounded op g tracked result g' tracked') : HeapInv g' tracked' := by
  cases op with
  | alloc desc size flags =>
    simp only [Effect] at he
    split at he
    · obtain ⟨-, rfl, rfl⟩ := he
      exact h
    · next hsize =>
      obtain ⟨g₁, tracked₁, keep, φ, hc, ha⟩ := he
      have hr := hround size (Nat.le_of_not_lt hsize) hl.2
      exact ha.heapInv (hc.heapInv h) hl.1 hr.1 hr.2
  | storeRef owner loc v =>
    obtain ⟨rfl, rfl⟩ := he
    exact h.writeField hl.2.1 hl.2.2
  | loadRef place =>
    obtain ⟨-, rfl, rfl⟩ := he
    exact h
  | writeBytes obj bytes =>
    obtain ⟨rfl, rfl⟩ := he
    exact h.writeBytes hl.2
  | setRoot i v =>
    obtain ⟨rfl, rfl⟩ := he
    exact h.writeRoot hl.1 hl.2
  | acquire obj flags =>
    simp only [Effect] at he
    split at he
    · obtain ⟨-, rfl, rfl⟩ := he
      exact h
    · next hobj =>
      obtain ⟨-, hnew, rfl, runtime, rfl⟩ := he
      exact h.pushHandle (hl.resolve_left hobj) hnew
  | get handle =>
    obtain ⟨-, rfl, rfl⟩ := he
    exact h
  | release handle =>
    simp only [Effect] at he
    split at he
    · obtain ⟨rfl, rfl⟩ := he
      exact h
    · obtain ⟨rfl, k, -, -, rfl⟩ := he
      exact h.popHandle k
  | collectMinor =>
    obtain ⟨keep, φ, hc⟩ := he
    exact hc.heapInv h
  | collectMajor =>
    obtain ⟨φ, hc⟩ := he
    exact hc.heapInv h
  | collectFull =>
    obtain ⟨φ, hc⟩ := he
    exact hc.heapInv h

/-! ### A sample client -/

/-- A type of objects with a finalizer and one reference slot behind the header. -/
def cell : GcDescriptor where
  fixedSize := 24
  flags := descFlagHasFinalizer
  kind := 1
  traceSlots := some fun c => if 24 ≤ c.size then [.inline 16] else []
  traceSlotsRange := none
  finalize := true
  layout := fun n _ => if 24 ≤ n then [.inline 16] else []

theorem cell_ok : cell.Ok where
  trace c p hp _ := ⟨_, rfl, hp⟩
  range traceRange h := nomatch h
  inside n bytes off h := by
    by_cases hn : 24 ≤ n
    · simp only [cell, if_pos hn, List.mem_singleton, SlotLoc.inline.injEq] at h
      unfold sizeofHeader
      omega
    · simp [cell, hn] at h
  outside n bytes h := by
    by_cases hn : 24 ≤ n <;> simp [cell, hn] at h

/-- A virtual machine with `n` root slots. -/
def sampleHooks (n : Nat) : GcVmHooks where
  scanRoots := some fun _ => List.range n
  rootSlots := List.range n

theorem sampleHooks_ok (n : Nat) : (sampleHooks n).Ok := fun _ _ hi _ => ⟨_, rfl, hi⟩

/-- A nursery of `young` bytes, and the default for all other sizes. -/
def sampleConfig (young : Nat) : GcConfig where
  gcThresholdSoft := 0
  gcThresholdHard := 0
  gcYoungSpaceSize := young
  gcRegionSize := 0
  gcLargeObjectThreshold := 0

/-- An allocator that places its blocks a mebibyte apart and refuses the requests in `refused`. -/
def sampleMem (refused : Nat → Bool) : Mem where
  answers k := if refused k then none else some (2 ^ 20 * (k + 1))
  calls := 0
  blocks := []
  failed := false
  fault := false

theorem sampleMem_owns (refused : Nat → Bool) : (sampleMem refused).Owns [] :=
  ⟨.nil, fun _ hb => (nomatch hb), fun _ hb => (nomatch hb), .nil, rfl⟩

namespace Collector

variable (C : Collector σ) [Inhabited σ]

/-- The runtime that is created with all this. -/
def sampleStart (young roots : Nat) (refused : Nat → Bool) : Option (World σ) :=
  gcRuntimeCreate (sampleConfig young) C.algo (sampleHooks roots) (sampleMem refused)

/-- Put a new cell into root slot `i`. -/
def rootCell (i : Nat) (w : World σ) : World σ :=
  let r := (ClientOp.alloc cell 24 0).perform C w
  ((ClientOp.setRoot i r.2).perform C r.1).1

/-- Let the cell in root slot `i` refer to the object in root slot `j`. -/
def linkCells (i j : Nat) (w : World σ) : World σ :=
  ((ClientOp.storeRef (w.graph.roots i) (.inline 16) (w.graph.roots j)).perform C w).1

variable {C}

theorem sampleStart_starts {young roots : Nat} {refused : Nat → Bool} {w : World σ}
    (hyoung : young < 2 ^ 64) (h : C.sampleStart young roots refused = some w) (hg : w.Granted) :
    C.Starts w :=
  have h0 : 0 < 2 ^ 64 := by decide
  ⟨sampleConfig young, sampleHooks roots, sampleMem refused, ⟨h0, h0, hyoung, h0, h0⟩,
    sampleHooks_ok roots, sampleMem_owns refused, h, hg⟩

/-- A client may put a new cell into a root slot. -/
theorem Reaches.rootCell {w : World σ} (h : C.Reaches w) {i : Nat} (hmax : 24 ≤ C.maxSize)
    (hi : i ∈ ((ClientOp.alloc cell 24 0).perform C w).1.graph.hooks.rootSlots)
    (hmem : ((ClientOp.alloc cell 24 0).perform C w).2 ∈
      C.tracked ((ClientOp.alloc cell 24 0).perform C w).1)
    (hg : (C.rootCell i w).Granted) : C.Reaches (C.rootCell i w) :=
  (h.step (.alloc cell 24 0) ⟨⟨cell_ok, hmax⟩, rfl, hg⟩).step
    (.setRoot i ((ClientOp.alloc cell 24 0).perform C w).2) ⟨⟨hi, .inr hmem⟩, rfl, hg⟩

/-- A client may let a cell refer to an object in a root slot. -/
theorem Reaches.linkCells {w : World σ} (h : C.Reaches w) {i j : Nat}
    (hi : w.graph.roots i ∈ C.tracked w) (hj : w.graph.roots j ∈ C.tracked w)
    (hslot : ((w.graph.objs (w.graph.roots i)).all fun o => decide (.inline 16 ∈ o.layout)) = true)
    (hg : (C.linkCells i j w).Granted) : C.Reaches (C.linkCells i j w) := by
  refine h.step (.storeRef _ _ _) ⟨⟨hi, fun o ho => ?_, .inr hj⟩, rfl, hg⟩
  rw [ho] at hslot
  simpa using hslot

end Collector

end Xgc
