import Xgc.Guarantees.Allocation

/-! The walk of `gc_gen_finalize_dead_nursery` over the nursery: it stops at each object that has been
    allocated there since the last reset, in the order of the allocations, and ends where the used part
    of the nursery ends. Nothing is asked of the heap, only of the sizes allocated in the nursery. -/

namespace Xgc

open Lib (Run lookup)

variable {w w' : GenWorld} {ys : List Nat}

/-- Where a walk from `cursor` to `stop` ends. -/
def nurseryEnd (g : Graph) : Nat → Nat → Nat → Nat
  | 0, cursor, _ => cursor
  | fuel + 1, cursor, stop =>
    if cursor < stop then nurseryEnd g fuel (cursor + g.sizeAt cursor) stop else cursor

theorem Tiles.nurseryEnd {g : Graph} : ∀ {ys : List Nat} {a n : Nat}, Tiles g a n ys →
    ∀ {fuel : Nat}, ys.length ≤ fuel → Xgc.nurseryEnd g fuel a (a + n) = a + n
  | [], a, n, h, fuel, _ => by
      obtain rfl : n = 0 := h
      cases fuel <;> simp [Xgc.nurseryEnd]
  | y :: ys, a, n, h, 0, hf => by simp at hf
  | y :: ys, a, n, h, fuel + 1, hf => by
      obtain ⟨rfl, hmin, hle, hrest⟩ := h
      have hend : y + g.sizeAt y + (n - g.sizeAt y) = y + n := by omega
      have ih := hrest.nurseryEnd (Nat.le_of_succ_le_succ hf)
      rw [hend] at ih
      unfold sizeofHeader at hmin
      rw [Xgc.nurseryEnd, if_pos (by omega), ih]

/-- The loop over tiles only adds to the log. -/
theorem Tiles.finalizeFrom : ∀ {ys : List Nat} {a n : Nat} {w : GenWorld}, Tiles w.graph a n ys →
    ∀ {fuel : Nat}, ys.length ≤ fuel →
    ∃ events, gcGenFinalizeFrom fuel a (a + n) w = w.logged events
  | [], a, n, w, h, fuel, _ => by
      obtain rfl : n = 0 := h
      exact ⟨[], by cases fuel <;> simp [gcGenFinalizeFrom, GenWorld.logged]⟩
  | y :: ys, a, n, w, h, 0, hf => by simp at hf
  | y :: ys, a, n, w, h, fuel + 1, hf => by
      obtain ⟨rfl, hmin, hle, hrest⟩ := h
      unfold sizeofHeader at hmin
      rw [gcGenFinalizeFrom, if_pos (by omega)]
      cases ho : w.graph.objs y with
      | none =>
        -- there is a header wherever there is a size
        simp [Graph.sizeAt, ho] at hmin
      | some o =>
        rw [Graph.sizeAt_eq ho] at hmin hle hrest
        have hend : y + n = y + o.size + (n - o.size) := by omega
        simp only [hend]
        obtain ⟨events, he⟩ := Tiles.finalizeFrom
          (w := w.logged (if (gcGenFindForward w.algoState y).isNone then o.deathEvents else []))
          (hrest.congr fun _ _ => rfl) (Nat.le_of_succ_le_succ hf)
        exact ⟨_, he.trans (GenWorld.logged_logged _ _ _)⟩

namespace NurseryKept

variable {w₀ : GenWorld}

/-- What happens to an object outside the nursery changes no header in it. -/
theorem modifyOutside (h : NurseryKept w₀ w) {a : Addr} (ha : w₀.Outside a)
    (f : GcHeader → GcHeader) : NurseryKept w₀ { w with graph := w.graph.modifyObj a f } := by
  refine { h with headers := fun b hb => ?_ }
  have hne : b ≠ a := fun he => hb (he ▸ ha)
  rw [← h.headers b hb]
  simp [Graph.recorded, hne]

/-- A new object outside the nursery. -/
theorem addObject (h : NurseryKept w₀ w) {a : Addr} (ha : w₀.Outside a) (desc : GcDescriptor)
    (o : Nat → GcHeader) : NurseryKept w₀ (w.addObject a desc o) :=
  (h.setObj ha (some (o w.graph.history.length))).congr rfl rfl rfl rfl rfl

/-- An old object lies outside the nursery, and so does the block of one that is given up. -/
theorem allocOld (h : NurseryKept w₀ w) (desc : GcDescriptor) (size : Nat) (flags : BitVec 32) :
    NurseryKept w₀ (gcGenAllocOld w desc size flags).1 ∧
      ((gcGenAllocOld w desc size flags).2 ≠ 0 → w₀.Outside (gcGenAllocOld w desc size flags).2) := by
  unfold gcGenAllocOld
  rcases w.mem.malloc_cases size with hm | ⟨t, hfit, hm⟩
  · simp only [hm, if_true]
    exact ⟨h.quiet w.mem.quiet_refuse, fun hne => absurd rfl hne⟩
  · have ht := h.outside_of_fits hfit
    have hadd := (h.grant t size).addOldNode ht (size % 2 ^ 32)
    simp only [hm, if_neg (Nat.pos_iff_ne_zero.mp hfit.1)]
    generalize gcGenAddOldNode _ t (size % 2 ^ 32) = r at hadd ⊢
    obtain ⟨w₁, ok⟩ := r
    simp only at hadd ⊢
    split
    · exact ⟨hadd.free ht, fun hne => absurd rfl hne⟩
    · exact ⟨(hadd.addObject ht desc _).congr rfl rfl rfl rfl rfl, fun _ => ht⟩

/-- An allocation for which the algorithm takes nothing from the nursery. -/
theorem allocTyped {w₁ : GenWorld} {a : Addr} {desc : GcDescriptor} {size : Nat} {flags : BitVec 32}
    (hsize : sizeofHeader ≤ size) (heq : gcGenAlloc w desc size flags = (w₁, a))
    (h : NurseryKept w₀ w₁) (ha : a ≠ 0 → w₀.Outside a) :
    NurseryKept w₀ (gcAllocTyped gcGenCopyMsVtable w desc size flags).1 := by
  by_cases h0 : a = 0
  · subst h0
    rcases gcAllocTyped_plain gcGenCopyMsVtable rfl rfl hsize heq with
      ⟨-, hr⟩ | ⟨-, t, hfit, hr⟩
    · rw [hr]
      exact h.quiet w₁.mem.quiet_refuse
    · rw [hr]
      exact (h.grant t size).addObject (h.outside_of_fits hfit) desc _
  · rw [gcAllocTyped_repaired gcGenCopyMsVtable rfl rfl hsize heq h0]
    exact h.modifyOutside (ha h0) _

theorem storeRef (h : NurseryKept w₀ w) (owner : Addr) (loc : SlotLoc) (v : Addr) :
    NurseryKept w₀ (gcStoreRef gcGenCopyMsVtable w owner loc v) := by
  have hw := h.write (.field owner loc) v
  simp only [gcStoreRef, gcGenCopyMsVtable, callHook, gcGenWriteBarrier]
  split
  · exact hw
  · split
    · exact hw
    · split
      · exact hw
      · split
        · exact hw
        · exact hw.congr rfl rfl rfl rfl rfl

theorem acquire (h : NurseryKept w₀ w) (obj : Addr) (flags : BitVec 32) :
    NurseryKept w₀ (gcHandleAcquire gcGenCopyMsVtable w obj flags).1 := by
  by_cases hobj : obj = 0
  · rw [gcHandleAcquire, if_pos hobj]
    exact h
  · rcases @gcHandleAcquire_cases _ gcGenCopyMsVtable rfl w obj hobj flags with heq | ⟨a, hfit, heq⟩
    · rw [heq]
      exact h.quiet w.mem.quiet_refuse
    · have ha := h.outside_of_fits hfit
      have hpush : NurseryKept w₀ { w with
          mem := w.mem.grant a sizeofHandle
          graph := { w.graph with
            handles := { addr := a, runtime := w.self, target := obj, flags } ::
              w.graph.handles } } := by
        refine { h.grant a sizeofHandle with handles := fun k hk => ?_ }
        rcases List.mem_cons.mp hk with rfl | hk
        · exact ha
        · exact h.handles k hk
      rw [heq]
      exact hpush.modifyObj obj fun _ => rfl

theorem release (h : NurseryKept w₀ w) (handle : Addr) :
    NurseryKept w₀ (gcHandleRelease gcGenCopyMsVtable w handle) := by
  unfold gcHandleRelease
  split
  · exact h
  · split
    · exact h.congr rfl rfl rfl rfl rfl
    · next k hk =>
      obtain ⟨hkm, rfl⟩ := Lib.mem_of_lookup hk
      have hpop : NurseryKept w₀ { w with graph := { w.graph with
          handles := w.graph.handles.eraseP fun k' => k'.addr = k.addr } } :=
        { h with handles := fun k' hk' => h.handles k' (List.mem_of_mem_eraseP hk') }
      simp only
      split
      · exact (hpop.modifyObj k.target
          (f := fun o => { o with flags := o.flags &&& ~~~objectFlagPinned }) fun _ => rfl).free
          (h.handles k hkm)
      · exact hpop.free (h.handles k hkm)

/-- The calls that neither allocate nor collect. -/
theorem perform (h : NurseryKept w₀ w) {op : ClientOp} (hop : op.stationary = true) :
    NurseryKept w₀ (op.perform genCollector w).1 := by
  cases op with
  | storeRef owner loc v => exact h.storeRef owner loc v
  | loadRef | get => exact h
  | writeBytes obj bytes => exact h.modifyObj obj fun _ => rfl
  | setRoot i v => exact h.write (.root i) v
  | acquire obj flags => exact h.acquire obj flags
  | release handle => exact h.release handle
  | alloc | collectMinor | collectMajor | collectFull => exact absurd hop Bool.false_ne_true

end NurseryKept

/-- A new object in the nursery does not take more than there is. -/
theorem GenWorld.Roomy.allocYoung (h : w.Roomy) (desc : GcDescriptor) {n : Nat}
    (hroom : w.algoState.nurseryUsed + n ≤ w.algoState.nurseryCapacity) :
    GenWorld.Roomy (gcGenAllocYoung w desc n).1 where
  kept := { h.kept with space := rfl, capacity := rfl, used := rfl, headers := fun _ _ => rfl }
  used_le := (Nat.mod_le _ _).trans hroom
  capacity := h.capacity

/-- A new object in the nursery comes after those that are there. -/
theorem NurseryInv.allocYoung (h : NurseryInv w ys) (desc : GcDescriptor) {n : Nat}
    (hn : sizeofHeader ≤ n) (hn' : n < 2 ^ 32)
    (hroom : w.algoState.nurseryUsed + n ≤ w.algoState.nurseryCapacity) :
    NurseryInv (gcGenAllocYoung w desc n).1 (ys ++ [(gcGenAllocYoung w desc n).2]) := by
  have hcap := h.capacity
  have hmod : (w.algoState.nurseryUsed + n) % 2 ^ 64 = w.algoState.nurseryUsed + n :=
    Nat.mod_eq_of_lt (by
      unfold ptrdiffMax at hcap
      omega)
  have hself : (gcGenAllocYoung w desc n).1.graph.sizeAt
      (w.algoState.nurserySpace + w.algoState.nurseryUsed) = n :=
    (Graph.sizeAt_eq (@gcGenAllocYoung_obj w desc n 0 rfl)).trans (Nat.mod_eq_of_lt hn')
  have hother : ∀ y ∈ ys, (gcGenAllocYoung w desc n).1.graph.sizeAt y = w.graph.sizeAt y := by
    intro y hy
    have hbounds := h.tiles.bounds y hy
    have hsize := h.tiles.header y hy
    unfold sizeofHeader at hsize
    have hobj : (gcGenAllocYoung w desc n).1.graph.objs y = w.graph.objs y := by
      refine (Graph.setObj_objs _ _ _ _).trans ((if_neg ?_).trans (if_neg ?_))
      · show ¬ (y = w.algoState.nurserySpace + w.algoState.nurseryUsed)
        omega
      · rintro ⟨h₁, -⟩
        omega
    simp only [Graph.sizeAt, hobj]
  refine ⟨h.toRoomy.allocYoung desc hroom, ?_⟩
  show Tiles _ w.algoState.nurserySpace ((w.algoState.nurseryUsed + n) % 2 ^ 64) _
  rw [hmod]
  exact (h.tiles.congr hother).snoc hself hn

/-! ### Whole runs -/

/-- The objects allocated in the nursery since the last reset, after a call. -/
def ClientOp.youngs (w : GenWorld) (ys : List Nat) : ClientOp → List Nat
  | .alloc desc size flags =>
    if sizeofHeader ≤ size ∧ GenYoung w size flags then
      (if AllocCollects w size flags then [] else ys) ++
        [(gcAllocTyped gcGenCopyMsVtable w desc size flags).2]
    else ys
  | .collectMinor | .collectMajor | .collectFull => []
  | _ => ys

/-- Any call that does not take an object from the nursery whose rounded size the header cannot
    record. A client releases only handles that it has. -/
def WalkStep (s : GenWorld × List Nat) (op : ClientOp) (s' : GenWorld × List Nat) : Prop :=
  (∀ handle, op = .release handle → handle = 0 ∨ handle ∈ s.1.graph.handles.map GcHandle.addr) ∧
  (∀ desc size flags, op = .alloc desc size flags → GenYoung s.1 size flags → size ≤ 2 ^ 32 - 8) ∧
    (op.perform genCollector s.1).1 = s'.1 ∧ s'.2 = op.youngs s.1 s.2

/-- The nursery holds the objects allocated in it, or there is none. -/
def WalkInv (s : GenWorld × List Nat) : Prop :=
  NurseryInv s.1 s.2 ∨ World.Stateless s.1 ∧ s.2 = []

/-- An allocation adds the object that it takes from the nursery, and no other. -/
theorem NurseryInv.alloc (h : NurseryInv w ys) (desc : GcDescriptor) (size : Nat)
    (flags : BitVec 32) (hmax : GenYoung w size flags → size ≤ 2 ^ 32 - 8) :
    NurseryInv (gcAllocTyped gcGenCopyMsVtable w desc size flags).1
      (ClientOp.youngs w ys (.alloc desc size flags)) := by
  by_cases hsize : sizeofHeader ≤ size
  · have hyoung : GenYoung w size flags ↔ ForNursery w size flags := and_iff_right h.kept.bound
    simp only [ClientOp.youngs, hsize, true_and]
    rcases h.alloc_cases desc hsize flags with ⟨hy, halloc⟩ | ⟨hno, halloc⟩
    · obtain ⟨hmin, hlt, -⟩ := alignedSize_spec hsize (hmax (hyoung.mpr hy))
      have hinv := h.withRoom size flags
      have hroom := h.room hsize hy
      have hne : (gcGenAllocYoung (Xgc.withRoom w size flags) desc (alignedSize size)).2 ≠ 0 := by
        have hpos := hinv.kept.pos
        show (Xgc.withRoom w size flags).algoState.nurserySpace +
          (Xgc.withRoom w size flags).algoState.nurseryUsed ≠ 0
        omega
      have hrec : alignedSize size % 2 ^ 32 ≠ 0 := by
        unfold sizeofHeader at hmin
        omega
      have heq : gcAllocTyped gcGenCopyMsVtable w desc size flags = gcGenAlloc w desc size flags :=
        gcAllocTyped_of_alloc gcGenCopyMsVtable rfl rfl hsize (by rwa [halloc]) hrec
          (by rw [halloc]; exact gcGenAllocYoung_obj _ desc _ hy.1)
      rw [heq, halloc, if_pos (hyoung.mpr hy)]
      exact hinv.allocYoung desc hmin hlt hroom
    · rw [if_neg fun hy => hno (hyoung.mp hy)]
      obtain ⟨hk, hout⟩ := h.kept.allocOld desc (alignedSize size) flags
      exact h.of_kept (NurseryKept.allocTyped hsize (halloc.trans rfl) hk hout)
  · simp only [ClientOp.youngs, hsize, false_and, if_false]
    rw [gcAllocTyped, if_pos (Nat.lt_of_not_le hsize)]
    exact h

/-- Every call keeps the walk over the nursery exact. -/
theorem WalkInv.step {s s' : GenWorld × List Nat} {op : ClientOp} (h : WalkInv s)
    (hs : WalkStep s op s') : WalkInv s' := by
  obtain ⟨w, ys⟩ := s
  obtain ⟨w', ys'⟩ := s'
  obtain ⟨hl, hmax, rfl, rfl⟩ := hs
  rcases h with h | ⟨hu, rfl⟩
  · left
    cases op with
    | alloc desc size flags => exact h.alloc desc size flags (hmax desc size flags rfl)
    | storeRef | loadRef | writeBytes | setRoot | acquire | get | release =>
      exact h.of_kept (h.kept.perform rfl)
    | collectMinor => exact h.of_reset (h.kept.collectMinor.congr rfl rfl rfl rfl rfl)
    | collectMajor | collectFull =>
      exact h.of_reset (h.kept.collectFull.congr rfl rfl rfl rfl rfl)
  · refine .inr ⟨hu.perform (genCollector_inert hu.bound) op, ?_⟩
    have hno : ∀ size flags, ¬ GenYoung w size flags := fun size flags hy =>
      absurd (hy.1.symm.trans hu.bound) (by decide)
    cases op with
    | alloc desc size flags => simp only [ClientOp.youngs, hno, and_false, if_false]
    | storeRef | loadRef | writeBytes | setRoot | acquire | get | release | collectMinor |
      collectMajor | collectFull => rfl

/-- Where `global_init` has placed the nursery, there is nothing in it. -/
theorem NurseryInv.start {w : GenWorld} {cfg : GcConfig} (hb : w.stateBound = false)
    (hhandles : w.graph.handles = []) (hinit : (gcGenGlobalInit w cfg).stateBound = true) :
    NurseryInv (gcGenGlobalInit w cfg) [] := by
  unfold gcGenGlobalInit at hinit ⊢
  simp only at hinit ⊢
  generalize (if cfg.gcYoungSpaceSize ≠ 0 then cfg.gcYoungSpaceSize else 4 * 1024 * 1024) = n
    at hinit ⊢
  rcases w.mem.reserve_cases 40 with hr | hr
  · rcases (w.mem.tryReserve 40).1.malloc_cases n with hm | ⟨space, hfit, hm⟩
    · simp [hr, hm, hb] at hinit
    · have hne : space ≠ 0 := Nat.pos_iff_ne_zero.mp hfit.1
      simp only [hr, hm, if_neg hne, Bool.not_true, Bool.false_eq_true, if_false]
      refine ⟨⟨?_, Nat.zero_le n, hfit.2.2.1⟩, rfl⟩
      exact ⟨rfl, rfl, rfl, rfl, hfit.1, List.mem_cons_self, fun _ hk => absurd hk List.not_mem_nil,
        fun k hk => absurd (hhandles ▸ hk) List.not_mem_nil, fun _ _ => rfl⟩
  · simp [hr, hb] at hinit

/-- A fresh runtime has nothing in its nursery. -/
theorem WalkInv.start {cfg : GcConfig} {hooks : GcVmHooks} {mem : Mem} {w : GenWorld}
    (hmem : mem.Owns []) (h : gcRuntimeCreate cfg gcGenCopyMsVtable hooks mem = some w) :
    WalkInv (w, []) := by
  by_cases hb : w.stateBound = true
  · obtain ⟨a, m, hfit, hq, rfl⟩ := gcRuntimeCreate_cases h
    generalize gcRuntimeApplyDefaultConfig cfg = cfg' at hb ⊢
    exact .inl (NurseryInv.start rfl rfl hb)
  · have hb' : w.stateBound = false := by simpa using hb
    have hu := genCollector_reachesUnbound ⟨cfg, hooks, mem, w, [], h, hmem, hb', .nil _⟩
    exact .inr ⟨hu.stateless, rfl⟩

/-- A call, next to the objects allocated in the nursery since the last reset. -/
def walkCall (s : GenWorld × List Nat) (op : ClientOp) : GenWorld × List Nat :=
  ((op.perform genCollector s.1).1, op.youngs s.1 s.2)

theorem WalkStep.alloc (s : GenWorld × List Nat) (desc : GcDescriptor) {size : Nat}
    (hmax : size ≤ 2 ^ 32 - 8) (flags : BitVec 32) :
    WalkStep s (.alloc desc size flags) (walkCall s (.alloc desc size flags)) := by
  refine ⟨fun _ he => (nomatch he), fun desc' size' flags' he _ => ?_, rfl, rfl⟩
  cases he
  exact hmax

theorem WalkStep.collectMinor (s : GenWorld × List Nat) :
    WalkStep s .collectMinor (walkCall s .collectMinor) :=
  ⟨fun _ he => (nomatch he), fun _ _ _ he => (nomatch he), rfl, rfl⟩

end Xgc
