import Xgc.Algo.GenClient
import Xgc.Algo.MarkSweepSpec

/-! Runtimes without an algorithm state: `global_init` has been refused its storage, so the algorithm
    has no object to give and `gc_alloc_typed` takes plain memory. Nothing is ever collected. -/

namespace Xgc

open Lib (Run Block exists_lookup mem_of_lookup)
open Manager (handleBlocks_perm)

variable {σ : Type} [Inhabited σ]

/-- An algorithm that does nothing for the runtime `w`: it has no object to give, no barrier to raise
    and nothing to collect. Handles do not need one. -/
structure Collector.Inert (C : Collector σ) (w : World σ) : Prop where
  alloc : ∃ alloc, C.algo.alloc = some alloc ∧ ∀ desc size flags, alloc w desc size flags = (w, 0)
  postAlloc : C.algo.postAlloc = some fun w _ => w
  pin : C.algo.pin = some fun w obj => { w with
    graph := w.graph.modifyObj obj fun o => { o with flags := o.flags ||| objectFlagPinned } }
  unpin : C.algo.unpin = some fun w obj => { w with
    graph := w.graph.modifyObj obj fun o => { o with flags := o.flags &&& ~~~objectFlagPinned } }
  store : ∀ owner loc v, gcStoreRef C.algo w owner loc v =
    { w with graph := w.graph.write (.field owner loc) v }
  minor : ∃ stats, gcCollectMinor C.algo w = { w with stats }
  major : ∃ stats, gcCollectMajor C.algo w = { w with stats }
  full : ∃ stats, gcCollectFull C.algo w = { w with stats }

/-- Without an algorithm state mark-sweep does nothing. -/
theorem msCollector_inert {w : MsWorld} (hb : w.stateBound = false) : msCollector.Inert w := by
  have hcollect : gcMarksweepCollectFullImpl w = w := by simp [gcMarksweepCollectFullImpl, hb]
  refine ⟨⟨_, rfl, fun desc size flags => by simp [gcMarksweepAlloc, hb]⟩, rfl, rfl, rfl,
    fun owner loc v => rfl, ?_, ?_, ?_⟩
  all_goals
    simp only [msCollector, gcCollectMinor, gcCollectMajor, gcCollectFull, callHook,
      gcMarksweepStwVtable, hcollect]
    exact ⟨_, rfl⟩

/-- Nor does the generational collector. -/
theorem genCollector_inert {w : GenWorld} (hb : w.stateBound = false) : genCollector.Inert w := by
  have hminor : gcGenCollectMinorImpl w = w := by simp [gcGenCollectMinorImpl, hb]
  have hfull : gcGenCollectFullImpl w = w := by simp [gcGenCollectFullImpl, hb]
  refine ⟨⟨_, rfl, fun desc size flags => by simp [gcGenAlloc, hb]⟩, rfl, rfl, rfl,
    fun owner loc v => ?_, ?_, ?_, ?_⟩
  · simp [genCollector, gcStoreRef, gcGenCopyMsVtable, callHook, gcGenWriteBarrier, hb]
  all_goals
    simp only [genCollector, gcCollectMinor, gcCollectMajor, gcCollectFull, callHook,
      gcGenCopyMsVtable, hminor, hfull]
    exact ⟨_, rfl⟩

/-- A runtime that has no algorithm state. -/
structure World.Stateless (w : World σ) : Prop where
  bound : w.stateBound = false
  state : w.algoState = default

namespace World.Stateless

variable {C : Collector σ} {w : World σ}

/-- No call puts a state there. -/
theorem perform (hC : C.Inert w) (h : w.Stateless) (op : ClientOp) :
    World.Stateless (op.perform C w).1 := by
  cases op with
  | alloc desc size flags =>
    obtain ⟨alloc, halloc, hnull⟩ := hC.alloc
    simp only [ClientOp.perform]
    by_cases hsize : size < sizeofHeader
    · rw [gcAllocTyped, if_pos hsize]
      exact h
    · rcases gcAllocTyped_plain C.algo halloc hC.postAlloc (Nat.le_of_not_lt hsize)
        (hnull desc size flags) with ⟨-, heq⟩ | ⟨-, a, -, heq⟩
      · rw [heq]
        exact ⟨h.bound, h.state⟩
      · rw [heq]
        exact ⟨h.bound, h.state⟩
  | storeRef owner loc v =>
    simp only [ClientOp.perform, hC.store]
    exact ⟨h.bound, h.state⟩
  | acquire obj flags =>
    simp only [ClientOp.perform]
    by_cases hobj : obj = 0
    · rw [gcHandleAcquire, if_pos hobj]
      exact h
    · rcases gcHandleAcquire_cases hC.pin hobj flags with heq | ⟨a, -, heq⟩
      · rw [heq]
        exact ⟨h.bound, h.state⟩
      · rw [heq]
        exact ⟨h.bound, h.state⟩
  | release handle =>
    simp only [ClientOp.perform, gcHandleRelease]
    split
    · exact h
    · split
      · exact ⟨h.bound, h.state⟩
      · simp only [hC.unpin, callHook]
        split
        · exact ⟨h.bound, h.state⟩
        · exact ⟨h.bound, h.state⟩
  | loadRef | get | writeBytes | setRoot => exact ⟨h.bound, h.state⟩
  | collectMinor =>
    obtain ⟨stats, heq⟩ := hC.minor
    simp only [ClientOp.perform, heq]
    exact ⟨h.bound, h.state⟩
  | collectMajor =>
    obtain ⟨stats, heq⟩ := hC.major
    simp only [ClientOp.perform, heq]
    exact ⟨h.bound, h.state⟩
  | collectFull =>
    obtain ⟨stats, heq⟩ := hC.full
    simp only [ClientOp.perform, heq]
    exact ⟨h.bound, h.state⟩

end World.Stateless

/-- A runtime whose `global_init` has been refused its storage, and the plain memory that it has
    handed out so far. -/
structure World.Unbound (w : World σ) (handed : List Block) : Prop where
  bound : w.stateBound = false
  state : w.algoState = default
  owns : w.mem.Owns ((w.self, sizeofRuntime) :: (handed ++ handleBlocks w.graph.handles))

/-- One call to such a runtime. A client releases only handles that it has; the storage of a new object
    is handed out. -/
def Collector.UnboundStep (C : Collector σ) (s : World σ × List Block) (op : ClientOp)
    (s' : World σ × List Block) : Prop :=
  (∀ handle, op = .release handle → handle = 0 ∨ handle ∈ s.1.graph.handles.map GcHandle.addr) ∧
    (op.perform C s.1).1 = s'.1 ∧
    s'.2 = match op with
      | .alloc _ size _ =>
        if (op.perform C s.1).2 = 0 then s.2 else ((op.perform C s.1).2, size) :: s.2
      | _ => s.2

/-- A state that some calls lead to from a runtime whose `global_init` has been refused its
    storage. -/
def Collector.ReachesUnbound (C : Collector σ) (w : World σ) (handed : List Block) : Prop :=
  ∃ cfg hooks mem w₀ ops, gcRuntimeCreate cfg C.algo hooks mem = some w₀ ∧ mem.Owns [] ∧
    w₀.stateBound = false ∧ Run C.UnboundStep (w₀, []) ops (w, handed)

namespace World.Unbound

variable {C : Collector σ} {w w' : World σ} {handed : List Block}

theorem stateless (h : w.Unbound handed) : w.Stateless := ⟨h.bound, h.state⟩

theorem congr (h : w.Unbound handed) (hbound : w'.stateBound = w.stateBound)
    (hstate : w'.algoState = w.algoState) (hself : w'.self = w.self) (hmem : w'.mem = w.mem)
    (hhandles : handleBlocks w'.graph.handles = handleBlocks w.graph.handles) :
    w'.Unbound handed := by
  refine ⟨hbound.trans h.bound, hstate.trans h.state, ?_⟩
  rw [hmem, hself, hhandles]
  exact h.owns

theorem quiet (h : w.Unbound handed) {m : Mem} (hq : w.mem.Quiet m) :
    World.Unbound { w with mem := m } handed :=
  ⟨h.bound, h.state, h.owns.quiet hq⟩

/-- Plain memory is handed out. -/
theorem addObject (h : w.Unbound handed) {a n : Nat} (hfit : w.mem.Fits a n) (desc : GcDescriptor)
    (o : Nat → GcHeader) :
    World.Unbound ({ w with mem := w.mem.grant a n }.addObject a desc o) ((a, n) :: handed) := by
  refine ⟨h.bound, h.state, (h.owns.grant hfit).perm ?_⟩
  exact List.Perm.swap _ _ _

/-- Allocation takes plain memory, or is refused it. -/
theorem alloc (hC : C.Inert w) (h : w.Unbound handed) (desc : GcDescriptor) (size : Nat)
    (flags : BitVec 32) :
    (gcAllocTyped C.algo w desc size flags).1.Unbound
      (if (gcAllocTyped C.algo w desc size flags).2 = 0 then handed
        else ((gcAllocTyped C.algo w desc size flags).2, size) :: handed) := by
  obtain ⟨alloc, halloc, hnull⟩ := hC.alloc
  by_cases hsize : size < sizeofHeader
  · rw [gcAllocTyped, if_pos hsize]
    exact h
  · rcases gcAllocTyped_plain C.algo halloc hC.postAlloc (Nat.le_of_not_lt hsize)
      (hnull desc size flags) with ⟨-, heq⟩ | ⟨-, a, hfit, heq⟩
    · rw [heq]
      exact h.quiet w.mem.quiet_refuse
    · rw [heq, if_neg (Nat.pos_iff_ne_zero.mp hfit.1)]
      exact h.addObject hfit desc _

theorem acquire (hC : C.Inert w) (h : w.Unbound handed) (obj : Addr) (flags : BitVec 32) :
    (gcHandleAcquire C.algo w obj flags).1.Unbound handed := by
  by_cases hobj : obj = 0
  · rw [gcHandleAcquire, if_pos hobj]
    exact h
  · rcases gcHandleAcquire_cases hC.pin hobj flags with heq | ⟨a, hfit, heq⟩
    · rw [heq]
      exact h.quiet w.mem.quiet_refuse
    · rw [heq]
      exact ⟨h.bound, h.state, (h.owns.grant hfit).perm (handleBlocks_perm (.refl _) _ _)⟩

theorem release (hC : C.Inert w) (h : w.Unbound handed) {handle : Addr}
    (hhandle : handle = 0 ∨ handle ∈ w.graph.handles.map GcHandle.addr) :
    (gcHandleRelease C.algo w handle).Unbound handed := by
  unfold gcHandleRelease
  split
  · exact h
  · next h0 =>
    obtain ⟨k, hk⟩ := exists_lookup (hhandle.resolve_left h0)
    obtain ⟨hkm, rfl⟩ := mem_of_lookup hk
    obtain ⟨k', l₁, l₂, -, hk', heq, herase⟩ :=
      List.exists_of_eraseP (p := fun k' => k'.addr = k.addr) hkm (by simp)
    have hperm : w.graph.handles.Perm
        (k' :: w.graph.handles.eraseP fun k' => k'.addr = k.addr) := by
      rw [herase, heq]
      exact List.perm_middle
    have haddr : k'.addr = k.addr := by simpa using hk'
    have hfree := (h.owns.perm (handleBlocks_perm hperm _ _).symm).free
    rw [haddr] at hfree
    simp only [hk, hC.unpin, callHook]
    split
    · exact ⟨h.bound, h.state, hfree⟩
    · exact ⟨h.bound, h.state, hfree⟩

/-- A runtime that is not bound stays so. -/
theorem step (hC : C.Inert w) (h : w.Unbound handed) {op : ClientOp} {handed' : List Block}
    (hs : C.UnboundStep (w, handed) op (w', handed')) : w'.Unbound handed' := by
  obtain ⟨hl, rfl, rfl⟩ := hs
  cases op with
  | alloc desc size flags => exact h.alloc hC desc size flags
  | storeRef owner loc v =>
    simp only [ClientOp.perform, hC.store]
    exact h.congr rfl rfl rfl rfl rfl
  | acquire obj flags => exact h.acquire hC obj flags
  | release handle => exact h.release hC (hl handle rfl)
  | writeBytes | setRoot => exact h.congr rfl rfl rfl rfl rfl
  | loadRef | get => exact h
  | collectMinor =>
    obtain ⟨stats, heq⟩ := hC.minor
    simp only [ClientOp.perform, heq]
    exact h.congr rfl rfl rfl rfl rfl
  | collectMajor =>
    obtain ⟨stats, heq⟩ := hC.major
    simp only [ClientOp.perform, heq]
    exact h.congr rfl rfl rfl rfl rfl
  | collectFull =>
    obtain ⟨stats, heq⟩ := hC.full
    simp only [ClientOp.perform, heq]
    exact h.congr rfl rfl rfl rfl rfl

end World.Unbound

/-- Runs do not bind a runtime. -/
theorem Collector.ReachesUnbound.unbound {C : Collector σ} {w : World σ} {handed : List Block}
    (hw : C.ReachesUnbound w handed)
    (hinit : ∀ init, C.algo.globalInit = some init → ∀ w cfg, (init w cfg).stateBound = false →
      ∃ m, w.mem.Quiet m ∧ init w cfg = { w with mem := m })
    (hinert : ∀ w : World σ, w.stateBound = false → C.Inert w) : w.Unbound handed := by
  obtain ⟨cfg, hooks, mem, w₀, ops, hcreate, howns, hbound, hrun⟩ := hw
  refine hrun.invariant (P := fun s => s.1.Unbound s.2)
    (fun s op s' hs hst => hs.step (hinert s.1 hs.bound) hst) ?_
  obtain ⟨a, m, hfit, hq, rfl⟩ := gcRuntimeCreate_cases hcreate
  have hfresh : (freshWorld (gcRuntimeApplyDefaultConfig cfg) hooks a m : World σ).Unbound [] :=
    ⟨rfl, rfl, (howns.grant hfit).quiet hq⟩
  unfold callHook at hbound ⊢
  split at hbound
  · next init hi =>
    obtain ⟨m', hq', heq⟩ := hinit init hi _ _ hbound
    simp only [heq]
    exact hfresh.quiet hq'
  · exact hfresh

theorem msCollector_reachesUnbound {w : MsWorld} {handed : List Block}
    (hw : msCollector.ReachesUnbound w handed) : w.Unbound handed := by
  refine hw.unbound (fun init hinit w cfg hb => ?_) fun w hb => msCollector_inert hb
  obtain rfl := Option.some.inj hinit
  unfold gcMarksweepGlobalInit at hb ⊢
  rcases w.mem.reserve_cases 8 with hr | hr
  · simp [hr] at hb
  · exact ⟨_, w.mem.quiet_refuse, by simp [hr]⟩

theorem genCollector_reachesUnbound {w : GenWorld} {handed : List Block}
    (hw : genCollector.ReachesUnbound w handed) : w.Unbound handed := by
  refine hw.unbound (fun init hinit w cfg hb => ?_) fun w hb => genCollector_inert hb
  obtain rfl := Option.some.inj hinit
  unfold gcGenGlobalInit at hb ⊢
  simp only at hb ⊢
  generalize (if cfg.gcYoungSpaceSize ≠ 0 then cfg.gcYoungSpaceSize else 4 * 1024 * 1024) = n
    at hb ⊢
  rcases w.mem.reserve_cases 40 with hr | hr
  · rcases (w.mem.tryReserve 40).1.malloc_cases n with hm | ⟨a, hfit, hm⟩
    · exact ⟨_, (w.mem.quiet_tryReserve 40).trans (Mem.quiet_refuse _), by simp [hr, hm]⟩
    · simp [hr, hm, Nat.pos_iff_ne_zero.mp hfit.1] at hb
  · exact ⟨_, w.mem.quiet_refuse, by simp [hr]⟩

end Xgc
