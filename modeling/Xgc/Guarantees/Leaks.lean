import Xgc.Algo.GenFootprint
import Xgc.Algo.MarkSweepFootprint
import Xgc.Guarantees.Registration
import Xgc.Guarantees.Teardown

/-! What `gc_runtime_destroy` leaves behind: whatever was called and whatever was refused, every path
    has given back the blocks it took and did not keep, so all that is left is what the client has: the
    contexts of the threads that are still attached, and the plain memory that `gc_alloc_typed` has
    handed out without the knowledge of the algorithm. -/

namespace Xgc

open Lib (Block Run)

variable {σ : Type} {rest : List Block}

/-! ### The start -/

/-- The runtime that the algorithm is started on accounts for its own block. -/
theorem Storage.Accounts.fresh [Inhabited σ] {S : Storage σ} (hnodes : S.nodes default = [])
    (hspaces : S.spaces default = []) {mem m : Mem} (hmem : mem.Owns []) {a : Nat}
    (hfit : mem.Fits a sizeofRuntime) (hq : (mem.grant a sizeofRuntime).Quiet m) (cfg : GcConfig)
    (hooks : GcVmHooks) : S.Accounts (freshWorld cfg hooks a m) mem.blocks := by
  refine ⟨?_, fun n hn => ?_⟩
  · have haddrs : S.addrs (freshWorld cfg hooks a m) = [a] := by
      show a :: (S.spaces default ++ ((S.nodes default).map GcNode.obj ++ [])) = [a]
      rw [hnodes, hspaces]
      rfl
    rw [haddrs]
    exact ((Footprint.start hmem).grant hfit).congr hq.blocks
  · change n ∈ S.nodes default at hn
    rw [hnodes] at hn
    exact absurd hn List.not_mem_nil

theorem Storage.Accounts.create_ms {cfg : GcConfig} {hooks : GcVmHooks} {mem : Mem} {w : MsWorld}
    (hmem : mem.Owns []) (h : gcRuntimeCreate cfg gcMarksweepStwVtable hooks mem = some w) :
    msStorage.Accounts w mem.blocks := by
  obtain ⟨a, m, hfit, hq, rfl⟩ := gcRuntimeCreate_cases h
  have hfresh := Storage.Accounts.fresh (S := msStorage) rfl rfl hmem hfit hq
    (gcRuntimeApplyDefaultConfig cfg) hooks
  simp only [callHook, gcMarksweepStwVtable, gcMarksweepGlobalInit]
  split
  · exact (hfresh.quiet (Mem.quiet_reserve _ 8)).congr rfl rfl rfl rfl rfl fun _ ho => ho
  · exact hfresh.quiet (Mem.quiet_reserve _ 8)

theorem Storage.Accounts.create_gen {cfg : GcConfig} {hooks : GcVmHooks} {mem : Mem} {w : GenWorld}
    (hmem : mem.Owns []) (h : gcRuntimeCreate cfg gcGenCopyMsVtable hooks mem = some w) :
    genStorage.Accounts w mem.blocks := by
  obtain ⟨a, m, hfit, hq, rfl⟩ := gcRuntimeCreate_cases h
  have hfresh := Storage.Accounts.fresh (S := genStorage) rfl rfl hmem hfit hq
    (gcRuntimeApplyDefaultConfig cfg) hooks
  generalize gcRuntimeApplyDefaultConfig cfg = cfg' at hfresh ⊢
  have hr := hfresh.quiet (Mem.quiet_reserve m 40)
  simp only [callHook, gcGenCopyMsVtable, gcGenGlobalInit]
  generalize (if cfg'.gcYoungSpaceSize ≠ 0 then cfg'.gcYoungSpaceSize else 4 * 1024 * 1024) = n
  split
  · exact hr
  · rcases (m.reserve 40).1.malloc_cases n with hn | ⟨space, hfits, hn⟩
    · simp only [freshWorld, hn, if_true]
      exact hr.quiet (Mem.quiet_refuse _)
    · have hne : space ≠ 0 := Nat.pos_iff_ne_zero.mp hfits.1
      simp only [freshWorld, hn, if_neg hne]
      refine ⟨(hr.foot.grant hfits).perm ?_, fun k hk => absurd hk List.not_mem_nil⟩
      simp only [Storage.addrs, genStorage, if_neg hne]
      exact List.Perm.swap _ _ _

/-! ### The end -/

/-- All handles are freed. -/
theorem Storage.Accounts.withoutHandles {S : Storage σ} {w : World σ} (h : S.Accounts w rest) :
    S.Accounts w.withoutHandles rest := by
  refine ⟨?_, h.objs⟩
  have hperm : (S.addrs w).Perm (w.graph.handles.map GcHandle.addr ++ S.addrs w.withoutHandles) := by
    show (w.self :: (S.spaces w.algoState ++ ((S.nodes w.algoState).map GcNode.obj ++
      w.graph.handles.map GcHandle.addr))).Perm (w.graph.handles.map GcHandle.addr ++ w.self ::
        (S.spaces w.algoState ++ ((S.nodes w.algoState).map GcNode.obj ++ [])))
    rw [List.append_nil, ← List.append_assoc]
    exact (List.perm_append_comm.cons _).trans List.perm_middle.symm
  have hfree := (h.foot.perm hperm).freeAll
  rwa [List.foldl_map] at hfree

/-- A runtime without handles, once its algorithm has given up all else that it has. -/
theorem Footprint.free_self {w : World σ} (h : Footprint w.mem [w.self] rest) :
    Footprint (w.mem.free w.self) [] rest :=
  h.free

/-- The runtime has its algorithm state, or none has been put there. -/
def MsWorld.Settled (w : MsWorld) : Prop := w.stateBound = true ∨ w.Stateless

theorem Storage.Accounts.destroy_ms {w : MsWorld} (h : msStorage.Accounts w rest)
    (hs : MsWorld.Settled w) : Footprint (gcRuntimeDestroy gcMarksweepStwVtable w).mem [] rest := by
  have hw := h.withoutHandles
  have hmem : (gcRuntimeDestroy gcMarksweepStwVtable w).mem =
      (gcMarksweepGlobalDestroy w.withoutHandles).mem.free
        (gcMarksweepGlobalDestroy w.withoutHandles).self := rfl
  rw [hmem]
  refine Footprint.free_self ?_
  have hperm : (msStorage.addrs w.withoutHandles).Perm
      (w.algoState.objects.map GcNode.obj ++ [w.self]) := by
    show (w.self :: (w.algoState.objects.map GcNode.obj ++ [])).Perm _
    rw [List.append_nil]
    exact (List.perm_append_singleton w.self _).symm
  rcases hs with hb | hu
  · obtain ⟨hf, hs⟩ := Storage.reclaims_gcReclaimObject.all w.algoState.objects
      (hw.foot.perm hperm) hw.objs
    have hself : (gcMarksweepGlobalDestroy w.withoutHandles).self = w.self := by
      rw [gcMarksweepGlobalDestroy, if_neg (by simp [World.withoutHandles, hb])]
      exact hs.self
    rw [hself, gcMarksweepGlobalDestroy, if_neg (by simp [World.withoutHandles, hb])]
    exact hf
  · have heq : gcMarksweepGlobalDestroy w.withoutHandles = w.withoutHandles :=
      if_pos (by simp [World.withoutHandles, hu.bound])
    rw [hu.state] at hperm
    rw [heq]
    exact hw.foot.perm hperm

theorem Storage.Accounts.destroy_gen {w : GenWorld} (h : genStorage.Accounts w rest)
    (hs : w.Settled) : Footprint (gcRuntimeDestroy gcGenCopyMsVtable w).mem [] rest := by
  have hw := h.withoutHandles
  have hmem : (gcRuntimeDestroy gcGenCopyMsVtable w).mem =
      (gcGenGlobalDestroy w.withoutHandles).mem.free
        (gcGenGlobalDestroy w.withoutHandles).self := rfl
  rw [hmem]
  refine Footprint.free_self ?_
  rcases hs with hr | hu
  · have hne : w.algoState.nurserySpace ≠ 0 := Nat.pos_iff_ne_zero.mp hr.kept.pos
    have hperm : (genStorage.addrs w.withoutHandles).Perm
        (w.algoState.oldObjects.map GcNode.obj ++ [w.algoState.nurserySpace, w.self]) := by
      show (w.self :: (genStorage.spaces w.algoState ++
        (w.algoState.oldObjects.map GcNode.obj ++ []))).Perm _
      simp only [genStorage, if_neg hne, List.append_nil]
      exact (List.Perm.swap _ _ _).trans
        (@List.perm_append_comm _ [w.algoState.nurserySpace, w.self] _)
    obtain ⟨hf, hsame⟩ := reclaims_gcGenReclaimOld.all w.algoState.oldObjects
      (hw.foot.perm hperm) hw.objs
    generalize hfold : w.algoState.oldObjects.foldl (fun w node => gcGenReclaimOld w node.obj)
      w.withoutHandles = w₁ at hf hsame
    have hleft : Footprint w₁.mem [w₁.algoState.nurserySpace, w₁.self] rest := by
      rw [hsame.self, hsame.state]
      exact hf
    rw [gcGenGlobalDestroy_eq (w := w.withoutHandles) hr.kept.bound (List.foldl_map.trans hfold)]
    exact hleft.free
  · have heq : gcGenGlobalDestroy w.withoutHandles = w.withoutHandles :=
      if_pos (by simp [World.withoutHandles, hu.bound])
    rw [heq]
    have haddrs : genStorage.addrs w.withoutHandles = [w.self] := by
      show w.self :: (genStorage.spaces w.algoState ++
        (w.algoState.oldObjects.map GcNode.obj ++ [])) = [w.self]
      rw [hu.state]
      rfl
    exact haddrs ▸ hw.foot

/-! ### The ledger -/

/-- What is called: an operation on the heap, `gc_thread_attach` or `gc_thread_detach`. -/
inductive LedgerOp where
  | call (op : ClientOp)
  | attach
  | detach (thread : Addr)

/-- A runtime, the plain memory that it has handed out, and the threads that are attached to it. -/
structure Ledger (σ : Type) where
  world : World σ
  handed : List Block
  threads : List Addr

/-- The contexts of attached threads. -/
def threadBlocks (threads : List Addr) : List Block := threads.map fun t => (t, sizeofThreadContext)

/-- The blocks that the client has. -/
def Ledger.client (s : Ledger σ) : List Block := threadBlocks s.threads ++ s.handed

namespace LedgerOp

/-- A client releases only handles that it has, and detaches only threads that are attached. -/
def Legal (s : Ledger σ) : LedgerOp → Prop
  | .call (.release handle) => handle = 0 ∨ handle ∈ s.world.graph.handles.map GcHandle.addr
  | .detach thread => thread = 0 ∨ thread ∈ s.threads
  | _ => True

/-- The call, and what is written down of it. -/
def perform (C : Collector σ) (s : Ledger σ) : LedgerOp → Ledger σ
  | .call op => { s with
      world := (op.perform C s.world).1
      handed := op.plain C s.world ++ s.handed }
  | .attach =>
    let (mem, thread) := gcThreadAttach s.world.mem
    { s with
      world := { s.world with mem }
      threads := if thread = 0 then s.threads else thread :: s.threads }
  | .detach thread => { s with
      world := { s.world with mem := gcThreadDetach s.world.mem thread }
      threads := s.threads.erase thread }

end LedgerOp

/-- Any call, whatever its other arguments and whatever is refused. -/
def Collector.LedgerStep (C : Collector σ) (s : Ledger σ) (op : LedgerOp) (s' : Ledger σ) : Prop :=
  op.Legal s ∧ op.perform C s = s'

/-- An algorithm whose runtimes account for their blocks as long as they are `Fine`, which is not a
    matter of the blocks of others. -/
structure Collector.KeepsBooks [Inhabited σ] (C : Collector σ) (S : Storage σ)
    (Fine : World σ → Prop) : Prop where
  create : ∀ cfg hooks mem w, mem.Owns [] → gcRuntimeCreate cfg C.algo hooks mem = some w →
    Fine w ∧ S.Accounts w mem.blocks
  perform : ∀ w rest (op : ClientOp), Fine w → S.Accounts w rest →
    Fine (op.perform C w).1 ∧ S.Accounts (op.perform C w).1 (op.plain C w ++ rest)
  aside : ∀ w m, Fine w → (∀ b ∈ w.mem.blocks, b.1 ∈ S.addrs w → b ∈ m.blocks) →
    Fine { w with mem := m }
  destroy : ∀ w rest, Fine w → S.Accounts w rest →
    Footprint (gcRuntimeDestroy C.algo w).mem [] rest

namespace Collector.KeepsBooks

variable [Inhabited σ] {C : Collector σ} {S : Storage σ} {Fine : World σ → Prop} {s s' : Ledger σ}

/-- A thread is attached, or there is no memory for it. -/
theorem attach (hC : C.KeepsBooks S Fine) (hf : Fine s.world)
    (ha : S.Accounts s.world (s.client ++ rest)) :
    Fine (LedgerOp.attach.perform C s).world ∧
      S.Accounts (LedgerOp.attach.perform C s).world
        ((LedgerOp.attach.perform C s).client ++ rest) := by
  simp only [LedgerOp.perform, gcThreadAttach]
  rcases s.world.mem.malloc_cases sizeofThreadContext with hm | ⟨a, hfit, hm⟩
  · simp only [hm, if_true]
    exact ⟨hC.aside _ _ hf fun _ hb _ => hb, ha.quiet s.world.mem.quiet_refuse⟩
  · simp only [hm, if_neg (Nat.pos_iff_ne_zero.mp hfit.1)]
    exact ⟨hC.aside _ _ hf fun _ hb _ => List.mem_cons_of_mem _ hb,
      ha.foot.handOut hfit, ha.objs⟩

/-- A thread is detached. -/
theorem detach (hC : C.KeepsBooks S Fine) {thread : Addr} (hf : Fine s.world)
    (ha : S.Accounts s.world (s.client ++ rest)) (hl : thread = 0 ∨ thread ∈ s.threads) :
    Fine ((LedgerOp.detach thread).perform C s).world ∧
      S.Accounts ((LedgerOp.detach thread).perform C s).world
        (((LedgerOp.detach thread).perform C s).client ++ rest) := by
  by_cases hmem : thread ∈ s.threads
  · have hperm : (s.client ++ rest).Perm ((thread, sizeofThreadContext) ::
        (threadBlocks (s.threads.erase thread) ++ s.handed ++ rest)) :=
      (((List.perm_cons_erase hmem).map _).append_right s.handed).append_right rest
    have hfoot := ha.foot.perm_rest hperm
    refine ⟨hC.aside _ _ hf fun b hb hown => Mem.mem_free hb ?_, hfoot.take.free, ha.objs⟩
    rintro rfl
    exact hfoot.rest_apart _ List.mem_cons_self hown
  · obtain rfl := hl.resolve_right hmem
    have hfree : gcThreadDetach s.world.mem 0 = s.world.mem := by simp [gcThreadDetach, Mem.free]
    simp only [LedgerOp.perform, hfree, Ledger.client, List.erase_of_not_mem hmem]
    exact ⟨hf, ha⟩

/-- Each step keeps the books. -/
theorem step (hC : C.KeepsBooks S Fine) {op : LedgerOp} (hf : Fine s.world)
    (ha : S.Accounts s.world (s.client ++ rest)) (hst : C.LedgerStep s op s') :
    Fine s'.world ∧ S.Accounts s'.world (s'.client ++ rest) := by
  obtain ⟨hl, rfl⟩ := hst
  cases op with
  | call op =>
    obtain ⟨hf', ha'⟩ := hC.perform s.world (s.client ++ rest) op hf ha
    refine ⟨hf', ha'.foot.perm_rest ?_, ha'.objs⟩
    simp only [Ledger.client, LedgerOp.perform, List.append_assoc]
    exact List.perm_append_comm_assoc ..
  | attach => exact hC.attach hf ha
  | detach thread => exact hC.detach hf ha hl

/-- Wherever a run leads, the books balance, and they do when the runtime is destroyed there. -/
theorem run (hC : C.KeepsBooks S Fine) {cfg : GcConfig} {hooks : GcVmHooks} {mem : Mem}
    {w₀ : World σ} {ops : List LedgerOp} (hmem : mem.Owns [])
    (hcreate : gcRuntimeCreate cfg C.algo hooks mem = some w₀)
    (hrun : Run C.LedgerStep ⟨w₀, [], []⟩ ops s) :
    Footprint s.world.mem (S.addrs s.world) (s.client ++ mem.blocks) ∧
      (gcRuntimeDestroy C.algo s.world).mem.blocks.Perm (s.client ++ mem.blocks) := by
  have hend : Fine s.world ∧ S.Accounts s.world (s.client ++ mem.blocks) :=
    hrun.invariant
      (P := fun s : Ledger σ => Fine s.world ∧ S.Accounts s.world (s.client ++ mem.blocks))
      (fun _ _ _ h hst => hC.step h.1 h.2 hst) (hC.create cfg hooks mem w₀ hmem hcreate)
  exact ⟨hend.2.foot, (hC.destroy _ _ hend.1 hend.2).blocks⟩

end Collector.KeepsBooks

/-! ### Both algorithms -/

theorem genCollector_keepsBooks : genCollector.KeepsBooks genStorage GenWorld.Settled where
  create _ _ _ _ hmem h := ⟨.create hmem h, .create_gen hmem h⟩
  perform _ _ op hs h := ⟨hs.perform op, h.perform_gen hs op⟩
  aside w m hs hown := by
    refine hs.imp (fun hr => ?_) fun hu => ⟨hu.bound, hu.state⟩
    refine hr.congr rfl rfl (hown _ hr.kept.live ?_) rfl
    simp [Storage.addrs, genStorage, Nat.pos_iff_ne_zero.mp hr.kept.pos]
  destroy _ _ hs h := h.destroy_gen hs

theorem msCollector_keepsBooks : msCollector.KeepsBooks msStorage MsWorld.Settled where
  create cfg hooks mem w hmem h := by
    refine ⟨?_, .create_ms hmem h⟩
    by_cases hb : w.stateBound = true
    · exact .inl hb
    · exact .inr (msCollector_reachesUnbound
        ⟨cfg, hooks, mem, w, [], h, hmem, by simpa using hb, .nil _⟩).stateless
  perform w _ op hs h :=
    ⟨hs.imp (fun hb => (perform_ms_bound w op).trans hb)
      fun hu => hu.perform (msCollector_inert hu.bound) op, h.perform_ms op⟩
  aside _ _ hs _ := hs.imp id fun hu => ⟨hu.bound, hu.state⟩
  destroy _ _ hs h := h.destroy_ms hs

/-- In every state each live block is one that was there before the runtime, one that the client has,
    or one that the runtime keeps track of, at an address of its own; when it is destroyed those that it
    keeps track of are freed, and no others. -/
theorem gcRuntimeDestroy_leaves_plain {mem : Mem} (hmem : mem.Owns []) (cfg : GcConfig)
    (hooks : GcVmHooks) (ops : List LedgerOp) :
    (∀ w₀ s, gcRuntimeCreate cfg gcGenCopyMsVtable hooks mem = some w₀ →
      Run genCollector.LedgerStep ⟨w₀, [], []⟩ ops s →
      Footprint s.world.mem (genStorage.addrs s.world) (s.client ++ mem.blocks) ∧
      (gcRuntimeDestroy gcGenCopyMsVtable s.world).mem.blocks.Perm (s.client ++ mem.blocks)) ∧
    ∀ w₀ s, gcRuntimeCreate cfg gcMarksweepStwVtable hooks mem = some w₀ →
      Run msCollector.LedgerStep ⟨w₀, [], []⟩ ops s →
      Footprint s.world.mem (msStorage.addrs s.world) (s.client ++ mem.blocks) ∧
      (gcRuntimeDestroy gcMarksweepStwVtable s.world).mem.blocks.Perm (s.client ++ mem.blocks) :=
  ⟨fun _ _ hcreate hrun => genCollector_keepsBooks.run hmem hcreate hrun,
    fun _ _ hcreate hrun => msCollector_keepsBooks.run hmem hcreate hrun⟩

/-- A runtime of mark-sweep whose allocator refuses the fifth request: the node of the first object. -/
def msNoNode : MsWorld := (msCollector.sampleStart 0 2 fun n => n == 4).get (by decide +kernel)

/-- A pinned cell is allocated, and two threads are attached, of which one is detached. -/
def ledgerOps (thread : Addr) : List LedgerOp :=
  [.call (.alloc cell 24 allocPinned), .attach, .attach, .detach thread]

def Collector.ledgerSample (C : Collector σ) (w : World σ) (thread : Addr) : Ledger σ :=
  List.foldl (LedgerOp.perform C) ⟨w, [], []⟩ (ledgerOps thread)

theorem Collector.ledgerSample_run (C : Collector σ) (w : World σ) (thread : Addr)
    (h : (LedgerOp.detach thread).Legal (List.foldl (LedgerOp.perform C) ⟨w, [], []⟩
      [.call (.alloc cell 24 allocPinned), .attach, .attach])) :
    Run C.LedgerStep ⟨w, [], []⟩ (ledgerOps thread) (C.ledgerSample w thread) :=
  (((Run.nil _).snoc ⟨trivial, rfl⟩).snoc ⟨trivial, rfl⟩).snoc ⟨trivial, rfl⟩ |>.snoc ⟨h, rfl⟩

/-- Where the node of an object is refused, the plain memory that stands in for it is left, and so is
    the context of the thread that is still attached. -/
theorem gcRuntimeDestroy_leaves_plain_sample :
    (gcRuntimeDestroy gcGenCopyMsVtable
      (genCollector.ledgerSample genNoNode (2 ^ 20 * 7)).world).mem.blocks.Perm
        [(2 ^ 20 * 8, sizeofThreadContext), (2 ^ 20 * 6, 24)] ∧
    (gcRuntimeDestroy gcMarksweepStwVtable
      (msCollector.ledgerSample msNoNode (2 ^ 20 * 7)).world).mem.blocks.Perm
        [(2 ^ 20 * 8, sizeofThreadContext), (2 ^ 20 * 6, 24)] := by
  have hgen := (gcRuntimeDestroy_leaves_plain (sampleMem_owns fun n => n == 4) (sampleConfig 128)
    (sampleHooks 2) _).1 genNoNode _ (Option.some_get _).symm
    (genCollector.ledgerSample_run genNoNode (2 ^ 20 * 7) (.inr (by decide +kernel)))
  have hms := (gcRuntimeDestroy_leaves_plain (sampleMem_owns fun n => n == 4) (sampleConfig 0)
    (sampleHooks 2) _).2 msNoNode _ (Option.some_get _).symm
    (msCollector.ledgerSample_run msNoNode (2 ^ 20 * 7) (.inr (by decide +kernel)))
  have hgenLeft : (genCollector.ledgerSample genNoNode (2 ^ 20 * 7)).client ++
      (sampleMem fun n => n == 4).blocks =
        [(2 ^ 20 * 8, sizeofThreadContext), (2 ^ 20 * 6, 24)] := by decide +kernel
  have hmsLeft : (msCollector.ledgerSample msNoNode (2 ^ 20 * 7)).client ++
      (sampleMem fun n => n == 4).blocks =
        [(2 ^ 20 * 8, sizeofThreadContext), (2 ^ 20 * 6, 24)] := by decide +kernel
  exact ⟨hgenLeft ▸ hgen.2, hmsLeft ▸ hms.2⟩

end Xgc
