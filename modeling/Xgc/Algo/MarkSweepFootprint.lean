import Xgc.Algo.Footprint
import Xgc.Algo.MarkSweepSpec

/-! The storage of mark-sweep, whatever is refused: an object has a block of its own as long as it is on
    the list, and a collection frees the blocks of the objects that it drops. -/

namespace Xgc

open Lib (Block)

variable {rest : List Block}

/-! ### The storage -/

/-- The blocks of the objects. -/
def msStorage : Storage MsState where
  nodes := MsState.objects
  spaces _ := []

namespace Storage.Accounts

theorem gcMarksweepAlloc {w : MsWorld} (h : msStorage.Accounts w rest) (desc : GcDescriptor)
    (size : Nat) (flags : BitVec 32) :
    msStorage.Accounts (Xgc.gcMarksweepAlloc w desc size flags).1 rest := by
  by_cases hb : w.stateBound = true
  · rcases gcMarksweepAlloc_cases hb desc size flags with
      ⟨m, hq, -, heq⟩ | ⟨a, m, hfit, hq, heq⟩ <;> rw [heq]
    · exact h.quiet hq
    · have hobj := (h.quiet (Mem.Quiet.refl _)).addObject a desc
        (newHeader desc size (allocatedFlags desc flags))
      refine ⟨(h.foot.granted hfit hq.blocks).perm ?_, fun n hn => ?_⟩
      · exact List.Perm.swap _ _ _
      · rcases List.mem_cons.mp hn with rfl | hn
        · simp [msAllocated, World.addObject]
        · exact hobj.objs n hn
  · have heq : Xgc.gcMarksweepAlloc w desc size flags = (w, 0) := by
      simp [Xgc.gcMarksweepAlloc, hb]
    rw [heq]
    exact h

theorem gcMarksweepCollectFullImpl {w : MsWorld} (h : msStorage.Accounts w rest) :
    msStorage.Accounts (Xgc.gcMarksweepCollectFullImpl w) rest := by
  unfold Xgc.gcMarksweepCollectFullImpl
  split
  · exact h
  · have hctx : MarkKept (w.markCtx w.algoState.objects) (gcMarksweepDrainWorklist w.graph
        w.algoState.objects.length (markRoots w.graph (gcMarksweepMarkHandleRoots w.graph
          (w.markCtx w.algoState.objects)))).1 :=
      ((MarkKept.markAll _ _).trans (MarkKept.markRoots _)).trans (MarkKept.markDrain _ _)
    simp only
    generalize gcMarksweepDrainWorklist w.graph w.algoState.objects.length _ = r at hctx ⊢
    have hmarked : msStorage.Accounts { w.marked r with algoState := { objects := r.1.nodes } }
        rest := h.congr rfl rfl hctx.nodes hctx.blocks rfl fun _ ho => ho
    exact hmarked.sweep reclaims_gcReclaimObject rfl rfl

/-- Whatever is called, the runtime accounts for all blocks but those that it has handed out. -/
theorem perform_ms {w : MsWorld} (h : msStorage.Accounts w rest) (op : ClientOp) :
    msStorage.Accounts (op.perform msCollector w).1 (op.plain msCollector w ++ rest) := by
  cases op with
  | alloc desc size flags =>
    exact h.allocTyped msCollector rfl rfl (h.gcMarksweepAlloc desc size flags)
  | storeRef owner loc v => exact h.write (.field owner loc) v
  | loadRef | get => exact h
  | writeBytes obj bytes => exact h.modifyObj obj fun o => { o with bytes }
  | setRoot i v => exact h.write (.root i) v
  | acquire obj flags => exact h.acquire gcMarksweepStwVtable rfl obj flags
  | release handle => exact h.release gcMarksweepStwVtable rfl handle
  | collectMinor | collectMajor | collectFull =>
    exact h.gcMarksweepCollectFullImpl.congr rfl rfl rfl rfl rfl fun _ ho => ho

end Storage.Accounts

/-- An algorithm state is neither bound nor unbound later. -/
theorem perform_ms_bound (w : MsWorld) (op : ClientOp) :
    (op.perform msCollector w).1.stateBound = w.stateBound := by
  have hcollect : (gcMarksweepCollectFullImpl w).stateBound = w.stateBound := by
    unfold gcMarksweepCollectFullImpl
    split
    · rfl
    · exact (Storage.reclaims_gcReclaimObject.sweep_same _ _).bound
  cases op with
  | alloc desc size flags =>
    simp only [ClientOp.perform, msCollector]
    by_cases hsize : size < sizeofHeader
    · rw [gcAllocTyped, if_pos hsize]
    · refine (gcAllocTyped_same gcMarksweepStwVtable rfl rfl (Nat.le_of_not_lt hsize)).bound.trans ?_
      by_cases hb : w.stateBound = true
      · rcases gcMarksweepAlloc_cases hb desc size flags with
          ⟨m, -, -, heq⟩ | ⟨a, m, -, -, heq⟩ <;> rw [heq]
        rfl
      · simp [gcMarksweepAlloc, hb]
  | storeRef | loadRef | get | writeBytes | setRoot => rfl
  | acquire obj flags =>
    simp only [ClientOp.perform, msCollector]
    by_cases hobj : obj = 0
    · rw [gcHandleAcquire, if_pos hobj]
    · rcases @gcHandleAcquire_cases _ gcMarksweepStwVtable rfl _ _ hobj flags with
        heq | ⟨a, -, heq⟩ <;> rw [heq]
  | release handle =>
    simp only [ClientOp.perform, msCollector, gcHandleRelease]
    split
    · rfl
    · split
      · rfl
      · simp only [callHook, gcMarksweepStwVtable, gcMarksweepUnpin]
        split <;> rfl
  | collectMinor | collectMajor | collectFull => exact hcollect

/-! ### The blocks of a runtime in order -/

theorem msStorage_addrs (w : MsWorld) : msStorage.addrs w = msManager.addrs w := by
  simp [Storage.addrs, Manager.addrs, Manager.owned, msManager, msStorage, objectBlocks,
    handleBlocks, Function.comp_def]

theorem msStorage_accounts {w : MsWorld} {rest : List Block} (h : msManager.Inv w)
    (hf : Footprint w.mem (msManager.addrs w) rest) : msStorage.Accounts w rest where
  foot := by rwa [msStorage_addrs]
  objs n hn := by
    obtain ⟨o, ho, -⟩ := h.heap.objs n.obj (List.mem_map_of_mem hn)
    rw [ho]
    rfl

/-- A collection leaves all blocks alone that the runtime does not own. -/
theorem gcMarksweepCollectFullImpl_blocks {w : MsWorld} (h : msManager.Inv w)
    (h' : msManager.Inv (gcMarksweepCollectFullImpl w)) :
    ∃ others, w.mem.blocks.Perm (msManager.owned w ++ others) ∧
      (gcMarksweepCollectFullImpl w).mem.blocks.Perm
        (msManager.owned (gcMarksweepCollectFullImpl w) ++ others) := by
  have hf := Footprint.of_owns h.owns
  have hdone := (msStorage_accounts h hf).gcMarksweepCollectFullImpl.foot
  rw [msStorage_addrs] at hdone
  exact ⟨_, hf.perm_owned h.owns, hdone.perm_owned h'.owns⟩

end Xgc
