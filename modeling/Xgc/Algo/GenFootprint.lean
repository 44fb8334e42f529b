import Xgc.Algo.Footprint
import Xgc.Algo.MinorRun
import Xgc.Algo.Unbound

/-! The storage of the generational collector, whatever is refused: each call frees what it has taken
    and does not keep. -/

namespace Xgc

open Lib (Block Run)

/-! ### What the tracing of a minor collection keeps -/

/-- A property of the runtime that is kept when a reference is moved, and that does not look at the
    other things that the tracing changes. -/
structure TraceInvariant (P : GenWorld → Prop) : Prop where
  moveRef : ∀ ctx r, P ctx.rt → P (gcGenMoveRef ctx r).rt
  aside : ∀ (w : GenWorld) m b losses hung, m.blocks = w.mem.blocks → P w →
    P { w with mem := m, barriers := b, losses, hung }

namespace TraceInvariant

variable {P : GenWorld → Prop}

theorem quiet (hP : TraceInvariant P) {w : GenWorld} (h : P w) {m : Mem} (hq : w.mem.Quiet m) :
    P { w with mem := m } :=
  hP.aside w m w.barriers w.losses w.hung hq.blocks h

theorem fail (hP : TraceInvariant P) {w : GenWorld} (h : P w) : P w.fail :=
  hP.aside w { w.mem with fault := true } w.barriers w.losses w.hung rfl h

theorem evacuateSlots (hP : TraceInvariant P) : ∀ (rs : List SlotRef) {ctx : GcGenMinorCtx},
    P ctx.rt → P (rs.foldl gcGenEvacuateSlot ctx).rt
  | [], _, h => h
  | r :: rs, ctx, h => by
      refine evacuateSlots hP rs ?_
      unfold gcGenEvacuateSlot
      split
      · exact h
      · exact hP.moveRef ctx r h

theorem moveRefs (hP : TraceInvariant P) : ∀ (rs : List SlotRef) {ctx : GcGenMinorCtx},
    P ctx.rt → P (rs.foldl gcGenMoveRef ctx).rt
  | [], _, h => h
  | r :: rs, ctx, h => moveRefs hP rs (hP.moveRef ctx r h)

theorem scanRoots (hP : TraceInvariant P) {ctx : GcGenMinorCtx} (h : P ctx.rt) :
    P (gcGenMinorScanRoots ctx).rt := by
  unfold gcGenMinorScanRoots
  split
  · exact hP.evacuateSlots _ h
  · exact h

theorem rememberOwner (hP : TraceInvariant P) {v : GcGenDirtyCardVisitCtx} (h : P v.minor.rt)
    (owner : Addr) : P (gcGenDirtyVisitRememberOwner v owner).minor.rt := by
  unfold gcGenDirtyVisitRememberOwner
  generalize (if v.ownerCapacity > 0 then v.ownerCapacity * 2 % 2 ^ 64 else 8) = n
  have hq := hP.quiet h (v.minor.rt.mem.quiet_reserve (n * 8 % 2 ^ 64))
  split
  · exact h
  · split
    · exact h
    · split
      · simp only
        split
        · exact hq
        · exact hq
      · exact h

theorem visitDirtyCard (hP : TraceInvariant P) {v : GcGenDirtyCardVisitCtx} (h : P v.minor.rt)
    (card : Addr × Nat) : P (gcGenMinorVisitDirtyCard v card).minor.rt := by
  unfold gcGenMinorVisitDirtyCard
  simp only
  split
  · exact h
  · split
    · exact hP.fail h
    · exact hP.rememberOwner (hP.evacuateSlots _ h) _

theorem visitDirtyCards (hP : TraceInvariant P) : ∀ (cards : List (Addr × Nat))
    {v : GcGenDirtyCardVisitCtx}, P v.minor.rt → P (cards.foldl gcGenMinorVisitDirtyCard v).minor.rt
  | [], _, h => h
  | card :: cards, _, h => visitDirtyCards hP cards (hP.visitDirtyCard h card)

theorem quiet_visitDirty (t : GcCardTable) (m : Mem) : m.Quiet (gcCardTableVisitDirty t m).2 := by
  unfold gcCardTableVisitDirty
  split
  · exact .refl m
  · simp only
    have hq := m.quiet_reserve (t.countDirty * 16)
    split
    · exact hq
    · exact hq

theorem scanDirtyCards (hP : TraceInvariant P) {ctx : GcGenMinorCtx} (h : P ctx.rt) :
    P (gcGenMinorScanDirtyCards ctx).rt := by
  have hsnap := quiet_visitDirty ctx.rt.barriers.oldToYoung ctx.rt.mem
  unfold gcGenMinorScanDirtyCards
  simp only
  split
  · next cards _ =>
    exact hP.aside _ _ _ _ _ rfl (hP.visitDirtyCards cards
      (v := { minor := { ctx with rt := { ctx.rt with
                mem := (gcCardTableVisitDirty ctx.rt.barriers.oldToYoung ctx.rt.mem).2 } }
              ownersToClear := []
              ownerCapacity := 0 }) (hP.quiet h hsnap))
  · exact hP.aside ctx.rt _ _ _ _ hsnap.blocks h

theorem minorDrain (hP : TraceInvariant P) : ∀ (fuel : Nat) {ctx : GcGenMinorCtx}, P ctx.rt →
    P (gcGenMinorDrain fuel ctx).rt
  | 0, ctx, h => hP.aside ctx.rt _ _ _ _ rfl h
  | fuel + 1, ctx, h => by
      rw [gcGenMinorDrain]
      obtain ⟨wl, obj⟩ := gcWorklistPop ctx.wl
      simp only
      split
      · exact h
      · refine minorDrain hP fuel ?_
        unfold gcGenMinorTrace
        split
        · exact hP.fail h
        · exact @evacuateSlots _ hP _ { ctx with wl } h

/-- All of the tracing keeps it. -/
theorem traceAll (hP : TraceInvariant P) {w : GenWorld} (h : P (gcGenClearForwarding w)) :
    P (gcGenMinorTraceAll w).rt :=
  hP.minorDrain _ (hP.scanDirtyCards (hP.scanRoots (hP.moveRefs _ h)))

end TraceInvariant

/-! ### The storage -/

/-- The nursery, and the blocks of the old objects. -/
def genStorage : Storage GenState where
  nodes := GenState.oldObjects
  spaces s := if s.nurserySpace = 0 then [] else [s.nurserySpace]

variable {w : GenWorld} {rest : List Block}

/-- One more old object, in a block that has just been granted. -/
theorem Storage.Accounts.registered (h : genStorage.Accounts w rest) {a n : Nat}
    (hfit : w.mem.Fits a n) {m : Mem} (hm : m.blocks = (a, n) :: w.mem.blocks) (size : Nat)
    (b : GcBarrierSet) (o : GcHeader) :
    genStorage.Accounts { registered w a size m b with graph := w.graph.setObj a (some o) } rest := by
  refine ⟨(h.foot.granted hfit hm).perm ?_, fun k hk => ?_⟩
  · simp only [Storage.addrs, genStorage]
    exact (List.Perm.swap _ _ _).trans (List.perm_middle.symm.cons _)
  · show ((w.graph.setObj a (some o)).objs k.obj).isSome
    rcases List.mem_cons.mp hk with rfl | hk
    · simp
    · have ho := h.objs k hk
      by_cases hka : k.obj = a <;> simp [hka] at ho ⊢
      exact ho

theorem traceInvariant_accounts (rest : List Block) :
    TraceInvariant fun w => genStorage.Accounts w rest where
  moveRef ctx r h := by
    rcases gcGenMoveRef_ways ctx r with
      ⟨m, b, t, losses, heq, -, hblocks, -⟩ | ⟨t, o, m, b, losses, wl, heq, hto⟩
    · rw [heq]
      exact (h.write r t).congr rfl rfl rfl hblocks rfl fun _ ho => ho
    · rw [heq]
      exact ((h.registered hto.fits hto.blocks o.size b o).write r t).congr rfl rfl rfl rfl rfl fun _ ho => ho
  aside w m b losses hung hm h := h.congr rfl rfl rfl hm rfl fun _ ho => ho

namespace Storage.Accounts

/-- The walk over the nursery changes the log only. -/
theorem finalizeFrom : ∀ (fuel cursor stop : Nat) {w : GenWorld}, genStorage.Accounts w rest →
    genStorage.Accounts (gcGenFinalizeFrom fuel cursor stop w) rest
  | 0, _, _, _, h => h.congr rfl rfl rfl rfl rfl fun _ ho => ho
  | fuel + 1, cursor, stop, w, h => by
      rw [gcGenFinalizeFrom]
      split
      · split
        · exact h.congr rfl rfl rfl rfl rfl fun _ ho => ho
        · exact finalizeFrom fuel _ stop (h.congr rfl rfl rfl rfl rfl fun _ ho => ho)
      · exact h

theorem collectMinor (h : genStorage.Accounts w rest) :
    genStorage.Accounts (gcGenCollectMinorImpl w) rest := by
  unfold gcGenCollectMinorImpl
  split
  · exact h
  · split
    · exact h
    · simp only
      split
      · exact h
      · have hclear : genStorage.Accounts (gcGenClearForwarding w) rest := 
          h.congr rfl rfl rfl rfl rfl fun _ ho => ho
        have htraced := (traceInvariant_accounts rest).traceAll hclear
        generalize gcGenMinorTraceAll w = ctx at htraced ⊢
        have hlist : genStorage.Accounts { ctx.rt with
            worklistData := ctx.wl.data, worklistCapacity := ctx.wl.capacity } rest :=
          htraced.congr rfl rfl rfl rfl rfl fun _ ho => ho
        have hdead : genStorage.Accounts (gcGenFinalizeDeadNursery { ctx.rt with
            worklistData := ctx.wl.data, worklistCapacity := ctx.wl.capacity }
              w.algoState.nurseryUsed) rest := by
          unfold gcGenFinalizeDeadNursery
          split
          · exact hlist
          · exact (hlist.finalizeFrom _ _ _).congr rfl rfl rfl rfl rfl fun _ ho => ho
        exact hdead.congr rfl rfl rfl rfl rfl fun _ ho => ho

end Storage.Accounts

theorem reclaims_gcGenReclaimOld : Storage.Reclaims gcGenReclaimOld where
  mem w a := Storage.reclaims_gcReclaimObject.mem (gcGenRemoveOldNodeAccounting w a) a
  objs w a := Storage.reclaims_gcReclaimObject.objs (gcGenRemoveOldNodeAccounting w a) a
  same w a :=
    have h := Storage.reclaims_gcReclaimObject.same (gcGenRemoveOldNodeAccounting w a) a
    ⟨h.self, h.state, h.bound, h.handles⟩

namespace Storage.Accounts

theorem collectFull (h : genStorage.Accounts w rest) :
    genStorage.Accounts (gcGenCollectFullImpl w) rest := by
  have hm := h.collectMinor
  unfold gcGenCollectFullImpl
  split
  · exact h
  · simp only
    generalize gcGenCollectMinorImpl w = w₁ at hm ⊢
    have hctx : MarkKept (w₁.markCtx w₁.algoState.oldObjects) (gcGenMarkDrain w₁.graph
        w₁.algoState.oldObjects.length (markRoots w₁.graph (gcGenMarkHandles w₁.graph
          (w₁.markCtx w₁.algoState.oldObjects)))).1 :=
      ((MarkKept.markAll _ _).trans (MarkKept.markRoots _)).trans (MarkKept.markDrain _ _)
    generalize gcGenMarkDrain w₁.graph w₁.algoState.oldObjects.length _ = r at hctx ⊢
    have hmarked : genStorage.Accounts
        { w₁.marked r with algoState := { w₁.algoState with oldObjects := r.1.nodes } } rest :=
      hm.congr rfl rfl hctx.nodes hctx.blocks rfl fun _ ho => ho
    exact hmarked.sweep reclaims_gcGenReclaimOld rfl rfl

end Storage.Accounts

/-! ### Calls -/

/-- There is room in the nursery for what is in use, or the runtime has no algorithm state. -/
def GenWorld.Settled (w : GenWorld) : Prop := w.Roomy ∨ w.Stateless

namespace Storage.Accounts

/-- A young object takes no block. -/
theorem allocYoung (h : genStorage.Accounts w rest) (hr : w.Roomy) (desc : GcDescriptor) {n : Nat}
    (hroom : w.algoState.nurseryUsed + n ≤ w.algoState.nurseryCapacity) :
    genStorage.Accounts (gcGenAllocYoung w desc n).1 rest := by
  refine ⟨h.foot, fun k hk => ?_⟩
  have hout := hr.kept.old k hk
  unfold GenWorld.Outside at hout
  have hclear : (w.graph.clearRange (w.algoState.nurserySpace + w.algoState.nurseryUsed) n).objs
      k.obj = w.graph.objs k.obj := by
    refine if_neg ?_
    rintro ⟨h₁, h₂⟩
    omega
  show (((w.graph.clearRange _ n).setObj _ _).objs k.obj).isSome
  rw [Graph.setObj_objs]
  split
  · rfl
  · rw [hclear]
    exact h.objs k hk

theorem withRoom (h : genStorage.Accounts w rest) (size : Nat) (flags : BitVec 32) :
    genStorage.Accounts (Xgc.withRoom w size flags) rest := by
  unfold Xgc.withRoom
  split
  · exact h.collectMinor
  · exact h

/-- An old object has a block of its own, which is given back when the object cannot be registered. -/
theorem allocOld (h : genStorage.Accounts w rest) (desc : GcDescriptor) (n : Nat)
    (flags : BitVec 32) : genStorage.Accounts (gcGenAllocOld w desc n flags).1 rest := by
  unfold gcGenAllocOld
  rcases w.mem.malloc_cases n with hm | ⟨a, hfit, hm⟩
  · simp only [hm, if_true]
    exact h.quiet w.mem.quiet_refuse
  · simp only [hm, if_neg (Nat.pos_iff_ne_zero.mp hfit.1)]
    rcases gcGenAddOldNode_ways { w with mem := w.mem.grant a n } a (n % 2 ^ 32) with
      ⟨m, b, heq, -, hq⟩ | ⟨m, b, heq, -, hq⟩
    · simp only [heq, Bool.not_false, if_true]
      exact (h.quiet (Mem.quiet_grant_free hfit hq)).congr rfl rfl rfl rfl rfl fun _ ho => ho
    · simp only [heq, Bool.not_true, Bool.false_eq_true, if_false]
      exact (h.registered hfit hq.blocks (n % 2 ^ 32) b
        (newHeader desc n (allocatedFlags desc flags) w.graph.history.length)).congr
          rfl rfl rfl rfl rfl fun _ ho => ho

theorem gcGenAlloc (h : genStorage.Accounts w rest) (hs : w.Settled) (desc : GcDescriptor)
    (size : Nat) (flags : BitVec 32) :
    genStorage.Accounts (Xgc.gcGenAlloc w desc size flags).1 rest := by
  by_cases hsize : size < sizeofHeader
  · rw [Xgc.gcGenAlloc, if_pos (.inr hsize)]
    exact h
  have hsize := Nat.le_of_not_lt hsize
  rcases hs with hr | hu
  · rcases hr.alloc_cases desc hsize flags with ⟨hyoung, heq⟩ | ⟨-, heq⟩
    · rw [heq]
      exact (h.withRoom size flags).allocYoung (hr.withRoom size flags) desc
        (hr.room hsize hyoung)
    · rw [heq]
      exact h.allocOld desc _ flags
  · have heq : Xgc.gcGenAlloc w desc size flags = (w, 0) := by simp [Xgc.gcGenAlloc, hu.bound]
    rw [heq]
    exact h

/-- Whatever is called, the runtime accounts for all blocks but those that it has handed out. -/
theorem perform_gen (h : genStorage.Accounts w rest) (hs : w.Settled) (op : ClientOp) :
    genStorage.Accounts (op.perform genCollector w).1 (op.plain genCollector w ++ rest) := by
  cases op with
  | alloc desc size flags =>
    exact h.allocTyped genCollector rfl rfl (h.gcGenAlloc hs desc size flags)
  | storeRef owner loc v =>
    have hw := h.write (.field owner loc) v
    simp only [ClientOp.perform, genCollector, gcStoreRef, gcGenCopyMsVtable, callHook,
      gcGenWriteBarrier]
    split
    · exact hw
    · split
      · exact hw
      · split
        · exact hw
        · split
          · exact hw
          · exact hw.congr rfl rfl rfl rfl rfl fun _ ho => ho
  | loadRef | get => exact h
  | writeBytes obj bytes => exact h.modifyObj obj fun o => { o with bytes }
  | setRoot i v => exact h.write (.root i) v
  | acquire obj flags => exact h.acquire gcGenCopyMsVtable rfl obj flags
  | release handle => exact h.release gcGenCopyMsVtable rfl handle
  | collectMinor => exact h.collectMinor.congr rfl rfl rfl rfl rfl fun _ ho => ho
  | collectMajor | collectFull => exact h.collectFull.congr rfl rfl rfl rfl rfl fun _ ho => ho

end Storage.Accounts

/-! ### The blocks of a runtime in order -/

variable {tidy : Prop}

theorem genStorage_addrs (h : (genManager tidy).Inv w) :
    genStorage.addrs w = (genManager tidy).addrs w := by
  have hpos : w.algoState.nurserySpace ≠ 0 :=
    Nat.pos_iff_ne_zero.mp (h.owns.range (w.algoState.nurserySpace, w.algoState.nurseryCapacity)
      (h.owns.live _ (by simp [Manager.owned, genManager, genBlocks]))).1
  simp [Storage.addrs, Manager.addrs, Manager.owned, genManager, genStorage, genBlocks, objectBlocks,
    handleBlocks, hpos, Function.comp_def]

theorem genStorage_accounts (h : (genManager tidy).Inv w)
    (hf : Footprint w.mem ((genManager tidy).addrs w) rest) : genStorage.Accounts w rest where
  foot := by rwa [genStorage_addrs h]
  objs n hn := by
    obtain ⟨o, ho, -⟩ := h.heap.objs n.obj (List.mem_append_left _ (List.mem_map_of_mem hn))
    rw [ho]
    rfl

/-- A full collection leaves all blocks alone that the runtime does not own. -/
theorem gcGenCollectFullImpl_blocks (h : (genManager tidy).Inv w)
    (h' : (genManager tidy).Inv (gcGenCollectFullImpl w)) :
    ∃ others, w.mem.blocks.Perm ((genManager tidy).owned w ++ others) ∧
      (gcGenCollectFullImpl w).mem.blocks.Perm
        ((genManager tidy).owned (gcGenCollectFullImpl w) ++ others) := by
  have hf := Footprint.of_owns h.owns
  have hdone := (genStorage_accounts h hf).collectFull.foot
  rw [genStorage_addrs h'] at hdone
  exact ⟨_, hf.perm_owned h.owns, hdone.perm_owned h'.owns⟩

end Xgc
