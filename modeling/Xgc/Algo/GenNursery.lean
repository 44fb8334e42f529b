import Xgc.Algo.GenLayout
import Xgc.Core.CardMap

/-! What every call leaves of the nursery, whatever else the heap is like: the block stays where it
    is, the headers in it keep their sizes, and old objects and handles lie outside. Nothing is asked
    here of the objects, their references or the requests that are refused. -/

namespace Xgc

open Lib (map_update)

/-- The size that the header at `b` records, if there is one. -/
def Graph.recorded (g : Graph) (b : Addr) : Option Nat := (g.objs b).map fun o => o.size

theorem Graph.sizeAt_eq_recorded (g : Graph) (b : Addr) : g.sizeAt b = (g.recorded b).getD 0 := by
  cases ho : g.objs b <;> simp [sizeAt, recorded, ho]

/-- `b` lies outside the nursery. -/
def GenWorld.Outside (w : GenWorld) (b : Nat) : Prop :=
  b ≠ w.algoState.nurserySpace ∧
    (b < w.algoState.nurserySpace ∨ w.algoState.nurserySpace + w.algoState.nurseryCapacity ≤ b)

/-- The nursery of `w` is that of `w₀`, with the same headers in it. -/
structure NurseryKept (w₀ w : GenWorld) : Prop where
  bound : w.stateBound = true
  space : w.algoState.nurserySpace = w₀.algoState.nurserySpace
  capacity : w.algoState.nurseryCapacity = w₀.algoState.nurseryCapacity
  used : w.algoState.nurseryUsed = w₀.algoState.nurseryUsed
  pos : 0 < w₀.algoState.nurserySpace
  live : (w₀.algoState.nurserySpace, w₀.algoState.nurseryCapacity) ∈ w.mem.blocks
  old : ∀ n ∈ w.algoState.oldObjects, w₀.Outside n.obj
  handles : ∀ k ∈ w.graph.handles, w₀.Outside k.addr
  headers : ∀ b, ¬ w₀.Outside b → w.graph.recorded b = w₀.graph.recorded b

namespace NurseryKept

variable {w₀ w w' : GenWorld}

/-- The nursery is that of the runtime itself. -/
theorem rebase (h : NurseryKept w₀ w) : NurseryKept w w where
  bound := h.bound
  space := rfl
  capacity := rfl
  used := rfl
  pos := by rw [h.space]; exact h.pos
  live := by rw [h.space, h.capacity]; exact h.live
  old n hn := by
    have hout := h.old n hn
    unfold GenWorld.Outside at hout ⊢
    rwa [h.space, h.capacity]
  handles k hk := by
    have hout := h.handles k hk
    unfold GenWorld.Outside at hout ⊢
    rwa [h.space, h.capacity]
  headers _ _ := rfl

/-- Whatever else changes does not matter. -/
theorem congr (h : NurseryKept w₀ w) (hbound : w'.stateBound = w.stateBound)
    (hstate : w'.algoState = w.algoState) (hblocks : w'.mem.blocks = w.mem.blocks)
    (hhandles : w'.graph.handles = w.graph.handles) (hobjs : w'.graph.objs = w.graph.objs) :
    NurseryKept w₀ w' where
  bound := hbound.trans h.bound
  space := hstate ▸ h.space
  capacity := hstate ▸ h.capacity
  used := hstate ▸ h.used
  pos := h.pos
  live := hblocks ▸ h.live
  old := hstate ▸ h.old
  handles := hhandles ▸ h.handles
  headers b hb := by
    rw [← h.headers b hb, Graph.recorded, hobjs]
    rfl

theorem quiet (h : NurseryKept w₀ w) {m : Mem} (hq : w.mem.Quiet m) :
    NurseryKept w₀ { w with mem := m } :=
  h.congr rfl rfl hq.blocks rfl rfl

/-- A block that fits lies outside the nursery. -/
theorem outside_of_fits (h : NurseryKept w₀ w) {a n : Nat} (hfit : w.mem.Fits a n) :
    w₀.Outside a := by
  have hap := hfit.2.2.2 _ h.live
  unfold GenWorld.Outside
  have h₁ : a ≠ w₀.algoState.nurserySpace := hap.1
  have h₂ : a + n ≤ w₀.algoState.nurserySpace ∨
    w₀.algoState.nurserySpace + w₀.algoState.nurseryCapacity ≤ a := hap.2
  omega

theorem grant (h : NurseryKept w₀ w) (a n : Nat) :
    NurseryKept w₀ { w with mem := w.mem.grant a n } :=
  { h with live := List.mem_cons_of_mem _ h.live }

/-- The nursery is not freed by freeing something outside. -/
theorem free (h : NurseryKept w₀ w) {a : Nat} (ha : w₀.Outside a) :
    NurseryKept w₀ { w with mem := w.mem.free a } := by
  refine { h with live := ?_ }
  have hne : w₀.algoState.nurserySpace ≠ a := ha.1.symm
  show _ ∈ (w.mem.free a).blocks
  unfold Mem.free
  split
  · exact h.live
  · split
    · exact List.mem_filter.mpr ⟨h.live, by simpa using hne⟩
    · exact h.live

/-- What is entered outside the nursery changes no header in it. -/
theorem setObj (h : NurseryKept w₀ w) {a : Addr} (ha : w₀.Outside a) (o : Option GcHeader) :
    NurseryKept w₀ { w with graph := w.graph.setObj a o } := by
  refine { h with headers := fun b hb => ?_ }
  have hne : b ≠ a := fun he => hb (he ▸ ha)
  rw [← h.headers b hb]
  simp [Graph.recorded, hne]

/-- Writing a reference changes no header. -/
theorem write (h : NurseryKept w₀ w) (r : SlotRef) (v : Addr) :
    NurseryKept w₀ { w with graph := w.graph.write r v } := by
  refine { h with handles := fun k hk => ?_, headers := fun b hb => ?_ }
  · obtain ⟨f, hf⟩ := w.graph.write_handles r v
    obtain ⟨k', hk', rfl⟩ := List.mem_map.mp (hf ▸ hk)
    exact h.handles k' hk'
  · rw [← h.headers b hb]
    cases r with
    | root i => rfl
    | handle k => rfl
    | field a p =>
      by_cases hba : b = a
      · subst hba
        cases ho : w.graph.objs b <;> simp [Graph.recorded, Graph.write, ho]
      · simp [Graph.recorded, Graph.write, hba]

/-- Changing an object, but not its size, changes no header. -/
theorem modifyObj (h : NurseryKept w₀ w) (a : Addr) {f : GcHeader → GcHeader}
    (hf : ∀ o, (f o).size = o.size) :
    NurseryKept w₀ { w with graph := w.graph.modifyObj a f } := by
  refine { h with headers := fun b hb => ?_ }
  rw [← h.headers b hb]
  by_cases hba : b = a
  · subst hba
    cases ho : w.graph.objs b <;> simp [Graph.recorded, ho, hf]
  · simp [Graph.recorded, hba]

/-! ### A minor collection -/

/-- An old object outside the nursery. -/
theorem addOldNode (h : NurseryKept w₀ w) {t : Addr} (ht : w₀.Outside t) (n : Nat) :
    NurseryKept w₀ (gcGenAddOldNode w t n).1 := by
  have hr := h.quiet (w.mem.quiet_reserve 24)
  have hq := CardOp.quiet_perform (w.barriers, (w.mem.reserve 24).1) (.register t n)
  have hq' : (w.mem.reserve 24).1.Quiet
      (gcBarrierRegisterOwner w.barriers t n (w.mem.reserve 24).1).2.1 := hq
  unfold gcGenAddOldNode
  simp only
  split
  · exact hr
  · split
    · exact (hr.quiet hq').congr rfl rfl rfl rfl rfl
    · refine { hr.quiet hq' with old := fun k hk => ?_ }
      rcases List.mem_cons.mp hk with rfl | hk
      · exact ht
      · exact h.old k hk

/-- Moving an object out of the nursery leaves what was there. -/
theorem promote {ctx : GcGenMinorCtx} (h : NurseryKept w₀ ctx.rt) (obj : Addr) :
    NurseryKept w₀ (gcGenPromote ctx obj).1.rt := by
  unfold gcGenPromote
  simp only
  split
  · exact h
  · split
    · exact h
    · split
      · exact h.congr rfl rfl rfl rfl rfl
      · next o ho =>
        rcases ctx.rt.mem.malloc_cases o.size with hm | ⟨t, hfit, hm⟩
        · simp only [hm, if_true]
          exact h.quiet ctx.rt.mem.quiet_refuse
        · have ht := h.outside_of_fits hfit
          have hr := (h.grant t o.size).quiet (Mem.quiet_reserve (ctx.rt.mem.grant t o.size) 24)
          simp only [hm, if_neg (Nat.pos_iff_ne_zero.mp hfit.1)]
          split
          · exact hr.free ht
          · have hadd := hr.addOldNode ht o.size
            generalize gcGenAddOldNode _ t o.size = r at hadd ⊢
            obtain ⟨w₁, ok⟩ := r
            simp only at hadd ⊢
            split
            · exact hadd.free ht
            · have hset := (hadd.setObj ht (some o)).quiet (GcWorklist.quiet_push ctx.wl t w₁.mem)
              exact { hset with }

/-- A fold over calls that keep the nursery keeps it. -/
theorem foldl {α β : Type} (rt : β → GenWorld) {f : β → α → β}
    (hf : ∀ c x, NurseryKept w₀ (rt c) → NurseryKept w₀ (rt (f c x))) :
    ∀ (l : List α) (c : β), NurseryKept w₀ (rt c) → NurseryKept w₀ (rt (l.foldl f c))
  | [], _, h => h
  | x :: l, c, h => foldl rt hf l (f c x) (hf c x h)

theorem moveRef {ctx : GcGenMinorCtx} (h : NurseryKept w₀ ctx.rt) (r : SlotRef) :
    NurseryKept w₀ (gcGenMoveRef ctx r).rt := by
  have hp := (h.promote (ctx.rt.graph.read r)).write r (gcGenPromote ctx (ctx.rt.graph.read r)).2.1
  unfold gcGenMoveRef
  exact { hp with }

theorem evacuateSlot {ctx : GcGenMinorCtx} (h : NurseryKept w₀ ctx.rt) (r : SlotRef) :
    NurseryKept w₀ (gcGenEvacuateSlot ctx r).rt := by
  unfold gcGenEvacuateSlot
  split
  · exact h
  · exact h.moveRef r

theorem evacuateSlots {ctx : GcGenMinorCtx} (h : NurseryKept w₀ ctx.rt) (rs : List SlotRef) :
    NurseryKept w₀ (rs.foldl gcGenEvacuateSlot ctx).rt :=
  foldl GcGenMinorCtx.rt (fun _ r hc => hc.evacuateSlot r) rs ctx h

theorem scanRoots {ctx : GcGenMinorCtx} (h : NurseryKept w₀ ctx.rt) :
    NurseryKept w₀ (gcGenMinorScanRoots ctx).rt := by
  unfold gcGenMinorScanRoots
  split
  · exact h.evacuateSlots _
  · exact h

theorem rememberOwner {v : GcGenDirtyCardVisitCtx} (h : NurseryKept w₀ v.minor.rt) (owner : Addr) :
    NurseryKept w₀ (gcGenDirtyVisitRememberOwner v owner).minor.rt := by
  unfold gcGenDirtyVisitRememberOwner
  generalize (if v.ownerCapacity > 0 then v.ownerCapacity * 2 % 2 ^ 64 else 8) = n
  split
  · exact h
  · split
    · exact h
    · split
      · simp only
        split
        · exact h.quiet (v.minor.rt.mem.quiet_reserve (n * 8 % 2 ^ 64))
        · exact h.quiet (v.minor.rt.mem.quiet_reserve (n * 8 % 2 ^ 64))
      · exact h

theorem visitDirtyCard {v : GcGenDirtyCardVisitCtx} (h : NurseryKept w₀ v.minor.rt)
    (card : Addr × Nat) : NurseryKept w₀ (gcGenMinorVisitDirtyCard v card).minor.rt := by
  unfold gcGenMinorVisitDirtyCard
  simp only
  split
  · exact h
  · split
    · exact h.congr rfl rfl rfl rfl rfl
    · exact rememberOwner (h.evacuateSlots _) _

theorem scanDirtyCards {ctx : GcGenMinorCtx} (h : NurseryKept w₀ ctx.rt) :
    NurseryKept w₀ (gcGenMinorScanDirtyCards ctx).rt := by
  have hsnap : NurseryKept w₀ { ctx.rt with
      mem := (gcCardTableVisitDirty ctx.rt.barriers.oldToYoung ctx.rt.mem).2 } := by
    refine h.quiet ?_
    unfold gcCardTableVisitDirty
    split
    · exact .refl _
    · simp only
      have hq := ctx.rt.mem.quiet_reserve (ctx.rt.barriers.oldToYoung.countDirty * 16)
      split
      · exact hq
      · exact hq
  unfold gcGenMinorScanDirtyCards
  simp only
  split
  · next cards _ =>
    have hv := foldl (fun v : GcGenDirtyCardVisitCtx => v.minor.rt)
      (fun _ card hc => hc.visitDirtyCard card) cards
      { minor := { ctx with rt := { ctx.rt with
          mem := (gcCardTableVisitDirty ctx.rt.barriers.oldToYoung ctx.rt.mem).2 } }
        ownersToClear := []
        ownerCapacity := 0 } hsnap
    exact hv.congr rfl rfl rfl rfl rfl
  · exact hsnap.congr rfl rfl rfl rfl rfl

theorem minorTrace {ctx : GcGenMinorCtx} (h : NurseryKept w₀ ctx.rt) (obj : Addr) :
    NurseryKept w₀ (gcGenMinorTrace ctx obj).rt := by
  unfold gcGenMinorTrace
  split
  · exact h.congr rfl rfl rfl rfl rfl
  · exact h.evacuateSlots _

theorem minorDrain : ∀ (fuel : Nat) {ctx : GcGenMinorCtx}, NurseryKept w₀ ctx.rt →
    NurseryKept w₀ (gcGenMinorDrain fuel ctx).rt
  | 0, _, h => h.congr rfl rfl rfl rfl rfl
  | fuel + 1, ctx, h => by
      rw [gcGenMinorDrain]
      obtain ⟨wl, obj⟩ := gcWorklistPop ctx.wl
      have hpop : NurseryKept w₀ (GcGenMinorCtx.mk ctx.rt wl).rt := h
      simp only
      split
      · exact h
      · exact minorDrain fuel (hpop.minorTrace obj)

/-- Tracing leaves the nursery as it was. -/
theorem minorTraceAll (h : NurseryKept w₀ w) : NurseryKept w₀ (gcGenMinorTraceAll w).rt := by
  have hclear : NurseryKept w₀ (gcGenClearForwarding w) := { h with }
  unfold gcGenMinorTraceAll
  refine minorDrain _ (scanDirtyCards (scanRoots ?_))
  exact foldl GcGenMinorCtx.rt (fun _ r hc => hc.moveRef r) _ _ hclear

theorem finalizeFrom : ∀ (fuel cursor stop : Nat) {w : GenWorld}, NurseryKept w₀ w →
    NurseryKept w₀ (gcGenFinalizeFrom fuel cursor stop w)
  | 0, _, _, _, h => h.congr rfl rfl rfl rfl rfl
  | fuel + 1, cursor, stop, w, h => by
      rw [gcGenFinalizeFrom]
      split
      · split
        · exact h.congr rfl rfl rfl rfl rfl
        · exact finalizeFrom fuel _ stop (h.congr rfl rfl rfl rfl rfl)
      · exact h

end NurseryKept

/-- The runtime with an empty nursery. -/
def GenWorld.reset (w : GenWorld) : GenWorld :=
  { w with algoState := { w.algoState with nurseryUsed := 0 } }

/-- The runtime in which a minor collection starts to look for the dead young objects. -/
def GenWorld.traced (w : GenWorld) : GenWorld :=
  { (gcGenMinorTraceAll w).rt with
    worklistData := (gcGenMinorTraceAll w).wl.data
    worklistCapacity := (gcGenMinorTraceAll w).wl.capacity }

namespace NurseryKept

variable {w₀ w : GenWorld}

theorem traced (h : NurseryKept w₀ w) : NurseryKept w₀ w.traced :=
  h.minorTraceAll.congr rfl rfl rfl rfl rfl

/-- A minor collection empties the nursery. -/
theorem collectMinor (h : NurseryKept w₀ w) :
    NurseryKept w₀.reset (gcGenCollectMinorImpl w) := by
  have hspace : w.algoState.nurserySpace ≠ 0 := by
    rw [h.space]
    exact Nat.pos_iff_ne_zero.mp h.pos
  unfold gcGenCollectMinorImpl
  rw [if_neg (by simp [h.bound]), if_neg hspace]
  simp only
  split
  · next h0 => exact { h with used := h0 }
  · have hf := h.traced.finalizeFrom w.algoState.nurseryUsed w.traced.algoState.nurserySpace
      (w.traced.algoState.nurserySpace + w.algoState.nurseryUsed)
    have hdead : NurseryKept w₀ (gcGenFinalizeDeadNursery w.traced w.algoState.nurseryUsed) := by
      unfold gcGenFinalizeDeadNursery
      split
      · exact h.traced
      · exact hf.congr rfl rfl rfl rfl rfl
    exact { hdead with used := rfl }

/-! ### A full collection -/

/-- Reclaiming an object outside the nursery. -/
theorem reclaimOld (h : NurseryKept w₀ w) {a : Addr} (ha : w₀.Outside a) :
    NurseryKept w₀ (gcGenReclaimOld w a) := by
  have hrm : NurseryKept w₀ (gcGenRemoveOldNodeAccounting w a) := h.congr rfl rfl rfl rfl rfl
  unfold gcGenReclaimOld gcReclaimObject
  split
  · exact hrm
  · split
    · exact hrm.congr rfl rfl rfl rfl rfl
    · exact ((hrm.setObj ha none).free ha).congr rfl rfl rfl rfl rfl

theorem sweepNodes : ∀ (nodes : List GcNode) {w : GenWorld}, NurseryKept w₀ w →
    (∀ n ∈ nodes, w₀.Outside n.obj) →
    NurseryKept w₀ (Xgc.sweepNodes gcGenReclaimOld nodes w).2 ∧
      ∀ n ∈ (Xgc.sweepNodes gcGenReclaimOld nodes w).1, w₀.Outside n.obj
  | [], _, h, _ => ⟨h, fun _ hn => absurd hn List.not_mem_nil⟩
  | node :: nodes, w, h, hout => by
      have hrest : ∀ n ∈ nodes, w₀.Outside n.obj := fun n hn => hout n (List.mem_cons_of_mem _ hn)
      have hnode := hout node List.mem_cons_self
      rw [Xgc.sweepNodes]
      split
      · obtain ⟨hk, hkept⟩ := sweepNodes nodes h hrest
        refine ⟨hk, fun n hn => ?_⟩
        rcases List.mem_cons.mp hn with rfl | hn
        · exact hnode
        · exact hkept n hn
      · exact sweepNodes nodes (h.reclaimOld hnode) hrest

/-- A full collection empties the nursery, too. -/
theorem collectFull (h : NurseryKept w₀ w) : NurseryKept w₀.reset (gcGenCollectFullImpl w) := by
  have hm := h.collectMinor
  unfold gcGenCollectFullImpl
  rw [if_neg (by simp [h.bound])]
  simp only
  generalize gcGenCollectMinorImpl w = w₁ at hm ⊢
  have hctx : MarkKept (w₁.markCtx w₁.algoState.oldObjects) (gcGenMarkDrain w₁.graph
      w₁.algoState.oldObjects.length (markRoots w₁.graph (gcGenMarkHandles w₁.graph
        (w₁.markCtx w₁.algoState.oldObjects)))).1 :=
    ((MarkKept.markAll _ _).trans (MarkKept.markRoots _)).trans (MarkKept.markDrain _ _)
  generalize gcGenMarkDrain w₁.graph w₁.algoState.oldObjects.length _ = r at hctx ⊢
  have hnodes : ∀ n ∈ r.1.nodes, w₀.reset.Outside n.obj := by
    intro n hn
    have hmem : n.obj ∈ (w₁.markCtx w₁.algoState.oldObjects).nodes.map GcNode.obj :=
      hctx.nodes ▸ List.mem_map_of_mem hn
    obtain ⟨k, hk, hkn⟩ := List.mem_map.mp hmem
    exact hkn ▸ hm.old k hk
  have hmarked : NurseryKept w₀.reset
      { w₁.marked r with algoState := { w₁.algoState with oldObjects := r.1.nodes } } :=
    { hm with
      live := by
        show _ ∈ r.1.mem.blocks
        rw [hctx.blocks]
        exact hm.live
      old := hnodes }
  obtain ⟨hk, hkept⟩ := sweepNodes r.1.nodes hmarked hnodes
  exact { hk with old := hkept }

end NurseryKept

/-! ### Allocation -/

/-- Whether `gc_gen_alloc` takes the object from the nursery. -/
def ForNursery (w : GenWorld) (size : Nat) (flags : BitVec 32) : Prop :=
  flags &&& allocPinned = 0 ∧ alignedSize size ≤ w.algoState.nurseryCapacity / 2

/-- Whether an allocation starts with a minor collection, for want of room in the nursery. -/
def AllocCollects (w : GenWorld) (size : Nat) (flags : BitVec 32) : Prop :=
  sizeofHeader ≤ size ∧ ForNursery w size flags ∧
    w.algoState.nurseryCapacity < (w.algoState.nurseryUsed + alignedSize size) % 2 ^ 64

instance (w : GenWorld) (size : Nat) (flags : BitVec 32) : Decidable (ForNursery w size flags) := by
  unfold ForNursery
  infer_instance

instance (w : GenWorld) (size : Nat) (flags : BitVec 32) :
    Decidable (AllocCollects w size flags) := by
  unfold AllocCollects
  infer_instance

/-- The runtime in whose nursery `gc_gen_alloc` finds room. -/
def withRoom (w : GenWorld) (size : Nat) (flags : BitVec 32) : GenWorld :=
  if AllocCollects w size flags then gcGenCollectMinorImpl w else w

/-- The nursery is in its place, and no more of it is in use than there is. -/
structure GenWorld.Roomy (w : GenWorld) : Prop where
  kept : NurseryKept w w
  used_le : w.algoState.nurseryUsed ≤ w.algoState.nurseryCapacity
  capacity : w.algoState.nurseryCapacity ≤ ptrdiffMax

namespace GenWorld.Roomy

variable {w w' : GenWorld}

/-- What leaves the nursery alone. -/
theorem of_kept (h : w.Roomy) (hk : NurseryKept w w') : w'.Roomy where
  kept := hk.rebase
  used_le := by rw [hk.used, hk.capacity]; exact h.used_le
  capacity := by rw [hk.capacity]; exact h.capacity

/-- What empties it. -/
theorem of_reset (h : w.Roomy) (hk : NurseryKept w.reset w') : w'.Roomy where
  kept := hk.rebase
  used_le := by rw [hk.used]; exact Nat.zero_le _
  capacity := by rw [hk.capacity]; exact h.capacity

theorem withRoom (h : w.Roomy) (size : Nat) (flags : BitVec 32) :
    GenWorld.Roomy (withRoom w size flags) := by
  unfold Xgc.withRoom
  split
  · exact h.of_reset h.kept.collectMinor
  · exact h

/-- Making room leaves the nursery in its place. -/
theorem withRoom_place (h : w.Roomy) (size : Nat) (flags : BitVec 32) :
    (Xgc.withRoom w size flags).algoState.nurserySpace = w.algoState.nurserySpace ∧
      (Xgc.withRoom w size flags).algoState.nurseryCapacity = w.algoState.nurseryCapacity ∧
      (Xgc.withRoom w size flags).algoState.nurseryUsed =
        if AllocCollects w size flags then 0 else w.algoState.nurseryUsed := by
  have hk := h.kept.collectMinor
  unfold Xgc.withRoom
  split
  · exact ⟨hk.space, hk.capacity, hk.used⟩
  · exact ⟨rfl, rfl, rfl⟩

/-- There is room where `gc_gen_alloc` has collected for want of it. -/
theorem room (h : w.Roomy) {size : Nat} (hsize : sizeofHeader ≤ size) {flags : BitVec 32}
    (hyoung : ForNursery w size flags) :
    (Xgc.withRoom w size flags).algoState.nurseryUsed + alignedSize size ≤
      (Xgc.withRoom w size flags).algoState.nurseryCapacity := by
  obtain ⟨-, hcapacity, hused⟩ := h.withRoom_place size flags
  have hcap := h.capacity
  have hle := h.used_le
  have hhalf := hyoung.2
  rw [hcapacity, hused]
  split
  · omega
  · next hfull =>
    have hmod : (w.algoState.nurseryUsed + alignedSize size) % 2 ^ 64 =
        w.algoState.nurseryUsed + alignedSize size := by
      unfold ptrdiffMax at hcap
      omega
    rw [← hmod]
    exact Nat.not_lt.mp fun hlt => hfull ⟨hsize, hyoung, hlt⟩

/-- The ways through `gc_gen_alloc`. -/
theorem alloc_cases (h : w.Roomy) (desc : GcDescriptor) {size : Nat} (hsize : sizeofHeader ≤ size)
    (flags : BitVec 32) :
    (ForNursery w size flags ∧ gcGenAlloc w desc size flags =
      gcGenAllocYoung (Xgc.withRoom w size flags) desc (alignedSize size)) ∨
    (¬ ForNursery w size flags ∧
      gcGenAlloc w desc size flags = gcGenAllocOld w desc (alignedSize size) flags) := by
  have hsmall : ¬ ((!w.stateBound) = true ∨ size < sizeofHeader) := by
    simp [h.kept.bound, hsize]
  unfold gcGenAlloc
  rw [if_neg hsmall]
  simp only
  by_cases hyoung : ForNursery w size flags
  · have hroom := h.room hsize hyoung
    have hcap := (h.withRoom size flags).capacity
    unfold ptrdiffMax at hcap
    have hw : (if (w.algoState.nurseryUsed + alignedSize size) % 2 ^ 64 >
        w.algoState.nurseryCapacity then gcGenCollectMinorImpl w else w) =
        Xgc.withRoom w size flags := by
      unfold Xgc.withRoom
      exact if_congr ⟨fun hlt => ⟨hsize, hyoung, hlt⟩, fun hc => hc.2.2⟩ rfl rfl
    refine .inl ⟨hyoung, (if_pos hyoung).trans ?_⟩
    rw [hw, Nat.mod_eq_of_lt (by omega), if_pos hroom]
  · exact .inr ⟨hyoung, if_neg hyoung⟩

end GenWorld.Roomy

/-- Moreover the objects at `ys` tile the used part of the nursery. -/
structure NurseryInv (w : GenWorld) (ys : List Nat) : Prop extends GenWorld.Roomy w where
  tiles : Tiles w.graph w.algoState.nurserySpace w.algoState.nurseryUsed ys

namespace NurseryInv

variable {w w' : GenWorld} {ys : List Nat}

/-- Tiles lie in the nursery. -/
theorem inside (h : NurseryInv w ys) : ∀ y ∈ ys, ¬ w.Outside y := by
  intro y hy
  have hbounds := h.tiles.bounds y hy
  have hsize := h.tiles.header y hy
  have hle := h.used_le
  unfold sizeofHeader at hsize
  unfold GenWorld.Outside
  omega

/-- What keeps the nursery keeps the objects in it. -/
theorem of_kept (h : NurseryInv w ys) (hk : NurseryKept w w') : NurseryInv w' ys where
  toRoomy := h.toRoomy.of_kept hk
  tiles := by
    rw [hk.space, hk.used]
    refine h.tiles.congr fun y hy => ?_
    rw [Graph.sizeAt_eq_recorded, Graph.sizeAt_eq_recorded, hk.headers y (h.inside y hy)]

/-- A collection leaves no objects in it. -/
theorem of_reset (h : NurseryInv w ys) (hk : NurseryKept w.reset w') : NurseryInv w' [] where
  toRoomy := h.toRoomy.of_reset hk
  tiles := by rw [hk.used]; rfl

/-- Making room, too, leaves none. -/
theorem withRoom (h : NurseryInv w ys) (size : Nat) (flags : BitVec 32) :
    NurseryInv (withRoom w size flags) (if AllocCollects w size flags then [] else ys) := by
  unfold Xgc.withRoom
  split
  · exact h.of_reset h.kept.collectMinor
  · exact h

end NurseryInv

end Xgc
