import Xgc.Algo.GenWays
import Xgc.Algo.GenPhases
import Xgc.Algo.MarkRun

/-! The tracing of a minor collection as a run of single steps: moving the reference in one place, or
    taking one copy off the worklist. As for a mark phase nothing is asked of the order of the steps
    or of the shape of the graph; each young object is copied at most once, so each copy is pushed
    and traced at most once, and the loop that drains the worklist ends by itself. -/

namespace Xgc

open Lib

/-- The places that a minor collection visits: roots, handles, and the slots of the objects in the
    card table and of the copies. -/
def GcGenMinorCtx.Visits (ctx : GcGenMinorCtx) : SlotRef → Prop
  | .field a _ => a ∈ ctx.rt.barriers.owners ∨ ∃ v, Moved ctx.rt.fwd v a
  | _ => True

/-- One step of the tracing of a minor collection. The event is a push when an object has been copied,
    whether or not `gc_worklist_push` had room for the copy. -/
inductive MinorStep : GcGenMinorCtx → TraceEvent Addr → GcGenMinorCtx → Prop
  | known {ctx : GcGenMinorCtx} {r : SlotRef} (hr : ctx.Visits r)
    (h : (gcGenMoveRef ctx r).rt.fwd = ctx.rt.fwd) : MinorStep ctx .other (gcGenMoveRef ctx r)
  | copy {ctx : GcGenMinorCtx} {r : SlotRef} {t : Addr} (hr : ctx.Visits r)
    (h : (gcGenMoveRef ctx r).rt.fwd = { fromObj := ctx.rt.graph.read r, toObj := t } :: ctx.rt.fwd) :
    MinorStep ctx (.push t) (gcGenMoveRef ctx r)
  | pop {ctx : GcGenMinorCtx} (h : (gcWorklistPop ctx.wl).2 ≠ 0) :
    MinorStep ctx (.pop (gcWorklistPop ctx.wl).2) { ctx with wl := (gcWorklistPop ctx.wl).1 }
  | aside {ctx : GcGenMinorCtx} {m : Mem} {b : GcBarrierSet} {losses : Losses}
    (hm : m.blocks = ctx.rt.mem.blocks) (hb : b.owners = ctx.rt.barriers.owners) :
    MinorStep ctx .other { ctx with rt := { ctx.rt with mem := m, barriers := b, losses } }

/-! ### Moving one reference -/

/-- The runtime after a reference has been replaced by one to a new copy. -/
def movedTo (ctx : GcGenMinorCtx) (r : SlotRef) (t : Addr) (o : GcHeader) (m : Mem) (b : GcBarrierSet)
    (losses : Losses) : GenWorld :=
  let w := promoted ctx.rt (ctx.rt.graph.read r) t o m b losses
  { w with graph := w.graph.write r t }

theorem gcGenMoveRef_ways (ctx : GcGenMinorCtx) (r : SlotRef) :
    (∃ m b t losses, gcGenMoveRef ctx r = { ctx with rt := { ctx.rt with
        mem := m, barriers := b, losses, graph := ctx.rt.graph.write r t } } ∧
      b.owners = ctx.rt.barriers.owners ∧ m.blocks = ctx.rt.mem.blocks ∧
      (t = ctx.rt.graph.read r ∨ Moved ctx.rt.fwd (ctx.rt.graph.read r) t)) ∨
    ∃ t o m b losses wl, gcGenMoveRef ctx r = { rt := movedTo ctx r t o m b losses, wl } ∧
      PromotedTo ctx (ctx.rt.graph.read r) t o m b wl := by
  unfold gcGenMoveRef
  rcases gcGenPromote_ways ctx (ctx.rt.graph.read r) with
    ⟨m, b, t, refused, heq, hsame, hblocks, ht⟩ | ⟨t, o, m, b, losses, wl, heq, hto⟩
  · rw [heq]
    exact .inl ⟨m, b, t, _, rfl, hsame.owners, hblocks, ht⟩
  · rw [heq]
    exact .inr ⟨t, o, m, b, { losses with refused := losses.refused.filter (· ≠ r) }, wl, rfl, hto⟩

theorem MinorStep.moveRef {ctx : GcGenMinorCtx} {r : SlotRef} (hr : ctx.Visits r) :
    ∃ e, MinorStep ctx e (gcGenMoveRef ctx r) := by
  rcases gcGenMoveRef_ways ctx r with ⟨m, b, t, losses, heq, -⟩ | ⟨t, o, m, b, losses, wl, heq, -⟩
  · exact ⟨_, .known hr (by rw [heq])⟩
  · exact ⟨_, .copy (t := t) hr (by rw [heq]; rfl)⟩

/-- What is visited once may be visited again later. -/
theorem MinorStep.visits {ctx ctx' : GcGenMinorCtx} {e : TraceEvent Addr} (h : MinorStep ctx e ctx')
    {r : SlotRef} (hr : ctx.Visits r) : ctx'.Visits r := by
  have hmove : ∀ r', (gcGenMoveRef ctx r').Visits r := by
    intro r'
    cases r with
    | root i => trivial
    | handle k => trivial
    | field a p =>
      rcases gcGenMoveRef_ways ctx r' with
        ⟨m, b, t, losses, heq, howners, -⟩ | ⟨t, o, m, b, losses, wl, heq, hto⟩
      · rw [heq]
        exact hr.imp (fun ha => howners.symm ▸ ha) id
      · rw [heq]
        refine hr.imp (fun ha => ?_) fun ⟨v, hv⟩ => ⟨v, List.mem_cons_of_mem _ hv⟩
        show a ∈ b.owners
        rcases hto.owners with h | h
        · exact h.symm ▸ ha
        · exact h.symm ▸ List.mem_append_left _ ha
  cases h with
  | known => exact hmove _
  | copy => exact hmove _
  | pop => cases r <;> exact hr
  | aside hm hb =>
    cases r with
    | root i => trivial
    | handle k => trivial
    | field a p => exact hr.imp (fun ha => hb.symm ▸ ha) id

/-- No step is cut off, and none moves the nursery. -/
theorem MinorStep.same {ctx ctx' : GcGenMinorCtx} {e : TraceEvent Addr} (h : MinorStep ctx e ctx') :
    ctx'.rt.hung = ctx.rt.hung ∧
      ctx'.rt.algoState.nurserySpace = ctx.rt.algoState.nurserySpace := by
  have hmove : ∀ r, (gcGenMoveRef ctx r).rt.hung = ctx.rt.hung ∧
      (gcGenMoveRef ctx r).rt.algoState.nurserySpace = ctx.rt.algoState.nurserySpace := by
    intro r
    rcases gcGenMoveRef_ways ctx r with ⟨m, b, t, losses, heq, -⟩ | ⟨t, o, m, b, losses, wl, heq, -⟩
    · rw [heq]
      exact ⟨rfl, rfl⟩
    · rw [heq]
      exact ⟨rfl, rfl⟩
  cases h with
  | known | copy => exact hmove _
  | pop | aside => exact ⟨rfl, rfl⟩

/-! ### The loops are runs -/

section

variable {ctx : GcGenMinorCtx}

theorem evacuateSlot_run {r : SlotRef} (hr : ctx.Visits r) :
    ∃ events, Run MinorStep ctx events (gcGenEvacuateSlot ctx r) := by
  unfold gcGenEvacuateSlot
  split
  · exact ⟨[], .nil ctx⟩
  · obtain ⟨e, he⟩ := MinorStep.moveRef hr
    exact ⟨[e], .single he⟩

theorem Run.visits {ctx' : GcGenMinorCtx} {events : List (TraceEvent Addr)}
    (h : Run MinorStep ctx events ctx') {r : SlotRef} (hr : ctx.Visits r) : ctx'.Visits r :=
  h.invariant (P := fun c => c.Visits r) (fun _ _ _ hr hst => hst.visits hr) hr

/-- A loop over places that are visited is a run. -/
theorem foldl_run {f : GcGenMinorCtx → SlotRef → GcGenMinorCtx}
    (hf : ∀ c r, c.Visits r → ∃ events, Run MinorStep c events (f c r)) :
    ∀ (rs : List SlotRef) {ctx : GcGenMinorCtx}, (∀ r ∈ rs, ctx.Visits r) →
      ∃ events, Run MinorStep ctx events (rs.foldl f ctx)
  | [], ctx, _ => ⟨[], .nil ctx⟩
  | r :: rs, ctx, h => by
      obtain ⟨events, hrun⟩ := hf ctx r (h r List.mem_cons_self)
      obtain ⟨events', hrun'⟩ := foldl_run hf rs fun r' hr' =>
        Run.visits hrun (h r' (List.mem_cons_of_mem _ hr'))
      exact ⟨events ++ events', hrun.trans hrun'⟩

theorem scanHandles_run (ctx : GcGenMinorCtx) :
    ∃ events, Run MinorStep ctx events (gcGenMinorScanHandles ctx) := by
  refine foldl_run (fun c r hr => ?_) _ fun r hr => ?_
  · obtain ⟨e, he⟩ := MinorStep.moveRef hr
    exact ⟨[e], .single he⟩
  · obtain ⟨k, -, rfl⟩ := List.mem_map.mp hr
    trivial

theorem scanRoots_run (ctx : GcGenMinorCtx) :
    ∃ events, Run MinorStep ctx events (gcGenMinorScanRoots ctx) := by
  unfold gcGenMinorScanRoots
  split
  · refine foldl_run (fun c r hr => evacuateSlot_run hr) _ fun r hr => ?_
    obtain ⟨i, -, rfl⟩ := List.mem_map.mp hr
    trivial
  · exact ⟨[], .nil ctx⟩

/-- `gc_gen_minor_visit_dirty_card` moves references in slots of the owner only. -/
theorem visitDirtyCard_run {v : GcGenDirtyCardVisitCtx} {card : Addr × Nat}
    (hcard : ∀ p, v.minor.Visits (.field card.1 p)) :
    ∃ events, Run MinorStep v.minor events (gcGenMinorVisitDirtyCard v card).minor := by
  obtain ⟨owner, c⟩ := card
  unfold gcGenMinorVisitDirtyCard
  by_cases h0 : owner = 0
  · simp only [if_pos h0]
    exact ⟨[], .nil _⟩
  simp only [if_neg h0]
  split
  · exact ⟨[.other], .single (.aside rfl rfl)⟩
  · next o _ =>
    generalize gcTraceObjectSlotsInRange o _ _ = slots
    have hslots : ∀ r ∈ slots.map (SlotRef.field owner), v.minor.Visits r := by
      intro r hr
      obtain ⟨p, -, rfl⟩ := List.mem_map.mp hr
      exact hcard p
    obtain ⟨events, hrun⟩ := foldl_run (fun _ _ hr => evacuateSlot_run hr) _ hslots
    obtain ⟨m, owners, capacity, heq, hq, -⟩ := rememberOwner_cases
      { v with minor := (slots.map (SlotRef.field owner)).foldl gcGenEvacuateSlot v.minor } h0
    rw [heq]
    exact ⟨events ++ [.other], hrun.snoc (.aside hq.blocks rfl)⟩

theorem visitDirtyCards_run : ∀ (cards : List (Addr × Nat)) {v : GcGenDirtyCardVisitCtx},
    (∀ card ∈ cards, ∀ p, v.minor.Visits (.field card.1 p)) →
    ∃ events, Run MinorStep v.minor events (cards.foldl gcGenMinorVisitDirtyCard v).minor
  | [], v, _ => ⟨[], .nil v.minor⟩
  | card :: cards, v, h => by
      obtain ⟨events, hrun⟩ := visitDirtyCard_run (h card List.mem_cons_self)
      obtain ⟨events', hrun'⟩ := visitDirtyCards_run cards fun c hc p =>
        Run.visits hrun (h c (List.mem_cons_of_mem _ hc) p)
      exact ⟨events ++ events', hrun.trans hrun'⟩

theorem owners_clearOwner (b : GcBarrierSet) (owner : Nat) :
    (gcBarrierClearOwnerDirty b owner).owners = b.owners := by
  have hclean := (GcBarrierSet.sameOwners_updateEntry b owner GcCardEntry.clean (fun _ => rfl)
    (fun _ => rfl)).owners
  unfold gcBarrierClearOwnerDirty
  split
  · rfl
  · split
    · rfl
    · unfold gcCardTableUnaccountDirtyOwner
      split
      · exact hclean
      · exact hclean

theorem owners_clearOwners : ∀ (owners : List Nat) (b : GcBarrierSet),
    (owners.foldl gcBarrierClearOwnerDirty b).owners = b.owners
  | [], _ => rfl
  | owner :: owners, b => (owners_clearOwners owners _).trans (owners_clearOwner b owner)

/-- The dirty cards are those of objects in the card table. -/
theorem scanDirtyCards_run (ctx : GcGenMinorCtx) :
    ∃ events, Run MinorStep ctx events (gcGenMinorScanDirtyCards ctx) := by
  unfold gcGenMinorScanDirtyCards
  rcases GcBarrierSet.visitDirty_cases ctx.rt.barriers ctx.rt.mem with ⟨m, heq, hq⟩ | heq
  · simp only [heq]
    have hsnap : MinorStep ctx .other { ctx with rt := { ctx.rt with mem := m } } :=
      .aside hq.blocks rfl
    obtain ⟨events, hrun⟩ := visitDirtyCards_run ctx.rt.barriers.oldToYoung.snapshot
      (v := { minor := { ctx with rt := { ctx.rt with mem := m } }
              ownersToClear := [], ownerCapacity := 0 }) fun card hcard p => by
        obtain ⟨e, he, hc⟩ := List.mem_flatMap.mp hcard
        obtain ⟨c, -, rfl⟩ := List.mem_map.mp hc
        exact .inl (List.mem_map_of_mem he)
    exact ⟨_, ((Run.single hsnap).trans hrun).snoc (.aside rfl (owners_clearOwners _ _))⟩
  · simp only [heq]
    exact ⟨[.other], .single (.aside rfl rfl)⟩

theorem minorTrace_run {obj : Addr} (hobj : ∀ p, ctx.Visits (.field obj p)) :
    ∃ events, Run MinorStep ctx events (gcGenMinorTrace ctx obj) := by
  unfold gcGenMinorTrace
  split
  · exact ⟨[.other], .single (.aside rfl rfl)⟩
  · refine foldl_run (fun _ _ hr => evacuateSlot_run hr) _ fun r hr => ?_
    obtain ⟨p, -, rfl⟩ := List.mem_map.mp hr
    exact hobj p

end

/-! ### Once each -/

/-- The places that may still be visited when `ys` are the young objects. -/
def GcGenMinorCtx.Sees (ctx : GcGenMinorCtx) (ys : List Addr) (r : SlotRef) : Prop :=
  ctx.Visits r ∨ ∃ y ∈ ys, ∃ p, r = .field y p

/-- The nursery is a block of its own, and the objects in it that a minor collection may come by are
    among those at `ys`. -/
structure Enclosed (ys : List Addr) (ctx : GcGenMinorCtx) : Prop where
  block : (ctx.rt.algoState.nurserySpace, ctx.rt.algoState.nurseryCapacity) ∈ ctx.rt.mem.blocks
  closed : ∀ r, ctx.Sees ys r → gcGenInNursery ctx.rt.algoState (ctx.rt.graph.read r) = true →
    (ctx.rt.graph.objs (ctx.rt.graph.read r)).isSome = true → ctx.rt.graph.read r ∈ ys

/-- What every step of the tracing keeps. -/
structure MinorOnce (ys : List Addr) (ctx : GcGenMinorCtx) (events : List (TraceEvent Addr)) :
    Prop where
  enclosed : Enclosed ys ctx
  worklist : ctx.wl.Ok
  froms : ∀ v t, Moved ctx.rt.fwd v t → v ∈ ys
  nodup : (ctx.rt.fwd.map GcGenForward.fromObj).Nodup
  blocks : ∀ v t, Moved ctx.rt.fwd v t → ∃ n, (t, n) ∈ ctx.rt.mem.blocks
  outside : ∀ v t, Moved ctx.rt.fwd v t → gcGenInNursery ctx.rt.algoState t = false
  pushed : pushed events = (ctx.rt.fwd.map GcGenForward.toObj).reverse
  nonNull : 0 ∉ Lib.pushed events
  once : (Lib.pushed events).Nodup
  balanced : Balanced events ctx.wl.items

/-- A place holds what it held, or what was written. -/
theorem Graph.read_write_or (g : Graph) (r : SlotRef) (v : Addr) (r' : SlotRef) :
    (g.write r v).read r' = v ∨ (g.write r v).read r' = g.read r' := by
  by_cases hr : g.Has r
  · rw [Graph.read_write hr]
    split
    · exact .inl rfl
    · exact .inr rfl
  · right
    cases r with
    | root i => exact absurd trivial hr
    | handle k =>
      have hsame : (g.handles.map fun h => if h.addr = k then { h with target := v } else h) =
          g.handles := by
        conv_rhs => rw [← List.map_id g.handles]
        refine List.map_congr_left fun h hh => ?_
        rw [if_neg fun he => hr ⟨h, hh, he⟩]
        rfl
      cases r' with
      | root j => rfl
      | handle k' => exact Graph.target_congr hsame k'
      | field a p => rfl
    | field a p =>
      have hnone : g.objs a = none := by
        cases ho : g.objs a with
        | none => rfl
        | some o => exact absurd ⟨o, ho⟩ hr
      cases r' with
      | root j => rfl
      | handle k' => rfl
      | field b q =>
        refine Graph.slot_congr ?_ q
        by_cases hb : b = a
        · subst hb
          simp [Graph.write, hnone]
        · simp [Graph.write, hb]

/-- Writing a reference makes no object. -/
theorem Graph.write_isSome (g : Graph) (r : SlotRef) (v a : Addr) :
    ((g.write r v).objs a).isSome = (g.objs a).isSome := by
  cases r with
  | root i => rfl
  | handle k => rfl
  | field b p =>
    by_cases hab : a = b
    · subst hab
      simp [Graph.write]
    · simp [Graph.write, hab]

/-- A block that fits does not begin in the nursery. -/
theorem inNursery_of_fits {s : GenState} {m : Mem}
    (hblock : (s.nurserySpace, s.nurseryCapacity) ∈ m.blocks) {t n : Nat} (hfit : m.Fits t n) :
    gcGenInNursery s t = false := by
  obtain ⟨hne, hapart⟩ := hfit.2.2.2 _ hblock
  simp only at hne hapart
  unfold gcGenInNursery
  split
  · rfl
  · have := Nat.mod_le (s.nurserySpace + s.nurseryCapacity) (2 ^ 64)
    simp only [decide_eq_false_iff_not]
    omega

/-- An object that a copy has been made of, with its copy. -/
theorem moved_movedTo {ctx : GcGenMinorCtx} {r : SlotRef} {t : Addr} {o : GcHeader} {m : Mem}
    {b : GcBarrierSet} {losses : Losses} {v' t' : Addr}
    (h : Moved (movedTo ctx r t o m b losses).fwd v' t') :
    (v' = ctx.rt.graph.read r ∧ t' = t) ∨ Moved ctx.rt.fwd v' t' := by
  rcases List.mem_cons.mp h with he | h
  · exact .inl (by simpa using he)
  · exact .inr h

/-- A copy is made outside of the nursery, and its slots hold what those of the original hold. -/
theorem Enclosed.copy {ys : List Addr} {ctx : GcGenMinorCtx} (h : Enclosed ys ctx) {r : SlotRef}
    {t : Addr} {o : GcHeader} {m : Mem} {b : GcBarrierSet} {losses : Losses} {wl : GcWorklist}
    (hto : PromotedTo ctx (ctx.rt.graph.read r) t o m b wl) (hv : ctx.rt.graph.read r ∈ ys) :
    Enclosed ys { rt := movedTo ctx r t o m b losses, wl } := by
  have hout := inNursery_of_fits h.block hto.fits
  refine ⟨hto.blocks.symm ▸ List.mem_cons_of_mem _ h.block, fun r' hr' hin hobj => ?_⟩
  change gcGenInNursery ctx.rt.algoState _ = true at hin
  have hold : ∀ a, gcGenInNursery ctx.rt.algoState a = true →
      ((movedTo ctx r t o m b losses).graph.objs a).isSome = true →
      (ctx.rt.graph.objs a).isSome = true := by
    intro a ha hsome
    have hat : a ≠ t := fun he => by simp [he, hout] at ha
    simpa [movedTo, Graph.write_isSome, promoted, hat] using hsome
  have hobj := hold _ hin hobj
  rcases Graph.read_write_or (promoted ctx.rt (ctx.rt.graph.read r) t o m b losses).graph r t r'
    with he | he
  · change (movedTo ctx r t o m b losses).graph.read r' = t at he
    simp only [he, hout, Bool.false_eq_true] at hin
  · change (movedTo ctx r t o m b losses).graph.read r' = _ at he
    simp only [he] at hin hobj ⊢
    by_cases hself : ∃ p, r' = .field t p
    · obtain ⟨p, rfl⟩ := hself
      have hslot : (promoted ctx.rt (ctx.rt.graph.read r) t o m b losses).graph.read
          (.field t p) = ctx.rt.graph.read (.field (ctx.rt.graph.read r) p) :=
        Graph.slot_congr (by simp [promoted, hto.obj]) p
      rw [hslot] at hin hobj ⊢
      exact h.closed _ (.inr ⟨_, hv, p, rfl⟩) hin hobj
    · rw [read_promoted fun p hp => hself ⟨p, hp⟩] at hin hobj ⊢
      refine h.closed r' (hr'.imp (fun hvis => ?_) id) hin hobj
      cases r' with
      | root i => trivial
      | handle k => trivial
      | field a p =>
        have hat : a ≠ t := fun he => hself ⟨p, he ▸ rfl⟩
        refine hvis.imp (fun ha => ?_) ?_
        · change a ∈ b.owners at ha
          rcases hto.owners with ho | ho
          · exact ho ▸ ha
          · rw [ho, List.mem_append, List.mem_singleton] at ha
            exact ha.resolve_right hat
        · rintro ⟨v, hm⟩
          exact ⟨v, (moved_movedTo hm).resolve_left fun hboth => hat hboth.2⟩

namespace MinorOnce

variable {ys : List Addr} {ctx ctx' : GcGenMinorCtx} {events : List (TraceEvent Addr)}

theorem traced (h : MinorOnce ys ctx events) : TracedWorklist events ctx.wl :=
  ⟨h.worklist, h.nonNull, h.once, h.balanced⟩

theorem init (hc : Enclosed ys ctx) (hwl : ctx.wl.Ok) (hempty : ctx.wl.items = [])
    (hfwd : ctx.rt.fwd = []) : MinorOnce ys ctx [] := by
  have hnone : ∀ v t, ¬ Moved ctx.rt.fwd v t := by
    intro v t h
    rw [hfwd] at h
    exact nomatch h
  exact { TracedWorklist.init hwl hempty with
    enclosed := hc
    froms := fun v t h => absurd h (hnone v t)
    nodup := by rw [hfwd]; exact List.nodup_nil
    blocks := fun v t h => absurd h (hnone v t)
    outside := fun v t h => absurd h (hnone v t)
    pushed := by rw [hfwd]; rfl }

/-- A step that copies nothing. -/
theorem other (h : MinorOnce ys ctx events) {g : Graph} {m : Mem} {b : GcBarrierSet}
    {losses : Losses} (hm : m.blocks = ctx.rt.mem.blocks)
    (hc : Enclosed ys { ctx with rt := { ctx.rt with graph := g, mem := m, barriers := b, losses } }) :
    MinorOnce ys { ctx with rt := { ctx.rt with graph := g, mem := m, barriers := b, losses } }
      (events ++ [.other]) :=
  { h.traced.other with
    enclosed := hc
    froms := h.froms
    nodup := h.nodup
    blocks := fun v t hvt => by
      obtain ⟨n, hn⟩ := h.blocks v t hvt
      exact ⟨n, hm.symm ▸ hn⟩
    outside := h.outside
    pushed := by simpa using h.pushed }

/-- Writing a reference that leads out of the nursery, or that was there before. -/
theorem known (h : MinorOnce ys ctx events) {r : SlotRef} (hr : ctx.Visits r) {t : Addr}
    (ht : t = ctx.rt.graph.read r ∨ Moved ctx.rt.fwd (ctx.rt.graph.read r) t) {m : Mem}
    {b : GcBarrierSet} {losses : Losses} (hm : m.blocks = ctx.rt.mem.blocks)
    (hb : b.owners = ctx.rt.barriers.owners) :
    MinorOnce ys { ctx with rt := { ctx.rt with
        mem := m, barriers := b, losses, graph := ctx.rt.graph.write r t } }
      (events ++ [.other]) := by
  refine h.other hm ⟨hm.symm ▸ h.enclosed.block, fun r' hr' hin hobj => ?_⟩
  rw [Graph.write_isSome] at hobj
  have hsees : ctx.Sees ys r' := by
    refine hr'.imp (fun hv => ?_) id
    cases r' with
    | root i => trivial
    | handle k => trivial
    | field a p => exact hv.imp (fun ha => hb ▸ ha) id
  have hold := h.enclosed.closed
  rcases Graph.read_write_or ctx.rt.graph r t r' with he | he
  · simp only [he] at hin hobj ⊢
    rcases ht with rfl | ht
    · exact hold r (.inl hr) hin hobj
    · exact absurd hin (by rw [h.outside _ _ ht]; exact Bool.false_ne_true)
  · simp only [he] at hin hobj ⊢
    exact hold r' hsees hin hobj

/-- An object that is copied now has not been copied before, and its copy is new. -/
theorem copy (h : MinorOnce ys ctx events) {r : SlotRef} (hr : ctx.Visits r) {t : Addr}
    {o : GcHeader} {m : Mem} {b : GcBarrierSet} {losses : Losses} {wl : GcWorklist}
    (hto : PromotedTo ctx (ctx.rt.graph.read r) t o m b wl) :
    MinorOnce ys { rt := movedTo ctx r t o m b losses, wl } (events ++ [.push t]) := by
  have hv : ctx.rt.graph.read r ∈ ys :=
    h.enclosed.closed r (.inl hr) hto.young (by rw [hto.obj]; rfl)
  have hfresh : t ∉ Lib.pushed events := by
    rw [h.pushed, List.mem_reverse]
    intro hmem
    obtain ⟨e, he, rfl⟩ := List.mem_map.mp hmem
    obtain ⟨n, hn⟩ := h.blocks e.fromObj e.toObj he
    exact (hto.fits.2.2.2 _ hn).1 rfl
  have hnodup : ((movedTo ctx r t o m b losses).fwd.map GcGenForward.fromObj).Nodup := by
    refine List.nodup_cons.mpr ⟨fun hmem => ?_, h.nodup⟩
    obtain ⟨e, he, hev⟩ := List.mem_map.mp hmem
    change e.fromObj = ctx.rt.graph.read r at hev
    refine hto.fresh e.toObj ?_
    rw [← hev]
    exact he
  have hpushed : Lib.pushed (events ++ [.push t]) =
      ((movedTo ctx r t o m b losses).fwd.map GcGenForward.toObj).reverse := by
    rw [pushed_append, pushed_push, h.pushed]
    exact List.reverse_cons.symm
  have hwl : TracedWorklist (events ++ [.push t]) wl := by
    obtain ⟨m₀, m₁, ok, hpush⟩ := hto.worklist
    have hnext := h.traced.push (Nat.pos_iff_ne_zero.mp hto.fits.1) hfresh m₀
    rwa [hpush] at hnext
  refine { hwl with
    enclosed := h.enclosed.copy hto hv
    froms := fun v' t' hm => ?_
    nodup := hnodup
    blocks := fun v' t' hm => ?_
    outside := fun v' t' hm => ?_
    pushed := hpushed }
  · rcases moved_movedTo hm with ⟨rfl, -⟩ | hm
    · exact hv
    · exact h.froms v' t' hm
  · show ∃ n, (t', n) ∈ m.blocks
    rw [hto.blocks]
    rcases moved_movedTo hm with ⟨-, rfl⟩ | hm
    · exact ⟨_, List.mem_cons_self⟩
    · obtain ⟨n, hn⟩ := h.blocks v' t' hm
      exact ⟨n, List.mem_cons_of_mem _ hn⟩
  · rcases moved_movedTo hm with ⟨-, rfl⟩ | hm
    · exact inNursery_of_fits h.enclosed.block hto.fits
    · exact h.outside v' t' hm

/-- A pop takes the copy on top. -/
theorem pop (h : MinorOnce ys ctx events) {x : Addr} {rest : List Addr}
    (hi : ctx.wl.items = x :: rest) :
    ∃ wl, gcWorklistPop ctx.wl = (wl, x) ∧ x ≠ 0 ∧ (∀ p, ctx.Visits (.field x p)) ∧
      MinorOnce ys { ctx with wl } (events ++ [.pop x]) := by
  obtain ⟨wl, hpop, h0, hx, hnext⟩ := h.traced.pop hi
  have hmoved : ∃ v, Moved ctx.rt.fwd v x := by
    rw [h.pushed, List.mem_reverse] at hx
    obtain ⟨e, he, rfl⟩ := List.mem_map.mp hx
    exact ⟨_, he⟩
  have henclosed : Enclosed ys { ctx with wl } := by
    refine ⟨h.enclosed.block, fun r hr => h.enclosed.closed r (hr.imp (fun hv => ?_) id)⟩
    cases r <;> exact hv
  exact ⟨wl, hpop, h0, fun p => .inr hmoved, { hnext with
    enclosed := henclosed
    froms := h.froms
    nodup := h.nodup
    blocks := h.blocks
    outside := h.outside
    pushed := by simpa using h.pushed }⟩

theorem step (h : MinorOnce ys ctx events) {e : TraceEvent Addr} (hs : MinorStep ctx e ctx') :
    MinorOnce ys ctx' (events ++ [e]) := by
  cases hs with
  | known hr hfwd =>
    rcases gcGenMoveRef_ways ctx _ with
      ⟨m, b, t, losses, heq, howners, hblocks, ht⟩ | ⟨t, o, m, b, losses, wl, heq, -⟩
    · rw [heq]
      exact h.known hr ht hblocks howners
    · rw [heq] at hfwd
      exact absurd (congrArg List.length hfwd) (Nat.succ_ne_self _)
  | copy hr hfwd =>
    rcases gcGenMoveRef_ways ctx _ with
      ⟨m, b, t, losses, heq, -⟩ | ⟨t, o, m, b, losses, wl, heq, hto⟩
    · rw [heq] at hfwd
      exact absurd (congrArg List.length hfwd) (Nat.succ_ne_self _).symm
    · rw [heq] at hfwd ⊢
      obtain ⟨-, rfl⟩ := GcGenForward.mk.inj (List.cons.inj hfwd).1
      exact h.copy hr hto
  | pop hne =>
    cases hi : ctx.wl.items with
    | nil => exact absurd (by rw [GcWorklist.pop_nil h.worklist hi]) hne
    | cons x rest =>
      obtain ⟨wl, hpop, -, -, hnext⟩ := h.pop hi
      rw [hpop]
      exact hnext
  | aside hm hb =>
    refine h.other hm ⟨hm.symm ▸ h.enclosed.block, fun r hr => ?_⟩
    refine h.enclosed.closed r (hr.imp (fun hv => ?_) id)
    cases r with
    | root i => trivial
    | handle k => trivial
    | field a p => exact hv.imp (fun ha => hb ▸ ha) id

theorem run (h : MinorOnce ys ctx events) {events' : List (TraceEvent Addr)}
    (hrun : Run MinorStep ctx events' ctx') : MinorOnce ys ctx' (events ++ events') := by
  induction hrun with
  | nil => rwa [List.append_nil]
  | snoc _ hst ih =>
    rw [← List.append_assoc]
    exact ih.step hst

theorem pushed_le (h : MinorOnce ys ctx events) : (Lib.pushed events).length ≤ ys.length := by
  have hsub : ctx.rt.fwd.map GcGenForward.fromObj ⊆ ys := by
    intro v hv
    obtain ⟨e, he, rfl⟩ := List.mem_map.mp hv
    exact h.froms _ _ he
  have hle := (List.subperm_of_subset h.nodup hsub).length_le
  rw [h.pushed]
  simpa using hle

theorem onceEach (h : MinorOnce ys ctx events) : OnceEach ys.length events ctx.wl.items :=
  h.balanced.onceEach h.once h.pushed_le

/-- A round of the loop: the copy on top is taken off and its slots are gone through. -/
theorem round (h : MinorOnce ys ctx events) {x : Addr} {rest : List Addr}
    (hi : ctx.wl.items = x :: rest) (fuel : Nat) :
    ∃ ctx' more, Run MinorStep ctx ([.pop x] ++ more) ctx' ∧
      gcGenMinorDrain (fuel + 1) ctx = gcGenMinorDrain fuel ctx' := by
  obtain ⟨wl, hpop, h0, hvisits, -⟩ := h.pop hi
  have hstep : MinorStep ctx (.pop x) { ctx with wl } := by
    have hpopped := @MinorStep.pop ctx (by rw [hpop]; exact h0)
    rwa [hpop] at hpopped
  obtain ⟨more, hrun⟩ := minorTrace_run fun p => hstep.visits (hvisits p)
  exact ⟨_, more, (Run.single hstep).trans hrun, gcGenMinorDrain_cons hpop h0 fuel⟩

/-- With as many rounds as there are young objects whose copies have not been traced, the loop ends
    by itself. -/
theorem drain (fuel : Nat) (h : MinorOnce ys ctx events)
    (hfuel : ys.length ≤ (popped events).length + fuel) :
    (∃ events', Run MinorStep ctx events' (gcGenMinorDrain fuel ctx)) ∧
      (gcGenMinorDrain fuel ctx).rt.hung = ctx.rt.hung ∧ (gcGenMinorDrain fuel ctx).wl.items = [] := by
  obtain ⟨ctx', events', hrun, hi, heq⟩ := drain_ends MinorStep (MinorOnce ys)
    (fun h hrun => h.run hrun) (fun h => h.balanced) (fun h => h.pushed_le)
    (fun fuel h hi => gcGenMinorDrain_nil h.worklist hi fuel) (fun fuel h hi => h.round hi fuel)
    fuel h hfuel
  have hhung : ctx'.rt.hung = ctx.rt.hung :=
    hrun.invariant (P := fun c => c.rt.hung = ctx.rt.hung)
      (fun _ _ _ hc hst => hst.same.1.trans hc) rfl
  rw [heq]
  exact ⟨⟨events', hrun⟩, hhung, hi⟩

end MinorOnce

/-! ### The start of a collection -/

/-- Where the tracing of a minor collection starts. -/
def GenWorld.minorStart (w : GenWorld) : GcGenMinorCtx :=
  { rt := gcGenClearForwarding w, wl := w.worklist }

/-- The loops that come before the worklist is drained. -/
def GcGenMinorCtx.scanned (ctx : GcGenMinorCtx) : GcGenMinorCtx :=
  gcGenMinorScanDirtyCards (gcGenMinorScanRoots (gcGenMinorScanHandles ctx))

theorem gcGenMinorTraceAll_eq (w : GenWorld) : gcGenMinorTraceAll w =
    gcGenMinorDrain w.algoState.nurseryUsed w.minorStart.scanned := rfl

theorem scanned_run (ctx : GcGenMinorCtx) : ∃ events, Run MinorStep ctx events ctx.scanned := by
  obtain ⟨events₁, hrun₁⟩ := scanHandles_run ctx
  obtain ⟨events₂, hrun₂⟩ := scanRoots_run (gcGenMinorScanHandles ctx)
  obtain ⟨events₃, hrun₃⟩ := scanDirtyCards_run (gcGenMinorScanRoots (gcGenMinorScanHandles ctx))
  exact ⟨_, (hrun₁.trans hrun₂).trans hrun₃⟩

/-- Where all references are in order, the objects that the walk over the nursery meets will do. -/
theorem Enclosed.of_start {w : GenWorld} {ys : List Nat} (hs : MinorStart w ys) :
    Enclosed ys w.minorStart := by
  refine ⟨hs.ok.owns.live _ (GenOk.space_mem w), fun r hr hin _ => ?_⟩
  change gcGenInNursery w.algoState (w.graph.read r) = true at hin
  show w.graph.read r ∈ ys
  have hvalid : w.graph.read r = 0 ∨ w.graph.read r ∈ w.old ++ ys := by
    rcases hr with hv | ⟨y, hy, p, rfl⟩
    · cases r with
      | root i => exact hs.valid_held (r := .root i) trivial
      | handle k =>
        show w.graph.target k = 0 ∨ w.graph.target k ∈ w.old ++ ys
        unfold Graph.target
        split
        · next k' hf => exact .inr (hs.heap.handles k' (List.mem_of_find?_eq_some hf))
        · exact .inl rfl
      | field a p =>
        refine hs.valid_held (r := .field a p) ?_
        exact (owners_iff hs.ok.layout a).mp (hv.resolve_right fun ⟨v, hm⟩ => nomatch hm)
    · exact hs.valid_field hy p
  rcases hvalid with h0 | hmem
  · rw [h0] at hin
    exact nomatch hin
  · rcases List.mem_append.mp hmem with hold | hy
    · rw [hs.ok.inNursery_old hold] at hin
      exact nomatch hin
    · exact hy

end Xgc
