import Xgc.Algo.GenPromote

/-! The loop invariant of a minor collection, kept by every move of a reference, whether the
    requests that it makes are granted or refused.

    `w₀` is the runtime at the start of the collection and `ys` are its young objects. The invariant
    has three parts: `Copied` relates the heap to the one at the start, along the forwarding list;
    `Gray` says where each copy is (traced, on the worklist, or dropped); `Stale` says which places
    may still refer to young objects. -/

namespace Xgc

open Lib (Reach lookup lookup_eq_some lookup_eq_none)

/-- The forwarding list sends the object at `v` to `t`. -/
def Moved (F : List GcGenForward) (v t : Addr) : Prop := { fromObj := v, toObj := t } ∈ F

/-- The reference `v` is as it was, or has followed its object. -/
def Follows (F : List GcGenForward) (v v' : Addr) : Prop := v' = v ∨ Moved F v v'

/-- The old objects. -/
abbrev GenWorld.old (w : GenWorld) : List Addr := w.algoState.oldObjects.map GcNode.obj

/-- The forwarding list. -/
abbrev GenWorld.fwd (w : GenWorld) : List GcGenForward := w.algoState.forwarded

/-- The places outside of the nursery at the start of a collection. -/
def HeldBy (w₀ : GenWorld) : SlotRef → Prop
  | .root _ => True
  | .handle h => h ∈ w₀.graph.handles.map GcHandle.addr
  | .field a _ => a ∈ w₀.old

/-- The young objects that places outside of the nursery refer to. -/
def minorRoots (w₀ : GenWorld) (ys : List Nat) : Set Addr :=
  {v | v ∈ ys ∧ ∃ r, HeldBy w₀ r ∧ w₀.graph.read r = v}

/-- A reference to a young object. -/
def minorEdge (w₀ : GenWorld) (ys : List Nat) (a b : Addr) : Prop :=
  b ∈ ys ∧ ∃ p, w₀.graph.slot a p = b

/-- The heap is that of the start, with some young objects copied and some references moved. -/
structure Copied (w₀ : GenWorld) (ys : List Nat) (w : GenWorld) : Prop where
  ok : GenOk w ys
  hooks : w.graph.hooks = w₀.graph.hooks
  history : w.graph.history = w₀.graph.history
  log : w.graph.log = w₀.graph.log
  space : w.algoState.nurserySpace = w₀.algoState.nurserySpace
  capacity : w.algoState.nurseryCapacity = w₀.algoState.nurseryCapacity
  used : w.algoState.nurseryUsed = w₀.algoState.nurseryUsed
  marks : w.losses.marks = w₀.losses.marks
  peak : w₀.stats.peakAllocated ≤ w.stats.peakAllocated
  old : w.algoState.oldObjects =
    (w.fwd.map fun e => { obj := e.toObj, marked := false }) ++ w₀.algoState.oldObjects
  once : (w.fwd.map GcGenForward.fromObj).Nodup
  froms : ∀ v t, Moved w.fwd v t → v ∈ ys
  young : ∀ y ∈ ys, w.graph.objs y = w₀.graph.objs y
  kept : ∀ a ∈ w₀.old, ∀ o, w₀.graph.objs a = some o → ∃ s, w.graph.objs a = some (o.withSlots s)
  copies : ∀ v t, Moved w.fwd v t → ∀ o, w₀.graph.objs v = some o →
    ∃ s, w.graph.objs t = some (o.withSlots s)
  handles : w.graph.handles =
    w₀.graph.handles.map fun k => { k with target := w.graph.target k.addr }
  held : ∀ r, HeldBy w₀ r → Follows w.fwd (w₀.graph.read r) (w.graph.read r)
  fields : ∀ v t, Moved w.fwd v t → ∀ p, Follows w.fwd (w₀.graph.slot v p) (w.graph.slot t p)

/-- Each copy has been traced, is on the worklist, or was dropped by a push; whatever is copied can
    be reached through traced objects. -/
structure Gray (w₀ : GenWorld) (ys : List Nat) (ctx : GcGenMinorCtx) (traced : List Addr) :
    Prop where
  worklist : ctx.wl.Ok
  items : ctx.wl.items.Nodup
  gray : ∀ t ∈ ctx.wl.items, ∃ v, Moved ctx.rt.fwd v t ∧ v ∉ traced ∧
    w₀.graph.tagAt v ∉ ctx.rt.losses.copies
  split : ∀ v t, Moved ctx.rt.fwd v t →
    v ∈ traced ∨ t ∈ ctx.wl.items ∨ w₀.graph.tagAt v ∈ ctx.rt.losses.copies
  once : traced.Nodup
  tracedFrom : ∀ v ∈ traced, (∃ t, Moved ctx.rt.fwd v t) ∧ w₀.graph.tagAt v ∉ ctx.rt.losses.copies
  dropped : ∀ c ∈ ctx.rt.losses.copies, ∃ v t, Moved ctx.rt.fwd v t ∧ w₀.graph.tagAt v = c
  untouched : ∀ v t, Moved ctx.rt.fwd v t → w₀.graph.tagAt v ∈ ctx.rt.losses.copies →
    ∀ p, ctx.rt.graph.slot t p = w₀.graph.slot v p
  sound : ∀ v t, Moved ctx.rt.fwd v t →
    Reach (minorRoots w₀ ys) (fun a b => a ∈ traced ∧ minorEdge w₀ ys a b) v

/-- The places that may still refer to young objects: those in `todo`, which have not been touched,
    those whose last move was refused, and the slots of copies that have not been traced. -/
structure Stale (w₀ : GenWorld) (ys : List Nat) (ctx : GcGenMinorCtx) (todo : Set SlotRef) :
    Prop where
  held : ∀ r, HeldBy w₀ r → ctx.rt.graph.read r ∈ ys → r ∈ todo ∨ r ∈ ctx.rt.losses.refused
  fields : ∀ v t, Moved ctx.rt.fwd v t → ∀ p, ctx.rt.graph.slot t p ∈ ys →
    .field t p ∈ todo ∨ .field t p ∈ ctx.rt.losses.refused ∨ t ∈ ctx.wl.items ∨
      w₀.graph.tagAt v ∈ ctx.rt.losses.copies
  refused : ∀ r ∈ ctx.rt.losses.refused,
    (HeldBy w₀ r ∨ ∃ v t p, Moved ctx.rt.fwd v t ∧ r = .field t p) ∧ ctx.rt.graph.read r ∈ ys
  untouched : ∀ r ∈ todo, HeldBy w₀ r → ctx.rt.graph.read r = w₀.graph.read r
  granted : ctx.rt.mem.failed = false → ctx.rt.losses.refused = []

/-- The loop invariant of a minor collection. -/
structure MinorInv (w₀ : GenWorld) (ys : List Nat) (ctx : GcGenMinorCtx) (traced : List Addr)
    (todo : Set SlotRef) : Prop where
  copied : Copied w₀ ys ctx.rt
  gray : Gray w₀ ys ctx traced
  stale : Stale w₀ ys ctx todo

/-- What a minor collection starts from. -/
structure MinorStart (w₀ : GenWorld) (ys : List Nat) : Prop where
  ok : GenOk w₀ ys
  heap : HeapInv w₀.graph (w₀.old ++ ys)
  refused : w₀.losses.refused = []
  copies : w₀.losses.copies = []
  cards : w₀.losses.cards = false

/-! ### References during the collection -/

theorem Follows.mono {F F' : List GcGenForward} (h : ∀ e ∈ F, e ∈ F') {v v' : Addr}
    (hf : Follows F v v') : Follows F' v v' :=
  hf.imp_right (h _)

variable {w₀ : GenWorld} {ys : List Nat} {w : GenWorld}

/-- A copied object has one copy. -/
theorem Moved.unique (h : (w.fwd.map GcGenForward.fromObj).Nodup) {v t t' : Addr}
    (ht : Moved w.fwd v t) (ht' : Moved w.fwd v t') : t = t' := by
  have h₁ := (lookup_eq_some (k := v) h).mpr ⟨ht, rfl⟩
  have h₂ := (lookup_eq_some (k := v) h).mpr ⟨ht', rfl⟩
  rw [h₁] at h₂
  exact congrArg GcGenForward.toObj (Option.some.inj h₂)

namespace Copied

theorem mem_old (h : Copied w₀ ys w) {a : Addr} :
    a ∈ w.old ↔ (∃ v, Moved w.fwd v a) ∨ a ∈ w₀.old := by
  rw [GenWorld.old, h.old, List.map_append, List.mem_append, List.map_map]
  refine or_congr_left ?_
  simp only [List.mem_map, Function.comp_apply]
  constructor
  · rintro ⟨e, he, rfl⟩
    exact ⟨e.fromObj, he⟩
  · rintro ⟨v, hv⟩
    exact ⟨_, hv, rfl⟩

theorem to_notMem_old₀ (h : Copied w₀ ys w) {v t : Addr} (ht : Moved w.fwd v t) :
    t ∉ w₀.old := by
  have hnodup := h.ok.old_nodup
  rw [h.old, List.map_append, List.map_map] at hnodup
  intro hmem
  exact (List.nodup_append.mp hnodup).2.2 t (List.mem_map.mpr ⟨_, ht, rfl⟩) t hmem rfl

/-- Different objects have different copies. -/
theorem from_unique (h : Copied w₀ ys w) {v v' t : Addr} (ht : Moved w.fwd v t)
    (ht' : Moved w.fwd v' t) : v = v' := by
  have hnodup := h.ok.old_nodup
  rw [h.old, List.map_append, List.map_map] at hnodup
  have hinj := List.inj_on_of_nodup_map (List.nodup_append.mp hnodup).1 ht ht' rfl
  exact congrArg GcGenForward.fromObj hinj

theorem to_mem (h : Copied w₀ ys w) {v t : Addr} (ht : Moved w.fwd v t) : t ∈ w.old :=
  h.mem_old.mpr (.inl ⟨v, ht⟩)

theorem to_notMem (h : Copied w₀ ys w) {v t : Addr} (ht : Moved w.fwd v t) : t ∉ ys :=
  h.ok.old_notMem (h.to_mem ht)

/-- What a reference can be when it has followed a valid one. -/
theorem valid (h : Copied w₀ ys w) {v v' : Addr} (hv : v = 0 ∨ v ∈ w₀.old ++ ys)
    (hf : Follows w.fwd v v') : v' = 0 ∨ v' ∈ w.old ∨ v' ∈ ys := by
  rcases hf with rfl | hm
  · rcases hv with h0 | hv
    · exact .inl h0
    · rcases List.mem_append.mp hv with hv | hv
      · exact .inr (.inl (h.mem_old.mpr (.inr hv)))
      · exact .inr (.inr hv)
  · exact .inr (.inl (h.to_mem hm))

/-- A valid reference leads into the nursery exactly when it leads to a young object. -/
theorem inNursery_iff (h : Copied w₀ ys w) {v : Nat} (hv : v = 0 ∨ v ∈ w.old ∨ v ∈ ys) :
    gcGenInNursery w.algoState v = true ↔ v ∈ ys := by
  refine ⟨fun hin => ?_, h.ok.inNursery_young⟩
  rcases hv with rfl | hv | hv
  · simp [gcGenInNursery] at hin
  · rw [h.ok.inNursery_old hv] at hin
    exact nomatch hin
  · exact hv

/-- A reference to a young object has not followed anything. -/
theorem eq_of_young (h : Copied w₀ ys w) {v v' : Addr} (hf : Follows w.fwd v v') (hy : v' ∈ ys) :
    v' = v :=
  hf.resolve_right fun hm => h.to_notMem hm hy

theorem ne_zero_of_follows (h : Copied w₀ ys w) {v v' : Addr} (hf : Follows w.fwd v v') :
    v' ≠ 0 ↔ v ≠ 0 := by
  rcases hf with rfl | hm
  · exact Iff.rfl
  · exact ⟨fun _ => h.ok.young_ne_zero (h.froms _ _ hm), fun _ => h.ok.old_ne_zero (h.to_mem hm)⟩

end Copied

/-- The references outside of the nursery are valid at the start. -/
theorem MinorStart.valid_held (h : MinorStart w₀ ys) {r : SlotRef} (hr : HeldBy w₀ r) :
    w₀.graph.read r = 0 ∨ w₀.graph.read r ∈ w₀.old ++ ys := by
  cases r with
  | root i => exact (h.heap.roots i).imp_right And.right
  | handle a =>
    show w₀.graph.target a = 0 ∨ w₀.graph.target a ∈ w₀.old ++ ys
    unfold Graph.target
    split
    · next k hf => exact .inr (h.heap.handles k (List.mem_of_find?_eq_some hf))
    · exact .inl rfl
  | field a p => exact h.heap.fields a (List.mem_append_left _ hr) p

theorem MinorStart.valid_field (h : MinorStart w₀ ys) {v : Addr} (hv : v ∈ ys) (p : SlotLoc) :
    w₀.graph.slot v p = 0 ∨ w₀.graph.slot v p ∈ w₀.old ++ ys :=
  h.heap.fields v (List.mem_append_right _ hv) p

theorem MinorStart.tag_inj (h : MinorStart w₀ ys) {a b : Addr} (ha : a ∈ ys) (hb : b ∈ ys)
    (he : w₀.graph.tagAt a = w₀.graph.tagAt b) : a = b :=
  h.heap.tag_inj (List.mem_append_right _ ha) (List.mem_append_right _ hb) he

/-! ### Copying an object -/

/-- What a move of references leaves alone besides the invariant. -/
structure Moves (ctx ctx' : GcGenMinorCtx) : Prop where
  fwd : ∀ e ∈ ctx.rt.fwd, e ∈ ctx'.rt.fwd
  dirty : ∀ o c, ctx'.rt.barriers.Dirty o c ↔ ctx.rt.barriers.Dirty o c
  granularity :
    ctx'.rt.barriers.oldToYoung.cardGranularity = ctx.rt.barriers.oldToYoung.cardGranularity
  cards : ctx'.rt.losses.cards = ctx.rt.losses.cards
  failed : ctx'.rt.mem.failed = false → ctx.rt.mem.failed = false

theorem Moves.refl (ctx : GcGenMinorCtx) : Moves ctx ctx :=
  ⟨fun _ h => h, fun _ _ => Iff.rfl, rfl, rfl, id⟩

theorem Moves.trans {c c' c'' : GcGenMinorCtx} (h : Moves c c') (h' : Moves c' c'') :
    Moves c c'' :=
  ⟨fun e he => h'.fwd e (h.fwd e he), fun o k => (h'.dirty o k).trans (h.dirty o k),
    h'.granularity.trans h.granularity, h'.cards.trans h.cards, fun hf => h.failed (h'.failed hf)⟩

theorem findForward_none {s : GenState} {v : Addr} :
    gcGenFindForward s v = none ↔ ∀ t, ¬ Moved s.forwarded v t := by
  unfold gcGenFindForward
  rw [lookup_eq_none]
  constructor
  · exact fun h t ht => h _ ht rfl
  · rintro h e he rfl
    exact h e.toObj he

/-- Copying an object changes no place outside of the copy. -/
theorem read_promoted {v t : Addr} {o : GcHeader} {m : Mem} {b : GcBarrierSet} {losses : Losses}
    {r : SlotRef} (hr : ∀ p, r ≠ .field t p) :
    (promoted w v t o m b losses).graph.read r = w.graph.read r := by
  cases r with
  | root i => rfl
  | handle a => rfl
  | field a p =>
    have hne : a ≠ t := fun he => hr p (he ▸ rfl)
    exact Graph.slot_congr (by simp [promoted, hne]) p

theorem HeldBy.ne_field {r : SlotRef} (hr : HeldBy w₀ r) {t : Addr} (ht : t ∉ w₀.old)
    (p : SlotLoc) : r ≠ .field t p := by
  rintro rfl
  exact ht hr

theorem Copied.promoted (h : Copied w₀ ys w) {v t : Addr} (hv : v ∈ ys) {o : GcHeader}
    (ho : w.graph.objs v = some o) (hnew : ∀ t, ¬ Moved w.fwd v t) (hold : t ∉ w.old)
    (hyoung : t ∉ ys) {m : Mem} {b : GcBarrierSet} {losses : Losses}
    (hok : GenOk (promoted w v t o m b losses) ys) (hmarks : losses.marks = w.losses.marks) :
    Copied w₀ ys (promoted w v t o m b losses) := by
  have ht₀ : t ∉ w₀.old := fun hm => hold (h.mem_old.mpr (.inr hm))
  have hother : ∀ a, a ≠ t → (Xgc.promoted w v t o m b losses).graph.objs a = w.graph.objs a :=
    fun a ha => by simp [Xgc.promoted, ha]
  have hself : (Xgc.promoted w v t o m b losses).graph.objs t = some o := by
    simp [Xgc.promoted]
  have hsub : ∀ e ∈ w.fwd, e ∈ (Xgc.promoted w v t o m b losses).fwd :=
    fun e he => List.mem_cons_of_mem _ he
  have hto : ∀ v' t', Moved w.fwd v' t' → t' ≠ t := fun v' t' hm he => hold (he ▸ h.to_mem hm)
  have hcases : ∀ v' t', Moved (Xgc.promoted w v t o m b losses).fwd v' t' →
      (v' = v ∧ t' = t) ∨ Moved w.fwd v' t' := by
    intro v' t' hm
    rcases List.mem_cons.mp hm with he | hm
    · exact .inl ⟨congrArg GcGenForward.fromObj he, congrArg GcGenForward.toObj he⟩
    · exact .inr hm
  have ho₀ : w₀.graph.objs v = some o := (h.young v hv).symm.trans ho
  refine ⟨hok, h.hooks, h.history, h.log, h.space, h.capacity, h.used, hmarks.trans h.marks,
    h.peak.trans (GcStats.peak_le_add _ _), ?_, ?_, ?_, ?_, ?_, ?_, h.handles, ?_, ?_⟩
  · show { obj := t, marked := false } :: w.algoState.oldObjects = _
    rw [h.old]
    rfl
  · refine List.nodup_cons.mpr ⟨fun hm => ?_, h.once⟩
    obtain ⟨e, he, hev⟩ := List.mem_map.mp hm
    have hev' : e.fromObj = v := hev
    exact hnew e.toObj (by rw [Moved, ← hev']; exact he)
  · intro v' t' hm
    rcases hcases v' t' hm with ⟨rfl, -⟩ | hm
    · exact hv
    · exact h.froms v' t' hm
  · intro y hy
    rw [hother y fun he => hyoung (he ▸ hy)]
    exact h.young y hy
  · intro a ha o' ho'
    rw [hother a fun he => ht₀ (he ▸ ha)]
    exact h.kept a ha o' ho'
  · intro v' t' hm o' ho'
    rcases hcases v' t' hm with ⟨rfl, rfl⟩ | hm
    · rw [ho₀] at ho'
      obtain rfl := Option.some.inj ho'
      exact ⟨o.slots, hself⟩
    · rw [hother t' (hto v' t' hm)]
      exact h.copies v' t' hm o' ho'
  · intro r hr
    rw [read_promoted (hr.ne_field ht₀)]
    exact (h.held r hr).mono hsub
  · intro v' t' hm p
    rcases hcases v' t' hm with ⟨rfl, rfl⟩ | hm
    · rw [Graph.slot_eq ho₀, Graph.slot_eq hself]
      exact .inl rfl
    · rw [Graph.slot_congr (hother t' (hto v' t' hm))]
      exact (h.fields v' t' hm p).mono hsub

theorem Copied.setBarriers (h : Copied w₀ ys w) {m : Mem} {b : GcBarrierSet}
    (hok : GenOk { w with mem := m, barriers := b } ys) :
    Copied w₀ ys { w with mem := m, barriers := b } where
  ok := hok
  hooks := h.hooks
  history := h.history
  log := h.log
  space := h.space
  capacity := h.capacity
  used := h.used
  marks := h.marks
  peak := h.peak
  old := h.old
  once := h.once
  froms := h.froms
  young := h.young
  kept := h.kept
  copies := h.copies
  handles := h.handles
  held := h.held
  fields := h.fields

variable {ctx : GcGenMinorCtx} {traced : List Addr} {todo : Set SlotRef}

/-- The places that exist during a collection. -/
def Known (w₀ w : GenWorld) (r : SlotRef) : Prop :=
  HeldBy w₀ r ∨ ∃ v t p, Moved w.fwd v t ∧ r = .field t p

/-- The young object `o` at `v` has just been copied to `t`. -/
structure NewCopy (w₀ : GenWorld) (ys : List Nat) (ctx : GcGenMinorCtx) (v t : Addr)
    (o : GcHeader) (losses : Losses) (wl' : GcWorklist) : Prop where
  copied : Copied w₀ ys ctx.rt
  young : v ∈ ys
  obj : w₀.graph.objs v = some o
  new : ∀ t, ¬ Moved ctx.rt.fwd v t
  notOld : t ∉ ctx.rt.old
  pushed : Pushed ctx.rt ctx.wl t o losses wl'

namespace NewCopy

variable {v t : Addr} {o : GcHeader} {losses : Losses} {wl' : GcWorklist} {m : Mem}
  {b : GcBarrierSet}

theorem moved_cases {v' t' : Addr} (hm : Moved (promoted ctx.rt v t o m b losses).fwd v' t') :
    (v' = v ∧ t' = t) ∨ Moved ctx.rt.fwd v' t' := by
  rcases List.mem_cons.mp hm with he | hm
  · exact .inl ⟨congrArg GcGenForward.fromObj he, congrArg GcGenForward.toObj he⟩
  · exact .inr hm

theorem ne_to (h : NewCopy w₀ ys ctx v t o losses wl') {v' t' : Addr}
    (hm : Moved ctx.rt.fwd v' t') : t' ≠ t :=
  fun he => h.notOld (he ▸ h.copied.to_mem hm)

theorem ne_from (h : NewCopy w₀ ys ctx v t o losses wl') {v' t' : Addr}
    (hm : Moved ctx.rt.fwd v' t') : v' ≠ v := by
  rintro rfl
  exact h.new t' hm

theorem tag (h : NewCopy w₀ ys ctx v t o losses wl') : w₀.graph.tagAt v = o.tag :=
  Graph.tagAt_eq h.obj

/-- Copying an object changes no place that existed. -/
theorem read_eq (h : NewCopy w₀ ys ctx v t o losses wl') {r : SlotRef}
    (hr : Known w₀ ctx.rt r) :
    (promoted ctx.rt v t o m b losses).graph.read r = ctx.rt.graph.read r := by
  rcases hr with hr | ⟨v', t', p, hm, rfl⟩
  · exact read_promoted (hr.ne_field fun hm => h.notOld (h.copied.mem_old.mpr (.inr hm)))
  · refine read_promoted fun q he => h.ne_to hm ?_
    cases he
    rfl

theorem slot_eq (h : NewCopy w₀ ys ctx v t o losses wl') {v' t' : Addr}
    (hm : Moved ctx.rt.fwd v' t') (p : SlotLoc) :
    (promoted ctx.rt v t o m b losses).graph.slot t' p = ctx.rt.graph.slot t' p :=
  h.read_eq (r := .field t' p) (.inr ⟨v', t', p, hm, rfl⟩)

theorem slot_self (h : NewCopy w₀ ys ctx v t o losses wl') (p : SlotLoc) :
    (promoted ctx.rt v t o m b losses).graph.slot t p = w₀.graph.slot v p := by
  have hself : (promoted ctx.rt v t o m b losses).graph.objs t = some o := by simp [promoted]
  rw [Graph.slot_eq h.obj, Graph.slot_eq hself]

theorem losses_eq (h : NewCopy w₀ ys ctx v t o losses wl') : losses.marks = ctx.rt.losses.marks ∧
    losses.refused = ctx.rt.losses.refused ∧ losses.cards = ctx.rt.losses.cards := by
  rcases h.pushed with ⟨rfl, -⟩ | ⟨rfl, -⟩ <;> exact ⟨rfl, rfl, rfl⟩

theorem dropped_of (h : NewCopy w₀ ys ctx v t o losses wl') {c : Nat}
    (hc : c ∈ ctx.rt.losses.copies) : c ∈ losses.copies := by
  rcases h.pushed with ⟨rfl, -⟩ | ⟨rfl, -⟩
  · exact hc
  · exact List.mem_append_left _ hc

theorem dropped_cases (h : NewCopy w₀ ys ctx v t o losses wl') {c : Nat}
    (hc : c ∈ losses.copies) : c ∈ ctx.rt.losses.copies ∨ c = w₀.graph.tagAt v := by
  rcases h.pushed with ⟨rfl, -⟩ | ⟨rfl, -⟩
  · exact .inl hc
  · rw [h.tag]
    exact (List.mem_append.mp hc).imp_right List.mem_singleton.mp

/-- An older copy is not dropped now. -/
theorem dropped_older (hs : MinorStart w₀ ys) (h : NewCopy w₀ ys ctx v t o losses wl')
    {v' t' : Addr} (hm : Moved ctx.rt.fwd v' t') (hd : w₀.graph.tagAt v' ∈ losses.copies) :
    w₀.graph.tagAt v' ∈ ctx.rt.losses.copies :=
  (h.dropped_cases hd).resolve_right fun he =>
    h.ne_from hm (hs.tag_inj (h.copied.froms v' t' hm) h.young he)

/-- The copy is on the worklist or has been dropped. -/
theorem place (h : NewCopy w₀ ys ctx v t o losses wl') :
    t ∈ wl'.items ∨ w₀.graph.tagAt v ∈ losses.copies := by
  rcases h.pushed with ⟨-, hi⟩ | ⟨rfl, -⟩
  · exact .inl (by rw [hi]; exact List.mem_cons_self ..)
  · exact .inr (by rw [h.tag]; exact List.mem_append_right _ (List.mem_singleton_self _))

theorem items_of (h : NewCopy w₀ ys ctx v t o losses wl') {x : Addr} (hx : x ∈ ctx.wl.items) :
    x ∈ wl'.items := by
  rcases h.pushed with ⟨-, hi⟩ | ⟨-, rfl⟩
  · rw [hi]
    exact List.mem_cons_of_mem _ hx
  · exact hx

theorem items_cases (h : NewCopy w₀ ys ctx v t o losses wl') {x : Addr} (hx : x ∈ wl'.items) :
    x ∈ ctx.wl.items ∨ (x = t ∧ losses = ctx.rt.losses) := by
  rcases h.pushed with ⟨hl, hi⟩ | ⟨-, rfl⟩
  · rw [hi, List.mem_cons] at hx
    exact hx.symm.imp_right fun he => ⟨he, hl⟩
  · exact .inl hx

end NewCopy

/-- A new copy is gray, or dropped. -/
theorem Gray.newCopy (hs : MinorStart w₀ ys) (h : Gray w₀ ys ctx traced) {v t : Addr}
    {o : GcHeader} {losses : Losses} {wl' : GcWorklist} {m : Mem} {b : GcBarrierSet}
    (hn : NewCopy w₀ ys ctx v t o losses wl') (hwl : wl'.Ok)
    (hsound : Reach (minorRoots w₀ ys) (fun a b => a ∈ traced ∧ minorEdge w₀ ys a b) v) :
    Gray w₀ ys { rt := promoted ctx.rt v t o m b losses, wl := wl' } traced where
  worklist := hwl
  items := by
    show wl'.items.Nodup
    rcases hn.pushed with ⟨-, hi⟩ | ⟨-, rfl⟩
    · rw [hi]
      refine List.nodup_cons.mpr ⟨fun hm => ?_, h.items⟩
      obtain ⟨v', hm', -⟩ := h.gray t hm
      exact hn.ne_to hm' rfl
    · exact h.items
  gray x hx := by
    rcases hn.items_cases hx with hx | ⟨rfl, hl⟩
    · obtain ⟨v', hm, hnt, hnd⟩ := h.gray x hx
      exact ⟨v', List.mem_cons_of_mem _ hm, hnt, fun hd => hnd (hn.dropped_older hs hm hd)⟩
    · refine ⟨v, List.mem_cons_self .., fun ht => ?_, fun hd => ?_⟩
      · obtain ⟨t', hm⟩ := (h.tracedFrom v ht).1
        exact hn.new t' hm
      · obtain ⟨v', t', hm, he⟩ := h.dropped _ (hl ▸ hd)
        exact hn.ne_from hm (hs.tag_inj (hn.copied.froms _ _ hm) hn.young he)
  split v' t' hm := by
    rcases NewCopy.moved_cases hm with ⟨rfl, rfl⟩ | hm
    · exact .inr hn.place
    · exact (h.split v' t' hm).imp_right (Or.imp hn.items_of hn.dropped_of)
  once := h.once
  tracedFrom v' hv' := by
    obtain ⟨⟨t', hm⟩, hnd⟩ := h.tracedFrom v' hv'
    exact ⟨⟨t', List.mem_cons_of_mem _ hm⟩, fun hd => hnd (hn.dropped_older hs hm hd)⟩
  dropped c hc := by
    rcases hn.dropped_cases hc with hc | rfl
    · obtain ⟨v', t', hm, he⟩ := h.dropped c hc
      exact ⟨v', t', List.mem_cons_of_mem _ hm, he⟩
    · exact ⟨v, t, List.mem_cons_self .., rfl⟩
  untouched v' t' hm hd p := by
    rcases NewCopy.moved_cases hm with ⟨rfl, rfl⟩ | hm
    · exact hn.slot_self p
    · exact (hn.slot_eq hm p).trans (h.untouched v' t' hm (hn.dropped_older hs hm hd) p)
  sound v' t' hm := by
    rcases NewCopy.moved_cases hm with ⟨rfl, -⟩ | hm
    · exact hsound
    · exact h.sound v' t' hm

/-- The slots of a new copy are dealt with when it is taken off the worklist. -/
theorem Stale.newCopy (h : Stale w₀ ys ctx todo) {v t : Addr} {o : GcHeader} {losses : Losses}
    {wl' : GcWorklist} {m : Mem} {b : GcBarrierSet} (hn : NewCopy w₀ ys ctx v t o losses wl')
    (hfailed : m.failed = false → ctx.rt.mem.failed = false) :
    Stale w₀ ys { rt := promoted ctx.rt v t o m b losses, wl := wl' } todo where
  held r hr hy := by
    rw [show (promoted ctx.rt v t o m b losses).graph.read r = _ from hn.read_eq (.inl hr)] at hy
    show r ∈ todo ∨ r ∈ losses.refused
    rw [hn.losses_eq.2.1]
    exact h.held r hr hy
  fields v' t' hm p hy := by
    show .field t' p ∈ todo ∨ .field t' p ∈ losses.refused ∨ t' ∈ wl'.items ∨
      w₀.graph.tagAt v' ∈ losses.copies
    rw [hn.losses_eq.2.1]
    rcases NewCopy.moved_cases hm with ⟨rfl, rfl⟩ | hm
    · exact .inr (.inr hn.place)
    · rw [show (promoted ctx.rt v t o m b losses).graph.slot t' p = _ from hn.slot_eq hm p] at hy
      exact (h.fields v' t' hm p hy).imp_right
        (Or.imp_right (Or.imp hn.items_of hn.dropped_of))
  refused r hr := by
    obtain ⟨hk, hy⟩ := h.refused r (hn.losses_eq.2.1 ▸ hr)
    refine ⟨hk.imp_right ?_, ?_⟩
    · rintro ⟨v', t', p, hm, he⟩
      exact ⟨v', t', p, List.mem_cons_of_mem _ hm, he⟩
    · rw [show (promoted ctx.rt v t o m b losses).graph.read r = _ from hn.read_eq hk]
      exact hy
  untouched r hr hh :=
    (hn.read_eq (.inl hh)).trans (h.untouched r hr hh)
  granted hf := hn.losses_eq.2.1.trans (h.granted (hfailed hf))

/-- `gc_gen_promote` on a reference that is justified if it leads into the nursery. -/
theorem MinorInv.promote (hs : MinorStart w₀ ys) (h : MinorInv w₀ ys ctx traced todo) {v : Nat}
    (hv : v = 0 ∨ v ∈ ctx.rt.old ∨ v ∈ ys)
    (hsound : v ∈ ys → Reach (minorRoots w₀ ys) (fun a b => a ∈ traced ∧ minorEdge w₀ ys a b) v) :
    ∃ ctx' v' refused, gcGenPromote ctx v = (ctx', v', refused) ∧
      MinorInv w₀ ys ctx' traced todo ∧ Moves ctx ctx' ∧ Follows ctx'.rt.fwd v v' ∧
      (refused = true ↔ v' ∈ ys) ∧ (refused = true → ctx'.rt.mem.failed = true) ∧
      ctx'.rt.losses.refused = ctx.rt.losses.refused ∧
      ∀ r, Known w₀ ctx.rt r → ctx'.rt.graph.read r = ctx.rt.graph.read r := by
  have hc := h.copied
  by_cases hy : v ∈ ys
  swap
  · have hin : gcGenInNursery ctx.rt.algoState v = false := by
      rw [Bool.eq_false_iff, ne_eq, hc.inNursery_iff hv]
      exact hy
    exact ⟨ctx, v, false, by simp [gcGenPromote, hin], h, .refl ctx, .inl rfl, by simpa using hy,
      by simp, rfl, fun _ _ => rfl⟩
  have hin := hc.ok.inNursery_young hy
  cases hf : gcGenFindForward ctx.rt.algoState v with
  | some e =>
    obtain ⟨he, hev⟩ := Lib.mem_of_lookup hf
    have hm : Moved ctx.rt.fwd v e.toObj := by rw [Moved, ← hev]; exact he
    exact ⟨ctx, e.toObj, false, by simp [gcGenPromote, hin, hf], h, .refl ctx, .inr hm,
      by simpa using hc.to_notMem hm, by simp, rfl, fun _ _ => rfl⟩
  | none =>
    obtain ⟨o, ho₀, -⟩ := hs.heap.objs v (List.mem_append_right _ hy)
    have ho : ctx.rt.graph.objs v = some o := (hc.young v hy).trans ho₀
    rcases gcGenPromote_cases hc.ok h.gray.worklist hy ho hf with
      ⟨b, m, heq, hfail, hok, hcards⟩ |
      ⟨t, b, m, losses, wl', heq, hfit, hok, hdirty, hgran, hmem, hwl', hpush⟩
    · refine ⟨_, v, true, heq, ⟨hc.setBarriers hok, ?_, ?_⟩, ?_, .inl rfl, by simpa using hy,
        fun _ => hfail, rfl, fun _ _ => rfl⟩
      · exact { h.gray with }
      · refine ⟨h.stale.held, h.stale.fields, h.stale.refused, h.stale.untouched, fun hf' => ?_⟩
        rw [hfail] at hf'
        exact nomatch hf'
      · refine ⟨fun _ he => he, hcards.dirty, hcards.granularity, rfl, fun hf' => ?_⟩
        rw [hfail] at hf'
        exact nomatch hf'
    · have hpos : 0 < o.size := by
        have := (hc.ok.layout.sized v (List.mem_append_right _ hy)).1
        rw [Graph.sizeAt_eq ho] at this
        unfold sizeofHeader at this
        omega
      obtain ⟨hold, hyoung, -⟩ := hc.ok.fresh_of_fits hfit hpos
      have hn : NewCopy w₀ ys ctx v t o losses wl' :=
        ⟨hc, hy, ho₀, findForward_none.mp hf, hold, hpush⟩
      exact ⟨_, t, false, heq,
        ⟨hc.promoted hy ho hn.new hold hyoung hok hn.losses_eq.1,
          h.gray.newCopy hs hn hwl' (hsound hy), h.stale.newCopy hn hmem⟩,
        ⟨fun _ he => List.mem_cons_of_mem _ he, hdirty, hgran, hn.losses_eq.2.2, hmem⟩,
        .inr (List.mem_cons_self ..), by simpa using hyoung, by simp, hn.losses_eq.2.1,
        fun r hr => hn.read_eq hr⟩

/-! ### Writing the new reference -/

namespace Copied

theorem follows_trans (h : Copied w₀ ys w) {u v v' : Addr} (hu : Follows w.fwd u v)
    (hv : Follows w.fwd v v') : Follows w.fwd u v' := by
  rcases hu with rfl | hm
  · exact hv
  · rcases hv with rfl | hm'
    · exact .inr hm
    · exact absurd (h.froms _ _ hm') (h.to_notMem hm)

theorem has (hs : MinorStart w₀ ys) (h : Copied w₀ ys w) {r : SlotRef} (hr : Known w₀ w r) :
    w.graph.Has r := by
  rcases hr with hr | ⟨v, t, p, hm, rfl⟩
  · cases r with
    | root i => trivial
    | handle a =>
      obtain ⟨k, hk, hka⟩ := List.mem_map.mp hr
      show ∃ k ∈ w.graph.handles, k.addr = a
      rw [h.handles]
      exact ⟨_, List.mem_map_of_mem hk, hka⟩
    | field a p =>
      obtain ⟨o, ho, -⟩ := hs.heap.objs a (List.mem_append_left _ hr)
      obtain ⟨s, hs'⟩ := h.kept a hr o ho
      exact ⟨_, hs'⟩
  · obtain ⟨o, ho, -⟩ := hs.heap.objs v (List.mem_append_right _ (h.froms v t hm))
    obtain ⟨s, hs'⟩ := h.copies v t hm o ho
    exact ⟨_, hs'⟩

/-- A place is no slot of a young object. -/
theorem known_ne_young (h : Copied w₀ ys w) {r : SlotRef} (hr : Known w₀ w r) {y : Addr}
    (hy : y ∈ ys) (p : SlotLoc) : r ≠ .field y p := by
  rintro rfl
  rcases hr with hr | ⟨v, t, q, hm, he⟩
  · exact h.ok.old_notMem (h.mem_old.mpr (.inr hr)) hy
  · cases he
    exact h.to_notMem hm hy

/-- A reference may be replaced by where it has been moved to. -/
theorem write (hs : MinorStart w₀ ys) (h : Copied w₀ ys w) {r : SlotRef} (hr : Known w₀ w r)
    {v' : Addr} (hf : Follows w.fwd (w.graph.read r) v') {losses : Losses}
    (hmarks : losses.marks = w.losses.marks) :
    Copied w₀ ys { w with graph := w.graph.write r v', losses } := by
  have hread := Graph.read_write (h.has hs hr) v'
  obtain ⟨f, hhandles⟩ := w.graph.write_handles r v'
  have hok : GenOk { w with graph := w.graph.write r v', losses } ys := by
    refine h.ok.setGraph _ (fun a _ => w.graph.sizeAt_write r v' a) ?_ ?_
    · rw [hhandles, List.map_map]
      rfl
    · intro k hk
      rw [hhandles] at hk
      obtain ⟨k', hk', rfl⟩ := List.mem_map.mp hk
      exact h.ok.rt.runtime k' hk'
  have hstep : ∀ r', ∀ u, Follows w.fwd u (w.graph.read r') →
      Follows w.fwd u ((w.graph.write r v').read r') := by
    intro r' u hu
    rw [hread]
    split
    · next he => exact h.follows_trans (he ▸ hu) hf
    · exact hu
  have hobjs : ∀ a o, (∃ s, w.graph.objs a = some (GcHeader.withSlots o s)) →
      ∃ s, (w.graph.write r v').objs a = some (GcHeader.withSlots o s) := by
    rintro a o ⟨s, hs'⟩
    obtain ⟨s', hs''⟩ := Graph.write_objs r v' hs'
    exact ⟨s', hs''⟩
  refine ⟨hok, (w.graph.write_hooks r v').trans h.hooks,
    (w.graph.write_history r v').trans h.history, (w.graph.write_log r v').trans h.log, h.space,
    h.capacity, h.used, hmarks.trans h.marks, h.peak, h.old, h.once, h.froms, fun y hy => ?_,
    fun a ha o ho => hobjs a o (h.kept a ha o ho),
    fun v t hm o ho => hobjs t o (h.copies v t hm o ho), ?_,
    fun r' hr' => hstep r' _ (h.held r' hr'), fun v t hm p => hstep (.field t p) _ (h.fields v t hm p)⟩
  · show (w.graph.write r v').objs y = _
    rw [Graph.write_objs_of_ne v' (h.known_ne_young hr hy)]
    exact h.young y hy
  · have htarget : ∀ a, (w.graph.write r v').target a =
        if .handle a = r then v' else w.graph.target a := fun a => hread (.handle a)
    show (w.graph.write r v').handles =
      w₀.graph.handles.map fun k => { k with target := (w.graph.write r v').target k.addr }
    simp only [htarget]
    cases r with
    | root i =>
      show w.graph.handles = _
      simpa using h.handles
    | field a p =>
      show w.graph.handles = _
      simpa using h.handles
    | handle a =>
      show (w.graph.handles.map fun k => if k.addr = a then { k with target := v' } else k) = _
      rw [h.handles, List.map_map]
      refine List.map_congr_left fun k _ => ?_
      by_cases hk : k.addr = a <;> simp [hk]

end Copied

/-- A place that may be moved now: outside of the nursery at the start, or a slot of a copy that is
    being traced. -/
def Place (w₀ : GenWorld) (F : List GcGenForward) (traced : List Addr) (r : SlotRef) : Prop :=
  HeldBy w₀ r ∨ ∃ v t p, Moved F v t ∧ v ∈ traced ∧ r = .field t p

theorem Place.mono {F F' : List GcGenForward} (h : ∀ e ∈ F, e ∈ F') {r : SlotRef}
    (hr : Place w₀ F traced r) : Place w₀ F' traced r :=
  hr.imp_right fun ⟨v, t, p, hm, hv, he⟩ => ⟨v, t, p, h _ hm, hv, he⟩

theorem Place.known {r : SlotRef} (hr : Place w₀ w.fwd traced r) : Known w₀ w r :=
  hr.imp_right fun ⟨v, t, p, hm, _, he⟩ => ⟨v, t, p, hm, he⟩

/-- The reference in a place is valid, and justified if it leads into the nursery. -/
theorem MinorInv.place (hs : MinorStart w₀ ys) (h : MinorInv w₀ ys ctx traced todo) {r : SlotRef}
    (hr : Place w₀ ctx.rt.fwd traced r) :
    (ctx.rt.graph.read r = 0 ∨ ctx.rt.graph.read r ∈ ctx.rt.old ∨ ctx.rt.graph.read r ∈ ys) ∧
      (ctx.rt.graph.read r ∈ ys → Reach (minorRoots w₀ ys)
        (fun a b => a ∈ traced ∧ minorEdge w₀ ys a b) (ctx.rt.graph.read r)) := by
  rcases hr with hr | ⟨v, t, p, hm, hv, rfl⟩
  · have hf := h.copied.held r hr
    refine ⟨h.copied.valid (hs.valid_held hr) hf, fun hy => ?_⟩
    exact .root ⟨hy, r, hr, (h.copied.eq_of_young hf hy).symm⟩
  · have hf := h.copied.fields v t hm p
    refine ⟨h.copied.valid (hs.valid_field (h.copied.froms v t hm) p) hf, fun hy => ?_⟩
    exact .step (h.gray.sound v t hm) ⟨hv, hy, p, (h.copied.eq_of_young hf hy).symm⟩

/-- Writing a reference into a place that may be moved: no dropped copy is being traced. -/
theorem Gray.write (h : Gray w₀ ys ctx traced) (hc : Copied w₀ ys ctx.rt) {r : SlotRef}
    (hr : Place w₀ ctx.rt.fwd traced r) {v' : Addr}
    (hread : ∀ r', (ctx.rt.graph.write r v').read r' = if r' = r then v' else ctx.rt.graph.read r')
    (refused : List SlotRef) :
    Gray w₀ ys { ctx with rt := { ctx.rt with
      graph := ctx.rt.graph.write r v', losses := { ctx.rt.losses with refused } } } traced := by
  refine { h with untouched := fun v t hm hd p => ?_ }
  show (ctx.rt.graph.write r v').read (.field t p) = _
  rw [hread, if_neg]
  · exact h.untouched v t hm hd p
  · rintro rfl
    rcases hr with hr' | ⟨u, t', q, hm', hu, he⟩
    · exact hc.to_notMem_old₀ hm hr'
    · cases he
      obtain rfl := hc.from_unique hm hm'
      exact (h.tracedFrom v hu).2 hd

/-- Writing a reference deals with its place, unless it still leads into the nursery. -/
theorem Stale.write (h : Stale w₀ ys ctx todo) {r : SlotRef} (hr : Known w₀ ctx.rt r) {v' : Addr}
    (hread : ∀ r', (ctx.rt.graph.write r v').read r' = if r' = r then v' else ctx.rt.graph.read r')
    {refused : List SlotRef} (hmem : ∀ r', r' ∈ refused ↔
      (r' ∈ ctx.rt.losses.refused ∧ r' ≠ r) ∨ (r' = r ∧ v' ∈ ys))
    (hgranted : ctx.rt.mem.failed = false → v' ∉ ys) :
    Stale w₀ ys { ctx with rt := { ctx.rt with
      graph := ctx.rt.graph.write r v', losses := { ctx.rt.losses with refused } } }
      (todo \ {r}) := by
  refine ⟨fun r' hr' hy => ?_, fun v t hm p hy => ?_, fun r' hr' => ?_, fun r' hr' hh => ?_,
    fun hf => ?_⟩
  · show r' ∈ todo \ {r} ∨ r' ∈ refused
    rw [show (ctx.rt.graph.write r v').read r' = _ from hread r'] at hy
    rw [hmem]
    by_cases he : r' = r
    · rw [if_pos he] at hy
      exact .inr (.inr ⟨he, hy⟩)
    · rw [if_neg he] at hy
      exact (h.held r' hr' hy).imp (fun ht => ⟨ht, he⟩) fun hu => .inl ⟨hu, he⟩
  · show .field t p ∈ todo \ {r} ∨ .field t p ∈ refused ∨ _
    rw [show (ctx.rt.graph.write r v').slot t p = _ from hread (.field t p)] at hy
    rw [hmem]
    by_cases he : .field t p = r
    · rw [if_pos he] at hy
      exact .inr (.inl (.inr ⟨he, hy⟩))
    · rw [if_neg he] at hy
      exact (h.fields v t hm p hy).imp (fun ht => ⟨ht, he⟩)
        (Or.imp_left fun hu => .inl ⟨hu, he⟩)
  · show Known w₀ ctx.rt r' ∧ (ctx.rt.graph.write r v').read r' ∈ ys
    rw [hread]
    rcases (hmem r').mp hr' with ⟨hu, he⟩ | ⟨rfl, hy⟩
    · rw [if_neg he]
      exact h.refused r' hu
    · rw [if_pos rfl]
      exact ⟨hr, hy⟩
  · show (ctx.rt.graph.write r v').read r' = _
    have hne : r' ≠ r := hr'.2
    rw [hread, if_neg hne]
    exact h.untouched r' hr'.1 hh
  · have hnil := h.granted hf
    refine List.eq_nil_iff_forall_not_mem.mpr fun r' hr' => ?_
    rcases (hmem r').mp hr' with ⟨hu, -⟩ | ⟨-, hy⟩
    · rw [hnil] at hu
      exact nomatch hu
    · exact hgranted hf hy

/-- Moving the reference in a place deals with the place. -/
theorem MinorInv.moveRef (hs : MinorStart w₀ ys) (h : MinorInv w₀ ys ctx traced todo) {r : SlotRef}
    (hr : Place w₀ ctx.rt.fwd traced r) :
    MinorInv w₀ ys (gcGenMoveRef ctx r) traced (todo \ {r}) ∧ Moves ctx (gcGenMoveRef ctx r) := by
  obtain ⟨hvalid, hsound⟩ := h.place hs hr
  obtain ⟨c, v', refused, heq, hc, hmoves, hfollow, hstays, hfail, -, hreads⟩ :=
    h.promote hs hvalid hsound
  have hplace : Place w₀ c.rt.fwd traced r := hr.mono hmoves.fwd
  have hknown : Known w₀ c.rt r := hplace.known
  have hcur : c.rt.graph.read r = ctx.rt.graph.read r := hreads r hr.known
  have hread := Graph.read_write (hc.copied.has hs hknown) v'
  unfold gcGenMoveRef
  rw [heq]
  simp only
  set refusals := if refused = true then c.rt.losses.refused.filter (· ≠ r) ++ [r]
    else c.rt.losses.refused.filter (· ≠ r) with hun
  have hmem : ∀ r', r' ∈ refusals ↔
      (r' ∈ c.rt.losses.refused ∧ r' ≠ r) ∨ (r' = r ∧ v' ∈ ys) := by
    intro r'
    by_cases hy : v' ∈ ys
    · simp [hun, hstays.mpr hy, hy]
    · simp [hun, Bool.eq_false_iff.mpr (mt hstays.mp hy), hy]
  have hgranted : c.rt.mem.failed = false → v' ∉ ys := by
    intro hf hy
    rw [hfail (hstays.mpr hy)] at hf
    exact nomatch hf
  refine ⟨⟨hc.copied.write hs hknown (hcur.symm ▸ hfollow) rfl,
    hc.gray.write hc.copied hplace hread _, hc.stale.write hknown hread hmem hgranted⟩, ?_⟩
  exact hmoves.trans ⟨fun _ he => he, fun _ _ => Iff.rfl, rfl, rfl, id⟩

/-- Places that do not refer to young objects need not be looked at. -/
theorem MinorInv.forget (h : MinorInv w₀ ys ctx traced todo) {todo' : Set SlotRef}
    (hold : ∀ r ∈ todo', HeldBy w₀ r → r ∈ todo)
    (hsub : ∀ r ∈ todo, r ∉ todo' → Known w₀ ctx.rt r → ctx.rt.graph.read r ∉ ys) :
    MinorInv w₀ ys ctx traced todo' where
  copied := h.copied
  gray := h.gray
  stale := by
    refine ⟨fun r hr hy => ?_, fun v t hm p hy => ?_, h.stale.refused,
      fun r hr hh => h.stale.untouched r (hold r hr hh) hh, h.stale.granted⟩
    · refine (h.stale.held r hr hy).imp_left fun ht => ?_
      by_contra hn
      exact hsub r ht hn (.inl hr) hy
    · refine (h.stale.fields v t hm p hy).imp_left fun ht => ?_
      by_contra hn
      exact hsub _ ht hn (.inr ⟨v, t, p, hm, rfl⟩) hy

/-- `gc_gen_evacuate_slot` deals with its place. -/
theorem MinorInv.evacuateSlot (hs : MinorStart w₀ ys) (h : MinorInv w₀ ys ctx traced todo)
    {r : SlotRef} (hr : Place w₀ ctx.rt.fwd traced r) :
    MinorInv w₀ ys (gcGenEvacuateSlot ctx r) traced (todo \ {r}) ∧
      Moves ctx (gcGenEvacuateSlot ctx r) := by
  unfold gcGenEvacuateSlot
  split
  · next h0 =>
    refine ⟨h.forget (fun r' hr' _ => hr'.1) fun r' _ hn _ hy => ?_, .refl ctx⟩
    obtain rfl : r' = r := by
      by_contra hne
      exact hn ⟨‹_›, hne⟩
    rw [h0] at hy
    exact h.copied.ok.young_ne_zero hy rfl
  · exact h.moveRef hs hr

/-- A step that deals with one place, done for a list of places, deals with all of them. -/
theorem MinorInv.foldl (step : GcGenMinorCtx → SlotRef → GcGenMinorCtx) (hstep :
      ∀ {ctx todo r}, MinorInv w₀ ys ctx traced todo → Place w₀ ctx.rt.fwd traced r →
        MinorInv w₀ ys (step ctx r) traced (todo \ {r}) ∧ Moves ctx (step ctx r)) :
    ∀ (rs : List SlotRef) {ctx : GcGenMinorCtx} {todo : Set SlotRef},
      MinorInv w₀ ys ctx traced todo → (∀ r ∈ rs, Place w₀ ctx.rt.fwd traced r) →
      MinorInv w₀ ys (rs.foldl step ctx) traced (todo \ {r | r ∈ rs}) ∧
        Moves ctx (rs.foldl step ctx)
  | [], ctx, todo, h, _ => ⟨by simpa using h, .refl ctx⟩
  | r :: rs, ctx, todo, h, hr => by
      obtain ⟨h₁, hm₁⟩ := hstep h (hr r (List.mem_cons_self ..))
      obtain ⟨h₂, hm₂⟩ := MinorInv.foldl step hstep rs h₁ fun r' hr' =>
        (hr r' (List.mem_cons_of_mem _ hr')).mono hm₁.fwd
      have hset : (todo \ {r}) \ {r' | r' ∈ rs} = todo \ {r' | r' ∈ r :: rs} := by
        ext r'
        simp only [Set.mem_sdiff, Set.mem_singleton_iff, Set.mem_ofPred_eq, List.mem_cons]
        tauto
      rw [hset] at h₂
      exact ⟨h₂, hm₁.trans hm₂⟩

end Xgc
