import Xgc.Algo.GenMinor

/-! The phases of a minor collection: the handles, the roots, the dirty cards, and the copies on the
    worklist. Each of them deals with its places, so that afterwards no place refers to a young
    object unless a request was refused. -/

namespace Xgc

open Lib (Reach)
open GcBarrierSet (cardIndexFor cardIndexFor_lt)

/-! ### The slots of a card -/

/-- Visiting a card visits every slot of the object that holds a reference and lies on the card. -/
theorem GcHeader.Ok.traced_in_card {o : GcHeader} (ho : o.Ok) {p : SlotLoc} (hp : o.slots p ≠ 0)
    {g : Nat} (hg : g ≠ 0) (hg' : g < 2 ^ 64) (a : Nat) {c : Nat}
    (hc : cardIndexFor g a o.size (p.addr a) = c) :
    p ∈ gcTraceObjectSlotsInRange o (c * g % 2 ^ 64) ((c * g % 2 ^ 64 + g) % 2 ^ 64) := by
  have htraced := ho.traced hp
  have hlay := ho.slots p hp
  have hheader := ho.header
  have hsize := ho.size_lt
  obtain ⟨d, hd, hok⟩ := ho.desc
  have hn : o.size ≠ 0 := by
    unfold sizeofHeader at hheader
    omega
  have hlt := card_begin_lt hn hsize hg hg' (hc ▸ cardIndexFor_lt g a o.size (p.addr a))
  obtain ⟨hbegin, hend⟩ := card_range hsize hg' hlt
  rw [hend, hbegin]
  have hgpos : 0 < g := Nat.pos_of_ne_zero hg
  have hstop : c * g < if c * g + g > o.size then o.size else c * g + g := by
    split <;> omega
  unfold gcTraceObjectSlotsInRange
  simp only [hd, if_pos hn, if_neg hn, if_neg (Nat.not_le.mpr hlt), ge_iff_le,
    if_neg (Nat.not_le.mpr hstop)]
  cases hr : d.traceSlotsRange with
  | none => simpa [tracedSlots, hd] using htraced
  | some traceRange =>
    rw [layout, hd] at hlay
    obtain ⟨off, rfl, hrange⟩ := hok.range traceRange hr o.toContents p hlay hp
    obtain ⟨hoff, hoff'⟩ := hok.inside _ _ off hlay
    -- an inline slot lies on the card of its offset
    have hcard : c = off / g := by
      rw [← hc, cardIndexFor, SlotLoc.addr, if_neg (by unfold sizeofHeader at hoff; omega),
        cardCountFor_succ hn hsize hg hg', Nat.add_sub_cancel_left, Nat.add_sub_cancel]
      exact Nat.min_eq_left (Nat.div_le_div_right (by omega))
    have hle : off / g * g ≤ off := Nat.div_mul_le_self off g
    have hlt' : off < off / g * g + g := Nat.lt_div_mul_add hgpos
    refine hrange _ _ (by rw [hcard]; exact hle) ?_
    rw [hcard]
    split <;> omega

variable {w₀ : GenWorld} {ys : List Nat} {w : GenWorld} {ctx : GcGenMinorCtx}
  {traced : List Addr} {todo : Set SlotRef}

/-- The old objects are in order during the collection, the copies as well as the others. -/
theorem Copied.obj_ok (hs : MinorStart w₀ ys) (h : Copied w₀ ys w) {a : Addr} (ha : a ∈ w.old) :
    ∃ o, w.graph.objs a = some o ∧ o.Ok := by
  rcases h.mem_old.mp ha with ⟨v, hm⟩ | ha
  · obtain ⟨o, ho, hok, -⟩ := hs.heap.objs v (List.mem_append_right _ (h.froms v a hm))
    obtain ⟨s, hs'⟩ := h.copies v a hm o ho
    refine ⟨_, hs', hok.withSlots fun p hp => hok.slots p ?_⟩
    have hf := h.fields v a hm p
    rw [Graph.slot_eq ho, Graph.slot_eq hs'] at hf
    exact (h.ne_zero_of_follows hf).mp hp
  · obtain ⟨o, ho, hok, -⟩ := hs.heap.objs a (List.mem_append_left _ ha)
    obtain ⟨s, hs'⟩ := h.kept a ha o ho
    refine ⟨_, hs', hok.withSlots fun p hp => hok.slots p ?_⟩
    have hf := h.held (.field a p) ha
    simp only [Graph.read] at hf
    rw [Graph.slot_eq ho, Graph.slot_eq hs'] at hf
    exact (h.ne_zero_of_follows hf).mp hp

/-- Before the tracing loops every place outside of the nursery is still to be looked at. -/
theorem MinorInv.init (hs : MinorStart w₀ ys) :
    MinorInv w₀ ys { rt := gcGenClearForwarding w₀, wl := w₀.worklist } []
      {r | HeldBy w₀ r} := by
  have hno : ∀ v t, ¬ Moved [] v t := fun v t => List.not_mem_nil
  refine ⟨⟨⟨{ hs.ok.rt with }, hs.ok.owns, { hs.ok.layout with }⟩, rfl, rfl, rfl, rfl, rfl, rfl, rfl,
    le_refl _, rfl, List.nodup_nil,
    fun v t hm => absurd hm (hno v t), fun _ _ => rfl, fun a _ o ho => ⟨o.slots, ho⟩,
    fun v t hm => absurd hm (hno v t), ?_, fun _ _ => .inl rfl,
    fun v t hm => absurd hm (hno v t)⟩, ?_, ?_⟩
  · -- the target of a handle is what looking it up finds
    refine (List.map_id _).symm.trans (List.map_congr_left fun k hk => ?_)
    have hfind : w₀.graph.handles.find? (fun k' => k'.addr = k.addr) = some k :=
      (Lib.lookup_eq_some hs.heap.handleAddrs).mpr ⟨hk, rfl⟩
    have ht : (gcGenClearForwarding w₀).graph.target k.addr = k.target := by
      show w₀.graph.target k.addr = k.target
      simp [Graph.target, hfind]
    rw [ht]
    rfl
  · have hcopies : (gcGenClearForwarding w₀).losses.copies = [] := hs.copies
    refine ⟨hs.ok.rt.worklist, List.nodup_nil, fun t ht => ?_, fun v t hm => absurd hm (hno v t),
      List.nodup_nil, fun v hv => ?_, fun c hc => ?_, fun v t hm => absurd hm (hno v t),
      fun v t hm => absurd hm (hno v t)⟩
    · exact absurd ht List.not_mem_nil
    · exact absurd hv List.not_mem_nil
    · simp only [hcopies, List.not_mem_nil] at hc
  · have hrefused : (gcGenClearForwarding w₀).losses.refused = [] := hs.refused
    refine ⟨fun r hr _ => .inl hr, fun v t hm => absurd hm (hno v t), fun r hr => ?_,
      fun _ _ _ => rfl, fun _ => hrefused⟩
    simp only [hrefused, List.not_mem_nil] at hr

/-- `gc_gen_minor_scan_handles` -/
theorem MinorInv.scanHandles (hs : MinorStart w₀ ys) (h : MinorInv w₀ ys ctx traced todo) :
    MinorInv w₀ ys (gcGenMinorScanHandles ctx) traced
        (todo \ {r | ∃ k ∈ w₀.graph.handles, r = .handle k.addr}) ∧
      Moves ctx (gcGenMinorScanHandles ctx) := by
  have haddr : ctx.rt.graph.handles.map (fun k => SlotRef.handle k.addr) =
      w₀.graph.handles.map fun k => SlotRef.handle k.addr := by
    rw [h.copied.handles, List.map_map]
    rfl
  have hfold := MinorInv.foldl gcGenMoveRef (fun h hr => h.moveRef hs hr)
    (w₀.graph.handles.map fun k => .handle k.addr) h (by
      intro r hr
      obtain ⟨k, hk, rfl⟩ := List.mem_map.mp hr
      exact .inl (List.mem_map_of_mem hk))
  unfold gcGenMinorScanHandles
  rw [haddr]
  have hset : todo \ {r | r ∈ w₀.graph.handles.map fun k => SlotRef.handle k.addr} =
      todo \ {r | ∃ k ∈ w₀.graph.handles, r = .handle k.addr} := by
    ext r
    simp only [Set.mem_sdiff, Set.mem_ofPred_eq, List.mem_map, eq_comm]
  rw [← hset]
  exact hfold

/-- The call of `scan_roots` in `gc_gen_collect_minor_impl` -/
theorem MinorInv.scanRoots (hs : MinorStart w₀ ys) (h : MinorInv w₀ ys ctx traced todo) :
    MinorInv w₀ ys (gcGenMinorScanRoots ctx) traced (todo \ {r | ∃ i, r = .root i}) ∧
      Moves ctx (gcGenMinorScanRoots ctx) := by
  -- a root slot that refers to a young object did so before, so it is visited
  have hscan : ∀ i, ∀ v, Follows ctx.rt.fwd (w₀.graph.roots i) v → v ≠ 0 →
      ∃ scan, ctx.rt.graph.hooks.scanRoots = some scan ∧ i ∈ scan ctx.rt.graph.roots := by
    intro i v hf hv
    have h₀ := (h.copied.ne_zero_of_follows hf).mp hv
    have hcur := (h.copied.ne_zero_of_follows (h.copied.held (.root i) trivial)).mpr h₀
    obtain ⟨hi, -⟩ := (hs.heap.roots i).resolve_left h₀
    rw [h.copied.hooks]
    exact hs.heap.hooks ctx.rt.graph.roots i hi hcur
  unfold gcGenMinorScanRoots
  cases hsc : ctx.rt.graph.hooks.scanRoots with
  | none =>
    refine ⟨h.forget (fun r hr _ => hr.1) fun r hr hn _ hy => hn ⟨hr, ?_⟩, .refl ctx⟩
    rintro ⟨i, rfl⟩
    obtain ⟨scan, hscan', -⟩ := hscan i _ (h.copied.held (.root i) trivial)
      (h.copied.ok.young_ne_zero hy)
    rw [hsc] at hscan'
    exact nomatch hscan'
  | some scan =>
    have hfold := MinorInv.foldl gcGenEvacuateSlot (fun h hr => h.evacuateSlot hs hr)
      ((scan ctx.rt.graph.roots).map SlotRef.root) h (by
        intro r hr
        obtain ⟨i, -, rfl⟩ := List.mem_map.mp hr
        exact .inl trivial)
    refine ⟨hfold.1.forget (fun r hr _ => ⟨hr.1, fun hmem => hr.2 ?_⟩)
      fun r hr hn _ hy => hn ⟨hr.1, ?_⟩, hfold.2⟩
    · obtain ⟨i, -, rfl⟩ := List.mem_map.mp hmem
      exact ⟨i, rfl⟩
    rintro ⟨i, rfl⟩
    have hy0 := hfold.1.copied.ok.young_ne_zero hy
    have h₀ := (hfold.1.copied.ne_zero_of_follows
      (hfold.1.copied.held (.root i) trivial)).mp hy0
    obtain ⟨scan', hscan', hi⟩ := hscan i _ (h.copied.held (.root i) trivial)
      ((h.copied.ne_zero_of_follows (h.copied.held (.root i) trivial)).mpr h₀)
    rw [hsc] at hscan'
    obtain rfl := Option.some.inj hscan'
    exact hr.2 (List.mem_map.mpr ⟨i, hi, rfl⟩)

/-! ### Dirty cards -/

/-- Every slot of an old object that refers to a young object lies on a dirty card. -/
def Remembered (w : GenWorld) (ys : List Nat) : Prop :=
  ∀ a ∈ w.old, ∀ p, w.graph.slot a p ∈ ys →
    w.barriers.Dirty a (cardIndexFor w.barriers.oldToYoung.cardGranularity a (w.graph.sizeAt a)
      (p.addr a))

/-- The slots on a card. -/
def cardSlots (w₀ : GenWorld) (card : Addr × Nat) : Set SlotRef :=
  {r | ∃ p, r = .field card.1 p ∧ cardIndexFor w₀.barriers.oldToYoung.cardGranularity card.1
    (w₀.graph.sizeAt card.1) (p.addr card.1) = card.2}

/-- `gc_gen_dirty_visit_remember_owner` remembers the owner, or its request is refused. -/
theorem rememberOwner_cases (v : GcGenDirtyCardVisitCtx) {owner : Addr} (h0 : owner ≠ 0) :
    ∃ m owners capacity, gcGenDirtyVisitRememberOwner v owner =
        { minor := { v.minor with rt := { v.minor.rt with mem := m } }
          ownersToClear := owners, ownerCapacity := capacity } ∧
      v.minor.rt.mem.Quiet m ∧ (∀ a ∈ v.ownersToClear, a ∈ owners) ∧
      (m.failed = false → owner ∈ owners) := by
  unfold gcGenDirtyVisitRememberOwner
  rw [if_neg h0]
  by_cases hmem : owner ∈ v.ownersToClear
  · rw [if_pos hmem]
    exact ⟨v.minor.rt.mem, _, _, rfl, .refl _, fun _ ha => ha, fun _ => hmem⟩
  rw [if_neg hmem]
  by_cases hfull : v.ownersToClear.length = v.ownerCapacity
  · simp only [if_pos hfull]
    rcases v.minor.rt.mem.reserve_cases
      ((if v.ownerCapacity > 0 then v.ownerCapacity * 2 % 2 ^ 64 else 8) * 8 % 2 ^ 64) with hr | hr
    · simp only [hr, if_true]
      exact ⟨_, _, _, rfl, Mem.quiet_tryReserve _ _, fun _ ha => List.mem_append_left _ ha,
        fun _ => by simp⟩
    · simp only [hr, Bool.false_eq_true, if_false]
      exact ⟨_, _, _, rfl, Mem.quiet_refuse _, fun _ ha => ha, fun hf => nomatch hf⟩
  · rw [if_neg hfull]
    exact ⟨v.minor.rt.mem, _, _, rfl, .refl _, fun _ ha => List.mem_append_left _ ha,
      fun _ => by simp⟩

/-- A change of the card table and of the allocator's own record. -/
theorem MinorInv.setBarriers (h : MinorInv w₀ ys ctx traced todo) {m : Mem} {b : GcBarrierSet}
    (hq : ctx.rt.mem.Quiet m) (hb : b.Ok) (hsame : ctx.rt.barriers.SameOwners b) :
    MinorInv w₀ ys { ctx with rt := { ctx.rt with mem := m, barriers := b } } traced todo where
  copied := h.copied.setBarriers
    (h.copied.ok.setBarriers (h.copied.ok.owns.quiet hq) hb hsame.size hsame.granularity)
  gray := { h.gray with }
  stale := ⟨h.stale.held, h.stale.fields, h.stale.refused, h.stale.untouched,
    fun hf => h.stale.granted (hq.failed hf)⟩

/-- `gc_gen_minor_visit_dirty_card` deals with the slots on the card. -/
theorem MinorInv.visitCard (hs : MinorStart w₀ ys) {v : GcGenDirtyCardVisitCtx}
    (h : MinorInv w₀ ys v.minor traced todo) {card : Addr × Nat} (hold : card.1 ∈ w₀.old)
    (hgran : v.minor.rt.barriers.oldToYoung.cardGranularity =
      w₀.barriers.oldToYoung.cardGranularity) :
    (∃ todo' ⊆ todo \ cardSlots w₀ card,
        MinorInv w₀ ys (gcGenMinorVisitDirtyCard v card).minor traced todo') ∧
      Moves v.minor (gcGenMinorVisitDirtyCard v card).minor ∧
      (∀ a ∈ v.ownersToClear, a ∈ (gcGenMinorVisitDirtyCard v card).ownersToClear) ∧
      ((gcGenMinorVisitDirtyCard v card).minor.rt.mem.failed = false →
        card.1 ∈ (gcGenMinorVisitDirtyCard v card).ownersToClear) := by
  obtain ⟨owner, c⟩ := card
  have h0 : owner ≠ 0 := hs.ok.old_ne_zero hold
  obtain ⟨o, ho, hok⟩ := h.copied.obj_ok hs (h.copied.mem_old.mpr (.inr hold))
  have hsize : o.size = w₀.graph.sizeAt owner := by
    obtain ⟨o₀, ho₀, -⟩ := hs.heap.objs owner (List.mem_append_left _ hold)
    obtain ⟨s, hs'⟩ := h.copied.kept owner hold o₀ ho₀
    rw [ho] at hs'
    rw [Option.some.inj hs', Graph.sizeAt_eq ho₀]
    rfl
  unfold gcGenMinorVisitDirtyCard
  simp only [if_neg h0, ho, hgran]
  set slots := gcTraceObjectSlotsInRange o
    (c * w₀.barriers.oldToYoung.cardGranularity % 2 ^ 64)
    ((c * w₀.barriers.oldToYoung.cardGranularity % 2 ^ 64 +
      w₀.barriers.oldToYoung.cardGranularity) % 2 ^ 64) with hslots
  obtain ⟨hfold, hmoves⟩ := MinorInv.foldl gcGenEvacuateSlot (fun h hr => h.evacuateSlot hs hr)
    (slots.map (SlotRef.field owner)) h (by
      intro r hr
      obtain ⟨p, -, rfl⟩ := List.mem_map.mp hr
      exact .inl hold)
  set minor := (slots.map (SlotRef.field owner)).foldl gcGenEvacuateSlot v.minor with hminor
  -- the callback may visit slots on other cards, too
  have hcard : MinorInv w₀ ys minor traced
      ((todo \ {r | r ∈ slots.map (SlotRef.field owner)}) \ cardSlots w₀ (owner, c)) := by
    refine hfold.forget (fun r hr _ => hr.1) fun r hr hn _ hy => hn ⟨hr, ?_⟩
    rintro ⟨p, rfl, hp⟩
    -- a slot that refers to a young object now did so when the card was visited
    have h₀ := (hfold.copied.ne_zero_of_follows (hfold.copied.held (.field owner p) hold)).mp
      (hfold.copied.ok.young_ne_zero hy)
    have hcur := (h.copied.ne_zero_of_follows (h.copied.held (.field owner p) hold)).mpr h₀
    rw [show v.minor.rt.graph.read (.field owner p) = o.slots p from Graph.slot_eq ho p] at hcur
    refine hr.2 (List.mem_map_of_mem (f := SlotRef.field owner) ?_)
    exact hok.traced_in_card hcur hs.ok.rt.barriers.granularity hs.ok.rt.granularity owner
      (by rw [hsize]; exact hp)
  obtain ⟨m, owners, capacity, heq, hq, hkeep, hnew⟩ := rememberOwner_cases
    { v with minor } h0
  rw [heq]
  refine ⟨⟨_, fun r hr => ⟨hr.1.1, hr.2⟩,
    hcard.setBarriers hq hcard.copied.ok.rt.barriers (.refl _)⟩, hmoves.trans ?_, hkeep, hnew⟩
  exact ⟨fun _ he => he, fun _ _ => Iff.rfl, rfl, rfl, hq.failed⟩

/-- The loop over the dirty cards. -/
theorem MinorInv.visitCards (hs : MinorStart w₀ ys) : ∀ (cards : List (Addr × Nat))
    {v : GcGenDirtyCardVisitCtx} {todo : Set SlotRef}, MinorInv w₀ ys v.minor traced todo →
    (∀ card ∈ cards, card.1 ∈ w₀.old) →
    v.minor.rt.barriers.oldToYoung.cardGranularity = w₀.barriers.oldToYoung.cardGranularity →
    (∃ todo' ⊆ todo \ {r | ∃ card ∈ cards, r ∈ cardSlots w₀ card},
        MinorInv w₀ ys (cards.foldl gcGenMinorVisitDirtyCard v).minor traced todo') ∧
      Moves v.minor (cards.foldl gcGenMinorVisitDirtyCard v).minor ∧
      (∀ a ∈ v.ownersToClear, a ∈ (cards.foldl gcGenMinorVisitDirtyCard v).ownersToClear) ∧
      ((cards.foldl gcGenMinorVisitDirtyCard v).minor.rt.mem.failed = false →
        ∀ card ∈ cards, card.1 ∈ (cards.foldl gcGenMinorVisitDirtyCard v).ownersToClear)
  | [], v, todo, h, _, _ =>
    ⟨⟨todo, by simp, h⟩, .refl _, fun _ ha => ha, fun _ _ hc => nomatch hc⟩
  | card :: cards, v, todo, h, hold, hgran => by
      obtain ⟨⟨todo₁, hsub₁, h₁⟩, hm₁, hk₁, hn₁⟩ :=
        h.visitCard hs (hold card (List.mem_cons_self ..)) hgran
      obtain ⟨⟨todo₂, hsub₂, h₂⟩, hm₂, hk₂, hn₂⟩ := MinorInv.visitCards hs cards h₁
        (fun c hc => hold c (List.mem_cons_of_mem _ hc)) (hm₁.granularity.trans hgran)
      refine ⟨⟨todo₂, fun r hr => ?_, h₂⟩, hm₁.trans hm₂, fun a ha => hk₂ a (hk₁ a ha),
        fun hf c hc => ?_⟩
      · obtain ⟨hr₁, hn₁⟩ := hsub₂ hr
        obtain ⟨hr₀, hn₀⟩ := hsub₁ hr₁
        refine ⟨hr₀, ?_⟩
        rintro ⟨c, hc, hmem⟩
        rcases List.mem_cons.mp hc with rfl | hc
        · exact hn₀ hmem
        · exact hn₁ ⟨c, hc, hmem⟩
      · rcases List.mem_cons.mp hc with rfl | hc
        · exact hk₂ _ (hn₁ (hm₂.failed hf))
        · exact hn₂ hf c hc

/-- `gc_gen_dirty_visit_clear_owners` empties the dirty sets of the owners. -/
theorem clearOwners_spec : ∀ (owners : List Addr) {b : GcBarrierSet}, b.Ok →
    (owners.foldl gcBarrierClearOwnerDirty b).Ok ∧
      b.SameOwners (owners.foldl gcBarrierClearOwnerDirty b) ∧
      ∀ o c, (owners.foldl gcBarrierClearOwnerDirty b).Dirty o c ↔ b.Dirty o c ∧ o ∉ owners
  | [], b, h => ⟨h, .refl b, fun o c => by simp⟩
  | owner :: owners, b, h => by
      obtain ⟨h₁, hsame₁, hd₁⟩ := GcBarrierSet.clearOwner_spec h owner
      obtain ⟨h₂, hsame₂, hd₂⟩ := clearOwners_spec owners h₁
      refine ⟨h₂, ⟨hsame₂.owners.trans hsame₁.owners,
        fun o n => (hsame₂.size o n).trans (hsame₁.size o n),
        hsame₂.granularity.trans hsame₁.granularity⟩, fun o c => ?_⟩
      rw [List.foldl_cons, hd₂, hd₁, List.mem_cons]
      tauto

/-- `gc_gen_minor_scan_dirty_cards` deals with the slots of all old objects, unless its snapshot is
    refused; when nothing is refused, no card is dirty afterwards. -/
theorem MinorInv.scanDirtyCards (hs : MinorStart w₀ ys) (hrem : Remembered w₀ ys)
    (h : MinorInv w₀ ys ctx traced todo)
    (hdirty : ∀ o c, ctx.rt.barriers.Dirty o c ↔ w₀.barriers.Dirty o c)
    (hgran : ctx.rt.barriers.oldToYoung.cardGranularity = w₀.barriers.oldToYoung.cardGranularity)
    (hcards : ctx.rt.losses.cards = false) {ctx' : GcGenMinorCtx}
    (heq : gcGenMinorScanDirtyCards ctx = ctx') :
    (∃ todo' ⊆ todo, (ctx'.rt.losses.cards = true → todo' = todo) ∧
        (ctx'.rt.losses.cards = false → ∀ a ∈ w₀.old, ∀ p, .field a p ∉ todo') ∧
        MinorInv w₀ ys ctx' traced todo') ∧
      (ctx'.rt.mem.failed = false →
        ctx'.rt.losses.cards = false ∧ ∀ o c, ¬ ctx'.rt.barriers.Dirty o c) := by
  have hb := h.copied.ok.rt.barriers
  unfold gcGenMinorScanDirtyCards at heq
  rcases GcBarrierSet.visitDirty_cases ctx.rt.barriers ctx.rt.mem with ⟨m, hvisit, hq⟩ | hvisit
  · simp only [hvisit, gcGenDirtyVisitClearOwners] at heq
    have h₁ : MinorInv w₀ ys { ctx with rt := { ctx.rt with mem := m } } traced todo :=
      h.setBarriers hq hb (.refl _)
    have hsnap : ∀ o c, (o, c) ∈ ctx.rt.barriers.oldToYoung.snapshot ↔ w₀.barriers.Dirty o c :=
      fun o c => (GcBarrierSet.mem_snapshot hb o c).trans (hdirty o c)
    obtain ⟨⟨todo', hsub, h₂⟩, hm, -, hn⟩ := MinorInv.visitCards hs ctx.rt.barriers.oldToYoung.snapshot
      (v := { minor := { ctx with rt := { ctx.rt with mem := m } }, ownersToClear := [],
              ownerCapacity := 0 }) h₁ (by
        rintro ⟨o, c⟩ hc
        obtain ⟨e, he, rfl, -⟩ := (hsnap o c).mp hc
        exact (owners_iff hs.ok.layout _).mp (List.mem_map_of_mem he)) hgran
    set v := ctx.rt.barriers.oldToYoung.snapshot.foldl gcGenMinorVisitDirtyCard
      { minor := { ctx with rt := { ctx.rt with mem := m } }, ownersToClear := [],
        ownerCapacity := 0 } with hv
    obtain ⟨hb', hsame, hd⟩ := clearOwners_spec v.ownersToClear h₂.copied.ok.rt.barriers
    have h₃ := h₂.setBarriers (.refl _) hb' hsame
    subst heq
    have hcards' : v.minor.rt.losses.cards = false := hm.cards.trans hcards
    refine ⟨⟨( todo') \ {r | ∃ a ∈ w₀.old, ∃ p, r = .field a p}, fun r hr => (hsub hr.1).1,
      fun hc => ?_, fun _ a ha p hr => hr.2 ⟨a, ha, p, rfl⟩,
      h₃.forget (fun r hr _ => hr.1) fun r hr hn' hk hy => hn' ⟨hr, ?_⟩⟩,
      fun hf => ⟨hcards', fun o c hoc => ?_⟩⟩
    · rw [show v.minor.rt.losses.cards = true from hc] at hcards'
      exact nomatch hcards'
    · rintro ⟨a, ha, p, rfl⟩
      -- the slot referred to the young object at the start, so its card was dirty
      have hy' : v.minor.rt.graph.slot a p ∈ ys := hy
      have hfol := h₂.copied.held (.field a p) ha
      have hstart : w₀.graph.slot a p ∈ ys := by
        have := h₂.copied.eq_of_young hfol hy'
        rw [show w₀.graph.slot a p = v.minor.rt.graph.slot a p from this.symm]
        exact hy'
      exact (hsub hr).2 ⟨_, (hsnap _ _).mpr (hrem a ha p hstart), p, rfl, rfl⟩
    · obtain ⟨hoc, hno⟩ := (hd o c).mp hoc
      have hin := (hsnap o c).mpr ((hdirty o c).mp ((hm.dirty o c).mp hoc))
      exact hno (hn hf _ hin)
  · simp only [hvisit] at heq
    subst heq
    have h₁ := h.setBarriers ctx.rt.mem.quiet_refuse hb (.refl _)
    refine ⟨⟨todo, subset_rfl, fun _ => rfl, fun hc => Bool.noConfusion hc, ?_, ?_, ?_⟩,
      fun hf => nomatch hf⟩
    · have hok := h₁.copied.ok
      exact { h₁.copied with ok := hok.setGraph _ (fun _ _ => rfl) rfl hok.rt.runtime }
    · exact { h₁.gray with }
    · exact { h₁.stale with }

/-! ### Copies on the worklist -/

/-- The copy on top of the worklist is taken off; its slots are to be dealt with. -/
theorem MinorInv.popped (h : MinorInv w₀ ys ctx traced todo) {t : Addr} {rest : List Addr}
    (hi : ctx.wl.items = t :: rest) :
    ∃ wl v, gcWorklistPop ctx.wl = (wl, t) ∧ Moved ctx.rt.fwd v t ∧ v ∉ traced ∧
      MinorInv w₀ ys { ctx with wl } (v :: traced) (todo ∪ {r | ∃ p, r = .field t p}) := by
  obtain ⟨wl, hpop, hwl, hitems, -, -⟩ := GcWorklist.pop_cons h.gray.worklist hi
  have hmem : t ∈ ctx.wl.items := by simp [hi]
  obtain ⟨v, hm, hnt, hnd⟩ := h.gray.gray t hmem
  obtain ⟨htrest, hrest⟩ := List.nodup_cons.mp (hi ▸ h.gray.items)
  refine ⟨wl, v, hpop, hm, hnt, h.copied, ⟨hwl, by rw [hitems]; exact hrest, ?_, ?_, ?_, ?_,
    h.gray.dropped, h.gray.untouched, ?_⟩, ⟨?_, ?_, h.stale.refused, ?_, h.stale.granted⟩⟩
  · intro x hx
    rw [hitems] at hx
    obtain ⟨u, hu, hun, hud⟩ := h.gray.gray x (by rw [hi]; exact List.mem_cons_of_mem _ hx)
    refine ⟨u, hu, fun hmem' => ?_, hud⟩
    rcases List.mem_cons.mp hmem' with rfl | hmem'
    · exact htrest (Moved.unique h.copied.once hm hu ▸ hx)
    · exact hun hmem'
  · intro u x hu
    rcases h.gray.split u x hu with hx | hx | hx
    · exact .inl (List.mem_cons_of_mem _ hx)
    · rw [hi, List.mem_cons] at hx
      rcases hx with rfl | hx
      · exact .inl (by rw [h.copied.from_unique hu hm]; exact List.mem_cons_self ..)
      · exact .inr (.inl (by rw [hitems]; exact hx))
    · exact .inr (.inr hx)
  · exact List.nodup_cons.mpr ⟨hnt, h.gray.once⟩
  · intro u hu
    rcases List.mem_cons.mp hu with rfl | hu
    · exact ⟨⟨t, hm⟩, hnd⟩
    · exact h.gray.tracedFrom u hu
  · exact fun u x hu => (h.gray.sound u x hu).mono subset_rfl fun a b hab =>
      ⟨List.mem_cons_of_mem _ hab.1, hab.2⟩
  · exact fun r hr hy => (h.stale.held r hr hy).imp_left .inl
  · intro u x hu p hy
    rcases h.stale.fields u x hu p hy with hx | hx | hx | hx
    · exact .inl (.inl hx)
    · exact .inr (.inl hx)
    · rw [hi, List.mem_cons] at hx
      rcases hx with rfl | hx
      · exact .inl (.inr ⟨p, rfl⟩)
      · exact .inr (.inr (.inl (by rw [hitems]; exact hx)))
    · exact .inr (.inr (.inr hx))
  · rintro r (hr | ⟨p, rfl⟩) hh
    · exact h.stale.untouched r hr hh
    · exact absurd hh (h.copied.to_notMem_old₀ hm)

/-- One round of the loop: a copy is taken off the worklist and its slots are dealt with. -/
theorem MinorInv.pop (hs : MinorStart w₀ ys) (h : MinorInv w₀ ys ctx traced todo) {t : Addr}
    {rest : List Addr} (hi : ctx.wl.items = t :: rest) :
    ∃ wl v, gcWorklistPop ctx.wl = (wl, t) ∧ t ≠ 0 ∧ v ∉ traced ∧
      MinorInv w₀ ys (gcGenMinorTrace { ctx with wl } t) (v :: traced) todo ∧
      Moves ctx (gcGenMinorTrace { ctx with wl } t) := by
  obtain ⟨wl, v, hpop, hm, hnt, hpopped⟩ := h.popped hi
  obtain ⟨o, ho, hok⟩ := h.copied.obj_ok hs (h.copied.to_mem hm)
  have htrace : gcGenMinorTrace { ctx with wl } t =
      (o.tracedSlots.map (SlotRef.field t)).foldl gcGenEvacuateSlot { ctx with wl } := by
    simp only [gcGenMinorTrace, ho]
  obtain ⟨hfold, hmoves⟩ := MinorInv.foldl gcGenEvacuateSlot (fun h hr => h.evacuateSlot hs hr)
    (o.tracedSlots.map (SlotRef.field t)) hpopped (by
      intro r hr
      obtain ⟨p, -, rfl⟩ := List.mem_map.mp hr
      exact .inr ⟨v, t, p, hm, List.mem_cons_self .., rfl⟩)
  refine ⟨wl, v, hpop, h.copied.ok.old_ne_zero (h.copied.to_mem hm), hnt, ?_⟩
  rw [htrace]
  have hheld : ∀ r ∈ todo, HeldBy w₀ r →
      r ∈ (todo ∪ {r | ∃ p, r = .field t p}) \ {r | r ∈ o.tracedSlots.map (SlotRef.field t)} := by
    refine fun r hr hh => ⟨.inl hr, fun hmem' => ?_⟩
    obtain ⟨p, -, rfl⟩ := List.mem_map.mp hmem'
    exact h.copied.to_notMem_old₀ hm hh
  refine ⟨hfold.forget hheld fun r hr hn _ hy => ?_, hmoves.1, hmoves.2, hmoves.3, hmoves.4,
    hmoves.5⟩
  rcases hr.1 with hr' | ⟨p, rfl⟩
  · exact hn hr'
  · -- a slot that refers to a young object now did so when the copy was taken off
    have h₀ := (hfold.copied.ne_zero_of_follows (hfold.copied.fields v t (hmoves.fwd _ hm) p)).mp
      (hfold.copied.ok.young_ne_zero hy)
    have hcur := (h.copied.ne_zero_of_follows (h.copied.fields v t hm p)).mpr h₀
    rw [Graph.slot_eq ho] at hcur
    exact hr.2 (List.mem_map_of_mem (hok.traced hcur))

theorem gcGenMinorDrain_nil {ctx : GcGenMinorCtx} (hwl : ctx.wl.Ok) (hi : ctx.wl.items = [])
    (fuel : Nat) : gcGenMinorDrain fuel ctx = ctx := by
  have hpop := GcWorklist.pop_nil hwl hi
  cases fuel <;> simp [gcGenMinorDrain, hpop]

theorem gcGenMinorDrain_cons {ctx : GcGenMinorCtx} {wl : GcWorklist} {obj : Addr}
    (hpop : gcWorklistPop ctx.wl = (wl, obj)) (h0 : obj ≠ 0) (fuel : Nat) :
    gcGenMinorDrain (fuel + 1) ctx =
      gcGenMinorDrain fuel (gcGenMinorTrace { ctx with wl } obj) := by
  simp [gcGenMinorDrain, hpop, h0]

/-- With as many rounds as there are young objects left to copy, the loop ends by itself. -/
theorem MinorInv.drain (hs : MinorStart w₀ ys) : ∀ (fuel : Nat) {ctx : GcGenMinorCtx}
    {traced : List Addr}, MinorInv w₀ ys ctx traced todo → ys.length ≤ traced.length + fuel →
    ∃ traced', MinorInv w₀ ys (gcGenMinorDrain fuel ctx) traced' todo ∧
      (gcGenMinorDrain fuel ctx).wl.items = [] ∧ Moves ctx (gcGenMinorDrain fuel ctx)
  | fuel, ctx, traced, h, hfuel => by
      cases hi : ctx.wl.items with
      | nil =>
        rw [gcGenMinorDrain_nil h.gray.worklist hi]
        exact ⟨traced, h, hi, .refl ctx⟩
      | cons t rest =>
        obtain ⟨wl, v, hpop, h0, hnew, hnext, hmoves⟩ := h.pop hs hi
        have hsub : ∀ x ∈ v :: traced, x ∈ ys := by
          intro x hx
          obtain ⟨⟨t', hm⟩, -⟩ := hnext.gray.tracedFrom x hx
          exact hnext.copied.froms x t' hm
        have hlen := (List.subperm_of_subset hnext.gray.once hsub).length_le
        rw [List.length_cons] at hlen
        cases fuel with
        | zero => omega
        | succ fuel =>
          rw [gcGenMinorDrain_cons hpop h0]
          obtain ⟨traced', h', hend, hmoves'⟩ :=
            hnext.drain hs fuel (by rw [List.length_cons]; omega)
          exact ⟨traced', h', hend, hmoves.trans hmoves'⟩

/-- The slots of old objects, when the dirty cards have been skipped. -/
def skipped (w₀ w : GenWorld) : Set SlotRef :=
  {r | w.losses.cards = true ∧ ∃ a ∈ w₀.old, ∃ p, r = .field a p}

/-- The tracing loops of a minor collection. -/
theorem gcGenMinorTraceAll_spec (hs : MinorStart w₀ ys) (hrem : Remembered w₀ ys)
    {ctx : GcGenMinorCtx} (heq : gcGenMinorTraceAll w₀ = ctx) :
    ∃ traced, MinorInv w₀ ys ctx traced (skipped w₀ ctx.rt) ∧ ctx.wl.items = [] ∧
      (ctx.rt.mem.failed = false →
        ctx.rt.losses.cards = false ∧ ∀ o c, ¬ ctx.rt.barriers.Dirty o c) := by
  obtain ⟨h₁, hm₁⟩ := (MinorInv.init hs).scanHandles hs
  obtain ⟨h₂, hm₂⟩ := h₁.scanRoots hs
  have hm := hm₁.trans hm₂
  set ctx₂ := gcGenMinorScanRoots (gcGenMinorScanHandles
    { rt := gcGenClearForwarding w₀, wl := w₀.worklist }) with hctx₂
  have hcards : ctx₂.rt.losses.cards = false := hm.cards.trans hs.cards
  obtain ⟨⟨todo', hsub, hskip, hdone, h₃⟩, hclean⟩ :=
    h₂.scanDirtyCards hs hrem hm.dirty hm.granularity hcards rfl
  set ctx₃ := gcGenMinorScanDirtyCards ctx₂ with hctx₃
  obtain ⟨traced, h₄, hend, hm₄⟩ := h₃.drain hs w₀.algoState.nurseryUsed
    (by simpa using hs.ok.layout.tiles.length_le)
  have hall : gcGenMinorDrain w₀.algoState.nurseryUsed ctx₃ = ctx := heq
  rw [hall] at h₄ hend hm₄
  refine ⟨traced, h₄.forget (fun r hr _ => ?_) fun r hr hn hk _ => ?_, hend, fun hf => ?_⟩
  · obtain ⟨hc, a, ha, p, rfl⟩ := hr
    rw [hskip (hm₄.cards ▸ hc)]
    exact ⟨⟨ha, fun ⟨k, _, he⟩ => nomatch he⟩, fun ⟨i, he⟩ => nomatch he⟩
  · obtain ⟨⟨hheld, hnh⟩, hnr⟩ := hsub hr
    cases r with
    | root i => exact hnr ⟨i, rfl⟩
    | handle a =>
      obtain ⟨k, hk', rfl⟩ := List.mem_map.mp (show a ∈ w₀.graph.handles.map GcHandle.addr from hheld)
      exact hnh ⟨k, hk', rfl⟩
    | field a p =>
      by_cases hc : ctx.rt.losses.cards = true
      · exact hn ⟨hc, a, hheld, p, rfl⟩
      · rw [hm₄.cards] at hc
        exact hdone (Bool.eq_false_iff.mpr hc) a hheld p hr
  · obtain ⟨hc, hd⟩ := hclean (hm₄.failed hf)
    exact ⟨hm₄.cards.trans hc, fun o c hoc => hd o c ((hm₄.dirty o c).mp hoc)⟩

end Xgc
