import Xgc.Algo.GenPhases

/-! The end of a minor collection: the walk over the nursery, and what the collection has done as a
    whole. When no place refers to a young object any more, it has moved exactly what can be reached
    from roots, handles and old objects. -/

namespace Xgc

open Lib (Reach lookup lookup_eq_some lookup_eq_none)

/-! ### The walk over the nursery -/

/-- The young objects that have not been copied. -/
def deadYoung (s : GenState) (ys : List Nat) : List Nat :=
  ys.filter fun y => (gcGenFindForward s y).isNone

/-- The deaths of the objects at the addresses `ds`. -/
def Graph.deaths (g : Graph) (ds : List Nat) : List Event :=
  ds.flatMap fun a => deathsOf g.history (g.tagAt a)

/-- The runtime with more entries in the log. -/
def GenWorld.logged (w : GenWorld) (events : List Event) : GenWorld :=
  { w with graph := { w.graph with log := w.graph.log ++ events } }

theorem GenWorld.logged_logged (w : GenWorld) (es es' : List Event) :
    (w.logged es).logged es' = w.logged (es ++ es') := by
  simp [logged]

/-- The walk logs the deaths of the young objects that have not been copied. -/
theorem finalizeFrom_eq : ∀ (ys : List Nat) {a n : Nat} {w : GenWorld} (fuel : Nat),
    Tiles w.graph a n ys → (∀ y ∈ ys, Reclaimable w.graph y) → ys.length ≤ fuel →
    gcGenFinalizeFrom fuel a (a + n) w = w.logged (w.graph.deaths (deadYoung w.algoState ys))
  | [], a, n, w, fuel, ht, _, _ => by
      obtain rfl : n = 0 := ht
      cases fuel <;> simp [gcGenFinalizeFrom, deadYoung, Graph.deaths, GenWorld.logged]
  | y :: ys, a, n, w, 0, _, _, hf => by simp at hf
  | y :: ys, a, n, w, fuel + 1, ht, hr, hf => by
      obtain ⟨o, ho, ⟨d, hd⟩, hh⟩ := hr y (List.mem_cons_self ..)
      obtain ⟨rfl, hlt, hstop, hrest⟩ := ht.head ho
      have hevents : o.deathEvents = deathsOf w.graph.history (w.graph.tagAt y) := by
        rw [GcHeader.deathEvents_eq hd hh, Graph.tagAt_eq ho]
      set events := if (gcGenFindForward w.algoState y).isNone then o.deathEvents else []
        with hev
      have hstep : gcGenFinalizeFrom (fuel + 1) y (y + n) w =
          gcGenFinalizeFrom fuel (y + o.size) (y + o.size + (n - o.size)) (w.logged events) := by
        rw [gcGenFinalizeFrom, if_pos hlt, ho, hstop]
        rfl
      have ih := finalizeFrom_eq ys fuel (w := w.logged events) (hrest.congr fun _ _ => rfl)
        (fun x hx => hr x (List.mem_cons_of_mem _ hx)) (by simpa using hf)
      rw [hstep, ih, GenWorld.logged_logged]
      congr 1
      show events ++ w.graph.deaths (deadYoung w.algoState ys) =
        w.graph.deaths (deadYoung w.algoState (y :: ys))
      by_cases hn : (gcGenFindForward w.algoState y).isNone = true
      · simp only [hev, deadYoung, Graph.deaths, List.filter_cons, hn, if_true, List.flatMap_cons,
          hevents]
      · simp only [hev, deadYoung, Graph.deaths, List.filter_cons, hn, Bool.false_eq_true, if_false,
          List.nil_append]

/-- The runtime when the tracing loops have ended with `ctx`. -/
def minorEnd (ctx : GcGenMinorCtx) (ys : List Nat) : GenWorld :=
  { ctx.rt with
    graph := { ctx.rt.graph with
      log := ctx.rt.graph.log ++ ctx.rt.graph.deaths (deadYoung ctx.rt.algoState ys) }
    heap := { ctx.rt.heap with youngUsed := 0 }
    stats := { ctx.rt.stats with
      totalAllocated := ctx.rt.stats.totalAllocated - ctx.rt.algoState.nurseryUsed }
    worklistData := ctx.wl.data
    worklistCapacity := ctx.wl.capacity
    algoState := { ctx.rt.algoState with nurseryUsed := 0, forwarded := [] } }

variable {w₀ : GenWorld} {ys : List Nat} {ctx : GcGenMinorCtx} {traced : List Addr}
  {todo : Set SlotRef}

theorem Copied.reclaimable {w : GenWorld} (hs : MinorStart w₀ ys) (h : Copied w₀ ys w) :
    ∀ y ∈ ys, Reclaimable w.graph y := by
  intro y hy
  obtain ⟨o, ho, hd, hh⟩ := hs.heap.reclaimable (List.mem_append_right _ hy)
  exact ⟨o, (h.young y hy).trans ho, hd, by rw [h.history]; exact hh⟩

/-- `gc_gen_collect_minor_impl` on a nursery that is not empty. -/
theorem gcGenCollectMinorImpl_eq (hs : MinorStart w₀ ys) (hused : w₀.algoState.nurseryUsed ≠ 0)
    (heq : gcGenMinorTraceAll w₀ = ctx) (h : MinorInv w₀ ys ctx traced todo) :
    gcGenCollectMinorImpl w₀ = minorEnd ctx ys := by
  have hspace : w₀.algoState.nurserySpace ≠ 0 := Nat.pos_iff_ne_zero.mp hs.ok.space_range.1
  have hspace' : ctx.rt.algoState.nurserySpace ≠ 0 := by rw [h.copied.space]; exact hspace
  have htiles := h.copied.ok.layout.tiles
  have htotal := h.copied.ok.layout.total
  have hused' := h.copied.used
  have hdead := h.copied.reclaimable hs
  set w : GenWorld :=
    { ctx.rt with worklistData := ctx.wl.data, worklistCapacity := ctx.wl.capacity } with hw
  have hwalk : gcGenFinalizeFrom w.algoState.nurseryUsed w.algoState.nurserySpace
      (w.algoState.nurserySpace + w.algoState.nurseryUsed) w =
      w.logged (ctx.rt.graph.deaths (deadYoung ctx.rt.algoState ys)) :=
    finalizeFrom_eq ys w.algoState.nurseryUsed htiles hdead htiles.length_le
  have hge : ctx.rt.stats.totalAllocated ≥ ctx.rt.algoState.nurseryUsed := by omega
  have hlt : ¬ ctx.rt.stats.totalAllocated < ctx.rt.algoState.nurseryUsed := by omega
  unfold gcGenCollectMinorImpl
  rw [if_neg (by simp [hs.ok.rt.bound]), if_neg hspace, if_neg hused, heq]
  simp only [gcGenFinalizeDeadNursery, if_neg hspace', ← hused']
  rw [hw] at hwalk
  rw [hwalk]
  simp [minorEnd, gcGenClearForwarding, gcHeapResetYoung, GcStats.sub, GenWorld.logged, hge, hlt]

/-- Storage and counters are in order after a minor collection, whatever was refused. -/
theorem Copied.minorEnd (h : Copied w₀ ys ctx.rt) (hwl : ctx.wl.Ok) :
    GenOk (minorEnd ctx ys) [] := by
  obtain ⟨hrt, howns, hlayout⟩ := h.ok
  have htotal := hlayout.total
  refine ⟨{ hrt with worklist := hwl.reset, peak := ?_ }, howns, ?_⟩
  · exact le_trans (Nat.sub_le _ _) hrt.peak
  · refine ⟨rfl, Nat.zero_le _, fun a ha => ?_, hlayout.unmarked, hlayout.owners, ?_, ?_⟩
    · rw [List.append_nil] at ha
      exact hlayout.sized a (List.mem_append_left _ ha)
    · show { ctx.rt.heap with youngUsed := 0 } = _
      rw [hlayout.heap]
      rfl
    · show ctx.rt.stats.totalAllocated - ctx.rt.algoState.nurseryUsed =
        0 + bytesOf ctx.rt.graph ctx.rt.algoState.oldObjects
      omega

/-! ### What has been moved -/

/-- No place outside of the nursery refers to a young object any more. -/
structure Settled (w₀ : GenWorld) (ys : List Nat) (w : GenWorld) : Prop where
  held : ∀ r, HeldBy w₀ r → w.graph.read r ∉ ys
  fields : ∀ v t, Moved w.fwd v t → ∀ p, w.graph.slot t p ∉ ys

/-- All refusals of a collection were harmless: none on the last visit of a place, the snapshot only
    if no old object refers to a young one, pushes only of copies that refer to no young object. -/
structure Harmless (w₀ : GenWorld) (ys : List Nat) (losses : Losses) : Prop where
  copies : losses.refused = []
  cards : losses.cards = true → ∀ a ∈ w₀.old, ∀ p, w₀.graph.slot a p ∉ ys
  pushes : ∀ v ∈ ys, w₀.graph.tagAt v ∈ losses.copies → ∀ p, w₀.graph.slot v p ∉ ys

/-- The collection settles all places exactly when its refusals were harmless. -/
theorem MinorInv.settled_iff (hs : MinorStart w₀ ys) (h : MinorInv w₀ ys ctx traced (skipped w₀ ctx.rt))
    (hend : ctx.wl.items = []) : Settled w₀ ys ctx.rt ↔ Harmless w₀ ys ctx.rt.losses := by
  constructor
  · intro hset
    refine ⟨List.eq_nil_iff_forall_not_mem.mpr fun r hr => ?_, fun hc a ha p hy => ?_,
      fun v hv hd p hy => ?_⟩
    · obtain ⟨hr' | ⟨v, t, p, hm, rfl⟩, hy⟩ := h.stale.refused r hr
      · exact hset.held r hr' hy
      · exact hset.fields v t hm p hy
    · have hskip := h.stale.untouched (.field a p) ⟨hc, a, ha, p, rfl⟩ ha
      refine hset.held (.field a p) ha ?_
      rw [hskip]
      exact hy
    · obtain ⟨v', t, hm, he⟩ := h.gray.dropped _ hd
      obtain rfl := hs.tag_inj (h.copied.froms v' t hm) hv he
      exact hset.fields v' t hm p ((h.gray.untouched v' t hm hd p).symm ▸ hy)
  · intro hh
    refine ⟨fun r hr hy => ?_, fun v t hm p hy => ?_⟩
    · rcases h.stale.held r hr hy with ⟨hc, a, ha, p, rfl⟩ | hu
      · have hf := h.copied.eq_of_young (h.copied.held (.field a p) ha) hy
        exact hh.cards hc a ha p (by
          show w₀.graph.read (.field a p) ∈ ys
          rw [← hf]
          exact hy)
      · rw [hh.copies] at hu
        exact nomatch hu
    · rcases h.stale.fields v t hm p hy with ⟨-, a, ha, q, he⟩ | hu | hi | hd
      · cases he
        exact h.copied.to_notMem_old₀ hm ha
      · rw [hh.copies] at hu
        exact nomatch hu
      · rw [hend] at hi
        exact nomatch hi
      · exact hh.pushes v (h.copied.froms v t hm) hd p (h.gray.untouched v t hm hd p ▸ hy)

/-- Where the object at `v` is after the collection. -/
def forwardOf (F : List GcGenForward) (v : Addr) : Addr :=
  match lookup GcGenForward.fromObj v F with
  | some e => e.toObj
  | none => v

/-- The objects that the collection has kept. -/
def minorKept (w₀ w : GenWorld) : Set Addr := {a | a ∈ w₀.old ∨ ∃ t, Moved w.fwd a t}

/-- What can be reached from roots, handles and old objects. -/
def minorLive (g : Graph) (old : List Addr) : Set Addr :=
  {a | Reach (g.rootRefs ∪ {a | a ∈ old}) g.Edge a}

namespace Copied

variable {w : GenWorld}

theorem forwardOf_moved (h : Copied w₀ ys w) {v t : Addr} (hm : Moved w.fwd v t) :
    forwardOf w.fwd v = t := by
  have hl := (lookup_eq_some (k := v) h.once).mpr ⟨hm, rfl⟩
  simp [forwardOf, hl]

theorem forwardOf_notMem (h : Copied w₀ ys w) {v : Addr} (hv : v ∉ ys) :
    forwardOf w.fwd v = v := by
  have hl : lookup GcGenForward.fromObj v w.fwd = none := by
    rw [lookup_eq_none]
    rintro e he rfl
    exact hv (h.froms e.fromObj e.toObj he)
  simp [forwardOf, hl]

theorem forwardOf_old (h : Copied w₀ ys w) {a : Addr} (ha : a ∈ w₀.old) :
    forwardOf w.fwd a = a :=
  h.forwardOf_notMem (h.ok.old_notMem (h.mem_old.mpr (.inr ha)))

/-- A valid reference that does not lead into the nursery has followed its object. -/
theorem follows_eq (h : Copied w₀ ys w) {v v' : Addr} (hf : Follows w.fwd v v')
    (hv : v = 0 ∨ v ∈ w₀.old ++ ys) (hn : v' ∉ ys) :
    v' = forwardOf w.fwd v ∧ (v = 0 ∨ v ∈ minorKept w₀ w) := by
  rcases hf with rfl | hm
  · refine ⟨(h.forwardOf_notMem hn).symm, hv.imp_right fun ho => .inl ?_⟩
    exact (List.mem_append.mp ho).resolve_right hn
  · exact ⟨(h.forwardOf_moved hm).symm, .inr (.inr ⟨v', hm⟩)⟩

theorem forwardOf_mem (h : Copied w₀ ys w) {a : Addr} (ha : a ∈ minorKept w₀ w) :
    forwardOf w.fwd a ∈ w.old := by
  rcases ha with ha | ⟨t, hm⟩
  · rw [h.forwardOf_old ha]
    exact h.mem_old.mpr (.inr ha)
  · rw [h.forwardOf_moved hm]
    exact h.to_mem hm

theorem mem_old_iff (h : Copied w₀ ys w) (b : Addr) :
    b ∈ w.old ↔ ∃ a ∈ minorKept w₀ w, forwardOf w.fwd a = b := by
  constructor
  · intro hb
    rcases h.mem_old.mp hb with ⟨v, hm⟩ | hb
    · exact ⟨v, .inr ⟨b, hm⟩, h.forwardOf_moved hm⟩
    · exact ⟨b, .inl hb, h.forwardOf_old hb⟩
  · rintro ⟨a, ha, rfl⟩
    exact h.forwardOf_mem ha

theorem kept_sub (h : Copied w₀ ys w) {a : Addr} (ha : a ∈ minorKept w₀ w) :
    a ∈ w₀.old ++ ys := by
  rcases ha with ha | ⟨t, hm⟩
  · exact List.mem_append_left _ ha
  · exact List.mem_append_right _ (h.froms a t hm)

theorem forwardOf_inj (h : Copied w₀ ys w) :
    Set.InjOn (forwardOf w.fwd) (minorKept w₀ w) := by
  rintro a (ha | ⟨t, ht⟩) b (hb | ⟨u, hu⟩) he
  · rwa [h.forwardOf_old ha, h.forwardOf_old hb] at he
  · rw [h.forwardOf_old ha, h.forwardOf_moved hu] at he
    exact absurd (he ▸ ha) (h.to_notMem_old₀ hu)
  · rw [h.forwardOf_moved ht, h.forwardOf_old hb] at he
    exact absurd (he ▸ hb) (h.to_notMem_old₀ ht)
  · rw [h.forwardOf_moved ht, h.forwardOf_moved hu] at he
    exact h.from_unique ht (he ▸ hu)

theorem follows_kept (h : Copied w₀ ys w) {a : Addr} (ha : a ∈ minorKept w₀ w) (p : SlotLoc) :
    Follows w.fwd (w₀.graph.slot a p) (w.graph.slot (forwardOf w.fwd a) p) := by
  rcases ha with ha | ⟨t, hm⟩
  · rw [h.forwardOf_old ha]
    exact h.held (.field a p) ha
  · rw [h.forwardOf_moved hm]
    exact h.fields a t hm p

/-- A slot of what has been kept follows its object when it does not lead into the nursery. -/
theorem slot_forward (hs : MinorStart w₀ ys) (h : Copied w₀ ys w) {a : Addr}
    (ha : a ∈ minorKept w₀ w) {p : SlotLoc} (hn : w.graph.slot (forwardOf w.fwd a) p ∉ ys) :
    w.graph.slot (forwardOf w.fwd a) p = forwardOf w.fwd (w₀.graph.slot a p) ∧
      (w₀.graph.slot a p = 0 ∨ w₀.graph.slot a p ∈ minorKept w₀ w) := by
  refine h.follows_eq (h.follows_kept ha p) ?_ hn
  rcases ha with ha | ⟨t, hm⟩
  · exact hs.valid_held (r := .field a p) ha
  · exact hs.valid_field (h.froms a t hm) p

/-- The slots of what has been kept. -/
theorem slot_kept (hset : Settled w₀ ys w) (hs : MinorStart w₀ ys) (h : Copied w₀ ys w) {a : Addr}
    (ha : a ∈ minorKept w₀ w) (p : SlotLoc) :
    w.graph.slot (forwardOf w.fwd a) p = forwardOf w.fwd (w₀.graph.slot a p) ∧
      (w₀.graph.slot a p = 0 ∨ w₀.graph.slot a p ∈ minorKept w₀ w) := by
  refine h.slot_forward hs ha ?_
  rcases ha with ha | ⟨t, hm⟩
  · rw [h.forwardOf_old ha]
    exact hset.held (.field a p) ha
  · rw [h.forwardOf_moved hm]
    exact hset.fields a t hm p

/-- What has been kept differs from what was there in its slots at most. -/
theorem obj_forward (h : Copied w₀ ys w) {a : Addr} (ha : a ∈ minorKept w₀ w) {o : GcHeader}
    (ho : w₀.graph.objs a = some o) :
    ∃ s, w.graph.objs (forwardOf w.fwd a) = some (o.withSlots s) := by
  rcases ha with ha | ⟨t, hm⟩
  · rw [h.forwardOf_old ha]
    exact h.kept a ha o ho
  · rw [h.forwardOf_moved hm]
    exact h.copies a t hm o ho

theorem obj_kept (hset : Settled w₀ ys w) (hs : MinorStart w₀ ys) (h : Copied w₀ ys w) {a : Addr}
    (ha : a ∈ minorKept w₀ w) {o : GcHeader} (ho : w₀.graph.objs a = some o) :
    w.graph.objs (forwardOf w.fwd a) = some (o.mapSlots (forwardOf w.fwd)) := by
  obtain ⟨s, hs'⟩ := h.obj_forward ha ho
  have hslots : s = fun p => forwardOf w.fwd (o.slots p) := by
    funext p
    have := (h.slot_kept hset hs ha p).1
    rw [Graph.slot_eq hs', Graph.slot_eq ho] at this
    exact this
  rw [hs', hslots]
  rfl

theorem tag_forward (hs : MinorStart w₀ ys) (h : Copied w₀ ys w) {a : Addr}
    (ha : a ∈ minorKept w₀ w) :
    w.graph.tagAt (forwardOf w.fwd a) = w₀.graph.tagAt a := by
  obtain ⟨o, ho, -⟩ := hs.heap.objs a (h.kept_sub ha)
  obtain ⟨s, hs'⟩ := h.obj_forward ha ho
  rw [Graph.tagAt_eq ho, Graph.tagAt_eq hs', GcHeader.withSlots_tag]

/-- The old objects can be marked and reclaimed, whatever was refused. -/
theorem markable (hs : MinorStart w₀ ys) (h : Copied w₀ ys w) : Markable w.graph w.old where
  nodup := h.ok.old_nodup
  nonNull h0 := h.ok.old_ne_zero h0 rfl
  objs b hb := by
    obtain ⟨a, ha, rfl⟩ := (h.mem_old_iff b).mp hb
    obtain ⟨o, ho, -⟩ := hs.heap.objs a (h.kept_sub ha)
    obtain ⟨s, hs'⟩ := h.obj_forward ha ho
    exact ⟨_, hs'⟩
  tags := by
    intro b hb c hc he
    obtain ⟨a, ha, rfl⟩ := (h.mem_old_iff b).mp hb
    obtain ⟨a', ha', rfl⟩ := (h.mem_old_iff c).mp hc
    rw [h.tag_forward hs ha, h.tag_forward hs ha'] at he
    rw [hs.heap.tag_inj (h.kept_sub ha) (h.kept_sub ha') he]

theorem reclaimable_old (hs : MinorStart w₀ ys) (h : Copied w₀ ys w) :
    ∀ b ∈ w.old, Reclaimable w.graph b := by
  intro b hb
  obtain ⟨a, ha, rfl⟩ := (h.mem_old_iff b).mp hb
  obtain ⟨o, ho, hd, hh⟩ := hs.heap.reclaimable (h.kept_sub ha)
  obtain ⟨s, hs'⟩ := h.obj_forward ha ho
  exact ⟨_, hs', hd, by rw [h.history]; exact hh⟩

theorem closed_kept (hset : Settled w₀ ys w) (hs : MinorStart w₀ ys) (h : Copied w₀ ys w) :
    w₀.graph.Closed (minorKept w₀ w) where
  roots i := (h.follows_eq (h.held (.root i) trivial) (hs.valid_held (r := .root i) trivial)
    (hset.held (.root i) trivial)).2
  handles k hk := by
    have hr : HeldBy w₀ (.handle k.addr) := List.mem_map_of_mem hk
    have hkept := (h.follows_eq (h.held _ hr) (hs.valid_held hr) (hset.held _ hr)).2
    rw [show w₀.graph.read (.handle k.addr) = k.target from hs.heap.target_eq hk] at hkept
    exact hkept.resolve_left (hs.heap.ne_zero (hs.heap.handles k hk))
  fields a ha p := (h.slot_kept hset hs ha p).2

end Copied

theorem mem_deadYoung {s : GenState} {y : Nat} :
    y ∈ deadYoung s ys ↔ y ∈ ys ∧ ∀ t, ¬ Moved s.forwarded y t := by
  rw [deadYoung, List.mem_filter, Option.isNone_iff_eq_none, findForward_none]

/-- The log of a minor collection: the objects that it has not kept have died, each once. -/
theorem minorEnd_log (hs : MinorStart w₀ ys) (h : Copied w₀ ys ctx.rt) :
    ∃ dead : List Nat, (minorEnd ctx ys).graph.log =
        w₀.graph.log ++ dead.flatMap (deathsOf w₀.graph.history) ∧ dead.Nodup ∧
      ∀ t, t ∈ dead ↔ ∃ a ∈ w₀.old ++ ys, a ∉ minorKept w₀ ctx.rt ∧ w₀.graph.tagAt a = t := by
  have htag : ∀ y ∈ ys, ctx.rt.graph.tagAt y = w₀.graph.tagAt y :=
    fun y hy => by simp [Graph.tagAt, h.young y hy]
  refine ⟨(deadYoung ctx.rt.algoState ys).map w₀.graph.tagAt, ?_, ?_, fun t => ?_⟩
  · show ctx.rt.graph.log ++ ctx.rt.graph.deaths _ = _
    rw [h.log, List.flatMap_map, Graph.deaths, h.history]
    congr 1
    exact List.flatMap_congr fun y hy => by rw [htag y (mem_deadYoung.mp hy).1]
  · refine List.Nodup.map_on (fun a ha b hb hab => ?_) (hs.ok.layout.tiles.nodup.filter _)
    exact hs.tag_inj (List.mem_filter.mp ha).1 (List.mem_filter.mp hb).1 hab
  · rw [List.mem_map]
    constructor
    · rintro ⟨y, hy, rfl⟩
      obtain ⟨hy, hn⟩ := mem_deadYoung.mp hy
      refine ⟨y, List.mem_append_right _ hy, ?_, rfl⟩
      rintro (ho | ⟨t, hm⟩)
      · exact hs.ok.old_notMem ho hy
      · exact hn t hm
    · rintro ⟨a, ha, hn, rfl⟩
      have hold : a ∉ w₀.old := fun ho => hn (.inl ho)
      exact ⟨a, mem_deadYoung.mpr ⟨(List.mem_append.mp ha).resolve_left hold,
        fun t hm => hn (.inr ⟨t, hm⟩)⟩, rfl⟩

/-- A minor collection that has settled all places has moved a closed set of objects. -/
theorem MinorInv.collected (hs : MinorStart w₀ ys) (h : MinorInv w₀ ys ctx traced todo)
    (hset : Settled w₀ ys ctx.rt) :
    Collected w₀.graph (minorEnd ctx ys).graph (w₀.old ++ ys) (minorEnd ctx ys).old
      (minorKept w₀ ctx.rt) (forwardOf ctx.rt.fwd) where
  zero := h.copied.forwardOf_notMem fun h0 => h.copied.ok.young_ne_zero h0 rfl
  ne_zero a ha := h.copied.ok.old_ne_zero (h.copied.forwardOf_mem ha)
  inj := h.copied.forwardOf_inj
  sub a ha := h.copied.kept_sub ha
  closed := h.copied.closed_kept hset hs
  image b := h.copied.mem_old_iff b
  nodup := h.copied.ok.old_nodup
  objs a ha o ho := h.copied.obj_kept hset hs ha ho
  roots i := (h.copied.follows_eq (h.copied.held (.root i) trivial)
    (hs.valid_held (r := .root i) trivial) (hset.held (.root i) trivial)).1
  handles := by
    show ctx.rt.graph.handles = _
    rw [h.copied.handles]
    refine List.map_congr_left fun k hk => ?_
    have hr : HeldBy w₀ (.handle k.addr) := List.mem_map_of_mem hk
    have heq := (h.copied.follows_eq (h.copied.held _ hr) (hs.valid_held hr) (hset.held _ hr)).1
    rw [show w₀.graph.read (.handle k.addr) = k.target from hs.heap.target_eq hk] at heq
    rw [GcHandle.mapTarget, ← heq]
    rfl
  hooks := h.copied.hooks
  history := h.copied.history
  log := minorEnd_log hs h.copied

/-! ### What is live to a minor collection -/

theorem minorLive_of_root (hs : MinorStart w₀ ys) {v : Addr} (hv : v ∈ minorRoots w₀ ys) :
    v ∈ minorLive w₀.graph w₀.old := by
  obtain ⟨hy, r, hr, rfl⟩ := hv
  have h0 : w₀.graph.read r ≠ 0 := hs.ok.young_ne_zero hy
  cases r with
  | root i => exact Reach.root (.inl ⟨h0, .inl ⟨i, rfl⟩⟩)
  | handle a =>
    obtain ⟨k, hk, rfl⟩ := List.mem_map.mp (show a ∈ w₀.graph.handles.map GcHandle.addr from hr)
    exact Reach.root (.inl ⟨h0, .inr ⟨k, hk, (hs.heap.target_eq hk).symm⟩⟩)
  | field a p => exact Reach.step (.root (.inr hr)) ⟨h0, p, rfl⟩

/-- Whatever is copied is live. -/
theorem MinorInv.live_of_kept (hs : MinorStart w₀ ys) (h : MinorInv w₀ ys ctx traced todo)
    {a : Addr} (ha : a ∈ minorKept w₀ ctx.rt) : a ∈ minorLive w₀.graph w₀.old := by
  rcases ha with ha | ⟨t, hm⟩
  · exact Reach.root (.inr ha)
  · refine (h.gray.sound a t hm).mem_of_closed (S := minorLive w₀.graph w₀.old) ?_ ?_
    · exact fun v hv => minorLive_of_root hs hv
    · rintro x y hx ⟨-, hy, p, hp⟩
      exact Reach.step hx ⟨hs.ok.young_ne_zero hy, p, hp⟩

/-- When all places are settled, exactly the live objects have been kept. -/
theorem MinorInv.kept_eq_live (hs : MinorStart w₀ ys) (h : MinorInv w₀ ys ctx traced todo)
    (hset : Settled w₀ ys ctx.rt) : minorKept w₀ ctx.rt = minorLive w₀.graph w₀.old := by
  refine Set.Subset.antisymm (fun a ha => h.live_of_kept hs ha) fun a ha => ?_
  have hclosed := h.copied.closed_kept hset hs
  refine ha.mem_of_closed ?_ ?_
  · rintro b (⟨h0, ⟨i, rfl⟩ | ⟨k, hk, rfl⟩⟩ | hb)
    · exact (hclosed.roots i).resolve_left h0
    · exact hclosed.handles k hk
    · exact .inl hb
  · rintro b c hb ⟨h0, p, rfl⟩
    exact (hclosed.fields b hb p).resolve_left h0

end Xgc
