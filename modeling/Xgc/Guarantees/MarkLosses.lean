import Xgc.Algo.Spared
import Xgc.Guarantees.Generational
import Xgc.Guarantees.MarkSweep

/-! What marking does to reachable objects when the worklist cannot grow. An object is marked before
    it is pushed, and `gc_worklist_push` says nothing of a push that it has dropped, so what only a
    dropped object refers to is never marked. A full collection therefore keeps those objects that
    roots and handles lead to without a reference out of a dropped object. -/

namespace Xgc

open Lib (Reach lookup update lookup_update_of_ne exists_lookup mem_of_lookup)

variable {σ : Type}

/-- The object at `a` has not been reclaimed: it is still tracked, its finalizer has not been called
    and its storage has not been given up. -/
structure Retained (C : Collector σ) (w w' : World σ) (a : Addr) : Prop where
  tracked : ∃ b ∈ C.tracked w', w'.graph.tagAt b = w.graph.tagAt a
  finalized : .finalize (w.graph.tagAt a) ∉ w'.graph.log
  released : .release (w.graph.tagAt a) ∉ w'.graph.log

/-- Only the graph and the tracked objects of the state after the collection matter. -/
theorem Retained.congr {C : Collector σ} {w w' w'' : World σ} {a : Addr} (h : Retained C w w' a)
    (hgraph : w''.graph = w'.graph) (htracked : C.tracked w'' = C.tracked w') :
    Retained C w w'' a where
  tracked := by rw [hgraph, htracked]; exact h.tracked
  finalized := by rw [hgraph]; exact h.finalized
  released := by rw [hgraph]; exact h.released

/-- Where only other objects have died, a tracked object has been retained. -/
theorem Retained.of_deaths {C : Collector σ} {w w' : World σ}
    (h : HeapInv w.graph (C.tracked w)) {a : Addr} (ha : a ∈ C.tracked w)
    (htracked : ∃ b ∈ C.tracked w', w'.graph.tagAt b = w.graph.tagAt a) (dead : List Nat)
    (hlog : w'.graph.log = w.graph.log ++ dead.flatMap (deathsOf w.graph.history))
    (hdead : w.graph.tagAt a ∉ dead) : Retained C w w' a := by
  obtain ⟨before, hl⟩ := h.lives
  have hall : w'.graph.log = (before ++ dead).flatMap (deathsOf w.graph.history) := by
    rw [hlog, hl.log, List.flatMap_append]
  have hnot : w.graph.tagAt a ∉ before ++ dead := fun hm =>
    (List.mem_append.mp hm).elim (hl.disjoint a ha) hdead
  refine ⟨htracked, fun hm => ?_, fun hm => ?_⟩
  · rw [hall] at hm
    obtain ⟨t, ht, hm⟩ := List.mem_flatMap.mp hm
    exact hnot (((finalize_mem_deathsOf _ _ _).mp hm).1 ▸ ht)
  · rw [hall] at hm
    obtain ⟨t, ht, hm⟩ := List.mem_flatMap.mp hm
    exact hnot ((release_mem_deathsOf _ _ _).mp hm ▸ ht)

/-! ### Mark-sweep -/

/-- A collection of mark-sweep retains an object exactly when roots and handles lead to it without a
    reference out of an object that the worklist has dropped. -/
theorem gcMarksweepCollectFullImpl_retained {w : MsWorld} (h : msManager.Inv w)
    (hnone : w.losses.marks = []) {a : Addr} (ha : a ∈ msCollector.tracked w) :
    Retained msCollector w (gcMarksweepCollectFullImpl w) a ↔
      liveThrough w.graph (gcMarksweepCollectFullImpl w).losses.marks a := by
  classical
  have hheap : HeapInv w.graph (msCollector.tracked w) := h.heap
  obtain ⟨dropped, wl, m, -, -, -, heq⟩ := gcMarksweepCollectFullImpl_spec h
  rw [heq, hnone, List.nil_append]
  have htag := fun b => @tagAt_kill_dead (liveThrough w.graph dropped) _ w.graph
    w.algoState.objects b
  set ds := (deadNodes (liveThrough w.graph dropped) w.algoState.objects).map GcNode.obj with hds
  constructor
  · rintro ⟨⟨b, hb, he⟩, -, -⟩
    obtain ⟨hmem, hb⟩ := mem_liveNodes.mp hb
    rw [show (w.graph.kill ds).tagAt b = _ from htag b hb] at he
    rwa [← hheap.tag_inj hmem ha he]
  · intro hl
    refine .of_deaths hheap ha ⟨a, mem_liveNodes.mpr ⟨ha, hl⟩, htag a hl⟩ (ds.map w.graph.tagAt) ?_
      fun hm => ?_
    · rw [List.flatMap_map]
      rfl
    · obtain ⟨b, hb, he⟩ := List.mem_map.mp hm
      rw [hds] at hb
      obtain ⟨hmem, hb⟩ := mem_deadNodes.mp hb
      obtain rfl := hheap.tag_inj hmem ha he
      exact hb hl

/-! ### The generational collector -/

/-- What a full collection gets to that has dropped the copies and the marked objects with these
    tags: a mark phase follows no reference out of a dropped object, and a minor collection none to a
    young object out of a dropped copy. -/
def reachedThrough (g : Graph) (young : List Nat) (copies marks : List Nat) (a : Addr) : Prop :=
  Reach g.rootRefs
    (fun a b => g.tagAt a ∉ marks ∧ (g.tagAt a ∈ copies → b ∉ young) ∧ g.Edge a b) a

theorem reachedThrough_reachable {g : Graph} {young copies marks : List Nat} {a : Addr}
    (h : reachedThrough g young copies marks a) : g.Reachable a :=
  h.mono subset_rfl fun _ _ he => he.2.2

/-- Of the requests of a full collection none but those of `gc_worklist_push` is refused. -/
def OnlyPushesRefused (w : GenWorld) : Prop :=
  (gcGenCollectFullImpl w).losses.refused = [] ∧ (gcGenCollectFullImpl w).losses.cards = false

variable {w : GenWorld} {ys : List Nat} {ctx : GcGenMinorCtx} {traced : List Addr}

namespace MinorInv

theorem held_notMem (h : MinorInv w ys ctx traced (skipped w ctx.rt))
    (hrefused : ctx.rt.losses.refused = []) (hcards : ctx.rt.losses.cards = false) {r : SlotRef}
    (hr : HeldBy w r) : ctx.rt.graph.read r ∉ ys := by
  intro hy
  rcases h.stale.held r hr hy with ⟨hc, -⟩ | hu
  · rw [hcards] at hc
    exact nomatch hc
  · rw [hrefused] at hu
    exact nomatch hu

/-- A slot of what has been kept leads into the nursery only when the push of its object has been
    dropped and it did so before. -/
theorem slot_notMem (h : MinorInv w ys ctx traced (skipped w ctx.rt)) (hend : ctx.wl.items = [])
    (hrefused : ctx.rt.losses.refused = []) (hcards : ctx.rt.losses.cards = false) {a : Addr}
    (ha : a ∈ minorKept w ctx.rt) {p : SlotLoc}
    (hpush : w.graph.tagAt a ∈ ctx.rt.losses.copies → w.graph.slot a p ∉ ys) :
    ctx.rt.graph.slot (forwardOf ctx.rt.fwd a) p ∉ ys := by
  rcases ha with ha | ⟨t, hm⟩
  · rw [h.copied.forwardOf_old ha]
    exact h.held_notMem hrefused hcards (r := .field a p) ha
  · rw [h.copied.forwardOf_moved hm]
    intro hy
    rcases h.stale.fields a t hm p hy with ⟨hc, -⟩ | hu | hi | hd
    · rw [hcards] at hc
      exact nomatch hc
    · rw [hrefused] at hu
      exact nomatch hu
    · rw [hend] at hi
      exact nomatch hi
    · rw [h.gray.untouched a t hm hd p] at hy
      exact hpush hd hy

/-- A place outside of the nursery that referred to an object refers to where the object is now. -/
theorem held_forward (hs : MinorStart w ys) (h : MinorInv w ys ctx traced (skipped w ctx.rt))
    (hrefused : ctx.rt.losses.refused = []) (hcards : ctx.rt.losses.cards = false) {r : SlotRef}
    (hr : HeldBy w r) (h0 : w.graph.read r ≠ 0) :
    w.graph.read r ∈ minorKept w ctx.rt ∧
      ctx.rt.graph.read r = forwardOf ctx.rt.fwd (w.graph.read r) := by
  obtain ⟨heq, hk⟩ := h.copied.follows_eq (h.copied.held r hr) (hs.valid_held hr)
    (h.held_notMem hrefused hcards hr)
  exact ⟨hk.resolve_left h0, heq⟩

/-- What roots and handles led to is where marking starts. -/
theorem markStart_forward (hs : MinorStart w ys) (h : MinorInv w ys ctx traced (skipped w ctx.rt))
    (hrefused : ctx.rt.losses.refused = []) (hcards : ctx.rt.losses.cards = false) {a : Addr}
    (ha : a ∈ w.graph.rootRefs) : a ∈ minorKept w ctx.rt ∧ forwardOf ctx.rt.fwd a ∈
      markStart (minorEnd ctx ys).graph (minorEnd ctx ys).old := by
  have hstart : ∀ {a}, a ∈ minorKept w ctx.rt → forwardOf ctx.rt.fwd a ∈ (minorEnd ctx ys).old ∧
      forwardOf ctx.rt.fwd a ≠ 0 := fun hk =>
    ⟨h.copied.forwardOf_mem hk, h.copied.ok.old_ne_zero (h.copied.forwardOf_mem hk)⟩
  obtain ⟨h0, ⟨i, rfl⟩ | ⟨k, hk, rfl⟩⟩ := ha
  · obtain ⟨hkept, heq⟩ := h.held_forward hs hrefused hcards (r := .root i) trivial h0
    obtain ⟨hmem, hne⟩ := hstart hkept
    refine ⟨hkept, hmem, hne, .inr ⟨i, ?_, heq⟩⟩
    have hslot := ((hs.heap.roots i).resolve_left h0).1
    have hroot : ctx.rt.graph.roots i ≠ 0 := fun hz => hne (heq.symm.trans hz)
    obtain ⟨scan, hscan, hi⟩ := hs.heap.hooks ctx.rt.graph.roots i hslot hroot
    show i ∈ ctx.rt.graph.scannedRoots
    rw [Graph.scannedRoots, h.copied.hooks, hscan]
    exact hi
  · have hr : HeldBy w (.handle k.addr) := List.mem_map_of_mem hk
    have hread : w.graph.read (.handle k.addr) = k.target := hs.heap.target_eq hk
    obtain ⟨hkept, heq⟩ := h.held_forward hs hrefused hcards hr (hread ▸ h0)
    rw [hread] at hkept heq
    obtain ⟨hmem, hne⟩ := hstart hkept
    refine ⟨hkept, hmem, hne, .inl ⟨{ k with target := ctx.rt.graph.target k.addr }, ?_, heq⟩⟩
    show _ ∈ ctx.rt.graph.handles
    rw [h.copied.handles]
    exact List.mem_map_of_mem hk

/-- What a full collection gets to has been kept by its minor collection, and is marked. -/
theorem live_of_through (hs : MinorStart w ys) (h : MinorInv w ys ctx traced (skipped w ctx.rt))
    (hend : ctx.wl.items = []) (hrefused : ctx.rt.losses.refused = [])
    (hcards : ctx.rt.losses.cards = false) {dropped : List Nat} {a : Addr}
    (ha : reachedThrough w.graph ys ctx.rt.losses.copies dropped a) :
    a ∈ minorKept w ctx.rt ∧ oldLive (minorEnd ctx ys) dropped (forwardOf ctx.rt.fwd a) := by
  induction ha with
  | root hr =>
    obtain ⟨hkept, hstart⟩ := h.markStart_forward hs hrefused hcards hr
    exact ⟨hkept, .root hstart⟩
  | @step a b _ he ih =>
    obtain ⟨hkept, hlive⟩ := ih
    obtain ⟨hmarks, hcopies, h0, p, rfl⟩ := he
    obtain ⟨heq, hk⟩ := h.copied.slot_forward hs hkept
      (h.slot_notMem hend hrefused hcards hkept hcopies)
    have hkept' := hk.resolve_left h0
    have hmem := h.copied.forwardOf_mem hkept'
    obtain ⟨o, ho, hok, -⟩ := hs.heap.objs a (h.copied.kept_sub hkept)
    obtain ⟨s, hs'⟩ := h.copied.obj_forward hkept ho
    have hok' : (o.withSlots s).Ok := hok.withSlots fun q hq => hok.slots q <| by
      rw [← Graph.slot_eq ho]
      refine (h.copied.ne_zero_of_follows (h.copied.follows_kept hkept q)).mp ?_
      rwa [Graph.slot_eq hs']
    rw [Graph.slot_eq hs'] at heq
    have hne := h.copied.ok.old_ne_zero hmem
    have htag : (minorEnd ctx ys).graph.tagAt (forwardOf ctx.rt.fwd a) = w.graph.tagAt a :=
      h.copied.tag_forward hs hkept
    exact ⟨hkept', .step hlive ⟨htag ▸ hmarks, hmem, hne, o.withSlots s, hs', p,
      hok'.traced fun hz => hne (heq.symm.trans hz), heq⟩⟩

/-- What is marked has been kept by the minor collection, and a full collection gets to it. -/
theorem through_of_live (hs : MinorStart w ys) (h : MinorInv w ys ctx traced (skipped w ctx.rt))
    {dropped : List Nat} {b : Addr} (hb : oldLive (minorEnd ctx ys) dropped b) :
    ∃ a ∈ minorKept w ctx.rt, forwardOf ctx.rt.fwd a = b ∧
      reachedThrough w.graph ys ctx.rt.losses.copies dropped a := by
  -- a place that leads to an old object has followed its object
  have hplace : ∀ {v v' : Addr}, Follows ctx.rt.fwd v v' → (v = 0 ∨ v ∈ w.old ++ ys) →
      v' ∈ (minorEnd ctx ys).old → v ≠ 0 ∧ v ∈ minorKept w ctx.rt ∧ forwardOf ctx.rt.fwd v = v' := by
    intro v v' hf hv hold
    have h0 : v ≠ 0 := (h.copied.ne_zero_of_follows hf).mp (h.copied.ok.old_ne_zero hold)
    obtain ⟨heq, hk⟩ := h.copied.follows_eq hf hv (h.copied.ok.old_notMem hold)
    exact ⟨h0, hk.resolve_left h0, heq.symm⟩
  induction hb with
  | root hr =>
    obtain ⟨hmem, -, ⟨k, hk, rfl⟩ | ⟨i, -, rfl⟩⟩ := hr
    · change k ∈ ctx.rt.graph.handles at hk
      rw [h.copied.handles] at hk
      obtain ⟨k₀, hk₀, rfl⟩ := List.mem_map.mp hk
      have hr : HeldBy w (.handle k₀.addr) := List.mem_map_of_mem hk₀
      have hread : w.graph.read (.handle k₀.addr) = k₀.target := hs.heap.target_eq hk₀
      obtain ⟨h0, hkept, heq⟩ := hplace (h.copied.held _ hr) (hs.valid_held hr) hmem
      rw [hread] at h0 hkept heq
      exact ⟨k₀.target, hkept, heq, .root ⟨h0, .inr ⟨k₀, hk₀, rfl⟩⟩⟩
    · obtain ⟨h0, hkept, heq⟩ := hplace (h.copied.held (.root i) trivial)
        (hs.valid_held (r := .root i) trivial) hmem
      exact ⟨w.graph.roots i, hkept, heq, .root ⟨h0, .inl ⟨i, rfl⟩⟩⟩
  | step _ he ih =>
    obtain ⟨a, hkept, rfl, ha⟩ := ih
    obtain ⟨hmarks, hmem, -, o, ho, p, -, rfl⟩ := he
    have htag : (minorEnd ctx ys).graph.tagAt (forwardOf ctx.rt.fwd a) = w.graph.tagAt a :=
      h.copied.tag_forward hs hkept
    rw [htag] at hmarks
    have hslot : ctx.rt.graph.slot (forwardOf ctx.rt.fwd a) p = o.slots p :=
      Graph.slot_eq (g := ctx.rt.graph) ho p
    rw [← hslot] at hmem ⊢
    have hnot := h.copied.ok.old_notMem hmem
    obtain ⟨heq, hk⟩ := h.copied.slot_forward hs hkept hnot
    have h0 : w.graph.slot a p ≠ 0 :=
      (h.copied.ne_zero_of_follows (h.copied.follows_kept hkept p)).mp (h.copied.ok.old_ne_zero hmem)
    refine ⟨w.graph.slot a p, hk.resolve_left h0, heq.symm,
      .step ha ⟨hmarks, fun hd => ?_, h0, p, rfl⟩⟩
    -- the slots of a dropped copy are those of the object that it was copied from
    obtain ⟨v, t, hm, he⟩ := h.gray.dropped _ hd
    obtain rfl := hs.heap.tag_inj (List.mem_append_right _ (h.copied.froms v t hm))
      (h.copied.kept_sub hkept) he
    rw [h.copied.forwardOf_moved hm, h.gray.untouched v t hm hd p] at hnot
    exact hnot

end MinorInv

/-- What a minor collection, whose requests are refused for pushes at most, has done for the mark
    phase after it: `kept` are the objects that it has kept, and `φ` says where they are. -/
structure HandsOver (w w₁ : GenWorld) (kept : Set Addr) (φ : Addr → Addr) : Prop where
  tracked : ∀ a ∈ kept, a ∈ genCollector.tracked w
  old : ∀ a ∈ kept, φ a ∈ w₁.old
  tags : ∀ a ∈ kept, w₁.graph.tagAt (φ a) = w.graph.tagAt a
  history : w₁.graph.history = w.graph.history
  log : ∃ dead : List Nat, w₁.graph.log =
      w.graph.log ++ dead.flatMap (deathsOf w.graph.history) ∧
    ∀ a ∈ kept, w.graph.tagAt a ∉ dead
  marks : ∀ dropped a, reachedThrough w.graph (nurseryObjects w) w₁.losses.copies dropped a →
    a ∈ kept ∧ oldLive w₁ dropped (φ a)
  marked : ∀ dropped b, oldLive w₁ dropped b → ∃ a ∈ kept, φ a = b ∧
    reachedThrough w.graph (nurseryObjects w) w₁.losses.copies dropped a

variable {tidy : Prop}

theorem gcGenCollectMinorImpl_handsOver (h : (genManager tidy).Inv w)
    (hrefused : (gcGenCollectMinorImpl w).losses.refused = [])
    (hcards : (gcGenCollectMinorImpl w).losses.cards = false) :
    ∃ kept φ, HandsOver w (gcGenCollectMinorImpl w) kept φ := by
  by_cases hused : w.algoState.nurseryUsed = 0
  · -- nothing is moved
    have hheap : HeapInv w.graph w.old := tracked_nil hused ▸ h.heap
    have hiff : ∀ dropped a, reachedThrough w.graph (nurseryObjects w) w.losses.copies dropped a ↔
        oldLive w dropped a := by
      intro dropped a
      rw [h.alg.copies, oldLive, hheap.mark_reach fun a => w.graph.tagAt a ∉ dropped]
      simp [reachedThrough]
    rw [gcGenCollectMinorImpl_nil h hused]
    have hmem : ∀ a ∈ {a | a ∈ w.old}, a ∈ genCollector.tracked w :=
      fun a ha => List.mem_append_left _ ha
    refine ⟨{a | a ∈ w.old}, id, hmem, fun a ha => ha, fun _ _ => rfl, rfl,
      ⟨[], by simp, fun _ _ => List.not_mem_nil⟩, fun dropped a ha => ?_, fun dropped b hb => ?_⟩
    · exact ⟨hheap.mem_of_reachable (reachedThrough_reachable ha), (hiff dropped a).mp ha⟩
    · have hb' := (hiff dropped b).mpr hb
      exact ⟨b, hheap.mem_of_reachable (reachedThrough_reachable hb'), rfl, hb'⟩
  · have hs := genManager_start h
    obtain ⟨traced, hinv, hend, -, heq⟩ := gcGenCollectMinorImpl_spec h hused
    rw [heq] at hrefused hcards ⊢
    obtain ⟨dead, hlog, -, hdead⟩ := minorEnd_log hs hinv.copied
    refine ⟨minorKept w (gcGenMinorTraceAll w).rt, forwardOf (gcGenMinorTraceAll w).rt.fwd,
      fun a ha => hinv.copied.kept_sub ha, fun a ha => hinv.copied.forwardOf_mem ha,
      fun a ha => hinv.copied.tag_forward hs ha, hinv.copied.history,
      ⟨dead, hlog, fun a ha ht => ?_⟩,
      fun dropped a ha => hinv.live_of_through hs hend hrefused hcards ha,
      fun dropped b hb => hinv.through_of_live hs hb⟩
    obtain ⟨b, hb, hnot, he⟩ := (hdead _).mp ht
    exact hnot (hs.heap.tag_inj hb (hinv.copied.kept_sub ha) he ▸ ha)

/-- A full collection retains an object exactly when roots and handles lead to it without a reference
    that a dropped push hides. -/
theorem gcGenCollectFullImpl_retained (h : (genManager tidy).Inv w) (hnone : w.losses.marks = [])
    (honly : OnlyPushesRefused w) {a : Addr} (ha : a ∈ genCollector.tracked w) :
    Retained genCollector w (gcGenCollectFullImpl w) a ↔
      reachedThrough w.graph (nurseryObjects w) (gcGenCollectFullImpl w).losses.copies
        (gcGenCollectFullImpl w).losses.marks a := by
  classical
  obtain ⟨dropped, wl, m, b, heq, -, -, hok⟩ := gcGenCollectFullImpl_spec h rfl
  obtain ⟨-, -, hk, -⟩ := gcGenCollectMinorImpl_ok h
  have hmarks := gcGenCollectMinorImpl_marks h
  rw [hnone] at hmarks
  have htracked := tracked_nil hok.layout.tiles
  unfold OnlyPushesRefused at honly
  rw [heq] at honly ⊢
  obtain ⟨kept, φ, ho⟩ := gcGenCollectMinorImpl_handsOver h honly.1 honly.2
  set w₁ := gcGenCollectMinorImpl w with hw₁
  have hdropped : (swept w₁ (oldLive w₁ dropped) m b wl dropped).losses.marks = dropped := by
    show w₁.losses.marks ++ dropped = dropped
    rw [hmarks, List.nil_append]
  have htag := fun b => @tagAt_kill_dead (oldLive w₁ dropped) _ w₁.graph w₁.algoState.oldObjects b
  set ds := (deadNodes (oldLive w₁ dropped) w₁.algoState.oldObjects).map GcNode.obj with hds
  rw [hdropped]
  constructor
  · rintro ⟨⟨c, hc, he⟩, -, -⟩
    rw [htracked] at hc
    obtain ⟨hmem, hc⟩ := mem_liveNodes.mp hc
    obtain ⟨a', hkept, rfl, ha'⟩ := ho.marked dropped c hc
    have htags := (ho.tags a' hkept).symm.trans ((htag _ hc).symm.trans he)
    obtain rfl := h.heap.tag_inj (ho.tracked a' hkept) ha htags
    exact ha'
  · intro hl
    obtain ⟨hkept, hl⟩ := ho.marks dropped a hl
    obtain ⟨dead, hlog, hnot⟩ := ho.log
    have hmem := ho.old a hkept
    refine .of_deaths h.heap ha ⟨φ a, ?_, (htag _ hl).trans (ho.tags a hkept)⟩
      (dead ++ ds.map w₁.graph.tagAt) ?_ fun hm => ?_
    · show φ a ∈ genCollector.tracked _
      rw [htracked]
      exact mem_liveNodes.mpr ⟨hmem, hl⟩
    · have hflat : (ds.map w₁.graph.tagAt).flatMap (deathsOf w.graph.history) =
          ds.flatMap fun a => deathsOf w₁.graph.history (w₁.graph.tagAt a) := by
        rw [ho.history, List.flatMap_map]
      show w₁.graph.log ++ ds.flatMap _ = _
      rw [hlog, List.flatMap_append, hflat, List.append_assoc]
    · refine (List.mem_append.mp hm).elim (hnot a hkept) fun hm => ?_
      obtain ⟨c, hc, he⟩ := List.mem_map.mp hm
      rw [hds] at hc
      obtain ⟨hc, hnl⟩ := mem_deadNodes.mp hc
      rw [← ho.tags a hkept] at he
      obtain rfl := hk.tags hc hmem he
      exact hnl hl

/-! ### A worklist that cannot grow -/

section

variable {g : Graph} {ctx : MarkCtx}

theorem markObject_dropped (v : Addr) :
    ∃ more, (markObject g ctx v).dropped = ctx.dropped ++ more := by
  rcases markObject_cases g ctx v with ⟨heq, -⟩ | ⟨node, -, -, -, heq⟩ <;> rw [heq]
  · exact ⟨[], (List.append_nil _).symm⟩
  · simp only
    split
    · exact ⟨[], (List.append_nil _).symm⟩
    · exact ⟨_, rfl⟩

theorem markAll_dropped : ∀ (vs : List Addr) (ctx : MarkCtx),
    ∃ more, (markAll g ctx vs).dropped = ctx.dropped ++ more
  | [], ctx => ⟨[], (List.append_nil _).symm⟩
  | v :: vs, ctx => by
      obtain ⟨more, h⟩ := @markObject_dropped g ctx v
      obtain ⟨more', h'⟩ := markAll_dropped vs (markObject g ctx v)
      exact ⟨more ++ more', by rw [← List.append_assoc, ← h, ← h']; rfl⟩

/-- What the loop has dropped stays dropped. -/
theorem markDrain_dropped : ∀ (fuel : Nat) (ctx : MarkCtx),
    ∃ more, (markDrain g fuel ctx).1.dropped = ctx.dropped ++ more
  | 0, ctx => ⟨[], (List.append_nil _).symm⟩
  | fuel + 1, ctx => by
      simp only [markDrain]
      by_cases h0 : (gcWorklistPop ctx.wl).2 = 0
      · rw [if_pos h0]
        exact ⟨[], (List.append_nil _).symm⟩
      · rw [if_neg h0]
        obtain ⟨more', h'⟩ := markDrain_dropped fuel
          (markChildren g { ctx with wl := (gcWorklistPop ctx.wl).1 } (gcWorklistPop ctx.wl).2)
        rw [h', markChildren]
        split
        · exact ⟨more', rfl⟩
        · next o _ =>
          obtain ⟨more, h⟩ := markAll_dropped (g := g) (o.tracedSlots.map o.slots)
            { ctx with wl := (gcWorklistPop ctx.wl).1 }
          exact ⟨more ++ more', by rw [h, List.append_assoc]⟩

/-- `v` is the object of an unmarked node. -/
def Unmarked (nodes : List GcNode) (v : Addr) : Prop :=
  v ≠ 0 ∧ ∃ n, lookup GcNode.obj v nodes = some n ∧ n.marked = false

theorem markObject_room {v : Addr} (hv : Unmarked ctx.nodes v) (hroom : ctx.wl.top < ctx.wl.capacity) :
    markObject g ctx v = { ctx with
      nodes := update GcNode.obj v (fun n => { n with marked := true }) ctx.nodes
      wl := { ctx.wl with data := ctx.wl.data.set ctx.wl.top.toNat v, top := ctx.wl.top + 1 } } := by
  obtain ⟨h0, n, hl, hm⟩ := hv
  simp [markObject, h0, hl, hm, gcWorklistPush, hroom]

/-- Objects for which there is room are pushed one after the other. -/
theorem markAll_room : ∀ (vs : List Addr) {ctx : MarkCtx}, vs.Nodup →
    (∀ v ∈ vs, Unmarked ctx.nodes v) → ctx.wl.top + vs.length ≤ ctx.wl.capacity →
    (markAll g ctx vs).wl.top = ctx.wl.top + vs.length ∧
      (markAll g ctx vs).wl.capacity = ctx.wl.capacity ∧ (markAll g ctx vs).mem = ctx.mem ∧
      (markAll g ctx vs).dropped = ctx.dropped ∧
      ∀ u, u ∉ vs → lookup GcNode.obj u (markAll g ctx vs).nodes = lookup GcNode.obj u ctx.nodes
  | [], ctx, _, _, _ => ⟨by simp [markAll], rfl, rfl, rfl, fun _ _ => rfl⟩
  | v :: vs, ctx, hn, hv, hroom => by
      obtain ⟨hnot, hn⟩ := List.nodup_cons.mp hn
      rw [List.length_cons, Nat.cast_add, Nat.cast_one] at hroom
      have hstep := markObject_room (g := g) (hv v List.mem_cons_self) (by omega)
      have hother : ∀ u, u ≠ v → lookup GcNode.obj u (markObject g ctx v).nodes =
          lookup GcNode.obj u ctx.nodes := by
        intro u hu
        rw [hstep]
        exact @lookup_update_of_ne _ _ _ GcNode.obj v u (fun n => { n with marked := true }) hu
          (fun _ => rfl) ctx.nodes
      have htop : (markObject g ctx v).wl.top = ctx.wl.top + 1 := by rw [hstep]
      have hcap : (markObject g ctx v).wl.capacity = ctx.wl.capacity := by rw [hstep]
      have hrest : ∀ u ∈ vs, Unmarked (markObject g ctx v).nodes u := by
        intro u hu
        obtain ⟨h0, n, hl, hm⟩ := hv u (List.mem_cons_of_mem _ hu)
        exact ⟨h0, n, (hother u fun he => hnot (he ▸ hu)).trans hl, hm⟩
      obtain ⟨h₁, h₂, h₃, h₄, h₅⟩ := markAll_room vs hn hrest (by omega)
      refine ⟨?_, h₂.trans hcap, h₃.trans (by rw [hstep]), h₄.trans (by rw [hstep]), fun u hu => ?_⟩
      · rw [List.length_cons, Nat.cast_add, Nat.cast_one]
        have : (markAll g ctx (v :: vs)).wl.top = _ := h₁
        omega
      · rw [List.mem_cons, not_or] at hu
        exact (h₅ u hu.2).trans (hother u hu.1)

/-- An object for which there is no room is dropped when the buffer cannot grow. -/
theorem markObject_full {v : Addr} (hv : Unmarked ctx.nodes v) (hfull : ctx.wl.top = ctx.wl.capacity)
    (hmem : ctx.mem.answers ctx.mem.calls = none) :
    (markObject g ctx v).dropped = ctx.dropped ++ [g.tagAt v] := by
  obtain ⟨h0, n, hl, hm⟩ := hv
  simp [markObject, h0, hl, hm, gcWorklistPush, hfull, Mem.tryReserve, hmem]

end

theorem sweepNodes_losses {σ : Type} : ∀ (nodes : List GcNode) (w : World σ),
    (sweepNodes gcReclaimObject nodes w).2.losses = w.losses
  | [], _ => rfl
  | node :: nodes, w => by
      have hreclaim : (gcReclaimObject w node.obj).losses = w.losses := by
        unfold gcReclaimObject
        split
        · rfl
        · split <;> rfl
      simp only [sweepNodes]
      split
      · exact sweepNodes_losses nodes w
      · exact (sweepNodes_losses nodes _).trans hreclaim

/-- When the root slots name one object more than there is room for, the collection drops it. -/
theorem gcMarksweepCollectFullImpl_drops {v : MsWorld} (h : msManager.Inv v)
    (hhandles : v.graph.handles = []) {scan : (Nat → Addr) → List Nat}
    (hscan : v.graph.hooks.scanRoots = some scan) {pushed rest : List Addr} {a : Addr}
    (hroots : (scan v.graph.roots).map v.graph.roots = pushed ++ a :: rest)
    (hn : (a :: pushed).Nodup) (htracked : ∀ u ∈ a :: pushed, u ∈ msCollector.tracked v)
    (hfull : v.worklistCapacity = pushed.length) (hmem : v.mem.answers v.mem.calls = none) :
    v.graph.tagAt a ∈ (gcMarksweepCollectFullImpl v).losses.marks := by
  have hunmarked : ∀ u ∈ a :: pushed, Unmarked v.algoState.objects u := by
    intro u hu
    obtain ⟨n, hl⟩ := exists_lookup (htracked u hu)
    exact ⟨h.heap.ne_zero (htracked u hu), n, hl, h.alg.unmarked n (mem_of_lookup hl).1⟩
  obtain ⟨hnot, hn⟩ := List.nodup_cons.mp hn
  have hroom : (v.markCtx v.algoState.objects).wl.top + pushed.length ≤
      (v.markCtx v.algoState.objects).wl.capacity := by
    show 0 + (pushed.length : Int) ≤ v.worklistCapacity
    omega
  obtain ⟨htop, hcap, hm, -, hother⟩ := @markAll_room v.graph pushed
    (v.markCtx v.algoState.objects) hn (fun u hu => hunmarked u (List.mem_cons_of_mem _ hu)) hroom
  set ctx := markAll v.graph (v.markCtx v.algoState.objects) pushed with hctx
  have hone : Unmarked ctx.nodes a := by
    obtain ⟨h0, n, hl, hn⟩ := hunmarked a List.mem_cons_self
    exact ⟨h0, n, (hother a hnot).trans hl, hn⟩
  have hdrop := markObject_full (g := v.graph) hone (by
    rw [htop, hcap]
    show 0 + (pushed.length : Int) = v.worklistCapacity
    omega) (by rw [hm]; exact hmem)
  have hmarked : markRoots v.graph (markHandles v.graph (v.markCtx v.algoState.objects)) =
      markAll v.graph (markObject v.graph ctx a) rest := by
    rw [markRoots, hscan, markHandles, hhandles]
    show markAll v.graph _ _ = _
    rw [hroots, markAll, List.foldl_append]
    rfl
  obtain ⟨more, hmore⟩ := markAll_dropped (g := v.graph) rest (markObject v.graph ctx a)
  obtain ⟨more', hmore'⟩ := markDrain_dropped (g := v.graph) v.algoState.objects.length
    (markAll v.graph (markObject v.graph ctx a) rest)
  rw [gcMarksweepCollectFullImpl, if_neg (by simp [h.rt.bound])]
  show _ ∈ (sweepNodes gcReclaimObject _ _).2.losses.marks
  rw [sweepNodes_losses]
  show _ ∈ v.losses.marks ++
    (markDrain v.graph _ (markRoots v.graph (markHandles v.graph _))).1.dropped
  rw [hmarked, hmore', hmore, hdrop]
  simp

/-! ### A run with a crowded worklist -/

/-- Where the cells of the run below are. -/
def cellAt (i : Nat) : Addr := 2 ^ 20 * (2 * i + 4)

/-- Cells lie apart. -/
theorem cellAt_next (i : Nat) : cellAt i + 24 ≤ cellAt (i + 1) := by
  have h : (2 ^ 20 * (2 * i + 4) + 24 : Nat) ≤ 2 ^ 20 * (2 * (i + 1) + 4) := by omega
  exact h

theorem cellAt_inj {i j : Nat} (h : cellAt i = cellAt j) : i = j := by
  have h' : 2 ^ 20 * (2 * i + 4) = 2 ^ 20 * (2 * j + 4) := h
  omega

/-- A fresh runtime with 258 root slots, whose allocator grants as many cells and then no more. -/
def msFew : MsWorld :=
  (msCollector.sampleStart 0 258 fun k => decide (519 ≤ k)).get (by decide +kernel)

/-- The cell with tag `i`. -/
def cellObject (i : Nat) : GcHeader := newHeader cell 24 (allocatedFlags cell 0) i

/-- The runtime after `n` cells have been put into the root slots, one after the other. -/
structure Rooted (n : Nat) (w : MsWorld) : Prop where
  endures : msCollector.Endures msSpared w
  clear : w.cleared = w
  calls : w.mem.calls = 3 + 2 * n
  answers : w.mem.answers = (sampleMem fun k => decide (519 ≤ k)).answers
  below : ∀ b ∈ w.mem.blocks, b.1 < cellAt n ∧ b.1 + b.2 ≤ cellAt n
  capacity : w.worklistCapacity = 256
  handles : w.graph.handles = []
  hooks : w.graph.hooks = sampleHooks 258
  roots : ∀ i, w.graph.roots i = if i < n then cellAt i else 0
  history : w.graph.history.length = n
  tracked : ∀ a, a ∈ msCollector.tracked w ↔ ∃ i < n, a = cellAt i
  objs : ∀ i < n, w.graph.objs (cellAt i) = some (cellObject i)

theorem msFew_starts : msCollector.Starts msFew :=
  Collector.sampleStart_starts (by decide : 0 < 2 ^ 64) (Option.some_get _).symm (by decide +kernel)

theorem rooted_zero : Rooted 0 msFew where
  endures := msFew_starts.endures
  clear := by rfl
  calls := by decide +kernel
  answers := by rfl
  below := by decide +kernel
  capacity := by decide +kernel
  handles := by rfl
  hooks := by rfl
  roots i := by rfl
  history := by decide +kernel
  tracked a := by
    have hnil : msCollector.tracked msFew = [] := by decide +kernel
    simp [hnil]
  objs i hi := absurd hi (Nat.not_lt_zero i)

/-- The runtime after the next cell has been allocated. -/
def nextCell (n : Nat) (w : MsWorld) : MsWorld :=
  msAllocated w (cellAt n) cell 24 0 ((w.mem.grant (cellAt n) 24).tryReserve 24).1

namespace Rooted

variable {n : Nat} {w : MsWorld}

theorem inv (h : Rooted n w) : msManager.Inv w := msManager_sparing.endures h.endures

theorem fits (h : Rooted n w) (hn : n < 258) : w.mem.Fits (cellAt n) 24 := by
  refine ⟨?_, ?_, by decide, fun b hb => ?_⟩
  · show 0 < 2 ^ 20 * (2 * n + 4)
    omega
  · show 2 ^ 20 * (2 * n + 4) + 24 < 2 ^ 64
    omega
  · obtain ⟨hlt, hle⟩ := h.below b hb
    exact ⟨hlt.ne', .inr hle⟩

theorem alloc (h : Rooted n w) (hn : n < 258) :
    gcAllocTyped gcMarksweepStwVtable w cell 24 0 = (nextCell n w, cellAt n) := by
  have hfit := h.fits hn
  have hfirst : w.mem.answers w.mem.calls = some (cellAt n) := by
    rw [h.answers, h.calls]
    show (if decide (519 ≤ 3 + 2 * n) = true then none else some (2 ^ 20 * (3 + 2 * n + 1))) =
      some (2 ^ 20 * (2 * n + 4))
    rw [if_neg (by rw [decide_eq_true_eq]; omega)]
    congr 2
    omega
  have hsecond : (w.mem.answers (w.mem.calls + 1)).isSome = true := by
    rw [h.answers, h.calls]
    show (if decide (519 ≤ 3 + 2 * n + 1) = true then none
      else some (2 ^ 20 * (3 + 2 * n + 1 + 1))).isSome = true
    rw [if_neg (by rw [decide_eq_true_eq]; omega)]
    rfl
  refine gcAllocTyped_ms (by decide) (by decide) 0 hfit ?_
  have hmalloc : w.mem.malloc 24 = (w.mem.grant (cellAt n) 24, cellAt n) := by
    rw [Mem.malloc, hfirst]
    exact if_pos hfit
  have hnode : (w.mem.grant (cellAt n) 24).reserve 24 =
      (((w.mem.grant (cellAt n) 24).tryReserve 24).1, true) :=
    if_pos (Bool.and_eq_true_iff.mpr ⟨hsecond, rfl⟩)
  rw [gcMarksweepAlloc, if_neg (by simp [h.inv.rt.bound])]
  simp only [hmalloc, hnode, if_neg (Nat.pos_iff_ne_zero.mp hfit.1)]
  rfl

theorem rootCell_eq (h : Rooted n w) (hn : n < 258) : msCollector.rootCell n w =
    { nextCell n w with graph := (nextCell n w).graph.write (.root n) (cellAt n) } := by
  have halloc : gcAllocTyped msCollector.algo w cell 24 0 = _ := h.alloc hn
  simp only [Collector.rootCell, ClientOp.perform]
  rw [halloc]

theorem alloc_clear (h : Rooted n w) : (nextCell n w).cleared = nextCell n w := by
  have hfailed : w.mem.failed = false := congrArg (fun w : MsWorld => w.mem.failed) h.clear.symm
  have hlosses : w.losses = { refused := [], copies := [], marks := [], cards := false } :=
    congrArg World.losses h.clear.symm
  simp only [World.cleared, nextCell, msAllocated, World.addObject, hlosses, Mem.grant,
    Mem.tryReserve, hfailed]

theorem alloc_tracked (h : Rooted n w) (a : Addr) :
    a ∈ msCollector.tracked (nextCell n w) ↔ ∃ i < n + 1, a = cellAt i := by
  show a ∈ cellAt n :: msCollector.tracked w ↔ _
  rw [List.mem_cons, h.tracked]
  constructor
  · rintro (rfl | ⟨i, hi, rfl⟩)
    · exact ⟨n, n.lt_succ_self, rfl⟩
    · exact ⟨i, Nat.lt_succ_of_lt hi, rfl⟩
  · rintro ⟨i, hi, rfl⟩
    rcases Nat.lt_succ_iff_lt_or_eq.mp hi with hi | rfl
    · exact .inr ⟨i, hi, rfl⟩
    · exact .inl rfl

theorem alloc_step (h : Rooted n w) (hn : n < 258) :
    msCollector.SparedStep msSpared w (.alloc cell 24 0) (nextCell n w) := by
  have halloc := h.alloc hn
  refine ⟨⟨cell_ok, by decide⟩, ?_, ?_⟩
  · simp only [msSpared]
    rw [halloc]
    exact .inr ((h.alloc_tracked _).mpr ⟨n, n.lt_succ_self, rfl⟩)
  · show (gcAllocTyped gcMarksweepStwVtable w cell 24 0).1.cleared = _
    rw [halloc]
    exact h.alloc_clear

/-- One more cell. -/
theorem step (h : Rooted n w) (hn : n < 258) : Rooted (n + 1) (msCollector.rootCell n w) := by
  have hput := congrArg (fun w' : MsWorld =>
    { w' with graph := w'.graph.write (.root n) (cellAt n) }) h.alloc_clear
  have hnew := (h.alloc_tracked _).mpr ⟨n, n.lt_succ_self, rfl⟩
  rw [h.rootCell_eq hn]
  refine ⟨(h.endures.step _ (h.alloc_step hn)).step (.setRoot n (cellAt n))
    ⟨⟨?_, .inr hnew⟩, trivial, hput⟩, hput, ?_, ?_, ?_, ?_, ?_, ?_, ?_, ?_, h.alloc_tracked, ?_⟩
  · show n ∈ w.graph.hooks.rootSlots
    rw [h.hooks]
    simp [sampleHooks, hn]
  · show w.mem.calls + 1 + 1 = 3 + 2 * (n + 1)
    rw [h.calls]
    ring
  · exact h.answers
  · intro b hb
    rcases List.mem_cons.mp (show b ∈ (cellAt n, 24) :: w.mem.blocks from hb) with rfl | hb
    · exact ⟨Nat.lt_of_lt_of_le (Nat.lt_add_of_pos_right (by decide)) (cellAt_next n),
        cellAt_next n⟩
    · obtain ⟨hlt, hle⟩ := h.below b hb
      have hnext : cellAt n ≤ cellAt (n + 1) := (Nat.le_add_right _ _).trans (cellAt_next n)
      exact ⟨hlt.trans_le hnext, hle.trans hnext⟩
  · exact h.capacity
  · exact h.handles
  · exact h.hooks
  · intro i
    show Function.update w.graph.roots n (cellAt n) i = _
    rw [Function.update_apply, h.roots]
    by_cases hi : i = n
    · subst hi
      rw [if_pos rfl, if_pos i.lt_succ_self]
    · rw [if_neg hi]
      by_cases hlt : i < n
      · rw [if_pos hlt, if_pos (Nat.lt_succ_of_lt hlt)]
      · rw [if_neg hlt, if_neg (by omega)]
  · show (w.graph.history ++ [cell]).length = n + 1
    rw [List.length_append, h.history]
    rfl
  · intro i hi
    simp only [nextCell, msAllocated, World.addObject, Graph.write, Graph.setObj_objs, h.history]
    by_cases hin : i = n
    · subst hin
      exact if_pos rfl
    · rw [if_neg fun he => hin (cellAt_inj he)]
      exact h.objs i (by omega)

end Rooted

/-- The runtime after `n` of the calls. -/
def msRooted : Nat → MsWorld
  | 0 => msFew
  | n + 1 => msCollector.rootCell n (msRooted n)

theorem msRooted_rooted : ∀ n ≤ 258, Rooted n (msRooted n)
  | 0, _ => rooted_zero
  | n + 1, hn => (msRooted_rooted n (by omega)).step (by omega)

/-- The last cell is only referred to by the cell before it. -/
def chained (g : Graph) : Graph :=
  (g.write (.field (cellAt 256) (.inline 16)) (cellAt 257)).write (.root 257) 0

/-- The last cell is taken out of its root slot; the cell before it refers to it. -/
def chain (w : MsWorld) : MsWorld :=
  ((ClientOp.setRoot 257 0).perform msCollector (msCollector.linkCells 256 257 w)).1

namespace Rooted

variable {w : MsWorld}

theorem chain_eq (h : Rooted 258 w) : chain w = { w with graph := chained w.graph } := by
  have h₁ : w.graph.roots 256 = cellAt 256 := (h.roots 256).trans (if_pos (by decide))
  have h₂ : w.graph.roots 257 = cellAt 257 := (h.roots 257).trans (if_pos (by decide))
  simp only [chain, Collector.linkCells, ClientOp.perform, h₁, h₂]
  rfl

theorem chain_endures (h : Rooted 258 w) : msCollector.Endures msSpared (chain w) := by
  have hlink : msCollector.SparedStep msSpared w
      (.storeRef (cellAt 256) (.inline 16) (cellAt 257))
      { w with graph := w.graph.write (.field (cellAt 256) (.inline 16)) (cellAt 257) } := by
    refine ⟨⟨(h.tracked _).mpr ⟨256, by decide, rfl⟩, fun o ho => ?_,
      .inr ((h.tracked _).mpr ⟨257, by decide, rfl⟩)⟩, trivial, ?_⟩
    · rw [h.objs 256 (by decide)] at ho
      obtain rfl := Option.some.inj ho
      decide
    · exact congrArg (fun w' : MsWorld => { w' with
        graph := w'.graph.write (.field (cellAt 256) (.inline 16)) (cellAt 257) }) h.clear
  rw [h.chain_eq]
  refine (h.endures.step _ hlink).step (.setRoot 257 0) ⟨⟨?_, .inl rfl⟩, trivial, ?_⟩
  · show 257 ∈ w.graph.hooks.rootSlots
    rw [h.hooks]
    simp [sampleHooks]
  · exact congrArg (fun w' : MsWorld => { w' with graph := chained w'.graph }) h.clear

theorem chain_roots (h : Rooted 258 w) (i : Nat) :
    (chain w).graph.roots i = if i < 257 then cellAt i else 0 := by
  rw [h.chain_eq]
  simp only [chained, Graph.write, Function.update_apply]
  rw [show (w.graph.modifyObj _ _).roots i = w.graph.roots i from rfl, h.roots]
  by_cases hi : i = 257
  · subst hi
    rfl
  · rw [if_neg hi]
    by_cases hlt : i < 257
    · rw [if_pos hlt, if_pos (by omega)]
    · rw [if_neg hlt, if_neg (by omega)]

theorem chain_objs (h : Rooted 258 w) {i : Nat} (hi : i < 258) :
    (chain w).graph.objs (cellAt i) = some { cellObject i with
      slots := fun p => if i = 256 ∧ p = .inline 16 then cellAt 257 else 0 } := by
  rw [h.chain_eq]
  simp only [chained, Graph.write, Graph.modifyObj_objs]
  rw [h.objs 256 (by decide), h.objs i hi]
  by_cases he : i = 256
  · subst he
    rw [if_pos rfl]
    simp only [Option.map_some, true_and]
    congr 3
    funext p
    exact Function.update_apply ..
  · rw [if_neg fun h => he (cellAt_inj h)]
    simp [he, cellObject, newHeader, zeroHeader]

theorem chain_tracked (h : Rooted 258 w) {a : Addr} :
    a ∈ msCollector.tracked (chain w) ↔ ∃ i < 258, a = cellAt i := by
  rw [h.chain_eq]
  exact h.tracked a

theorem cellAt_tracked (h : Rooted 258 w) {i : Nat} (hi : i < 258) :
    cellAt i ∈ msCollector.tracked (chain w) :=
  h.chain_tracked.mpr ⟨i, hi, rfl⟩

theorem chain_inv (h : Rooted 258 w) : msManager.Inv (chain w) :=
  msManager_sparing.endures h.chain_endures

theorem cellAt_ne_zero (h : Rooted 258 w) {i : Nat} (hi : i < 258) : cellAt i ≠ 0 :=
  h.chain_inv.heap.ne_zero (h.cellAt_tracked hi)

theorem chain_slot (h : Rooted 258 w) {i : Nat} (hi : i < 258) (p : SlotLoc) :
    (chain w).graph.slot (cellAt i) p = if i = 256 ∧ p = .inline 16 then cellAt 257 else 0 :=
  Graph.slot_eq (h.chain_objs hi) p

theorem chain_tag (h : Rooted 258 w) : (chain w).graph.tagAt (cellAt 256) = 256 :=
  Graph.tagAt_eq (h.chain_objs (by decide))

/-- A root leads to the last cell, by way of the cell before it. -/
theorem chain_reaches (h : Rooted 258 w) : (chain w).graph.Reachable (cellAt 257) := by
  refine Reach.step (x := cellAt 256) (.root ⟨h.cellAt_ne_zero (by decide), .inl ⟨256, ?_⟩⟩)
    ⟨h.cellAt_ne_zero (by decide), .inline 16, ?_⟩
  · rw [h.chain_roots]
    exact if_pos (by decide)
  · rw [h.chain_slot (by decide)]
    exact if_pos ⟨rfl, rfl⟩

/-- The first 256 cells fill the worklist, so the next one is dropped. -/
theorem chain_drops (h : Rooted 258 w) :
    256 ∈ (gcMarksweepCollectFullImpl (chain w)).losses.marks := by
  have hhandles : (chain w).graph.handles = [] := by
    rw [h.chain_eq]
    exact h.handles
  have hscan : (chain w).graph.hooks.scanRoots = some fun _ => List.range 258 := by
    rw [h.chain_eq]
    show w.graph.hooks.scanRoots = _
    rw [h.hooks]
    rfl
  have hroots : (List.range 258).map (chain w).graph.roots =
      (List.range 256).map cellAt ++ cellAt 256 :: [0] := by
    rw [List.range_succ, List.range_succ, List.map_append, List.map_append, List.append_assoc]
    refine congrArg₂ (· ++ ·) (List.map_congr_left fun i hi => ?_) ?_
    · have hlt := List.mem_range.mp hi
      rw [h.chain_roots, if_pos (by omega)]
    · simp only [List.map_singleton, h.chain_roots]
      rfl
  have hnodup : (cellAt 256 :: (List.range 256).map cellAt).Nodup := by
    refine List.nodup_cons.mpr ⟨fun hm => ?_, ?_⟩
    · obtain ⟨i, hi, he⟩ := List.mem_map.mp hm
      have hlt := List.mem_range.mp hi
      have heq := cellAt_inj he
      omega
    · exact List.Nodup.map (fun _ _ he => cellAt_inj he) List.nodup_range
  have hmem : ∀ u ∈ cellAt 256 :: (List.range 256).map cellAt,
      u ∈ msCollector.tracked (chain w) := by
    intro u hu
    rcases List.mem_cons.mp hu with rfl | hu
    · exact h.cellAt_tracked (by decide)
    · obtain ⟨i, hi, rfl⟩ := List.mem_map.mp hu
      have hlt := List.mem_range.mp hi
      exact h.cellAt_tracked (by omega)
  have hfull : (chain w).worklistCapacity = ((List.range 256).map cellAt).length := by
    rw [h.chain_eq, List.length_map, List.length_range]
    exact h.capacity
  have hrefused : (chain w).mem.answers (chain w).mem.calls = none := by
    rw [h.chain_eq]
    show w.mem.answers w.mem.calls = none
    rw [h.answers, h.calls]
    rfl
  rw [← h.chain_tag]
  exact gcMarksweepCollectFullImpl_drops h.chain_inv hhandles hscan hroots hnodup hmem hfull hrefused

/-- Nothing but the dropped cell refers to the last one. -/
theorem chain_hides (h : Rooted 258 w) :
    ¬ liveThrough (chain w).graph (gcMarksweepCollectFullImpl (chain w)).losses.marks
      (cellAt 257) := by
  intro hlive
  cases hlive with
  | root hroot =>
    obtain ⟨-, ⟨i, hi⟩ | ⟨k, hk, -⟩⟩ := hroot
    · rw [h.chain_roots] at hi
      by_cases hlt : i < 257
      · rw [if_pos hlt] at hi
        have := cellAt_inj hi
        omega
      · rw [if_neg hlt] at hi
        exact h.cellAt_ne_zero (by decide) hi.symm
    · rw [h.chain_eq] at hk
      change k ∈ w.graph.handles at hk
      rw [h.handles] at hk
      exact absurd hk List.not_mem_nil
  | @step a _ ha he =>
    obtain ⟨hkept, -, p, hp⟩ := he
    obtain ⟨i, hi, rfl⟩ :=
      h.chain_tracked.mp (h.chain_inv.heap.mem_of_reachable (liveThrough_reachable ha))
    rw [h.chain_slot hi] at hp
    split at hp
    · next hc =>
      obtain ⟨rfl, -⟩ := hc
      exact hkept (h.chain_tag.symm ▸ h.chain_drops)
    · exact h.cellAt_ne_zero (by decide) hp.symm

/-- The collection drops the cell that refers to the last one, and reclaims that one. -/
theorem chain_lost (h : Rooted 258 w) :
    ¬ Retained msCollector (chain w) (gcCollectFull gcMarksweepStwVtable (chain w))
      (cellAt 257) := by
  intro hr
  exact h.chain_hides ((gcMarksweepCollectFullImpl_retained h.chain_inv h.chain_endures.losses.2
    (h.cellAt_tracked (by decide))).mp (hr.congr rfl rfl))

end Rooted

/-! ### Full collections -/

/-- Marking and copying have reached all that is reachable, whatever pushes have been dropped. -/
def PushesSpared (w : GenWorld) : Prop :=
  ∀ a, w.graph.Reachable a → reachedThrough w.graph (nurseryObjects w)
    (gcGenCollectFullImpl w).losses.copies (gcGenCollectFullImpl w).losses.marks a

/-- In every state that spared calls lead to, a full collection during which the worklist cannot grow
    retains all that roots and handles lead to exactly when they lead to it without what the dropped
    pushes hide. -/
theorem gcCollectFull_retains_iff {v : MsWorld} (hv : msCollector.Endures msSpared v)
    (hw : genCollector.Endures genSpared w) (honly : OnlyPushesRefused w) :
    ((∀ a, v.graph.Reachable a →
      Retained msCollector v (gcCollectFull gcMarksweepStwVtable v) a) ↔ MarkSpared v) ∧
    ((∀ a, w.graph.Reachable a →
      Retained genCollector w (gcCollectFull gcGenCopyMsVtable w) a) ↔ PushesSpared w) := by
  constructor
  · have h := msManager_sparing.endures hv
    refine forall₂_congr fun a ha => ?_
    rw [← gcMarksweepCollectFullImpl_retained h hv.losses.2 (h.heap.mem_of_reachable ha)]
    exact ⟨fun hr => hr.congr rfl rfl, fun hr => hr.congr rfl rfl⟩
  · have h := genManager_sparing.endures hw
    refine forall₂_congr fun a ha => ?_
    rw [← gcGenCollectFullImpl_retained h hw.losses.2 honly (h.heap.mem_of_reachable ha)]
    exact ⟨fun hr => hr.congr rfl rfl, fun hr => hr.congr rfl rfl⟩

theorem gcCollectFull_retains_iff_sample :
    ((∀ a, (chain (msRooted 258)).graph.Reachable a → Retained msCollector (chain (msRooted 258))
      (gcCollectFull gcMarksweepStwVtable (chain (msRooted 258))) a) ↔
        MarkSpared (chain (msRooted 258))) ∧
    ((∀ a, genSample.graph.Reachable a →
      Retained genCollector genSample (gcCollectFull gcGenCopyMsVtable genSample) a) ↔
        PushesSpared genSample) :=
  gcCollectFull_retains_iff (msRooted_rooted 258 le_rfl).chain_endures
    (genCollector_endures genSample_reaches) ⟨by decide +kernel, by decide +kernel⟩

/-- A full collection loses a cell when the worklist is full and its buffer cannot grow. -/
theorem gcCollectFull_loses : ∃ v : MsWorld, msCollector.Endures msSpared v ∧
    ¬ ∀ a, v.graph.Reachable a → Retained msCollector v (gcCollectFull gcMarksweepStwVtable v) a := by
  have h := msRooted_rooted 258 le_rfl
  exact ⟨chain (msRooted 258), h.chain_endures, fun hall => h.chain_lost (hall _ h.chain_reaches)⟩

end Xgc
