import Xgc.Core.CardMap
import Xgc.Algo.GenPhases
import Xgc.Heap.Client

/-! The remembered set by itself: after any calls of `barrier.c` the card table is the map that these
    calls build, with all three levels of its counters in step; and a card that is marked is also
    scanned, over exactly the bytes that it stands for. -/

namespace Xgc

open Lib (Run)
open GcBarrierSet

/-- A barrier set and an allocator that calls of `barrier.c` lead to, from the empty table. -/
def CardRun (granularity : Nat) (ops : List CardOp) (b : GcBarrierSet) : Prop :=
  ∃ (m : Mem) (s : GcBarrierSet × Mem), s.1 = b ∧
    Run (fun s op s' => CardOp.Step s op s') (gcBarrierSetInit granularity, m) ops s

/-- The granularity that a table works with: zero stands for the default. -/
def workingGranularity (granularity : Nat) : Nat := if granularity = 0 then 256 else granularity

theorem CardRun.kept {granularity : Nat} (hg : granularity < 2 ^ 64) {ops : List CardOp}
    {b : GcBarrierSet} (h : CardRun granularity ops b) :
    b.Kept (workingGranularity granularity) ∧
      b.view = ops.foldl (CardOp.apply (workingGranularity granularity)) fun _ => none := by
  obtain ⟨m, s, rfl, hrun⟩ := h
  have hg' : workingGranularity granularity < 2 ^ 64 := by
    unfold workingGranularity
    split <;> omega
  have h := view_run hg' (s := (gcBarrierSetInit granularity, m)) (kept_init granularity) hrun
  rwa [view_init] at h

/-! ### The table is a map -/

/-- The barrier set `b` holds the map `m`: each owner once, and counters that count `m`. -/
structure Holds (b : GcBarrierSet) (m : CardMap) : Prop where
  view : b.view = m
  distinct : b.owners.Nodup
  owners : ∀ o, o ∈ b.owners ↔ (m o).isSome = true
  isOwnerDirty : ∀ o, gcBarrierIsOwnerDirty b o = true ↔ (m.dirtyOf o).Nonempty
  dirtyOldObjects : b.dirtyOldObjects = (b.owners.filter fun o => m.dirtyOf o ≠ ∅).length
  dirtyCards : b.dirtyCards = (b.owners.map fun o => (m.dirtyOf o).card).sum
  check : gcBarrierSetCheckInvariants b = true

/-- The dirty count of an entry is zero exactly when its owner has no dirty card. -/
theorem dirtyCardCount_eq_zero {b : GcBarrierSet} (h : b.Ok) {e : GcCardEntry}
    (he : e ∈ b.oldToYoung.entries) : e.dirtyCardCount = 0 ↔ b.view.dirtyOf e.ownerBase = ∅ := by
  rw [dirtyOf_view h he, ← dirtySet_card h he, Finset.card_eq_zero]

/-- In order, a barrier set holds the map that it stands for. -/
theorem Holds.of_ok {b : GcBarrierSet} (h : b.Ok) : Holds b b.view where
  view := rfl
  distinct := h.keys
  owners o := by
    rw [← not_iff_not, ← view_eq_none h, Bool.not_eq_true, Option.isSome_eq_false_iff,
      Option.isNone_iff_eq_none]
  isOwnerDirty o := by
    unfold gcBarrierIsOwnerDirty
    cases hf : gcCardTableFindEntry b.oldToYoung o with
    | none => simp [CardMap.dirtyOf, GcBarrierSet.view, hf]
    | some e =>
      obtain ⟨he, rfl⟩ := (find_some h).mp hf
      simp [dirtyCardCount_eq_zero h he, Finset.nonempty_iff_ne_empty]
  dirtyOldObjects := by
    rw [← h.dirtyOld, dirtyOwners, ← length_filter_dirty, GcBarrierSet.owners, List.filter_map,
      List.length_map]
    refine congrArg List.length (List.filter_congr fun e he => ?_)
    rw [Function.comp_apply, decide_eq_decide]
    exact not_congr (dirtyCardCount_eq_zero h he)
  dirtyCards := by
    rw [← h.dirtySum, GcBarrierSet.owners, List.map_map]
    refine congrArg List.sum (List.map_congr_left fun e he => ?_)
    rw [Function.comp_apply, dirtyOf_view h he, dirtySet_card h he]
  check := check_of_ok h

/-- After any calls the card table holds the map that these calls build. -/
theorem cardTable_refines {granularity : Nat} (hg : granularity < 2 ^ 64) {ops : List CardOp}
    {b : GcBarrierSet} (h : CardRun granularity ops b) :
    Holds b (ops.foldl (CardOp.apply (workingGranularity granularity)) fun _ => none) := by
  obtain ⟨hk, hv⟩ := h.kept hg
  rw [← hv]
  exact .of_ok hk.ok

/-- Two owners, a marked slot of the first one, and the second one marked and removed again. -/
def sampleCardOps : List CardOp :=
  [.register 64 40, .markSlot 64 88, .register 128 64, .markOwner 128, .unregister 128]

/-- The barrier set after these calls, with cards of 16 bytes. -/
def sampleCards : GcBarrierSet :=
  (sampleCardOps.foldl CardOp.perform (gcBarrierSetInit 16, sampleMem fun _ => false)).1

theorem sampleCards_run : CardRun 16 sampleCardOps sampleCards :=
  ⟨_, _, by rw [sampleCards], CardOp.run_foldl sampleCardOps (by decide) (by decide +kernel)⟩

theorem cardTable_refines_sample : sampleCards.dirtyCards = 1 ∧
    Holds sampleCards (sampleCardOps.foldl (CardOp.apply (workingGranularity 16)) fun _ => none) :=
  ⟨by decide +kernel, cardTable_refines (by decide) sampleCards_run⟩

/-! ### A marked card is scanned -/

/-- The bytes that `gc_gen_minor_visit_dirty_card` has scanned for card `c` of an owner of `n` bytes:
    the range it passes on, cut off at the end of the owner. -/
def scannedBytes (g n c : Nat) : Finset Nat :=
  Finset.Ico (c * g % 2 ^ 64) (min ((c * g % 2 ^ 64 + g) % 2 ^ 64) n)

/-- The call of a tracer for a range of bytes: the whole object is traced when its type has no
    `trace_slots_range`. -/
def GcDescriptor.tracedIn (d : GcDescriptor) (c : Contents) (byteBegin byteEnd : Nat) :
    List SlotLoc :=
  match d.traceSlotsRange with
  | some traceRange => traceRange c byteBegin byteEnd
  | none =>
    match d.traceSlots with
    | some trace => trace c
    | none => []

/-- Marking the slot at `slotAddr` marks card `c` of the entry `e`, and visiting this card runs a
    tracer on bytes of the owner, among them the slot when it lies inside. -/
structure Scanned (b : GcBarrierSet) (e : GcCardEntry) (slotAddr c : Nat) : Prop where
  lt : c < e.cardCount
  marked : ∀ o i, (gcBarrierMarkSlotDirty b e.ownerBase slotAddr).Dirty o i ↔
    b.Dirty o i ∨ (o = e.ownerBase ∧ i = c)
  nonempty : (scannedBytes b.oldToYoung.cardGranularity e.ownerSize c).Nonempty
  traced : ∀ (v : GcGenDirtyCardVisitCtx) (o : GcHeader) (d : GcDescriptor),
    v.minor.rt.barriers.oldToYoung.cardGranularity = b.oldToYoung.cardGranularity →
    v.minor.rt.graph.objs e.ownerBase = some o → o.size = e.ownerSize → o.desc = some d →
    ∃ byteBegin byteEnd,
      Finset.Ico byteBegin byteEnd = scannedBytes b.oldToYoung.cardGranularity e.ownerSize c ∧
      gcGenMinorVisitDirtyCard v (e.ownerBase, c) = gcGenDirtyVisitRememberOwner
        { v with minor := ((d.tracedIn o.toContents byteBegin byteEnd).map
            (SlotRef.field e.ownerBase)).foldl gcGenEvacuateSlot v.minor } e.ownerBase
  covers : ∀ off < e.ownerSize, slotAddr = e.ownerBase + off →
    off ∈ scannedBytes b.oldToYoung.cardGranularity e.ownerSize c

section

variable {g n c : Nat} (hn : n ≠ 0) (hn' : n < 2 ^ 32) (hg : g ≠ 0) (hg' : g < 2 ^ 64)
include hn hn' hg hg'

/-- The scanned bytes of a card are those whose offset lies on it. -/
theorem mem_scannedBytes (hc : c < cardCountFor n g) (off : Nat) :
    off ∈ scannedBytes g n c ↔ off < n ∧ off / g = c := by
  obtain ⟨hbegin, hend⟩ := card_range hn' hg' (card_begin_lt hn hn' hg hg' hc)
  rw [scannedBytes, hend, hbegin, Finset.mem_Ico, lt_min_iff,
    Nat.div_eq_iff (Nat.pos_of_ne_zero hg)]
  omega

theorem div_lt_cardCountFor {off : Nat} (hoff : off < n) : off / g < cardCountFor n g := by
  rw [cardCountFor_succ hn hn' hg hg']
  exact Nat.lt_succ_of_le (Nat.div_le_div_right (by omega))

/-- The cards of an object divide its bytes among themselves. -/
theorem scannedBytes_partition :
    (Finset.range (cardCountFor n g)).biUnion (scannedBytes g n) = Finset.range n ∧
    ∀ c < cardCountFor n g, ∀ c' < cardCountFor n g, c ≠ c' →
      Disjoint (scannedBytes g n c) (scannedBytes g n c') := by
  refine ⟨Finset.ext fun off => ?_, fun c hc c' hc' hne => ?_⟩
  · rw [Finset.mem_biUnion, Finset.mem_range]
    constructor
    · rintro ⟨c, hc, hoff⟩
      exact ((mem_scannedBytes hn hn' hg hg' (Finset.mem_range.mp hc) off).mp hoff).1
    · intro hoff
      have hlt := div_lt_cardCountFor hn hn' hg hg' hoff
      exact ⟨off / g, Finset.mem_range.mpr hlt,
        (mem_scannedBytes hn hn' hg hg' hlt off).mpr ⟨hoff, rfl⟩⟩
  · refine Finset.disjoint_left.mpr fun off hoff hoff' => hne ?_
    rw [← ((mem_scannedBytes hn hn' hg hg' hc off).mp hoff).2]
    exact ((mem_scannedBytes hn hn' hg hg' hc' off).mp hoff').2

/-- For a card of the object, a tracer is called on exactly its scanned bytes. -/
theorem traceObjectSlotsInRange_card (hc : c < cardCountFor n g) {o : GcHeader} {d : GcDescriptor}
    (ho : o.size = n) (hd : o.desc = some d) :
    gcTraceObjectSlotsInRange o (c * g % 2 ^ 64) ((c * g % 2 ^ 64 + g) % 2 ^ 64) =
      d.tracedIn o.toContents (c * g % 2 ^ 64) (min ((c * g % 2 ^ 64 + g) % 2 ^ 64) n) := by
  have hlt := card_begin_lt hn hn' hg hg' hc
  obtain ⟨hbegin, hend⟩ := card_range hn' hg' hlt
  have hgpos := Nat.pos_of_ne_zero hg
  rw [hend, hbegin]
  have hmin : (if c * g + g > n then n else c * g + g) = min (c * g + g) n := by
    split <;> omega
  have hstop : ¬ c * g ≥ min (c * g + g) n := by omega
  unfold gcTraceObjectSlotsInRange
  simp only [hd, ho, hn, ne_eq, not_false_eq_true, if_true, if_false, if_neg (Nat.not_le.mpr hlt),
    ge_iff_le, hmin, hstop]
  rfl

end

/-- Every card that a slot address can mark is scanned, over bytes that include the slot, and the
    cards of an owner divide its bytes. -/
theorem marked_card_scanned {granularity : Nat} (hg0 : 1 ≤ granularity) (hg : granularity < 2 ^ 64)
    {ops : List CardOp} {b : GcBarrierSet} (h : CardRun granularity ops b) {e : GcCardEntry}
    (he : e ∈ b.oldToYoung.entries) :
    (∀ slotAddr, slotAddr ≠ 0 →
      Scanned b e slotAddr (gcCardTableCardIndexForSlot b.oldToYoung e slotAddr)) ∧
    (Finset.range e.cardCount).biUnion (scannedBytes granularity e.ownerSize) =
      Finset.range e.ownerSize ∧
    ∀ c < e.cardCount, ∀ c' < e.cardCount, c ≠ c' →
      Disjoint (scannedBytes granularity e.ownerSize c) (scannedBytes granularity e.ownerSize c') := by
  obtain ⟨hk, -⟩ := h.kept hg
  have hne : granularity ≠ 0 := Nat.pos_iff_ne_zero.mp hg0
  have hgran : b.oldToYoung.cardGranularity = granularity :=
    hk.granularity.trans (if_neg hne)
  obtain ⟨hn, hn'⟩ := hk.size ⟨e, he, rfl, rfl⟩
  have hcards : e.cardCount = cardCountFor e.ownerSize granularity :=
    hgran ▸ (hk.ok.entries e he).cards
  refine ⟨fun slotAddr hs => ?_, hcards ▸ scannedBytes_partition hn hn' hne hg⟩
  have hidx := cardIndex_eq hk.ok he hs
  set c := gcCardTableCardIndexForSlot b.oldToYoung e slotAddr with hc
  have hlt : c < cardCountFor e.ownerSize granularity := by
    rw [hidx, hgran]
    exact cardIndexFor_lt _ _ _ _
  have hmem := mem_scannedBytes hn hn' hne hg hlt
  refine ⟨hcards ▸ hlt, fun o i => ?_, ?_, fun v o d hv ho hsize hd => ?_, fun off hoff ha => ?_⟩
  · rw [((markSlot_spec hk.ok e.ownerBase hs).2.2 o i)]
    simp only [hasSize_entry hk.ok he, exists_eq_left, ← hidx]
  · have hbegin := card_begin_lt hn hn' hne hg hlt
    rw [hgran]
    exact ⟨c * granularity, (hmem _).mpr ⟨hbegin, Nat.mul_div_cancel c hg0⟩⟩
  · refine ⟨_, _, (by rw [scannedBytes]), ?_⟩
    have htrace := traceObjectSlotsInRange_card hn hn' hne hg hlt hsize hd
    simp only [gcGenMinorVisitDirtyCard, (hk.ok.entries e he).base, if_false, ho, hv, hgran, htrace]
  · rw [hgran, hmem]
    refine ⟨hoff, ?_⟩
    rw [hidx, hgran, ha, cardIndexFor_inline e.ownerBase hne hg hn' hoff]

theorem marked_card_scanned_sample : ∃ e ∈ sampleCards.oldToYoung.entries, e.ownerBase = 64 ∧
    24 ∈ scannedBytes 16 e.ownerSize (gcCardTableCardIndexForSlot sampleCards.oldToYoung e 88) := by
  have hsize : sampleCards.oldToYoung.entries.map (fun e => (e.ownerBase, e.ownerSize)) =
      [(64, 40)] := by decide +kernel
  obtain ⟨e, he, heq⟩ := List.mem_map.mp (hsize ▸ List.mem_singleton.mpr rfl)
  obtain ⟨hbase, hn⟩ := Prod.mk.inj heq
  obtain ⟨hscan, -⟩ := marked_card_scanned (by decide) (by decide) sampleCards_run he
  have hcovers := (hscan 88 (by decide)).covers 24 (by rw [hn]; decide) (by rw [hbase])
  exact ⟨e, he, hbase, hcovers⟩

end Xgc
