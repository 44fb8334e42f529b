import Xgc.Core.CardMap

/-! The enumeration of the dirty cards: `gc_card_table_visit_dirty`, with both of its passes card by
    card and with a callback that may do anything to the table, to the allocator and to a state of
    its own. The snapshot that the second pass fills is as long as the first pass has counted, and
    the callback gets exactly the cards that were dirty at the call, whatever it does meanwhile. -/

namespace Xgc

open GcBarrierSet

/-- The first pass of `gc_card_table_visit_dirty`. -/
def GcCardTable.dirtyCount (t : GcCardTable) : Nat :=
  t.entries.foldl (fun dirtyCount entry =>
    if entry.dirtyCardCount = 0 then dirtyCount
    else (List.range entry.cardCount).foldl (fun dirtyCount cardIndex =>
      if gcBitmapTest entry.dirtyMap cardIndex then dirtyCount + 1 else dirtyCount) dirtyCount) 0

/-- The snapshot while it is written: its cells, `snapshot_index`, and whether a write was past the
    last cell. -/
structure GcDirtyCardSnapshot where
  cells : List (Nat × Nat)
  snapshotIndex : Nat
  overrun : Bool

/-- `snapshot[snapshot_index]` is written and the index advanced. -/
def GcDirtyCardSnapshot.write (s : GcDirtyCardSnapshot) (owner cardIndex : Nat) :
    GcDirtyCardSnapshot where
  cells := s.cells.set s.snapshotIndex (owner, cardIndex)
  snapshotIndex := s.snapshotIndex + 1
  overrun := s.overrun || decide (s.cells.length ≤ s.snapshotIndex)

/-- The second pass of `gc_card_table_visit_dirty`. -/
def GcCardTable.fillSnapshot (t : GcCardTable) (s : GcDirtyCardSnapshot) : GcDirtyCardSnapshot :=
  t.entries.foldl (fun s entry =>
    if entry.dirtyCardCount = 0 then s
    else (List.range entry.cardCount).foldl (fun s cardIndex =>
      if gcBitmapTest entry.dirtyMap cardIndex then s.write entry.ownerBase cardIndex else s) s) s

/-- The snapshot that `gc_card_table_visit_dirty` has written before the first call of its callback:
    `calloc` has filled the cells with zeros. -/
def GcCardTable.writtenSnapshot (t : GcCardTable) : GcDirtyCardSnapshot :=
  t.fillSnapshot ⟨List.replicate t.dirtyCount (0, 0), 0, false⟩

variable {σ : Type}

/-- `gc_card_table_visit_dirty` on the table of a barrier set, with a callback that changes the
    barrier set, the allocator and the context. -/
def gcCardTableVisitDirtyWith (visit : Nat → Nat → GcBarrierSet × Mem × σ → GcBarrierSet × Mem × σ) :
    GcBarrierSet × Mem × σ → GcBarrierSet × Mem × σ
  | (b, m, ctx) =>
    if b.oldToYoung.dirtyCount = 0 then (b, m, ctx)
    else
      let (m, ok) := m.reserve (b.oldToYoung.dirtyCount * 16)
      if !ok then (b, m, ctx)
      else
        let snapshot := b.oldToYoung.writtenSnapshot
        (snapshot.cells.take snapshot.snapshotIndex).foldl (fun s card => visit card.1 card.2 s)
          (b, m, ctx)

/-! ### The two passes -/

/-- A loop over the cards that both passes look at is a loop over the snapshot. -/
theorem foldl_snapshot {β : Type} (t : GcCardTable) (f : β → Nat → Nat → β) (x : β) :
    t.snapshot.foldl (fun x card => f x card.1 card.2) x =
      t.entries.foldl (fun x entry =>
        if entry.dirtyCardCount = 0 then x
        else (List.range entry.cardCount).foldl (fun x cardIndex =>
          if gcBitmapTest entry.dirtyMap cardIndex then f x entry.ownerBase cardIndex else x) x) x := by
  rw [GcCardTable.snapshot, List.foldl_flatMap]
  congr 1
  funext x e
  rw [List.foldl_map, GcCardEntry.visited]
  split
  · rfl
  · rw [List.foldl_filter]

theorem foldl_count {α : Type} : ∀ (l : List α) (n : Nat), l.foldl (fun n _ => n + 1) n = n + l.length
  | [], n => rfl
  | _ :: l, n => by rw [List.foldl_cons, foldl_count l, List.length_cons, Nat.add_right_comm, Nat.add_assoc]

theorem dirtyCount_eq (t : GcCardTable) : t.dirtyCount = t.snapshot.length := by
  have h := foldl_snapshot t (fun n _ _ => n + 1) 0
  rw [foldl_count, Nat.zero_add] at h
  exact h.symm

/-- Writes into a snapshot that has room for them put the cards behind those already written. -/
theorem foldl_write : ∀ (cards : List (Nat × Nat)) (s : GcDirtyCardSnapshot),
    s.snapshotIndex + cards.length ≤ s.cells.length →
    let s' := cards.foldl (fun s card => s.write card.1 card.2) s
    s'.snapshotIndex = s.snapshotIndex + cards.length ∧ s'.cells.length = s.cells.length ∧
      s'.overrun = s.overrun ∧
      s'.cells.take s'.snapshotIndex = s.cells.take s.snapshotIndex ++ cards
  | [], s, _ => ⟨rfl, rfl, rfl, (List.append_nil _).symm⟩
  | card :: cards, s, hroom => by
      rw [List.length_cons] at hroom
      have hlen : (s.write card.1 card.2).cells.length = s.cells.length := List.length_set
      have hin : s.snapshotIndex < s.cells.length := by omega
      have hnext : (s.write card.1 card.2).snapshotIndex = s.snapshotIndex + 1 := rfl
      obtain ⟨hindex, hcells, hover, htake⟩ := foldl_write cards (s.write card.1 card.2)
        (by rw [hlen, hnext]; omega)
      have hwritten : (s.write card.1 card.2).cells.take (s.snapshotIndex + 1) =
          s.cells.take s.snapshotIndex ++ [card] := by
        show (s.cells.set s.snapshotIndex card).take (s.snapshotIndex + 1) = _
        rw [List.take_add_one, List.take_set_of_le (le_refl _)]
        simp [hin]
      refine ⟨?_, hcells.trans hlen, hover.trans ?_, ?_⟩
      · rw [List.foldl_cons, hindex, hnext, List.length_cons]
        omega
      · show (s.overrun || decide (s.cells.length ≤ s.snapshotIndex)) = s.overrun
        rw [decide_eq_false (Nat.not_le.mpr hin), Bool.or_false]
      · rw [List.foldl_cons, htake, hnext, hwritten, List.append_assoc, List.singleton_append]

/-- The second pass fills the cells that the first pass has counted, no more and no fewer. -/
theorem writtenSnapshot_spec (t : GcCardTable) :
    t.writtenSnapshot.snapshotIndex = t.dirtyCount ∧
    t.writtenSnapshot.cells.length = t.dirtyCount ∧ t.writtenSnapshot.overrun = false ∧
    t.writtenSnapshot.cells = t.snapshot := by
  have hfill : t.writtenSnapshot = t.snapshot.foldl (fun s card => s.write card.1 card.2)
      ⟨List.replicate t.dirtyCount (0, 0), 0, false⟩ :=
    (foldl_snapshot t GcDirtyCardSnapshot.write _).symm
  obtain ⟨hindex, hlen, hover, htake⟩ := foldl_write t.snapshot
    ⟨List.replicate t.dirtyCount (0, 0), 0, false⟩ (by simp [dirtyCount_eq])
  rw [← hfill] at hindex hlen hover htake
  simp only [List.length_replicate, Nat.zero_add, ← dirtyCount_eq, List.take_zero,
    List.nil_append] at hindex hlen htake
  rw [hindex, ← hlen, List.take_length] at htake
  exact ⟨hindex, hlen, hover, htake⟩

/-- The calls of the callback are those of the snapshot. -/
theorem gcCardTableVisitDirtyWith_eq
    (visit : Nat → Nat → GcBarrierSet × Mem × σ → GcBarrierSet × Mem × σ) (b : GcBarrierSet)
    (m : Mem) (ctx : σ) :
    gcCardTableVisitDirtyWith visit (b, m, ctx) =
      ((gcCardTableVisitDirty b.oldToYoung m).1.getD []).foldl (fun s card => visit card.1 card.2 s)
        (b, (gcCardTableVisitDirty b.oldToYoung m).2, ctx) := by
  obtain ⟨hindex, hlen, -, hcells⟩ := writtenSnapshot_spec b.oldToYoung
  have hcount : b.oldToYoung.dirtyCount = b.oldToYoung.countDirty :=
    (dirtyCount_eq _).trans (length_snapshot _)
  simp only [gcCardTableVisitDirtyWith, gcCardTableVisitDirty]
  rw [hindex, ← hlen, List.take_length, hcells, length_snapshot]
  by_cases hzero : b.oldToYoung.countDirty = 0
  · rw [if_pos hzero, if_pos hzero]
    rfl
  · rw [if_neg hzero, if_neg hzero]
    rcases m.reserve_cases (b.oldToYoung.countDirty * 16) with hr | hr <;> rw [hr] <;> rfl

/-! ### What is visited -/

/-- The list has each dirty card of `b` once and nothing else, entry by entry and with increasing
    cards in an entry. -/
structure VisitsDirty (b : GcBarrierSet) (cards : List (Nat × Nat)) : Prop where
  mem : ∀ owner cardIndex, (owner, cardIndex) ∈ cards ↔ b.Dirty owner cardIndex
  nodup : cards.Nodup
  order : cards.Pairwise fun p q =>
    b.owners.idxOf p.1 < b.owners.idxOf q.1 ∨ p.1 = q.1 ∧ p.2 < q.2

/-- Entries of an array stand in the order of their owners' positions. -/
theorem pairwise_idxOf {l : List GcCardEntry} (h : (l.map GcCardEntry.ownerBase).Nodup) :
    l.Pairwise fun e e' => (l.map GcCardEntry.ownerBase).idxOf e.ownerBase <
      (l.map GcCardEntry.ownerBase).idxOf e'.ownerBase := by
  rw [List.pairwise_iff_getElem]
  intro i j hi hj hij
  have hidx : ∀ k (hk : k < l.length),
      (l.map GcCardEntry.ownerBase).idxOf l[k].ownerBase = k := fun k hk => by
    have hmap := h.idxOf_getElem k (by rwa [List.length_map])
    rwa [List.getElem_map] at hmap
  rw [hidx i hi, hidx j hj]
  exact hij

theorem visitsDirty_snapshot {b : GcBarrierSet} (h : b.Ok) : VisitsDirty b b.oldToYoung.snapshot := by
  have horder : b.oldToYoung.snapshot.Pairwise fun p q =>
      b.owners.idxOf p.1 < b.owners.idxOf q.1 ∨ p.1 = q.1 ∧ p.2 < q.2 := by
    rw [GcCardTable.snapshot, List.pairwise_flatMap]
    constructor
    · intro e he
      have hcards : e.visited.Pairwise (· < ·) := by
        unfold GcCardEntry.visited
        split
        · exact .nil
        · exact List.pairwise_lt_range.filter _
      rw [List.pairwise_map]
      exact hcards.imp fun hlt => .inr ⟨rfl, hlt⟩
    · refine (pairwise_idxOf h.keys).imp fun hlt p hp q hq => .inl ?_
      obtain ⟨c, -, rfl⟩ := List.mem_map.mp hp
      obtain ⟨c', -, rfl⟩ := List.mem_map.mp hq
      exact hlt
  refine ⟨mem_snapshot h, horder.imp ?_, horder⟩
  rintro p _ hpq rfl
  omega

/-! ### Reachable tables -/

/-- A barrier set that calls of `barrier.c` lead to, with any arguments and whatever the allocator
    answers. -/
def CardReached (granularity : Nat) (ops : List CardOp) (b : GcBarrierSet) : Prop :=
  ∃ m : Mem, (ops.foldl CardOp.perform (gcBarrierSetInit granularity, m)).1 = b

theorem CardOp.perform_ok {s : GcBarrierSet × Mem} (h : s.1.Ok) (op : CardOp) :
    (op.perform s).1.Ok := by
  cases op with
  | register owner size => exact register_ok h owner size s.2
  | unregister owner => exact (unregister_spec h owner).1
  | markSlot owner slotAddr =>
    show (gcBarrierMarkSlotDirty s.1 owner slotAddr).Ok
    by_cases hs : slotAddr = 0
    · rw [gcBarrierMarkSlotDirty, if_pos (.inr hs)]
      exact h
    · exact (markSlot_spec h owner hs).1
  | markOwner owner => exact (markOwner_spec h owner).1
  | clear owner => exact (clearOwner_spec h owner).1

theorem CardOp.foldl_ok : ∀ (ops : List CardOp) {s : GcBarrierSet × Mem}, s.1.Ok →
    (ops.foldl CardOp.perform s).1.Ok
  | [], _, h => h
  | op :: ops, _, h => foldl_ok ops (op.perform_ok h)

theorem CardReached.ok {granularity : Nat} {ops : List CardOp} {b : GcBarrierSet}
    (h : CardReached granularity ops b) : b.Ok := by
  obtain ⟨m, rfl⟩ := h
  exact CardOp.foldl_ok ops ok_init

/-- When the snapshot is granted, the second pass fills it exactly, and the callback is called for
    each card that was dirty at the call, once and in order, whatever the callback does. -/
theorem visitDirty_exact {granularity : Nat} {ops : List CardOp} {b : GcBarrierSet}
    (h : CardReached granularity ops b) {m : Mem}
    (hm : b.oldToYoung.dirtyCount = 0 ∨ (m.reserve (b.oldToYoung.dirtyCount * 16)).2 = true) :
    b.oldToYoung.writtenSnapshot.snapshotIndex = b.oldToYoung.dirtyCount ∧
    b.oldToYoung.writtenSnapshot.overrun = false ∧
    ∃ cards m', VisitsDirty b cards ∧ cards.length = b.oldToYoung.dirtyCount ∧ m.Quiet m' ∧
      ∀ (σ : Type) (visit : Nat → Nat → GcBarrierSet × Mem × σ → GcBarrierSet × Mem × σ) (ctx : σ),
        gcCardTableVisitDirtyWith visit (b, m, ctx) =
          cards.foldl (fun s card => visit card.1 card.2 s) (b, m', ctx) := by
  obtain ⟨hindex, hlen, hover, -⟩ := writtenSnapshot_spec b.oldToYoung
  have hcount : b.oldToYoung.dirtyCount = b.oldToYoung.countDirty :=
    (dirtyCount_eq _).trans (length_snapshot _)
  refine ⟨hindex, hover, b.oldToYoung.snapshot, (gcCardTableVisitDirty b.oldToYoung m).2,
    visitsDirty_snapshot h.ok, (dirtyCount_eq _).symm, ?_, fun σ visit ctx => ?_⟩
  · rcases visitDirty_cases b m with ⟨m', heq, hq⟩ | heq <;> rw [heq]
    · exact hq
    · exact m.quiet_refuse
  · rw [gcCardTableVisitDirtyWith_eq]
    rcases visitDirty_cases b m with ⟨m', heq, -⟩ | heq
    · rw [heq]
      rfl
    · rw [hcount] at hm
      unfold gcCardTableVisitDirty at heq
      rcases hm with hzero | hgranted
      · rw [if_pos hzero] at heq
        exact nomatch heq
      · split at heq
        · exact nomatch heq
        · simp only [hgranted, if_true] at heq
          exact nomatch heq

/-- Two owners, the second of which has all of its three cards marked. -/
def sampleVisitOps : List CardOp :=
  [.register 64 40, .register 128 48, .markSlot 64 88, .markOwner 128]

/-- The barrier set after these calls, with cards of 16 bytes. -/
def sampleVisited : GcBarrierSet × Mem :=
  sampleVisitOps.foldl CardOp.perform
    (gcBarrierSetInit 16, ⟨fun k => some (2 ^ 20 * (k + 1)), 0, [], false, false⟩)

theorem visitDirty_exact_sample : ∃ cards, VisitsDirty sampleVisited.1 cards ∧ cards.length = 4 := by
  have hreached : CardReached 16 sampleVisitOps sampleVisited.1 := ⟨_, rfl⟩
  have hcount : sampleVisited.1.oldToYoung.dirtyCount = 4 := by decide +kernel
  obtain ⟨-, -, cards, -, hvisits, hlen, -⟩ := visitDirty_exact hreached (.inr
    (show (sampleVisited.2.reserve _).2 = true by decide +kernel))
  exact ⟨cards, hvisits, hlen.trans hcount⟩

end Xgc
