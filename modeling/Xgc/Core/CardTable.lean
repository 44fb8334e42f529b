import Xgc.Core.Bitmap
import Xgc.Lib.Keyed
import Mathlib.Data.Nat.Count

/-! `src/core/card_table.c` and `src/core/barrier.c`: the remembered set.

    The card table keeps, for each old object (*owner*), a bitmap with one bit per card; the barrier
    set counts the owners with a dirty card and all dirty cards. The functions of `barrier.c` only
    pass the runtime's table on, so they share their definitions with those of `card_table.c`. -/

namespace Xgc

open Lib (lookup update removeKey)

/-- `gc_card_entry` -/
structure GcCardEntry where
  ownerBase : Nat
  ownerSize : Nat
  cardCount : Nat
  dirtyCardCount : Nat
  dirtyMap : GcBitmap

/-- `gc_card_table`: the first `count` entries of the array, its capacity, and whether the array
    has been allocated. -/
structure GcCardTable where
  entries : List GcCardEntry
  capacity : Nat
  allocated : Bool
  cardGranularity : Nat

/-- `gc_barrier_set`. `clipped` records that a saturating subtraction was asked for more than the
    counter had. -/
structure GcBarrierSet where
  oldToYoung : GcCardTable
  dirtyOldObjects : Nat
  dirtyCards : Nat
  clipped : Bool

/-- `gc_card_table_find_entry` -/
def gcCardTableFindEntry (t : GcCardTable) (owner : Nat) : Option GcCardEntry :=
  if owner = 0 then none else lookup GcCardEntry.ownerBase owner t.entries

/-- `gc_card_table_effective_granularity` -/
def gcCardTableEffectiveGranularity (t : GcCardTable) : Nat :=
  if t.cardGranularity = 0 then 256 else t.cardGranularity

/-- `gc_card_table_card_index_for_slot` -/
def gcCardTableCardIndexForSlot (t : GcCardTable) (e : GcCardEntry) (slotAddr : Nat) : Nat :=
  if slotAddr = 0 ∨ e.cardCount = 0 then 0
  else if slotAddr ≤ e.ownerBase then 0
  else
    let cardIndex := (slotAddr - e.ownerBase) / gcCardTableEffectiveGranularity t
    if cardIndex ≥ e.cardCount then e.cardCount - 1 else cardIndex

/-- `gc_card_table_account_dirty_card`, on the counters of the barrier set; the caller counts the
    card in the entry, which had `dirtyCardCount` dirty cards before. -/
def gcCardTableAccountDirtyCard (b : GcBarrierSet) (dirtyCardCount : Nat) : GcBarrierSet :=
  { b with
    dirtyOldObjects := if dirtyCardCount = 0 then b.dirtyOldObjects + 1 else b.dirtyOldObjects
    dirtyCards := b.dirtyCards + 1 }

/-- `gc_card_table_unaccount_dirty_owner` -/
def gcCardTableUnaccountDirtyOwner (b : GcBarrierSet) (dirtyCardCount : Nat) : GcBarrierSet :=
  if dirtyCardCount = 0 then b
  else
    { b with
      dirtyOldObjects := if b.dirtyOldObjects > 0 then b.dirtyOldObjects - 1 else 0
      dirtyCards := if dirtyCardCount ≥ b.dirtyCards then 0 else b.dirtyCards - dirtyCardCount
      clipped := b.clipped || b.dirtyOldObjects = 0 || dirtyCardCount > b.dirtyCards }

/-- `gc_card_table_init` -/
def gcCardTableInit (cardGranularity : Nat) : GcCardTable where
  entries := []
  capacity := 0
  allocated := false
  cardGranularity := if cardGranularity ≠ 0 then cardGranularity else 256

/-- `gc_barrier_set_init` -/
def gcBarrierSetInit (cardGranularity : Nat) : GcBarrierSet where
  oldToYoung := gcCardTableInit cardGranularity
  dirtyOldObjects := 0
  dirtyCards := 0
  clipped := false

/-- The barrier set that `gc_barrier_set_destroy` leaves, with all fields zero. -/
def gcBarrierSetDestroyed : GcBarrierSet where
  oldToYoung := { entries := [], capacity := 0, allocated := false, cardGranularity := 0 }
  dirtyOldObjects := 0
  dirtyCards := 0
  clipped := false

/-- The number of cards that `gc_card_table_register_owner` computes for an owner. -/
def cardCountFor (ownerSize granularity : Nat) : Nat :=
  let cardCount := (ownerSize + granularity - 1) % 2 ^ 64 / granularity
  if cardCount = 0 then 1 else cardCount

/-- `new_capacity` in `gc_card_table_register_owner` -/
def grownCapacity (capacity : Nat) : Nat := if capacity > 0 then capacity * 2 % 2 ^ 64 else 32

/-- `new_capacity * sizeof(gc_card_entry)` -/
def grownBytes (capacity : Nat) : Nat := grownCapacity capacity * 56 % 2 ^ 64

/-- The growth of the entries array in `gc_card_table_register_owner`. -/
def growEntries (t : GcCardTable) (m : Mem) : GcCardTable × Mem × Bool :=
  if t.entries.length = t.capacity then
    let (m, ok) := m.reserve (grownBytes t.capacity)
    if ok then ({ t with capacity := grownCapacity t.capacity, allocated := true }, m, true)
    else (t, m, false)
  else (t, m, true)

/-- `gc_card_table_register_owner` -/
def gcCardTableRegisterOwner (t : GcCardTable) (owner ownerSize : Nat) (m : Mem) :
    GcCardTable × Mem × Bool :=
  if owner = 0 ∨ ownerSize = 0 then (t, m, false)
  else if (gcCardTableFindEntry t owner).isSome then (t, m, true)
  else
    let (t, m, ok) := growEntries t m
    if !ok then (t, m, false)
    else
      let cardCount := cardCountFor ownerSize (gcCardTableEffectiveGranularity t)
      let (dirtyMap, m) := gcBitmapInit cardCount m
      if dirtyMap.bitCount ≠ cardCount then (t, m, false)
      else
        ({ t with entries := t.entries ++
            [{ ownerBase := owner, ownerSize, cardCount, dirtyCardCount := 0, dirtyMap }] },
          m, true)

/-- `gc_barrier_register_owner` -/
def gcBarrierRegisterOwner (b : GcBarrierSet) (owner ownerSize : Nat) (m : Mem) :
    GcBarrierSet × Mem × Bool :=
  let (t, m, ok) := gcCardTableRegisterOwner b.oldToYoung owner ownerSize m
  ({ b with oldToYoung := t }, m, ok)

/-- `gc_barrier_unregister_owner`: `gc_card_table_unregister_owner` on the runtime's table. -/
def gcBarrierUnregisterOwner (b : GcBarrierSet) (owner : Nat) : GcBarrierSet :=
  match gcCardTableFindEntry b.oldToYoung owner with
  | none => b
  | some entry =>
    let b := gcCardTableUnaccountDirtyOwner b entry.dirtyCardCount
    { b with oldToYoung := { b.oldToYoung with
        entries := removeKey GcCardEntry.ownerBase owner b.oldToYoung.entries } }

/-- Rewrite the entry of an owner. -/
def GcBarrierSet.updateEntry (b : GcBarrierSet) (owner : Nat) (f : GcCardEntry → GcCardEntry) :
    GcBarrierSet :=
  { b with oldToYoung := { b.oldToYoung with
      entries := update GcCardEntry.ownerBase owner f b.oldToYoung.entries } }

/-- An entry with one more dirty card. -/
def GcCardEntry.markCard (cardIndex : Nat) (e : GcCardEntry) : GcCardEntry :=
  { e with dirtyMap := gcBitmapSet e.dirtyMap cardIndex, dirtyCardCount := e.dirtyCardCount + 1 }

/-- An entry without dirty cards. -/
def GcCardEntry.clean (e : GcCardEntry) : GcCardEntry :=
  { e with dirtyMap := gcBitmapClearAll e.dirtyMap, dirtyCardCount := 0 }

/-- `gc_barrier_mark_slot_dirty`: `gc_card_table_mark_slot` on the runtime's table. -/
def gcBarrierMarkSlotDirty (b : GcBarrierSet) (owner slotAddr : Nat) : GcBarrierSet :=
  if owner = 0 ∨ slotAddr = 0 then b
  else
    match gcCardTableFindEntry b.oldToYoung owner with
    | none => b
    | some entry =>
      if entry.cardCount = 0 then b
      else
        let cardIndex := gcCardTableCardIndexForSlot b.oldToYoung entry slotAddr
        if gcBitmapTest entry.dirtyMap cardIndex then b
        else
          gcCardTableAccountDirtyCard (b.updateEntry owner (GcCardEntry.markCard cardIndex))
            entry.dirtyCardCount

/-- One round of the loop of `gc_card_table_mark_owner`. -/
def gcCardTableMarkCard (b : GcBarrierSet) (owner cardIndex : Nat) : GcBarrierSet :=
  match gcCardTableFindEntry b.oldToYoung owner with
  | none => b
  | some entry =>
    if gcBitmapTest entry.dirtyMap cardIndex then b
    else
      gcCardTableAccountDirtyCard (b.updateEntry owner (GcCardEntry.markCard cardIndex))
        entry.dirtyCardCount

/-- `gc_barrier_mark_owner_dirty`: `gc_card_table_mark_owner` on the runtime's table. -/
def gcBarrierMarkOwnerDirty (b : GcBarrierSet) (owner : Nat) : GcBarrierSet :=
  match gcCardTableFindEntry b.oldToYoung owner with
  | none => b
  | some entry => (List.range entry.cardCount).foldl (gcCardTableMarkCard · owner ·) b

/-- `gc_barrier_is_owner_dirty`: `gc_card_table_owner_is_dirty` on the runtime's table. -/
def gcBarrierIsOwnerDirty (b : GcBarrierSet) (owner : Nat) : Bool :=
  match gcCardTableFindEntry b.oldToYoung owner with
  | none => false
  | some entry => decide (entry.dirtyCardCount ≠ 0)

/-- `gc_barrier_clear_owner_dirty`: `gc_card_table_clear_owner` on the runtime's table. -/
def gcBarrierClearOwnerDirty (b : GcBarrierSet) (owner : Nat) : GcBarrierSet :=
  match gcCardTableFindEntry b.oldToYoung owner with
  | none => b
  | some entry =>
    if entry.dirtyCardCount = 0 then b
    else
      gcCardTableUnaccountDirtyOwner (b.updateEntry owner GcCardEntry.clean)
        entry.dirtyCardCount

/-- The dirty cards of an entry, as both passes of `gc_card_table_visit_dirty` find them. -/
def GcCardEntry.visited (e : GcCardEntry) : List Nat :=
  if e.dirtyCardCount = 0 then []
  else (List.range e.cardCount).filter (gcBitmapTest e.dirtyMap)

/-- The first pass of `gc_card_table_visit_dirty`. -/
def GcCardTable.countDirty (t : GcCardTable) : Nat :=
  (t.entries.map fun e => e.visited.length).sum

/-- The snapshot that the second pass of `gc_card_table_visit_dirty` fills. -/
def GcCardTable.snapshot (t : GcCardTable) : List (Nat × Nat) :=
  t.entries.flatMap fun e => e.visited.map fun c => (e.ownerBase, c)

/-- `gc_card_table_visit_dirty` up to the loop that calls the callback: the pairs it is called
    with. -/
def gcCardTableVisitDirty (t : GcCardTable) (m : Mem) : Option (List (Nat × Nat)) × Mem :=
  if t.countDirty = 0 then (some [], m)
  else
    let (m, ok) := m.reserve (t.countDirty * 16)
    if ok then (some t.snapshot, m) else (none, m)

/-! ### Invariant checks of `src/core/invariants.c` -/

/-- The loop of `gc_card_table_check_invariants` over the cards of one entry. -/
def GcCardEntry.countBits (e : GcCardEntry) : Nat :=
  Nat.count (fun i => gcBitmapTest e.dirtyMap i = true) e.cardCount

/-- What `gc_card_table_check_invariants` checks of one entry. -/
def GcCardEntry.check (e : GcCardEntry) : Bool :=
  if e.ownerBase = 0 then false
  else if e.ownerSize = 0 then false
  else if e.cardCount = 0 then false
  else if !gcBitmapCheckInvariants e.dirtyMap then false
  else if e.dirtyMap.bitCount ≠ e.cardCount then false
  else e.countBits = e.dirtyCardCount

/-- `gc_card_table_check_invariants` -/
def gcCardTableCheckInvariants (t : GcCardTable) : Bool :=
  if t.entries.length > t.capacity then false
  else if (t.capacity = 0) ≠ (t.allocated = false) then false
  else if t.cardGranularity = 0 then false
  else t.entries.all GcCardEntry.check

/-- `gc_barrier_set_check_invariants` -/
def gcBarrierSetCheckInvariants (b : GcBarrierSet) : Bool :=
  if !gcCardTableCheckInvariants b.oldToYoung then false
  else if (b.oldToYoung.entries.filter fun e => e.dirtyCardCount ≠ 0).length
      ≠ b.dirtyOldObjects then false
  else if (b.oldToYoung.entries.map GcCardEntry.dirtyCardCount).sum ≠ b.dirtyCards then false
  else b.dirtyOldObjects ≤ b.oldToYoung.entries.length

end Xgc
