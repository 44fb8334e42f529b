import Xgc.Core.CardTable
import Mathlib.Data.Finset.Card
import Mathlib.Algebra.Order.BigOperators.Group.List

/-! What the operations of the remembered set do to the map it stands for: from each registered
    owner to its size and its set of dirty cards. `GcBarrierSet.Ok` ties the three redundant levels
    (bitmap bits, dirty counts of the entries, counters of the barrier set) together. -/

namespace Xgc

open Lib

/-- An entry that `gc_card_table_register_owner` can have made, with an exact dirty count. -/
structure GcCardEntry.Ok (granularity : Nat) (e : GcCardEntry) : Prop where
  base : e.ownerBase ≠ 0
  size : e.ownerSize ≠ 0
  cards : e.cardCount = cardCountFor e.ownerSize granularity
  bitmap : e.dirtyMap.Ok
  bits : e.dirtyMap.bitCount = e.cardCount
  dirty : e.countBits = e.dirtyCardCount

namespace GcBarrierSet

/-- The owners in the table, in array order. -/
def owners (b : GcBarrierSet) : List Nat := b.oldToYoung.entries.map GcCardEntry.ownerBase

/-- The number of entries with a dirty card. -/
def dirtyOwners (b : GcBarrierSet) : Nat :=
  (b.oldToYoung.entries.map fun e => if e.dirtyCardCount = 0 then 0 else 1).sum

/-- The invariant of the barrier set. -/
structure Ok (b : GcBarrierSet) : Prop where
  granularity : b.oldToYoung.cardGranularity ≠ 0
  keys : b.owners.Nodup
  entries : ∀ e ∈ b.oldToYoung.entries, e.Ok b.oldToYoung.cardGranularity
  capacity : b.oldToYoung.entries.length ≤ b.oldToYoung.capacity
  storage : b.oldToYoung.capacity * 56 ≤ ptrdiffMax
  allocated : b.oldToYoung.allocated = decide (b.oldToYoung.capacity ≠ 0)
  dirtyOld : b.dirtyOwners = b.dirtyOldObjects
  dirtySum : (b.oldToYoung.entries.map GcCardEntry.dirtyCardCount).sum = b.dirtyCards
  exact : b.clipped = false

/-- Card `c` of `owner` is dirty. -/
def Dirty (b : GcBarrierSet) (owner c : Nat) : Prop :=
  ∃ e ∈ b.oldToYoung.entries, e.ownerBase = owner ∧ gcBitmapTest e.dirtyMap c = true

/-- `owner` is registered with size `n`. -/
def HasSize (b : GcBarrierSet) (owner n : Nat) : Prop :=
  ∃ e ∈ b.oldToYoung.entries, e.ownerBase = owner ∧ e.ownerSize = n

end GcBarrierSet

/-! ### Counting bits -/

theorem cardCountFor_pos (n g : Nat) : cardCountFor n g ≠ 0 := by
  simp only [cardCountFor]
  split <;> omega

/-- The number of cards is the size over the granularity, rounded up, also where the sum of the
    two wraps. -/
theorem cardCountFor_eq {n g : Nat} (hn : n ≠ 0) (hn' : n < 2 ^ 32) (hg : g ≠ 0)
    (hg' : g < 2 ^ 64) : cardCountFor n g = (n + g - 1) / g := by
  unfold cardCountFor
  have hgpos : 0 < g := Nat.pos_of_ne_zero hg
  by_cases hwrap : n + g - 1 < 2 ^ 64
  · rw [Nat.mod_eq_of_lt hwrap]
    have : 0 < (n + g - 1) / g := Nat.div_pos (by omega) hgpos
    simp only [Nat.pos_iff_ne_zero.mp this, if_false]
  · have hmod : (n + g - 1) % 2 ^ 64 < g := by omega
    have hone : (n + g - 1) / g = 1 := by
      rw [Nat.div_eq_iff hgpos]
      omega
    have hzero : (n + g - 1) % 2 ^ 64 / g = 0 := Nat.div_eq_of_lt hmod
    simp only [hzero, hone, if_true]

theorem cardCountFor_le {n g : Nat} (hn' : n < 2 ^ 32) (hg : g ≠ 0) :
    cardCountFor n g ≤ 2 ^ 33 := by
  have hgpos : 0 < g := Nat.pos_of_ne_zero hg
  unfold cardCountFor
  have hdiv : (n + g - 1) / g ≤ n := by
    rw [Nat.div_le_iff_le_mul_add_pred hgpos]
    have := Nat.le_mul_of_pos_left n hgpos
    omega
  have hle : (n + g - 1) % 2 ^ 64 / g ≤ (n + g - 1) / g :=
    Nat.div_le_div_right (Nat.mod_le _ _)
  by_cases hzero : (n + g - 1) % 2 ^ 64 / g = 0
  · simp only [hzero, if_true]
    decide
  · simp only [hzero, if_false]
    omega

theorem cardCountFor_succ {n g : Nat} (hn : n ≠ 0) (hn' : n < 2 ^ 32) (hg : g ≠ 0)
    (hg' : g < 2 ^ 64) : cardCountFor n g = (n - 1) / g + 1 := by
  rw [cardCountFor_eq hn hn' hg hg', show n + g - 1 = n - 1 + g by omega,
    Nat.add_div_right _ (Nat.pos_of_ne_zero hg)]

/-- A card begins inside its object. -/
theorem card_begin_lt {n g c : Nat} (hn : n ≠ 0) (hn' : n < 2 ^ 32) (hg : g ≠ 0)
    (hg' : g < 2 ^ 64) (hc : c < cardCountFor n g) : c * g < n := by
  rw [cardCountFor_succ hn hn' hg hg'] at hc
  have hle : c * g ≤ (n - 1) / g * g := Nat.mul_le_mul_right g (by omega)
  have := Nat.div_mul_le_self (n - 1) g
  omega

/-- The byte range of a card does not wrap. -/
theorem card_range {n g c : Nat} (hn' : n < 2 ^ 32) (hg' : g < 2 ^ 64) (hlt : c * g < n) :
    c * g % 2 ^ 64 = c * g ∧ (c * g % 2 ^ 64 + g) % 2 ^ 64 = c * g + g := by
  have hbegin : c * g % 2 ^ 64 = c * g := Nat.mod_eq_of_lt (by omega)
  refine ⟨hbegin, ?_⟩
  rw [hbegin]
  cases c with
  | zero => rw [Nat.zero_mul, Nat.zero_add, Nat.mod_eq_of_lt hg']
  | succ c =>
    have : g ≤ (c + 1) * g := Nat.le_mul_of_pos_left g (Nat.succ_pos c)
    exact Nat.mod_eq_of_lt (by omega)

theorem count_insert {p q : Nat → Prop} [DecidablePred p] [DecidablePred q] {i n : Nat}
    (hi : i < n) (hp : ¬ p i) (hq : ∀ j, q j ↔ p j ∨ j = i) :
    Nat.count q n = Nat.count p n + 1 := by
  rw [Nat.count_eq_card_filter_range, Nat.count_eq_card_filter_range]
  have hset : (Finset.range n).filter q = insert i ((Finset.range n).filter p) := by
    ext j
    simp only [Finset.mem_filter, Finset.mem_range, Finset.mem_insert, hq]
    constructor
    · rintro ⟨hj, hpj | rfl⟩
      · exact .inr ⟨hj, hpj⟩
      · exact .inl rfl
    · rintro (rfl | ⟨hj, hpj⟩)
      · exact ⟨hi, .inr rfl⟩
      · exact ⟨hj, .inl hpj⟩
  rw [hset, Finset.card_insert_of_notMem (by simp [hp])]

namespace GcCardEntry

theorem Ok.markCard {g : Nat} {e : GcCardEntry} (h : e.Ok g) {i : Nat} (hi : i < e.cardCount)
    (hclean : gcBitmapTest e.dirtyMap i = false) : (e.markCard i).Ok g where
  base := h.base
  size := h.size
  cards := h.cards
  bitmap := h.bitmap.set i
  bits := (GcBitmap.set_bitCount _ i).trans h.bits
  dirty := by
    have hcount := count_insert (p := fun j => gcBitmapTest e.dirtyMap j = true)
      (q := fun j => gcBitmapTest (gcBitmapSet e.dirtyMap i) j = true) hi (by simp [hclean])
      (fun j => by
        have hlt : i < e.dirtyMap.bitCount := by rw [h.bits]; exact hi
        simp [GcBitmap.test_set h.bitmap, hlt])
    exact hcount.trans (congrArg (· + 1) h.dirty)

theorem Ok.clean {g : Nat} {e : GcCardEntry} (h : e.Ok g) : e.clean.Ok g where
  base := h.base
  size := h.size
  cards := h.cards
  bitmap := h.bitmap.clearAll
  bits := (GcBitmap.clearAll_bitCount _).trans h.bits
  dirty := by simp [countBits, GcCardEntry.clean, GcBitmap.test_clearAll h.bitmap, Nat.count_eq_card_filter_range]

/-- A dirty card is counted. -/
theorem Ok.dirtyCardCount_ne_zero {g : Nat} {e : GcCardEntry} (h : e.Ok g) {i : Nat}
    (ht : gcBitmapTest e.dirtyMap i = true) : e.dirtyCardCount ≠ 0 := by
  have hi : i < e.cardCount := by
    rw [GcBitmap.test_eq h.bitmap, h.bits] at ht
    simp only [Bool.and_eq_true, decide_eq_true_eq] at ht
    exact ht.1
  rw [← h.dirty, countBits, Nat.count_eq_card_filter_range, Finset.card_ne_zero]
  exact ⟨i, by simp [hi, ht]⟩

/-- The cards that `gc_card_table_visit_dirty` visits are the dirty ones. -/
theorem Ok.mem_visited {g : Nat} {e : GcCardEntry} (h : e.Ok g) (i : Nat) :
    i ∈ e.visited ↔ gcBitmapTest e.dirtyMap i = true := by
  unfold visited
  constructor
  · intro hi
    split at hi
    · simp at hi
    · exact (List.mem_filter.mp hi).2
  · intro ht
    have hi : i < e.cardCount := by
      rw [← h.bits]
      rw [GcBitmap.test_eq h.bitmap] at ht
      simp only [Bool.and_eq_true, decide_eq_true_eq] at ht
      exact ht.1
    rw [if_neg (h.dirtyCardCount_ne_zero ht), List.mem_filter]
    exact ⟨List.mem_range.mpr hi, ht⟩

end GcCardEntry

namespace GcBarrierSet

theorem ok_init {g : Nat} : (gcBarrierSetInit g).Ok where
  granularity := by
    by_cases h : g = 0 <;> simp [gcBarrierSetInit, gcCardTableInit, h]
  keys := List.nodup_nil
  entries := by simp [gcBarrierSetInit, gcCardTableInit]
  capacity := le_refl _
  storage := Nat.zero_le _
  allocated := rfl
  dirtyOld := rfl
  dirtySum := rfl
  exact := rfl

variable {b : GcBarrierSet}

theorem find_some (h : b.Ok) {owner : Nat} {e : GcCardEntry} :
    gcCardTableFindEntry b.oldToYoung owner = some e ↔
      e ∈ b.oldToYoung.entries ∧ e.ownerBase = owner := by
  unfold gcCardTableFindEntry
  by_cases h0 : owner = 0
  · simp only [h0, if_true, reduceCtorEq, false_iff, not_and]
    exact fun he hb => absurd hb (h.entries e he).base
  · rw [if_neg h0]
    exact lookup_eq_some h.keys

theorem find_none (h : b.Ok) {owner : Nat} :
    gcCardTableFindEntry b.oldToYoung owner = none ↔ owner ∉ b.owners := by
  constructor
  · intro hf hm
    obtain ⟨e, he, hb⟩ := List.mem_map.mp hm
    rw [(find_some h).mpr ⟨he, hb⟩] at hf
    exact nomatch hf
  · intro hm
    cases hf : gcCardTableFindEntry b.oldToYoung owner with
    | none => rfl
    | some e => exact absurd (List.mem_map.mpr ⟨e, (find_some h).mp hf⟩) hm

/-- Two entries of one owner are the same entry. -/
theorem entry_unique (h : b.Ok) {e e' : GcCardEntry} (he : e ∈ b.oldToYoung.entries)
    (he' : e' ∈ b.oldToYoung.entries) (hb : e.ownerBase = e'.ownerBase) : e = e' :=
  List.inj_on_of_nodup_map h.keys he he' hb

theorem effectiveGranularity (h : b.Ok) :
    gcCardTableEffectiveGranularity b.oldToYoung = b.oldToYoung.cardGranularity := by
  rw [gcCardTableEffectiveGranularity, if_neg h.granularity]

/-- A dirty count of an entry does not exceed the number of dirty cards. -/
theorem le_dirtyCards (h : b.Ok) {e : GcCardEntry} (he : e ∈ b.oldToYoung.entries) :
    e.dirtyCardCount ≤ b.dirtyCards := by
  rw [← h.dirtySum]
  exact List.single_le_sum (fun _ _ => Nat.zero_le _) _ (List.mem_map_of_mem he)

theorem dirtyOldObjects_pos (h : b.Ok) {e : GcCardEntry} (he : e ∈ b.oldToYoung.entries)
    (hd : e.dirtyCardCount ≠ 0) : 0 < b.dirtyOldObjects := by
  rw [← h.dirtyOld]
  have hle := List.single_le_sum (fun _ _ => Nat.zero_le _) _ (List.mem_map_of_mem
    (f := fun e : GcCardEntry => if e.dirtyCardCount = 0 then 0 else 1) he)
  simp only [hd, if_false] at hle
  exact hle

/-- With an entry of the set, the saturating subtractions do not saturate. -/
theorem unaccount_eq (h : b.Ok) {e : GcCardEntry} (he : e ∈ b.oldToYoung.entries) :
    gcCardTableUnaccountDirtyOwner b e.dirtyCardCount =
      { b with
        dirtyOldObjects := b.dirtyOldObjects - if e.dirtyCardCount = 0 then 0 else 1
        dirtyCards := b.dirtyCards - e.dirtyCardCount } := by
  unfold gcCardTableUnaccountDirtyOwner
  by_cases hd : e.dirtyCardCount = 0
  · simp [hd]
  · have hpos := dirtyOldObjects_pos h he hd
    have hle := le_dirtyCards h he
    have hcards : (if e.dirtyCardCount ≥ b.dirtyCards then 0
        else b.dirtyCards - e.dirtyCardCount) = b.dirtyCards - e.dirtyCardCount := by
      split <;> omega
    have h0 : b.dirtyOldObjects ≠ 0 := by omega
    simp [hd, hpos, hcards, h0, hle, h.exact]

/-! ### The operations on the map -/

/-- The card that `gc_card_table_mark_slot` marks for an owner of a given size. -/
def cardIndexFor (granularity owner size slotAddr : Nat) : Nat :=
  if slotAddr ≤ owner then 0
  else min ((slotAddr - owner) / granularity) (cardCountFor size granularity - 1)

theorem cardIndex_eq (h : b.Ok) {e : GcCardEntry} (he : e ∈ b.oldToYoung.entries)
    {slotAddr : Nat} (hs : slotAddr ≠ 0) :
    gcCardTableCardIndexForSlot b.oldToYoung e slotAddr =
      cardIndexFor b.oldToYoung.cardGranularity e.ownerBase e.ownerSize slotAddr := by
  have hcards := (h.entries e he).cards
  have hpos := cardCountFor_pos e.ownerSize b.oldToYoung.cardGranularity
  unfold gcCardTableCardIndexForSlot cardIndexFor
  rw [effectiveGranularity h, hcards, if_neg (by simp [hs, hpos])]
  by_cases hle : slotAddr ≤ e.ownerBase
  · rw [if_pos hle, if_pos hle]
  · rw [if_neg hle, if_neg hle]
    simp only [ge_iff_le]
    split <;> omega

theorem cardIndexFor_lt (g owner size slotAddr : Nat) :
    cardIndexFor g owner size slotAddr < cardCountFor size g := by
  have := cardCountFor_pos size g
  unfold cardIndexFor
  split <;> omega

/-- The card of a slot inside the object is the one that its offset lies on. -/
theorem cardIndexFor_inline (owner : Nat) {g size off : Nat} (hg : g ≠ 0) (hg' : g < 2 ^ 64)
    (hsize : size < 2 ^ 32) (hoff : off < size) :
    cardIndexFor g owner size (owner + off) = off / g := by
  have hle : off / g ≤ (size - 1) / g := Nat.div_le_div_right (by omega)
  unfold cardIndexFor
  split
  · have : off = 0 := by omega
    simp [this]
  · rw [cardCountFor_succ (by omega) hsize hg hg', Nat.add_sub_cancel_left, Nat.add_sub_cancel]
    exact Nat.min_eq_left hle

/-- The owners, their sizes and the granularity are as they were. -/
structure SameOwners (b b' : GcBarrierSet) : Prop where
  owners : b'.owners = b.owners
  size : ∀ o n, b'.HasSize o n ↔ b.HasSize o n
  granularity : b'.oldToYoung.cardGranularity = b.oldToYoung.cardGranularity

theorem SameOwners.refl (b : GcBarrierSet) : b.SameOwners b := ⟨rfl, fun _ _ => Iff.rfl, rfl⟩

theorem SameOwners.trans {b' b'' : GcBarrierSet} (h : b.SameOwners b') (h' : b'.SameOwners b'') :
    b.SameOwners b'' :=
  ⟨h'.owners.trans h.owners, fun o n => (h'.size o n).trans (h.size o n),
    h'.granularity.trans h.granularity⟩

theorem SameOwners.counters {b' : GcBarrierSet} (h : b.SameOwners b') (dOld dCards : Nat) :
    b.SameOwners { b' with dirtyOldObjects := dOld, dirtyCards := dCards } :=
  ⟨h.owners, h.size, h.granularity⟩

theorem sameOwners_updateEntry (b : GcBarrierSet) (owner : Nat) (f : GcCardEntry → GcCardEntry)
    (hbase : ∀ x, (f x).ownerBase = x.ownerBase) (hsize : ∀ x, (f x).ownerSize = x.ownerSize) :
    b.SameOwners (b.updateEntry owner f) where
  owners := map_update hbase _
  size o n := by
    have hmap : (update GcCardEntry.ownerBase owner f b.oldToYoung.entries).map
        (fun e => (e.ownerBase, e.ownerSize)) =
        b.oldToYoung.entries.map (fun e => (e.ownerBase, e.ownerSize)) :=
      map_update (fun x => by rw [hbase, hsize]) _
    have hmem : ∀ l : List GcCardEntry, (∃ e ∈ l, e.ownerBase = o ∧ e.ownerSize = n) ↔
        (o, n) ∈ l.map (fun e => (e.ownerBase, e.ownerSize)) := by
      intro l
      simp
    show (∃ e ∈ update GcCardEntry.ownerBase owner f b.oldToYoung.entries, _) ↔ _
    rw [hmem, hmap, ← hmem]
    rfl
  granularity := rfl

/-- Rewriting one entry keeps the invariant when the counters follow the entry. -/
theorem Ok.updateEntry (h : b.Ok) {e : GcCardEntry} (he : e ∈ b.oldToYoung.entries)
    {f : GcCardEntry → GcCardEntry} (hbase : ∀ x, (f x).ownerBase = x.ownerBase)
    (hfe : (f e).Ok b.oldToYoung.cardGranularity) {dOld dCards : Nat}
    (hold : dOld + (if e.dirtyCardCount = 0 then 0 else 1) =
      b.dirtyOldObjects + if (f e).dirtyCardCount = 0 then 0 else 1)
    (hcards : dCards + e.dirtyCardCount = b.dirtyCards + (f e).dirtyCardCount) :
    ({ b.updateEntry e.ownerBase f with dirtyOldObjects := dOld, dirtyCards := dCards } :
      GcBarrierSet).Ok := by
  have hlook := (lookup_eq_some (x := e) (k := e.ownerBase) h.keys).mpr ⟨he, rfl⟩
  constructor
  · exact h.granularity
  · show (List.map _ (update _ _ _ _)).Nodup
    rw [map_update hbase]
    exact h.keys
  · intro e' he'
    rcases (mem_update h.keys).mp he' with ⟨hm, -⟩ | ⟨x, hx, hk, rfl⟩
    · exact h.entries e' hm
    · rw [entry_unique h hx he hk]
      exact hfe
  · show (update _ _ _ _).length ≤ _
    rw [length_update]
    exact h.capacity
  · exact h.storage
  · exact h.allocated
  · have hsum := sum_update (f := f)
      (fun e : GcCardEntry => if e.dirtyCardCount = 0 then 0 else 1) hlook
    have hd := h.dirtyOld
    unfold dirtyOwners at hd
    rw [hd] at hsum
    exact Nat.add_right_cancel (hsum.trans hold.symm)
  · have hsum := sum_update (f := f) GcCardEntry.dirtyCardCount hlook
    rw [h.dirtySum] at hsum
    exact Nat.add_right_cancel (hsum.trans hcards.symm)
  · exact h.exact

theorem dirty_updateEntry (h : b.Ok) {e : GcCardEntry} (he : e ∈ b.oldToYoung.entries)
    (f : GcCardEntry → GcCardEntry) (hbase : ∀ x, (f x).ownerBase = x.ownerBase) (o c : Nat) :
    (b.updateEntry e.ownerBase f).Dirty o c ↔
      (b.Dirty o c ∧ o ≠ e.ownerBase) ∨
        (o = e.ownerBase ∧ gcBitmapTest (f e).dirtyMap c = true) := by
  constructor
  · rintro ⟨x, hx, rfl, hc⟩
    rcases (mem_update h.keys).mp hx with ⟨hm, hk⟩ | ⟨y, hy, hk, rfl⟩
    · exact .inl ⟨⟨x, hm, rfl, hc⟩, hk⟩
    · rw [entry_unique h hy he hk] at hc ⊢
      exact .inr ⟨hbase e, hc⟩
  · rintro (⟨⟨x, hx, rfl, hc⟩, hne⟩ | ⟨rfl, hc⟩)
    · exact ⟨x, (mem_update h.keys).mpr (.inl ⟨hx, hne⟩), rfl, hc⟩
    · exact ⟨f e, (mem_update h.keys).mpr (.inr ⟨e, he, rfl, rfl⟩), hbase e, hc⟩

theorem dirty_entry (h : b.Ok) {e : GcCardEntry} (he : e ∈ b.oldToYoung.entries) (c : Nat) :
    b.Dirty e.ownerBase c ↔ gcBitmapTest e.dirtyMap c = true := by
  constructor
  · rintro ⟨x, hx, hb, hc⟩
    rwa [entry_unique h hx he hb] at hc
  · exact fun hc => ⟨e, he, rfl, hc⟩

theorem hasSize_entry (h : b.Ok) {e : GcCardEntry} (he : e ∈ b.oldToYoung.entries) (n : Nat) :
    b.HasSize e.ownerBase n ↔ n = e.ownerSize := by
  refine ⟨fun ⟨x, hx, hb, hn⟩ => ?_, fun hn => ⟨e, he, rfl, hn.symm⟩⟩
  rw [← hn, entry_unique h hx he hb]

theorem not_hasSize (h : b.Ok) {owner : Nat}
    (hf : gcCardTableFindEntry b.oldToYoung owner = none) (n : Nat) : ¬ b.HasSize owner n :=
  fun ⟨e, he, hb, _⟩ => (find_none h).mp hf (List.mem_map.mpr ⟨e, he, hb⟩)

/-- Marking a card of a registered owner makes exactly this card dirty. -/
theorem markCard_spec (h : b.Ok) {e : GcCardEntry} (he : e ∈ b.oldToYoung.entries) {i : Nat}
    (hi : i < e.cardCount) :
    (gcCardTableMarkCard b e.ownerBase i).Ok ∧
    b.SameOwners (gcCardTableMarkCard b e.ownerBase i) ∧
    ∀ o c, (gcCardTableMarkCard b e.ownerBase i).Dirty o c ↔
      b.Dirty o c ∨ (o = e.ownerBase ∧ c = i) := by
  have hOk := h.entries e he
  unfold gcCardTableMarkCard
  simp only [(find_some h).mpr ⟨he, rfl⟩]
  by_cases ht : gcBitmapTest e.dirtyMap i = true
  · rw [if_pos ht]
    refine ⟨h, .refl b, fun o c => ⟨.inl, ?_⟩⟩
    rintro (hd | ⟨rfl, rfl⟩)
    · exact hd
    · exact (dirty_entry h he _).mpr ht
  · rw [if_neg ht]
    refine ⟨h.updateEntry (f := GcCardEntry.markCard i) he (fun _ => rfl)
        (hOk.markCard hi (by simpa using ht)) ?_ ?_,
      (sameOwners_updateEntry b _ (GcCardEntry.markCard i) (fun _ => rfl)
        (fun _ => rfl)).counters _ _, fun o c => ?_⟩
    · show (if e.dirtyCardCount = 0 then b.dirtyOldObjects + 1 else b.dirtyOldObjects) +
        (if e.dirtyCardCount = 0 then 0 else 1) = b.dirtyOldObjects + 1
      by_cases hz : e.dirtyCardCount = 0 <;> simp [hz]
    · show b.dirtyCards + 1 + e.dirtyCardCount = b.dirtyCards + (e.dirtyCardCount + 1)
      omega
    · refine (dirty_updateEntry h he (GcCardEntry.markCard i) (fun _ => rfl) o c).trans ?_
      have hbits : i < e.dirtyMap.bitCount := by rw [hOk.bits]; exact hi
      simp only [GcCardEntry.markCard, GcBitmap.test_set hOk.bitmap, hbits, decide_true,
        Bool.and_true, Bool.or_eq_true, decide_eq_true_eq]
      by_cases ho : o = e.ownerBase
      · subst ho
        simp [dirty_entry h he]
      · simp [ho]

/-- `gc_card_table_mark_slot` marks the card of the slot. -/
theorem markSlot_eq (h : b.Ok) {e : GcCardEntry} (he : e ∈ b.oldToYoung.entries) {slotAddr : Nat}
    (hs : slotAddr ≠ 0) :
    gcBarrierMarkSlotDirty b e.ownerBase slotAddr = gcCardTableMarkCard b e.ownerBase
      (cardIndexFor b.oldToYoung.cardGranularity e.ownerBase e.ownerSize slotAddr) := by
  have hOk := h.entries e he
  have hcc : e.cardCount ≠ 0 := by rw [hOk.cards]; exact cardCountFor_pos _ _
  unfold gcBarrierMarkSlotDirty gcCardTableMarkCard
  rw [if_neg (by simp [hOk.base, hs])]
  simp only [(find_some h).mpr ⟨he, rfl⟩, hcc, if_false, cardIndex_eq h he hs]

/-- `gc_card_table_mark_slot` adds exactly the card of the slot, when the owner is registered. -/
theorem markSlot_spec (h : b.Ok) (owner : Nat) {slotAddr : Nat} (hs : slotAddr ≠ 0) :
    (gcBarrierMarkSlotDirty b owner slotAddr).Ok ∧
    b.SameOwners (gcBarrierMarkSlotDirty b owner slotAddr) ∧
    ∀ o c, (gcBarrierMarkSlotDirty b owner slotAddr).Dirty o c ↔ b.Dirty o c ∨ (o = owner ∧
      ∃ n, b.HasSize owner n ∧
        c = cardIndexFor b.oldToYoung.cardGranularity owner n slotAddr) := by
  cases hf : gcCardTableFindEntry b.oldToYoung owner with
  | none =>
    have hno := not_hasSize h hf
    have heq : gcBarrierMarkSlotDirty b owner slotAddr = b := by
      simp only [gcBarrierMarkSlotDirty, hf, ite_self]
    rw [heq]
    exact ⟨h, .refl b, fun o c => by simp [hno]⟩
  | some e =>
    obtain ⟨he, rfl⟩ := (find_some h).mp hf
    have hlt : cardIndexFor b.oldToYoung.cardGranularity e.ownerBase e.ownerSize slotAddr
        < e.cardCount := by
      rw [(h.entries e he).cards]
      exact cardIndexFor_lt _ _ _ _
    simp only [markSlot_eq h he hs, hasSize_entry h he, exists_eq_left]
    exact markCard_spec h he hlt

/-- The loop of `gc_card_table_mark_owner` over some cards of a registered owner. -/
theorem markCards_spec {owner : Nat} : ∀ (cards : List Nat) {b : GcBarrierSet}, b.Ok →
    (∀ i ∈ cards, ∃ e ∈ b.oldToYoung.entries, e.ownerBase = owner ∧ i < e.cardCount) →
    (cards.foldl (gcCardTableMarkCard · owner ·) b).Ok ∧
    b.SameOwners (cards.foldl (gcCardTableMarkCard · owner ·) b) ∧
    ∀ o c, (cards.foldl (gcCardTableMarkCard · owner ·) b).Dirty o c ↔
      b.Dirty o c ∨ (o = owner ∧ c ∈ cards)
  | [], b, h, _ => ⟨h, .refl b, fun o c => by simp⟩
  | i :: is, b, h, hin => by
      obtain ⟨e, he, rfl, hi⟩ := hin i List.mem_cons_self
      obtain ⟨hOk, hsame, hdirty⟩ := markCard_spec h he hi
      have hin' : ∀ j ∈ is, ∃ e' ∈ (gcCardTableMarkCard b e.ownerBase i).oldToYoung.entries,
          e'.ownerBase = e.ownerBase ∧ j < e'.cardCount := by
        intro j hj
        obtain ⟨x, hx, hxb, hjx⟩ := hin j (List.mem_cons_of_mem i hj)
        obtain ⟨y, hy, hyb, hyn⟩ := (hsame.size e.ownerBase x.ownerSize).mpr ⟨x, hx, hxb, rfl⟩
        refine ⟨y, hy, hyb, ?_⟩
        rw [(hOk.entries y hy).cards, hsame.granularity, hyn, ← (h.entries x hx).cards]
        exact hjx
      obtain ⟨hOk', hsame', hdirty'⟩ := markCards_spec is hOk hin'
      refine ⟨hOk', hsame.trans hsame', fun o c => ?_⟩
      rw [List.foldl_cons, hdirty', hdirty, List.mem_cons]
      tauto

/-- `gc_card_table_mark_owner` makes every card of the owner dirty, when it is registered. -/
theorem markOwner_spec (h : b.Ok) (owner : Nat) :
    (gcBarrierMarkOwnerDirty b owner).Ok ∧
    b.SameOwners (gcBarrierMarkOwnerDirty b owner) ∧
    ∀ o c, (gcBarrierMarkOwnerDirty b owner).Dirty o c ↔ b.Dirty o c ∨ (o = owner ∧
      ∃ n, b.HasSize owner n ∧ c < cardCountFor n b.oldToYoung.cardGranularity) := by
  unfold gcBarrierMarkOwnerDirty
  cases hf : gcCardTableFindEntry b.oldToYoung owner with
  | none =>
    have hno := not_hasSize h hf
    exact ⟨h, .refl b, fun o c => by simp [hno]⟩
  | some e =>
    obtain ⟨he, rfl⟩ := (find_some h).mp hf
    simp only [hasSize_entry h he, exists_eq_left, ← (h.entries e he).cards]
    have hspec := markCards_spec (List.range e.cardCount) h
      fun i hi => ⟨e, he, rfl, List.mem_range.mp hi⟩
    simpa only [List.mem_range] using hspec

/-- `gc_card_table_clear_owner` empties exactly the dirty set of the owner. -/
theorem clearOwner_spec (h : b.Ok) (owner : Nat) :
    (gcBarrierClearOwnerDirty b owner).Ok ∧
    b.SameOwners (gcBarrierClearOwnerDirty b owner) ∧
    ∀ o c, (gcBarrierClearOwnerDirty b owner).Dirty o c ↔ b.Dirty o c ∧ o ≠ owner := by
  unfold gcBarrierClearOwnerDirty
  cases hf : gcCardTableFindEntry b.oldToYoung owner with
  | none =>
    refine ⟨h, .refl b, fun o c => ⟨fun hd => ⟨hd, ?_⟩, And.left⟩⟩
    rintro rfl
    obtain ⟨e, he, hb, -⟩ := hd
    exact (find_none h).mp hf (List.mem_map.mpr ⟨e, he, hb⟩)
  | some e =>
    obtain ⟨he, rfl⟩ := (find_some h).mp hf
    have hOk := h.entries e he
    by_cases hz : e.dirtyCardCount = 0
    · simp only [hz, if_true]
      refine ⟨h, .refl b, fun o c => ⟨fun hd => ⟨hd, ?_⟩, And.left⟩⟩
      rintro rfl
      exact hOk.dirtyCardCount_ne_zero ((dirty_entry h he c).mp hd) hz
    · simp only [hz, if_false]
      have hle := le_dirtyCards h he
      have hpos := dirtyOldObjects_pos h he hz
      -- the counters are read before the entry is rewritten, so they are those of `b`
      have heq : gcCardTableUnaccountDirtyOwner (b.updateEntry e.ownerBase GcCardEntry.clean)
          e.dirtyCardCount =
          { b.updateEntry e.ownerBase GcCardEntry.clean with
            dirtyOldObjects := b.dirtyOldObjects - 1
            dirtyCards := b.dirtyCards - e.dirtyCardCount } := by
        have hun := unaccount_eq h he
        simp only [gcCardTableUnaccountDirtyOwner, hz, if_false, updateEntry,
          GcBarrierSet.mk.injEq, true_and] at hun ⊢
        exact hun
      rw [heq]
      refine ⟨h.updateEntry (f := GcCardEntry.clean) he (fun _ => rfl) hOk.clean ?_ ?_,
        (sameOwners_updateEntry b _ GcCardEntry.clean (fun _ => rfl) (fun _ => rfl)).counters _ _, fun o c => ?_⟩
      · show b.dirtyOldObjects - 1 + (if e.dirtyCardCount = 0 then 0 else 1) =
          b.dirtyOldObjects + 0
        rw [if_neg hz]
        omega
      · show b.dirtyCards - e.dirtyCardCount + e.dirtyCardCount = b.dirtyCards + 0
        omega
      · refine (dirty_updateEntry h he GcCardEntry.clean (fun _ => rfl) o c).trans ?_
        simp [GcCardEntry.clean, GcBitmap.test_clearAll hOk.bitmap]

/-- `gc_card_table_unregister_owner` removes exactly the owner. -/
theorem unregister_spec (h : b.Ok) (owner : Nat) :
    (gcBarrierUnregisterOwner b owner).Ok ∧
    (∀ o n, (gcBarrierUnregisterOwner b owner).HasSize o n ↔ b.HasSize o n ∧ o ≠ owner) ∧
    (∀ o c, (gcBarrierUnregisterOwner b owner).Dirty o c ↔ b.Dirty o c ∧ o ≠ owner) ∧
    (gcBarrierUnregisterOwner b owner).oldToYoung.cardGranularity =
      b.oldToYoung.cardGranularity := by
  unfold gcBarrierUnregisterOwner
  cases hf : gcCardTableFindEntry b.oldToYoung owner with
  | none =>
    have hne : ∀ e ∈ b.oldToYoung.entries, e.ownerBase ≠ owner := fun e he hb =>
      (find_none h).mp hf (List.mem_map.mpr ⟨e, he, hb⟩)
    refine ⟨h, fun o n => ⟨fun hd => ⟨hd, ?_⟩, And.left⟩,
      fun o c => ⟨fun hd => ⟨hd, ?_⟩, And.left⟩, rfl⟩
    · rintro rfl
      obtain ⟨e, he, hb, -⟩ := hd
      exact hne e he hb
    · rintro rfl
      obtain ⟨e, he, hb, -⟩ := hd
      exact hne e he hb
  | some e =>
    obtain ⟨he, rfl⟩ := (find_some h).mp hf
    simp only [unaccount_eq h he]
    have hlook := (lookup_eq_some (x := e) (k := e.ownerBase) h.keys).mpr ⟨he, rfl⟩
    have hmem := fun x => mem_removeKey (y := x) h.keys hlook
    refine ⟨?_, fun o n => ⟨?_, ?_⟩, fun o c => ⟨?_, ?_⟩, by trivial⟩
    · constructor
      · exact h.granularity
      · exact nodup_map_removeKey h.keys hlook
      · exact fun x hx => h.entries x ((hmem x).mp hx).1
      · have := (cons_removeKey_perm hlook).length_eq
        have := h.capacity
        show (removeKey GcCardEntry.ownerBase e.ownerBase b.oldToYoung.entries).length ≤
          b.oldToYoung.capacity
        rw [List.length_cons] at *
        omega
      · exact h.storage
      · exact h.allocated
      · have hsum := sum_removeKey (fun e : GcCardEntry => if e.dirtyCardCount = 0 then 0 else 1)
          hlook
        have hd := h.dirtyOld
        unfold dirtyOwners at hd
        rw [hd] at hsum
        show (List.map (fun e : GcCardEntry => if e.dirtyCardCount = 0 then 0 else 1)
          (removeKey GcCardEntry.ownerBase e.ownerBase b.oldToYoung.entries)).sum =
          b.dirtyOldObjects - if e.dirtyCardCount = 0 then 0 else 1
        omega
      · have hsum := sum_removeKey GcCardEntry.dirtyCardCount hlook
        rw [h.dirtySum] at hsum
        show (List.map GcCardEntry.dirtyCardCount
          (removeKey GcCardEntry.ownerBase e.ownerBase b.oldToYoung.entries)).sum =
          b.dirtyCards - e.dirtyCardCount
        omega
      · exact h.exact
    · rintro ⟨x, hx, rfl, hn⟩
      exact ⟨⟨x, ((hmem x).mp hx).1, rfl, hn⟩, ((hmem x).mp hx).2⟩
    · rintro ⟨⟨x, hx, rfl, hn⟩, hne⟩
      exact ⟨x, (hmem x).mpr ⟨hx, hne⟩, rfl, hn⟩
    · rintro ⟨x, hx, rfl, hc⟩
      exact ⟨⟨x, ((hmem x).mp hx).1, rfl, hc⟩, ((hmem x).mp hx).2⟩
    · rintro ⟨⟨x, hx, rfl, hc⟩, hne⟩
      exact ⟨x, (hmem x).mpr ⟨hx, hne⟩, rfl, hc⟩

/-- The entries array gets room for one more entry, or nothing changes. -/
theorem growEntries_cases (h : b.Ok) (m : Mem) :
    (∃ c m', growEntries b.oldToYoung m =
        ({ b.oldToYoung with capacity := c, allocated := true }, m', true) ∧ m.Quiet m' ∧
        b.oldToYoung.entries.length < c ∧ c * 56 ≤ ptrdiffMax) ∨
    growEntries b.oldToYoung m = (b.oldToYoung, m.refuse, false) := by
  have hcap := h.capacity
  have hst := h.storage
  unfold growEntries
  by_cases hfull : b.oldToYoung.entries.length = b.oldToYoung.capacity
  · rw [if_pos hfull]
    rcases m.reserve_cases (grownBytes b.oldToYoung.capacity) with hres | hres
    · have hgranted : grownBytes b.oldToYoung.capacity ≤ ptrdiffMax :=
        Mem.reserve_le (by rw [hres])
      refine .inl ⟨_, _, by simp only [hres, if_true]; exact rfl,
        m.quiet_tryReserve _, ?_⟩
      have hval : (0 < b.oldToYoung.capacity ∧
          grownCapacity b.oldToYoung.capacity = b.oldToYoung.capacity * 2 % 2 ^ 64) ∨
          (b.oldToYoung.capacity = 0 ∧ grownCapacity b.oldToYoung.capacity = 32) := by
        unfold grownCapacity
        split <;> omega
      have hnowrap : grownCapacity b.oldToYoung.capacity * 56 < 2 ^ 64 := by
        unfold ptrdiffMax at hst
        omega
      rw [grownBytes, Nat.mod_eq_of_lt hnowrap] at hgranted
      unfold ptrdiffMax at *
      omega
    · exact .inr (by simp [hres])
  · rw [if_neg hfull]
    have hpos : b.oldToYoung.capacity ≠ 0 := by omega
    have hal := h.allocated
    simp only [hpos, ne_eq, not_false_eq_true, decide_true] at hal
    refine .inl ⟨b.oldToYoung.capacity, m, ?_, .refl m, by omega, hst⟩
    rw [← hal]

/-- More room for entries changes nothing else. -/
theorem Ok.grown (h : b.Ok) {c : Nat} (hroom : b.oldToYoung.entries.length < c)
    (hstor : c * 56 ≤ ptrdiffMax) : ({ b with oldToYoung :=
      { b.oldToYoung with capacity := c, allocated := true } } : GcBarrierSet).Ok :=
  ⟨h.granularity, h.keys, h.entries, Nat.le_of_lt hroom, hstor,
    by simp [Nat.ne_of_gt (Nat.zero_lt_of_lt hroom)], h.dirtyOld, h.dirtySum, h.exact⟩

/-- An entry without dirty cards can be added for an absent owner. -/
theorem Ok.append (h : b.Ok) {e : GcCardEntry} (he : e.Ok b.oldToYoung.cardGranularity)
    (hclean : e.dirtyCardCount = 0) (hnew : e.ownerBase ∉ b.owners)
    (hroom : b.oldToYoung.entries.length < b.oldToYoung.capacity) : ({ b with oldToYoung :=
      { b.oldToYoung with entries := b.oldToYoung.entries ++ [e] } } : GcBarrierSet).Ok where
  granularity := h.granularity
  keys := by
    simpa [owners, List.nodup_append] using
      ⟨h.keys, fun x hx hb => hnew (List.mem_map.mpr ⟨x, hx, hb⟩)⟩
  entries x hx := by
    rcases List.mem_append.mp hx with hx | hx
    · exact h.entries x hx
    · obtain rfl := List.mem_singleton.mp hx
      exact he
  capacity := by simpa using Nat.succ_le_of_lt hroom
  storage := h.storage
  allocated := h.allocated
  dirtyOld := by
    have hd := h.dirtyOld
    unfold dirtyOwners at hd ⊢
    simpa [hclean] using hd
  dirtySum := by simpa [hclean] using h.dirtySum
  exact := h.exact

/-- `gc_card_table_register_owner` adds an absent owner without dirty cards, or leaves the entries
    and the counters as they were after a refused request. -/
theorem register_cases (h : b.Ok) {owner size : Nat} (howner : owner ≠ 0) (hsize : size ≠ 0)
    (hsize' : size < 2 ^ 32) (hnew : owner ∉ b.owners) (m : Mem) :
    (∃ b' m', gcBarrierRegisterOwner b owner size m = (b', m', true) ∧ m.Quiet m' ∧ b'.Ok ∧
      (∀ o n, b'.HasSize o n ↔ b.HasSize o n ∨ (o = owner ∧ n = size)) ∧
      (∀ o c, b'.Dirty o c ↔ b.Dirty o c) ∧
      b'.oldToYoung.cardGranularity = b.oldToYoung.cardGranularity) ∨
    (∃ t m', gcBarrierRegisterOwner b owner size m = ({ b with oldToYoung := t }, m', false) ∧
      m.Quiet m' ∧ m'.failed = true ∧ ({ b with oldToYoung := t } : GcBarrierSet).Ok ∧
      t.entries = b.oldToYoung.entries ∧
      t.cardGranularity = b.oldToYoung.cardGranularity) := by
  have hgran := h.granularity
  set g := b.oldToYoung.cardGranularity with hg
  have hcc := cardCountFor_pos size g
  have hle := cardCountFor_le hsize' hgran
  have hfind := (find_none h).mpr hnew
  unfold gcBarrierRegisterOwner gcCardTableRegisterOwner
  rw [if_neg (by simp [howner, hsize]), hfind]
  rcases growEntries_cases h m with ⟨c, m', hgrow, hquiet, hroom, hstor⟩ | hgrow
  · simp only [hgrow, gcCardTableEffectiveGranularity, ← hg, if_neg hgran, Option.isSome_none,
      Bool.false_eq_true, if_false, Bool.not_true]
    rcases GcBitmap.init_cases (Nat.pos_of_ne_zero hcc) (by omega) m' with
      ⟨bm, hbm, hbmOk, hbits, hclean, -⟩ | ⟨bm, hbm, hbits, hfail⟩
    · simp only [hbm, hbits, ne_eq, not_true, if_false]
      have hentry : GcCardEntry.Ok g ⟨owner, size, cardCountFor size g, 0, bm⟩ :=
        { base := howner, size := hsize, cards := rfl, bitmap := hbmOk, bits := hbits
          dirty := by simp [GcCardEntry.countBits, hclean, Nat.count_eq_card_filter_range] }
      refine .inl ⟨_, _, rfl, hquiet.trans (m'.quiet_reserve _), ?_, fun o n => ?_, fun o c' => ?_,
        rfl⟩
      · exact (h.grown hroom hstor).append hentry rfl hnew hroom
      · constructor
        · rintro ⟨e, he, hb, hn⟩
          rcases List.mem_append.mp he with he | he
          · exact .inl ⟨e, he, hb, hn⟩
          · obtain rfl := List.mem_singleton.mp he
            exact .inr ⟨hb.symm, hn.symm⟩
        · rintro (⟨e, he, hb, hn⟩ | ⟨rfl, rfl⟩)
          · exact ⟨e, List.mem_append_left _ he, hb, hn⟩
          · exact ⟨_, List.mem_append_right _ (List.mem_singleton.mpr rfl), rfl, rfl⟩
      · constructor
        · rintro ⟨e, he, hb, hc⟩
          rcases List.mem_append.mp he with he | he
          · exact ⟨e, he, hb, hc⟩
          · obtain rfl := List.mem_singleton.mp he
            rw [hclean] at hc
            exact nomatch hc
        · rintro ⟨e, he, hb, hc⟩
          exact ⟨e, List.mem_append_left _ he, hb, hc⟩
    · have hrefused : (m'.reserve ((cardCountFor size g + 7) / 8)).1.failed = true := by
        rcases m'.reserve_cases ((cardCountFor size g + 7) / 8) with hr | hr <;> rw [hr] at hfail ⊢
        · exact nomatch hfail
        · rfl
      simp only [hbm, hbits, ne_eq, Ne.symm hcc, not_false_eq_true, if_true]
      refine .inr ⟨_, _, rfl, hquiet.trans (m'.quiet_reserve _), hrefused, ?_, rfl, rfl⟩
      exact h.grown hroom hstor
  · simp only [hgrow]
    exact .inr ⟨b.oldToYoung, m.refuse, rfl, m.quiet_refuse, rfl, h, rfl, rfl⟩

theorem cardCountFor_lt {n g : Nat} : cardCountFor n g < 2 ^ 64 := by
  have hle : (n + g - 1) % 2 ^ 64 / g ≤ (n + g - 1) % 2 ^ 64 := Nat.div_le_self _ _
  simp only [cardCountFor]
  split <;> omega

/-- Registering keeps the table in order, for every argument of type `size_t`. -/
theorem register_ok (h : b.Ok) (owner size : Nat) (m : Mem) :
    (gcBarrierRegisterOwner b owner size m).1.Ok := by
  have hgran := h.granularity
  unfold gcBarrierRegisterOwner gcCardTableRegisterOwner
  by_cases hargs : owner = 0 ∨ size = 0
  · rw [if_pos hargs]
    exact h
  rw [if_neg hargs]
  cases hfind : gcCardTableFindEntry b.oldToYoung owner with
  | some e => exact h
  | none =>
    rcases growEntries_cases h m with ⟨c, m', hgrow, -, hroom, hstor⟩ | hgrow
    · simp only [hgrow, gcCardTableEffectiveGranularity, if_neg hgran, Option.isSome_none,
        Bool.false_eq_true, if_false, Bool.not_true]
      split
      · exact h.grown hroom hstor
      · next hcount =>
        have hclean := GcBitmap.init_clear
          (cardCountFor_lt (n := size) (g := b.oldToYoung.cardGranularity)) m'
        refine (h.grown hroom hstor).append (e := ⟨owner, size, _, 0, _⟩) ⟨fun h0 => hargs (.inl h0),
          fun h0 => hargs (.inr h0), rfl, GcBitmap.ok_init cardCountFor_lt m', by simpa using hcount,
          ?_⟩ rfl ((find_none h).mp hfind) hroom
        simp [GcCardEntry.countBits, hclean, Nat.count_eq_card_filter_range]
    · simp only [hgrow]
      exact h

/-- `b'` is `b` but for the spare room of the entries array. -/
def SameButSpare (b b' : GcBarrierSet) : Prop :=
  ∃ c a, b' = { b with oldToYoung := { b.oldToYoung with capacity := c, allocated := a } }

theorem SameButSpare.refl (b : GcBarrierSet) : b.SameButSpare b := ⟨_, _, rfl⟩

theorem SameButSpare.owners {b' : GcBarrierSet} (h : b.SameButSpare b') :
    b'.owners = b.owners := by
  obtain ⟨c, a, rfl⟩ := h
  rfl

/-- What registering an owner does, in whatever state the table is: nothing but grow the entries
    array when it returns 0. -/
theorem register_ways (b : GcBarrierSet) (owner size : Nat) (m : Mem) :
    (∃ b' m', gcBarrierRegisterOwner b owner size m = (b', m', false) ∧ b.SameButSpare b' ∧
      m.Quiet m') ∨
    (∃ b' m', gcBarrierRegisterOwner b owner size m = (b', m', true) ∧
      (b'.owners = b.owners ∨ b'.owners = b.owners ++ [owner]) ∧ m.Quiet m') := by
  unfold gcBarrierRegisterOwner gcCardTableRegisterOwner
  by_cases hargs : owner = 0 ∨ size = 0
  · rw [if_pos hargs]
    exact .inl ⟨_, m, rfl, .refl b, .refl m⟩
  rw [if_neg hargs]
  by_cases hfind : (gcCardTableFindEntry b.oldToYoung owner).isSome = true
  · rw [if_pos hfind]
    exact .inr ⟨_, m, rfl, .inl rfl, .refl m⟩
  rw [if_neg hfind]
  have hgrow : ∃ c a m' ok, growEntries b.oldToYoung m =
      ({ b.oldToYoung with capacity := c, allocated := a }, m', ok) ∧ m.Quiet m' := by
    unfold growEntries
    by_cases hfull : b.oldToYoung.entries.length = b.oldToYoung.capacity
    · rw [if_pos hfull]
      rcases m.reserve_cases (grownBytes b.oldToYoung.capacity) with hr | hr
      · exact ⟨_, _, _, true, by simp only [hr, if_true]; rfl, m.quiet_tryReserve _⟩
      · exact ⟨_, _, _, false, by simp only [hr]; rfl, m.quiet_refuse⟩
    · rw [if_neg hfull]
      exact ⟨_, _, m, true, rfl, .refl m⟩
  obtain ⟨c, a, m₁, ok, hgrow, hq⟩ := hgrow
  simp only [hgrow]
  cases ok with
  | false => exact .inl ⟨_, m₁, rfl, ⟨c, a, rfl⟩, hq⟩
  | true =>
    have hmap := GcBitmap.quiet_init (cardCountFor size (gcCardTableEffectiveGranularity
      { b.oldToYoung with capacity := c, allocated := a })) m₁
    simp only [Bool.not_true, Bool.false_eq_true, if_false]
    split
    · exact .inl ⟨_, _, rfl, ⟨c, a, rfl⟩, hq.trans hmap⟩
    · exact .inr ⟨_, _, rfl, .inr (by simp [owners]), hq.trans hmap⟩

/-- The snapshot lists exactly the dirty cards. -/
theorem mem_snapshot (h : b.Ok) (o c : Nat) :
    (o, c) ∈ b.oldToYoung.snapshot ↔ b.Dirty o c := by
  unfold GcCardTable.snapshot
  rw [List.mem_flatMap]
  constructor
  · rintro ⟨e, he, hm⟩
    obtain ⟨i, hi, hpair⟩ := List.mem_map.mp hm
    simp only [Prod.mk.injEq] at hpair
    obtain ⟨rfl, rfl⟩ := hpair
    exact ⟨e, he, rfl, ((h.entries e he).mem_visited _).mp hi⟩
  · rintro ⟨e, he, rfl, hc⟩
    exact ⟨e, he, List.mem_map.mpr ⟨c, ((h.entries e he).mem_visited c).mpr hc, rfl⟩⟩

theorem length_snapshot (t : GcCardTable) : t.snapshot.length = t.countDirty := by
  simp [GcCardTable.snapshot, GcCardTable.countDirty, List.length_flatMap]

/-- `gc_card_table_visit_dirty` visits exactly the dirty cards, unless the snapshot is refused. -/
theorem visitDirty_cases (b : GcBarrierSet) (m : Mem) :
    (∃ m', gcCardTableVisitDirty b.oldToYoung m = (some b.oldToYoung.snapshot, m') ∧
      m.Quiet m') ∨
    gcCardTableVisitDirty b.oldToYoung m = (none, m.refuse) := by
  unfold gcCardTableVisitDirty
  by_cases h0 : b.oldToYoung.countDirty = 0
  · have hnil : b.oldToYoung.snapshot = [] := by
      rw [← List.length_eq_zero_iff, length_snapshot, h0]
    exact .inl ⟨m, by simp [h0, hnil], .refl m⟩
  · rcases m.reserve_cases (b.oldToYoung.countDirty * 16) with hr | hr
    · exact .inl ⟨_, by simp only [h0, hr, if_false, if_true]; exact rfl,
        m.quiet_tryReserve _⟩
    · exact .inr (by simp [h0, hr])

/-- No card is dirty exactly when both counters are zero. -/
theorem dirtyCards_eq_zero (h : b.Ok) (hclean : ∀ o c, ¬ b.Dirty o c) :
    b.dirtyOldObjects = 0 ∧ b.dirtyCards = 0 := by
  have hzero : ∀ e ∈ b.oldToYoung.entries, e.dirtyCardCount = 0 := by
    intro e he
    rw [← (h.entries e he).dirty, GcCardEntry.countBits, Nat.count_eq_card_filter_range,
      Finset.card_eq_zero, Finset.filter_eq_empty_iff]
    exact fun c _ hc => hclean _ c ⟨e, he, rfl, hc⟩
  rw [← h.dirtyOld, ← h.dirtySum]
  refine ⟨List.sum_eq_zero fun x hx => ?_, List.sum_eq_zero fun x hx => ?_⟩
  · obtain ⟨e, he, rfl⟩ := List.mem_map.mp hx
    simp [hzero e he]
  · obtain ⟨e, he, rfl⟩ := List.mem_map.mp hx
    exact hzero e he

/-- The entries with a dirty card, counted one by one or filtered. -/
theorem length_filter_dirty : ∀ entries : List GcCardEntry,
    (entries.filter fun e => e.dirtyCardCount ≠ 0).length =
      (entries.map fun e => if e.dirtyCardCount = 0 then 0 else 1).sum
  | [] => rfl
  | e :: es => by
      have ih := length_filter_dirty es
      by_cases hz : e.dirtyCardCount = 0
      · simp [hz] at ih ⊢
        exact ih
      · simp [hz] at ih ⊢
        omega

/-- The runtime's checker accepts the barrier set. -/
theorem check_of_ok (h : b.Ok) : gcBarrierSetCheckInvariants b = true := by
  have hentry : b.oldToYoung.entries.all GcCardEntry.check = true := by
    rw [List.all_eq_true]
    intro e he
    have hOk := h.entries e he
    have hcc : e.cardCount ≠ 0 := by rw [hOk.cards]; exact cardCountFor_pos _ _
    simp [GcCardEntry.check, hOk.base, hOk.size, hcc, GcBitmap.check_of_ok hOk.bitmap, hOk.bits,
      hOk.dirty]
  have hcount : (b.oldToYoung.entries.filter fun e => e.dirtyCardCount ≠ 0).length =
      b.dirtyOldObjects := by
    rw [← h.dirtyOld]
    exact length_filter_dirty _
  have hle : b.dirtyOldObjects ≤ b.oldToYoung.entries.length := by
    rw [← hcount]
    exact List.length_filter_le _ _
  have htable : gcCardTableCheckInvariants b.oldToYoung = true := by
    have hroom : ¬ b.oldToYoung.entries.length > b.oldToYoung.capacity := Nat.not_lt.mpr h.capacity
    have hal : ((b.oldToYoung.capacity = 0) ≠ (b.oldToYoung.allocated = false)) = False := by
      simp [h.allocated]
    unfold gcCardTableCheckInvariants
    rw [if_neg hroom, if_neg (by rw [hal]; exact id), if_neg h.granularity]
    exact hentry
  unfold gcBarrierSetCheckInvariants
  rw [htable, hcount, h.dirtySum]
  simpa using hle

end GcBarrierSet

end Xgc
