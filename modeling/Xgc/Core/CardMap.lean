import Xgc.Core.CardSpec
import Xgc.Lib.Runs

/-! The map that the card table stands for: from each registered owner to its size and its dirty
    cards. `CardOp.apply` says what the calls do to the map, with the cards of an object counted as
    in arithmetic without bounds; `view_perform` says that the card table follows. -/

namespace Xgc

open Lib (Run lookup_eq_none)

/-- What the card table remembers of an owner. -/
structure OwnerCards where
  size : Nat
  dirty : Finset Nat

/-- A finite map from owners. -/
abbrev CardMap := Nat → Option OwnerCards

namespace CardMap

/-- The number of cards of `n` bytes. -/
def cards (g n : Nat) : Nat := (n + g - 1) / g

/-- The card of a slot: the one that its offset lies on, the first one for a slot before the owner
    and the last one for a slot behind it. -/
def cardOf (g owner n slotAddr : Nat) : Nat := min ((slotAddr - owner) / g) (cards g n - 1)

/-- The map with the dirty cards of one owner replaced. -/
def setDirty (m : CardMap) (owner : Nat) (f : OwnerCards → Finset Nat) : CardMap :=
  Function.update m owner ((m owner).map fun c => { c with dirty := f c })

/-- The dirty cards of an owner. -/
def dirtyOf (m : CardMap) (owner : Nat) : Finset Nat :=
  match m owner with
  | some c => c.dirty
  | none => ∅

end CardMap

/-- A call of `barrier.c` that changes the card table. -/
inductive CardOp where
  | register (owner size : Nat)
  | unregister (owner : Nat)
  | markSlot (owner slotAddr : Nat)
  | markOwner (owner : Nat)
  | clear (owner : Nat)

namespace CardOp

/-- The arguments that the functions are meant for. -/
def Legal : CardOp → Prop
  | .register owner size => owner ≠ 0 ∧ 0 < size ∧ size < 2 ^ 32
  | .markSlot owner slotAddr => owner ≠ 0 ∧ slotAddr ≠ 0
  | .unregister owner | .markOwner owner | .clear owner => owner ≠ 0

instance : DecidablePred Legal := fun op => by cases op <;> unfold Legal <;> infer_instance

/-- What the call does to the map. -/
def apply (g : Nat) (m : CardMap) : CardOp → CardMap
  | .register owner size =>
    if (m owner).isSome then m else Function.update m owner (some { size, dirty := ∅ })
  | .unregister owner => Function.update m owner none
  | .markSlot owner slotAddr =>
    m.setDirty owner fun c => insert (CardMap.cardOf g owner c.size slotAddr) c.dirty
  | .markOwner owner => m.setDirty owner fun c => Finset.range (CardMap.cards g c.size)
  | .clear owner => m.setDirty owner fun _ => ∅

/-- The call on a barrier set and the allocator. -/
def perform (s : GcBarrierSet × Mem) : CardOp → GcBarrierSet × Mem
  | .register owner size =>
    ((gcBarrierRegisterOwner s.1 owner size s.2).1, (gcBarrierRegisterOwner s.1 owner size s.2).2.1)
  | .unregister owner => (gcBarrierUnregisterOwner s.1 owner, s.2)
  | .markSlot owner slotAddr => (gcBarrierMarkSlotDirty s.1 owner slotAddr, s.2)
  | .markOwner owner => (gcBarrierMarkOwnerDirty s.1 owner, s.2)
  | .clear owner => (gcBarrierClearOwnerDirty s.1 owner, s.2)

/-- One call, whose requests for memory are granted. -/
def Step (s : GcBarrierSet × Mem) (op : CardOp) (s' : GcBarrierSet × Mem) : Prop :=
  op.Legal ∧ op.perform s = s' ∧ s'.2.failed = false

/-- Calls take no block from the allocator. -/
theorem quiet_perform (s : GcBarrierSet × Mem) (op : CardOp) : s.2.Quiet (op.perform s).2 := by
  cases op with
  | register owner size =>
    show s.2.Quiet (gcBarrierRegisterOwner s.1 owner size s.2).2.1
    rcases GcBarrierSet.register_ways s.1 owner size s.2 with ⟨b, m, heq, -, hq⟩ | ⟨b, m, heq, -, hq⟩
    · rw [heq]
      exact hq
    · rw [heq]
      exact hq
  | unregister owner => exact .refl _
  | markSlot owner slotAddr => exact .refl _
  | markOwner owner => exact .refl _
  | clear owner => exact .refl _

/-- Calls one after the other are a run, when no request of theirs is refused. -/
theorem run_foldl {s : GcBarrierSet × Mem} (ops : List CardOp) (hl : ∀ op ∈ ops, op.Legal)
    (hf : (ops.foldl perform s).2.failed = false) :
    Run (fun s op s' => CardOp.Step s op s') s ops (ops.foldl perform s) := by
  induction ops using List.reverseRecOn with
  | nil => exact .nil s
  | append_singleton ops op ih =>
    rw [List.foldl_append] at hf ⊢
    have hmid := (quiet_perform (ops.foldl perform s) op).failed hf
    exact (ih (fun o ho => hl o (List.mem_append_left _ ho)) hmid).snoc
      ⟨hl op (List.mem_append_right _ (List.mem_singleton.mpr rfl)), rfl, hf⟩

end CardOp

/-- The cards of an entry whose bits are set. -/
def GcCardEntry.dirtySet (e : GcCardEntry) : Finset Nat :=
  (Finset.range e.cardCount).filter fun i => gcBitmapTest e.dirtyMap i = true

namespace GcBarrierSet

/-- The map that a barrier set stands for. -/
def view (b : GcBarrierSet) : CardMap := fun owner =>
  (gcCardTableFindEntry b.oldToYoung owner).map fun e => { size := e.ownerSize, dirty := e.dirtySet }

/-- What calls with legal arguments keep in order. -/
structure Kept (g : Nat) (b : GcBarrierSet) : Prop where
  ok : b.Ok
  granularity : b.oldToYoung.cardGranularity = g
  size_lt : ∀ o n, b.HasSize o n → n < 2 ^ 32

variable {g : Nat} {b b' : GcBarrierSet}

theorem mem_dirtySet (h : b.Ok) {e : GcCardEntry} (he : e ∈ b.oldToYoung.entries) (i : Nat) :
    i ∈ e.dirtySet ↔ b.Dirty e.ownerBase i := by
  have hOk := h.entries e he
  rw [dirty_entry h he, GcCardEntry.dirtySet, Finset.mem_filter, Finset.mem_range,
    GcBitmap.test_eq hOk.bitmap, hOk.bits]
  simp only [Bool.and_eq_true, decide_eq_true_eq]
  tauto

theorem dirtySet_card (h : b.Ok) {e : GcCardEntry} (he : e ∈ b.oldToYoung.entries) :
    e.dirtySet.card = e.dirtyCardCount := by
  rw [← (h.entries e he).dirty, GcCardEntry.countBits, Nat.count_eq_card_filter_range]
  rfl

theorem view_entry (h : b.Ok) {e : GcCardEntry} (he : e ∈ b.oldToYoung.entries) :
    b.view e.ownerBase = some { size := e.ownerSize, dirty := e.dirtySet } := by
  rw [view, (find_some h).mpr ⟨he, rfl⟩]
  rfl

theorem view_eq_none (h : b.Ok) {owner : Nat} : b.view owner = none ↔ owner ∉ b.owners := by
  rw [view, Option.map_eq_none_iff, find_none h]

/-- The map holds what `HasSize` and `Dirty` say. -/
theorem view_eq_some (h : b.Ok) {o : Nat} {c : OwnerCards} :
    b.view o = some c ↔ b.HasSize o c.size ∧ ∀ i, i ∈ c.dirty ↔ b.Dirty o i := by
  constructor
  · intro hv
    obtain ⟨e, hf, rfl⟩ := Option.map_eq_some_iff.mp hv
    obtain ⟨he, rfl⟩ := (find_some h).mp hf
    exact ⟨⟨e, he, rfl, rfl⟩, mem_dirtySet h he⟩
  · rintro ⟨⟨e, he, rfl, hn⟩, hd⟩
    have hdirty : e.dirtySet = c.dirty := Finset.ext fun i => (mem_dirtySet h he i).trans (hd i).symm
    rw [view_entry h he, hdirty, hn]

theorem dirtyOf_view (h : b.Ok) {e : GcCardEntry} (he : e ∈ b.oldToYoung.entries) :
    b.view.dirtyOf e.ownerBase = e.dirtySet := by
  rw [CardMap.dirtyOf, view_entry h he]

/-- An owner that is registered is in the map. -/
theorem HasSize.view (h : b.Ok) {o n : Nat} (hs : b.HasSize o n) :
    ∃ d, b.view o = some { size := n, dirty := d } := by
  obtain ⟨e, he, rfl, rfl⟩ := hs
  exact ⟨_, view_entry h he⟩

/-- A call that changes only the dirty cards of one owner. -/
theorem view_setDirty (h : b.Ok) (h' : b'.Ok) (hsame : b.SameOwners b') {owner : Nat}
    {f : OwnerCards → Finset Nat} (hother : ∀ o i, o ≠ owner → (b'.Dirty o i ↔ b.Dirty o i))
    (hdirty : ∀ c, b.view owner = some c → ∀ i, b'.Dirty owner i ↔ i ∈ f c) :
    b'.view = b.view.setDirty owner f := by
  funext o
  refine Option.ext fun c => ?_
  rw [view_eq_some h', hsame.size, CardMap.setDirty]
  by_cases ho : o = owner
  · subst ho
    rw [Function.update_self, Option.map_eq_some_iff]
    constructor
    · rintro ⟨hs, hd⟩
      obtain ⟨d, hv⟩ := hs.view h
      refine ⟨_, hv, ?_⟩
      have hcards : f { size := c.size, dirty := d } = c.dirty :=
        Finset.ext fun i => (hdirty _ hv i).symm.trans (hd i).symm
      rw [hcards]
    · rintro ⟨c₀, hv, rfl⟩
      exact ⟨((view_eq_some h).mp hv).1, fun i => (hdirty c₀ hv i).symm⟩
  · rw [Function.update_of_ne ho, view_eq_some h]
    simp only [hother o _ ho]

theorem cardOf_eq (hg : g ≠ 0) (hg' : g < 2 ^ 64) {n : Nat} (hn : n ≠ 0) (hn' : n < 2 ^ 32)
    (owner slotAddr : Nat) :
    CardMap.cardOf g owner n slotAddr = cardIndexFor g owner n slotAddr := by
  unfold CardMap.cardOf cardIndexFor CardMap.cards
  rw [cardCountFor_eq hn hn' hg hg']
  split
  · next hle => simp [Nat.sub_eq_zero_of_le hle]
  · rfl

theorem Kept.size (h : b.Kept g) {o n : Nat} (hs : b.HasSize o n) : n ≠ 0 ∧ n < 2 ^ 32 := by
  obtain ⟨e, he, -, rfl⟩ := id hs
  exact ⟨(h.ok.entries e he).size, h.size_lt o _ hs⟩

theorem Kept.granularity_ne (h : b.Kept g) : g ≠ 0 := h.granularity ▸ h.ok.granularity

theorem Kept.of_same (h : b.Kept g) (h' : b'.Ok) (hsame : b.SameOwners b') : b'.Kept g where
  ok := h'
  granularity := hsame.granularity.trans h.granularity
  size_lt o n hn := h.size_lt o n ((hsame.size o n).mp hn)

/-- Registering an absent owner adds it without dirty cards; a registered one stays as it is. -/
theorem view_register (h : b.Kept g) {owner size : Nat} (howner : owner ≠ 0) (hsize : 0 < size)
    (hsize' : size < 2 ^ 32) {m : Mem} (hg : (gcBarrierRegisterOwner b owner size m).2.1.failed = false) :
    (gcBarrierRegisterOwner b owner size m).1.Kept g ∧
    (gcBarrierRegisterOwner b owner size m).1.view = (CardOp.register owner size).apply g b.view := by
  have hpos := Nat.pos_iff_ne_zero.mp hsize
  rw [CardOp.apply]
  by_cases hold : owner ∈ b.owners
  · obtain ⟨e, he, rfl⟩ := List.mem_map.mp hold
    have hsome : (b.view e.ownerBase).isSome = true := by rw [view_entry h.ok he]; rfl
    have heq : (gcBarrierRegisterOwner b e.ownerBase size m).1 = b := by
      simp [gcBarrierRegisterOwner, gcCardTableRegisterOwner, howner, hpos,
        (find_some h.ok).mpr ⟨he, rfl⟩]
    rw [heq, if_pos hsome]
    exact ⟨h, rfl⟩
  · have hnone := (view_eq_none h.ok).mpr hold
    rw [hnone, if_neg (by simp)]
    rcases register_cases h.ok howner hpos hsize' hold m with
      ⟨b', m', heq, -, hOk, hsizes, hdirty, hgran⟩ | ⟨t, m', heq, -, hfail, -⟩
    · rw [heq]
      refine ⟨⟨hOk, hgran.trans h.granularity, fun o n hn => ?_⟩, ?_⟩
      · rcases (hsizes o n).mp hn with hn | ⟨-, rfl⟩
        · exact h.size_lt o n hn
        · exact hsize'
      · funext o
        refine Option.ext fun c => ?_
        rw [view_eq_some hOk, hsizes]
        simp only [hdirty]
        have hclean : ∀ n i, ¬ b.HasSize owner n ∧ ¬ b.Dirty owner i := fun n i =>
          ⟨fun ⟨e, he, hb, _⟩ => hold (List.mem_map.mpr ⟨e, he, hb⟩),
            fun ⟨e, he, hb, _⟩ => hold (List.mem_map.mpr ⟨e, he, hb⟩)⟩
        by_cases ho : o = owner
        · subst ho
          rw [Function.update_self]
          simp only [fun n => (hclean n 0).1, fun i => (hclean 0 i).2, false_or, true_and, iff_false,
            ← Finset.eq_empty_iff_forall_notMem, Option.some.injEq]
          constructor
          · rintro ⟨hn, hd⟩
            rw [← hn, ← hd]
          · rintro rfl
            exact ⟨rfl, rfl⟩
        · rw [Function.update_of_ne ho, view_eq_some h.ok]
          simp [ho]
    · rw [heq] at hg
      rw [hfail] at hg
      exact nomatch hg

/-- Unregistering removes the owner. -/
theorem view_unregister (h : b.Kept g) (owner : Nat) :
    (gcBarrierUnregisterOwner b owner).Kept g ∧
    (gcBarrierUnregisterOwner b owner).view = (CardOp.unregister owner).apply g b.view := by
  obtain ⟨hOk, hsizes, hdirty, hgran⟩ := unregister_spec h.ok owner
  refine ⟨⟨hOk, hgran.trans h.granularity, fun o n hn => h.size_lt o n ((hsizes o n).mp hn).1⟩, ?_⟩
  funext o
  refine Option.ext fun c => ?_
  rw [view_eq_some hOk, hsizes, CardOp.apply]
  by_cases ho : o = owner
  · subst ho
    simp
  · rw [Function.update_of_ne ho, view_eq_some h.ok]
    simp only [hdirty, ho, ne_eq, not_false_eq_true, and_true]

/-- Each call does to the table what it does to the map. -/
theorem view_perform (hg' : g < 2 ^ 64) {s s' : GcBarrierSet × Mem} {op : CardOp}
    (h : s.1.Kept g) (hs : op.Step s s') : s'.1.Kept g ∧ s'.1.view = op.apply g s.1.view := by
  obtain ⟨hl, rfl, hf⟩ := hs
  have hgran := h.granularity
  cases op with
  | register owner size => exact view_register h hl.1 hl.2.1 hl.2.2 hf
  | unregister owner => exact view_unregister h owner
  | markSlot owner slotAddr =>
    obtain ⟨hOk, hsame, hdirty⟩ := markSlot_spec h.ok owner hl.2
    refine ⟨h.of_same hOk hsame, view_setDirty h.ok hOk hsame (fun o i ho => ?_) fun c hc i => ?_⟩
    · refine (hdirty o i).trans ?_
      simp [ho]
    · obtain ⟨hsize, hd⟩ := (view_eq_some h.ok).mp hc
      have huniq : ∀ n, s.1.HasSize owner n ↔ n = c.size := by
        obtain ⟨e, he, rfl, hn⟩ := hsize
        rw [← hn]
        exact hasSize_entry h.ok he
      obtain ⟨hn, hn'⟩ := h.size hsize
      refine (hdirty owner i).trans ?_
      rw [Finset.mem_insert, hd, cardOf_eq h.granularity_ne hg' hn hn', hgran]
      simp only [huniq, exists_eq_left, true_and]
      exact or_comm
  | markOwner owner =>
    obtain ⟨hOk, hsame, hdirty⟩ := markOwner_spec h.ok owner
    refine ⟨h.of_same hOk hsame, view_setDirty h.ok hOk hsame (fun o i ho => ?_) fun c hc i => ?_⟩
    · refine (hdirty o i).trans ?_
      simp [ho]
    · obtain ⟨⟨e, he, rfl, hsize⟩, hd⟩ := (view_eq_some h.ok).mp hc
      obtain ⟨hn, hn'⟩ := h.size (n := c.size) ⟨e, he, rfl, hsize⟩
      have hin : e.dirtySet ⊆ Finset.range e.cardCount := Finset.filter_subset _ _
      have hcards : e.cardCount = CardMap.cards g c.size := by
        rw [(h.ok.entries e he).cards, hgran, hsize, cardCountFor_eq hn hn' h.granularity_ne hg',
          CardMap.cards]
      refine (hdirty e.ownerBase i).trans ?_
      simp only [hgran, hasSize_entry h.ok he, exists_eq_left, true_and, Finset.mem_range, ← hcards,
        ← mem_dirtySet h.ok he]
      rw [← hgran, ← (h.ok.entries e he).cards]
      exact ⟨fun hi => hi.elim (fun hi => Finset.mem_range.mp (hin hi)) id, .inr⟩
  | clear owner =>
    obtain ⟨hOk, hsame, hdirty⟩ := clearOwner_spec h.ok owner
    refine ⟨h.of_same hOk hsame, view_setDirty h.ok hOk hsame (fun o i ho => ?_) fun c hc i => ?_⟩
    · refine (hdirty o i).trans ?_
      simp [ho]
    · refine (hdirty owner i).trans ?_
      simp

/-- The empty table stands for the empty map. -/
theorem kept_init (g : Nat) : (gcBarrierSetInit g).Kept (if g = 0 then 256 else g) where
  ok := ok_init
  granularity := by simp [gcBarrierSetInit, gcCardTableInit]
  size_lt := by
    rintro o n ⟨e, he, -⟩
    exact absurd he List.not_mem_nil

theorem view_init (g : Nat) : (gcBarrierSetInit g).view = fun _ => none := by
  funext o
  simp [view, gcCardTableFindEntry, gcBarrierSetInit, gcCardTableInit, lookup_eq_none]

/-- Every sequence of calls does to the table what it does to the map. -/
theorem view_run (hg' : g < 2 ^ 64) {s s' : GcBarrierSet × Mem} {ops : List CardOp}
    (h : s.1.Kept g) (hrun : Run (fun s op s' => CardOp.Step s op s') s ops s') :
    s'.1.Kept g ∧ s'.1.view = ops.foldl (CardOp.apply g) s.1.view := by
  induction hrun with
  | nil => exact ⟨h, rfl⟩
  | snoc hrun hst ih =>
    obtain ⟨hk, hv⟩ := ih
    obtain ⟨hk', hv'⟩ := view_perform hg' hk hst
    refine ⟨hk', ?_⟩
    rw [hv', hv, List.foldl_append]
    rfl

end GcBarrierSet

end Xgc
