import Xgc.Algo.Spared
import Xgc.Guarantees.Handles

/-! Pinning. A handle sets a bit in the header of its object. No evacuation looks at that bit, so
    that it does not keep a young object where it is; and each release clears it, whoever else has
    set it. -/

namespace Xgc

open Lib (Run mem_eraseP_key)

/-- The object at `a` has `GC_OBJECT_FLAG_PINNED` set. -/
def Graph.Pinned (g : Graph) (a : Addr) : Prop :=
  ∃ o, g.objs a = some o ∧ o.flags &&& objectFlagPinned ≠ 0

theorem Graph.pinned_iff {g : Graph} {a : Addr} {o : GcHeader} (h : g.objs a = some o) :
    g.Pinned a ↔ o.flags &&& objectFlagPinned ≠ 0 := by
  simp [Pinned, h]

instance (g : Graph) (a : Addr) : Decidable (g.Pinned a) :=
  match h : g.objs a with
  | some _ => decidable_of_iff _ (Graph.pinned_iff h).symm
  | none => isFalse fun ⟨_, ho, _⟩ => nomatch h.symm.trans ho

/-! ### Moving -/

/-- The object at `a` is still there after a call. -/
def Stays (w w' : GenWorld) (a : Addr) : Prop :=
  a ∈ genCollector.tracked w' ∧ w'.graph.tagAt a = w.graph.tagAt a

/-- The calls that run a collection. -/
def ClientOp.Collects (w : GenWorld) : ClientOp → Prop
  | .alloc _ size flags => AllocCollects w size flags
  | .collectMinor | .collectMajor | .collectFull => True
  | _ => False

variable {tidy : Prop} {w w' : GenWorld}

/-- What lies in the nursery depends on where the nursery is. -/
theorem gcGenInNursery_congr {s s' : GenState}
    (h : s'.nurserySpace = s.nurserySpace ∧ s'.nurseryCapacity = s.nurseryCapacity) (a : Nat) :
    gcGenInNursery s' a = gcGenInNursery s a := by
  unfold gcGenInNursery
  rw [h.1, h.2]

/-- A reachable object outside the nursery is old. -/
theorem old_of_reachable (h : (genManager tidy).Inv w) {a : Addr} (ha : w.graph.Reachable a)
    (hout : gcGenInNursery w.algoState a = false) : a ∈ w.old := by
  refine (List.mem_append.mp (h.heap.mem_of_reachable ha)).resolve_right fun hy => ?_
  rw [(genManager_ok h).inNursery_young hy] at hout
  exact nomatch hout

/-- A collection that empties the nursery leaves a live object where it is exactly when the object
    is not in the nursery. -/
theorem collect_stays_iff (h : (genManager tidy).Inv w) (h' : (genManager tidy).Inv w')
    (hplace : w'.algoState.nurserySpace = w.algoState.nurserySpace ∧
      w'.algoState.nurseryCapacity = w.algoState.nurseryCapacity)
    (hused : w'.algoState.nurseryUsed = 0) {keep : Set Addr} {φ : Addr → Addr}
    (he : MinorExact w (gcGenCollectMinorImpl w) φ)
    (hc : Collected w.graph w'.graph (genCollector.tracked w) (genCollector.tracked w') keep φ)
    {a : Addr} (hlive : w.graph.Reachable a) :
    Stays w w' a ↔ gcGenInNursery w.algoState a = false := by
  constructor
  · rintro ⟨hmem, -⟩
    rw [tracked_nil hused] at hmem
    rw [← gcGenInNursery_congr hplace]
    exact (genManager_ok h').inNursery_old hmem
  · intro hout
    have hkeep := hc.closed.reachable hlive
    have hφ : φ a = a := (he.old a (old_of_reachable h hlive hout)).1
    have hmem := hc.mem hkeep
    have htag := hc.tagAt h.heap hkeep
    rw [hφ] at hmem htag
    exact ⟨hmem, htag⟩

/-- An allocation leaves the tracked objects alone. -/
theorem Allocated.objs {desc : GcDescriptor} {size : Nat} {flags : BitVec 32} {g g' : Graph}
    {tracked tracked' : List Addr} {a : Addr}
    (ha : Allocated desc size flags g tracked a g' tracked') {b : Addr} (hb : b ∈ tracked) :
    g'.objs b = g.objs b := by
  have hne : b ≠ a := fun he => ha.new (he ▸ hb)
  obtain ⟨objs, hobjs, rfl⟩ := ha.graph
  simp [hne, hobjs b hb]

theorem Allocated.tagAt {desc : GcDescriptor} {size : Nat} {flags : BitVec 32} {g g' : Graph}
    {tracked tracked' : List Addr} {a : Addr}
    (ha : Allocated desc size flags g tracked a g' tracked') {b : Addr} (hb : b ∈ tracked) :
    g'.tagAt b = g.tagAt b := by
  simp [Graph.tagAt, ha.objs hb]

/-- The object that is allocated after a collection may lie where a moved object was, but it is
    another one. -/
theorem alloc_stays_iff (h : (genManager tidy).Inv w) {w₁ : GenWorld} {desc : GcDescriptor}
    {size : Nat} {flags : BitVec 32} {new : Addr}
    (hhist : w₁.graph.history = w.graph.history)
    (ha : Allocated desc size flags w₁.graph (genCollector.tracked w₁) new w'.graph
      (genCollector.tracked w')) {a : Addr} (hlive : w.graph.Reachable a) :
    Stays w w' a ↔ Stays w w₁ a := by
  constructor
  · rintro ⟨hmem, htag⟩
    rcases List.mem_cons.mp (ha.perm.subset hmem) with rfl | hmem
    · rw [Graph.tagAt_eq ha.obj] at htag
      have hlt := h.heap.tag_lt (h.heap.mem_of_reachable hlive)
      rw [← htag, ← hhist] at hlt
      exact absurd hlt (Nat.lt_irrefl _)
    · exact ⟨hmem, (ha.tagAt hmem).symm.trans htag⟩
  · rintro ⟨hmem, htag⟩
    exact ⟨ha.perm.symm.subset (List.mem_cons_of_mem _ hmem), (ha.tagAt hmem).trans htag⟩

/-- A call that collects leaves a live object where it is exactly when the object is not in the
    nursery. -/
theorem stays_iff (hw : genCollector.Reaches w) {op : ClientOp} (hs : genCollector.Step w op w')
    (hc : op.Collects w) {a : Addr} (hlive : w.graph.Reachable a) :
    Stays w w' a ↔ gcGenInNursery w.algoState a = false := by
  have h := genManager_reaches hw
  have h' := ((genManager_sound : (genManager True).Sound).lawful.step w op w' h hs).1
  obtain ⟨hl, rfl, hg⟩ := hs
  cases op with
  | alloc desc size flags =>
    have hfull : AllocCollects w size flags := hc
    have hroom : withRoom w size flags = gcGenCollectMinorImpl w := if_pos hfull
    simp only [ClientOp.perform, genCollector] at hg h' ⊢
    rcases gcAllocTyped_gen_cases h desc hl.2 flags with ⟨m, b, -, -, -, -, hno, -⟩ |
      ⟨hsize, hyoung, heq⟩ | ⟨-, hno, -⟩ | ⟨-, hno, -⟩
    · exact absurd hfull hno
    · rw [heq, hroom] at hg ⊢
      obtain ⟨hinv, φ, he⟩ := gcGenCollectMinorImpl_exact h hg.1 hg.2.1
      obtain ⟨hmin, hlt, -⟩ := alignedSize_spec hsize hl.2
      have hfit := (withRoom_spec h hsize hyoung).2.1
      rw [hroom] at hfit
      obtain ⟨-, ha⟩ := gcGenAllocYoung_spec hinv hl.1 hmin hlt hfit hyoung.1
      exact (alloc_stays_iff h he.collected.history ha hlive).trans (collect_stays_iff h hinv
        (gcGenCollectMinorImpl_space h) he.used he he.collected hlive)
    · exact absurd hfull hno
    · exact absurd hfull hno
  | collectMinor =>
    obtain ⟨hinv, φ, he⟩ := gcGenCollectMinorImpl_exact h hg.1 hg.2.1
    exact collect_stays_iff h h' (gcGenCollectMinorImpl_space h) he.used he he.collected hlive
  | collectMajor =>
    obtain ⟨hinv, hused, φ, he, hcol⟩ := gcGenCollectFullImpl_exact h hg
    exact collect_stays_iff h h' (gcGenCollectFullImpl_space h) hused he hcol hlive
  | collectFull =>
    obtain ⟨hinv, hused, φ, he, hcol⟩ := gcGenCollectFullImpl_exact h hg
    exact collect_stays_iff h h' (gcGenCollectFullImpl_space h) hused he hcol hlive
  | _ => exact hc.elim

/-- A call that collects leaves the live pinned objects where they are exactly when none of them
    lies in the nursery. -/
theorem pinned_stay_iff (hw : genCollector.Reaches w) {op : ClientOp}
    (hs : genCollector.Step w op w') (hc : op.Collects w) :
    (∀ a, w.graph.Reachable a → w.graph.Pinned a → Stays w w' a) ↔
      ∀ a, w.graph.Reachable a → w.graph.Pinned a → gcGenInNursery w.algoState a = false :=
  forall₃_congr fun _ hlive _ => stays_iff hw hs hc hlive

theorem genHeld_reaches : genCollector.Reaches genHeld.1 := by
  have hyoung : genCollector.Reaches genYoung.1 := genStart_starts.reaches.step (.alloc cell 24 0)
    ⟨⟨cell_ok, by decide +kernel⟩, by rw [genYoung], by decide +kernel⟩
  exact hyoung.step (.acquire genYoung.2 0)
    ⟨.inr (by decide +kernel), by rw [genHeld], by decide +kernel⟩

theorem genHeld_live : genHeld.1.graph.Reachable genYoung.2 :=
  Lib.Reach.root ⟨by decide +kernel, .inr (by decide +kernel)⟩

theorem genHeld_pinned : genHeld.1.graph.Pinned genYoung.2 := by decide +kernel

theorem genHeld_step :
    genCollector.Step genHeld.1 .collectMinor (gcCollectMinor gcGenCopyMsVtable genHeld.1) :=
  ⟨trivial, rfl, by decide +kernel⟩

theorem pinned_stay_iff_sample : ¬ ∀ a, genHeld.1.graph.Reachable a → genHeld.1.graph.Pinned a →
    Stays genHeld.1 (gcCollectMinor gcGenCopyMsVtable genHeld.1) a := fun hall => by
  have hout := (pinned_stay_iff genHeld_reaches genHeld_step trivial).mp hall _ genHeld_live
    genHeld_pinned
  exact absurd hout (by decide +kernel)

/-- A handle does not keep a young object where it is. -/
theorem pinned_moves : ∃ w w' a, genCollector.Reaches w ∧ genCollector.Step w .collectMinor w' ∧
    w.graph.Reachable a ∧ w.graph.Pinned a ∧ ¬ Stays w w' a :=
  ⟨genHeld.1, _, genYoung.2, genHeld_reaches, genHeld_step, genHeld_live, genHeld_pinned,
    fun hs => absurd hs.1 (by decide +kernel)⟩

/-! ### Outstanding pins -/

/-- The tags of the objects that have been allocated with `GC_ALLOC_PINNED`, after a call that
    returned `result`. -/
def ClientOp.pins (g : Graph) (result : Addr) (pins : List Nat) : ClientOp → List Nat
  | .alloc _ _ flags =>
    if result ≠ 0 ∧ flags &&& allocPinned ≠ 0 then g.history.length :: pins else pins
  | _ => pins

/-- The handle `h` is the only pin of its object: no other handle leads to the object, and it has not
    been allocated with `GC_ALLOC_PINNED`. -/
def Graph.LastPin (g : Graph) (pins : List Nat) (h : Addr) : Prop :=
  g.tagAt (g.target h) ∉ pins ∧ ∀ k ∈ g.handles, k.target = g.target h → k.addr = h

/-- A call is balanced when it takes no pin away from an object that has others. -/
def ClientOp.Balanced (g : Graph) (pins : List Nat) : ClientOp → Prop
  | .release h => h = 0 ∨ g.LastPin pins h
  | _ => True

/-- A spared call of a client that keeps account of the pinned allocations. -/
def Collector.PinStep {σ : Type} (C : Collector σ) (Spared : World σ → ClientOp → Prop)
    (s : World σ × List Nat) (op : ClientOp) (s' : World σ × List Nat) : Prop :=
  C.SparedStep Spared s.1 op s'.1 ∧ s'.2 = op.pins s.1.graph (op.perform C s.1).2 s.2

/-- Such a call, which is balanced. -/
def Collector.BalancedStep {σ : Type} (C : Collector σ) (Spared : World σ → ClientOp → Prop)
    (s : World σ × List Nat) (op : ClientOp) (s' : World σ × List Nat) : Prop :=
  C.PinStep Spared s op s' ∧ op.Balanced s.1.graph s.2

/-- An object has the flag exactly when it was allocated with it or a handle leads to it. -/
def PinsOk (g : Graph) (tracked : List Addr) (pins : List Nat) : Prop :=
  ∀ a ∈ tracked, g.Pinned a ↔ g.tagAt a ∈ pins ∨ ∃ k ∈ g.handles, k.target = a

section Steps

variable {g g' : Graph} {tracked tracked' : List Addr} {pins : List Nat}

theorem Graph.pinned_modifyObj (g : Graph) (a : Addr) {f : GcHeader → GcHeader}
    (hf : ∀ o, (f o).flags = o.flags) (b : Addr) : (g.modifyObj a f).Pinned b ↔ g.Pinned b := by
  by_cases hb : b = a
  · subst hb
    cases ho : g.objs b <;> simp [Pinned, ho, hf]
  · simp [Pinned, hb]

theorem Graph.pinned_pushHandle (g : Graph) (k : GcHandle) {b : Addr} {o : GcHeader}
    (ho : g.objs b = some o) : (g.pushHandle k).Pinned b ↔ b = k.target ∨ g.Pinned b := by
  have hor : (o.flags ||| objectFlagPinned) &&& objectFlagPinned ≠ 0 := by
    have : (o.flags ||| objectFlagPinned) &&& objectFlagPinned = objectFlagPinned := by grind
    rw [this]
    decide
  by_cases hb : b = k.target
  · subst hb
    simpa [Pinned, pushHandle, ho] using hor
  · simp [Pinned, pushHandle, hb]

theorem Graph.pinned_popHandle (g : Graph) (k : GcHandle) (b : Addr) :
    (g.popHandle k).Pinned b ↔ b ≠ k.target ∧ g.Pinned b := by
  by_cases hb : b = k.target
  · subst hb
    cases ho : g.objs k.target <;> simp [Pinned, popHandle, ho, BitVec.and_assoc]
  · simp [Pinned, popHandle, hb]

/-- Rewriting an object in place, flags apart. -/
theorem PinsOk.modifyObj (hp : PinsOk g tracked pins) (a : Addr) {f : GcHeader → GcHeader}
    (hf : ∀ o, (f o).flags = o.flags ∧ (f o).tag = o.tag) : PinsOk (g.modifyObj a f) tracked pins := by
  intro b hb
  rw [g.pinned_modifyObj a (fun o => (hf o).1), g.tagAt_modifyObj a b fun o => (hf o).2]
  exact hp b hb

/-- Pins move along with their objects. -/
theorem Collected.pinsOk {keep : Set Addr} {φ : Addr → Addr} (h : HeapInv g tracked)
    (c : Collected g g' tracked tracked' keep φ) (hp : PinsOk g tracked pins) :
    PinsOk g' tracked' pins := by
  intro b hb
  obtain ⟨a, ha, rfl⟩ := (c.image b).mp hb
  obtain ⟨o, ho, -⟩ := h.objs a (c.sub a ha)
  have hflags : g'.Pinned (φ a) ↔ g.Pinned a := by
    rw [Graph.pinned_iff ho, Graph.pinned_iff (c.objs a ha o ho)]
    rfl
  have hheld : (∃ k ∈ g'.handles, k.target = φ a) ↔ ∃ k ∈ g.handles, k.target = a := by
    rw [c.handles]
    constructor
    · rintro ⟨k', hk', he⟩
      obtain ⟨k, hk, rfl⟩ := List.mem_map.mp hk'
      exact ⟨k, hk, c.inj (c.closed.handles k hk) ha he⟩
    · rintro ⟨k, hk, rfl⟩
      exact ⟨k.mapTarget φ, List.mem_map_of_mem hk, rfl⟩
  rw [hflags, c.tagAt h ha, hheld]
  exact hp a (c.sub a ha)

theorem allocatedFlags_pinned (desc : GcDescriptor) (flags : BitVec 32) :
    allocatedFlags desc flags &&& objectFlagPinned ≠ 0 ↔ flags &&& allocPinned ≠ 0 := by
  unfold allocatedFlags
  split <;> split <;> simp_all <;> decide

/-- A new object is pinned when that has been asked for. -/
theorem Allocated.pinsOk {desc : GcDescriptor} {size : Nat} {flags : BitVec 32} {a : Addr}
    (h : HeapInv g tracked) (ha : Allocated desc size flags g tracked a g' tracked')
    (hlt : ∀ t ∈ pins, t < g.history.length) (hp : PinsOk g tracked pins) :
    PinsOk g' tracked'
      (if flags &&& allocPinned ≠ 0 then g.history.length :: pins else pins) := by
  have hhandles : g'.handles = g.handles := by
    obtain ⟨objs, -, rfl⟩ := ha.graph
    rfl
  have hmem : ∀ t, t ≠ g.history.length → (t ∈
      (if flags &&& allocPinned ≠ 0 then g.history.length :: pins else pins) ↔ t ∈ pins) := by
    intro t ht
    split <;> simp [ht]
  intro b hb
  rw [hhandles]
  rcases List.mem_cons.mp (ha.perm.subset hb) with rfl | hb
  · have hnone : ¬ ∃ k ∈ g.handles, k.target = b := by
      rintro ⟨k, hk, rfl⟩
      exact ha.new (h.handles k hk)
    have hfresh : g.history.length ∉ pins := fun hm => Nat.lt_irrefl _ (hlt _ hm)
    have hpinned : g'.Pinned b ↔ flags &&& allocPinned ≠ 0 :=
      (Graph.pinned_iff ha.obj).trans (allocatedFlags_pinned desc flags)
    rw [hpinned, Graph.tagAt_eq ha.obj, or_iff_left hnone]
    show _ ↔ g.history.length ∈ _
    split <;> simp_all
  · have hpinned : g'.Pinned b ↔ g.Pinned b := by simp only [Graph.Pinned, ha.objs hb]
    rw [hpinned, ha.tagAt hb, hmem _ (Nat.ne_of_lt (h.tag_lt hb))]
    exact hp b hb

/-- A new handle pins its object. -/
theorem PinsOk.pushHandle (h : HeapInv g tracked) (hp : PinsOk g tracked pins) (k : GcHandle) :
    PinsOk (g.pushHandle k) tracked pins := by
  intro b hb
  obtain ⟨o, ho, -⟩ := h.objs b hb
  have htag : (g.pushHandle k).tagAt b = g.tagAt b :=
    Graph.tagAt_modifyObj { g with handles := k :: g.handles } k.target b fun _ => rfl
  have hheld : (∃ k' ∈ (g.pushHandle k).handles, k'.target = b) ↔
      b = k.target ∨ ∃ k' ∈ g.handles, k'.target = b := by
    show (∃ k' ∈ k :: g.handles, _) ↔ _
    simp [eq_comm]
  rw [g.pinned_pushHandle k ho, htag, hheld, hp b hb, or_left_comm]

/-- Releasing a handle leaves the pins in order exactly when it takes away the last pin. -/
theorem pinsOk_popHandle_iff (h : HeapInv g tracked) (hp : PinsOk g tracked pins) {k : GcHandle}
    (hk : k ∈ g.handles) : PinsOk (g.popHandle k) tracked pins ↔ g.LastPin pins k.addr := by
  rw [Graph.LastPin, h.target_eq hk]
  have htag : ∀ b, (g.popHandle k).tagAt b = g.tagAt b := fun b =>
    Graph.tagAt_modifyObj { g with handles := g.handles.eraseP fun k' => k'.addr = k.addr }
      k.target b fun _ => rfl
  have hmem : ∀ k', k' ∈ (g.popHandle k).handles ↔ k' ∈ g.handles ∧ k'.addr ≠ k.addr :=
    fun k' => mem_eraseP_key h.handleAddrs
  constructor
  · intro hp'
    have hnot := (hp' k.target (h.handles k hk)).not.mp fun hpin =>
      ((g.pinned_popHandle k _).mp hpin).1 rfl
    rw [htag] at hnot
    refine ⟨fun hm => hnot (.inl hm), fun k' hk' ht => ?_⟩
    by_contra hne
    exact hnot (.inr ⟨k', (hmem k').mpr ⟨hk', hne⟩, ht⟩)
  · rintro ⟨htags, honly⟩ b hb
    rw [g.pinned_popHandle k b, htag, hp b hb]
    by_cases hbk : b = k.target
    · subst hbk
      have hgone : ¬ ∃ k' ∈ (g.popHandle k).handles, k'.target = k.target := by
        rintro ⟨k', hk', ht⟩
        obtain ⟨hold, hne⟩ := (hmem k').mp hk'
        exact hne (honly k' hold ht)
      simp [htags, hgone]
    · have hheld : (∃ k' ∈ (g.popHandle k).handles, k'.target = b) ↔
          ∃ k' ∈ g.handles, k'.target = b := by
        constructor
        · rintro ⟨k', hk', ht⟩
          exact ⟨k', ((hmem k').mp hk').1, ht⟩
        · rintro ⟨k', hk', ht⟩
          refine ⟨k', (hmem k').mpr ⟨hk', fun ha => hbk ?_⟩, ht⟩
          rw [← ht, List.inj_on_of_nodup_map h.handleAddrs hk' hk ha]
      rw [hheld, and_iff_right hbk]

/-- The account of pinned allocations is one of tags that have been given out. -/
structure PinInv (g : Graph) (tracked : List Addr) (pins : List Nat) : Prop where
  ok : PinsOk g tracked pins
  lt : ∀ t ∈ pins, t < g.history.length

theorem Collected.pinInv {keep : Set Addr} {φ : Addr → Addr} (h : HeapInv g tracked)
    (c : Collected g g' tracked tracked' keep φ) (hp : PinInv g tracked pins) :
    PinInv g' tracked' pins :=
  ⟨c.pinsOk h hp.ok, by rw [c.history]; exact hp.lt⟩

theorem PinInv.modifyObj (hp : PinInv g tracked pins) (a : Addr) {f : GcHeader → GcHeader}
    (hf : ∀ o, (f o).flags = o.flags ∧ (f o).tag = o.tag) :
    PinInv (g.modifyObj a f) tracked pins :=
  ⟨hp.ok.modifyObj a hf, hp.lt⟩

/-- A balanced call keeps the pins in order. -/
theorem Effect.pinInv {rounded : Nat → Nat} {op : ClientOp} {result : Addr}
    (h : HeapInv g tracked) (hp : PinInv g tracked pins) (hb : op.Balanced g pins)
    (he : Effect rounded op g tracked result g' tracked') :
    PinInv g' tracked' (op.pins g result pins) := by
  cases op with
  | alloc desc size flags =>
    simp only [Effect] at he
    split at he
    · obtain ⟨rfl, rfl, rfl⟩ := he
      simpa [ClientOp.pins] using hp
    · obtain ⟨g₁, tracked₁, keep, φ, hc, ha⟩ := he
      have hp₁ := hc.pinInv h hp
      have hok := ha.pinsOk (hc.heapInv h) hp₁.lt hp₁.ok
      have hhist : g'.history = g.history ++ [desc] := by
        obtain ⟨objs, -, rfl⟩ := ha.graph
        show g₁.history ++ [desc] = _
        rw [hc.history]
      simp only [ClientOp.pins, ha.ne_zero, ne_eq, not_false_eq_true, true_and]
      rw [hc.history] at hok
      refine ⟨hok, fun t ht => ?_⟩
      rw [hhist, List.length_append]
      split at ht
      · rcases List.mem_cons.mp ht with rfl | ht
        · exact Nat.lt_succ_self _
        · exact Nat.lt_succ_of_lt (hp.lt t ht)
      · exact Nat.lt_succ_of_lt (hp.lt t ht)
  | storeRef owner loc v =>
    obtain ⟨rfl, rfl⟩ := he
    exact hp.modifyObj owner fun _ => ⟨rfl, rfl⟩
  | loadRef place =>
    obtain ⟨-, rfl, rfl⟩ := he
    exact hp
  | writeBytes obj bytes =>
    obtain ⟨rfl, rfl⟩ := he
    exact hp.modifyObj obj fun _ => ⟨rfl, rfl⟩
  | setRoot i v =>
    obtain ⟨rfl, rfl⟩ := he
    exact ⟨hp.ok, hp.lt⟩
  | acquire obj flags =>
    simp only [Effect] at he
    split at he
    · obtain ⟨-, rfl, rfl⟩ := he
      exact hp
    · obtain ⟨-, -, rfl, runtime, rfl⟩ := he
      exact ⟨hp.ok.pushHandle h _, hp.lt⟩
  | get handle =>
    obtain ⟨-, rfl, rfl⟩ := he
    exact hp
  | release handle =>
    simp only [Effect] at he
    split at he
    · obtain ⟨rfl, rfl⟩ := he
      exact hp
    · next h0 =>
      obtain ⟨rfl, k, hk, rfl, rfl⟩ := he
      exact ⟨(pinsOk_popHandle_iff h hp.ok hk).mpr (hb.resolve_left h0), hp.lt⟩
  | collectMinor =>
    obtain ⟨keep, φ, hc⟩ := he
    exact hc.pinInv h hp
  | collectMajor =>
    obtain ⟨φ, hc⟩ := he
    exact hc.pinInv h hp
  | collectFull =>
    obtain ⟨φ, hc⟩ := he
    exact hc.pinInv h hp

theorem Outcome.pinInv {rounded : Nat → Nat} {op : ClientOp} {result : Addr}
    (h : HeapInv g tracked) (hp : PinInv g tracked pins) (hb : op.Balanced g pins)
    (ho : Outcome rounded op g tracked result g' tracked') :
    PinInv g' tracked' (op.pins g result pins) := by
  rcases ho with he | ⟨hop, rfl, keep, φ, hc⟩
  · exact he.pinInv h hp hb
  · have hpins : op.pins g 0 pins = pins := by
      cases op <;> simp [ClientOp.pins]
    rw [hpins]
    exact hc.pinInv h hp

end Steps

/-! ### Runs -/

/-- The flag of every live object follows its pins, and it will do so after the release of a handle
    exactly when the handle is the last pin of its object. -/
structure PinsFollow {σ : Type} (C : Collector σ) (w : World σ) (pins : List Nat) : Prop where
  live : ∀ a, w.graph.Reachable a →
    (w.graph.Pinned a ↔ w.graph.tagAt a ∈ pins ∨ ∃ k ∈ w.graph.handles, k.target = a)
  release : ∀ h ∈ w.graph.handles.map GcHandle.addr,
    PinsOk (gcHandleRelease C.algo w h).graph (C.tracked w) pins ↔ w.graph.LastPin pins h

/-- Before the first allocation there is nothing to pin. -/
theorem PinInv.fresh {g : Graph} {tracked : List Addr} (h : HeapInv g tracked)
    (hg : ∀ a, g.objs a = none) : PinInv g tracked [] where
  ok a ha := by
    obtain ⟨o, ho, -⟩ := h.objs a ha
    rw [hg a] at ho
    exact nomatch ho
  lt t ht := absurd ht List.not_mem_nil

theorem PinsFollow.of_inv {σ : Type} [Inhabited σ] {M : Manager σ} (hM : M.Sound) {w : World σ}
    {pins : List Nat} (h : M.Inv w) (hp : PinInv w.graph (M.tracked w) pins) :
    PinsFollow M.toCollector w pins where
  live a ha := hp.ok a (h.heap.mem_of_reachable ha)
  release handle hmem := by
    obtain ⟨k, hk, rfl, heq⟩ := Manager.release_spec hM h hmem
    rw [heq]
    exact pinsOk_popHandle_iff h.heap hp.ok hk

/-- In every run of balanced calls the flags follow the pins. -/
theorem Manager.Sparing.pins_run {σ : Type} [Inhabited σ] {M : Manager σ}
    {Spared : World σ → ClientOp → Prop} (hM : M.Sparing Spared) {w₀ w : World σ}
    {ops : List ClientOp} {pins : List Nat} (hinv : M.Inv w₀) (hfresh : ∀ a, w₀.graph.objs a = none)
    (hrun : Run (M.toCollector.BalancedStep Spared) (w₀, []) ops (w, pins)) :
    PinsFollow M.toCollector w pins := by
  have hend : M.Inv w ∧ PinInv w.graph (M.tracked w) pins := by
    refine hrun.invariant
      (P := fun s : World σ × List Nat => M.Inv s.1 ∧ PinInv s.1.graph (M.tracked s.1) s.2) ?_
      ⟨hinv, .fresh hinv.heap hfresh⟩
    rintro s op s' ⟨hs, hp⟩ ⟨⟨hstep, hpins⟩, hb⟩
    obtain ⟨hs', hout⟩ := hM.step hs hstep
    refine ⟨hs', ?_⟩
    rw [hpins]
    exact hout.pinInv hs.heap hp hb
  exact .of_inv hM.sound hend.1 hend.2

/-- Under both algorithms the flag of a live object says whether there is a pin, as long as every
    released handle was the last pin of its object. -/
theorem pins_follow (ops : List ClientOp) (pins : List Addr) :
    (∀ w₀ w, genCollector.Starts w₀ →
      Run (genCollector.BalancedStep genSpared) (w₀, []) ops (w, pins) →
      PinsFollow genCollector w pins) ∧
    (∀ w₀ w, msCollector.Starts w₀ →
      Run (msCollector.BalancedStep msSpared) (w₀, []) ops (w, pins) →
      PinsFollow msCollector w pins) := by
  constructor
  · intro w₀ w hstart hrun
    obtain ⟨hooks, hgraph⟩ := genCollector_starts hstart
    exact genManager_sparing.pins_run (genManager_sound.start _ hstart)
      (fun a => by rw [hgraph]) hrun
  · intro w₀ w hstart hrun
    obtain ⟨hooks, hgraph⟩ := msCollector_starts hstart
    exact msManager_sparing.pins_run (msManager_sound.start _ hstart)
      (fun a => by rw [hgraph]) hrun

/-- The runtime after a spared call, and what the call returned. -/
def genCall (op : ClientOp) (w : GenWorld) : GenWorld × Addr :=
  ((op.perform genCollector w).1.cleared, (op.perform genCollector w).2)

/-- A young cell. -/
def genCell : GenWorld × Addr := genCall (.alloc cell 24 0) genStart

/-- A handle to the cell. -/
def genHandle : GenWorld × Addr := genCall (.acquire genCell.2 0) genCell.1

/-- Another handle to the cell. -/
def genHandles : GenWorld × Addr := genCall (.acquire genCell.2 0) genHandle.1

theorem genCell_step : genCollector.PinStep genSpared (genStart, []) (.alloc cell 24 0)
    (genCell.1, []) :=
  ⟨⟨⟨cell_ok, by decide +kernel⟩, ⟨fun hc => absurd hc (by decide +kernel),
    .inr (by decide +kernel)⟩, by rw [genCell, genCall]⟩, by decide +kernel⟩

theorem genHandle_step : genCollector.PinStep genSpared (genCell.1, []) (.acquire genCell.2 0)
    (genHandle.1, []) :=
  ⟨⟨.inr (by decide +kernel), trivial, by rw [genHandle, genCall]⟩, rfl⟩

/-- The cell in a root slot. -/
def genRooted : GenWorld := (genCall (.setRoot 0 genCell.2) genHandle.1).1

/-- A second cell, which its allocation pins. -/
def genPinned : GenWorld × Addr := genCall (.alloc cell 24 allocPinned) genRooted

/-- A handle to the second cell. -/
def genPinHeld : GenWorld := (genCall (.acquire genPinned.2 0) genPinned.1).1

/-- The first cell stays in its root slot when its handle goes, unpinned; the second one has a handle
    and the pin of its allocation. -/
theorem pins_follow_sample :
    PinsFollow genCollector (genCall (.release genHandle.2) genPinHeld).1 [1] := by
  have hroot : genCollector.PinStep genSpared (genHandle.1, []) (.setRoot 0 genCell.2)
      (genRooted, []) :=
    ⟨⟨⟨by decide +kernel, .inr (by decide +kernel)⟩, trivial, by rw [genRooted, genCall]⟩, rfl⟩
  have halloc : genCollector.PinStep genSpared (genRooted, []) (.alloc cell 24 allocPinned)
      (genPinned.1, [1]) :=
    ⟨⟨⟨cell_ok, by decide +kernel⟩, ⟨fun hc => absurd hc (by decide +kernel),
      .inr (by decide +kernel)⟩, by rw [genPinned, genCall]⟩, by decide +kernel⟩
  have hhandle : genCollector.PinStep genSpared (genPinned.1, [1]) (.acquire genPinned.2 0)
      (genPinHeld, [1]) :=
    ⟨⟨.inr (by decide +kernel), trivial, by rw [genPinHeld, genCall]⟩, rfl⟩
  have hrelease : genCollector.PinStep genSpared (genPinHeld, [1]) (.release genHandle.2)
      ((genCall (.release genHandle.2) genPinHeld).1, [1]) :=
    ⟨⟨.inr (by decide +kernel), trivial, by rw [genCall]⟩, rfl⟩
  have hlast : genPinHeld.graph.LastPin [1] genHandle.2 :=
    ⟨by decide +kernel, by decide +kernel⟩
  have hbefore : Run (genCollector.BalancedStep genSpared) (genStart, []) _ (genPinHeld, [1]) :=
    (((((Run.nil _).snoc ⟨genCell_step, trivial⟩).snoc ⟨genHandle_step, trivial⟩).snoc
      ⟨hroot, trivial⟩).snoc ⟨halloc, trivial⟩).snoc ⟨hhandle, trivial⟩
  exact (pins_follow _ _).1 _ _ genStart_starts (hbefore.snoc ⟨hrelease, .inr hlast⟩)

/-- With two handles on an object, the release of one unpins it for the other. -/
theorem pins_lost : ∃ ops w pins a,
    Run (genCollector.PinStep genSpared) (genStart, []) ops (w, pins) ∧ w.graph.Reachable a ∧
      (∃ k ∈ w.graph.handles, k.target = a) ∧ ¬ w.graph.Pinned a := by
  have hsecond : genCollector.PinStep genSpared (genHandle.1, []) (.acquire genCell.2 0)
      (genHandles.1, []) :=
    ⟨⟨.inr (by decide +kernel), trivial, by rw [genHandles, genCall]⟩, rfl⟩
  have hrelease : genCollector.PinStep genSpared (genHandles.1, []) (.release genHandle.2)
      ((genCall (.release genHandle.2) genHandles.1).1, []) :=
    ⟨⟨.inr (by decide +kernel), trivial, by rw [genCall]⟩, rfl⟩
  have hheld : ∃ k ∈ (genCall (.release genHandle.2) genHandles.1).1.graph.handles,
      k.target = genCell.2 := by decide +kernel
  exact ⟨_, _, [], genCell.2, ((((Run.nil _).snoc genCell_step).snoc genHandle_step).snoc
    hsecond).snoc hrelease, Lib.Reach.root ⟨by decide +kernel, .inr hheld⟩, hheld,
    by decide +kernel⟩

end Xgc
