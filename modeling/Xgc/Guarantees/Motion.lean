import Xgc.Guarantees.Pinning
import Xgc.Guarantees.NurseryWalk

/-! Where objects lie over time. The generational collector moves an object at most once, out of the
    nursery; mark-sweep moves none. -/

namespace Xgc

open Lib (Run)

/-! ### Where objects come from -/

/-- Each object of the second heap is one of the first, with `R` between its two addresses, or has
    been allocated since. -/
structure Descends (R : Addr → Addr → Prop) (g : Graph) (tracked : List Addr) (g' : Graph)
    (tracked' : List Addr) : Prop where
  history : g.history.length ≤ g'.history.length
  origin : ∀ b ∈ tracked', (∃ a ∈ tracked, g.tagAt a = g'.tagAt b ∧ R a b) ∨
    g.history.length ≤ g'.tagAt b

section

variable {R S T : Addr → Addr → Prop} {g g' g'' : Graph} {tracked tracked' tracked'' : List Addr}

/-- Objects that stay where they are. -/
theorem Descends.of_tagAt (hR : ∀ a, R a a) (hhist : g'.history = g.history)
    (htag : ∀ a ∈ tracked, g'.tagAt a = g.tagAt a) : Descends R g tracked g' tracked where
  history := hhist ▸ le_refl _
  origin a ha := .inl ⟨a, ha, (htag a ha).symm, hR a⟩

theorem Descends.trans (h : Descends R g tracked g' tracked')
    (h' : Descends S g' tracked' g'' tracked'') (hT : ∀ a b c, R a b → S b c → T a c) :
    Descends T g tracked g'' tracked'' where
  history := h.history.trans h'.history
  origin c hc := by
    rcases h'.origin c hc with ⟨b, hb, hbc, hS⟩ | hnew
    · rcases h.origin b hb with ⟨a, ha, hab, hR⟩ | hnew
      · exact .inl ⟨a, ha, hab.trans hbc, hT a b c hR hS⟩
      · exact .inr (hbc ▸ hnew)
    · exact .inr (h.history.trans hnew)

/-- A tracked object of the first heap has gone where `R` says. -/
theorem Descends.moved (h : HeapInv g tracked) (d : Descends R g tracked g' tracked') {a b : Addr}
    (ha : a ∈ tracked) (hb : b ∈ tracked') (ht : g'.tagAt b = g.tagAt a) : R a b := by
  rcases d.origin b hb with ⟨c, hc, htag, hR⟩ | hnew
  · rwa [← h.tag_inj hc ha (htag.trans ht)]
  · have hlt := h.tag_lt ha
    rw [← ht] at hlt
    exact absurd hnew (Nat.not_le.mpr hlt)

theorem Collected.descends {keep : Set Addr} {φ : Addr → Addr} (h : HeapInv g tracked)
    (c : Collected g g' tracked tracked' keep φ) (hR : ∀ a ∈ keep, φ a ∈ tracked' → R a (φ a)) :
    Descends R g tracked g' tracked' where
  history := c.history ▸ le_refl _
  origin b hb := by
    obtain ⟨a, ha, rfl⟩ := (c.image b).mp hb
    exact .inl ⟨a, c.sub a ha, (c.tagAt h ha).symm, hR a ha hb⟩

theorem Allocated.descends {desc : GcDescriptor} {size : Nat} {flags : BitVec 32} {a : Addr}
    (ha : Allocated desc size flags g tracked a g' tracked') (hR : ∀ b, R b b) :
    Descends R g tracked g' tracked' where
  history := by
    obtain ⟨objs, -, rfl⟩ := ha.graph
    exact (List.length_append ..).symm ▸ Nat.le_add_right _ _
  origin b hb := by
    rcases List.mem_cons.mp (ha.perm.subset hb) with rfl | hb
    · exact .inr (Graph.tagAt_eq ha.obj).ge
    · exact .inl ⟨b, hb, (ha.tagAt hb).symm, hR b⟩

/-- The same objects in the same places. -/
structure Still (g : Graph) (tracked : List Addr) (g' : Graph) (tracked' : List Addr) : Prop where
  tracked : tracked' = tracked
  history : g'.history = g.history
  log : g'.log = g.log
  tagAt : ∀ a, g'.tagAt a = g.tagAt a

theorem Still.refl (g : Graph) (tracked : List Addr) : Still g tracked g tracked :=
  ⟨rfl, rfl, rfl, fun _ => rfl⟩

theorem Still.descends (h : Still g tracked g' tracked') (hR : ∀ a, R a a) :
    Descends R g tracked g' tracked' := by
  obtain ⟨rfl, hhist, -, htag⟩ := h
  exact .of_tagAt hR hhist fun a _ => htag a

/-- A call that neither allocates nor collects leaves all objects where they are. -/
theorem Effect.still {rounded : Nat → Nat} {op : ClientOp} {result : Addr}
    (hop : op.stationary = true) (he : Effect rounded op g tracked result g' tracked') :
    Still g tracked g' tracked' := by
  cases op with
  | storeRef owner loc v =>
    obtain ⟨rfl, rfl⟩ := he
    exact ⟨rfl, rfl, rfl, fun a => g.tagAt_modifyObj owner a fun _ => rfl⟩
  | loadRef place =>
    obtain ⟨-, rfl, rfl⟩ := he
    exact .refl g' tracked'
  | writeBytes obj bytes =>
    obtain ⟨rfl, rfl⟩ := he
    exact ⟨rfl, rfl, rfl, fun a => g.tagAt_modifyObj obj a fun _ => rfl⟩
  | setRoot i v =>
    obtain ⟨rfl, rfl⟩ := he
    exact ⟨rfl, rfl, rfl, fun _ => rfl⟩
  | acquire obj flags =>
    simp only [Effect] at he
    split at he
    · obtain ⟨-, rfl, rfl⟩ := he
      exact .refl g' tracked'
    · obtain ⟨-, -, rfl, runtime, rfl⟩ := he
      exact ⟨rfl, rfl, rfl, fun a =>
        Graph.tagAt_modifyObj { g with handles := _ :: g.handles } obj a fun _ => rfl⟩
  | get handle =>
    obtain ⟨-, rfl, rfl⟩ := he
    exact .refl g' tracked'
  | release handle =>
    simp only [Effect] at he
    split at he
    · obtain ⟨rfl, rfl⟩ := he
      exact .refl g' tracked'
    · obtain ⟨rfl, k, -, -, rfl⟩ := he
      exact ⟨rfl, rfl, rfl, fun a =>
        Graph.tagAt_modifyObj { g with handles := g.handles.eraseP fun k' => k'.addr = k.addr }
          k.target a fun _ => rfl⟩
  | alloc | collectMinor | collectMajor | collectFull => exact absurd hop Bool.false_ne_true

end

/-- So does one that is refused a handle. -/
theorem Manager.Sparing.still {σ : Type} [Inhabited σ] {M : Manager σ}
    {Spared : World σ → ClientOp → Prop} (hM : M.Sparing Spared) {w w' : World σ} {op : ClientOp}
    (h : M.Inv w) (hop : op.stationary = true) (hs : M.toCollector.SparedStep Spared w op w') :
    Still w.graph (M.tracked w) w'.graph (M.tracked w') := by
  obtain ⟨hl, -, rfl⟩ := hs
  rw [hM.tracked]
  cases op with
  | acquire obj flags =>
    rcases hM.sound.acquire h hl flags with heq | ⟨-, heff⟩
    · simp only [ClientOp.perform, heq]
      have htracked := (hM.sound.inv_reshape h w.graph w.mem.refuse (SameShape.of_objs rfl _) h.heap
        h.rt.runtime (h.owns.quiet w.mem.quiet_refuse)).2
      rw [htracked]
      exact .refl w.graph _
    · exact heff.still rfl
  | storeRef | loadRef | writeBytes | setRoot | get | release =>
    exact (hM.sound.quiet h hl rfl).2.still rfl
  | alloc | collectMinor | collectMajor | collectFull => exact absurd hop Bool.false_ne_true

/-! ### The generational collector -/

/-- The nursery is where it was. -/
def SamePlace (w w' : GenWorld) : Prop :=
  w'.algoState.nurserySpace = w.algoState.nurserySpace ∧
    w'.algoState.nurseryCapacity = w.algoState.nurseryCapacity

/-- An object at `a` in `w` that is at `b` in `w'` has not moved, or has left the nursery. -/
def StaysOrLeaves (w w' : GenWorld) (a b : Addr) : Prop :=
  b = a ∨ (gcGenInNursery w.algoState a = true ∧ gcGenInNursery w'.algoState b = false)

/-- All objects of `w'` lie where they lay in `w`, have left the nursery since or are new. -/
structure GenDescends (w w' : GenWorld) : Prop where
  place : SamePlace w w'
  objects : Descends (StaysOrLeaves w w') w.graph (genCollector.tracked w) w'.graph
    (genCollector.tracked w')

variable {tidy : Prop} {w w' w'' : GenWorld}

/-- An object leaves the nursery once. -/
theorem GenDescends.trans (h : GenDescends w w') (h' : GenDescends w' w'') : GenDescends w w'' where
  place := ⟨h'.place.1.trans h.place.1, h'.place.2.trans h.place.2⟩
  objects := by
    refine h.objects.trans h'.objects fun a b c hab hbc => ?_
    rcases hab with rfl | ⟨hin, hout⟩
    · rcases hbc with rfl | ⟨hin, hout⟩
      · exact .inl rfl
      · exact .inr ⟨(gcGenInNursery_congr h.place b).symm.trans hin, hout⟩
    · rcases hbc with rfl | ⟨-, hout'⟩
      · exact .inr ⟨hin, (gcGenInNursery_congr h'.place c).trans hout⟩
      · exact .inr ⟨hin, hout'⟩

theorem GenDescends.cleared (h : GenDescends w w') : GenDescends w w'.cleared :=
  ⟨h.place, h.objects⟩

/-- A collection that leaves the old objects where they are and the nursery empty. -/
theorem Collected.genDescends {keep : Set Addr} {φ : Addr → Addr} (h : (genManager tidy).Inv w)
    (hok : GenOk w' []) (hplace : SamePlace w w') (hold : ∀ a ∈ w.old, φ a = a)
    (hc : Collected w.graph w'.graph (genCollector.tracked w) (genCollector.tracked w') keep φ) :
    GenDescends w w' := by
  refine ⟨hplace, hc.descends h.heap fun a ha hb => ?_⟩
  rcases List.mem_append.mp (hc.sub a ha) with hmem | hmem
  · exact .inl (hold a hmem)
  · rw [tracked_nil hok.layout.tiles] at hb
    exact .inr ⟨(genManager_ok h).inNursery_young hmem, hok.inNursery_old hb⟩

theorem MinorExact.genDescends {φ : Addr → Addr} (h : (genManager tidy).Inv w)
    (he : MinorExact w (gcGenCollectMinorImpl w) φ) : GenDescends w (gcGenCollectMinorImpl w) :=
  he.collected.genDescends h (gcGenCollectMinorImpl_ok h).1 (gcGenCollectMinorImpl_space h)
    fun a ha => (he.old a ha).1

theorem gcGenCollectFullImpl_descends (h : (genManager False).Inv w)
    (hs : MinorSpared w ∧ OldMarkSpared w) : GenDescends w (gcGenCollectFullImpl w) := by
  obtain ⟨hok, -, -, φ, he, hc⟩ := gcGenCollectFullImpl_spared h hs.1 hs.2
  rw [← tracked_nil hok.layout.tiles] at hc
  exact hc.genDescends h hok (gcGenCollectFullImpl_space h) fun a ha => (he.old a ha).1

theorem Allocated.genDescends {desc : GcDescriptor} {size : Nat} {flags : BitVec 32} {a : Addr}
    (ha : Allocated desc size flags w.graph (genCollector.tracked w) a w'.graph
      (genCollector.tracked w')) (hplace : SamePlace w w') : GenDescends w w' :=
  ⟨hplace, ha.descends fun _ => .inl rfl⟩

/-- Making room in the nursery moves objects out of it. -/
theorem withRoom_descends (h : (genManager False).Inv w) {size : Nat} {flags : BitVec 32}
    (hs : AllocCollects w size flags → MinorSpared w) :
    (genManager False).Inv (withRoom w size flags).cleared ∧
      GenDescends w (withRoom w size flags).cleared := by
  unfold withRoom
  split
  · next hc =>
    obtain ⟨hinv, φ, he⟩ := genManager_minor_spared h (hs hc)
    exact ⟨hinv, (he.genDescends h).cleared⟩
  · exact ⟨genManager_inv_cleared h, ⟨rfl, rfl⟩, .of_tagAt (fun _ => .inl rfl) rfl fun _ _ => rfl⟩

/-- An allocation moves objects only to make room. -/
theorem gcAllocTyped_descends (h : (genManager False).Inv w) {desc : GcDescriptor} (hd : desc.Ok)
    {size : Nat} (hmax : size ≤ 2 ^ 32 - 8) {flags : BitVec 32}
    (hs : genSpared w (.alloc desc size flags)) :
    GenDescends w (gcAllocTyped gcGenCopyMsVtable w desc size flags).1 := by
  obtain ⟨hminor, hs⟩ := hs
  rcases gcAllocTyped_gen_cases h desc hmax flags with
    ⟨m, b, -, -, -, -, -, heq⟩ | ⟨hsize, hyoung, heq⟩ |
    ⟨hsize, -, t, m, b, hfit, hq, hb, hcards, heq⟩ |
    ⟨hsize, -, a, m, b, hq, -, hb, hcards, hfit, heq⟩
  · rw [heq]
    exact ⟨⟨rfl, rfl⟩, .of_tagAt (fun _ => .inl rfl) rfl fun _ _ => rfl⟩
  · obtain ⟨hinv, hroom⟩ := withRoom_descends h hminor
    obtain ⟨hmin, hlt, -⟩ := alignedSize_spec hsize hmax
    obtain ⟨-, ha⟩ := gcGenAllocYoung_spec hinv hd hmin hlt (withRoom_spec h hsize hyoung).2.1
      hyoung.1
    have hd := hroom.trans (ha.genDescends ⟨rfl, rfl⟩)
    rw [heq]
    exact ⟨hd.place, hd.objects⟩
  · obtain ⟨hmin, hlt, -⟩ := alignedSize_spec hsize hmax
    obtain ⟨-, ha⟩ := allocatedOld_spec h hd hmin hlt flags hfit hq hb hcards
    rw [heq]
    exact ha.genDescends ⟨rfl, rfl⟩
  · -- plain memory is not tracked
    rw [heq] at hs
    have hpos : 0 < size := Nat.lt_of_lt_of_le (by decide) hsize
    exact absurd (hs.resolve_left (Nat.pos_iff_ne_zero.mp hfit.1))
      (genTracked_addObject (genManager_inv_refused h hq hb hcards) hfit hpos desc _)

/-- A spared call moves objects out of the nursery only. -/
theorem gen_step_descends (h : (genManager False).Inv w) {op : ClientOp}
    (hs : genCollector.SparedStep genSpared w op w') : GenDescends w w' := by
  have hkept := (genManager_nursery h).kept
  have hstay : op.stationary = true → SamePlace w w' → GenDescends w w' := fun hop hplace =>
    ⟨hplace, (genManager_sparing.still h hop hs).descends fun a => .inl rfl⟩
  obtain ⟨hl, hspared, rfl⟩ := id hs
  cases op with
  | alloc desc size flags => exact (gcAllocTyped_descends h hl.1 hl.2 hspared).cleared
  | storeRef owner loc v =>
    have hk := hkept.storeRef owner loc v
    exact hstay rfl ⟨hk.space, hk.capacity⟩
  | acquire obj flags =>
    have hk := hkept.acquire obj flags
    exact hstay rfl ⟨hk.space, hk.capacity⟩
  | release handle =>
    have hk := hkept.release handle
    exact hstay rfl ⟨hk.space, hk.capacity⟩
  | loadRef | get | writeBytes | setRoot => exact hstay rfl ⟨rfl, rfl⟩
  | collectMinor =>
    obtain ⟨-, φ, he⟩ := genManager_minor_spared h hspared
    have hd := he.genDescends h
    exact ⟨hd.place, hd.objects⟩
  | collectMajor | collectFull =>
    have hd := gcGenCollectFullImpl_descends h hspared
    exact ⟨hd.place, hd.objects⟩

/-- A run moves objects out of the nursery only, each of them once. -/
theorem gen_run_descends (h : (genManager False).Inv w) {ops : List ClientOp}
    (hrun : Run (genCollector.SparedStep genSpared) w ops w') :
    (genManager False).Inv w' ∧ GenDescends w w' := by
  induction hrun with
  | nil => exact ⟨h, ⟨rfl, rfl⟩, .of_tagAt (fun _ => .inl rfl) rfl fun _ _ => rfl⟩
  | snoc _ hst ih =>
    obtain ⟨hv, hd⟩ := ih
    exact ⟨(genManager_sparing.step hv hst).1, hd.trans (gen_step_descends hv hst)⟩

/-! ### Mark-sweep -/

theorem msAllocated_allocated {w : MsWorld} (h : msManager.Inv w) (desc : GcDescriptor) {size : Nat}
    (flags : BitVec 32) {a : Addr} (hfit : w.mem.Fits a size) (m : Mem) :
    Allocated desc size flags w.graph (msCollector.tracked w) a
      (msAllocated w a desc size flags m).graph
      (msCollector.tracked (msAllocated w a desc size flags m)) :=
  ⟨Nat.pos_iff_ne_zero.mp hfit.1, msTracked_of_fits h hfit, .refl _, w.graph.objs, fun _ _ => rfl,
    rfl⟩

/-- A spared call moves nothing. -/
theorem ms_step_descends {w w' : MsWorld} (h : msManager.Inv w) {op : ClientOp}
    (hs : msCollector.SparedStep msSpared w op w') :
    Descends (fun a b => b = a) w.graph (msCollector.tracked w) w'.graph
      (msCollector.tracked w') := by
  have hstay : op.stationary = true → Descends (fun a b => b = a) w.graph (msCollector.tracked w)
      w'.graph (msCollector.tracked w') := fun hop =>
    (msManager_sparing.still h hop hs).descends fun _ => rfl
  obtain ⟨hl, hspared, rfl⟩ := id hs
  cases op with
  | alloc desc size flags =>
    simp only [msSpared] at hspared
    show Descends _ _ _ (gcAllocTyped gcMarksweepStwVtable w desc size flags).1.graph
      (msCollector.tracked (gcAllocTyped gcMarksweepStwVtable w desc size flags).1)
    rcases gcAllocTyped_ms_cases h desc hl.2 flags with
      ⟨m, -, -, heq⟩ | ⟨-, a, m, hfit, -, heq⟩ | ⟨a, m, hq, -, hfit, heq⟩
    · rw [heq]
      exact .of_tagAt (fun _ => rfl) rfl fun _ _ => rfl
    · rw [heq]
      exact (msAllocated_allocated h desc flags hfit m).descends fun _ => rfl
    · -- plain memory is not tracked
      rw [heq] at hspared
      exact absurd (hspared.resolve_left (Nat.pos_iff_ne_zero.mp hfit.1))
        (msTracked_of_fits (msManager_inv_quiet h hq) hfit)
  | storeRef | loadRef | get | writeBytes | setRoot | acquire | release => exact hstay rfl
  | collectMinor | collectMajor | collectFull =>
    exact (gcMarksweepCollectFullImpl_spared h hspared).2.descends h.heap fun _ _ _ => rfl

theorem ms_run_descends {w w' : MsWorld} (h : msManager.Inv w) {ops : List ClientOp}
    (hrun : Run (msCollector.SparedStep msSpared) w ops w') : msManager.Inv w' ∧
      Descends (fun a b => b = a) w.graph (msCollector.tracked w) w'.graph
        (msCollector.tracked w') := by
  induction hrun with
  | nil => exact ⟨h, .of_tagAt (fun _ => rfl) rfl fun _ _ => rfl⟩
  | snoc _ hst ih =>
    obtain ⟨hv, hd⟩ := ih
    exact ⟨(msManager_sparing.step hv hst).1,
      hd.trans (ms_step_descends hv hst) fun a b c hab hbc => hbc.trans hab⟩

/-! ### Over a whole run -/

/-- Under the generational collector an object that has moved between two points of a run lay in the
    nursery at the first, lies outside at the second and will never move again; under mark-sweep no
    object moves. -/
theorem moved_once :
    (∀ w w₁ w₂ ops ops', genCollector.Endures genSpared w →
      Run (genCollector.SparedStep genSpared) w ops w₁ →
      Run (genCollector.SparedStep genSpared) w₁ ops' w₂ →
      ∀ a ∈ genCollector.tracked w, ∀ b ∈ genCollector.tracked w₁,
        w₁.graph.tagAt b = w.graph.tagAt a → b ≠ a →
          gcGenInNursery w.algoState a = true ∧ gcGenInNursery w₁.algoState b = false ∧
          ∀ c ∈ genCollector.tracked w₂, w₂.graph.tagAt c = w.graph.tagAt a → c = b) ∧
    ∀ w w₁ ops, msCollector.Endures msSpared w → Run (msCollector.SparedStep msSpared) w ops w₁ →
      ∀ a ∈ msCollector.tracked w, ∀ b ∈ msCollector.tracked w₁,
        w₁.graph.tagAt b = w.graph.tagAt a → b = a := by
  refine ⟨fun w w₁ w₂ ops ops' hw hrun hrun' a ha b hb hab hne => ?_,
    fun w w₁ ops hw hrun a ha b hb hab => ?_⟩
  · have h := genManager_sparing.endures hw
    obtain ⟨h₁, hd₁⟩ := gen_run_descends h hrun
    obtain ⟨-, hd₂⟩ := gen_run_descends h₁ hrun'
    obtain ⟨hin, hout⟩ := (hd₁.objects.moved h.heap ha hb hab).resolve_left hne
    refine ⟨hin, hout, fun c hc hac => ?_⟩
    rcases hd₂.objects.moved h₁.heap hb hc (hac.trans hab.symm) with he | ⟨hin', -⟩
    · exact he
    · exact absurd (hout.symm.trans hin') Bool.false_ne_true
  · have h := msManager_sparing.endures hw
    exact (ms_run_descends h hrun).2.moved h.heap ha hb hab

/-- `genHandle` after a minor collection, and after a full one next. -/
def genHandleMinor : GenWorld := (genCall .collectMinor genHandle.1).1

def genHandleFull : GenWorld := (genCall .collectFull genHandleMinor).1

/-- A call under mark-sweep. -/
def msCall (op : ClientOp) (w : MsWorld) : MsWorld × Addr :=
  ((op.perform msCollector w).1.cleared, (op.perform msCollector w).2)

/-- A cell with a handle under mark-sweep. -/
def msCell : MsWorld × Addr := msCall (.alloc cell 24 0) msStart

def msHandle : MsWorld × Addr := msCall (.acquire msCell.2 0) msCell.1

theorem msCell_spared : msCollector.SparedStep msSpared msStart (.alloc cell 24 0) msCell.1 :=
  ⟨⟨cell_ok, by decide +kernel⟩, .inr (by decide +kernel), by rw [msCell, msCall]⟩

theorem genCell_spared : genCollector.SparedStep genSpared genStart (.alloc cell 24 0) genCell.1 :=
  ⟨⟨cell_ok, by decide +kernel⟩, ⟨fun hc => absurd hc (by decide +kernel),
    .inr (by decide +kernel)⟩, by rw [genCell, genCall]⟩

theorem genHandle_endures : genCollector.Endures genSpared genHandle.1 := by
  have hhandle : genCollector.SparedStep genSpared genCell.1 (.acquire genCell.2 0) genHandle.1 :=
    ⟨.inr (by decide +kernel), trivial, by rw [genHandle, genCall]⟩
  exact (genStart_starts.endures.step _ genCell_spared).step _ hhandle

theorem genHandleMinor_step :
    genCollector.SparedStep genSpared genHandle.1 .collectMinor genHandleMinor :=
  ⟨trivial, (gcGenCollectMinorImpl_granted (genManager_sparing.endures genHandle_endures)
    (by decide +kernel) (by decide +kernel)).1, by rw [genHandleMinor, genCall]⟩

theorem genHandleFull_step :
    genCollector.SparedStep genSpared genHandleMinor .collectFull genHandleFull :=
  ⟨trivial, gcGenCollectFullImpl_granted
    (genManager_sparing.endures (genHandle_endures.step _ genHandleMinor_step)) (by decide +kernel),
    by rw [genHandleFull, genCall]⟩

theorem msHandle_endures : msCollector.Endures msSpared msHandle.1 := by
  have hhandle : msCollector.SparedStep msSpared msCell.1 (.acquire msCell.2 0) msHandle.1 :=
    ⟨.inr (by decide +kernel), trivial, by rw [msHandle, msCall]⟩
  exact (msStart_starts.endures.step _ msCell_spared).step _ hhandle

/-- The first collection has moved the cell, the second one has not, and neither does mark-sweep. -/
theorem moved_once_sample :
    genHandleFull.graph.target genHandle.2 = genHandleMinor.graph.target genHandle.2 ∧
      (msCall .collectFull msHandle.1).1.graph.target msHandle.2 = msCell.2 := by
  have hmark : msCollector.SparedStep msSpared msHandle.1 .collectFull
      (msCall .collectFull msHandle.1).1 :=
    ⟨trivial, markSpared_of_nil (by decide +kernel), by rw [msCall]⟩
  constructor
  · exact (moved_once.1 genHandle.1 genHandleMinor genHandleFull _ _ genHandle_endures
      (.single genHandleMinor_step) (.single genHandleFull_step) genCell.2 (by decide +kernel)
      (genHandleMinor.graph.target genHandle.2) (by decide +kernel) (by decide +kernel)
      (by decide +kernel)).2.2 _ (by decide +kernel) (by decide +kernel)
  · exact moved_once.2 msHandle.1 _ _ msHandle_endures (.single hmark) msCell.2 (by decide +kernel)
      _ (by decide +kernel) (by decide +kernel)

end Xgc
