import Xgc.Algo.GenClient
import Xgc.Algo.MarkSweepSpec
import Xgc.Heap.Sparing

/-! What refused requests spare under the two algorithms: an allocation for which the framework takes
    no plain memory, and a collection that loses no live object. Runs of such calls keep the
    invariants, whatever else they are refused. -/

namespace Xgc

/-! ### Mark-sweep -/

/-- Marking has reached all that is reachable, whatever `gc_worklist_push` has dropped. -/
def MarkSpared (w : MsWorld) : Prop :=
  ∀ a, w.graph.Reachable a → liveThrough w.graph (gcMarksweepCollectFullImpl w).losses.marks a

/-- Marking from which nothing has been dropped. -/
theorem markSpared_of_nil {w : MsWorld} (h : (gcMarksweepCollectFullImpl w).losses.marks = []) :
    MarkSpared w := by
  intro a ha
  rw [h]
  exact (liveThrough_nil _ a).mpr ha

/-- What spares a call under mark-sweep. -/
def msSpared (w : MsWorld) : ClientOp → Prop
  | .alloc desc size flags =>
    let r := gcAllocTyped gcMarksweepStwVtable w desc size flags
    r.2 = 0 ∨ r.2 ∈ msCollector.tracked r.1
  | .collectMinor | .collectMajor | .collectFull => MarkSpared w
  | _ => True

theorem msManager_inv_quiet {w : MsWorld} (h : msManager.Inv w) {m : Mem} (hq : w.mem.Quiet m) :
    msManager.Inv { w with mem := m } :=
  (msManager_sound.inv_reshape h w.graph m (SameShape.of_objs rfl _) h.heap h.rt.runtime
    (h.owns.quiet hq)).1

/-- What has been refused may be forgotten. -/
theorem msManager_inv_cleared {w : MsWorld} (h : msManager.Inv w) : msManager.Inv w.cleared :=
  ⟨h.rt.reshape h.rt.runtime _, h.heap, h.owns.congr rfl rfl, { h.alg with }⟩

/-- A spared collection keeps exactly what is reachable, and the invariant. -/
theorem msManager_spared {w : MsWorld} (h : msManager.Inv w) (hs : MarkSpared w) {stats : GcStats}
    (htotal : stats.totalAllocated = (gcMarksweepCollectFullImpl w).stats.totalAllocated)
    (hpeak : stats.peakAllocated = (gcMarksweepCollectFullImpl w).stats.peakAllocated)
    (hclipped : stats.clipped = (gcMarksweepCollectFullImpl w).stats.clipped) :
    msManager.Inv (World.cleared { gcMarksweepCollectFullImpl w with stats }) ∧
      ∃ φ, Collected w.graph (gcMarksweepCollectFullImpl w).graph (msCollector.tracked w)
        (msCollector.tracked (gcMarksweepCollectFullImpl w)) {a | w.graph.Reachable a} φ := by
  obtain ⟨hinv, hc⟩ := gcMarksweepCollectFullImpl_spared h hs
  exact ⟨msManager_inv_cleared (msManager_inv_count hinv htotal hpeak hclipped), id, hc⟩

/-- Mark-sweep shows what it has to show of its spared calls. -/
theorem msManager_sparing : msManager.Sparing msSpared where
  sound := msManager_sound
  tracked _ := rfl
  cleared _ h := msManager_inv_cleared h
  alloc w desc size flags h hd hmax hs := by
    show msManager.Inv (gcAllocTyped gcMarksweepStwVtable w desc size flags).1.cleared ∧
      Outcome id (.alloc desc size flags) w.graph (msCollector.tracked w)
        (gcAllocTyped gcMarksweepStwVtable w desc size flags).2
        (gcAllocTyped gcMarksweepStwVtable w desc size flags).1.graph
        (msCollector.tracked (gcAllocTyped gcMarksweepStwVtable w desc size flags).1)
    simp only [msSpared] at hs
    rcases gcAllocTyped_ms_cases h desc hmax flags with
      ⟨m, hq, -, heq⟩ | ⟨hsize, a, m, hfit, hq, heq⟩ | ⟨a, m, hq, -, hfit, heq⟩
    · rw [heq]
      exact ⟨msManager_inv_cleared (msManager_inv_quiet h hq), .inr ⟨.inl rfl, rfl, _, _,
        .refl h.heap⟩⟩
    · rw [heq]
      obtain ⟨hinv, heff⟩ := msAllocated_spec h hd hsize hmax flags hfit hq
      exact ⟨msManager_inv_cleared hinv, .inl heff⟩
    · -- plain memory is not tracked
      rw [heq] at hs
      have hnew := msTracked_of_fits (msManager_inv_quiet h hq) hfit
      exact absurd (hs.resolve_left (Nat.pos_iff_ne_zero.mp hfit.1)) hnew
  minor w h hs := by
    let counted : GcStats := { (gcMarksweepCollectFullImpl w).stats with
      minorCollections := ((gcMarksweepCollectFullImpl w).stats.minorCollections + 1) % 2 ^ 64 }
    obtain ⟨hinv, φ, hc⟩ := @msManager_spared w h hs counted rfl rfl rfl
    exact ⟨hinv, _, φ, hc⟩
  major w h hs := msManager_spared h hs rfl rfl rfl
  full w h hs := msManager_spared h hs rfl rfl rfl

/-! ### The generational collector -/

/-- Marking the old objects after a minor collection has reached all that is reachable. -/
def OldMarkSpared (w : GenWorld) : Prop :=
  ∀ a, (gcGenCollectMinorImpl w).graph.Reachable a →
    liveThrough (gcGenCollectMinorImpl w).graph (gcGenCollectFullImpl w).losses.marks a

/-- What spares a call under the generational collector. -/
def genSpared (w : GenWorld) : ClientOp → Prop
  | .alloc desc size flags =>
    let r := gcAllocTyped gcGenCopyMsVtable w desc size flags
    (AllocCollects w size flags → MinorSpared w) ∧ (r.2 = 0 ∨ r.2 ∈ genCollector.tracked r.1)
  | .collectMinor => MinorSpared w
  | .collectMajor | .collectFull => MinorSpared w ∧ OldMarkSpared w
  | _ => True

variable {w : GenWorld}

/-- A spared minor collection is exact, and keeps the invariant. -/
theorem genManager_minor_spared (h : (genManager False).Inv w) (hs : MinorSpared w) :
    (genManager False).Inv (gcGenCollectMinorImpl w).cleared ∧
      ∃ φ, MinorExact w (gcGenCollectMinorImpl w) φ := by
  obtain ⟨φ, he⟩ := gcGenCollectMinorImpl_spared h hs
  obtain ⟨hok, hcap, -⟩ := gcGenCollectMinorImpl_ok h
  exact ⟨genManager_inv_nil hok.cleared (he.heapInv h) (hcap ▸ h.alg.capacity) False.elim rfl rfl
    rfl, φ, he⟩

/-- A spared full collection keeps exactly what is reachable, and the invariant. -/
theorem genManager_full_spared (h : (genManager False).Inv w)
    (hs : MinorSpared w ∧ OldMarkSpared w) :
    (genManager False).Inv (gcGenCollectFullImpl w).cleared ∧
      ∃ φ, Collected w.graph (gcGenCollectFullImpl w).graph (genCollector.tracked w)
        (genCollector.tracked (gcGenCollectFullImpl w)) {a | w.graph.Reachable a} φ := by
  obtain ⟨hok, hcap, -, φ, -, hc⟩ := gcGenCollectFullImpl_spared h hs.1 hs.2
  have htracked : genCollector.tracked (gcGenCollectFullImpl w) = (gcGenCollectFullImpl w).old :=
    tracked_nil hok.layout.tiles
  rw [htracked]
  exact ⟨genManager_inv_nil hok.cleared (hc.heapInv h.heap) (hcap ▸ h.alg.capacity) False.elim rfl
    rfl rfl, φ, hc⟩

theorem genManager_inv_cleared_count (h : (genManager tidy).Inv w.cleared) {stats : GcStats}
    (htotal : stats.totalAllocated = w.stats.totalAllocated)
    (hpeak : stats.peakAllocated = w.stats.peakAllocated)
    (hclipped : stats.clipped = w.stats.clipped) :
    (genManager tidy).Inv (World.cleared { w with stats }) :=
  genManager_inv_count (w := w.cleared) h htotal hpeak hclipped

/-- A spared allocation in the nursery, which may be preceded by a minor collection. -/
theorem genManager_alloc_young (h : (genManager False).Inv w) {desc : GcDescriptor} (hd : desc.Ok)
    {size : Nat} (hsize : sizeofHeader ≤ size) (hmax : size ≤ 2 ^ 32 - 8) {flags : BitVec 32}
    (hyoung : ForNursery w size flags) (hs : AllocCollects w size flags → MinorSpared w) :
    (genManager False).Inv
        (gcGenAllocYoung (withRoom w size flags) desc (alignedSize size)).1.cleared ∧
      Effect alignedSize (.alloc desc size flags) w.graph (genCollector.tracked w)
        (gcGenAllocYoung (withRoom w size flags) desc (alignedSize size)).2
        (gcGenAllocYoung (withRoom w size flags) desc (alignedSize size)).1.graph
        (genCollector.tracked
          (gcGenAllocYoung (withRoom w size flags) desc (alignedSize size)).1) := by
  have hstart : (genManager False).Inv (withRoom w size flags).cleared ∧
      ∃ keep φ, Collected w.graph (withRoom w size flags).graph (genCollector.tracked w)
        (genCollector.tracked (withRoom w size flags)) keep φ := by
    unfold withRoom
    split
    · next hc =>
      obtain ⟨hinv, φ, he⟩ := genManager_minor_spared h (hs hc)
      exact ⟨hinv, _, φ, he.collected⟩
    · exact ⟨genManager_inv_cleared h, _, _, .refl h.heap⟩
  obtain ⟨hinv, keep, φ, hc⟩ := hstart
  obtain ⟨hmin, hlt, -⟩ := alignedSize_spec hsize hmax
  obtain ⟨hinv', ha⟩ := gcGenAllocYoung_spec hinv hd hmin hlt
    (withRoom_spec h hsize hyoung).2.1 hyoung.1
  refine ⟨hinv', ?_⟩
  simp only [Effect, if_neg (Nat.not_lt.mpr hsize)]
  exact ⟨_, _, keep, φ, hc, ha⟩

/-- Plain memory is not tracked. -/
theorem genTracked_addObject (h : (genManager tidy).Inv w) {a n : Nat} (hfit : w.mem.Fits a n)
    (hn : 0 < n) (desc : GcDescriptor) (o : Nat → GcHeader) :
    a ∉ genCollector.tracked (w.addObject a desc o) := by
  obtain ⟨hold, hyoung, -⟩ := (genManager_ok h).fresh_of_fits hfit hn
  have hsizes : ∀ y ∈ nurseryObjects w,
      (w.addObject a desc o).graph.sizeAt y = w.graph.sizeAt y := by
    intro y hy
    have hne : y ≠ a := fun he => hyoung (he ▸ hy)
    simp [World.addObject, Graph.sizeAt, hne]
  have hsame : nurseryObjects (w.addObject a desc o) = nurseryObjects w :=
    (h.alg.layout.tiles.congr hsizes).walk h.alg.layout.tiles.length_le
  intro hmem
  rcases List.mem_append.mp hmem with hmem | hmem
  · exact hold hmem
  · exact hyoung (hsame ▸ hmem)

/-- The generational collector shows what it has to show of its spared calls. -/
theorem genManager_sparing : (genManager False).Sparing genSpared where
  sound := genManager_sound
  tracked _ := rfl
  cleared _ h := genManager_inv_cleared h
  alloc w desc size flags h hd hmax hs := by
    show (genManager False).Inv (gcAllocTyped gcGenCopyMsVtable w desc size flags).1.cleared ∧
      Outcome alignedSize (.alloc desc size flags) w.graph (genCollector.tracked w)
        (gcAllocTyped gcGenCopyMsVtable w desc size flags).2
        (gcAllocTyped gcGenCopyMsVtable w desc size flags).1.graph
        (genCollector.tracked (gcAllocTyped gcGenCopyMsVtable w desc size flags).1)
    obtain ⟨hminor, hs⟩ := hs
    rcases gcAllocTyped_gen_cases h desc hmax flags with
      ⟨m, b, hq, -, hb, hcards, -, heq⟩ | ⟨hsize, hyoung, heq⟩ |
      ⟨hsize, -, t, m, b, hfit, hq, hb, hcards, heq⟩ |
      ⟨hsize, -, a, m, b, hq, -, hb, hcards, hfit, heq⟩
    · rw [heq]
      exact ⟨genManager_inv_cleared (genManager_inv_refused h hq hb hcards), .inr ⟨.inl rfl, rfl, _,
        _, .refl h.heap⟩⟩
    · rw [heq]
      obtain ⟨hinv, heff⟩ := genManager_alloc_young h hd hsize hmax hyoung hminor
      exact ⟨hinv, .inl heff⟩
    · rw [heq]
      obtain ⟨hmin, hlt, -⟩ := alignedSize_spec hsize hmax
      obtain ⟨hinv, ha⟩ := allocatedOld_spec h hd hmin hlt flags hfit hq hb hcards
      refine ⟨genManager_inv_cleared hinv, .inl ?_⟩
      simp only [Effect, if_neg (Nat.not_lt.mpr hsize)]
      exact ⟨_, _, _, _, .refl h.heap, ha⟩
    · -- plain memory is not tracked
      rw [heq] at hs
      have hpos : 0 < size := Nat.lt_of_lt_of_le (by decide) hsize
      have hinv := genManager_inv_refused h hq hb hcards
      exact absurd (hs.resolve_left (Nat.pos_iff_ne_zero.mp hfit.1)) (genTracked_addObject hinv hfit
        hpos desc _)
  minor w h hs := by
    obtain ⟨hinv, φ, he⟩ := genManager_minor_spared h hs
    exact ⟨genManager_inv_cleared_count hinv rfl rfl rfl, _, φ, he.collected⟩
  major w h hs := by
    obtain ⟨hinv, φ, hc⟩ := genManager_full_spared h hs
    exact ⟨genManager_inv_cleared_count hinv rfl rfl rfl, φ, hc⟩
  full w h hs := by
    obtain ⟨hinv, φ, hc⟩ := genManager_full_spared h hs
    exact ⟨genManager_inv_cleared_count hinv rfl rfl rfl, φ, hc⟩

/-! ### Runs in which nothing is refused -/

theorem genManager_cleared_eq (h : (genManager tidy).Inv w) (hg : w.Granted) : w.cleared = w := by
  obtain ⟨hf, hc, hm⟩ := hg
  have hmem : ({ w.mem with failed := false } : Mem) = w.mem := by rw [← hf]
  have hlosses : ({ refused := [], copies := [], marks := [], cards := false } : Losses) =
      ⟨w.losses.refused, w.losses.copies, w.losses.marks, w.losses.cards⟩ := by
    rw [h.alg.refused, hc, hm, h.alg.cards]
  rw [World.cleared, hmem, hlosses]

/-- A full collection none of whose requests is refused is spared. -/
theorem gcGenCollectFullImpl_granted (h : (genManager tidy).Inv w)
    (hg : (gcGenCollectFullImpl w).Granted) : MinorSpared w ∧ OldMarkSpared w := by
  classical
  obtain ⟨dropped, wl, m, b, heq, hfail, -, -⟩ := gcGenCollectFullImpl_spec h rfl
  obtain ⟨hf, hc, hmarks⟩ := hg
  rw [heq] at hf hc
  refine ⟨(gcGenCollectMinorImpl_granted h (hfail ▸ hf) hc).1, fun a ha => ?_⟩
  rw [hmarks]
  exact (liveThrough_nil _ a).mpr ha

/-- An allocation none of whose requests is refused is spared. -/
theorem gcAllocTyped_gen_granted (h : (genManager tidy).Inv w) {desc : GcDescriptor} (hd : desc.Ok)
    {size : Nat} (hmax : size ≤ 2 ^ 32 - 8) (flags : BitVec 32)
    (hg : (gcAllocTyped gcGenCopyMsVtable w desc size flags).1.Granted) :
    genSpared w (.alloc desc size flags) := by
  refine ⟨fun hc => ?_, ?_⟩
  · rcases gcAllocTyped_gen_cases h desc hmax flags with
      ⟨m, b, -, -, -, -, hno, -⟩ | ⟨-, -, heq⟩ | ⟨-, hno, -⟩ | ⟨-, hno, -⟩
    · exact absurd hc hno
    · have hroom : withRoom w size flags = gcGenCollectMinorImpl w := if_pos hc
      rw [heq] at hg
      exact (gcGenCollectMinorImpl_granted h (hroom ▸ hg.1) (hroom ▸ hg.2.1)).1
    · exact absurd hc hno
    · exact absurd hc hno
  · obtain ⟨-, heff⟩ := genManager_alloc h hd hmax flags hg
    by_cases hsmall : size < sizeofHeader
    · simp only [Effect, if_pos hsmall] at heff
      exact .inl heff.1
    · simp only [Effect, if_neg hsmall] at heff
      obtain ⟨g₁, tracked₁, keep, φ, -, ha⟩ := heff
      exact .inr (ha.perm.mem_iff.mpr (List.mem_cons_self ..))

/-- A run in which nothing is refused is a run of spared calls. -/
theorem genCollector_endures (hw : genCollector.Reaches w) : genCollector.Endures genSpared w := by
  have hsound : (genManager True).Sound := genManager_sound
  obtain ⟨w₀, ops, hstart, hrun⟩ := hw
  refine (hrun.invariant (P := fun w => (genManager True).Inv w ∧ genCollector.Endures genSpared w)
    (fun w op w' hs hst => ?_) ⟨hsound.start w₀ hstart, hstart.endures⟩).2
  obtain ⟨h, he⟩ := hs
  have hinv' := (hsound.lawful.step _ _ _ h hst).1
  obtain ⟨hl, rfl, hg⟩ := hst
  refine ⟨hinv', he.step op ⟨hl, ?_, genManager_cleared_eq hinv' hg⟩⟩
  cases op with
  | alloc desc size flags => exact gcAllocTyped_gen_granted h hl.1 hl.2 flags hg
  | collectMinor => exact (gcGenCollectMinorImpl_granted h hg.1 hg.2.1).1
  | collectMajor | collectFull => exact gcGenCollectFullImpl_granted h hg
  | storeRef | loadRef | writeBytes | setRoot | acquire | get | release => trivial

end Xgc
