import Xgc.Algo.GenLayout

/-! `gc_gen_promote` on a young object that has not been copied yet: it is copied into an old object
    of its own, or a request was refused and nothing has changed. -/

namespace Xgc

open Lib (Block)

/-- The runtime after the young object `o` at `v` has been copied to `t`. -/
def promoted (w : GenWorld) (v t : Addr) (o : GcHeader) (m : Mem) (b : GcBarrierSet)
    (losses : Losses) : GenWorld :=
  { w with
    graph := w.graph.setObj t (some o)
    mem := m
    barriers := b
    heap := gcHeapRecordOldAlloc w.heap o.size
    stats := w.stats.add o.size
    algoState := { w.algoState with
      oldObjects := { obj := t, marked := false } :: w.algoState.oldObjects
      forwarded := { fromObj := v, toObj := t } :: w.algoState.forwarded }
    losses }

/-- What is left of a copy: it is on the worklist, or its push was dropped. -/
def Pushed (w : GenWorld) (wl : GcWorklist) (t : Addr) (o : GcHeader) (losses : Losses)
    (wl' : GcWorklist) : Prop :=
  (losses = w.losses ∧ wl'.items = t :: wl.items) ∨
    (losses = { w.losses with copies := w.losses.copies ++ [o.tag] } ∧ wl' = wl)

variable {w : GenWorld} {ys : List Nat} {wl : GcWorklist}

theorem gcGenPromote_cases (h : GenOk w ys) (hwl : wl.Ok) {v : Nat} (hv : v ∈ ys) {o : GcHeader}
    (ho : w.graph.objs v = some o) (hnew : gcGenFindForward w.algoState v = none) :
    (∃ b m, gcGenPromote { rt := w, wl } v =
        ({ rt := { w with mem := m, barriers := b }, wl }, v, true) ∧
      m.failed = true ∧ GenOk { w with mem := m, barriers := b } ys ∧ SameCards w.barriers b) ∨
    ∃ t b m losses wl', gcGenPromote { rt := w, wl } v =
        ({ rt := promoted w v t o m b losses, wl := wl' }, t, false) ∧
      w.mem.Fits t o.size ∧ GenOk (promoted w v t o m b losses) ys ∧
      (∀ o c, b.Dirty o c ↔ w.barriers.Dirty o c) ∧
      b.oldToYoung.cardGranularity = w.barriers.oldToYoung.cardGranularity ∧
      (m.failed = false → w.mem.failed = false) ∧ wl'.Ok ∧ Pushed w wl t o losses wl' := by
  have hsized := h.layout.sized v (List.mem_append_right _ hv)
  rw [Graph.sizeAt_eq ho] at hsized
  have hpos : 0 < o.size := by
    unfold sizeofHeader at hsized
    omega
  unfold gcGenPromote
  simp only [h.inNursery_young hv, hnew, ho, Bool.not_true, Bool.false_eq_true, if_false]
  -- the copy, the room to forward to it, its node and its entry: the first refusal ends the attempt
  rcases w.mem.malloc_cases o.size with hm | ⟨t, hfit, hm⟩
  · refine .inl ⟨w.barriers, w.mem.refuse, by simp only [hm, if_true], rfl, ?_, ?_⟩
    · exact h.setBarriers (h.owns.quiet w.mem.quiet_refuse) h.rt.barriers
        (fun _ _ => Iff.rfl) rfl
    · exact ⟨fun _ _ => Iff.rfl, fun _ _ => Iff.rfl, rfl⟩
  have ht0 : t ≠ 0 := Nat.pos_iff_ne_zero.mp hfit.1
  have hgrant := h.owns.grant hfit
  simp only [hm, if_neg ht0]
  rcases (w.mem.grant t o.size).reserve_cases 24 with hr | hr
  · have hq₁ := (w.mem.grant t o.size).quiet_tryReserve 24
    simp only [hr, Bool.not_true, Bool.false_eq_true, if_false]
    set m₁ := ((w.mem.grant t o.size).tryReserve 24).1 with hm₁
    have hfresh := h.fresh_of_fits hfit hpos
    have howner : t ∉ w.barriers.owners := fun hmem => hfresh.1 ((owners_iff h.layout t).mp hmem)
    rcases gcGenAddOldNode_cases (w := { w with mem := m₁ }) h.rt.barriers ht0
        (Nat.pos_iff_ne_zero.mp hpos) hsized.2 howner with
      ⟨b, m, hadd, hq, hb, hcards⟩ | ⟨b, m, hadd, hq, hfail, hb, hcards⟩
    · simp only [hadd, Bool.not_true, Bool.false_eq_true, if_false]
      have hsizes : ∀ a ∈ w.algoState.oldObjects.map GcNode.obj ++ ys,
          (w.graph.setObj t (some o)).sizeAt a = w.graph.sizeAt a := by
        intro a ha
        have hat : a ≠ t := by
          rintro rfl
          rcases List.mem_append.mp ha with ha | ha
          · exact hfresh.1 ha
          · exact hfresh.2.1 ha
        simp [Graph.sizeAt, hat]
      have hself : (w.graph.setObj t (some o)).sizeAt t = o.size := by
        simp [Graph.sizeAt]
      have hok : ∀ m' losses, m.Quiet m' → GenOk (promoted w v t o m' b losses) ys :=
        fun m' losses hq' => h.addOld hfit hsized.1 hsized.2 ((hq₁.trans hq).trans hq') hb hcards
          hsizes hself rfl
      have hfailed : ∀ m', m.Quiet m' → m'.failed = false → w.mem.failed = false :=
        fun m' hq' hf => ((hq₁.trans hq).trans hq').failed hf
      -- a copy that the worklist drops is a copy all the same
      rcases GcWorklist.push_cases hwl ht0 m with
        ⟨wl', m', hpush, hwl', hitems, k, rfl⟩ | ⟨k, hpush⟩
      · have hq' : m.Quiet { m with calls := k } := ⟨rfl, rfl, rfl, id⟩
        refine .inr ⟨t, b, _, w.losses, wl', ?_, hfit, hok _ _ hq', hcards.dirty,
          hcards.granularity, hfailed _ hq', hwl', .inl ⟨rfl, hitems⟩⟩
        simp only [hpush, if_true]
        rfl
      · have hq' : m.Quiet { m with calls := k } := ⟨rfl, rfl, rfl, id⟩
        refine .inr ⟨t, b, _, { w.losses with copies := w.losses.copies ++ [o.tag] }, wl, ?_, hfit,
          hok _ _ hq', hcards.dirty, hcards.granularity, hfailed _ hq', hwl, .inr ⟨rfl, rfl⟩⟩
        simp only [hpush, Bool.false_eq_true, if_false]
        rfl
    · simp only [hadd, Bool.not_false, if_true]
      refine .inl ⟨b, m.free t, rfl, by rw [Mem.free_failed]; exact hfail, ?_, hcards⟩
      exact h.setBarriers ((hgrant.quiet (hq₁.trans hq)).free) hb hcards.size
        hcards.granularity
  · simp only [hr, Bool.not_false, if_true]
    refine .inl ⟨w.barriers, ((w.mem.grant t o.size).refuse).free t, rfl,
      Mem.free_failed _ _, ?_, ?_⟩
    · exact h.setBarriers ((hgrant.quiet (Mem.quiet_refuse _)).free) h.rt.barriers
        (fun _ _ => Iff.rfl) rfl
    · exact ⟨fun _ _ => Iff.rfl, fun _ _ => Iff.rfl, rfl⟩

end Xgc
