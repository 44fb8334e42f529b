import Xgc.Algo.GenMinor

/-! The ways in which `gc_gen_add_old_node` and `gc_gen_promote` can end, in whatever state the heap
    is: either nothing has happened but for the spare room of the card table, or everything has. -/

namespace Xgc

/-- `w'` is `w` after requests that came to nothing. -/
structure NoTrace (w w' : GenWorld) : Prop where
  same : w' = { w with mem := w'.mem, barriers := w'.barriers }
  cards : w.barriers.SameButSpare w'.barriers
  blocks : w'.mem.blocks = w.mem.blocks

theorem NoTrace.refl (w : GenWorld) : NoTrace w w := ⟨rfl, .refl _, rfl⟩

theorem NoTrace.of_quiet (w : GenWorld) {m : Mem} (hq : w.mem.Quiet m) :
    NoTrace w { w with mem := m } :=
  ⟨rfl, .refl _, hq.blocks⟩

/-- The runtime after the object of `size` bytes at `obj` has been entered among the old ones. -/
def registered (w : GenWorld) (obj : Addr) (size : Nat) (m : Mem) (b : GcBarrierSet) : GenWorld :=
  { w with
    mem := m
    barriers := b
    heap := gcHeapRecordOldAlloc w.heap size
    algoState := { w.algoState with
      oldObjects := { obj, marked := false } :: w.algoState.oldObjects } }

theorem gcGenAddOldNode_ways (w : GenWorld) (obj : Addr) (size : Nat) :
    (∃ m b, gcGenAddOldNode w obj size = ({ w with mem := m, barriers := b }, false) ∧
      w.barriers.SameButSpare b ∧ w.mem.Quiet m) ∨
    ∃ m b, gcGenAddOldNode w obj size = (registered w obj size m b, true) ∧
      (b.owners = w.barriers.owners ∨ b.owners = w.barriers.owners ++ [obj]) ∧ w.mem.Quiet m := by
  unfold gcGenAddOldNode
  rcases w.mem.reserve_cases 24 with hr | hr
  · have hq := w.mem.quiet_tryReserve 24
    simp only [hr, Bool.not_true, Bool.false_eq_true, if_false]
    rcases GcBarrierSet.register_ways w.barriers obj size (w.mem.tryReserve 24).1 with
      ⟨b, m, hreg, hsame, hq'⟩ | ⟨b, m, hreg, howners, hq'⟩
    · exact .inl ⟨m, b, by simp only [hreg, Bool.not_false, if_true], hsame, hq.trans hq'⟩
    · refine .inr ⟨m, b, ?_, howners, hq.trans hq'⟩
      simp only [hreg, Bool.not_true, Bool.false_eq_true, if_false]
      rfl
  · refine .inl ⟨w.mem.refuse, w.barriers, ?_, .refl _, w.mem.quiet_refuse⟩
    simp only [hr, Bool.not_false, if_true]

/-- What `gc_gen_promote` has done when it has copied the object at `v` to `t`. -/
structure PromotedTo (ctx : GcGenMinorCtx) (v t : Addr) (o : GcHeader) (m : Mem) (b : GcBarrierSet)
    (wl : GcWorklist) : Prop where
  young : gcGenInNursery ctx.rt.algoState v = true
  fresh : ∀ u, ¬ Moved ctx.rt.fwd v u
  obj : ctx.rt.graph.objs v = some o
  fits : ctx.rt.mem.Fits t o.size
  blocks : m.blocks = (t, o.size) :: ctx.rt.mem.blocks
  owners : b.owners = ctx.rt.barriers.owners ∨ b.owners = ctx.rt.barriers.owners ++ [t]
  worklist : ∃ m₀ m₁ ok, gcWorklistPush ctx.wl t m₀ = (wl, m₁, ok)

theorem gcGenPromote_ways (ctx : GcGenMinorCtx) (v : Addr) :
    (∃ m b t refused, gcGenPromote ctx v =
        ({ ctx with rt := { ctx.rt with mem := m, barriers := b } }, t, refused) ∧
      ctx.rt.barriers.SameButSpare b ∧ m.blocks = ctx.rt.mem.blocks ∧
      (t = v ∨ Moved ctx.rt.fwd v t)) ∨
    ∃ t o m b losses wl, gcGenPromote ctx v =
        ({ rt := promoted ctx.rt v t o m b losses, wl }, t, false) ∧
      PromotedTo ctx v t o m b wl := by
  unfold gcGenPromote
  by_cases hin : gcGenInNursery ctx.rt.algoState v = true
  swap
  · exact .inl ⟨_, _, v, false, by simp only [hin, Bool.not_false, if_true], .refl _, rfl, .inl rfl⟩
  simp only [hin, Bool.not_true, Bool.false_eq_true, if_false]
  cases hf : gcGenFindForward ctx.rt.algoState v with
  | some e =>
    obtain ⟨he, rfl⟩ := Lib.mem_of_lookup hf
    exact .inl ⟨_, _, e.toObj, false, rfl, .refl _, rfl, .inr he⟩
  | none =>
    cases ho : ctx.rt.graph.objs v with
    | none => exact .inl ⟨_, _, v, false, rfl, .refl _, rfl, .inl rfl⟩
    | some o =>
      rcases ctx.rt.mem.malloc_cases o.size with hm | ⟨t, hfit, hm⟩
      · exact .inl ⟨ctx.rt.mem.refuse, _, v, true, by simp only [hm, if_true], .refl _, rfl,
          .inl rfl⟩
      simp only [hm, if_neg (Nat.pos_iff_ne_zero.mp hfit.1)]
      rcases (ctx.rt.mem.grant t o.size).reserve_cases 24 with hr | hr
      swap
      · have hq := Mem.quiet_grant_free hfit (Mem.quiet_refuse _)
        exact .inl ⟨(ctx.rt.mem.grant t o.size).refuse.free t, _, v, true,
          by simp only [hr, Bool.not_false, if_true], .refl _, hq.blocks, .inl rfl⟩
      have hq := (ctx.rt.mem.grant t o.size).quiet_tryReserve 24
      simp only [hr, Bool.not_true, Bool.false_eq_true, if_false]
      rcases gcGenAddOldNode_ways
        { ctx.rt with mem := ((ctx.rt.mem.grant t o.size).tryReserve 24).1 } t o.size with
        ⟨m, b, hadd, hsame, hq'⟩ | ⟨m, b, hadd, howners, hq'⟩
      · have hback := Mem.quiet_grant_free hfit (hq.trans hq')
        exact .inl ⟨m.free t, b, v, true, by simp only [hadd, Bool.not_false, if_true], hsame,
          hback.blocks, .inl rfl⟩
      · have hpush := GcWorklist.quiet_push ctx.wl t m
        simp only [hadd, Bool.not_true, Bool.false_eq_true, if_false]
        refine .inr ⟨t, o, _, b, _, _, rfl, hin, findForward_none.mp hf, ho, hfit, ?_, howners,
          m, _, _, rfl⟩
        exact hpush.blocks.trans (hq.trans hq').blocks

end Xgc
