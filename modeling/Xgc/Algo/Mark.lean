import Xgc.Core.Runtime

/-! The marking and sweeping that both algorithms do over a linked list of tracked objects.

    `gc_ms_node` and `gc_gen_old_node` have the same fields, and the functions that mark them differ
    in their names only; the functions of `ms.c` and `young_copy.c` are these definitions. A slot is
    only read while marking, so a callback is given the reference that the slot holds. -/

namespace Xgc

open Lib (lookup update)

/-- `gc_ms_node` and `gc_gen_old_node`: a tracked object and its mark. -/
structure GcNode where
  obj : Addr
  marked : Bool

/-- What marking changes: the list of tracked objects, the worklist and the allocator. `dropped`
    records the tags of the objects that `gc_worklist_push` dropped. -/
structure MarkCtx where
  nodes : List GcNode
  wl : GcWorklist
  mem : Mem
  dropped : List Nat

/-- `gc_marksweep_mark_object` and `gc_gen_mark_old` -/
def markObject (g : Graph) (ctx : MarkCtx) (obj : Addr) : MarkCtx :=
  if obj = 0 then ctx
  else
    match lookup GcNode.obj obj ctx.nodes with
    | none => ctx
    | some node =>
      if node.marked then ctx
      else
        let nodes := update GcNode.obj obj (fun n => { n with marked := true }) ctx.nodes
        let (wl, mem, pushed) := gcWorklistPush ctx.wl obj ctx.mem
        { nodes, wl, mem, dropped := if pushed then ctx.dropped else ctx.dropped ++ [g.tagAt obj] }

/-- An object that is tracked and not marked yet is marked and pushed; everything else is left alone. -/
theorem markObject_cases (g : Graph) (ctx : MarkCtx) (obj : Addr) :
    (markObject g ctx obj = ctx ∧
      ∀ node, obj ≠ 0 → lookup GcNode.obj obj ctx.nodes = some node → node.marked = true) ∨
    ∃ node, obj ≠ 0 ∧ lookup GcNode.obj obj ctx.nodes = some node ∧ node.marked = false ∧
      markObject g ctx obj =
        { nodes := update GcNode.obj obj (fun n => { n with marked := true }) ctx.nodes
          wl := (gcWorklistPush ctx.wl obj ctx.mem).1
          mem := (gcWorklistPush ctx.wl obj ctx.mem).2.1
          dropped := if (gcWorklistPush ctx.wl obj ctx.mem).2.2 then ctx.dropped
            else ctx.dropped ++ [g.tagAt obj] } := by
  by_cases h0 : obj = 0
  · exact .inl ⟨if_pos h0, fun _ hne => absurd h0 hne⟩
  cases hl : lookup GcNode.obj obj ctx.nodes with
  | none =>
    refine .inl ⟨?_, fun node _ hn => nomatch hn⟩
    simp only [markObject, if_neg h0, hl]
  | some node =>
    by_cases hm : node.marked = true
    · refine .inl ⟨?_, fun n _ hn => Option.some.inj hn ▸ hm⟩
      simp only [markObject, if_neg h0, hl, hm, if_true]
    · refine .inr ⟨node, h0, rfl, Bool.eq_false_iff.mpr hm, ?_⟩
      simp only [markObject, if_neg h0, hl, if_neg hm]

/-- Mark the references that a list of slots holds, one after the other. -/
def markAll (g : Graph) (ctx : MarkCtx) (refs : List Addr) : MarkCtx :=
  refs.foldl (markObject g) ctx

/-- `gc_marksweep_mark_handle_roots` and `gc_gen_mark_handles` -/
def markHandles (g : Graph) (ctx : MarkCtx) : MarkCtx :=
  markAll g ctx (g.handles.map GcHandle.target)

/-- `scan_roots` with `gc_marksweep_mark_root_slot` or `gc_gen_mark_root_slot` -/
def markRoots (g : Graph) (ctx : MarkCtx) : MarkCtx :=
  match g.hooks.scanRoots with
  | some scan => markAll g ctx ((scan g.roots).map g.roots)
  | none => ctx

/-- `trace_slots` with `gc_marksweep_mark_child_slot` or `gc_gen_mark_child_slot` -/
def markChildren (g : Graph) (ctx : MarkCtx) (obj : Addr) : MarkCtx :=
  match g.objs obj with
  | none => { ctx with mem := { ctx.mem with fault := true } }
  | some o => markAll g ctx (o.tracedSlots.map o.slots)

/-- `gc_marksweep_drain_worklist` and `gc_gen_mark_drain`; the flag says that the loop was cut off
    after `fuel` rounds. -/
def markDrain (g : Graph) : Nat → MarkCtx → MarkCtx × Bool
  | 0, ctx => (ctx, decide ((gcWorklistPop ctx.wl).2 ≠ 0))
  | fuel + 1, ctx =>
    let (wl, obj) := gcWorklistPop ctx.wl
    if obj = 0 then (ctx, false) else markDrain g fuel (markChildren g { ctx with wl } obj)

theorem markDrain_nil {g : Graph} {ctx : MarkCtx} (hwl : ctx.wl.Ok) (hi : ctx.wl.items = [])
    (fuel : Nat) : markDrain g fuel ctx = (ctx, false) := by
  have hpop := GcWorklist.pop_nil hwl hi
  cases fuel <;> simp [markDrain, hpop]

theorem markDrain_cons {g : Graph} {ctx : MarkCtx} {wl : GcWorklist} {obj : Addr}
    (hpop : gcWorklistPop ctx.wl = (wl, obj)) (h0 : obj ≠ 0) (fuel : Nat) :
    markDrain g (fuel + 1) ctx = markDrain g fuel (markChildren g { ctx with wl } obj) := by
  simp [markDrain, hpop, h0]

/-- The whole mark phase. Every object is pushed at most once, so there are no more rounds than
    tracked objects. -/
def markPhase (g : Graph) (ctx : MarkCtx) : MarkCtx × Bool :=
  markDrain g ctx.nodes.length (markRoots g (markHandles g ctx))

/-- The loop of `gc_marksweep_sweep` and `gc_gen_sweep_old`: marked nodes stay, with a cleared
    mark, and the objects of the others are reclaimed. -/
def sweepNodes {σ : Type} (reclaim : World σ → Addr → World σ) :
    List GcNode → World σ → List GcNode × World σ
  | [], w => ([], w)
  | node :: nodes, w =>
    if node.marked then
      let (kept, w) := sweepNodes reclaim nodes w
      ({ node with marked := false } :: kept, w)
    else sweepNodes reclaim nodes (reclaim w node.obj)

/-- The context that a mark phase over `nodes` starts with. -/
def World.markCtx {σ : Type} (w : World σ) (nodes : List GcNode) : MarkCtx :=
  { nodes, wl := w.worklist, mem := w.mem, dropped := [] }

/-- The runtime after a mark phase: it keeps the grown buffer of the worklist. -/
def World.marked {σ : Type} (w : World σ) (r : MarkCtx × Bool) : World σ :=
  { w with
    mem := r.1.mem
    worklistData := r.1.wl.data
    worklistCapacity := r.1.wl.capacity
    losses := { w.losses with marks := w.losses.marks ++ r.1.dropped }
    hung := w.hung || r.2 }

end Xgc
