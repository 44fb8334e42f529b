import Xgc.Algo.MarkSweepSpec
import Xgc.Heap.Finalizer

/-! `gc_marksweep_sweep` when finalizers allocate. The loop holds a pointer to the place that points to
    the node at hand: the head of `state->objects`, where allocations put their nodes, or the field
    `next` of the last survivor. -/

namespace Xgc

/-- A finalizer's call of `gc_alloc_typed`, with what it does with the result. -/
def msFinalizerCall (w : MsWorld) (c : FinalizerCall) : MsWorld :=
  let r := gcAllocTyped gcMarksweepStwVtable w c.desc c.size c.flags
  c.store r.1 r.2

/-- The calls of the finalizer of the object with number `tag`. -/
def msFinalize (fin : Finalizers) (w : MsWorld) (tag : Nat) : MsWorld :=
  (fin tag).foldl msFinalizerCall w

/-- The nodes that `*link` leads to. `link` is `&state->objects`, given by `none`, or `&node->next`,
    given by the object of the node. -/
def afterLink (nodes : List GcNode) : Option Addr → List GcNode
  | none => nodes
  | some a => (nodes.dropWhile fun n => n.obj ≠ a).tail

/-- `*link = next` -/
def setLink (nodes : List GcNode) (link : Option Addr) (next : List GcNode) : List GcNode :=
  nodes.take (nodes.length - (afterLink nodes link).length) ++ next

/-- The loop of `gc_marksweep_sweep`, and the objects of the nodes that it visits. There is no result
    when it goes on for more than `fuel` rounds. -/
def gcMarksweepSweepWith (fin : Finalizers) :
    Nat → Option Addr → MsWorld → Option (List Addr × MsWorld)
  | 0, _, _ => none
  | fuel + 1, link, w =>
    match afterLink w.algoState.objects link with
    | [] => some ([], w)
    | node :: next =>
      (if node.marked then
        gcMarksweepSweepWith fin fuel (some node.obj) { w with algoState :=
          { objects := setLink w.algoState.objects link ({ node with marked := false } :: next) } }
      else
        gcMarksweepSweepWith fin fuel link
          (gcReclaimObjectWith (msFinalize fin) { w with algoState :=
            { objects := setLink w.algoState.objects link next } } node.obj)).map
        fun r => (node.obj :: r.1, r.2)

/-- The runtime in which the sweep of a collection starts. -/
def MsWorld.swept (w : MsWorld) : MsWorld :=
  let ctx := w.markCtx w.algoState.objects
  let ctx := gcMarksweepMarkHandleRoots w.graph ctx
  let ctx := markRoots w.graph ctx
  let r := gcMarksweepDrainWorklist w.graph w.algoState.objects.length ctx
  { w.marked r with algoState := { objects := r.1.nodes } }

/-! ### The place that the loop is at -/

/-- The pointer behind the nodes `pre`. -/
def linkOf (pre : List GcNode) : Option Addr := pre.getLast?.map GcNode.obj

theorem linkOf_concat (pre : List GcNode) (n : GcNode) : linkOf (pre ++ [n]) = some n.obj := by
  simp [linkOf]

/-- There the loop is at the rest of the list. -/
theorem afterLink_append {pre rest : List GcNode} (hn : ((pre ++ rest).map GcNode.obj).Nodup) :
    afterLink (pre ++ rest) (linkOf pre) = rest := by
  rcases List.eq_nil_or_concat' pre with rfl | ⟨before, last, rfl⟩
  · rfl
  · have hbefore : ∀ n ∈ before, n.obj ≠ last.obj := by
      intro n hn' he
      rw [List.append_assoc, List.map_append] at hn
      exact (List.nodup_append.mp hn).2.2 _ (List.mem_map_of_mem hn') last.obj (by simp) he
    have hdrop : (before ++ last :: rest).dropWhile (fun n => n.obj ≠ last.obj) = last :: rest := by
      rw [List.dropWhile_append_of_pos (by simpa using hbefore)]
      simp
    rw [List.append_assoc, linkOf_concat]
    exact congrArg List.tail hdrop

/-- Setting the pointer there exchanges the rest of the list. -/
theorem setLink_append {pre rest : List GcNode} (hn : ((pre ++ rest).map GcNode.obj).Nodup)
    (next : List GcNode) :
    setLink (pre ++ rest) (linkOf pre) next = pre ++ next := by
  simp [setLink, afterLink_append hn]

theorem gcReclaimObject_algoState (w : MsWorld) (s : MsState) (a : Addr) :
    gcReclaimObject { w with algoState := s } a = { gcReclaimObject w a with algoState := s } := by
  unfold gcReclaimObject
  split
  · rfl
  · cases w.graph.objs a <;> rfl

theorem sweepNodes_algoState (s : MsState) : ∀ (nodes : List GcNode) (w : MsWorld),
    sweepNodes gcReclaimObject nodes { w with algoState := s } =
      ((sweepNodes gcReclaimObject nodes w).1,
        { (sweepNodes gcReclaimObject nodes w).2 with algoState := s })
  | [], _ => rfl
  | node :: nodes, w => by
      unfold sweepNodes
      split
      · simp only [sweepNodes_algoState s nodes w]
      · rw [gcReclaimObject_algoState, sweepNodes_algoState s nodes]

/-- With finalizers that make no calls the loop is the sweep. -/
theorem gcMarksweepSweepWith_nil : ∀ (rest pre : List GcNode) {fuel : Nat} {w : MsWorld},
    w.algoState.objects = pre ++ rest → ((pre ++ rest).map GcNode.obj).Nodup → rest.length < fuel →
    gcMarksweepSweepWith (fun _ => []) fuel (linkOf pre) w =
      some (rest.map GcNode.obj,
        { (sweepNodes gcReclaimObject rest w).2 with
          algoState := { objects := pre ++ (sweepNodes gcReclaimObject rest w).1 } })
  | _, _, 0, _, _, _, hfuel => absurd hfuel (Nat.not_lt_zero _)
  | [], pre, fuel + 1, w, hobjs, hn, _ => by
      have hat := afterLink_append hn
      simp only [gcMarksweepSweepWith, hobjs, hat, sweepNodes]
      rw [← hobjs]
      rfl
  | node :: next, pre, fuel + 1, w, hobjs, hn, hfuel => by
      have hfuel' : next.length < fuel := Nat.lt_of_succ_lt_succ hfuel
      simp only [gcMarksweepSweepWith, hobjs, afterLink_append hn, setLink_append hn]
      by_cases hm : node.marked = true
      · have ih := gcMarksweepSweepWith_nil next (pre ++ [{ node with marked := false }])
          (w := { w with algoState := { objects := pre ++ { node with marked := false } :: next } })
          (by simp) (by simpa using hn) hfuel'
        rw [linkOf_concat] at ih
        rw [if_pos hm, ih, sweepNodes_algoState]
        simp [sweepNodes, hm]
      · have hn' : ((pre ++ next).map GcNode.obj).Nodup :=
          hn.sublist (((List.sublist_cons_self node next).append_left pre).map _)
        have hreclaim : gcReclaimObjectWith (msFinalize fun _ => [])
            { w with algoState := { objects := pre ++ next } } node.obj =
            { gcReclaimObject w node.obj with algoState := { objects := pre ++ next } } := by
          rw [← gcReclaimObject_algoState]
          exact gcReclaimObjectWith_id _ _
        have ih := gcMarksweepSweepWith_nil next pre
          (w := { gcReclaimObject w node.obj with algoState := { objects := pre ++ next } })
          rfl hn' hfuel'
        rw [if_neg hm, hreclaim, ih, sweepNodes_algoState]
        simp [sweepNodes, hm]

/-- Without such finalizers a collection ends with this loop. -/
theorem gcMarksweepCollectFullImpl_eq {w : MsWorld} (hb : w.stateBound = true)
    (hn : (w.swept.algoState.objects.map GcNode.obj).Nodup) :
    gcMarksweepSweepWith (fun _ => []) (w.swept.algoState.objects.length + 1) none w.swept =
      some (w.swept.algoState.objects.map GcNode.obj, gcMarksweepCollectFullImpl w) := by
  have hsweep := gcMarksweepSweepWith_nil w.swept.algoState.objects [] (w := w.swept) rfl hn
    (Nat.lt_succ_self _)
  refine hsweep.trans ?_
  unfold gcMarksweepCollectFullImpl
  rw [if_neg (by simp [hb])]
  rfl

end Xgc
