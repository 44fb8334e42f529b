import Xgc.Heap.Client

/-! Finalizers that call `gc_alloc_typed` and store what they get in root slots. An object's finalizer
    belongs to the client: it is given by the calls that it makes, by the number of the object. -/

namespace Xgc

variable {σ : Type}

/-- A call of `gc_alloc_typed` by a finalizer, which then fills the object with `bytes` and stores it
    in the root slot `root`. -/
structure FinalizerCall where
  desc : GcDescriptor
  size : Nat
  flags : BitVec 32
  bytes : Nat → UInt8
  root : Nat

/-- The calls that the finalizer of an object makes, by the number of the object. -/
abbrev Finalizers := Nat → List FinalizerCall

/-- What a finalizer does with the object that it is given. -/
def FinalizerCall.store (c : FinalizerCall) (w : World σ) (a : Addr) : World σ :=
  let graph := if a = 0 then w.graph else w.graph.modifyObj a fun o => { o with bytes := c.bytes }
  { w with graph := graph.write (.root c.root) a }

/-- `gc_reclaim_object` with a finalizer that is called. After the call the header is read again. -/
def gcReclaimObjectWith (finalize : World σ → Nat → World σ) (w : World σ) (obj : Addr) : World σ :=
  if obj = 0 then w
  else
    match w.graph.objs obj with
    | none => w.fail
    | some o =>
      let w :=
        if o.hasFinalizer then
          finalize { w with graph := { w.graph with log := w.graph.log ++ [.finalize o.tag] } } o.tag
        else w
      match w.graph.objs obj with
      | none => w.fail
      | some o =>
        { w with
          graph := { w.graph.setObj obj none with log := w.graph.log ++ [.release o.tag] }
          stats := w.stats.sub o.size
          mem := w.mem.free obj }

/-- A finalizer that does nothing. -/
theorem gcReclaimObjectWith_id (w : World σ) (obj : Addr) :
    gcReclaimObjectWith (fun w _ => w) w obj = gcReclaimObject w obj := by
  unfold gcReclaimObjectWith gcReclaimObject
  split
  · rfl
  · cases ho : w.graph.objs obj with
    | none => rfl
    | some o =>
      cases hf : o.hasFinalizer with
      | false => simp [GcHeader.deathEvents, hf, ho]
      | true => simp [GcHeader.deathEvents, hf, ho, Graph.setObj]

/-- Storing a result changes no object but that. -/
theorem FinalizerCall.store_objs (c : FinalizerCall) (w : World σ) {a b : Addr}
    (h : a ≠ 0 → b ≠ a) : (c.store w a).graph.objs b = w.graph.objs b := by
  by_cases ha : a = 0
  · simp [store, Graph.write, ha]
  · simp [store, Graph.write, ha, h ha]

/-- The first object's finalizer allocates a cell and stores it in the first root slot. -/
def firstAllocates (flags : BitVec 32) : Finalizers := fun t =>
  if t = 0 then [{ desc := cell, size := 24, flags, bytes := fun _ => 1, root := 0 }] else []

end Xgc
