import Xgc.Heap.Client

/-! What a mutator program computes, told without addresses and without a collector.

    A program gets at objects along paths from its root slots and handles. `ProgState` is the meaning
    of such a program: all objects that it has ever allocated, by the number of their allocation, and
    what its roots and handles lead to. Collections do not change it. `Refines` says that a heap
    holds at least the part of such a state that the program can still get at; every call of a
    lawful collector keeps it. -/

namespace Xgc

open Lib (Run)

/-- A way to get at an object: from a root slot, from the `n`th handle that the program has acquired,
    or through a slot of another object. -/
inductive Path where
  | root (i : Nat)
  | handle (n : Nat)
  | slot (p : Path) (loc : SlotLoc)

/-- A step of a mutator program; `none` stands for `NULL`. -/
inductive ProgOp where
  | alloc (i : Nat) (desc : GcDescriptor) (size : Nat) (flags : BitVec 32)
  | store (owner : Path) (loc : SlotLoc) (value : Option Path)
  | write (obj : Path) (bytes : Nat → UInt8)
  | setRoot (i : Nat) (value : Option Path)
  | acquire (obj : Path) (flags : BitVec 32)
  | release (n : Nat)
  | collectMinor
  | collectMajor
  | collectFull

/-! ### The meaning of a program -/

/-- An object as the program knows it. -/
structure ProgObj where
  desc : GcDescriptor
  size : Nat
  flags : BitVec 16
  kind : Nat
  bytes : Nat → UInt8
  slots : SlotLoc → Option Nat

/-- A handle as the program knows it: its number and what it leads to. -/
structure ProgHandle where
  name : Nat
  target : Nat
  flags : BitVec 32

/-- The state of a program. Objects are numbered in the order of their allocation, handles in the
    order in which they were acquired. -/
structure ProgState where
  objs : List ProgObj
  roots : Nat → Option Nat
  handles : List ProgHandle
  acquired : Nat

namespace ProgState

/-- Before the first step. -/
def init : ProgState := { objs := [], roots := fun _ => none, handles := [], acquired := 0 }

/-- What a path leads to. -/
def eval (s : ProgState) : Path → Option Nat
  | .root i => s.roots i
  | .handle n => (s.handles.find? fun k => k.name = n).map ProgHandle.target
  | .slot p loc => (s.eval p).bind fun t => s.objs[t]?.bind fun x => x.slots loc

/-- Change an object. -/
def modify (s : ProgState) (t : Nat) (f : ProgObj → ProgObj) : ProgState :=
  { s with objs := s.objs.modify t f }

/-- A new object. -/
def push (s : ProgState) (desc : GcDescriptor) (size : Nat) (flags : BitVec 16) : ProgState :=
  { s with objs := s.objs ++
      [{ desc, size, flags, kind := desc.kind, bytes := fun _ => 0, slots := fun _ => none }] }

/-- Put a reference into a root slot. -/
def setRoot (s : ProgState) (i : Nat) (v : Option Nat) : ProgState :=
  { s with roots := Function.update s.roots i v }

/-- A new handle, which pins its object. -/
def pushHandle (s : ProgState) (t : Nat) (flags : BitVec 32) : ProgState :=
  { s.modify t fun x => { x with flags := x.flags ||| objectFlagPinned } with
    handles := { name := s.acquired, target := t, flags } :: s.handles }

/-- The end of a handle, which unpins its object. -/
def popHandle (s : ProgState) (k : ProgHandle) : ProgState :=
  { s.modify k.target fun x => { x with flags := x.flags &&& ~~~objectFlagPinned } with
    handles := s.handles.eraseP fun k' => k'.name = k.name }

/-- The effect of a step; a collection has none. -/
def step (s : ProgState) : ProgOp → ProgState
  | .alloc i desc size flags =>
    if size < sizeofHeader then s.setRoot i none
    else (s.push desc size (allocatedFlags desc flags)).setRoot i (some s.objs.length)
  | .store owner loc value =>
    match s.eval owner with
    | some t => s.modify t fun x =>
        { x with slots := Function.update x.slots loc (value.bind s.eval) }
    | none => s
  | .write obj bytes =>
    match s.eval obj with
    | some t => s.modify t fun x => { x with bytes }
    | none => s
  | .setRoot i value => s.setRoot i (value.bind s.eval)
  | .acquire obj flags =>
    match s.eval obj with
    | some t => { s.pushHandle t flags with acquired := s.acquired + 1 }
    | none => { s with acquired := s.acquired + 1 }
  | .release n =>
    match s.handles.find? fun k => k.name = n with
    | some k => s.popHandle k
    | none => s
  | .collectMinor | .collectMajor | .collectFull => s

end ProgState

/-! ### Running a program on a collector -/

variable {σ : Type}

/-- The object that a path leads to: slots are read with `gc_load_ref` and handles with
    `gc_handle_get`, and nothing is read through `NULL`. `names` are the addresses of the handles, in
    the order in which they were acquired; those that have been released are `NULL`. -/
def Path.eval (C : Collector σ) (w : World σ) (names : List Addr) : Path → Addr
  | .root i => gcLoadRef C.algo w (.root i)
  | .handle n => gcHandleGet w (names.getD n 0)
  | .slot p loc =>
    if p.eval C w names = 0 then 0 else gcLoadRef C.algo w (.field (p.eval C w names) loc)

/-- The object that an optional path leads to. -/
def Path.evalRef (C : Collector σ) (w : World σ) (names : List Addr) : Option Path → Addr
  | some p => p.eval C w names
  | none => 0

/-- A step of a program on a collector, all of whose calls are those of a well-behaved client and are
    granted their requests. -/
def ProgOp.Step (C : Collector σ) (s : World σ × List Addr) (op : ProgOp)
    (s' : World σ × List Addr) : Prop :=
  match op with
  | .alloc i desc size flags =>
    let r := (ClientOp.alloc desc size flags).perform C s.1
    C.Step s.1 (.alloc desc size flags) r.1 ∧ C.Step r.1 (.setRoot i r.2) s'.1 ∧ s'.2 = s.2
  | .store owner loc value =>
    C.Step s.1 (.storeRef (owner.eval C s.1 s.2) loc (Path.evalRef C s.1 s.2 value)) s'.1 ∧
      s'.2 = s.2
  | .write obj bytes => C.Step s.1 (.writeBytes (obj.eval C s.1 s.2) bytes) s'.1 ∧ s'.2 = s.2
  | .setRoot i value =>
    C.Step s.1 (.setRoot i (Path.evalRef C s.1 s.2 value)) s'.1 ∧ s'.2 = s.2
  | .acquire obj flags =>
    C.Step s.1 (.acquire (obj.eval C s.1 s.2) flags) s'.1 ∧
      s'.2 = s.2 ++ [((ClientOp.acquire (obj.eval C s.1 s.2) flags).perform C s.1).2]
  | .release n => C.Step s.1 (.release (s.2.getD n 0)) s'.1 ∧ s'.2 = s.2.set n 0
  | .collectMinor => C.Step s.1 .collectMinor s'.1 ∧ s'.2 = s.2
  | .collectMajor => C.Step s.1 .collectMajor s'.1 ∧ s'.2 = s.2
  | .collectFull => C.Step s.1 .collectFull s'.1 ∧ s'.2 = s.2

/-! ### Refinement -/

/-- The number of the object that a reference leads to. -/
def Graph.refTag (g : Graph) (a : Addr) : Option Nat := if a = 0 then none else some (g.tagAt a)

theorem Graph.refTag_zero (g : Graph) : g.refTag 0 = none := if_pos rfl

theorem Graph.refTag_of_ne (g : Graph) {a : Addr} (h : a ≠ 0) : g.refTag a = some (g.tagAt a) :=
  if_neg h

/-- The object `o` is what the program knows as `x`. -/
structure SameObj (rounded : Nat → Nat) (tag : Addr → Option Nat) (x : ProgObj) (o : GcHeader) :
    Prop where
  desc : o.desc = some x.desc
  size : o.size = rounded x.size
  flags : o.flags = x.flags
  kind : o.kind = x.kind
  bytes : o.bytes = x.bytes
  slots : ∀ p, tag (o.slots p) = x.slots p

/-- The heap holds what the program can get at in the state `s`: the objects in `known`. -/
structure Refines (rounded : Nat → Nat) (s : ProgState) (g : Graph) (tracked : List Addr)
    (names : List Addr) (known : Set Addr) : Prop where
  sub : ∀ a ∈ known, a ∈ tracked
  closed : g.Closed known
  history : g.history = s.objs.map ProgObj.desc
  roots : ∀ i, g.refTag (g.roots i) = s.roots i
  handles : (g.handles.map fun k => (k.addr, g.tagAt k.target, k.flags)) =
    s.handles.map fun k => (names.getD k.name 0, k.target, k.flags)
  acquired : names.length = s.acquired
  live : ∀ k ∈ s.handles, names.getD k.name 0 ≠ 0
  gone : ∀ n, (∀ k ∈ s.handles, k.name ≠ n) → names.getD n 0 = 0
  objs : ∀ a ∈ known, ∀ o, g.objs a = some o →
    ∃ x, s.objs[o.tag]? = some x ∧ SameObj rounded g.refTag x o

variable {rounded : Nat → Nat} {s : ProgState} {g g' : Graph} {tracked tracked' names : List Addr}
  {known : Set Addr}

/-- What is reachable is known. -/
theorem Refines.reachable (h : HeapInv g tracked) (r : Refines rounded s g tracked names known) :
    Refines rounded s g tracked names {a | g.Reachable a} :=
  { r with
    sub := fun _ ha => h.mem_of_reachable ha
    closed := h.closed_reachable
    objs := fun a ha => r.objs a (r.closed.reachable ha) }

/-- The handle of a given number. -/
theorem Refines.handle_iff (h : HeapInv g tracked) (r : Refines rounded s g tracked names known)
    {k k' : ProgHandle} (hk : k ∈ s.handles) (hk' : k' ∈ s.handles) :
    names.getD k'.name 0 = names.getD k.name 0 ↔ k'.name = k.name := by
  refine ⟨fun he => ?_, fun he => by rw [he]⟩
  have hnodup : (s.handles.map fun k => names.getD k.name 0).Nodup := by
    have hmap := congrArg (List.map Prod.fst) r.handles
    rw [List.map_map, List.map_map] at hmap
    exact (show g.handles.map GcHandle.addr = s.handles.map fun k => names.getD k.name 0 from
      hmap) ▸ h.handleAddrs
  rw [List.inj_on_of_nodup_map hnodup hk' hk he]

end Xgc
