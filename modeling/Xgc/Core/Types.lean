import Mathlib.Logic.Function.Basic

/-! The data a collector works on: reference slots, type descriptors, objects, handles, and the
    object graph that they make up.

    Addresses are natural numbers and `0` is `NULL`. An object is kept at the address of its header;
    its reference slots are told apart from its other bytes, since a collector writes nothing else.
    Some fields exist only for the statements and are not in the C structures: which slots a type
    has (`layout`, `rootSlots`), the number of the allocation that made an object (`tag`), the
    descriptors of all allocations so far (`history`) and the deaths so far (`log`). -/

namespace Xgc

/-- A pointer; `0` is `NULL`. -/
abbrev Addr := Nat

/-- Where a reference slot of an object lies: at an offset inside the object, or at an address
    outside of it (a table the object owns). -/
inductive SlotLoc where
  | inline (off : Nat)
  | outline (addr : Addr)
  deriving DecidableEq

/-- The address of a slot of the object at `owner`. -/
def SlotLoc.addr (owner : Addr) : SlotLoc → Addr
  | .inline off => owner + off
  | .outline a => a

/-- What a tracing callback can read of an object: its recorded size, its plain bytes by offset
    and the values of its reference slots. -/
structure Contents where
  size : Nat
  bytes : Nat → UInt8
  slots : SlotLoc → Addr

/-- `GC_DESC_FLAG_HAS_FINALIZER` -/
def descFlagHasFinalizer : BitVec 32 := 2

/-- `GC_OBJECT_FLAG_PINNED` -/
def objectFlagPinned : BitVec 16 := 1

/-- `GC_OBJECT_FLAG_FINALIZABLE` -/
def objectFlagFinalizable : BitVec 16 := 2

/-- `GC_ALLOC_PINNED` -/
def allocPinned : BitVec 32 := 1

/-- `sizeof(gc_header)` -/
def sizeofHeader : Nat := 16

/-- `gc_descriptor`. A tracing callback is given by the slots it visits, in order; `finalize` says
    whether there is a finalizer. `layout` lists the slots that objects of the type have, by size
    and plain bytes; it is what the callbacks have to enumerate. -/
structure GcDescriptor where
  fixedSize : Nat
  flags : BitVec 32
  kind : Nat
  traceSlots : Option (Contents → List SlotLoc)
  traceSlotsRange : Option (Contents → Nat → Nat → List SlotLoc)
  finalize : Bool
  layout : Nat → (Nat → UInt8) → List SlotLoc

/-- An object: `gc_header` followed by the object's contents. -/
structure GcHeader extends Contents where
  desc : Option GcDescriptor
  flags : BitVec 16
  kind : Nat
  tag : Nat

/-- `gc_handle`, with the address it lives at. -/
structure GcHandle where
  addr : Addr
  runtime : Addr
  target : Addr
  flags : BitVec 32

/-- `gc_vm_hooks`: the root slots that `scan_roots` visits, in order, given the values of all root
    slots. `rootSlots` are the root slots that the client has. -/
structure GcVmHooks where
  scanRoots : Option ((Nat → Addr) → List Nat)
  rootSlots : List Nat

/-- A place that holds a reference: a root slot, a handle or a slot of an object. -/
inductive SlotRef where
  | root (i : Nat)
  | handle (h : Addr)
  | field (obj : Addr) (loc : SlotLoc)
  deriving DecidableEq

/-- The end of an object's life, by the tag of the object: the call of its finalizer, and the
    moment its storage is given up. -/
inductive Event where
  | finalize (tag : Nat)
  | release (tag : Nat)
  deriving DecidableEq

/-- The objects in memory, and all the places that refer to them. -/
structure Graph where
  objs : Addr → Option GcHeader
  roots : Nat → Addr
  handles : List GcHandle
  hooks : GcVmHooks
  history : List GcDescriptor
  log : List Event

namespace Graph

/-- The slots of the object at `a`; an address without an object reads as `NULL`s. -/
def slot (g : Graph) (a : Addr) (p : SlotLoc) : Addr :=
  match g.objs a with
  | some o => o.slots p
  | none => 0

/-- The target of the handle that lives at `h`. -/
def target (g : Graph) (h : Addr) : Addr :=
  match g.handles.find? (fun k => k.addr = h) with
  | some k => k.target
  | none => 0

/-- The reference that a place holds. -/
def read (g : Graph) : SlotRef → Addr
  | .root i => g.roots i
  | .handle h => g.target h
  | .field a p => g.slot a p

/-- Replace the object at `a`. -/
def setObj (g : Graph) (a : Addr) (o : Option GcHeader) : Graph :=
  { g with objs := Function.update g.objs a o }

/-- Apply `f` to the object at `a`. -/
def modifyObj (g : Graph) (a : Addr) (f : GcHeader → GcHeader) : Graph :=
  g.setObj a ((g.objs a).map f)

/-- Store the reference `v` in a place. -/
def write (g : Graph) (r : SlotRef) (v : Addr) : Graph :=
  match r with
  | .root i => { g with roots := Function.update g.roots i v }
  | .handle h =>
    { g with handles := g.handles.map fun k => if k.addr = h then { k with target := v } else k }
  | .field a p => g.modifyObj a fun o => { o with slots := Function.update o.slots p v }

/-- The tag of the object at `a`. -/
def tagAt (g : Graph) (a : Addr) : Nat :=
  match g.objs a with
  | some o => o.tag
  | none => 0

/-- The recorded size of the object at `a`. -/
def sizeAt (g : Graph) (a : Addr) : Nat :=
  match g.objs a with
  | some o => o.size
  | none => 0

/-! ### Reading after writing -/

@[simp] theorem setObj_objs (g : Graph) (a : Addr) (o : Option GcHeader) (b : Addr) :
    (g.setObj a o).objs b = if b = a then o else g.objs b := by
  by_cases h : b = a
  · subst h; simp [setObj]
  · simp [setObj, h]

@[simp] theorem setObj_roots (g : Graph) (a : Addr) (o : Option GcHeader) :
    (g.setObj a o).roots = g.roots := rfl

@[simp] theorem setObj_handles (g : Graph) (a : Addr) (o : Option GcHeader) :
    (g.setObj a o).handles = g.handles := rfl

@[simp] theorem setObj_hooks (g : Graph) (a : Addr) (o : Option GcHeader) :
    (g.setObj a o).hooks = g.hooks := rfl

@[simp] theorem setObj_history (g : Graph) (a : Addr) (o : Option GcHeader) :
    (g.setObj a o).history = g.history := rfl

@[simp] theorem setObj_log (g : Graph) (a : Addr) (o : Option GcHeader) :
    (g.setObj a o).log = g.log := rfl

@[simp] theorem modifyObj_objs (g : Graph) (a : Addr) (f : GcHeader → GcHeader) (b : Addr) :
    (g.modifyObj a f).objs b = if b = a then (g.objs a).map f else g.objs b := by
  simp [modifyObj]

@[simp] theorem read_root (g : Graph) (i : Nat) : g.read (.root i) = g.roots i := rfl

theorem slot_eq {g : Graph} {a : Addr} {o : GcHeader} (h : g.objs a = some o) (p : SlotLoc) :
    g.slot a p = o.slots p := by
  simp [slot, h]

theorem slot_congr {g g' : Graph} {a b : Addr} (h : g.objs a = g'.objs b) (p : SlotLoc) :
    g.slot a p = g'.slot b p := by
  simp [slot, h]

theorem target_congr {g g' : Graph} (h : g'.handles = g.handles) (a : Addr) :
    g'.target a = g.target a := by
  simp [target, h]

/-- The places that exist: root slots, handles in the list, slots of stored objects. -/
def Has (g : Graph) : SlotRef → Prop
  | .root _ => True
  | .handle h => ∃ k ∈ g.handles, k.addr = h
  | .field a _ => ∃ o, g.objs a = some o

theorem find_map_target (hs : List GcHandle) (h h' v : Addr) :
    (hs.map fun k => if k.addr = h then { k with target := v } else k).find?
        (fun k => k.addr = h') =
      (hs.find? fun k => k.addr = h').map fun k =>
        if k.addr = h then { k with target := v } else k := by
  rw [List.find?_map]
  congr 2
  funext k
  by_cases hk : k.addr = h <;> simp [hk]

/-- A place holds what was last written to it; other places keep their reference. -/
theorem read_write {g : Graph} {r : SlotRef} (hr : g.Has r) (v : Addr) (r' : SlotRef) :
    (g.write r v).read r' = if r' = r then v else g.read r' := by
  cases r with
  | root i =>
    cases r' with
    | root j => by_cases h : j = i <;> simp [write, read, h]
    | handle h => rfl
    | field a p => rfl
  | handle h =>
    cases r' with
    | root j => rfl
    | field a p => rfl
    | handle h' =>
      obtain ⟨k, hk, rfl⟩ := hr
      simp only [read, target, write, find_map_target, SlotRef.handle.injEq]
      cases hf : g.handles.find? fun k => k.addr = h' with
      | none =>
        have hne : h' ≠ k.addr := by
          rintro rfl
          simpa using List.find?_eq_none.mp hf k hk
        simp [hne]
      | some k' =>
        have hk' : k'.addr = h' := by simpa using List.find?_some hf
        by_cases he : h' = k.addr <;> simp [hk', he]
  | field a p =>
    obtain ⟨o, ho⟩ := hr
    cases r' with
    | root j => rfl
    | handle h => rfl
    | field b q =>
      by_cases hb : b = a
      · subst hb
        by_cases hq : q = p <;> simp [write, read, slot, ho, hq]
      · simp [write, read, slot, hb]

/-- Writing a place changes no handle but its target. -/
theorem write_handles (g : Graph) (r : SlotRef) (v : Addr) :
    ∃ f : GcHandle → Addr, (g.write r v).handles = g.handles.map fun k => { k with target := f k } := by
  cases r with
  | root i => exact ⟨GcHandle.target, (List.map_id _).symm⟩
  | field a p => exact ⟨GcHandle.target, (List.map_id _).symm⟩
  | handle h =>
    refine ⟨fun k => if k.addr = h then v else k.target, List.map_congr_left fun k _ => ?_⟩
    by_cases hk : k.addr = h <;> simp [hk]

/-- Writing a place changes no object but its slots. -/
theorem write_objs {g : Graph} (r : SlotRef) (v : Addr) {a : Addr} {o : GcHeader}
    (h : g.objs a = some o) : ∃ s, (g.write r v).objs a = some { o with slots := s } := by
  cases r with
  | root i => exact ⟨o.slots, h⟩
  | handle k => exact ⟨o.slots, h⟩
  | field b p =>
    by_cases hab : a = b
    · subst hab
      exact ⟨_, by simp [write, h]; rfl⟩
    · exact ⟨o.slots, by simp [write, hab, h]⟩

theorem write_objs_of_ne {g : Graph} {r : SlotRef} (v : Addr) {a : Addr}
    (h : ∀ p, r ≠ .field a p) : (g.write r v).objs a = g.objs a := by
  cases r with
  | root i => rfl
  | handle k => rfl
  | field b p =>
    have hab : a ≠ b := fun he => h p (he ▸ rfl)
    simp [write, hab]

@[simp] theorem write_hooks (g : Graph) (r : SlotRef) (v : Addr) :
    (g.write r v).hooks = g.hooks := by
  cases r <;> rfl

@[simp] theorem write_history (g : Graph) (r : SlotRef) (v : Addr) :
    (g.write r v).history = g.history := by
  cases r <;> rfl

@[simp] theorem write_log (g : Graph) (r : SlotRef) (v : Addr) : (g.write r v).log = g.log := by
  cases r <;> rfl

/-- Writing a reference leaves the size of every object. -/
theorem sizeAt_write (g : Graph) (r : SlotRef) (v : Addr) (b : Addr) :
    (g.write r v).sizeAt b = g.sizeAt b := by
  cases r with
  | root i => rfl
  | handle h => rfl
  | field a p =>
    by_cases hb : b = a
    · subst hb
      cases ho : g.objs b <;> simp [write, sizeAt, ho]
    · simp [write, sizeAt, hb]

end Graph

end Xgc
