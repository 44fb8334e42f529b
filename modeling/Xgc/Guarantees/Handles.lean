import Xgc.Guarantees.Generational
import Xgc.Guarantees.MarkSweep

/-! Handles protect and follow their objects, under any lawful collector: the list of the runtime
    holds the handles that the client holds, the newest first, and each of them leads to the object
    that it was acquired for, wherever that has been moved. -/

namespace Xgc

open Lib (Run lookup_eq_some)

variable {σ : Type}

/-! ### What a client holds -/

/-- The handles of the runtime with the tags of the objects that they lead to. -/
def Graph.heldTags (g : Graph) : List (Addr × Nat) :=
  g.handles.map fun k => (k.addr, g.tagAt k.target)

/-- The handles that a client holds after a call that returned `result`, with the tags of the
    objects that they were acquired for. -/
def ClientOp.held (g : Graph) (result : Addr) (held : List (Addr × Nat)) :
    ClientOp → List (Addr × Nat)
  | .acquire obj _ => if obj = 0 then held else (result, g.tagAt obj) :: held
  | .release h => if h = 0 then held else held.eraseP fun k => k.1 = h
  | _ => held

/-- A step of a client that keeps account of its handles. -/
def Collector.HoldStep (C : Collector σ) (s : World σ × List (Addr × Nat)) (op : ClientOp)
    (s' : World σ × List (Addr × Nat)) : Prop :=
  C.Step s.1 op s'.1 ∧ s'.2 = op.held s.1.graph (op.perform C s.1).2 s.2

/-- The places that hold references. -/
def Graph.Place (g : Graph) (tracked : List Addr) : SlotRef → Prop
  | .root _ => True
  | .handle h => h ∈ g.handles.map GcHandle.addr
  | .field a _ => a ∈ tracked

/-- The handles in `held` are those of the runtime; they protect their objects and follow them. -/
structure HandlesOk (C : Collector σ) (w : World σ) (held : List (Addr × Nat)) : Prop where
  list : w.graph.heldTags = held
  once : (held.map Prod.fst).Nodup
  alive : ∀ h t, (h, t) ∈ held → Event.finalize t ∉ w.graph.log ∧ Event.release t ∉ w.graph.log
  get : ∀ h t, (h, t) ∈ held →
    gcHandleGet w h ∈ C.tracked w ∧ w.graph.tagAt (gcHandleGet w h) = t
  agree : ∀ h t, (h, t) ∈ held → ∀ r, w.graph.Place (C.tracked w) r → w.graph.read r ≠ 0 →
    w.graph.tagAt (w.graph.read r) = t → w.graph.read r = gcHandleGet w h
  release : ∀ h w', C.Step w (.release h) w' → ∀ h', h' ≠ h → gcHandleGet w' h' = gcHandleGet w h'

/-! ### Tags of targets -/

variable {g g' : Graph} {tracked tracked' : List Addr}

/-- A place holds no reference or one to a tracked object. -/
theorem HeapInv.valid_place (h : HeapInv g tracked) {r : SlotRef} (hr : g.Place tracked r) :
    g.read r = 0 ∨ g.read r ∈ tracked := by
  cases r with
  | root i => exact (h.roots i).imp_right And.right
  | handle a =>
    obtain ⟨k, hk, rfl⟩ := List.mem_map.mp (show a ∈ g.handles.map GcHandle.addr from hr)
    refine .inr ?_
    show g.target k.addr ∈ tracked
    rw [h.target_eq hk]
    exact h.handles k hk
  | field a p => exact h.fields a hr p

theorem Graph.heldTags_modifyObj (g : Graph) (a : Addr) {f : GcHeader → GcHeader}
    (hf : ∀ o, (f o).tag = o.tag) : (g.modifyObj a f).heldTags = g.heldTags :=
  List.map_congr_left fun k _ => by rw [g.tagAt_modifyObj a k.target hf]

theorem Graph.heldTags_congr (hhandles : g'.handles = g.handles)
    (htags : ∀ k ∈ g.handles, g'.tagAt k.target = g.tagAt k.target) : g'.heldTags = g.heldTags := by
  rw [heldTags, hhandles]
  exact List.map_congr_left fun k hk => by rw [htags k hk]

/-- Handles follow their objects through a collection. -/
theorem Collected.heldTags {keep : Set Addr} {φ : Addr → Addr} (h : HeapInv g tracked)
    (c : Collected g g' tracked tracked' keep φ) : g'.heldTags = g.heldTags := by
  rw [Graph.heldTags, c.handles, List.map_map]
  refine List.map_congr_left fun k hk => ?_
  show (k.addr, g'.tagAt (φ k.target)) = _
  rw [c.tagAt h (c.closed.handles k hk)]

theorem Allocated.heldTags {desc : GcDescriptor} {size : Nat} {flags : BitVec 32} {a : Addr}
    (h : HeapInv g tracked) (ha : Allocated desc size flags g tracked a g' tracked') :
    g'.heldTags = g.heldTags := by
  obtain ⟨objs, hobjs, rfl⟩ := ha.graph
  refine Graph.heldTags_congr rfl fun k hk => ?_
  have hmem := h.handles k hk
  have hne : k.target ≠ a := fun he => ha.new (he ▸ hmem)
  simp [Graph.tagAt, hne, hobjs _ hmem]

/-- What each call does to the handles. -/
theorem Effect.heldTags {rounded : Nat → Nat} {op : ClientOp} {result : Addr}
    (h : HeapInv g tracked) (he : Effect rounded op g tracked result g' tracked') :
    g'.heldTags = op.held g result g.heldTags := by
  cases op with
  | alloc desc size flags =>
    simp only [Effect] at he
    split at he
    · obtain ⟨-, rfl, -⟩ := he
      rfl
    · obtain ⟨g₁, tracked₁, keep, φ, hc, ha⟩ := he
      exact (ha.heldTags (hc.heapInv h)).trans (hc.heldTags h)
  | storeRef owner loc v =>
    obtain ⟨rfl, -⟩ := he
    exact g.heldTags_modifyObj owner fun _ => rfl
  | loadRef place =>
    obtain ⟨-, rfl, -⟩ := he
    rfl
  | writeBytes obj bytes =>
    obtain ⟨rfl, -⟩ := he
    exact g.heldTags_modifyObj obj fun _ => rfl
  | setRoot i v =>
    obtain ⟨rfl, -⟩ := he
    rfl
  | acquire obj flags =>
    simp only [Effect] at he
    simp only [ClientOp.held]
    split at he
    · next h0 =>
      obtain ⟨-, rfl, -⟩ := he
      rw [if_pos h0]
    · next h0 =>
      obtain ⟨-, -, -, runtime, rfl⟩ := he
      rw [if_neg h0]
      exact Graph.heldTags_modifyObj _ obj fun _ => rfl
  | get handle =>
    obtain ⟨-, rfl, -⟩ := he
    rfl
  | release handle =>
    simp only [Effect] at he
    simp only [ClientOp.held]
    split at he
    · next h0 =>
      obtain ⟨rfl, -⟩ := he
      rw [if_pos h0]
    · next h0 =>
      obtain ⟨-, k, -, rfl, rfl⟩ := he
      rw [if_neg h0]
      refine (Graph.heldTags_modifyObj { g with
        handles := g.handles.eraseP fun k' => k'.addr = k.addr } k.target
        (f := fun o => { o with flags := o.flags &&& ~~~objectFlagPinned }) fun _ => rfl).trans ?_
      rw [Graph.heldTags, Graph.heldTags, List.eraseP_map]
      rfl
  | collectMinor =>
    obtain ⟨keep, φ, hc⟩ := he
    exact hc.heldTags h
  | collectMajor =>
    obtain ⟨φ, hc⟩ := he
    exact hc.heldTags h
  | collectFull =>
    obtain ⟨φ, hc⟩ := he
    exact hc.heldTags h

/-- Taking one handle off the list does not hide another. -/
theorem find_eraseP {h h' : Addr} (hne : h ≠ h') : ∀ ks : List GcHandle,
    (ks.eraseP fun k => k.addr = h').find? (fun k => k.addr = h) = ks.find? fun k => k.addr = h
  | [] => rfl
  | k :: ks => by
      by_cases hk : k.addr = h'
      · have hkh : ¬ k.addr = h := fun he => hne (he.symm.trans hk)
        rw [List.eraseP_cons_of_pos (by simpa using hk), List.find?_cons_of_neg (by simpa using hkh)]
      · rw [List.eraseP_cons_of_neg (by simpa using hk)]
        by_cases hkh : k.addr = h
        · rw [List.find?_cons_of_pos (by simpa using hkh),
            List.find?_cons_of_pos (by simpa using hkh)]
        · rw [List.find?_cons_of_neg (by simpa using hkh),
            List.find?_cons_of_neg (by simpa using hkh), find_eraseP hne ks]

/-- Releasing a handle changes the target of no other. -/
theorem Graph.target_popHandle (g : Graph) (k : GcHandle) {h : Addr} (hne : h ≠ k.addr) :
    (g.popHandle k).target h = g.target h := by
  simp only [target, popHandle, modifyObj, setObj_handles, find_eraseP hne]

/-! ### Runs -/

/-- In a heap in order the handles on the list are as they should be. -/
theorem HandlesOk.of_heap [Inhabited σ] {C : Collector σ} {Inv : World σ → Prop} (hC : C.Lawful Inv)
    {w : World σ} (hinv : Inv w) : HandlesOk C w w.graph.heldTags := by
  have h := hC.heap w hinv
  have hheld : ∀ a t, (a, t) ∈ w.graph.heldTags →
      w.graph.target a ∈ C.tracked w ∧ w.graph.tagAt (w.graph.target a) = t := by
    intro a t hm
    obtain ⟨k, hk, he⟩ := List.mem_map.mp hm
    obtain ⟨rfl, rfl⟩ := Prod.mk.inj he
    rw [h.target_eq hk]
    exact ⟨h.handles k hk, rfl⟩
  refine ⟨rfl, ?_, fun a t hm => ?_, hheld, fun a t hm r hr h0 ht => ?_, fun a w' hs a' hne => ?_⟩
  · rw [Graph.heldTags, List.map_map]
    exact h.handleAddrs
  · obtain ⟨hmem, rfl⟩ := hheld a t hm
    have hrel : Event.release (w.graph.tagAt (w.graph.target a)) ∉ w.graph.log := fun hd =>
      ((h.released_iff _).mp hd).2 _ hmem rfl
    exact ⟨fun hd => hrel ((h.finalized_iff _).mp hd).1, hrel⟩
  · obtain ⟨hmem, htag⟩ := hheld a t hm
    exact h.tag_inj ((h.valid_place hr).resolve_left h0) hmem (ht.trans htag.symm)
  · obtain ⟨-, he⟩ := hC.step w _ w' hinv hs
    simp only [Effect] at he
    show w'.graph.target a' = w.graph.target a'
    split at he
    · rw [he.1]
    · obtain ⟨-, k, -, rfl, hg⟩ := he
      rw [hg]
      exact w.graph.target_popHandle k hne

/-- Along a run the client's account of its handles is the list of the runtime. -/
theorem Collector.Lawful.held_run [Inhabited σ] {C : Collector σ} {Inv : World σ → Prop}
    (hC : C.Lawful Inv) {s s' : World σ × List (Addr × Nat)} {ops : List ClientOp}
    (hrun : Run C.HoldStep s ops s') (hinv : Inv s.1) (hheld : s.1.graph.heldTags = s.2) :
    Inv s'.1 ∧ s'.1.graph.heldTags = s'.2 := by
  refine hrun.invariant (P := fun s => Inv s.1 ∧ s.1.graph.heldTags = s.2) ?_ ⟨hinv, hheld⟩
  rintro s op s' ⟨hs, he⟩ ⟨hstep, hheld'⟩
  obtain ⟨hs', heff⟩ := hC.step _ _ _ hs hstep
  refine ⟨hs', ?_⟩
  rw [hheld', ← he]
  exact heff.heldTags (hC.heap _ hs)

/-- Under both algorithms the handles that a client holds protect and follow their objects. -/
theorem handles_protect :
    (∀ w₀ ops w held, genCollector.Starts w₀ → Run genCollector.HoldStep (w₀, []) ops (w, held) →
      HandlesOk genCollector w held) ∧
    (∀ w₀ ops w held, msCollector.Starts w₀ → Run msCollector.HoldStep (w₀, []) ops (w, held) →
      HandlesOk msCollector w held) := by
  constructor
  · intro w₀ ops w held hstart hrun
    have hC := (genManager_sound : (genManager True).Sound).lawful
    obtain ⟨hooks, hgraph⟩ := genCollector_starts hstart
    have hnil : w₀.graph.heldTags = [] := by rw [hgraph]; rfl
    obtain ⟨hinv, heq⟩ := hC.held_run hrun (hC.start _ hstart) hnil
    have hheld : w.graph.heldTags = held := heq
    exact hheld ▸ .of_heap hC hinv
  · intro w₀ ops w held hstart hrun
    have hC := msManager_sound.lawful
    obtain ⟨hooks, hgraph⟩ := msCollector_starts hstart
    have hnil : w₀.graph.heldTags = [] := by rw [hgraph]; rfl
    obtain ⟨hinv, heq⟩ := hC.held_run hrun (hC.start _ hstart) hnil
    have hheld : w.graph.heldTags = held := heq
    exact hheld ▸ .of_heap hC hinv

/-- A young cell, and the world that it lives in. -/
def genYoung : GenWorld × Addr := (ClientOp.alloc cell 24 0).perform genCollector genStart

/-- A handle to the young cell. -/
def genHeld : GenWorld × Addr := (ClientOp.acquire genYoung.2 0).perform genCollector genYoung.1

theorem handles_protect_sample :
    HandlesOk genCollector (gcCollectMinor gcGenCopyMsVtable genHeld.1) [(genHeld.2, 0)] := by
  have h₁ : genCollector.HoldStep (genStart, []) (.alloc cell 24 0) (genYoung.1, []) :=
    ⟨⟨⟨cell_ok, by decide +kernel⟩, by rw [genYoung], by decide +kernel⟩, rfl⟩
  have h₂ : genCollector.HoldStep (genYoung.1, []) (.acquire genYoung.2 0)
      (genHeld.1, [(genHeld.2, 0)]) :=
    ⟨⟨.inr (by decide +kernel), by rw [genHeld], by decide +kernel⟩, by decide +kernel⟩
  have h₃ : genCollector.HoldStep (genHeld.1, [(genHeld.2, 0)]) .collectMinor
      (gcCollectMinor gcGenCopyMsVtable genHeld.1, [(genHeld.2, 0)]) :=
    ⟨⟨trivial, rfl, by decide +kernel⟩, rfl⟩
  exact handles_protect.1 _ _ _ _ genStart_starts ((((Run.nil _).snoc h₁).snoc h₂).snoc h₃)

end Xgc
