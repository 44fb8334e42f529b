import Xgc.Algo.BaconRajan
import Xgc.Guarantees.Tenants

/-! What a runtime does that is bound to bacon-rajan: it keeps every object for ever. Programs cannot tell
    it from the algorithms that reclaim. -/

namespace Xgc

open Lib (Block Run)

/-! ### Nothing is given back -/

/-- bacon-rajan keeps no blocks of its own: all objects have been handed out. -/
def brStorage : Storage Unit where
  nodes _ := []
  spaces _ := []

section

variable {σ : Type}

/-- The block that a call hands out. -/
def ClientOp.handed (C : Collector σ) (w : World σ) (op : ClientOp) : List Block :=
  match op with
  | .alloc _ size _ => if (op.perform C w).2 = 0 then [] else [((op.perform C w).2, size)]
  | _ => []

theorem ClientOp.handed_alloc {C : Collector σ} {w w' : World σ} {desc : GcDescriptor} {size : Nat}
    {flags : BitVec 32} {a : Addr} (h : gcAllocTyped C.algo w desc size flags = (w', a)) :
    (ClientOp.alloc desc size flags).handed C w = if a = 0 then [] else [(a, size)] := by
  simp only [handed, perform, h]

/-- Any call, whatever its arguments and whatever is refused, next to the blocks that the calls so far
    have handed out. -/
def Collector.HandingStep (C : Collector σ) (s : World σ × List Block) (op : ClientOp)
    (s' : World σ × List Block) : Prop :=
  (op.perform C s.1).1 = s'.1 ∧ s'.2 = op.handed C s.1 ++ s.2

end

/-- All objects are where they were, with the sizes and types that they have been given. -/
structure Graph.Retains (g g' : Graph) : Prop where
  objs : ∀ a o, g.objs a = some o →
    ∃ o', g'.objs a = some o' ∧ o'.tag = o.tag ∧ o'.desc = o.desc ∧ o'.size = o.size
  history : g'.history = g.history
  log : g'.log = g.log

namespace Graph.Retains

variable {g g' g'' : Graph}

theorem of_objs (hobjs : g'.objs = g.objs) (hhist : g'.history = g.history) (hlog : g'.log = g.log) :
    g.Retains g' :=
  ⟨fun a o ho => ⟨o, by rw [hobjs]; exact ho, rfl, rfl, rfl⟩, hhist, hlog⟩

theorem trans (h : g.Retains g') (h' : g'.Retains g'') : g.Retains g'' := by
  refine ⟨fun a o ho => ?_, h'.history.trans h.history, h'.log.trans h.log⟩
  obtain ⟨o', ho', ht, hd, hs⟩ := h.objs a o ho
  obtain ⟨o'', ho'', ht', hd', hs'⟩ := h'.objs a o' ho'
  exact ⟨o'', ho'', ht'.trans ht, hd'.trans hd, hs'.trans hs⟩

theorem modifyObj (g : Graph) (a : Addr) {f : GcHeader → GcHeader}
    (hf : ∀ o, (f o).tag = o.tag ∧ (f o).desc = o.desc ∧ (f o).size = o.size) :
    g.Retains (g.modifyObj a f) := by
  refine ⟨fun b o ho => ?_, rfl, rfl⟩
  by_cases hb : b = a
  · subst hb
    exact ⟨f o, by simp [ho], hf o⟩
  · exact ⟨o, by simp [hb, ho], rfl, rfl, rfl⟩

theorem write (g : Graph) (r : SlotRef) (v : Addr) : g.Retains (g.write r v) := by
  cases r with
  | root i => exact of_objs rfl rfl rfl
  | handle k => exact of_objs rfl rfl rfl
  | field owner loc => exact modifyObj g owner fun _ => ⟨rfl, rfl, rfl⟩

end Graph.Retains

/-- Every call but an allocation leaves all objects where they are. -/
theorem retains_perform (w : BrWorld) {op : ClientOp}
    (halloc : ∀ desc size flags, op ≠ .alloc desc size flags) :
    w.graph.Retains (op.perform brCollector w).1.graph := by
  cases op with
  | alloc desc size flags => exact absurd rfl (halloc desc size flags)
  | storeRef owner loc v => exact .write w.graph (.field owner loc) v
  | setRoot i v => exact .write w.graph (.root i) v
  | loadRef | get => exact .of_objs rfl rfl rfl
  | writeBytes obj bytes => exact .modifyObj w.graph obj fun _ => ⟨rfl, rfl, rfl⟩
  | acquire obj flags =>
    simp only [ClientOp.perform]
    by_cases hobj : obj = 0
    · rw [gcHandleAcquire, if_pos hobj]
      exact .of_objs rfl rfl rfl
    · rcases @gcHandleAcquire_cases _ xgcDefaultAlgorithm rfl w _ hobj flags with
        heq | ⟨a, -, heq⟩ <;> rw [brCollector, heq]
      · exact .of_objs rfl rfl rfl
      · have hpush : w.graph.Retains { w.graph with
            handles := { addr := a, runtime := w.self, target := obj, flags } ::
              w.graph.handles } := .of_objs rfl rfl rfl
        exact hpush.trans (.modifyObj _ obj fun _ => ⟨rfl, rfl, rfl⟩)
  | release handle =>
    simp only [ClientOp.perform, brCollector, gcHandleRelease]
    split
    · exact .of_objs rfl rfl rfl
    · split
      · exact .of_objs rfl rfl rfl
      · next k _ =>
        have hpop : w.graph.Retains { w.graph with
            handles := w.graph.handles.eraseP fun k => k.addr = handle } := .of_objs rfl rfl rfl
        simp only [xgcDefaultAlgorithm, gcBaconRajanVtable, callHook]
        split
        · exact hpop.trans (.modifyObj _ k.target fun _ => ⟨rfl, rfl, rfl⟩)
        · exact hpop
  | collectMinor | collectMajor | collectFull => exact .of_objs rfl rfl rfl

/-- The blocks handed out so far are live, and start with the objects that they have been handed out
    for: those of the first allocation, of the second one, and so on. -/
structure HandedLive (w : BrWorld) (handed rest : List Block) : Prop where
  accounts : brStorage.Accounts w (handed ++ rest)
  objs : ∀ t b, handed.reverse[t]? = some b → ∃ o, w.graph.objs b.1 = some o ∧ o.tag = t ∧
    o.desc = w.graph.history[t]? ∧ o.size = b.2 % 2 ^ 32
  history : w.graph.history.length = handed.length
  log : w.graph.log = []

namespace HandedLive

variable {w : BrWorld} {handed rest : List Block}

theorem retains (h : HandedLive w handed rest) {w' : BrWorld} (hg : w.graph.Retains w'.graph)
    (ha : brStorage.Accounts w' (handed ++ rest)) : HandedLive w' handed rest where
  accounts := ha
  objs t b hb := by
    obtain ⟨o, ho, ht, hd, hs⟩ := h.objs t b hb
    obtain ⟨o', ho', ht', hd', hs'⟩ := hg.objs b.1 o ho
    exact ⟨o', ho', ht'.trans ht, by rw [hg.history, hd', hd], hs'.trans hs⟩
  history := by rw [hg.history, h.history]
  log := hg.log.trans h.log

/-- One more object, in a block of its own. -/
theorem push (h : HandedLive w handed rest) {a size : Nat} {m : Mem} (hq : w.mem.Quiet m)
    (hfit : m.Fits a size) (desc : GcDescriptor) {first : Nat → GcHeader}
    (hfirst : ∀ tag, (first tag).tag = tag ∧ (first tag).desc = some desc ∧
      (first tag).size = size % 2 ^ 32) (stats : GcStats) :
    HandedLive { { w with mem := m.grant a size }.addObject a desc first with stats }
      ((a, size) :: handed) rest := by
  have hacc := h.accounts.quiet hq
  refine ⟨?_, fun t b hb => ?_, ?_, h.log⟩
  · have hout : brStorage.Accounts { w with mem := m.grant a size }
        ((a, size) :: (handed ++ rest)) := ⟨hacc.foot.handOut hfit, hacc.objs⟩
    exact (hout.addObject a desc first).congr rfl rfl rfl rfl rfl fun _ ho => ho
  · rw [List.reverse_cons] at hb
    have hlen : handed.reverse.length = w.graph.history.length := by
      rw [List.length_reverse, h.history]
    rcases Nat.lt_trichotomy t handed.reverse.length with hlt | rfl | hgt
    · rw [List.getElem?_append_left hlt] at hb
      obtain ⟨o, ho, ht, hd, hs⟩ := h.objs t b hb
      have hlive : b ∈ m.blocks := hacc.foot.rest_live b
        (List.mem_append_left _ (List.mem_reverse.mp (List.mem_of_getElem? hb)))
      have hne : b.1 ≠ a := (hfit.2.2.2 b hlive).1.symm
      refine ⟨o, by simp [World.addObject, hne, ho], ht, ?_, hs⟩
      show o.desc = (w.graph.history ++ [desc])[t]?
      rw [List.getElem?_append_left (hlen ▸ hlt), hd]
    · rw [List.getElem?_concat_length] at hb
      obtain rfl := Option.some.inj hb
      obtain ⟨ht, hd, hs⟩ := hfirst w.graph.history.length
      refine ⟨first w.graph.history.length, by simp [World.addObject], ht.trans hlen.symm, ?_, hs⟩
      show _ = (w.graph.history ++ [desc])[handed.reverse.length]?
      rw [hd, hlen, List.getElem?_concat_length]
    · rw [List.getElem?_eq_none (by rw [List.length_append]; exact hgt)] at hb
      exact absurd hb (Option.some_ne_none _).symm
  · show (w.graph.history ++ [desc]).length = _
    rw [List.length_append, h.history]
    rfl

theorem alloc (h : HandedLive w handed rest) (desc : GcDescriptor) (size : Nat) (flags : BitVec 32) :
    HandedLive ((ClientOp.alloc desc size flags).perform brCollector w).1
      ((ClientOp.alloc desc size flags).handed brCollector w ++ handed) rest := by
  have hdone : ∀ w' a, gcAllocTyped xgcDefaultAlgorithm w desc size flags = (w', a) →
      HandedLive w' ((if a = 0 then [] else [(a, size)]) ++ handed) rest →
      HandedLive ((ClientOp.alloc desc size flags).perform brCollector w).1
        ((ClientOp.alloc desc size flags).handed brCollector w ++ handed) rest := by
    intro w' a heq hr
    have hperform : (ClientOp.alloc desc size flags).perform brCollector w = (w', a) := heq
    rwa [ClientOp.handed_alloc heq, hperform]
  by_cases hsize : size < sizeofHeader
  · exact hdone w 0 (if_pos hsize) h
  · rcases gcAllocTyped_br_cases w desc flags (Nat.le_of_not_lt hsize) with
      ⟨m, hq, -, heq⟩ | ⟨a, m, first, stats, hq, hfit, hfirst, heq⟩
    · exact hdone _ 0 heq (h.retains (.of_objs rfl rfl rfl) (h.accounts.quiet hq))
    · refine hdone _ a heq ?_
      rw [if_neg (Nat.pos_iff_ne_zero.mp hfit.1)]
      refine h.push hq hfit desc (fun tag => ?_) stats
      rcases hfirst with rfl | ⟨rfl, -⟩
      · refine ⟨rfl, rfl, ?_⟩
        show (if size % 2 ^ 32 = 0 then size % 2 ^ 32 else size % 2 ^ 32) = _
        exact ite_self _
      · exact ⟨rfl, rfl, rfl⟩

/-- No call takes an object away. -/
theorem step (h : HandedLive w handed rest) {op : ClientOp} {w' : BrWorld} {handed' : List Block}
    (hst : brCollector.HandingStep (w, handed) op (w', handed')) : HandedLive w' handed' rest := by
  obtain ⟨rfl, rfl⟩ := hst
  have hacc := h.accounts
  cases op with
  | alloc desc size flags => exact h.alloc desc size flags
  | storeRef owner loc v =>
    exact h.retains (.write w.graph (.field owner loc) v) (hacc.write (.field owner loc) v)
  | setRoot i v => exact h.retains (.write w.graph (.root i) v) (hacc.write (.root i) v)
  | acquire obj flags =>
    exact h.retains (retains_perform w (by simp)) (hacc.acquire xgcDefaultAlgorithm rfl obj flags)
  | release handle =>
    exact h.retains (retains_perform w (by simp)) (hacc.release xgcDefaultAlgorithm rfl handle)
  | writeBytes obj bytes =>
    exact h.retains (retains_perform w (by simp)) (hacc.modifyObj obj _)
  | loadRef | get | collectMinor | collectMajor | collectFull =>
    exact h.retains (.of_objs rfl rfl rfl) (hacc.congr rfl rfl rfl rfl rfl fun _ ho => ho)

end HandedLive

/-- A runtime is created without a further request: the worklist is there already. -/
theorem gcRuntimeCreate_br {cfg : GcConfig} {hooks : GcVmHooks} {mem : Mem} {w : BrWorld}
    (h : gcRuntimeCreate cfg xgcDefaultAlgorithm hooks mem = some w) :
    ∃ a m, mem.Fits a sizeofRuntime ∧ (mem.grant a sizeofRuntime).Quiet m ∧
      w = freshWorld (gcRuntimeApplyDefaultConfig cfg) hooks a m := by
  obtain ⟨a, m, hfit, hq, rfl⟩ := gcRuntimeCreate_cases h
  refine ⟨a, m, hfit, hq, ?_⟩
  have hdata : ¬ ((freshWorld (gcRuntimeApplyDefaultConfig cfg) hooks a m : BrWorld).worklistData = []
      ∧ (freshWorld (gcRuntimeApplyDefaultConfig cfg) hooks a m : BrWorld).worklistCapacity > 0) :=
    fun hnull => absurd hnull.1 (List.cons_ne_nil _ _)
  simp only [xgcDefaultAlgorithm, gcBaconRajanVtable, callHook, gcBaconRajanGlobalInit, if_neg hdata]

theorem HandedLive.create {cfg : GcConfig} {hooks : GcVmHooks} {mem : Mem} {w : BrWorld}
    (hmem : mem.Owns []) (h : gcRuntimeCreate cfg xgcDefaultAlgorithm hooks mem = some w) :
    HandedLive w [] mem.blocks := by
  obtain ⟨a, m, hfit, hq, rfl⟩ := gcRuntimeCreate_br h
  refine ⟨.fresh rfl rfl hmem hfit hq _ _, fun t b hb => ?_, rfl, rfl⟩
  exact absurd hb (by simp)

/-- bacon-rajan never finalizes, moves or frees an object: whatever is called and whatever is refused,
    each object is at the address at which it was handed out, and all of them are left when
    the runtime is destroyed. -/
theorem baconRajan_retains {mem : Mem} (hmem : mem.Owns []) {cfg : GcConfig} {hooks : GcVmHooks}
    {w₀ w : BrWorld} {ops : List ClientOp} {handed : List Block}
    (hcreate : gcRuntimeCreate cfg xgcDefaultAlgorithm hooks mem = some w₀)
    (hrun : Run brCollector.HandingStep (w₀, []) ops (w, handed)) :
    w.graph.history.length = handed.length ∧
    (∀ t b, handed.reverse[t]? = some b → b ∈ w.mem.blocks ∧ ∃ o, w.graph.objs b.1 = some o ∧
      o.tag = t ∧ o.desc = w.graph.history[t]? ∧ o.size = b.2 % 2 ^ 32) ∧
    (gcRuntimeDestroy xgcDefaultAlgorithm w).graph.log = [] ∧
    (gcRuntimeDestroy xgcDefaultAlgorithm w).mem.blocks.Perm (handed ++ mem.blocks) := by
  have h : HandedLive w handed mem.blocks :=
    hrun.invariant (P := fun s : BrWorld × List Block => HandedLive s.1 s.2 mem.blocks)
      (fun _ _ _ hs hst => hs.step hst) (.create hmem hcreate)
  refine ⟨h.history, fun t b hb => ⟨?_, h.objs t b hb⟩, h.log, ?_⟩
  · exact h.accounts.foot.rest_live b
      (List.mem_append_left _ (List.mem_reverse.mp (List.mem_of_getElem? hb)))
  · exact h.accounts.withoutHandles.foot.free.blocks

/-- A fresh runtime with this algorithm. -/
def brStart : BrWorld := (brCollector.sampleStart 0 2 fun _ => false).get (by decide +kernel)

/-- What a list of calls makes of it, and the blocks that they hand out. -/
def brAfter (ops : List ClientOp) : BrWorld × List Block :=
  ops.foldl (fun s op => ((op.perform brCollector s.1).1, op.handed brCollector s.1 ++ s.2))
    (brStart, [])

theorem brAfter_run (ops : List ClientOp) :
    Run brCollector.HandingStep (brStart, []) ops (brAfter ops) := by
  refine (Run.foldl (L := fun _ => True) ops _ fun _ _ => trivial).mono fun s op s' hst => ?_
  obtain ⟨-, rfl⟩ := hst
  exact ⟨rfl, rfl⟩

/-- A cell in a root slot, which refers to a second one that has a handle, a third one that nothing
    refers to, and a full collection. -/
def brCalls : List ClientOp :=
  [.alloc cell 24 0, .setRoot 0 (2 ^ 20 * 3), .alloc cell 24 0,
    .storeRef (2 ^ 20 * 3) (.inline 16) (2 ^ 20 * 4), .acquire (2 ^ 20 * 4) 0, .alloc cell 24 0,
    .collectFull]

/-- The linked cells are still linked after the collection, and all three outlive their runtime. -/
theorem baconRajan_retains_sample :
    (brAfter brCalls).1.graph.handles.map GcHandle.target = [2 ^ 20 * 4] ∧
    (brAfter brCalls).1.graph.slot (2 ^ 20 * 3) (.inline 16) = 2 ^ 20 * 4 ∧
    (∃ o, (brAfter brCalls).1.graph.objs (2 ^ 20 * 3) = some o ∧ o.tag = 0) ∧
    (gcRuntimeDestroy xgcDefaultAlgorithm (brAfter brCalls).1).mem.blocks.Perm
      [(2 ^ 20 * 6, 24), (2 ^ 20 * 4, 24), (2 ^ 20 * 3, 24)] := by
  have hrun : Run brCollector.HandingStep (brStart, []) brCalls
      ((brAfter brCalls).1, [(2 ^ 20 * 6, 24), (2 ^ 20 * 4, 24), (2 ^ 20 * 3, 24)]) := by
    have hhanded : (brAfter brCalls).2 =
        [(2 ^ 20 * 6, 24), (2 ^ 20 * 4, 24), (2 ^ 20 * 3, 24)] := by decide +kernel
    rw [← hhanded]
    exact brAfter_run brCalls
  obtain ⟨-, hobjs, -, hblocks⟩ :=
    baconRajan_retains (sampleMem_owns fun _ => false) (Option.some_get _).symm hrun
  obtain ⟨-, o, ho, htag, -⟩ := hobjs 0 _ rfl
  exact ⟨by decide +kernel, by decide +kernel, ⟨o, ho, htag⟩, hblocks⟩

/-! ### Programs cannot tell -/

/-- The same objects in the same blocks. -/
theorem brTracked_congr {w w' : BrWorld} (hmem : w'.mem.blocks = w.mem.blocks)
    (hobjs : ∀ a, (w'.graph.objs a).isSome = (w.graph.objs a).isSome) :
    brTracked w' = brTracked w := by
  simp only [brTracked, hmem, hobjs]

/-- What the runtime has allocated for itself. -/
def brOwned (w : BrWorld) : List Block := (w.self, sizeofRuntime) :: handleBlocks w.graph.handles

/-- The invariant at the boundaries of public calls: objects are in live blocks, and not in those of
    the runtime. -/
structure BrInv (w : BrWorld) : Prop where
  heap : HeapInv w.graph (brTracked w)
  owns : w.mem.Owns (brOwned w)
  live : ∀ a, (w.graph.objs a).isSome → ∃ n, (a, n) ∈ w.mem.blocks
  aside : ∀ b ∈ brOwned w, w.graph.objs b.1 = none

namespace BrInv

variable {w : BrWorld}

/-- A block that fits holds no object. -/
theorem fresh (h : BrInv w) {a n : Nat} (hfit : w.mem.Fits a n) : w.graph.objs a = none := by
  by_contra hne
  obtain ⟨k, hk⟩ := h.live a (Option.isSome_iff_ne_none.mpr hne)
  exact (hfit.2.2.2 _ hk).1 rfl

/-- A change of the graph that takes no object away and adds none. -/
theorem reshape (h : BrInv w) (graph : Graph) (hhandles : graph.handles = w.graph.handles)
    (hobjs : ∀ a, (graph.objs a).isSome = (w.graph.objs a).isSome)
    (hheap : HeapInv graph (brTracked w)) :
    BrInv { w with graph } ∧ brTracked { w with graph } = brTracked w := by
  have htracked : brTracked { w with graph } = brTracked w := brTracked_congr rfl hobjs
  refine ⟨⟨by rwa [htracked], ?_, fun a ha => h.live a (hobjs a ▸ ha), fun b hb => ?_⟩, htracked⟩
  · simpa only [brOwned, hhandles] using h.owns
  · have hnone := h.aside b (by simpa only [brOwned, hhandles] using hb)
    rw [← Option.isNone_iff_eq_none, ← Option.not_isSome, hobjs, hnone]
    rfl

theorem quiet (h : BrInv w) {m : Mem} (hq : w.mem.Quiet m) : BrInv { w with mem := m } where
  heap := by
    have htracked : brTracked { w with mem := m } = brTracked w :=
      brTracked_congr hq.blocks fun _ => rfl
    rw [htracked]
    exact h.heap
  owns := h.owns.quiet hq
  live a ha := by
    show ∃ n, (a, n) ∈ m.blocks
    rw [hq.blocks]
    exact h.live a ha
  aside := h.aside

theorem modifyObj_isSome (g : Graph) (a : Addr) (f : GcHeader → GcHeader) (b : Addr) :
    ((g.modifyObj a f).objs b).isSome = (g.objs b).isSome := by
  rw [Graph.modifyObj_objs]
  split
  · next hb => rw [hb, Option.isSome_map]
  · rfl

theorem pushHandle (h : BrInv w) {obj a : Addr} (hobj : obj ∈ brTracked w)
    (hfit : w.mem.Fits a sizeofHandle) (flags : BitVec 32) :
    let k : GcHandle := { addr := a, runtime := w.self, target := obj, flags }
    let w' : BrWorld := { w with mem := w.mem.grant a sizeofHandle, graph := w.graph.pushHandle k }
    BrInv w' ∧ brTracked w' = brTracked w ∧ a ∉ w.graph.handles.map GcHandle.addr := by
  intro k w'
  have hnone := h.fresh hfit
  have hsome : ∀ b, (w'.graph.objs b).isSome = (w.graph.objs b).isSome := fun b =>
    modifyObj_isSome { w.graph with handles := k :: w.graph.handles } obj _ b
  have htracked : brTracked w' = brTracked w := by
    have hhead : (w'.graph.objs a).isSome = false := by rw [hsome, hnone]; rfl
    show (((a, sizeofHandle) :: w.mem.blocks).map Prod.fst).filter _ = _
    rw [List.map_cons, List.filter_cons_of_neg (by simp [hhead])]
    exact List.filter_congr fun b _ => hsome b
  have hnew : a ∉ w.graph.handles.map GcHandle.addr := by
    intro hmem
    obtain ⟨k', hk', hka⟩ := List.mem_map.mp hmem
    exact (h.owns.apart_of_fits hfit (k'.addr, sizeofHandle) (List.mem_cons_of_mem _
      (List.mem_map_of_mem hk'))).1 hka.symm
  refine ⟨⟨?_, ?_, fun b hb => ?_, fun b hb => ?_⟩, htracked, hnew⟩
  · rw [htracked]
    exact h.heap.pushHandle hobj hnew
  · exact (h.owns.grant hfit).perm (List.Perm.swap _ _ _)
  · obtain ⟨n, hn⟩ := h.live b (hsome b ▸ hb)
    exact ⟨n, List.mem_cons_of_mem _ hn⟩
  · have hb' : b.1 = a ∨ b ∈ brOwned w := by
      rcases List.mem_cons.mp hb with rfl | hb
      · exact .inr List.mem_cons_self
      · rcases List.mem_cons.mp hb with rfl | hb
        · exact .inl rfl
        · exact .inr (List.mem_cons_of_mem _ hb)
    have hold : w.graph.objs b.1 = none := by
      rcases hb' with hba | hb
      · rw [hba, hnone]
      · exact h.aside b hb
    rw [← Option.isNone_iff_eq_none, ← Option.not_isSome, hsome, hold]
    rfl

theorem popHandle (h : BrInv w) {k : GcHandle} (hk : k ∈ w.graph.handles) :
    let w' : BrWorld := { w with mem := w.mem.free k.addr, graph := w.graph.popHandle k }
    BrInv w' ∧ brTracked w' = brTracked w := by
  intro w'
  have hsome : ∀ b, (w'.graph.objs b).isSome = (w.graph.objs b).isSome := fun b =>
    modifyObj_isSome { w.graph with
      handles := w.graph.handles.eraseP fun k' => k'.addr = k.addr } k.target _ b
  have hblock : (k.addr, sizeofHandle) ∈ brOwned w :=
    List.mem_cons_of_mem _ (List.mem_map_of_mem (f := fun k => (k.addr, sizeofHandle)) hk)
  have hlive := h.owns.live _ hblock
  have hne := Nat.pos_iff_ne_zero.mp (h.owns.range _ hlive).1
  have hfree : w'.mem.blocks = w.mem.blocks.filter fun b => b.1 ≠ k.addr :=
    congrArg Mem.blocks (Mem.free_of_mem hne hlive)
  have hnone := h.aside _ hblock
  -- there is no object where the handle was
  have hother : ∀ {b}, (w.graph.objs b).isSome → b ≠ k.addr := by
    rintro b hb rfl
    rw [hnone] at hb
    exact Bool.false_ne_true hb
  have htracked : brTracked w' = brTracked w := by
    simp only [brTracked, hfree, hsome]
    rw [List.filter_map, List.filter_map, List.filter_filter]
    congr 1
    refine List.filter_congr fun b _ => ?_
    simp only [Function.comp_apply]
    cases hb : (w.graph.objs b.1).isSome with
    | false => rfl
    | true => simpa using hother hb
  obtain ⟨k', l₁, l₂, -, hk', heq, herase⟩ :=
    List.exists_of_eraseP (p := fun k' => k'.addr = k.addr) hk (by simp)
  have haddr : k'.addr = k.addr := by simpa using hk'
  have hperm : (brOwned w).Perm ((k.addr, sizeofHandle) :: brOwned w') := by
    have hhandles : (handleBlocks w.graph.handles).Perm
        ((k.addr, sizeofHandle) :: handleBlocks w'.graph.handles) := by
      show (handleBlocks w.graph.handles).Perm ((k.addr, sizeofHandle) ::
        handleBlocks (w.graph.handles.eraseP fun k' => k'.addr = k.addr))
      rw [herase, heq, ← haddr]
      simp only [handleBlocks, List.map_append, List.map_cons]
      exact List.perm_middle
    exact (hhandles.cons _).trans (List.Perm.swap _ _ _)
  refine ⟨⟨?_, (h.owns.perm hperm.symm).free, fun b hb => ?_, fun b hb => ?_⟩, htracked⟩
  · rw [htracked]
    exact h.heap.popHandle k
  · rw [hsome] at hb
    obtain ⟨n, hn⟩ := h.live b hb
    exact ⟨n, Mem.mem_free hn (hother hb)⟩
  · have hold := h.aside b (hperm.symm.subset (List.mem_cons_of_mem _ hb))
    rw [← Option.isNone_iff_eq_none, ← Option.not_isSome, hsome, hold]
    rfl

/-- The new object, in a block of its own. -/
theorem addObject (h : BrInv w) {desc : GcDescriptor} (hd : desc.Ok) {a size : Nat}
    (hsize : sizeofHeader ≤ size) (hsize' : size < 2 ^ 32) (hfit : w.mem.Fits a size)
    (flags : BitVec 32) (stats : GcStats) :
    let w' : BrWorld := { { w with mem := w.mem.grant a size }.addObject a desc
      (newHeader desc size (allocatedFlags desc flags)) with stats }
    BrInv w' ∧ Allocated desc size flags w.graph (brTracked w) a w'.graph (brTracked w') := by
  intro w'
  have hnone := h.fresh hfit
  have hobj : w'.graph.objs a = some (newHeader desc size (allocatedFlags desc flags)
      w.graph.history.length) := (Graph.setObj_objs _ _ _ _).trans (if_pos rfl)
  have hother : ∀ {b}, b ≠ a → w'.graph.objs b = w.graph.objs b := fun hb =>
    (Graph.setObj_objs _ _ _ _).trans (if_neg hb)
  have hnotlive : ∀ b ∈ w.mem.blocks, b.1 ≠ a := fun b hb => (hfit.2.2.2 b hb).1.symm
  have htracked : brTracked w' = a :: brTracked w := by
    show (((a, size) :: w.mem.blocks).map Prod.fst).filter _ = _
    rw [List.map_cons, List.filter_cons_of_pos (by simp [hobj])]
    refine congrArg (a :: ·) (List.filter_congr fun b hb => ?_)
    obtain ⟨c, hc, rfl⟩ := List.mem_map.mp hb
    rw [hother (hnotlive c hc)]
  have hnew : a ∉ brTracked w := fun hmem => by
    have hs := (List.mem_filter.mp hmem).2
    rw [hnone] at hs
    exact Bool.false_ne_true hs
  have ha : Allocated desc size flags w.graph (brTracked w) a w'.graph (brTracked w') := by
    refine ⟨Nat.pos_iff_ne_zero.mp hfit.1, hnew, by rw [htracked], w.graph.objs, fun _ _ => rfl, rfl⟩
  refine ⟨⟨ha.heapInv h.heap hd hsize hsize', ?_, fun b hb => ?_, fun b hb => ?_⟩, ha⟩
  · exact (h.owns.grant hfit).tail
  · rcases eq_or_ne b a with rfl | hne
    · exact ⟨size, List.mem_cons_self⟩
    · rw [hother hne] at hb
      obtain ⟨n, hn⟩ := h.live b hb
      exact ⟨n, List.mem_cons_of_mem _ hn⟩
  · have hb' : b ∈ brOwned w := hb
    rw [hother (hnotlive b (h.owns.live b hb'))]
    exact h.aside b hb'

end BrInv

section

variable {σ : Type}

/-- A collection that nobody lets happen. -/
def World.refused (w : World σ) : World σ := { w with mem := w.mem.refuse }

/-- The same collector, but for its collections: a client that is granted all its requests never
    collects. -/
def Collector.mute (C : Collector σ) : Collector σ :=
  { C with algo := { C.algo with
      collectMinor := some World.refused
      collectMajor := some World.refused
      collectFull := some World.refused } }

variable {C : Collector σ}

theorem Path.eval_mute (w : World σ) (names : List Addr) (p : Path) :
    p.eval C.mute w names = p.eval C w names := by
  induction p with
  | root | handle => rfl
  | slot p loc ih =>
    simp only [Path.eval, ih]
    rfl

theorem Path.evalRef_mute (w : World σ) (names : List Addr) (p : Option Path) :
    Path.evalRef C.mute w names p = Path.evalRef C w names p := by
  cases p with
  | none => rfl
  | some p => exact p.eval_mute w names

/-- The steps that are no collections are the same. -/
theorem ProgOp.Step.mute {s s' : World σ × List Addr} {op : ProgOp} (hop : op.computes = true)
    (h : ProgOp.Step C s op s') : ProgOp.Step C.mute s op s' := by
  cases op with
  | alloc i desc size flags => exact h
  | store owner loc value =>
    simp only [ProgOp.Step, Path.eval_mute, Path.evalRef_mute]
    exact h
  | write obj bytes =>
    simp only [ProgOp.Step, Path.eval_mute]
    exact h
  | setRoot i value =>
    simp only [ProgOp.Step, Path.evalRef_mute]
    exact h
  | acquire obj flags =>
    simp only [ProgOp.Step, Path.eval_mute]
    exact h
  | release n => exact h
  | collectMinor | collectMajor | collectFull => exact absurd hop Bool.false_ne_true

end

namespace BrInv

variable {w : BrWorld}

/-- An allocation that is granted its requests. -/
theorem alloc (h : BrInv w) {desc : GcDescriptor} (hd : desc.Ok) {size : Nat}
    (hmax : size < 2 ^ 32) (flags : BitVec 32)
    (hg : ((ClientOp.alloc desc size flags).perform brCollector.mute w).1.Granted) :
    BrInv ((ClientOp.alloc desc size flags).perform brCollector.mute w).1 ∧
      Effect id (.alloc desc size flags) w.graph (brTracked w)
        ((ClientOp.alloc desc size flags).perform brCollector.mute w).2
        ((ClientOp.alloc desc size flags).perform brCollector.mute w).1.graph
        (brTracked ((ClientOp.alloc desc size flags).perform brCollector.mute w).1) := by
  simp only [Effect]
  by_cases hsmall : size < sizeofHeader
  · have heq : (ClientOp.alloc desc size flags).perform brCollector.mute w = (w, 0) :=
      if_pos hsmall
    rw [heq, if_pos hsmall]
    exact ⟨h, rfl, rfl, rfl⟩
  have hsize := Nat.le_of_not_lt hsmall
  rw [if_neg hsmall]
  rcases gcAllocTyped_br_cases w desc flags hsize with
    ⟨m, -, hf, heq⟩ | ⟨a, m, first, stats, hq, hfit, hfirst, heq⟩
  · exact absurd (hf.symm.trans ((congrArg (fun r => r.1.mem.failed) heq).symm.trans hg.1))
      Bool.noConfusion
  -- no request was refused, so the header is the one that the algorithm writes
  obtain rfl := hfirst.resolve_right fun hz => by
    have hf : m.failed = false := (congrArg (fun r => r.1.mem.failed) heq).symm.trans hg.1
    exact Bool.noConfusion (hz.2.symm.trans hf)
  have hperform : (ClientOp.alloc desc size flags).perform brCollector.mute w = _ := heq
  have hmod : size % 2 ^ 32 ≠ 0 := by
    rw [Nat.mod_eq_of_lt hmax]
    unfold sizeofHeader at hsize
    omega
  obtain ⟨hinv, ha⟩ := (h.quiet hq).addObject hd hsize hmax hfit flags stats
  simp only [repairHeader_newHeader desc hmod] at hperform
  have htracked : brTracked { w with mem := m } = brTracked w :=
    brTracked_congr hq.blocks fun _ => rfl
  rw [htracked] at ha
  rw [hperform]
  exact ⟨hinv, w.graph, brTracked w, _, id, .refl h.heap, ha⟩

/-- A handle that is granted its request. -/
theorem acquire (h : BrInv w) {obj : Addr} (hobj : obj = 0 ∨ obj ∈ brTracked w) (flags : BitVec 32)
    (hg : ((ClientOp.acquire obj flags).perform brCollector.mute w).1.Granted) :
    BrInv ((ClientOp.acquire obj flags).perform brCollector.mute w).1 ∧
      Effect id (.acquire obj flags) w.graph (brTracked w)
        ((ClientOp.acquire obj flags).perform brCollector.mute w).2
        ((ClientOp.acquire obj flags).perform brCollector.mute w).1.graph
        (brTracked ((ClientOp.acquire obj flags).perform brCollector.mute w).1) := by
  simp only [Effect]
  by_cases h0 : obj = 0
  · have heq : (ClientOp.acquire obj flags).perform brCollector.mute w = (w, 0) := if_pos h0
    rw [heq, if_pos h0]
    exact ⟨h, rfl, rfl, rfl⟩
  rw [if_neg h0]
  rcases @gcHandleAcquire_cases _ xgcDefaultAlgorithm rfl w _ h0 flags with heq | ⟨a, hfit, heq⟩
  · exact absurd ((congrArg (fun r => r.1.mem.failed) heq).symm.trans hg.1) Bool.noConfusion
  · have hperform : (ClientOp.acquire obj flags).perform brCollector.mute w = _ := heq
    obtain ⟨hinv, htracked, hnew⟩ := h.pushHandle (hobj.resolve_left h0) hfit flags
    rw [hperform]
    exact ⟨hinv, Nat.pos_iff_ne_zero.mp hfit.1, hnew, htracked, w.self, rfl⟩

/-- The release of one of the runtime's handles. -/
theorem release (h : BrInv w) {handle : Addr}
    (hhandle : handle = 0 ∨ handle ∈ w.graph.handles.map GcHandle.addr) :
    BrInv ((ClientOp.release handle).perform brCollector.mute w).1 ∧
      Effect id (.release handle) w.graph (brTracked w)
        ((ClientOp.release handle).perform brCollector.mute w).2
        ((ClientOp.release handle).perform brCollector.mute w).1.graph
        (brTracked ((ClientOp.release handle).perform brCollector.mute w).1) := by
  simp only [Effect]
  by_cases h0 : handle = 0
  · have heq : (ClientOp.release handle).perform brCollector.mute w = (w, 0) :=
      congrArg (·, 0) (if_pos h0)
    rw [heq, if_pos h0]
    exact ⟨h, rfl, rfl⟩
  obtain ⟨k, hk⟩ := Lib.exists_lookup (hhandle.resolve_left h0)
  obtain ⟨hkm, rfl⟩ := Lib.mem_of_lookup hk
  have ht : k.target ≠ 0 := h.heap.ne_zero (h.heap.handles k hkm)
  -- the hook takes the pinned flag off the target
  have heq : (ClientOp.release k.addr).perform brCollector.mute w =
      ({ w with mem := w.mem.free k.addr, graph := w.graph.popHandle k }, 0) := by
    simp only [ClientOp.perform, gcHandleRelease, if_neg h0, hk, Collector.mute, brCollector,
      xgcDefaultAlgorithm, gcBaconRajanVtable, callHook, ne_eq, ht, not_false_eq_true, if_true]
    rfl
  obtain ⟨hinv, htracked⟩ := h.popHandle hkm
  rw [heq, if_neg h0]
  exact ⟨hinv, htracked, k, hkm, rfl, rfl⟩

end BrInv

/-- Without collections bacon-rajan is like the other algorithms. -/
theorem brCollector_lawful : brCollector.mute.Lawful BrInv where
  heap _ h := h.heap
  start w hstart := by
    obtain ⟨cfg, hooks, mem, -, hhooks, hmem, hcreate, -⟩ := hstart
    obtain ⟨a, m, hfit, hq, rfl⟩ := gcRuntimeCreate_br hcreate
    have htracked : brTracked (freshWorld (gcRuntimeApplyDefaultConfig cfg) hooks a m) = [] :=
      List.filter_eq_nil_iff.mpr fun _ _ => Bool.false_ne_true
    refine ⟨?_, (hmem.grant hfit).quiet hq, fun b hb => absurd hb Bool.false_ne_true, fun _ _ => rfl⟩
    rw [htracked]
    exact heapInv_fresh hhooks
  step w op w' h hst := by
    obtain ⟨hl, rfl, hg⟩ := hst
    cases op with
    | alloc desc size flags =>
      exact h.alloc hl.1 (lt_of_le_of_lt hl.2 (by decide)) flags hg
    | storeRef owner loc v =>
      obtain ⟨hinv, htracked⟩ := h.reshape (w.graph.write (.field owner loc) v) rfl
        (BrInv.modifyObj_isSome w.graph owner _) (h.heap.writeField hl.2.1 hl.2.2)
      exact ⟨hinv, rfl, htracked⟩
    | loadRef | get => exact ⟨h, rfl, rfl, rfl⟩
    | writeBytes obj bytes =>
      obtain ⟨hinv, htracked⟩ := h.reshape (w.graph.modifyObj obj fun o => { o with bytes }) rfl
        (BrInv.modifyObj_isSome w.graph obj _) (h.heap.writeBytes hl.2)
      exact ⟨hinv, rfl, htracked⟩
    | setRoot i v =>
      obtain ⟨hinv, htracked⟩ := h.reshape (w.graph.write (.root i) v) rfl (fun _ => rfl)
        (h.heap.writeRoot hl.1 hl.2)
      exact ⟨hinv, rfl, htracked⟩
    | acquire obj flags => exact h.acquire hl flags hg
    | release handle => exact h.release hl
    | collectMinor | collectMajor | collectFull =>
      -- a silent collector counts a collection as refused
      exact absurd hg.1 Bool.noConfusion

theorem brCollector_runs : brCollector.mute.Runs BrInv where
  init init hinit w cfg := by
    obtain rfl := Option.some.inj (show some gcBaconRajanGlobalInit = some init from hinit)
    simp only [gcBaconRajanGlobalInit]
    split <;> rfl
  lawful := brCollector_lawful
  read _ _ := rfl
  size n _ hmax := lt_of_le_of_lt hmax (by decide : 2 ^ 32 - 1 < 2 ^ 32)

/-- Each step of a program on bacon-rajan is the step that the program means, collections included. -/
theorem brCollector_step {w w' : BrWorld} {names names' : List Addr} {t : ProgState} {op : ProgOp}
    (h : BrInv w) (r : brCollector.Holds t w names)
    (hst : ProgOp.Step brCollector (w, names) op (w', names')) :
    BrInv w' ∧ brCollector.Holds (t.step op) w' names' := by
  cases op with
  | collectMinor | collectMajor | collectFull =>
    simp only [ProgOp.Step] at hst
    obtain ⟨⟨-, rfl, -⟩, rfl⟩ := hst
    exact ⟨⟨h.heap, h.owns, h.live, h.aside⟩, r⟩
  | alloc | store | write | setRoot | acquire | release =>
    exact brCollector_runs.step h r (hst.mute rfl)

/-- A run ends in what the program means. -/
theorem brCollector_run {w₀ w : BrWorld} {names : List Addr} {ops : List ProgOp}
    (hw : brCollector.Starts w₀) (hrun : Run (ProgOp.Step brCollector) (w₀, []) ops (w, names)) :
    BrInv w ∧ brCollector.Holds (meaning ops) w names := by
  have hmute : brCollector.mute.Starts w₀ := hw
  have hmeant := Run.foldl (L := fun _ => True) (f := ProgState.step) ops .init fun _ _ => trivial
  refine hrun.lockstep (R := fun (u : BrWorld × List Addr) t => BrInv u.1 ∧
    brCollector.Holds t u.1 u.2) (fun u t op u' t' hr hst hs => ?_) hmeant
    ⟨brCollector_lawful.start w₀ hmute, brCollector_runs.start hmute⟩
  obtain ⟨-, rfl⟩ := hs
  exact brCollector_step hr.1 hr.2 hst

/-- That objects are reclaimed, moved and promoted cannot be told by a program: it gets at the same
    objects under the algorithm that keeps everything. -/
theorem reclaiming_unobservable {w₀ w : BrWorld} {names names' : List Addr} {ops : List ProgOp}
    (hw : brCollector.Starts w₀) (hrun : Run (ProgOp.Step brCollector) (w₀, []) ops (w, names))
    {ι : Type} [DecidableEq ι] {kind : ι → Reclaimer} {mem : Mem} (hmem : mem.Owns [])
    {events : List (FleetOp ι)} {s : Fleet fun i => (kind i).State}
    (hfleet : Run (Fleet.Step fun i => (kind i).manager) (.empty mem) events s) {i : ι}
    {v : World (kind i).State} (hi : s.rts i = some (v, names'))
    (hsame : ops.filter ProgOp.computes = (programs events i).filter ProgOp.computes) :
    ∃ φ, Agree id (kind i).manager.rounded w.graph v.graph names names' φ := by
  obtain ⟨h, r⟩ := brCollector_run hw hrun
  have hok := Fleet.ok_run (fun i => (kind i).tenant) hmem hfleet
  have hheap := (hok.inv i v names' hi).heap
  rw [(kind i).tenant.tracked_on] at hheap
  have r' := hok.holds i v names' hi
  rw [Function.comp_apply, ← meaning_computes, ← hsame, meaning_computes] at r'
  exact exists_agree h.heap hheap r r'

theorem brStart_starts : brCollector.Starts brStart :=
  Collector.sampleStart_starts (by decide : 0 < 2 ^ 64) (Option.some_get _).symm (by decide +kernel)

/-- A cell and a full collection, next to the one cell that `genThen` has. -/
theorem reclaiming_unobservable_sample : ∃ φ, Agree id alignedSize
    (gcCollectFull xgcDefaultAlgorithm (brCollector.rootCell 0 brStart)).graph genThen.graph [] []
      φ := by
  have hrun : Run (ProgOp.Step brCollector) (brStart, []) [.alloc 0 cell 24 0, .collectFull]
      (gcCollectFull xgcDefaultAlgorithm (brCollector.rootCell 0 brStart), []) :=
    ((Run.nil _).snoc (.rootCell (by decide) (by decide +kernel) (by decide +kernel)
      (by decide +kernel))).snoc (.collectFull (by decide +kernel))
  have hgen : sampleFleet.rts true = some (genThen, []) := rfl
  exact reclaiming_unobservable brStart_starts hrun (sampleMem_owns fun _ => false) sampleFleet_run
    hgen rfl

end Xgc
