import Xgc.Guarantees.Cards
import Xgc.Guarantees.Pinning

/-! The remembered set over a run. Between two collections it holds each old object with the cards
    of the slots that references to young objects have been stored in, and nothing else. -/

namespace Xgc

open Lib (Run)
open GcBarrierSet (cardIndexFor)

variable {w w' : GenWorld} {stores : List (Addr × Addr)}

/-! ### What is to be remembered -/

/-- The owners and slots that references from old to young objects have been stored in since the
    nursery was emptied last, after one more call. -/
def ClientOp.stored (w : GenWorld) (stores : List (Addr × Addr)) : ClientOp → List (Addr × Addr)
  | .storeRef owner loc v =>
    if gcGenInNursery w.algoState owner = false ∧ gcGenInNursery w.algoState v = true then
      (owner, loc.addr owner) :: stores
    else stores
  | .alloc _ size flags => if AllocCollects w size flags then [] else stores
  | .collectMinor | .collectMajor | .collectFull => []
  | _ => stores

/-- A call, none of whose requests is refused, next to the stores so far. -/
def StoringStep (s : GenWorld × List (Addr × Addr)) (op : ClientOp)
    (s' : GenWorld × List (Addr × Addr)) : Prop :=
  genCollector.Step s.1 op s'.1 ∧ s'.2 = op.stored s.1 s.2

/-- Each old object with its size and the cards that these stores lie on. -/
def cardsOf (w : GenWorld) (stores : List (Addr × Addr)) : CardMap := fun o =>
  if o ∈ w.old then
    some {
      size := w.graph.sizeAt o
      dirty := ((stores.filter fun s => s.1 = o).map fun s =>
        CardMap.cardOf w.barriers.oldToYoung.cardGranularity o (w.graph.sizeAt o) s.2).toFinset }
  else none

/-! ### Step by step -/

/-- The old objects are those outside the nursery. -/
theorem mem_old_iff (h : (genManager True).Inv w) {a : Addr} (ha : a ∈ genCollector.tracked w) :
    a ∈ w.old ↔ gcGenInNursery w.algoState a = false := by
  refine ⟨(genManager_ok h).inNursery_old, fun hout => ?_⟩
  refine (List.mem_append.mp ha).resolve_right fun hy => ?_
  exact absurd (hout.symm.trans ((genManager_ok h).inNursery_young hy)) Bool.false_ne_true

/-- A reference leads to a young object when it leads into the nursery. -/
theorem mem_young_iff (h : (genManager True).Inv w) {v : Addr}
    (hv : v = 0 ∨ v ∈ genCollector.tracked w) :
    v ∈ nurseryObjects w ↔ gcGenInNursery w.algoState v = true := by
  refine ⟨(genManager_ok h).inNursery_young, fun hin => ?_⟩
  rcases hv with rfl | hv
  · simp [gcGenInNursery] at hin
  · refine (List.mem_append.mp hv).resolve_left fun ho => ?_
    exact absurd (((genManager_ok h).inNursery_old ho).symm.trans hin) Bool.false_ne_true

/-- The dirty cards are those of the stores, whose owners are old. -/
structure StoresDirty (w : GenWorld) (stores : List (Addr × Addr)) : Prop where
  owners : ∀ s ∈ stores, s.1 ∈ w.old
  dirty : ∀ o c, w.barriers.Dirty o c ↔ ∃ s ∈ stores, s.1 = o ∧
    c = cardIndexFor w.barriers.oldToYoung.cardGranularity o (w.graph.sizeAt o) s.2

namespace StoresDirty

/-- Without stores no card is dirty. -/
theorem nil (hclean : ∀ o c, ¬ w.barriers.Dirty o c) : StoresDirty w [] where
  owners _ hs := absurd hs List.not_mem_nil
  dirty o c := ⟨fun hd => absurd hd (hclean o c), fun ⟨_, hs, _⟩ => absurd hs List.not_mem_nil⟩

/-- Old objects may be added. -/
theorem mono (h : StoresDirty w stores) (hold : ∀ a ∈ w.old, a ∈ w'.old)
    (hdirty : ∀ o c, w'.barriers.Dirty o c ↔ w.barriers.Dirty o c)
    (hgran : w'.barriers.oldToYoung.cardGranularity = w.barriers.oldToYoung.cardGranularity)
    (hsize : ∀ a ∈ w.old, w'.graph.sizeAt a = w.graph.sizeAt a) : StoresDirty w' stores where
  owners s hs := hold _ (h.owners s hs)
  dirty o c := by
    rw [hdirty, h.dirty, hgran]
    constructor
    · rintro ⟨s, hs, rfl, hc⟩
      exact ⟨s, hs, rfl, by rw [hsize _ (h.owners s hs)]; exact hc⟩
    · rintro ⟨s, hs, rfl, hc⟩
      exact ⟨s, hs, rfl, by rw [hsize _ (h.owners s hs)] at hc; exact hc⟩

/-- A change of the graph that keeps sizes. -/
theorem reshape (h : StoresDirty w stores) (hinv : (genManager True).Inv w) {graph : Graph}
    (mem : Mem) (hs : SameShape w.graph graph (genCollector.tracked w)) :
    StoresDirty { w with graph, mem } stores :=
  h.mono (fun _ ha => ha) (fun _ _ => Iff.rfl) rfl fun _ ha =>
    hs.sizeAt hinv.heap (List.mem_append_left _ ha)

/-- A store adds its card when it makes an old object refer to a young one. -/
theorem storeRef (h : StoresDirty w stores) (hinv : (genManager True).Inv w) {owner : Addr}
    {loc : SlotLoc} {v : Addr} (hl : ClientOp.Legal genCollector.maxSize w.graph
      (genCollector.tracked w) (.storeRef owner loc v)) :
    StoresDirty (gcStoreRef gcGenCopyMsVtable w owner loc v)
      ((ClientOp.storeRef owner loc v).stored w stores) := by
  obtain ⟨howner, hlayout, hv⟩ := hl
  obtain ⟨o, ho, hook, -⟩ := hinv.heap.objs owner howner
  have hok := genManager_ok hinv
  have haddr := hook.addr_ne_zero (hlayout o ho) (hinv.heap.ne_zero howner)
  have hsize := fun a => w.graph.sizeAt_write (.field owner loc) v a
  have hstore : gcStoreRef gcGenCopyMsVtable w owner loc v = gcGenWriteBarrier
      { w with graph := w.graph.write (.field owner loc) v } owner loc (w.graph.slot owner loc) v :=
    rfl
  rw [hstore]
  rcases gcGenWriteBarrier_cases hinv howner haddr hv (w.graph.write (.field owner loc) v)
      (w.graph.slot owner loc) with ⟨heq, hno⟩ | ⟨hoo, hvy, heq⟩
  · have hstored : (ClientOp.storeRef owner loc v).stored w stores = stores := by
      refine if_neg fun ⟨hout, hin⟩ => ?_
      exact hno ((mem_old_iff hinv howner).mpr hout) ((mem_young_iff hinv hv).mpr hin)
    rw [heq, hstored]
    exact h.mono (fun _ ha => ha) (fun _ _ => Iff.rfl) rfl fun a _ => hsize a
  · have hstored : (ClientOp.storeRef owner loc v).stored w stores =
        (owner, loc.addr owner) :: stores :=
      if_pos ⟨hok.inNursery_old hoo, hok.inNursery_young hvy⟩
    obtain ⟨-, hsame, hdirty⟩ := GcBarrierSet.markSlot_spec hinv.rt.barriers owner haddr
    rw [heq, hstored]
    refine ⟨fun s hs => ?_, fun o c => ?_⟩
    · rcases List.mem_cons.mp hs with rfl | hs
      · exact hoo
      · exact h.owners s hs
    · show GcBarrierSet.Dirty (gcBarrierMarkSlotDirty _ _ _) o c ↔ ∃ s ∈ _, _ ∧ c = cardIndexFor
        (gcBarrierMarkSlotDirty _ _ _).oldToYoung.cardGranularity _ _ _
      simp only [hdirty, h.dirty, hsame.granularity, hsize, List.exists_mem_cons_iff]
      rw [or_comm]
      refine or_congr_left ⟨?_, ?_⟩
      · rintro ⟨rfl, n, hn, rfl⟩
        exact ⟨rfl, by rw [((hinv.alg.layout.owners _ _).mp hn).2]⟩
      · rintro ⟨rfl, rfl⟩
        exact ⟨rfl, _, (hinv.alg.layout.owners _ _).mpr ⟨hoo, rfl⟩, rfl⟩

/-- A collection leaves all cards clean. -/
theorem collected (hinv : (genManager True).Inv w) (hused : w.algoState.nurseryUsed = 0) :
    StoresDirty w [] :=
  .nil (hinv.alg.clean trivial hused)

theorem allocated (h : StoresDirty w stores) {desc : GcDescriptor} {size : Nat} {flags : BitVec 32}
    {a : Addr} (ha : Allocated desc size flags w.graph (genCollector.tracked w) a w'.graph
      (genCollector.tracked w')) (hold : ∀ b ∈ w.old, b ∈ w'.old)
    (hdirty : ∀ o c, w'.barriers.Dirty o c ↔ w.barriers.Dirty o c)
    (hgran : w'.barriers.oldToYoung.cardGranularity = w.barriers.oldToYoung.cardGranularity) :
    StoresDirty w' stores :=
  h.mono hold hdirty hgran fun b hb => by
    rw [Graph.sizeAt, ha.objs (List.mem_append_left _ hb), Graph.sizeAt]

/-- An allocation remembers nothing, and forgets the stores when it makes room. -/
theorem alloc (h : StoresDirty w stores) (hinv : (genManager True).Inv w) {desc : GcDescriptor}
    (hd : desc.Ok) {size : Nat} (hmax : size ≤ 2 ^ 32 - 8) {flags : BitVec 32}
    (hg : (gcAllocTyped gcGenCopyMsVtable w desc size flags).1.Granted) :
    StoresDirty (gcAllocTyped gcGenCopyMsVtable w desc size flags).1
      ((ClientOp.alloc desc size flags).stored w stores) := by
  have hkept : ¬ AllocCollects w size flags →
      (ClientOp.alloc desc size flags).stored w stores = stores := fun hno => if_neg hno
  rcases gcAllocTyped_gen_cases hinv desc hmax flags with
    ⟨m, b, hq, -, hb, hcards, hno, heq⟩ | ⟨hsize, hyoung, heq⟩ |
    ⟨hsize, hno, t, m, b, hfit, hq, hb, hcards, heq⟩ |
    ⟨hsize, -, a, m, b, hq, hf, hb, hcards, hfit, heq⟩
  · rw [heq, hkept hno]
    exact h.mono (fun _ ha => ha) hcards.dirty hcards.granularity fun _ _ => rfl
  · obtain ⟨hmin, hlt, -⟩ := alignedSize_spec hsize hmax
    have hroom := (withRoom_spec hinv hsize hyoung).2.1
    rw [heq] at hg ⊢
    by_cases hc : AllocCollects w size flags
    · have hw₁ : withRoom w size flags = gcGenCollectMinorImpl w := if_pos hc
      rw [hw₁] at hg ⊢
      obtain ⟨hinv₁, φ, he⟩ := gcGenCollectMinorImpl_exact hinv hg.1 hg.2.1
      have hstored : (ClientOp.alloc desc size flags).stored w stores = [] := if_pos hc
      rw [hstored]
      exact .nil (hinv₁.alg.clean trivial he.used)
    · have hw₁ : withRoom w size flags = w := if_neg hc
      rw [hw₁] at hroom ⊢
      rw [hkept hc]
      obtain ⟨-, ha⟩ := gcGenAllocYoung_spec hinv hd hmin hlt hroom hyoung.1
      exact h.allocated ha (fun _ hb => hb) (fun _ _ => Iff.rfl) rfl
  · obtain ⟨hmin, hlt, -⟩ := alignedSize_spec hsize hmax
    obtain ⟨-, ha⟩ := allocatedOld_spec hinv hd hmin hlt flags hfit hq hb hcards
    rw [heq, hkept hno]
    exact h.allocated ha (fun _ hb => List.mem_cons_of_mem _ hb) hcards.dirty hcards.granularity
  · -- plain memory is had only when a request has been refused
    rw [heq] at hg
    exact absurd (hg.1.symm.trans hf) Bool.false_ne_true

end StoresDirty

/-- Each call does to the cards what it does to the account of the stores. -/
theorem StoringStep.keeps {op : ClientOp} {stores' : List (Addr × Addr)}
    (hinv : (genManager True).Inv w) (h : StoresDirty w stores)
    (hst : StoringStep (w, stores) op (w', stores')) :
    (genManager True).Inv w' ∧ StoresDirty w' stores' := by
  obtain ⟨hstep, rfl⟩ := hst
  have hinv' := (genManager_sound.lawful.step _ _ _ hinv hstep).1
  refine ⟨hinv', ?_⟩
  obtain ⟨hl, rfl, hg⟩ := hstep
  cases op with
  | alloc desc size flags => exact h.alloc hinv hl.1 hl.2 hg
  | storeRef owner loc v => exact h.storeRef hinv hl
  | loadRef | get => exact h
  | writeBytes obj bytes => exact h.reshape hinv w.mem (sameShape_writeBytes _ _ obj bytes)
  | setRoot i v => exact h.reshape hinv w.mem (.of_objs rfl _)
  | acquire obj flags =>
    show StoresDirty (gcHandleAcquire gcGenCopyMsVtable w obj flags).1 stores
    by_cases hobj : obj = 0
    · rwa [gcHandleAcquire, if_pos hobj]
    · rcases @gcHandleAcquire_cases _ gcGenCopyMsVtable rfl w _ hobj flags with heq | ⟨a, -, heq⟩
      · rw [heq]
        exact h.reshape hinv _ (.of_objs rfl _)
      · rw [heq]
        exact h.reshape hinv _ (sameShape_pushHandle _ _ _)
  | release handle =>
    show StoresDirty (gcHandleRelease gcGenCopyMsVtable w handle) stores
    rcases hl with rfl | hmem
    · exact h
    · obtain ⟨k, -, -, heq⟩ :=
        Manager.release_spec (genManager_sound : (genManager True).Sound) hinv hmem
      have heq' : gcHandleRelease gcGenCopyMsVtable w handle = _ := heq
      rw [heq']
      exact h.reshape hinv _ (sameShape_popHandle _ _ k)
  | collectMinor =>
    obtain ⟨-, φ, he⟩ := gcGenCollectMinorImpl_exact hinv hg.1 hg.2.1
    exact .collected hinv' he.used
  | collectMajor | collectFull =>
    obtain ⟨-, hused, -⟩ := gcGenCollectFullImpl_exact hinv hg
    exact .collected hinv' hused

/-! ### Over a whole run -/

/-- The dirty cards of an old object, counted in bytes or as the card table does. -/
theorem StoresDirty.mem_cards (h : StoresDirty w stores) (hinv : (genManager True).Inv w) {o : Addr}
    (ho : o ∈ w.old) (i : Nat) :
    i ∈ ((stores.filter fun s => s.1 = o).map fun s =>
      CardMap.cardOf w.barriers.oldToYoung.cardGranularity o (w.graph.sizeAt o) s.2).toFinset ↔
    w.barriers.Dirty o i := by
  obtain ⟨hmin, hlt⟩ := hinv.alg.layout.sized o (List.mem_append_left _ ho)
  have hne : w.graph.sizeAt o ≠ 0 := by
    unfold sizeofHeader at hmin
    omega
  rw [h.dirty]
  simp only [List.mem_toFinset, List.mem_map, List.mem_filter, decide_eq_true_eq, and_assoc,
    GcBarrierSet.cardOf_eq hinv.rt.barriers.granularity hinv.rt.granularity hne hlt,
    eq_comm (a := i)]

theorem StoresDirty.view (h : StoresDirty w stores) (hinv : (genManager True).Inv w) :
    w.barriers.view = cardsOf w stores := by
  funext o
  refine Option.ext fun c => ?_
  rw [GcBarrierSet.view_eq_some hinv.rt.barriers, hinv.alg.layout.owners, cardsOf]
  by_cases ho : o ∈ w.old
  · rw [if_pos ho, Option.some.injEq]
    constructor
    · rintro ⟨⟨-, hsize⟩, hdirty⟩
      have hcards := Finset.ext fun i => (h.mem_cards hinv ho i).trans (hdirty i).symm
      rw [hcards, hsize]
    · rintro rfl
      exact ⟨⟨ho, rfl⟩, h.mem_cards hinv ho⟩
  · rw [if_neg ho]
    exact ⟨fun hc => absurd hc.1.1 ho, fun hc => absurd hc (Option.some_ne_none c).symm⟩

/-- A fresh runtime has an empty nursery. -/
theorem nurseryUsed_starts (hw : genCollector.Starts w) : w.algoState.nurseryUsed = 0 := by
  have hinv : (genManager True).Inv w := genManager_sound.start w hw
  obtain ⟨hooks, hgraph⟩ := genCollector_starts hw
  have hnil : nurseryObjects w = [] := by
    refine List.eq_nil_iff_forall_not_mem.mpr fun y hy => ?_
    obtain ⟨o, ho, -⟩ := hinv.heap.objs y (List.mem_append_right _ hy)
    rw [hgraph] at ho
    exact absurd ho.symm (Option.some_ne_none o)
  have htiles := hinv.alg.layout.tiles
  rw [hnil] at htiles
  exact htiles

/-- Over every run the remembered set holds exactly the old objects, with the cards of the stores
    that have made them refer to young objects since the nursery was emptied last. -/
theorem remembered_exact {w₀ : GenWorld} (hw₀ : genCollector.Starts w₀) {ops : List ClientOp}
    (hrun : Run StoringStep (w₀, []) ops (w, stores)) : Holds w.barriers (cardsOf w stores) := by
  have hinv₀ : (genManager True).Inv w₀ := genManager_sound.start w₀ hw₀
  have hstart : StoresDirty w₀ [] := .collected hinv₀ (nurseryUsed_starts hw₀)
  obtain ⟨hinv, h⟩ := hrun.invariant
    (P := fun s : GenWorld × List (Addr × Addr) => (genManager True).Inv s.1 ∧ StoresDirty s.1 s.2)
    (fun _ _ _ hs hst => StoringStep.keeps hs.1 hs.2 hst) ⟨hinv₀, hstart⟩
  rw [← h.view hinv]
  exact .of_ok hinv.rt.barriers

/-- An old cell, a young one next, and a reference from the one to the other. -/
def genOldCell : GenWorld × Addr :=
  (ClientOp.alloc cell 24 allocPinned).perform genCollector genStart

def genYoungCell : GenWorld × Addr := (ClientOp.alloc cell 24 0).perform genCollector genOldCell.1

def genOldToYoung : GenWorld :=
  ((ClientOp.storeRef genOldCell.2 (.inline 16) genYoungCell.2).perform genCollector
    genYoungCell.1).1

theorem remembered_exact_sample : genOldToYoung.barriers.dirtyCards = 1 ∧
    Holds genOldToYoung.barriers (cardsOf genOldToYoung [(genOldCell.2, genOldCell.2 + 16)]) := by
  have hold : StoringStep (genStart, []) (.alloc cell 24 allocPinned) (genOldCell.1, []) :=
    ⟨⟨⟨cell_ok, by decide +kernel⟩, by rw [genOldCell], by decide +kernel⟩, by decide +kernel⟩
  have hyoung : StoringStep (genOldCell.1, []) (.alloc cell 24 0) (genYoungCell.1, []) :=
    ⟨⟨⟨cell_ok, by decide +kernel⟩, by rw [genYoungCell], by decide +kernel⟩, by decide +kernel⟩
  have hlayout : ((genYoungCell.1.graph.objs genOldCell.2).all fun o =>
      decide (.inline 16 ∈ o.layout)) = true := by decide +kernel
  have hstore : StoringStep (genYoungCell.1, [])
      (.storeRef genOldCell.2 (.inline 16) genYoungCell.2)
      (genOldToYoung, [(genOldCell.2, genOldCell.2 + 16)]) := by
    refine ⟨⟨⟨by decide +kernel, fun o ho => ?_, .inr (by decide +kernel)⟩, by rw [genOldToYoung],
      by decide +kernel⟩, by decide +kernel⟩
    rw [ho] at hlayout
    simpa using hlayout
  exact ⟨by decide +kernel, remembered_exact genStart_starts
    ((((Run.nil _).snoc hold).snoc hyoung).snoc hstore)⟩

end Xgc
