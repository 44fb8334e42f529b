import Xgc.Guarantees.Motion
import Xgc.Guarantees.Remembered

/-! Which objects die in a call, and in which order. Mark-sweep links new objects in front, and
    finalizes the newest first; the pass over the nursery follows the addresses, and finalizes the oldest
    first; the sweep of a full collection follows the list of old objects. -/

namespace Xgc

open Lib (Run)

/-- From `g` to `g'` the objects `dead` have died, one after the other. -/
def Graph.Loses (g g' : Graph) (dead : List Nat) : Prop :=
  g'.log = g.log ++ dead.flatMap (deathsOf g.history)

/-- The objects at these addresses, by the numbers of their allocations. -/
def Graph.tags (g : Graph) (addrs : List Addr) : List Nat := addrs.map g.tagAt

/-- Those of the objects at `addrs` in `g` that are not among the objects at `addrs'` in `g'`. -/
def Graph.missing (g : Graph) (addrs : List Addr) (g' : Graph) (addrs' : List Addr) : List Nat :=
  (g.tags addrs).filter fun t => t ∉ g'.tags addrs'

theorem Graph.loses_nil {g g' : Graph} (h : g'.log = g.log) : g.Loses g' [] :=
  h.trans (List.append_nil _).symm

theorem Graph.loses_kill (g : Graph) (addrs : List Addr) : g.Loses (g.kill addrs) (g.tags addrs) :=
  congrArg (g.log ++ ·) (List.flatMap_map ..).symm

theorem HeapInv.tags_lt {g : Graph} {tracked : List Addr} (h : HeapInv g tracked) :
    ∀ t ∈ g.tags tracked, t < g.history.length := by
  intro t ht
  obtain ⟨a, ha, rfl⟩ := List.mem_map.mp ht
  exact h.tag_lt ha

theorem Graph.tags_append (g : Graph) (addrs addrs' : List Addr) :
    g.tags (addrs ++ addrs') = g.tags addrs ++ g.tags addrs' :=
  List.map_append

/-- What is missing, when it is known of each address whether its object is. -/
theorem Graph.missing_eq {g g' : Graph} {addrs addrs' : List Addr} {dead : Addr → Bool}
    (h : ∀ a ∈ addrs, g.tagAt a ∉ g'.tags addrs' ↔ dead a = true) :
    g.missing addrs g' addrs' = g.tags (addrs.filter dead) := by
  rw [Graph.missing, show g.tags addrs = addrs.map g.tagAt from rfl, List.filter_map]
  refine congrArg (List.map g.tagAt) (List.filter_congr fun a ha => ?_)
  rw [Bool.eq_iff_iff, Function.comp_apply, decide_eq_true_iff]
  exact h a ha

theorem Graph.missing_nil {g g' : Graph} {addrs addrs' : List Addr}
    (h : ∀ t ∈ g.tags addrs, t ∈ g'.tags addrs') : g.missing addrs g' addrs' = [] := by
  rw [Graph.missing, List.filter_eq_nil_iff]
  intro t ht
  simp [h t ht]

/-- A new object is newer than the others. -/
theorem Allocated.tags {desc : GcDescriptor} {size : Nat} {flags : BitVec 32} {g g' : Graph}
    {tracked tracked' : List Addr} {a : Addr}
    (ha : Allocated desc size flags g tracked a g' tracked') :
    g'.tagAt a = g.history.length ∧ g'.tags tracked = g.tags tracked :=
  ⟨Graph.tagAt_eq ha.obj, List.map_congr_left fun _ hb => ha.tagAt hb⟩

theorem Allocated.log {desc : GcDescriptor} {size : Nat} {flags : BitVec 32} {g g' : Graph}
    {tracked tracked' : List Addr} {a : Addr}
    (ha : Allocated desc size flags g tracked a g' tracked') : g'.log = g.log := by
  obtain ⟨objs, -, rfl⟩ := ha.graph
  rfl

/-! ### Sweeping -/

section

variable (g : Graph) {live : Addr → Prop} [DecidablePred live] (nodes : List GcNode)

/-- What a sweep leaves are the objects that they were. -/
theorem Graph.tags_liveNodes :
    (g.kill ((deadNodes live nodes).map GcNode.obj)).tags ((liveNodes live nodes).map GcNode.obj) =
      g.tags ((liveNodes live nodes).map GcNode.obj) :=
  List.map_congr_left fun _ ha => tagAt_kill_dead g nodes (mem_liveNodes.mp ha).2

/-- What a sweep leaves is in the order it was in. -/
theorem Graph.tags_swept {R : Nat → Nat → Prop} (h : (g.tags (nodes.map GcNode.obj)).Pairwise R) :
    ((g.kill ((deadNodes live nodes).map GcNode.obj)).tags
      ((liveNodes live nodes).map GcNode.obj)).Pairwise R := by
  rw [Graph.tags_liveNodes]
  exact h.sublist ((List.filter_sublist.map _).map _)

/-- The dead are what a sweep leaves out, in the order of the list. -/
theorem HeapInv.missing_swept (h : HeapInv g (nodes.map GcNode.obj)) :
    g.missing (nodes.map GcNode.obj) (g.kill ((deadNodes live nodes).map GcNode.obj))
      ((liveNodes live nodes).map GcNode.obj) =
    g.tags ((deadNodes live nodes).map GcNode.obj) := by
  have hmissing : ∀ a ∈ nodes.map GcNode.obj, g.tagAt a ∉ (g.kill ((deadNodes live nodes).map
      GcNode.obj)).tags ((liveNodes live nodes).map GcNode.obj) ↔ decide (¬ live a) = true := by
    intro a ha
    rw [Graph.tags_liveNodes, decide_eq_true_iff]
    refine not_congr ⟨fun ht => ?_, fun hl => List.mem_map_of_mem (mem_liveNodes.mpr ⟨ha, hl⟩)⟩
    obtain ⟨b, hb, hba⟩ := List.mem_map.mp ht
    obtain ⟨hbm, hbl⟩ := mem_liveNodes.mp hb
    exact h.tag_inj hbm ha hba ▸ hbl
  rw [Graph.missing_eq hmissing, deadNodes_map]

end

/-! ### Mark-sweep -/

section

variable {w w' : MsWorld}

/-- The list of objects starts with the newest one. -/
def NewestFirst (w : MsWorld) : Prop := (w.graph.tags (msCollector.tracked w)).Pairwise (· > ·)

/-- What dies in a call under mark-sweep: what is not tracked after it. -/
def msDies (w w' : MsWorld) : List Nat :=
  w.graph.missing (msCollector.tracked w) w'.graph (msCollector.tracked w')

/-- The order in which a collection finds the dead. -/
theorem ms_collect_order (h : msManager.Inv w) (ho : NewestFirst w) :
    NewestFirst (gcMarksweepCollectFullImpl w) ∧
      w.graph.Loses (gcMarksweepCollectFullImpl w).graph (msDies w (gcMarksweepCollectFullImpl w)) := by
  classical
  obtain ⟨dropped, wl, m, -, -, -, heq⟩ := gcMarksweepCollectFullImpl_spec h
  have hdies : msDies w (gcMarksweepCollectFullImpl w) = w.graph.tags
      ((deadNodes (liveThrough w.graph dropped) w.algoState.objects).map GcNode.obj) := by
    rw [heq]
    exact HeapInv.missing_swept w.graph w.algoState.objects h.heap
  rw [hdies, heq]
  exact ⟨Graph.tags_swept w.graph w.algoState.objects ho, w.graph.loses_kill _⟩

/-- A call after which all objects are still tracked. -/
theorem msDies_nil (htags : ∀ t ∈ w.graph.tags (msCollector.tracked w),
      t ∈ w'.graph.tags (msCollector.tracked w')) (hlog : w'.graph.log = w.graph.log) :
    w.graph.Loses w'.graph (msDies w w') := by
  rw [msDies, Graph.missing_nil htags]
  exact Graph.loses_nil hlog

theorem ms_step_order (h : msManager.Inv w) (ho : NewestFirst w) {op : ClientOp}
    (hs : msCollector.SparedStep msSpared w op w') :
    NewestFirst w' ∧ w.graph.Loses w'.graph (msDies w w') := by
  have hstay : op.stationary = true →
      NewestFirst w' ∧ w.graph.Loses w'.graph (msDies w w') := fun hop => by
    have hstill := msManager_sparing.still h hop hs
    have htags : w'.graph.tags (msCollector.tracked w') = w.graph.tags (msCollector.tracked w) :=
      (congrArg (w'.graph.tags) hstill.tracked).trans
        (List.map_congr_left fun a _ => hstill.tagAt a)
    refine ⟨?_, msDies_nil (fun t ht => ?_) hstill.log⟩
    · rw [NewestFirst, htags]
      exact ho
    · rw [htags]
      exact ht
  obtain ⟨hl, hspared, rfl⟩ := id hs
  cases op with
  | alloc desc size flags =>
    simp only [msSpared] at hspared
    show NewestFirst (gcAllocTyped gcMarksweepStwVtable w desc size flags).1 ∧ w.graph.Loses
      (gcAllocTyped gcMarksweepStwVtable w desc size flags).1.graph
      (msDies w (gcAllocTyped gcMarksweepStwVtable w desc size flags).1)
    rcases gcAllocTyped_ms_cases h desc hl.2 flags with
      ⟨m, -, -, heq⟩ | ⟨-, a, m, hfit, -, heq⟩ | ⟨a, m, hq, -, hfit, heq⟩
    · rw [heq]
      exact ⟨ho, msDies_nil (fun _ ht => ht) rfl⟩
    · have ha := msAllocated_allocated h desc flags hfit m
      obtain ⟨hnew, hold⟩ := ha.tags
      have htags : (msAllocated w a desc size flags m).graph.tags
          (msCollector.tracked (msAllocated w a desc size flags m)) =
          w.graph.history.length :: w.graph.tags (msCollector.tracked w) := by
        rw [← hnew, ← hold]
        rfl
      rw [heq]
      refine ⟨?_, msDies_nil (fun t ht => ?_) rfl⟩
      · rw [NewestFirst, htags]
        exact List.pairwise_cons.mpr ⟨h.heap.tags_lt, ho⟩
      · rw [htags]
        exact List.mem_cons_of_mem _ ht
    · -- plain memory is not tracked
      rw [heq] at hspared
      exact absurd (hspared.resolve_left (Nat.pos_iff_ne_zero.mp hfit.1))
        (msTracked_of_fits (msManager_inv_quiet h hq) hfit)
  | storeRef | loadRef | get | writeBytes | setRoot | acquire | release => exact hstay rfl
  | collectMinor | collectMajor | collectFull => exact ms_collect_order h ho

/-- In every run the list of objects starts with the newest one. -/
theorem ms_run_order (hw : msCollector.Endures msSpared w) : msManager.Inv w ∧ NewestFirst w := by
  obtain ⟨w₀, ops, hstart, hrun⟩ := hw
  refine hrun.invariant (P := fun w => msManager.Inv w ∧ NewestFirst w)
    (fun _ _ _ hs hst => ⟨(msManager_sparing.step hs.1 hst).1, (ms_step_order hs.1 hs.2 hst).1⟩) ?_
  have hinv := msManager_sound.start w₀ hstart
  obtain ⟨hooks, hgraph⟩ := msCollector_starts hstart
  have hnil : msCollector.tracked w₀ = [] := by
    refine List.eq_nil_iff_forall_not_mem.mpr fun a ha => ?_
    obtain ⟨o, ho, -⟩ := hinv.heap.objs a ha
    rw [hgraph] at ho
    exact absurd ho.symm (Option.some_ne_none o)
  refine ⟨hinv, ?_⟩
  rw [NewestFirst, hnil]
  exact .nil

end

/-! ### The generational collector -/

section

variable {w w' : GenWorld}

/-- The nursery starts with the oldest of its objects. -/
def OldestFirst (w : GenWorld) : Prop := (w.graph.tags (nurseryObjects w)).Pairwise (· < ·)

/-- The dead of the nursery, in the order of their addresses: the young objects that are not among the
    old ones after a minor collection. -/
def deadInNursery (w : GenWorld) : List Nat :=
  w.graph.missing (nurseryObjects w) (gcGenCollectMinorImpl w).graph (gcGenCollectMinorImpl w).old

/-- What the sweep of a full collection leaves out, in the order of the list that the minor collection
    before it has left. -/
def sweptOld (w w' : GenWorld) : List Nat :=
  (gcGenCollectMinorImpl w).graph.missing (gcGenCollectMinorImpl w).old w'.graph w'.old

/-- What dies in a call under the generational collector. An allocation kills only to make room. -/
def genDies (w : GenWorld) (op : ClientOp) (w' : GenWorld) : List Nat :=
  match op with
  | .alloc _ size flags => if AllocCollects w size flags then deadInNursery w else []
  | .collectMinor => deadInNursery w
  | .collectMajor | .collectFull => deadInNursery w ++ sweptOld w w'
  | _ => []

/-- The dead of the nursery are found in the order in which they were allocated. -/
theorem OldestFirst.deadInNursery (ho : OldestFirst w) : (deadInNursery w).Pairwise (· < ·) :=
  ho.sublist List.filter_sublist

/-- What has not been copied is missing afterwards. -/
theorem Copied.missing {ys : List Nat} (hs : MinorStart w ys) (hc : Copied w ys w') :
    w.graph.missing ys w'.graph w'.old = w.graph.tags (deadYoung w'.algoState ys) := by
  refine Graph.missing_eq fun y hy => ?_
  have hkept : w.graph.tagAt y ∈ w'.graph.tags w'.old ↔ y ∈ minorKept w w' := by
    constructor
    · intro ht
      obtain ⟨b, hb, hby⟩ := List.mem_map.mp ht
      obtain ⟨a, ha, rfl⟩ := (hc.mem_old_iff b).mp hb
      rw [hc.tag_forward hs ha] at hby
      exact hs.heap.tag_inj (hc.kept_sub ha) (List.mem_append_right _ hy) hby ▸ ha
    · intro hk
      rw [← hc.tag_forward hs hk]
      exact List.mem_map_of_mem (hc.forwardOf_mem hk)
  have hold : y ∉ w.old := fun ho => hc.ok.old_notMem (hc.mem_old.mpr (.inr ho)) hy
  rw [hkept, Option.isNone_iff_eq_none, findForward_none]
  exact ⟨fun hk t hm => hk (.inr ⟨t, hm⟩), fun hn hk => hk.elim hold fun ⟨t, hm⟩ => hn t hm⟩

/-- What dies in a minor collection. -/
theorem gen_minor_dies (h : (genManager False).Inv w) :
    (gcGenCollectMinorImpl w).graph.history = w.graph.history ∧
      w.graph.Loses (gcGenCollectMinorImpl w).graph (deadInNursery w) := by
  by_cases hused : w.algoState.nurseryUsed = 0
  · rw [Xgc.deadInNursery, gcGenCollectMinorImpl_nil h hused, nurseryObjects_nil hused]
    exact ⟨rfl, Graph.loses_nil rfl⟩
  · obtain ⟨traced, hinv, -, -, heq⟩ := gcGenCollectMinorImpl_spec h hused
    have hcopied := hinv.copied
    rw [Xgc.deadInNursery, heq]
    have hdead : w.graph.missing (nurseryObjects w)
        (minorEnd (gcGenMinorTraceAll w) (nurseryObjects w)).graph
        (minorEnd (gcGenMinorTraceAll w) (nurseryObjects w)).old =
        w.graph.tags (deadYoung (gcGenMinorTraceAll w).rt.algoState (nurseryObjects w)) :=
      hcopied.missing (genManager_start h)
    have htags : (gcGenMinorTraceAll w).rt.graph.tags
        (deadYoung (gcGenMinorTraceAll w).rt.algoState (nurseryObjects w)) =
        w.graph.tags (deadYoung (gcGenMinorTraceAll w).rt.algoState (nurseryObjects w)) :=
      List.map_congr_left fun y hy => by
        simp only [Graph.tagAt, hcopied.young y (List.mem_filter.mp hy).1]
    refine ⟨hcopied.history, ?_⟩
    rw [hdead, ← htags, Graph.Loses, ← hcopied.history, ← hcopied.log, Graph.tags, List.flatMap_map]
    rfl

/-- A sweep of the old objects follows in a full collection. -/
theorem gen_full_dies (h : (genManager False).Inv w) (hs : MinorSpared w) :
    w.graph.Loses (gcGenCollectFullImpl w).graph
      (deadInNursery w ++ sweptOld w (gcGenCollectFullImpl w)) := by
  classical
  obtain ⟨hhist, hminor⟩ := gen_minor_dies h
  obtain ⟨φ, he⟩ := gcGenCollectMinorImpl_spared h hs
  obtain ⟨dropped, wl, m, b, heq, -⟩ := gcGenCollectFullImpl_spec h rfl
  have hswept : sweptOld w (gcGenCollectFullImpl w) = (gcGenCollectMinorImpl w).graph.tags
      ((deadNodes (oldLive (gcGenCollectMinorImpl w) dropped)
        (gcGenCollectMinorImpl w).algoState.oldObjects).map GcNode.obj) := by
    rw [sweptOld, heq]
    exact HeapInv.missing_swept _ _ (he.heapInv h)
  have hkill := Graph.loses_kill (gcGenCollectMinorImpl w).graph
    ((deadNodes (oldLive (gcGenCollectMinorImpl w) dropped)
      (gcGenCollectMinorImpl w).algoState.oldObjects).map GcNode.obj)
  rw [Graph.Loses] at hminor
  rw [Graph.Loses, hminor, hhist, List.append_assoc, ← List.flatMap_append, ← hswept] at hkill
  rw [Graph.Loses, ← hkill, heq]
  rfl

/-- Without objects in the nursery there is no order to keep. -/
theorem OldestFirst.of_empty (hused : w.algoState.nurseryUsed = 0) : OldestFirst w := by
  rw [OldestFirst, nurseryObjects_nil hused]
  exact .nil

/-- The young objects are the tracked ones in the nursery. -/
theorem filter_inNursery (h : (genManager False).Inv w) :
    (genCollector.tracked w).filter (gcGenInNursery w.algoState) = nurseryObjects w := by
  have hold : w.old.filter (gcGenInNursery w.algoState) = [] :=
    List.filter_eq_nil_iff.mpr fun a ha => by
      rw [(genManager_ok h).inNursery_old ha]
      exact Bool.false_ne_true
  have hyoung : (nurseryObjects w).filter (gcGenInNursery w.algoState) = nurseryObjects w :=
    List.filter_eq_self.mpr fun a ha => (genManager_ok h).inNursery_young ha
  show (w.old ++ nurseryObjects w).filter _ = _
  rw [List.filter_append, hold, hyoung, List.nil_append]

/-- A nursery that has been left alone. -/
theorem OldestFirst.of_still (h : (genManager False).Inv w) (h' : (genManager False).Inv w')
    (ho : OldestFirst w) (hplace : SamePlace w w')
    (hs : Still w.graph (genCollector.tracked w) w'.graph (genCollector.tracked w')) :
    OldestFirst w' := by
  have hsame : nurseryObjects w' = nurseryObjects w := by
    rw [← filter_inNursery h, ← filter_inNursery h', hs.tracked]
    exact List.filter_congr fun a _ => gcGenInNursery_congr hplace a
  have htags : w'.graph.tags (nurseryObjects w) = w.graph.tags (nurseryObjects w) :=
    List.map_congr_left fun a _ => hs.tagAt a
  rw [OldestFirst, hsame, htags]
  exact ho

/-- A young object comes after the others in the nursery. -/
theorem OldestFirst.allocYoung (h : (genManager False).Inv w) (ho : OldestFirst w)
    {desc : GcDescriptor} (hd : desc.Ok) {size : Nat} (hmin : sizeofHeader ≤ size)
    (hlt : size < 2 ^ 32) (hfit : w.algoState.nurseryUsed + size ≤ w.algoState.nurseryCapacity)
    {flags : BitVec 32} (hpin : flags &&& allocPinned = 0) :
    OldestFirst (gcGenAllocYoung w desc size).1 := by
  obtain ⟨-, ha⟩ := gcGenAllocYoung_spec h hd hmin hlt hfit hpin
  have hnew := GenOk.nurseryObjects_eq (gcGenAllocYoung_layout h desc hmin hlt hfit)
  have hself : (gcGenAllocYoung w desc size).1.graph.tagAt
      (w.algoState.nurserySpace + w.algoState.nurseryUsed) = w.graph.history.length := ha.tags.1
  have hrest : (gcGenAllocYoung w desc size).1.graph.tags (nurseryObjects w) =
      w.graph.tags (nurseryObjects w) :=
    List.map_congr_left fun y hy => ha.tagAt (List.mem_append_right _ hy)
  rw [OldestFirst, hnew, Graph.tags_append, hrest]
  refine List.pairwise_append.mpr ⟨ho, List.pairwise_singleton .., fun t ht t' ht' => ?_⟩
  obtain rfl := List.mem_singleton.mp ht'
  obtain ⟨y, hy, rfl⟩ := List.mem_map.mp ht
  rw [hself]
  exact h.heap.tag_lt (List.mem_append_right _ hy)

/-- An old object is not among them. -/
theorem OldestFirst.allocOld (h : (genManager False).Inv w) (ho : OldestFirst w)
    {desc : GcDescriptor} {size : Nat} {flags : BitVec 32} {t : Addr} {m : Mem} {b : GcBarrierSet}
    (ha : Allocated desc size flags w.graph (genCollector.tracked w) t
      (allocatedOld w t desc size flags m b).graph
      (genCollector.tracked (allocatedOld w t desc size flags m b))) :
    OldestFirst (allocatedOld w t desc size flags m b) := by
  have hobjs : ∀ y ∈ nurseryObjects w,
      (allocatedOld w t desc size flags m b).graph.objs y = w.graph.objs y := fun y hy =>
    ha.objs (List.mem_append_right _ hy)
  have hsizes : ∀ y ∈ nurseryObjects w,
      (allocatedOld w t desc size flags m b).graph.sizeAt y = w.graph.sizeAt y := fun y hy => by
    simp only [Graph.sizeAt, hobjs y hy]
  have hsame : nurseryObjects (allocatedOld w t desc size flags m b) = nurseryObjects w :=
    (h.alg.layout.tiles.congr hsizes).walk h.alg.layout.tiles.length_le
  have htags : (allocatedOld w t desc size flags m b).graph.tags (nurseryObjects w) =
      w.graph.tags (nurseryObjects w) :=
    List.map_congr_left fun y hy => ha.tagAt (List.mem_append_right _ hy)
  rw [OldestFirst, hsame, htags]
  exact ho

/-- Making room in the nursery finalizes what is dead there. -/
theorem withRoom_order (h : (genManager False).Inv w) (ho : OldestFirst w) {size : Nat}
    {flags : BitVec 32} (hs : AllocCollects w size flags → MinorSpared w) :
    (genManager False).Inv (withRoom w size flags).cleared ∧
      OldestFirst (withRoom w size flags).cleared ∧
      w.graph.Loses (withRoom w size flags).cleared.graph
        (if AllocCollects w size flags then deadInNursery w else []) := by
  unfold withRoom
  split
  · next hc =>
    exact ⟨(genManager_minor_spared h (hs hc)).1,
      .of_empty (w := (gcGenCollectMinorImpl w).cleared) (gcGenCollectMinorImpl_ok h).1.layout.tiles,
      (gen_minor_dies h).2⟩
  · exact ⟨genManager_inv_cleared h, ho, Graph.loses_nil rfl⟩

/-- An allocation finalizes only to make room. -/
theorem gcAllocTyped_order (h : (genManager False).Inv w) (ho : OldestFirst w) {desc : GcDescriptor}
    (hd : desc.Ok) {size : Nat} (hmax : size ≤ 2 ^ 32 - 8) {flags : BitVec 32}
    (hs : genSpared w (.alloc desc size flags)) :
    OldestFirst (gcAllocTyped gcGenCopyMsVtable w desc size flags).1 ∧
      w.graph.Loses (gcAllocTyped gcGenCopyMsVtable w desc size flags).1.graph
        (if AllocCollects w size flags then deadInNursery w else []) := by
  obtain ⟨hminor, hs⟩ := hs
  rcases gcAllocTyped_gen_cases h desc hmax flags with
    ⟨m, b, -, -, -, -, hno, heq⟩ | ⟨hsize, hyoung, heq⟩ |
    ⟨hsize, hno, t, m, b, hfit, hq, hb, hcards, heq⟩ |
    ⟨hsize, -, a, m, b, hq, -, hb, hcards, hfit, heq⟩
  · rw [heq, if_neg hno]
    exact ⟨ho, Graph.loses_nil rfl⟩
  · obtain ⟨hinv, hold, hdies⟩ := withRoom_order h ho hminor
    obtain ⟨hmin, hlt, -⟩ := alignedSize_spec hsize hmax
    have hroom := (withRoom_spec h hsize hyoung).2.1
    obtain ⟨-, ha⟩ := gcGenAllocYoung_spec hinv hd hmin hlt hroom hyoung.1
    rw [heq]
    exact ⟨hold.allocYoung hinv hd hmin hlt hroom hyoung.1, ha.log.trans hdies⟩
  · obtain ⟨hmin, hlt, -⟩ := alignedSize_spec hsize hmax
    obtain ⟨-, ha⟩ := allocatedOld_spec h hd hmin hlt flags hfit hq hb hcards
    rw [heq, if_neg hno]
    exact ⟨ho.allocOld h ha, Graph.loses_nil ha.log⟩
  · -- plain memory is not tracked
    rw [heq] at hs
    have hpos : 0 < size := Nat.lt_of_lt_of_le (by decide) hsize
    exact absurd (hs.resolve_left (Nat.pos_iff_ne_zero.mp hfit.1))
      (genTracked_addObject (genManager_inv_refused h hq hb hcards) hfit hpos desc _)

/-- A spared call keeps the order of the nursery. -/
theorem gen_step_order (h : (genManager False).Inv w) (ho : OldestFirst w) {op : ClientOp}
    (hs : genCollector.SparedStep genSpared w op w') :
    OldestFirst w' ∧ w.graph.Loses w'.graph (genDies w op w') := by
  have hstay : op.stationary = true → OldestFirst w' ∧ w.graph.Loses w'.graph [] := fun hop => by
    have hstill := genManager_sparing.still h hop hs
    exact ⟨ho.of_still h (genManager_sparing.step h hs).1 (gen_step_descends h hs).place hstill,
      Graph.loses_nil hstill.log⟩
  obtain ⟨hl, hspared, rfl⟩ := id hs
  cases op with
  | alloc desc size flags => exact gcAllocTyped_order h ho hl.1 hl.2 hspared
  | storeRef | loadRef | get | writeBytes | setRoot | acquire | release => exact hstay rfl
  | collectMinor =>
    exact ⟨.of_empty (gcGenCollectMinorImpl_ok h).1.layout.tiles, (gen_minor_dies h).2⟩
  | collectMajor | collectFull =>
    obtain ⟨hok, -⟩ := gcGenCollectFullImpl_spared h hspared.1 hspared.2
    exact ⟨.of_empty hok.layout.tiles, gen_full_dies h hspared.1⟩

/-- In every run the nursery starts with the oldest of its objects. -/
theorem gen_run_order (hw : genCollector.Endures genSpared w) :
    (genManager False).Inv w ∧ OldestFirst w := by
  obtain ⟨w₀, ops, hstart, hrun⟩ := hw
  refine hrun.invariant (P := fun w => (genManager False).Inv w ∧ OldestFirst w)
    (fun _ _ _ hs hst => ⟨(genManager_sparing.step hs.1 hst).1, (gen_step_order hs.1 hs.2 hst).1⟩) ?_
  exact ⟨genManager_sound.start w₀ hstart, .of_empty (nurseryUsed_starts hstart)⟩

end

/-! ### Over a whole run -/

/-- In every run, a call under mark-sweep finalizes what is not tracked after it, and
    `gc_runtime_destroy` what is left, from the newest object to the oldest. The generational collector
    finalizes all the dead of the nursery first, from the oldest to the newest, and then, in a full
    collection, the old objects that are swept, in the order of their list. -/
theorem finalized_in_order :
    (∀ w, msCollector.Endures msSpared w →
      (w.graph.tags (msCollector.tracked w)).Pairwise (· > ·) ∧
      (∀ op w', msCollector.SparedStep msSpared w op w' →
        (msDies w w').Pairwise (· > ·) ∧ w.graph.Loses w'.graph (msDies w w')) ∧
      w.graph.Loses (gcRuntimeDestroy gcMarksweepStwVtable w).graph
        (w.graph.tags (msCollector.tracked w))) ∧
    ∀ w, genCollector.Endures genSpared w →
      (deadInNursery w).Pairwise (· < ·) ∧
      ∀ op w', genCollector.SparedStep genSpared w op w' →
        w.graph.Loses w'.graph (genDies w op w') := by
  refine ⟨fun w hw => ?_, fun w hw => ?_⟩
  · obtain ⟨h, ho⟩ := ms_run_order hw
    refine ⟨ho, fun op w' hs => ⟨ho.sublist List.filter_sublist, (ms_step_order h ho hs).2⟩, ?_⟩
    rw [(gcRuntimeDestroy_ms h).1]
    exact w.graph.loses_kill _
  · obtain ⟨h, ho⟩ := gen_run_order hw
    exact ⟨ho.deadInNursery, fun op w' hs => (gen_step_order h ho hs).2⟩

/-- Two cells to which nothing refers, under mark-sweep. -/
def msCells : MsWorld × Addr := msCall (.alloc cell 24 0) msCell.1

theorem msCells_endures : msCollector.Endures msSpared msCells.1 := by
  have hcells : msCollector.SparedStep msSpared msCell.1 (.alloc cell 24 0) msCells.1 :=
    ⟨⟨cell_ok, by decide +kernel⟩, .inr (by decide +kernel), by rw [msCells, msCall]⟩
  exact (msStart_starts.endures.step _ msCell_spared).step _ hcells

/-- The roots of `genRemembering` are dropped, and two more cells are allocated. -/
def genDropped : GenWorld :=
  ((ClientOp.setRoot 1 0).perform genCollector
    ((ClientOp.setRoot 0 0).perform genCollector genRemembering).1).1

def genAged : GenWorld :=
  ((ClientOp.alloc cell 24 0).perform genCollector
    ((ClientOp.alloc cell 24 0).perform genCollector genDropped).1).1

theorem genAged_reaches : genCollector.Reaches genAged := by
  have hdropped : genCollector.Reaches genDropped :=
    (genRemembering_reaches.step (.setRoot 0 0)
      ⟨⟨by decide +kernel, .inl rfl⟩, rfl, by decide +kernel⟩).step (.setRoot 1 0)
      ⟨⟨by decide +kernel, .inl rfl⟩, rfl, by decide +kernel⟩
  exact (hdropped.step (.alloc cell 24 0) ⟨⟨cell_ok, by decide⟩, rfl, by decide +kernel⟩).step
    (.alloc cell 24 0) ⟨⟨cell_ok, by decide⟩, rfl, by decide +kernel⟩

/-- A collection finalizes the newer cell first under mark-sweep. A full collection by the
    generational collector finalizes the young cells first that nothing refers to, then the one that the
    old cell has kept in its minor collection, and last the old cell. -/
theorem finalized_in_order_sample :
    (msDies msCells.1 (msCall .collectFull msCells.1).1).Pairwise (· > ·) ∧
    msCells.1.graph.Loses (msCall .collectFull msCells.1).1.graph
      (msDies msCells.1 (msCall .collectFull msCells.1).1) ∧
    msDies msCells.1 (msCall .collectFull msCells.1).1 = [1, 0] ∧
    (deadInNursery genAged).Pairwise (· < ·) ∧
    genAged.graph.Loses (genCall .collectFull genAged).1.graph
      (genDies genAged .collectFull (genCall .collectFull genAged).1) ∧
    genDies genAged .collectFull (genCall .collectFull genAged).1 = [3, 4] ++ [2, 1] := by
  have hmark : msCollector.SparedStep msSpared msCells.1 .collectFull
      (msCall .collectFull msCells.1).1 :=
    ⟨trivial, markSpared_of_nil (by decide +kernel), by rw [msCall]⟩
  have hfull : genCollector.SparedStep genSpared genAged .collectFull
      (genCall .collectFull genAged).1 :=
    ⟨trivial, gcGenCollectFullImpl_granted (genManager_reaches genAged_reaches)
      (by decide +kernel), by rw [genCall]⟩
  obtain ⟨-, hms, -⟩ := finalized_in_order.1 msCells.1 msCells_endures
  obtain ⟨hyoung, hgen⟩ := finalized_in_order.2 genAged (genCollector_endures genAged_reaches)
  exact ⟨(hms _ _ hmark).1, (hms _ _ hmark).2, by decide +kernel, hyoung, hgen _ _ hfull,
    by decide +kernel⟩

end Xgc
