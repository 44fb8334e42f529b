import Xgc.Algo.MarkSpec
import Xgc.Heap.Collected

/-! Marking and sweeping a heap in order: what is marked is what the program can get at, and
    reclaiming the others ends their lives and takes exactly their bytes off the counters. -/

namespace Xgc

open Lib (Reach Block lookup_eq_some)

/-- The blocks of a list of nodes. -/
def objectBlocks (g : Graph) (nodes : List GcNode) : List Block :=
  nodes.map fun n => (n.obj, g.sizeAt n.obj)

theorem objectBlocks_congr {g g' : Graph} {nodes : List GcNode}
    (h : ∀ n ∈ nodes, g'.sizeAt n.obj = g.sizeAt n.obj) :
    objectBlocks g' nodes = objectBlocks g nodes :=
  List.map_congr_left fun n hn => by rw [h n hn]

/-- The sizes of the objects of a list of nodes, added up. -/
def bytesOf (g : Graph) (nodes : List GcNode) : Nat := ((objectBlocks g nodes).map Prod.snd).sum

/-- The objects at the addresses `ds` are gone, and their deaths are logged. -/
def Graph.kill (g : Graph) (ds : List Addr) : Graph :=
  { g with
    objs := fun a => if a ∈ ds then none else g.objs a
    log := g.log ++ ds.flatMap fun a => deathsOf g.history (g.tagAt a) }

theorem Graph.kill_objs {g : Graph} {ds : List Addr} {a : Addr} (h : a ∉ ds) :
    (g.kill ds).objs a = g.objs a := by
  simp [kill, h]

theorem Graph.kill_nil (g : Graph) : g.kill [] = g := by
  simp [kill]

theorem Graph.kill_cons {g : Graph} {a : Addr} {ds : List Addr} (ha : a ∉ ds) :
    (g.kill [a]).kill ds = g.kill (a :: ds) := by
  have htag : ∀ b ∈ ds, (g.kill [a]).tagAt b = g.tagAt b := by
    intro b hb
    have hba : b ∉ [a] := by
      rw [List.mem_singleton]
      rintro rfl
      exact ha hb
    simp [tagAt, kill_objs hba]
  have hlog : ds.flatMap (fun b => deathsOf g.history ((g.kill [a]).tagAt b)) =
      ds.flatMap fun b => deathsOf g.history (g.tagAt b) :=
    List.flatMap_congr fun b hb => by rw [htag b hb]
  have hobjs : (fun b => if b ∈ ds then none else (g.kill [a]).objs b) =
      fun b => if b ∈ a :: ds then none else g.objs b := by
    funext b
    by_cases hba : b = a <;> by_cases hb : b ∈ ds <;> simp [kill, hba, hb]
  show Graph.mk (fun b => if b ∈ ds then none else (g.kill [a]).objs b) _ _ _ _
    ((g.kill [a]).log ++ ds.flatMap fun b => deathsOf g.history ((g.kill [a]).tagAt b)) = _
  rw [hobjs, hlog]
  simp [kill]

/-- Ending the lives of the objects outside of a closed set is a collection that moves nothing. -/
theorem HeapInv.collected_kill {g : Graph} {tracked : List Addr} (h : HeapInv g tracked)
    {keep : Set Addr} [DecidablePred (· ∈ keep)] (hsub : ∀ a ∈ keep, a ∈ tracked)
    (hclosed : g.Closed keep) :
    Collected g (g.kill (tracked.filter (· ∉ keep))) tracked (tracked.filter (· ∈ keep)) keep
      id where
  zero := rfl
  ne_zero a ha := h.ne_zero (hsub a ha)
  inj _ _ _ _ he := he
  sub := hsub
  closed := hclosed
  image b := by
    simp only [List.mem_filter, decide_eq_true_eq, id_eq, exists_eq_right]
    exact ⟨And.right, fun hb => ⟨hsub b hb, hb⟩⟩
  nodup := h.nodup.filter _
  objs a ha o ho := by
    rw [id_eq, Graph.kill_objs (by simp [ha])]
    exact ho
  roots _ := rfl
  handles := (List.map_id _).symm
  hooks := rfl
  history := rfl
  log := by
    obtain ⟨dead, hl⟩ := h.lives
    refine ⟨(tracked.filter (· ∉ keep)).map g.tagAt, ?_, ?_, fun t => ?_⟩
    · rw [List.flatMap_map]
      rfl
    · refine List.Nodup.map_on (fun a ha b hb hab => ?_) (h.nodup.filter _)
      exact h.tag_inj (List.mem_filter.mp ha).1 (List.mem_filter.mp hb).1 hab
    · simp only [List.mem_map, List.mem_filter, decide_eq_true_eq, and_assoc]

/-! ### Marking -/

theorem HeapInv.markable {g : Graph} {tracked : List Addr} (h : HeapInv g tracked) :
    Markable g tracked where
  nodup := h.nodup
  nonNull := h.nonNull
  objs a ha := by
    obtain ⟨o, ho, -⟩ := h.objs a ha
    exact ⟨o, ho⟩
  tags _ ha _ hb he := h.tag_inj ha hb he

theorem HeapInv.markStart_eq {g : Graph} {tracked : List Addr} (h : HeapInv g tracked) :
    markStart g tracked = g.rootRefs := by
  ext a
  constructor
  · rintro ⟨-, h0, hk | ⟨i, -, hi⟩⟩
    · exact ⟨h0, .inr hk⟩
    · exact ⟨h0, .inl ⟨i, hi⟩⟩
  · intro ha
    refine ⟨h.mem_of_reachable (.root ha), ha.1, ?_⟩
    rcases ha.2 with ⟨i, rfl⟩ | hk
    · obtain ⟨scan, hscan, hmem⟩ := h.hooks g.roots i ((h.roots i).resolve_left ha.1).1 ha.1
      exact .inr ⟨i, by simpa [Graph.scannedRoots, hscan] using hmem, rfl⟩
    · exact .inl hk

theorem HeapInv.markEdge_iff {g : Graph} {tracked : List Addr} (h : HeapInv g tracked) {a : Addr}
    (ha : a ∈ tracked) (b : Addr) : markEdge g tracked a b ↔ g.Edge a b := by
  obtain ⟨o, ho, hok, -⟩ := h.objs a ha
  constructor
  · rintro ⟨-, h0, o', ho', p, -, rfl⟩
    exact ⟨h0, p, Graph.slot_eq ho' p⟩
  · rintro ⟨h0, p, rfl⟩
    have hp := (h.fields a ha p).resolve_left h0
    rw [Graph.slot_eq ho] at h0 hp ⊢
    exact ⟨hp, h0, o, ho, p, hok.traced h0, rfl⟩

/-- Marking a heap in order follows the references of the program. -/
theorem HeapInv.mark_reach {g : Graph} {tracked : List Addr} (h : HeapInv g tracked)
    (P : Addr → Prop) (a : Addr) :
    Reach (markStart g tracked) (fun a b => P a ∧ markEdge g tracked a b) a ↔
      Reach g.rootRefs (fun a b => P a ∧ g.Edge a b) a := by
  rw [h.markStart_eq]
  constructor
  · intro hr
    refine hr.congr fun x y hx he => ⟨he.1, (h.markEdge_iff ?_ y).mp he.2⟩
    cases hx with
    | root hx => exact h.mem_of_reachable (.root hx)
    | step _ he' => exact he'.2.1
  · intro hr
    refine hr.congr fun x y hx he => ⟨he.1, (h.markEdge_iff ?_ y).mpr he.2⟩
    exact h.mem_of_reachable (hx.mono subset_rfl fun _ _ he => he.2)

/-- What is live to a mark phase that dropped the objects with the tags `dropped`. -/
def liveThrough (g : Graph) (dropped : List Nat) (a : Addr) : Prop :=
  Reach g.rootRefs (fun a b => g.tagAt a ∉ dropped ∧ g.Edge a b) a

theorem liveThrough_nil (g : Graph) (a : Addr) : liveThrough g [] a ↔ g.Reachable a := by
  simp [liveThrough, Graph.Reachable]

theorem liveThrough_mono {g : Graph} {dropped dropped' : List Nat} (h : ∀ t ∈ dropped, t ∈ dropped')
    {a : Addr} (ha : liveThrough g dropped' a) : liveThrough g dropped a :=
  ha.mono subset_rfl fun _ _ he => ⟨fun ht => he.1 (h _ ht), he.2⟩

theorem liveThrough_reachable {g : Graph} {dropped : List Nat} {a : Addr}
    (h : liveThrough g dropped a) : g.Reachable a :=
  h.mono subset_rfl fun _ _ he => he.2

/-- The nodes after a mark phase that marked `live`. -/
def markedNodes (live : Addr → Prop) [DecidablePred live] (nodes : List GcNode) :
    List GcNode :=
  nodes.map fun n => { n with marked := decide (live n.obj) }

/-- The nodes of objects in `live`. -/
def liveNodes (live : Addr → Prop) [DecidablePred live] (nodes : List GcNode) : List GcNode :=
  nodes.filter fun n => decide (live n.obj)

/-- The nodes of objects not in `live`. -/
def deadNodes (live : Addr → Prop) [DecidablePred live] (nodes : List GcNode) : List GcNode :=
  nodes.filter fun n => !decide (live n.obj)

theorem nodes_eq_marked {live : Addr → Prop} [DecidablePred live] :
    ∀ {ms nodes : List GcNode}, ms.map GcNode.obj = nodes.map GcNode.obj →
    (∀ m ∈ ms, m.marked = true ↔ live m.obj) → ms = markedNodes live nodes
  | [], [], _, _ => rfl
  | m :: ms, n :: nodes, hkeys, hm => by
      rw [List.map_cons, List.map_cons, List.cons.injEq] at hkeys
      have hrest := nodes_eq_marked hkeys.2 fun x hx => hm x (List.mem_cons_of_mem _ hx)
      have hmark : m.marked = decide (live n.obj) := by
        rw [Bool.eq_iff_iff, hm m (List.mem_cons_self ..), hkeys.1, decide_eq_true_eq]
      rw [hrest, markedNodes, markedNodes, List.map_cons, ← hmark, ← hkeys.1]

/-- Sweeping the nodes that a mark phase has marked. -/
theorem sweep_markedNodes {σ : Type} (reclaim : World σ → Addr → World σ) {live : Addr → Prop}
    [DecidablePred live] {nodes : List GcNode} (hunmarked : ∀ n ∈ nodes, n.marked = false)
    (w : World σ) : sweepNodes reclaim (markedNodes live nodes) w =
      (liveNodes live nodes, ((deadNodes live nodes).map GcNode.obj).foldl reclaim w) := by
  rw [sweepNodes_eq, markedNodes, liveNodes, deadNodes, List.filter_map, List.filter_map,
    List.map_map, List.map_map]
  congr 1
  refine (List.map_congr_left fun n hn => ?_).trans (List.map_id _)
  have hmark := hunmarked n (List.mem_filter.mp hn).1
  show GcNode.mk n.obj false = n
  rw [← hmark]

/-- The mark phase over nodes that can be marked, with what it marks. -/
theorem markPhase_nodes {g : Graph} {nodes : List GcNode}
    (hk : Markable g (nodes.map GcNode.obj)) (hunmarked : ∀ n ∈ nodes, n.marked = false)
    {wl : GcWorklist} (hwl : wl.Ok) (hempty : wl.items = []) (mem : Mem) :
    ∃ ctx, markPhase g { nodes, wl, mem, dropped := [] } = (ctx, false) ∧ ctx.wl.Ok ∧
      (∃ k, ctx.mem = { mem with calls := k }) ∧
      ∀ (live : Addr → Prop) [DecidablePred live],
        (∀ a, live a ↔ Reach (markStart g (nodes.map GcNode.obj))
          (fun a b => g.tagAt a ∉ ctx.dropped ∧ markEdge g (nodes.map GcNode.obj) a b) a) →
        ctx.nodes = markedNodes live nodes := by
  obtain ⟨ctx, heq, hkeys, hwl', hmem, hmarked⟩ := markPhase_spec hk hunmarked hwl hempty mem
  refine ⟨ctx, heq, hwl', hmem, fun live _ hlive => nodes_eq_marked hkeys fun m hm => ?_⟩
  rw [hlive, ← hmarked]
  constructor
  · exact fun ht => ⟨m, hm, rfl, ht⟩
  · rintro ⟨m', hm', hobj, ht⟩
    have hnodup : (ctx.nodes.map GcNode.obj).Nodup := by rw [hkeys]; exact hk.nodup
    have h₁ := (lookup_eq_some (k := m.obj) hnodup).mpr ⟨hm, rfl⟩
    have h₂ := (lookup_eq_some (k := m.obj) hnodup).mpr ⟨hm', hobj⟩
    rw [Option.some.inj (h₁.symm.trans h₂)]
    exact ht

/-! ### Reclaiming -/

/-- `gc_reclaim_object` on an object whose storage is in use. -/
theorem gcReclaimObject_eq {σ : Type} {w : World σ} {a : Addr} {o : GcHeader} {rest : List Block}
    (ho : w.graph.objs a = some o) (hd : ∃ d, o.desc = some d)
    (hh : w.graph.history[o.tag]? = o.desc) (hsize : o.size ≤ w.stats.totalAllocated)
    (howns : w.mem.Owns ((a, o.size) :: rest)) :
    gcReclaimObject w a =
      { w with
        graph := w.graph.kill [a]
        stats := { w.stats with totalAllocated := w.stats.totalAllocated - o.size }
        mem := w.mem.free a } ∧ (w.mem.free a).Owns rest := by
  obtain ⟨d, hd⟩ := hd
  have h0 : a ≠ 0 :=
    Nat.pos_iff_ne_zero.mp (howns.range _ (howns.live _ (List.mem_cons_self ..))).1
  refine ⟨?_, howns.free⟩
  have hgraph : { w.graph.setObj a none with log := w.graph.log ++ o.deathEvents } =
      w.graph.kill [a] := by
    have hobjs : (w.graph.setObj a none).objs = fun b => if b ∈ [a] then none else w.graph.objs b := by
      funext b
      simp
    simp only [Graph.kill, List.flatMap_singleton, Graph.tagAt_eq ho,
      GcHeader.deathEvents_eq hd hh, ← hobjs]
    rfl
  have hstats : w.stats.sub o.size =
      { w.stats with totalAllocated := w.stats.totalAllocated - o.size } := by
    have hlt : ¬ w.stats.totalAllocated < o.size := Nat.not_lt.mpr hsize
    simp [GcStats.sub, hsize, hlt]
  unfold gcReclaimObject
  rw [if_neg h0, ho]
  simp only [hgraph, hstats]

theorem liveNodes_map {live : Addr → Prop} [DecidablePred live] (nodes : List GcNode) :
    (liveNodes live nodes).map GcNode.obj = (nodes.map GcNode.obj).filter (live ·) := by
  rw [liveNodes, List.filter_map]
  rfl

theorem deadNodes_map {live : Addr → Prop} [DecidablePred live] (nodes : List GcNode) :
    (deadNodes live nodes).map GcNode.obj = (nodes.map GcNode.obj).filter (¬ live ·) := by
  rw [deadNodes, List.filter_map]
  congr 1
  refine List.filter_congr fun n _ => ?_
  simp

theorem mem_liveNodes {live : Addr → Prop} [DecidablePred live] {nodes : List GcNode} {a : Addr} :
    a ∈ (liveNodes live nodes).map GcNode.obj ↔ a ∈ nodes.map GcNode.obj ∧ live a := by
  rw [liveNodes_map, List.mem_filter, decide_eq_true_eq]

theorem mem_deadNodes {live : Addr → Prop} [DecidablePred live] {nodes : List GcNode} {a : Addr} :
    a ∈ (deadNodes live nodes).map GcNode.obj ↔ a ∈ nodes.map GcNode.obj ∧ ¬ live a := by
  rw [deadNodes_map, List.mem_filter, decide_eq_true_eq]

theorem bytesOf_congr {g g' : Graph} {nodes : List GcNode}
    (h : ∀ n ∈ nodes, g'.sizeAt n.obj = g.sizeAt n.obj) : bytesOf g' nodes = bytesOf g nodes := by
  rw [bytesOf, objectBlocks_congr h, bytesOf]

/-- Killing the dead objects leaves the live ones. -/
theorem objs_kill_dead {live : Addr → Prop} [DecidablePred live] (g : Graph) (nodes : List GcNode)
    {a : Addr} (ha : live a) :
    (g.kill ((deadNodes live nodes).map GcNode.obj)).objs a = g.objs a :=
  Graph.kill_objs fun hd => (mem_deadNodes.mp hd).2 ha

theorem tagAt_kill_dead {live : Addr → Prop} [DecidablePred live] (g : Graph)
    (nodes : List GcNode) {a : Addr} (ha : live a) :
    (g.kill ((deadNodes live nodes).map GcNode.obj)).tagAt a = g.tagAt a := by
  rw [Graph.tagAt, objs_kill_dead g nodes ha]
  rfl

theorem sizeAt_kill_dead {live : Addr → Prop} [DecidablePred live] (g : Graph)
    (nodes : List GcNode) :
    ∀ n ∈ liveNodes live nodes,
      (g.kill ((deadNodes live nodes).map GcNode.obj)).sizeAt n.obj = g.sizeAt n.obj := by
  intro n hn
  have hlive := (mem_liveNodes.mp (List.mem_map_of_mem hn)).2
  rw [Graph.sizeAt, objs_kill_dead g nodes hlive]
  rfl

/-- Sweeping what is not reachable is a collection in place. -/
theorem HeapInv.collected_sweep {g : Graph} {nodes : List GcNode}
    (h : HeapInv g (nodes.map GcNode.obj)) [DecidablePred g.Reachable] :
    Collected g (g.kill ((deadNodes g.Reachable nodes).map GcNode.obj)) (nodes.map GcNode.obj)
      ((liveNodes g.Reachable nodes).map GcNode.obj) {a | g.Reachable a} id := by
  rw [deadNodes_map, liveNodes_map]
  exact @HeapInv.collected_kill _ _ h {a | g.Reachable a} _ (fun a ha => h.mem_of_reachable ha)
    h.closed_reachable

/-- What reclaiming needs to know of an object. -/
def Reclaimable (g : Graph) (a : Addr) : Prop :=
  ∃ o, g.objs a = some o ∧ (∃ d, o.desc = some d) ∧ g.history[o.tag]? = o.desc

theorem HeapInv.reclaimable {g : Graph} {tracked : List Addr} (h : HeapInv g tracked) {a : Addr}
    (ha : a ∈ tracked) : Reclaimable g a := by
  obtain ⟨o, ho, hok, hh⟩ := h.objs a ha
  obtain ⟨d, hd, -⟩ := hok.desc
  exact ⟨o, ho, ⟨d, hd⟩, hh⟩

theorem Reclaimable.kill {g : Graph} {a b : Addr} (h : Reclaimable g a) (hab : a ≠ b) :
    Reclaimable (g.kill [b]) a := by
  obtain ⟨o, ho, hd, hh⟩ := h
  exact ⟨o, by rw [Graph.kill_objs (by simpa using hab)]; exact ho, hd, hh⟩

theorem objectBlocks_kill {g : Graph} {a : Addr} {nodes : List GcNode}
    (h : a ∉ nodes.map GcNode.obj) : objectBlocks (g.kill [a]) nodes = objectBlocks g nodes :=
  objectBlocks_congr fun n hn => by
    have hne : n.obj ≠ a := fun he => h (he ▸ List.mem_map_of_mem hn)
    simp [Graph.sizeAt, @Graph.kill_objs g [a] n.obj (by simpa using hne)]

theorem bytesOf_cons (g : Graph) (n : GcNode) (nodes : List GcNode) :
    bytesOf g (n :: nodes) = g.sizeAt n.obj + bytesOf g nodes := by
  simp [bytesOf, objectBlocks]

/-- Reclaiming the objects of a list of nodes. -/
theorem reclaimAll {σ : Type} {rest : List Block} : ∀ (nodes : List GcNode) {w : World σ},
    (nodes.map GcNode.obj).Nodup → (∀ n ∈ nodes, Reclaimable w.graph n.obj) →
    w.mem.Owns (objectBlocks w.graph nodes ++ rest) →
    bytesOf w.graph nodes ≤ w.stats.totalAllocated →
    ∃ m, (nodes.map GcNode.obj).foldl gcReclaimObject w =
      { w with
        graph := w.graph.kill (nodes.map GcNode.obj)
        stats := { w.stats with
          totalAllocated := w.stats.totalAllocated - bytesOf w.graph nodes }
        mem := m } ∧ m.Owns rest ∧ m.failed = w.mem.failed
  | [], w, _, _, howns, _ => ⟨w.mem, by simp [Graph.kill_nil, bytesOf, objectBlocks], howns, rfl⟩
  | n :: nodes, w, hnodup, hobjs, howns, hle => by
      rw [List.map_cons, List.nodup_cons] at hnodup
      obtain ⟨o, ho, hd, hh⟩ := hobjs n (List.mem_cons_self ..)
      have hsize : w.graph.sizeAt n.obj = o.size := Graph.sizeAt_eq ho
      rw [bytesOf_cons, hsize] at hle
      have hown : w.mem.Owns ((n.obj, o.size) :: (objectBlocks w.graph nodes ++ rest)) := by
        rw [← hsize]
        exact howns
      obtain ⟨heq, hfree⟩ := gcReclaimObject_eq ho hd hh (by omega) hown
      have hblocks := objectBlocks_kill (g := w.graph) hnodup.1
      have hbytes : bytesOf (w.graph.kill [n.obj]) nodes = bytesOf w.graph nodes := by
        rw [bytesOf, hblocks, bytesOf]
      rw [List.map_cons, List.foldl_cons, heq]
      obtain ⟨m, hfold, hm, hfail⟩ := reclaimAll nodes (w := { w with
          graph := w.graph.kill [n.obj]
          stats := { w.stats with totalAllocated := w.stats.totalAllocated - o.size }
          mem := w.mem.free n.obj }) hnodup.2
        (fun k hk => (hobjs k (List.mem_cons_of_mem _ hk)).kill fun he =>
          hnodup.1 (he ▸ List.mem_map_of_mem hk))
        (by rw [hblocks]; exact hfree)
        (by
          show bytesOf (w.graph.kill [n.obj]) nodes ≤ w.stats.totalAllocated - o.size
          rw [hbytes]
          omega)
      refine ⟨m, ?_, hm, hfail.trans (Mem.free_failed _ _)⟩
      rw [hfold]
      simp only [Graph.kill_cons hnodup.1, hbytes, bytesOf_cons, hsize, Nat.sub_sub]

/-- The kept and the reclaimed part of a list of nodes have the bytes of the list. -/
theorem bytesOf_filter (g : Graph) (p : GcNode → Bool) : ∀ nodes : List GcNode,
    bytesOf g (nodes.filter p) + bytesOf g (nodes.filter fun n => !p n) = bytesOf g nodes
  | [] => rfl
  | n :: nodes => by
      have ih := bytesOf_filter g p nodes
      by_cases hp : p n = true
      · simp only [List.filter_cons_of_pos hp, List.filter_cons, hp, Bool.not_true,
          Bool.false_eq_true, if_false, bytesOf_cons]
        omega
      · simp only [List.filter_cons, hp, Bool.not_false, if_true, bytesOf_cons,
          Bool.false_eq_true, if_false]
        omega

end Xgc
